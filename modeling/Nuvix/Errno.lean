import Mathlib

/-!
# Error numbers

The kernel reports failure by a negative error number. A modelled function
returns `Except Errno`, and `Errno.code` gives the number the C function would
return negated.
-/

namespace Nuvix

/-- The error numbers the modelled functions return. -/
inductive Errno
  | eperm
  | enoent
  | esrch
  | eintr
  | eio
  | enoexec
  | ebadf
  | eagain
  | enomem
  | eacces
  | efault
  | ebusy
  | eexist
  | enodev
  | einval
  | efbig
  | enospc
  | epipe
  | eoverflow
  | eopnotsupp
  | etimedout
  | euclean
  | erestartsys
  deriving DecidableEq, Repr

/-- The positive number `errno.h` gives to an error. -/
def Errno.code : Errno → ℤ
  | .eperm => 1
  | .enoent => 2
  | .esrch => 3
  | .eintr => 4
  | .eio => 5
  | .enoexec => 8
  | .ebadf => 9
  | .eagain => 11
  | .enomem => 12
  | .eacces => 13
  | .efault => 14
  | .ebusy => 16
  | .eexist => 17
  | .enodev => 19
  | .einval => 22
  | .efbig => 27
  | .enospc => 28
  | .epipe => 32
  | .eoverflow => 75
  | .eopnotsupp => 95
  | .etimedout => 110
  | .euclean => 117
  | .erestartsys => 512

end Nuvix
