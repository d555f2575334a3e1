import Nuvix.Lib.RingBuffer
import Nuvix.Fs.Kiov

/-!
# Pipes: `fs/pipe.c`

A pipe is a ring of one page with 32-bit counters, a mutex and a wait queue. A call of
`pipe_read` or `pipe_write` takes the mutex, drops it while it waits, and takes it again.
The model has one step for each section under `wq.lock`, for each copy, and for each
operation of the mutex, so that the calls of any number of tasks interleave at every
point where another task can be seen.

A signal is an input: it interrupts a call where `mutex_lock_interruptible` or
`wait_event_interruptible` would otherwise sleep. Waking sleepers is left out; a sleeping
call may look at its condition again at any time.
-/

namespace Nuvix.Pipe

/-- `PIPE_BUF_SIZE`. -/
def bufSize : ℕ := 4096

/-- The number of values of `unsigned int`. -/
def uintSize : ℕ := 2 ^ 32

/-- `struct pipe` without the mutex, the wait queue and the inode. -/
structure Pipe where
  buffer : ℕ → UInt8
  head : ℕ
  tail : ℕ
  readers : ℕ
  writers : ℕ

namespace Pipe

/-- `head - tail`. -/
def used (p : Pipe) : ℕ := RingBuffer.sub uintSize p.head p.tail

/-- `PIPE_BUF_SIZE - (head - tail)`. -/
def space (p : Pipe) : ℕ := RingBuffer.sub uintSize bufSize p.used

/-- What a reader waits for. -/
def readable (p : Pipe) : Bool := p.head ≠ p.tail ∨ p.writers = 0

/-- What a writer waits for. -/
def writable (p : Pipe) (need : ℕ) : Bool := p.readers = 0 ∨ need ≤ p.space

end Pipe

/-- The two files of a pipe. -/
inductive End
  | reader
  | writer
  deriving DecidableEq

/-- The variables of `pipe_read`; `fault` is that `ret` is `-EFAULT`. -/
structure ReadCall where
  nonblock : Bool
  iov : Kiov
  done : ℕ
  fault : Bool

/-- The variables of `pipe_write`, with the memory of the caller. `id` numbers the calls
and `buf` is the whole buffer the call was made with. -/
structure WriteCall where
  id : ℕ
  nonblock : Bool
  data : ℕ → UInt8
  buf : List ℕ
  total : ℕ
  iov : Kiov
  done : ℕ

namespace WriteCall

def atomic (w : WriteCall) : Bool := w.total ≤ bufSize

def need (w : WriteCall) : ℕ := if w.atomic then w.iov.count else 1

end WriteCall

/-- Where a task stands in `pipe_read`. -/
inductive ReadPc
  | lock
  | check
  | unlockAgain
  | unlockWait
  | wait
  | relock
  | copy
  | commit (count copied : ℕ)
  | unlock

/-- Where a task stands in `pipe_write`. -/
inductive WritePc
  | lock
  | test
  | unlockPipe
  | unlockAgain
  | unlockWait
  | wait
  | relock
  | copy (offset count : ℕ)
  | commit (count copied : ℕ)
  | unlockFault
  | unlock

/-- What a task is doing. A finished call stays until the task goes on. -/
inductive Phase
  | idle
  | read (r : ReadCall) (pc : ReadPc)
  | write (w : WriteCall) (pc : WritePc)
  | readDone (ret : Except Errno ℕ)
  | writeDone (w : WriteCall) (ret : Except Errno ℕ)

/-- The file a call in progress keeps open. -/
def Phase.file : Phase → Option End
  | .read _ _ => some .reader
  | .write _ _ => some .writer
  | _ => none

/-- The history: the number of calls of `pipe_write` and the bytes their buffers hold, every
byte that was appended with the call that appended it, and every byte that was delivered. -/
structure Log where
  calls : ℕ
  source : ℕ → List UInt8
  written : List (ℕ × UInt8)
  delivered : List UInt8

/-- The length of a call. -/
def Log.size (log : Log) (c : ℕ) : ℕ := (log.source c).length

structure State (N : ℕ) where
  pipe : Pipe
  /-- Whether the file of an end still has references. -/
  isOpen : End → Bool
  /-- `mutex.owner`. -/
  owner : Option (Fin N)
  task : Fin N → Phase
  log : Log

inductive Action (N : ℕ)
  | read (i : Fin N) (file : End) (nonblock : Bool) (vec : List Iovec)
  | write (i : Fin N) (file : End) (nonblock : Bool) (data : ℕ → UInt8) (vec : List Iovec)
  /-- The next step of a call; `miss` says where the memory of the program faults. -/
  | run (i : Fin N) (miss : ℕ → ℕ → ℕ)
  /-- A call that would sleep finds a signal pending. -/
  | interrupt (i : Fin N)
  /-- A task takes the result of its call. -/
  | leave (i : Fin N)
  | release (file : End)

variable {N : ℕ}

namespace State

def setTask (s : State N) (i : Fin N) (ph : Phase) : State N :=
  { s with task := Function.update s.task i ph }

/-- `mutex_lock_interruptible` when the mutex is free; otherwise the task sleeps. -/
def acquire (s : State N) (i : Fin N) (ph : Phase) : Option (State N) :=
  if s.owner = none then some { s.setTask i ph with owner := some i } else none

/-- `mutex_unlock`. -/
def unlock (s : State N) (i : Fin N) (ph : Phase) : State N :=
  { s.setTask i ph with owner := none }

/-- `mutex_lock_interruptible` with a signal pending: only a mutex that is held makes
the call fail. -/
def interruptLock (s : State N) (i : Fin N) (ph : Phase) : Option (State N) :=
  if s.owner = none then none else some (s.setTask i ph)

end State

/-- `done ? done : ret`. -/
def doneOr (done : ℕ) (ret : Except Errno ℕ) : Except Errno ℕ := if done ≠ 0 then .ok done else ret

/-- The steps of `pipe_read`. -/
def readStep (s : State N) (i : Fin N) (miss : ℕ → ℕ → ℕ) (r : ReadCall) :
    ReadPc → Option (State N)
  | .lock => s.acquire i (.read r .check)
  | .check =>
    if s.pipe.readable then some (s.setTask i (.read r .copy))
    else if r.nonblock then some (s.setTask i (.read r .unlockAgain))
    else some (s.setTask i (.read r .unlockWait))
  | .unlockAgain => some (s.unlock i (.readDone (.error .eagain)))
  | .unlockWait => some (s.unlock i (.read r .wait))
  | .wait => if s.pipe.readable then some (s.setTask i (.read r .relock)) else none
  | .relock => s.acquire i (.read r .check)
  | .copy =>
    if r.iov.count ≠ 0 ∧ s.pipe.head ≠ s.pipe.tail then
      let offset := s.pipe.tail % bufSize
      let count := min (min s.pipe.used (bufSize - offset)) r.iov.count
      let copy := copyKiov miss count r.iov
      let bytes := RingBuffer.load s.pipe.buffer offset copy.moved.length
      some { s.setTask i (.read { r with iov := copy.iov } (.commit count copy.moved.length)) with
        log := { s.log with delivered := s.log.delivered ++ bytes } }
    else some (s.setTask i (.read r .unlock))
  | .commit count copied =>
    let r' := { r with done := r.done + copied, fault := copied ≠ count }
    let pc := if copied ≠ count then .unlock else .copy
    some { s.setTask i (.read r' pc) with
      pipe := { s.pipe with tail := (s.pipe.tail + copied) % uintSize } }
  | .unlock =>
    some (s.unlock i (.readDone (doneOr r.done (if r.fault then .error .efault else .ok 0))))

/-- The steps of `pipe_write`. -/
def writeStep (s : State N) (i : Fin N) (miss : ℕ → ℕ → ℕ) (w : WriteCall) :
    WritePc → Option (State N)
  | .lock => s.acquire i (.write w .test)
  | .test =>
    if w.iov.count = 0 then some (s.setTask i (.write w .unlock))
    else if s.pipe.readers = 0 then some (s.setTask i (.write w .unlockPipe))
    else if s.pipe.space < w.need then
      if w.nonblock then some (s.setTask i (.write w .unlockAgain))
      else some (s.setTask i (.write w .unlockWait))
    else
      let offset := s.pipe.head % bufSize
      let count := min (min s.pipe.space (bufSize - offset)) w.iov.count
      some (s.setTask i (.write w (.copy offset count)))
  | .unlockPipe => some (s.unlock i (.writeDone w (doneOr w.done (.error .epipe))))
  | .unlockAgain => some (s.unlock i (.writeDone w (doneOr w.done (.error .eagain))))
  | .unlockWait => some (s.unlock i (.write w .wait))
  | .wait => if s.pipe.writable w.need then some (s.setTask i (.write w .relock)) else none
  | .relock => s.acquire i (.write w .test)
  | .copy offset count =>
    let copy := copyKiov miss count w.iov
    -- `copy_from_user` clears what it could not read.
    let bytes := copy.moved.map w.data ++ List.replicate copy.missing 0
    some { s.setTask i (.write { w with iov := copy.iov } (.commit count copy.moved.length)) with
      pipe := { s.pipe with buffer := RingBuffer.store s.pipe.buffer offset bytes } }
  | .commit count copied =>
    let bytes := RingBuffer.load s.pipe.buffer (s.pipe.head % bufSize) copied
    let w' := { w with done := w.done + copied }
    let pc := if copied ≠ count then .unlockFault else .test
    some { s.setTask i (.write w' pc) with
      pipe := { s.pipe with head := (s.pipe.head + copied) % uintSize }
      log := { s.log with written := s.log.written ++ bytes.map fun b => (w.id, b) } }
  | .unlockFault => some (s.unlock i (.writeDone w (doneOr w.done (.error .efault))))
  | .unlock => some (s.unlock i (.writeDone w (.ok w.done)))

/-- A signal where a call of `pipe_read` would sleep. -/
def readInterrupt (s : State N) (i : Fin N) : ReadPc → Option (State N)
  | .lock => s.interruptLock i (.readDone (.error .eintr))
  | .wait =>
    if s.pipe.readable then none else some (s.setTask i (.readDone (.error .eintr)))
  | .relock => s.interruptLock i (.readDone (.error .eintr))
  | _ => none

/-- A signal where a call of `pipe_write` would sleep. The second attempt to lock the
mutex returns the error as it is. -/
def writeInterrupt (s : State N) (i : Fin N) (w : WriteCall) : WritePc → Option (State N)
  | .lock => s.interruptLock i (.writeDone w (.error .eintr))
  | .wait =>
    if s.pipe.writable w.need then none
    else some (s.setTask i (.writeDone w (doneOr w.done (.error .eintr))))
  | .relock => s.interruptLock i (.writeDone w (.error .eintr))
  | _ => none

/-- The length of a buffer, as `import_iovec` adds it up. -/
def total (vec : List Iovec) : ℕ := (vec.map Iovec.len).sum

/-- The start of `pipe_read`, which `vfs_read` does not call for an empty buffer. -/
def beginRead (file : End) (nonblock : Bool) (vec : List Iovec) : Phase :=
  if file = .reader then .read ⟨nonblock, Kiov.init vec (total vec), 0, false⟩ .lock
  else .readDone (.error .ebadf)

/-- The start of `pipe_write`. -/
def beginWrite (id : ℕ) (file : End) (nonblock : Bool) (data : ℕ → UInt8) (vec : List Iovec) :
    Phase :=
  let iov := Kiov.init vec (total vec)
  let w : WriteCall := ⟨id, nonblock, data, iov.addrs, total vec, iov, 0⟩
  if file = .writer then .write w .lock else .writeDone w (.error .ebadf)

/-- `pipe_release`, run when the last reference to a file goes. The memory of the pipe is
freed with its second end, when no call can be made any more. -/
def release (p : Pipe) : End → Pipe
  | .reader => { p with readers := RingBuffer.sub uintSize p.readers 1 }
  | .writer => { p with writers := RingBuffer.sub uintSize p.writers 1 }

def step (s : State N) : Action N → Option (State N)
  | .read i file nonblock vec =>
    match s.task i with
    | .idle =>
      if s.isOpen file ∧ total vec ≠ 0 then some (s.setTask i (beginRead file nonblock vec))
      else none
    | _ => none
  | .write i file nonblock data vec =>
    match s.task i with
    | .idle =>
      if s.isOpen file ∧ total vec ≠ 0 then
        some { s.setTask i (beginWrite s.log.calls file nonblock data vec) with
          log := { s.log with
            calls := s.log.calls + 1
            source := Function.update s.log.source s.log.calls
              ((Kiov.init vec (total vec)).addrs.map data) } }
      else none
    | _ => none
  | .run i miss =>
    match s.task i with
    | .read r pc => readStep s i miss r pc
    | .write w pc => writeStep s i miss w pc
    | _ => none
  | .interrupt i =>
    match s.task i with
    | .read _ pc => readInterrupt s i pc
    | .write w pc => writeInterrupt s i w pc
    | _ => none
  | .leave i =>
    match s.task i with
    | .readDone _ => some (s.setTask i .idle)
    | .writeDone _ _ => some (s.setTask i .idle)
    | _ => none
  | .release file =>
    if s.isOpen file ∧ ∀ i, (s.task i).file ≠ some file then
      some { s with
        pipe := release s.pipe file
        isOpen := Function.update s.isOpen file false }
    else none

/-- The pipe as `pipe_alloc` makes it, with whatever its buffer holds. -/
def boot (N : ℕ) (buffer : ℕ → UInt8) : State N where
  pipe := ⟨buffer, 0, 0, 1, 1⟩
  isOpen := fun _ => true
  owner := none
  task := fun _ => .idle
  log := ⟨0, fun _ => [], [], []⟩

end Nuvix.Pipe
