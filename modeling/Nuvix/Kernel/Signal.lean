import Nuvix.Errno

/-!
# Signals: `kernel/signal.c`

Each task has a set of pending signals with a queue of their details, a mask of blocked
signals and a table of actions, all under its `signal_lock`. The functions here are the
sections that hold the lock, one for each place that takes it.
-/

namespace Nuvix.Signal

/-- `sigset_t`, a 64-bit word. -/
abbrev Sigset := BitVec 64

def sigkill : ℕ := 9
def sigchld : ℕ := 17
def sigcont : ℕ := 18
def sigstop : ℕ := 19
def sigtstp : ℕ := 20
def sigttin : ℕ := 21
def sigttou : ℕ := 22
def sigurg : ℕ := 23
def sigwinch : ℕ := 28

/-- `SIG_MAX`. -/
def sigMax : ℕ := 31

/-- `sigmask(sig)`. -/
def sigmask (sig : ℕ) : Sigset := BitVec.twoPow 64 (sig - 1)

/-- `SIG_IGNORED`. -/
def sigIgnored : Sigset :=
  sigmask sigchld ||| sigmask sigcont ||| sigmask sigurg ||| sigmask sigwinch

/-- `SIG_UNBLOCKMASK`. -/
def sigUnblockmask : Sigset := sigmask sigkill ||| sigmask sigstop

/-- `SIG_STOPMASK`. -/
def sigStopmask : Sigset :=
  sigmask sigstop ||| sigmask sigtstp ||| sigmask sigttin ||| sigmask sigttou

/-- `sighandler_t`: `SIG_DFL`, `SIG_IGN` or an address. -/
inductive Handler
  | dfl
  | ign
  | fn (addr : ℕ)
  deriving DecidableEq

/-- `SA_NODEFER`. -/
def saNodefer : BitVec 64 := 0x40000000

/-- `SA_RESETHAND`. -/
def saResethand : BitVec 64 := 0x80000000

/-- `struct sigaction`. -/
structure Sigaction where
  handler : Handler
  flags : BitVec 64
  mask : Sigset
  deriving DecidableEq

/-- `siginfo_t`; `fields` stands for the union of details. -/
structure Siginfo where
  signo : ℕ
  code : ℤ
  fields : ℕ
  deriving DecidableEq

/-- `SI_USER`. -/
def siUser : ℤ := 0

/-- `struct ksignal`. -/
structure Ksignal where
  info : Siginfo
  action : Sigaction
  oldmask : Sigset

/-- The fields of `struct task` under `signal_lock`, with the flags that belong to them.
`actions` is indexed by the number of the signal. -/
structure Sig where
  /-- `pending.signal` -/
  signal : Sigset
  /-- `pending.list` -/
  queue : List Siginfo
  blocked : Sigset
  /-- The mask that `sigsuspend` replaced. -/
  sigmask : Sigset
  actions : ℕ → Sigaction
  /-- `TF_SIGPENDING` -/
  sigpending : Bool
  /-- `TF_STOPPENDING` -/
  stoppending : Bool
  /-- `TF_SIGSUSPEND` -/
  sigsuspended : Bool

/-- `signal_ignored`. -/
def signalIgnored (action : Sigaction) (sig : ℕ) : Bool :=
  action.handler = .ign ∨ (action.handler = .dfl ∧ sigIgnored &&& sigmask sig ≠ 0)

/-- `recalc_sigpending`. -/
def recalcSigpending (t : Sig) : Sig := { t with sigpending := t.signal &&& ~~~t.blocked ≠ 0 }

/-- `signal_task_init`. -/
def signalTaskInit : Sig where
  signal := 0
  queue := []
  blocked := 0
  sigmask := 0
  actions := fun _ => ⟨.dfl, 0, 0⟩
  sigpending := false
  stoppending := false
  sigsuspended := false

/-- `flush_signals_locked`. -/
def flushSignals (t : Sig) (mask : Sigset) : Sig :=
  { t with
    queue := t.queue.filter fun info => mask &&& sigmask info.signo = 0
    signal := t.signal &&& ~~~mask }

/-! ### `send_signal` -/

/-- A stop signal and `SIGCONT` cancel each other. -/
def sendFlush (t : Sig) (sig : ℕ) : Sig :=
  if sigStopmask &&& sigmask sig ≠ 0 then flushSignals t (sigmask sigcont)
  else if sig = sigcont then flushSignals t sigStopmask
  else t

/-- `SIGCONT` and `SIGKILL` cancel a stop that is under way. -/
def resumes (sig : ℕ) : Bool := sig = sigcont ∨ sig = sigkill

def sendClear (t : Sig) (sig : ℕ) : Sig :=
  if resumes sig then { t with stoppending := false } else t

/-- Whether a signal becomes pending: not if it is already, nor if it is ignored. -/
def accepts (t : Sig) (sig : ℕ) : Bool :=
  t.signal &&& sigmask sig = 0 ∧
    (t.blocked &&& sigmask sig ≠ 0 ∨ ¬ signalIgnored (t.actions sig) sig)

/-- The signal is made pending; `alloc` tells whether there was memory for an entry. -/
def sendQueue (t : Sig) (info : Siginfo) (alloc : Bool) : Sig :=
  if accepts t info.signo then
    { t with
      queue := if alloc then t.queue ++ [info] else t.queue
      signal := t.signal ||| sigmask info.signo }
  else t

/-- What `send_signal` does under `signal_lock`, apart from resuming the task. -/
def sendSection (t : Sig) (info : Siginfo) (alloc : Bool) : Sig :=
  recalcSigpending (sendQueue (sendClear (sendFlush t info.signo) info.signo) info alloc)

/-! ### `get_signal` -/

/-- `dequeue_signal_locked`. -/
def dequeueSignal (t : Sig) (sig : ℕ) : Sig × Siginfo :=
  let t' := { t with signal := t.signal &&& ~~~sigmask sig }
  match t.queue.find? fun info => info.signo = sig with
  | some info => ({ t' with queue := t.queue.eraseP fun info => info.signo = sig }, info)
  | none => (t', ⟨sig, siUser, 0⟩)

/-- `find_first_bit(&pending, SIG_MAX)`. -/
def findFirstBit (pending : Sigset) : ℕ :=
  ((List.range sigMax).find? fun i => pending.getLsbD i).getD sigMax

/-- The signal to take first. -/
def pickSignal (pending : Sigset) : ℕ :=
  if pending &&& sigmask sigkill ≠ 0 then sigkill else findFirstBit pending + 1

/-- The signal a round of `get_signal` handles, and the state without it. A fault is
handled at once, whether its signal is blocked or not. -/
def takeSignal (t : Sig) (fault : Option Siginfo) : Option (Sig × Siginfo) :=
  match fault with
  | some info =>
    if t.signal &&& sigmask info.signo ≠ 0 then some (dequeueSignal t info.signo)
    else some (t, info)
  | none =>
    let pending := t.signal &&& ~~~t.blocked
    if pending = 0 then none else some (dequeueSignal t (pickSignal pending))

/-- What one round of `get_signal` found. -/
structure Got where
  signal : Ksignal
  fatal : Bool

/-- The signal is taken, its action is read, and a handler that is used once is reset. -/
def getTake (t : Sig) (fault : Option Siginfo) : Option (Sig × Got) :=
  (takeSignal t fault).map fun (t, info) =>
    let sig := info.signo
    let action := t.actions sig
    let oldmask := if t.sigsuspended then t.sigmask else t.blocked
    let fatal : Bool := fault.isSome ∧
      (t.blocked &&& sigmask sig ≠ 0 ∨ action.handler = .dfl ∨ action.handler = .ign)
    let reset : Bool := ¬ fatal ∧ action.handler ≠ .dfl ∧ action.handler ≠ .ign ∧
      action.flags &&& saResethand ≠ 0
    let actions :=
      if reset then Function.update t.actions sig { action with handler := .dfl } else t.actions
    ({ t with actions := actions }, ⟨⟨info, action, oldmask⟩, fatal⟩)

/-- Whether the task is to stop. -/
def Got.stops (got : Got) : Bool :=
  got.signal.action.handler = .dfl ∧ sigStopmask &&& sigmask got.signal.info.signo ≠ 0

def getStop (t : Sig) (got : Got) : Sig := if got.stops then { t with stoppending := true } else t

/-- The section of `get_signal`; `none` if there is nothing to handle. -/
def getSection (t : Sig) (fault : Option Siginfo) : Option (Sig × Got) :=
  (getTake t fault).map fun (t, got) => (recalcSigpending (getStop t got), got)

/-- `signal_delivered`. -/
def delivered (t : Sig) (signal : Ksignal) : Sig :=
  let blocked := t.blocked ||| signal.action.mask
  let blocked :=
    if signal.action.flags &&& saNodefer = 0 then blocked ||| sigmask signal.info.signo else blocked
  recalcSigpending { t with sigsuspended := false, blocked := blocked }

/-! ### System calls -/

/-- `sys_rt_sigsuspend`, with the mask the program gave. -/
def sigsuspend (t : Sig) (set : Sigset) : Sig :=
  recalcSigpending
    { t with sigmask := t.blocked, blocked := set &&& ~~~sigUnblockmask, sigsuspended := true }

/-- `sys_rt_sigaction`: the old action, and the new state if there is a new action. -/
def sigaction (t : Sig) (sig : ℕ) (act : Option Sigaction) : Except Errno (Sig × Sigaction) :=
  if sig = 0 ∨ sigMax < sig then .error .einval
  else
    match act with
    | none => .ok (t, t.actions sig)
    | some act =>
      if sig = sigkill ∨ sig = sigstop then .error .einval
      else
        let new := { act with mask := act.mask &&& ~~~sigUnblockmask }
        let t' := { t with actions := Function.update t.actions sig new }
        let t' := if signalIgnored new sig then flushSignals t' (sigmask sig) else t'
        .ok (recalcSigpending t', t.actions sig)

/-- `how` of `sys_rt_sigprocmask`: `SIG_BLOCK`, `SIG_UNBLOCK`, `SIG_SETMASK` or another. -/
inductive How
  | block
  | unblock
  | setmask
  | other

/-- `sys_rt_sigprocmask`: the old mask, and the new state. -/
def sigprocmask (t : Sig) (how : How) (set : Option Sigset) : Except Errno (Sig × Sigset) :=
  match set with
  | none => .ok (t, t.blocked)
  | some set =>
    let new := set &&& ~~~sigUnblockmask
    match how with
    | .block => .ok (recalcSigpending { t with blocked := t.blocked ||| new }, t.blocked)
    | .unblock => .ok (recalcSigpending { t with blocked := t.blocked &&& ~~~new }, t.blocked)
    | .setmask => .ok (recalcSigpending { t with blocked := new }, t.blocked)
    | .other => .error .einval

/-- `sys_rt_sigreturn`, with the mask in the frame on the user stack. -/
def sigreturn (t : Sig) (mask : Sigset) : Sig :=
  recalcSigpending { t with blocked := mask &&& ~~~sigUnblockmask }

/-- `signal_clone`, called by `execve`. -/
def signalClone (t : Sig) : Sig :=
  { t with
    actions := fun sig =>
      if (t.actions sig).handler = .ign then ⟨.ign, 0, 0⟩ else ⟨.dfl, 0, 0⟩ }

/-- The child of `sys_clone`. -/
def forked (parent : Sig) : Sig :=
  { signalTaskInit with blocked := parent.blocked, actions := parent.actions }

end Nuvix.Signal
