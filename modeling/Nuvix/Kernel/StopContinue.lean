import Nuvix.Kernel.Sched
import Nuvix.Kernel.SignalInvariant

/-!
# Stopping and continuing a task

The request to stop a task goes through `get_signal`, which sets `TF_STOPPENDING` under
`signal_lock`, and `sched_stop`, which tests and clears the flag under the lock of the run
queue. A sender of `SIGCONT` or `SIGKILL` clears the flag under the one lock and resumes the
task under the other. Here one task handles its signals while others send to it, and every
update of a flag and every section of the run queue's lock is a step of its own.

The sections of `signal_lock` are numbered in their order; these numbers, and what is
derived from them, are read by no step.
-/

namespace Nuvix.StopContinue

open Signal Sched

/-- Where the task is: outside of `get_signal`, in one of its rounds, in `sched_stop`, or on
its way out. -/
inductive Self
  | user
  /-- A round of `get_signal`, before it takes the lock. -/
  | get (fault : Option Siginfo)
  /-- The signal is dequeued. -/
  | took (fault : Option Siginfo) (got : Got)
  /-- `TF_STOPPENDING` is set, if it has to be. -/
  | flagged (fault : Option Siginfo) (got : Got)
  /-- `TF_SIGPENDING` is up to date. -/
  | recalced (fault : Option Siginfo) (got : Got)
  /-- The lock is released. -/
  | handle (fault : Option Siginfo) (got : Got)
  /-- `sched_stop`, before it takes the lock. -/
  | stop (fault : Option Siginfo)
  | stopTest (fault : Option Siginfo)
  | stopClear (fault : Option Siginfo)
  | stopSet (fault : Option Siginfo)
  | stopUnlock (fault : Option Siginfo)
  | park (fault : Option Siginfo)
  /-- `wait_for_signal`. -/
  | suspend
  | suspendSet
  | suspendPark
  | deliver (signal : Ksignal)
  | exit

/-- Where a sender is in `send_signal`; each names what is done next. -/
inductive SendPc
  | lock
  | flush
  | clear
  | queue
  | recalc
  | resume
  | unlock
  | wake (notify : Bool)
  deriving DecidableEq

namespace SendPc

/-- What the next step does to the signals of the target. -/
def signals (info : Siginfo) (alloc : Bool) (sig : Sig) : SendPc → Sig
  | flush => sendFlush sig info.signo
  | clear => sendClear sig info.signo
  | queue => sendQueue sig info alloc
  | recalc => recalcSigpending sig
  | _ => sig

/-- What it does to its state. -/
def state (info : Siginfo) (state : TaskState) : SendPc → TaskState
  | resume => state.woken resumeStates
  | wake notify =>
    if notify then state.woken (wakeSignalStates (decide (info.signo = sigkill))) else state
  | _ => state

/-- What comes after it. -/
def next (info : Siginfo) (sig : Sig) : SendPc → Option SendPc
  | lock => some flush
  | flush => some clear
  | clear => some queue
  | queue => some recalc
  | recalc => some (if resumes info.signo then resume else unlock)
  | resume => some unlock
  | unlock => some (wake sig.sigpending)
  | wake _ => none

end SendPc

/-- A call of `send_signal`. -/
structure Send where
  info : Siginfo
  /-- Whether there is memory for the entry of the queue. -/
  alloc : Bool
  /-- Its number, once it holds the lock. -/
  stamp : ℕ
  pc : SendPc

/-- Who holds `signal_lock`. -/
inductive Party (N : ℕ)
  | self
  | sender (i : Fin N)
  deriving DecidableEq

/-- The numbers of the sends. -/
structure Record where
  /-- How many there were. -/
  clock : ℕ
  /-- The signal of each. -/
  sent : ℕ → ℕ
  /-- The send that made a signal pending. -/
  stamp : ℕ → ℕ
  /-- The send of the stop signal that was taken last. -/
  cause : ℕ
  /-- The last send that cleared `TF_STOPPENDING`. -/
  cleared : ℕ
  /-- Whether one of these was of `SIGKILL`. -/
  killed : Bool
  /-- The last send that went through `sched_resume`. -/
  resumed : ℕ

structure State (N : ℕ) where
  sig : Sig
  /-- `task->state` -/
  state : TaskState
  lock : Option (Party N)
  self : Self
  sender : Fin N → Option Send
  record : Record
  /-- The sends of `SIGCONT` and `SIGKILL` that have returned. -/
  completed : List ℕ

variable {N : ℕ}

/-! ### The task -/

/-- Whether the task holds the lock of its run queue; the sections of others are one step. -/
def Self.holdsRq : Self → Bool
  | .stopTest _ | .stopClear _ | .stopSet _ | .stopUnlock _ | .suspendSet => true
  | _ => false

/-- `signal_default`. -/
def signalDefault (fault : Option Siginfo) (sig : ℕ) : Self :=
  if sigIgnored &&& sigmask sig ≠ 0 then .get fault
  else if sig = sigstop ∨ sig = sigtstp ∨ sig = sigttin ∨ sig = sigttou then .stop fault
  else .exit

/-- What `get_signal` does with the signal it has taken. -/
def dispatch (fault : Option Siginfo) (got : Got) : Self :=
  if got.fatal then .exit
  else
    match got.signal.action.handler with
    | .ign => .get fault
    | .dfl => signalDefault fault got.signal.info.signo
    | .fn _ => .deliver got.signal

/-- The section of `get_signal` begins, unless another task holds the lock. -/
def getStep (s : State N) (fault : Option Siginfo) : Option (State N) :=
  if s.lock.isSome then none
  else
    match getTake s.sig fault with
    | none => some { s with self := if s.sig.sigsuspended then .suspend else .user }
    | some (sig, got) =>
      let cause := if got.stops then s.record.stamp got.signal.info.signo else s.record.cause
      some { s with
        sig := sig
        lock := some .self
        self := .took fault got
        record := { s.record with cause := cause } }

/-- The next step of the task in `get_signal`, `sched_stop` and `wait_for_signal`. -/
def selfStep (s : State N) : Option (State N) :=
  match s.self with
  | .user => none
  | .get fault => getStep s fault
  | .took fault got => some { s with sig := getStop s.sig got, self := .flagged fault got }
  | .flagged fault got => some { s with sig := recalcSigpending s.sig, self := .recalced fault got }
  | .recalced fault got => some { s with lock := none, self := .handle fault got }
  | .handle fault got => some { s with self := dispatch fault got }
  | .stop fault => some { s with self := .stopTest fault }
  | .stopTest fault =>
    some { s with self := if s.sig.stoppending then .stopClear fault else .stopUnlock fault }
  | .stopClear fault =>
    some { s with sig := { s.sig with stoppending := false }, self := .stopSet fault }
  | .stopSet fault => some { s with state := .stopped, self := .stopUnlock fault }
  | .stopUnlock fault => some { s with self := .park fault }
  | .park fault => if s.state = .runnable then some { s with self := .get fault } else none
  | .suspend => some { s with self := if s.sig.sigpending then .get none else .suspendSet }
  | .suspendSet => some { s with state := .interruptible, self := .suspendPark }
  | .suspendPark =>
    if s.state = .runnable ∨ s.sig.sigpending then
      some { s with state := .runnable, self := .suspend }
    else none
  | .deliver signal =>
    if s.lock.isSome then none else some { s with sig := delivered s.sig signal, self := .user }
  | .exit => some { s with state := .zombie }

/-- The system calls that change the signals of the caller. -/
inductive Syscall
  | sigsuspend (set : Sigset)
  | sigaction (sig : ℕ) (act : Option Sigaction)
  | sigprocmask (how : How) (set : Option Sigset)
  | sigreturn (mask : Sigset)
  /-- `execve` -/
  | signalClone

def Syscall.run (call : Syscall) (sig : Sig) : Option Sig :=
  match call with
  | .sigsuspend set => some (Signal.sigsuspend sig set)
  | .sigaction n act => (Signal.sigaction sig n act).toOption.map Prod.fst
  | .sigprocmask how set => (Signal.sigprocmask sig how set).toOption.map Prod.fst
  | .sigreturn mask => some (Signal.sigreturn sig mask)
  | .signalClone => some (Signal.signalClone sig)

/-! ### The senders -/

def State.setSender (s : State N) (i : Fin N) (c : Option Send) : State N :=
  { s with sender := Function.update s.sender i c }

/-- Whether a sender waits for a lock. -/
def Send.waits (c : Send) (s : State N) : Bool :=
  match c.pc with
  | .lock => s.lock.isSome
  | .resume | .wake _ => s.self.holdsRq
  | _ => false

/-- The numbers after the next step of a sender. -/
def Send.note (c : Send) (s : State N) : Record :=
  match c.pc with
  | .lock =>
    let clock := s.record.clock + 1
    { s.record with clock := clock, sent := Function.update s.record.sent clock c.info.signo }
  | .clear =>
    if resumes c.info.signo then
      { s.record with
        cleared := c.stamp
        killed := s.record.killed || decide (c.info.signo = sigkill) }
    else s.record
  | .queue =>
    let stamp :=
      if accepts s.sig c.info.signo then Function.update s.record.stamp c.info.signo c.stamp
      else s.record.stamp
    { s.record with stamp := stamp }
  | .resume => { s.record with resumed := c.stamp }
  | _ => s.record

/-- The next step of `send_signal`. -/
def sendStep (s : State N) (i : Fin N) (c : Send) : Option (State N) :=
  if c.waits s then none
  else
    let record := c.note s
    let (lock, stamp) :=
      match c.pc with
      | .lock => (some (.sender i), record.clock)
      | .unlock => (none, c.stamp)
      | _ => (s.lock, c.stamp)
    let next := (c.pc.next c.info s.sig).map fun pc => { c with stamp := stamp, pc := pc }
    let completed :=
      if next.isNone && resumes c.info.signo then c.stamp :: s.completed else s.completed
    some ({ s with
      sig := c.pc.signals c.info c.alloc s.sig
      state := c.pc.state c.info s.state
      lock := lock
      record := record
      completed := completed }.setSender i next)

/-! ### The interleavings -/

inductive Action (N : ℕ)
  /-- The task goes on in `get_signal`. -/
  | self
  /-- The task enters `get_signal`, on its way back to the program or for an exception. -/
  | enter (fault : Option Siginfo)
  | syscall (call : Syscall)
  /-- The task waits for something else than a signal. -/
  | sleep (state : TaskState)
  /-- `sched_wake`. -/
  | wake
  /-- The sleep is cancelled by a pending signal, in `sched_prepare_switch_locked`. -/
  | cancel (kill : Bool)
  /-- `send_signal` is called. Without a signal it returns at once. -/
  | send (i : Fin N) (info : Siginfo) (alloc : Bool)
  | sender (i : Fin N)

/-- Whether the task runs the program or another part of the kernel. -/
def State.outside (s : State N) : Bool :=
  match s.self with
  | .user => s.state = .runnable
  | _ => false

def step (s : State N) : Action N → Option (State N)
  | .self => selfStep s
  | .enter fault =>
    if s.outside ∧ fault.all fun info => isFault info.signo then
      some { s with self := .get fault }
    else none
  | .syscall call =>
    if s.outside ∧ s.lock.isNone then (call.run s.sig).map fun sig => { s with sig := sig }
    else none
  | .sleep state =>
    if s.outside ∧ (state = .interruptible ∨ state = .uninterruptible ∨ state = .killable) then
      some { s with state := state }
    else none
  | .wake => if s.self.holdsRq then none else some { s with state := s.state.woken wakeStates }
  | .cancel kill =>
    if s.self.holdsRq then none
    else
      some { s with state := s.state.parked s.sig.sigpending kill }
  | .send i info alloc =>
    if s.sender i = none ∧ 1 ≤ info.signo ∧ info.signo ≤ sigMax then
      some (s.setSender i (some ⟨info, alloc, 0, .lock⟩))
    else none
  | .sender i => (s.sender i).bind (sendStep s i)

/-- A task that has just been cloned. -/
def start (parent : Sig) : State N where
  sig := forked parent
  state := .runnable
  lock := none
  self := .user
  sender := fun _ => none
  record := ⟨0, fun _ => 0, fun _ => 0, 0, 0, false, 0⟩
  completed := []

end Nuvix.StopContinue
