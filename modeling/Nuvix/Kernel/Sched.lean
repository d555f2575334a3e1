import Mathlib

/-!
# Run queues: `kernel/sched.c`

Each CPU has a run queue with its current task, its idle task and a list of tasks that
are ready. A task belongs to the CPU it was placed on when it was published. Every
function works under the lock of one run queue, which a switch keeps until the next task
has taken over; a step of the model is one such section, and a switch is two.

Address spaces are left out here.
-/

namespace Nuvix.Sched

/-- The states of `include/nuvix/task.h`. -/
inductive TaskState
  | new
  | runnable
  | interruptible
  | uninterruptible
  | stopped
  | zombie
  | killable
  deriving DecidableEq

/-- The bit of a state. -/
def TaskState.bit : TaskState → BitVec 32
  | .new => 0
  | .runnable => 1
  | .interruptible => 2
  | .uninterruptible => 4
  | .stopped => 8
  | .zombie => 16
  | .killable => 32

/-- `states & task->state`. -/
def TaskState.isIn (state : TaskState) (states : BitVec 32) : Bool := states &&& state.bit ≠ 0

/-- `TASK_NORMAL`. -/
def taskNormal : BitVec 32 := TaskState.interruptible.bit ||| TaskState.uninterruptible.bit

/-- The set of states of `sched_wake`. -/
def wakeStates : BitVec 32 := taskNormal ||| TaskState.killable.bit

/-- The set of states of `sched_wake_signal`. -/
def wakeSignalStates (kill : Bool) : BitVec 32 :=
  TaskState.interruptible.bit ||| if kill then TaskState.killable.bit else 0

/-- The set of states of `sched_resume`. -/
def resumeStates : BitVec 32 := TaskState.stopped.bit

/-- `signal_pending_state`, for a task with `TF_SIGPENDING` as given and with or without
`SIGKILL` pending. -/
def signalPendingState (state : TaskState) (sigpending kill : Bool) : Bool :=
  (state = .interruptible ∧ sigpending) ∨ (state = .killable ∧ kill)

namespace TaskState

/-- The state of a task after `wake_task`. -/
def woken (state : TaskState) (states : BitVec 32) : TaskState :=
  if state.isIn states then .runnable else state

/-- The state of a task after `sched_prepare_switch_locked` has looked at its signals; the task
is switched out if it is not runnable. -/
def parked (state : TaskState) (sigpending kill : Bool) : TaskState :=
  if signalPendingState state sigpending kill then .runnable else state

theorem woken_or (state : TaskState) (states : BitVec 32) :
    state.woken states = state ∨ state.woken states = .runnable :=
  (ite_eq_or_eq ..).symm

theorem parked_or (state : TaskState) (sigpending kill : Bool) :
    state.parked sigpending kill = state ∨ state.parked sigpending kill = .runnable :=
  (ite_eq_or_eq ..).symm

end TaskState

variable {C T : ℕ}

/-- The fields of `struct task` that the run queues own. -/
structure Task (C : ℕ) where
  /-- `cpu_id`, once the task is placed -/
  cpu : Option (Fin C)
  state : TaskState
  onRq : Bool
  onCpu : Bool
  /-- `TF_NEED_RESCHED` -/
  needResched : Bool

/-- `struct rq`. -/
structure Rq (T : ℕ) where
  curr : Fin T
  idle : Fin T
  readyList : List (Fin T)
  nrRunnable : ℤ
  quantumDeadline : ℕ
  /-- The task that is switched out, while a switch holds the lock. -/
  leaving : Option (Fin T)

structure State (C T : ℕ) where
  rq : Fin C → Rq T
  task : Fin T → Task C
  /-- Whether an assertion has failed. -/
  failed : Bool

namespace State

def setRq (s : State C T) (c : Fin C) (q : Rq T) : State C T :=
  { s with rq := Function.update s.rq c q }

def setTask (s : State C T) (t : Fin T) (task : Task C) : State C T :=
  { s with task := Function.update s.task t task }

def setState (s : State C T) (t : Fin T) (state : TaskState) : State C T :=
  s.setTask t { s.task t with state := state }

def setNeedResched (s : State C T) (t : Fin T) (value : Bool) : State C T :=
  s.setTask t { s.task t with needResched := value }

def fail (s : State C T) : State C T := { s with failed := true }

end State

/-- `enqueue_task`. -/
def enqueueTask (s : State C T) (c : Fin C) (t : Fin T) : State C T :=
  if (s.task t).onRq = true ∨ t = (s.rq c).idle then s.fail
  else
    let s := s.setRq c { s.rq c with readyList := (s.rq c).readyList ++ [t] }
    let s := s.setTask t { s.task t with onRq := true }
    if (s.rq c).curr = (s.rq c).idle then s.setNeedResched (s.rq c).curr true else s

/-- `atomic_inc` and `atomic_dec` of `nr_runnable`. -/
def addRunnable (s : State C T) (c : Fin C) (n : ℤ) : State C T :=
  s.setRq c { s.rq c with nrRunnable := (s.rq c).nrRunnable + n }

/-- `pick_next_task`. -/
def pickNextTask (s : State C T) (c : Fin C) : State C T × Fin T :=
  match (s.rq c).readyList with
  | [] => (s, (s.rq c).idle)
  | t :: rest =>
    let s := s.setRq c { s.rq c with readyList := rest }
    (s.setTask t { s.task t with onRq := false }, t)

/-- The section of `sched_publish`, after the task was placed. -/
def publish (s : State C T) (c : Fin C) (t : Fin T) : State C T :=
  addRunnable (enqueueTask (s.setState t .runnable) c t) c 1

/-- `wake_task`. -/
def wakeTask (s : State C T) (c : Fin C) (t : Fin T) (states : BitVec 32) : State C T :=
  if (s.task t).state.isIn states then
    let s := s.setState t .runnable
    if (s.task t).onCpu then s else addRunnable (enqueueTask s c t) c 1
  else s

/-- The section of `sched_stop`; `stopPending` is `TF_STOPPENDING`. -/
def stop (s : State C T) (c : Fin C) (stopPending : Bool) : State C T :=
  if stopPending then s.setState (s.rq c).curr .stopped else s

/-- `sched_set_sleep_locked`. -/
def setSleep (s : State C T) (c : Fin C) (state : TaskState) : State C T :=
  if (s.rq c).curr ≠ (s.rq c).idle ∧
      (state = .interruptible ∨ state = .uninterruptible ∨ state = .killable) then
    s.setState (s.rq c).curr state
  else s.fail

section Switch

variable (quantumTicks : ℕ)

/-- `sched_tick`. -/
def tick (s : State C T) (c : Fin C) (now : ℕ) : State C T :=
  let q := s.rq c
  if q.curr ≠ q.idle ∧ q.quantumDeadline ≤ now then
    if q.readyList ≠ [] then s.setNeedResched q.curr true
    else s.setRq c { q with quantumDeadline := now + quantumTicks }
  else s

/-- The end of `sched_prepare_switch_locked`, which leaves `prev` for the next task. -/
def switchTo (s : State C T) (c : Fin C) (now : ℕ) : State C T :=
  let prev := (s.rq c).curr
  let (s, next) := pickNextTask (s.setNeedResched prev false) c
  let s := s.setRq c
    { s.rq c with curr := next, quantumDeadline := now + quantumTicks, leaving := some prev }
  s.setTask next { s.task next with onCpu := true }

/-- `sched_prepare_switch_locked`. The lock is kept, with `leaving` set, if the task it
returns is not the one that called. -/
def prepareSwitch (s : State C T) (c : Fin C) (rotate sigpending kill : Bool) (now : ℕ) :
    State C T :=
  let prev := (s.rq c).curr
  let s := s.setState prev ((s.task prev).state.parked sigpending kill)
  if (s.task prev).state ≠ .runnable then switchTo quantumTicks (addRunnable s c (-1)) c now
  else if (s.rq c).readyList = [] then
    let s := if prev ≠ (s.rq c).idle ∧ (rotate = true ∨ (s.task prev).needResched = true)
      then s.setRq c { s.rq c with quantumDeadline := now + quantumTicks } else s
    s.setNeedResched prev false
  else if prev = (s.rq c).idle then switchTo quantumTicks s c now
  else if rotate = false ∧ (s.task prev).needResched = false then s
  else switchTo quantumTicks (enqueueTask s c prev) c now

/-- `sched_finish_switch_locked` and the release of the lock. -/
def finishSwitch (s : State C T) (c : Fin C) (prev : Fin T) : State C T :=
  if prev = (s.rq c).curr then s.fail
  else
    let s := s.setTask prev { s.task prev with onCpu := false }
    s.setRq c { s.rq c with leaving := none }

/-- `sched_exit`. -/
def exit (s : State C T) (c : Fin C) (sigpending kill : Bool) (now : ℕ) : State C T :=
  if (s.rq c).curr = (s.rq c).idle then s.fail
  else prepareSwitch quantumTicks (s.setState (s.rq c).curr .zombie) c false sigpending kill now

end Switch

inductive Action (C T : ℕ)
  /-- `sched_publish` before it takes the lock of the run queue it has chosen. -/
  | place (t : Fin T) (c : Fin C)
  | publish (t : Fin T)
  | wake (t : Fin T) (states : BitVec 32)
  | setSleep (c : Fin C) (state : TaskState)
  | stop (c : Fin C) (stopPending : Bool)
  | tick (c : Fin C) (now : ℕ)
  | switch (c : Fin C) (rotate sigpending kill : Bool) (now : ℕ)
  | finish (c : Fin C)
  | exit (c : Fin C) (sigpending kill : Bool) (now : ℕ)

/-- A section on CPU `c`, which needs the lock. -/
def locked (s : State C T) (c : Fin C) (s' : State C T) : Option (State C T) :=
  if (s.rq c).leaving.isNone then some s' else none

/-- One section. A task is published once, when it is new; only an ordinary task sleeps,
stops or exits, and the state it sleeps in is one of the three that wake-ups know. -/
def step (quantumTicks : ℕ) (s : State C T) (a : Action C T) : Option (State C T) :=
  if s.failed then none
  else
    match a with
    | .place t c =>
      if (s.task t).state = .new ∧ (s.task t).cpu = none then
        some (s.setTask t { s.task t with cpu := some c })
      else none
    | .publish t =>
      match (s.task t).cpu with
      | some c => if (s.task t).state = .new then locked s c (publish s c t) else none
      | none => none
    | .wake t states =>
      match (s.task t).cpu with
      | some c => locked s c (wakeTask s c t states)
      | none => none
    | .setSleep c state =>
      if (s.rq c).curr ≠ (s.rq c).idle ∧
          (state = .interruptible ∨ state = .uninterruptible ∨ state = .killable) then
        locked s c (setSleep s c state)
      else none
    | .stop c stopPending =>
      if (s.rq c).curr ≠ (s.rq c).idle then locked s c (stop s c stopPending) else none
    | .tick c now => locked s c (tick quantumTicks s c now)
    | .switch c rotate sigpending kill now =>
      locked s c (prepareSwitch quantumTicks s c rotate sigpending kill now)
    | .finish c => (s.rq c).leaving.map (finishSwitch s c)
    | .exit c sigpending kill now =>
      if (s.rq c).curr ≠ (s.rq c).idle then locked s c (exit quantumTicks s c sigpending kill now)
      else none

/-- The state after boot: every CPU runs its idle task, and no other task is published. -/
def boot (idle : Fin C → Fin T) : State C T where
  rq := fun c => ⟨idle c, idle c, [], 0, 0, none⟩
  task := fun t =>
    match (List.finRange C).find? fun c => idle c = t with
    | some c => ⟨some c, .runnable, false, true, false⟩
    | none => ⟨none, .new, false, false, false⟩
  failed := false

end Nuvix.Sched
