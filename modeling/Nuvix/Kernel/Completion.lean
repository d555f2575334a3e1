import Nuvix.Kernel.Pid
import Nuvix.Kernel.Timer

/-!
# Completions: `kernel/completion.c`

A completion counts events that nobody has waited for yet; `complete_all` sets the count to its
greatest value, which stays. A waiter takes from the count if it can and otherwise sleeps in the
queue of the completion. The wait with a deadline has a timer on its stack, which wakes it; it
starts the timer before it sleeps for the first time, and before it returns it waits until the
timer is neither queued nor called.

Tasks, interrupt handlers and the ticks of all CPUs take steps in any order. A step is one
section of the lock of the completion or of a base of timers, a switch, or a signal; the timer is
started inside a section of the completion, where nothing but its base sees it. The bases have
other timers too. There is one clock, and it never goes back. Counts of calls and the mark that
a timer has been called are records, and read by no step.
-/

namespace Nuvix.Completions

open Sched Wait Timers SearchTree Function

/-- `UINT32_MAX`, which is also the count of a completion that is done for good. -/
def uint32Max : ℕ := 4294967295

variable {κ ι τ : Type*} [DecidableEq κ] [DecidableEq ι] [DecidableEq τ]

/-- `struct completion`. -/
structure Completion (τ : Type*) where
  done : ℕ
  waiters : List τ

namespace Completion

/-- `take_completion_locked`. -/
def take (c : Completion τ) : Option (Completion τ) :=
  if c.done = 0 then none
  else some { c with done := if c.done ≠ uint32Max then c.done - 1 else c.done }

/-- `complete`: the completion and the states of the tasks. -/
def complete (c : Completion τ) (state : τ → TaskState) : Completion τ × (τ → TaskState) :=
  ({ c with done := if c.done ≠ uint32Max then c.done + 1 else c.done },
    wakeUpOne c.waiters state)

/-- `complete_all`. -/
def completeAll (c : Completion τ) (state : τ → TaskState) : Completion τ × (τ → TaskState) :=
  ({ c with done := uint32Max }, wakeUpAll c.waiters state)

end Completion

/-- The waiting forms: `wait_for_completion_state` with the state to sleep in, and
`wait_for_completion_until` with its deadline, the CPU of its timer, and `armed`. -/
inductive Form (κ : Type*)
  | plain (sleep : TaskState)
  | timed (deadline : ℕ) (cpu : κ) (armed : Bool)
  deriving DecidableEq

/-- The states that the three callers of `wait_for_completion_state` pass. -/
inductive Mode
  | uninterruptible
  | interruptible
  | killable
  deriving DecidableEq

def Mode.sleep : Mode → TaskState
  | uninterruptible => .uninterruptible
  | interruptible => .interruptible
  | killable => .killable

def Form.sleep : Form κ → TaskState
  | plain sleep => sleep
  | timed _ _ _ => .uninterruptible

/-- Before a round of a loop, registered and before the switch, and switched out. -/
inductive Place
  | entering
  | parking
  | parked
  deriving DecidableEq

/-- Where a task is: outside, in one of the waiting forms, in the `timer_cancel_sync` at the end
of the form with a deadline, and back with what it returned. -/
inductive Pc (κ : Type*)
  | outside
  | wait (place : Place) (form : Form κ)
  | drain (place : Place) (cpu : κ) (ret : Except Errno Unit)
  | returned (ret : Except Errno Unit)
  deriving DecidableEq

namespace Pc

def place : Pc κ → Option Place
  | wait place _ | drain place _ _ => some place
  | _ => none

def setPlace (place : Place) : Pc κ → Pc κ
  | wait _ form => wait place form
  | drain _ cpu ret => drain place cpu ret
  | pc => pc

/-- What the wait is going to return, once it has left its loop. -/
def ret : Pc κ → Option (Except Errno Unit)
  | drain _ _ ret | returned ret => some ret
  | _ => none

/-- The base that may hold the timer of the task. -/
def timerCpu : Pc κ → Option κ
  | wait _ (.timed _ cpu true) | drain _ cpu _ => some cpu
  | _ => none

end Pc

/-- A completion, the tasks, the bases of timers with their ticks, the clock, and the records:
the calls of `complete`, the successful waits, and the tasks whose timer has been called since
they called `wait_for_completion_until`. The timers of a base are those on the stacks of tasks,
and others. -/
structure State (κ ι τ : Type*) where
  completion : Completion τ
  state : τ → TaskState
  sigpending : τ → Bool
  kill : τ → Bool
  pc : τ → Pc κ
  base : κ → Base (τ ⊕ ι) τ
  tick : κ → Tick (τ ⊕ ι)
  clock : ℕ
  completes : ℕ
  taken : ℕ
  expired : τ → Bool

/-- What tasks, interrupt handlers and ticks do. -/
inductive Action (κ ι τ : Type*)
  | complete
  | completeAll
  | tryWait
  | wait (t : τ) (mode : Mode)
  | waitUntil (t : τ) (deadline : ℕ) (cpu : κ)
  /-- A round of the loop that a task is in. -/
  | round (t : τ)
  | park (t : τ)
  | resume (t : τ)
  /-- The signals of a task change. -/
  | signal (t : τ) (sigpending kill : Bool)
  /-- Another wake-up. -/
  | wake (t : τ) (states : BitVec 32)
  /-- A task outside goes to sleep elsewhere, or the like. -/
  | elsewhere (t : τ) (state : TaskState)
  | advance (ticks : ℕ)
  | interrupt (cpu : κ)
  | tick (cpu : κ)
  /-- Other users of timers. -/
  | start (cpu : κ) (x : ι) (deadline : ℕ)
  | cancel (cpu : κ) (x : ι)

namespace State

def setPc (s : State κ ι τ) (t : τ) (pc : Pc κ) : State κ ι τ :=
  { s with pc := update s.pc t pc }

def setBase (s : State κ ι τ) (cpu : κ) (base : Base (τ ⊕ ι) τ) : State κ ι τ :=
  { s with base := update s.base cpu base }

def setTick (s : State κ ι τ) (cpu : κ) (tick : Tick (τ ⊕ ι)) : State κ ι τ :=
  { s with tick := update s.tick cpu tick }

/-- Leave the loop of a waiting form. -/
def leave (s : State κ ι τ) (t : τ) (form : Form κ) (ret : Except Errno Unit) : State κ ι τ :=
  s.setPc t (match form with
    | .timed _ cpu true => .drain .entering cpu ret
    | _ => .returned ret)

/-- The end of a round: register in the queue. -/
def sleepOn (s : State κ ι τ) (t : τ) (form : Form κ) : State κ ι τ :=
  let (waiters, state) := prepareToWait s.completion.waiters s.state t form.sleep
  { s with completion := { s.completion with waiters := waiters }, state := state }.setPc t
    (.wait .parking form)

variable (rb : Rebalance (τ ⊕ ι))

/-- A round of a waiting form that found nothing to take. -/
def waitMore (s : State κ ι τ) (t : τ) : Form κ → State κ ι τ
  | .plain sleep =>
    if signalPendingState sleep (s.sigpending t) (s.kill t) then
      s.leave t (.plain sleep) (.error .erestartsys)
    else s.sleepOn t (.plain sleep)
  | .timed deadline cpu armed =>
    if s.clock ≥ deadline then s.leave t (.timed deadline cpu armed) (.error .etimedout)
    else if armed then s.sleepOn t (.timed deadline cpu armed)
    else
      match (s.base cpu).timerStart rb (.inl t) deadline with
      | .error e => s.leave t (.timed deadline cpu false) (.error e)
      | .ok base => (s.setBase cpu base).sleepOn t (.timed deadline cpu true)

/-- A round of a waiting form, up to the unlock. -/
def waitRound (s : State κ ι τ) (t : τ) (form : Form κ) : State κ ι τ :=
  let (waiters, state) := finishWait s.completion.waiters s.state t
  let s := { s with completion := { s.completion with waiters := waiters }, state := state }
  match s.completion.take with
  | some c => { s with completion := c, taken := s.taken + 1 }.leave t form (.ok ())
  | none => s.waitMore rb t form

/-- A round of `timer_cancel_sync`, up to the unlock. -/
def drainRound (s : State κ ι τ) (t : τ) (cpu : κ) (ret : Except Errno Unit) : State κ ι τ :=
  let (base, state, cancelled) := (s.base cpu).cancelRound rb s.state t (.inl t)
  let s := { s with state := state }.setBase cpu base
  match cancelled with
  | .ok _ => s.setPc t (.returned ret)
  | .error _ => s.setPc t (.drain .parking cpu ret)

/-- The switch in `sched_park`. -/
def park (s : State κ ι τ) (t : τ) : State κ ι τ :=
  let next := (s.state t).parked (s.sigpending t) (s.kill t)
  { s with state := update s.state t next }.setPc t
    ((s.pc t).setPlace (if next = TaskState.runnable then .entering else .parked))

/-- The callbacks: `completion_timed_out` for the timer of a task, and others. -/
def callback (s : State κ ι τ) : τ ⊕ ι → State κ ι τ
  | .inl t =>
    { s with
      state := (schedWake s.state t).1
      expired := update s.expired t true }
  | .inr _ => s

/-- The next step of `timer_tick` on a CPU. -/
def tickStep (s : State κ ι τ) (cpu : κ) : Option (State κ ι τ) :=
  match s.tick cpu with
  | .idle => none
  | .scan now =>
    match (s.base cpu).takeExpired rb now with
    | none => some (s.setTick cpu .idle)
    | some (x, base) => some ((s.setBase cpu base).setTick cpu (.call now x))
  | .call now x => some ((s.callback x).setTick cpu (.called now x))
  | .called now x =>
    let (base, state) := (s.base cpu).endCall s.state x
    some (({ s with state := state }.setBase cpu base).setTick cpu (.scan now))

end State

/-- One step. -/
def step (rb : Rebalance (τ ⊕ ι)) (s : State κ ι τ) : Action κ ι τ → Option (State κ ι τ)
  | .complete =>
    let (c, state) := s.completion.complete s.state
    some { s with completion := c, state := state, completes := s.completes + 1 }
  | .completeAll =>
    let (c, state) := s.completion.completeAll s.state
    some { s with completion := c, state := state }
  | .tryWait =>
    match s.completion.take with
    | none => some s
    | some c => some { s with completion := c, taken := s.taken + 1 }
  | .wait t mode =>
    if (s.pc t).place = none ∧ s.state t = .runnable then
      some (s.setPc t (.wait .entering (.plain mode.sleep)))
    else none
  | .waitUntil t deadline cpu =>
    if (s.pc t).place = none ∧ s.state t = .runnable then
      some ({ s with expired := update s.expired t false }.setBase cpu
        ((s.base cpu).setState (.inl t) .idle) |>.setPc t
          (.wait .entering (.timed deadline cpu false)))
    else none
  | .round t =>
    match s.pc t with
    | .wait .entering form => some (s.waitRound rb t form)
    | .drain .entering cpu ret => some (s.drainRound rb t cpu ret)
    | _ => none
  | .park t => if (s.pc t).place = some .parking then some (s.park t) else none
  | .resume t =>
    if (s.pc t).place = some .parked ∧ s.state t = .runnable then
      some (s.setPc t ((s.pc t).setPlace .entering))
    else none
  | .signal t sigpending kill => some { s with
      sigpending := update s.sigpending t sigpending
      kill := update s.kill t kill }
  | .wake t states => some { s with state := (wakeTask s.state t states).1 }
  | .elsewhere t state =>
    if (s.pc t).place = none then some { s with state := update s.state t state }
    else none
  | .advance ticks => some { s with clock := s.clock + ticks }
  | .interrupt cpu =>
    match s.tick cpu with
    | .idle => some (s.setTick cpu (.scan s.clock))
    | _ => none
  | .tick cpu => s.tickStep rb cpu
  | .start cpu x deadline =>
    match (s.base cpu).timerStart rb (.inr x) deadline with
    | .error _ => some s
    | .ok base => some (s.setBase cpu base)
  | .cancel cpu x => some (s.setBase cpu ((s.base cpu).timerCancel rb (.inr x)).1)

/-- After `init_completion`. -/
def boot : State κ ι τ where
  completion := ⟨0, []⟩
  state _ := .runnable
  sigpending _ := false
  kill _ := false
  pc _ := .outside
  base _ := .init
  tick _ := .idle
  clock := 0
  completes := 0
  taken := 0
  expired _ := false

end Nuvix.Completions
