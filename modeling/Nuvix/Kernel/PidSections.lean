import Nuvix.Kernel.PidInvariant

/-!
# The locked sections of `kernel/pid.c`

`pid_prepare` takes `pid_lock` twice and `pid_put` takes it once, after a decrement
made without it. Between these sections every other process may run. Here each
section is one step: an object that `pid_alloc` returned and whose slots are not yet
filled is *pending*, and one whose last reference is gone but whose number is still
set in `pidmap` is *dying*.

The stores of `pid_prepare` to the first two slots come before its second section;
they are put with it, since nobody else can see the child yet.
-/

namespace Nuvix.PidTable

open Transition

/-- `pid_alloc`, where `mem` is the object `kzalloc` returned, if any. -/
def pidAllocFrom (s : State) (mem : Option ℕ) : Except Errno State :=
  match mem with
  | none => .error .enomem
  | some p => pidAlloc s p

/-- The second section of `pid_prepare`. -/
def prepareSlots (s : State) (child : ℕ) (parent : Option ℕ) (p : ℕ) : State :=
  let pids := preparePids s parent p
  PidType.all.foldl (fun s ty => refcountInc s (pids ty))
    (modTask s child fun k => { k with pids := pids })

/-- The tables, with the operations that are between two of their sections. -/
structure Sections where
  s : State
  /-- `(t, p)`: the task `t` is inside `pid_prepare` with the object `p`. -/
  pending : List (ℕ × ℕ)
  /-- Objects inside `pid_put`, before the number is given back. -/
  dying : List ℕ

/-- One section. -/
inductive Section
  /-- `pid_alloc`, called from `pid_prepare` by the parent `t`. -/
  | alloc (t : ℕ) (mem : Option ℕ)
  /-- The second section of `pid_prepare`. -/
  | prepare (t child p : ℕ)
  /-- A function that is one section, or that does not touch the tables. -/
  | whole (e : Event)
  /-- `pid_reparent`. -/
  | reparent (child parent : ℕ)
  /-- The decrement of `pid_put`. -/
  | put (p : ℕ)
  /-- The section of `pid_put` and the `kfree`. -/
  | clear (p : ℕ)

/-- The task that takes the step; a dropped reference has no particular owner. -/
def Event.caller : Event → Option ℕ
  | .fork t _ _ | .publish t | .setpgid t _ _ | .setsid t | .execve t | .exit t | .reap t _ =>
    some t
  | .taskPut _ | .put _ => none

/-- The functions that are one section each. -/
def Event.isWhole : Event → Bool
  | .fork .. | .put _ => false
  | _ => true

namespace Sections

variable (x : Sections)

/-- The task is not inside `pid_prepare`. -/
def Idle (t : ℕ) : Prop := t ∉ x.pending.map Prod.fst

instance (t : ℕ) : Decidable (x.Idle t) := inferInstanceAs (Decidable (¬ _))

/-- `kzalloc` may return this address. -/
def Unused (p : ℕ) : Prop := (x.s.pid p).refcount = 0 ∧ p ∉ x.dying

instance (p : ℕ) : Decidable (x.Unused p) := inferInstanceAs (Decidable (_ ∧ _))

/-- An object is live from `pid_alloc` until `pid_put` has given its number back. -/
def Live (p : ℕ) : Prop := 0 < (x.s.pid p).refcount ∨ p ∈ x.dying

/-- The step function: `none` when the section is not enabled. -/
def step : Section → Option Sections
  | .alloc t mem =>
    if (x.s.task t).phase = .running ∧ x.Idle t ∧ ∀ p ∈ mem, x.Unused p then
      match mem, pidAllocFrom x.s mem with
      | some p, .ok s =>
        some { x with s := { s with held := p :: s.held }, pending := (t, p) :: x.pending }
      | _, _ => some x
    else none
  | .prepare t child p =>
    if (x.s.task t).phase = .running ∧ (x.s.task child).phase = .free ∧ (t, p) ∈ x.pending then
      let s := prepareSlots x.s child (some t) p
      let s := modTask s child fun k => Task.prepare k.pids child
      some { x with
        s := modTask s t fun k => k.setPhase (.forking child)
        pending := x.pending.erase (t, p) }
    else none
  | .whole e =>
    if e.isWhole ∧ ∀ t ∈ e.caller, x.Idle t then
      (PidTable.step x.s e).map fun s => { x with s := s }
    else none
  | .reparent child parent =>
    some { x with s := modTask x.s child fun k => k.setParent parent }
  | .put p =>
    if p ∈ x.s.held ∧ p ∉ x.pending.map Prod.snd then
      some { x with
        s := { refcountDec x.s p with held := x.s.held.erase p }
        dying := if (x.s.pid p).refcount = 1 then p :: x.dying else x.dying }
    else none
  | .clear p =>
    if p ∈ x.dying then
      some { x with
        s := { x.s with pidmap := Function.update x.s.pidmap (x.s.pid p).nr false }
        dying := x.dying.erase p }
    else none

/-- `init` is published and nothing is in progress. -/
def start : Sections := { s := boot, pending := [], dying := [] }

/-- Some live object carries the number. -/
def InUse (n : ℕ) : Prop := ∃ p, x.Live p ∧ (x.s.pid p).nr = n

/-- Every number a process can have is in use. -/
def Full : Prop := ∀ n, pidInit ≤ n → n < pidMax → x.InUse n

end Sections

/-- What the identifier tables guarantee whenever `pid_lock` is free. -/
structure TableOk (x : Sections) : Prop where
  /-- Live objects have distinct numbers. -/
  nrInj : ∀ p q, x.Live p → x.Live q → (x.s.pid p).nr = (x.s.pid q).nr → p = q
  /-- An object is hashed when a published task is on one of its lists, and then once. -/
  hashed : ∀ p, p ∈ x.s.pidTable ↔
    ∃ ty t, (x.s.task t).Published ∧ t ∈ (x.s.pid p).tasks ty
  nodup : x.s.pidTable.Nodup
  /-- Counts are the slots and the temporary references. -/
  refs : RefsExact x.s
  /-- A bit is set for the numbers in use and for 0. -/
  bit : ∀ n, x.s.pidmap n = true ↔ n = 0 ∨ x.InUse n
  /-- `find_pid_locked` returns the live object of that number, or no object of that
  number is hashed. -/
  find : ∀ n p, findPidLocked x.s n = some p →
    x.Live p ∧ ((x.s.pid p).nr : ℤ) = n ∧ ∀ q, x.Live q → ((x.s.pid q).nr : ℤ) = n → q = p
  findNone : ∀ n, findPidLocked x.s n = none → ∀ p ∈ x.s.pidTable, ((x.s.pid p).nr : ℤ) ≠ n
  /-- The assertion of `pid_put`: an object without references is not hashed. -/
  unhashed : ∀ p ∈ x.dying, p ∉ x.s.pidTable
  /-- `pid_alloc` runs out of numbers exactly when all are in use. -/
  eagain : ∀ mem, pidAllocFrom x.s mem = .error .eagain ↔ mem.isSome ∧ x.Full
  /-- It fails for memory exactly when it gets no object, whatever numbers are in use. -/
  enomem : ∀ mem, pidAllocFrom x.s mem = .error .enomem ↔ mem = none
  /-- Otherwise it gives the object a number that was free. -/
  alloc : ∀ p, ¬ x.Full → ∃ s, pidAllocFrom x.s (some p) = .ok s ∧
    pidInit ≤ (s.pid p).nr ∧ (s.pid p).nr < pidMax ∧ ¬ x.InUse (s.pid p).nr

end Nuvix.PidTable
