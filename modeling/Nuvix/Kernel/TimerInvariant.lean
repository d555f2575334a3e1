import Nuvix.Kernel.Timer
import Nuvix.Lib.Transition

/-!
# Timers: every interleaving

Any number of tasks and interrupt handlers start and cancel timers of a base while its CPU
runs the tick. A step is one section of the lock of the base, a call of a callback, or a switch.
What a callback does to timers is steps of its own, taken while the tick is at the call.

Every successful start gets a number, its place in the record `starts`. The other records hold
the calls, the starts for which `timer_cancel_locked` returned 1, and what `timer_cancel_sync`
has returned for, each with the last start at that time. No step reads a record.
-/

namespace Nuvix.Timers

open SearchTree Sched Wait Transition Function

variable {α τ : Type*} [DecidableEq α] [DecidableEq τ]

/-- Where a task is in `timer_cancel_sync`. -/
inductive Sync (α : Type*)
  | outside
  | entering (x : α)
  | parking (x : α)
  | parked (x : α)
  deriving DecidableEq

/-- A call of a callback: the start it belongs to, and the time of the tick. -/
structure Call where
  start : ℕ
  now : ℕ
  deriving DecidableEq, Repr

/-- A base, its tick, the tasks, and the records. -/
structure State (α τ : Type*) where
  base : Base α τ
  tick : Tick α
  state : τ → TaskState
  sync : τ → Sync α
  starts : List (α × ℕ)
  start : α → Option ℕ
  calls : List Call
  cancelled : List ℕ
  drained : List (α × Option ℕ)

/-- What tasks, interrupt handlers and the tick do. -/
inductive Action (α τ : Type*)
  | start (x : α) (deadline : ℕ)
  | cancel (x : α)
  /-- A task calls `timer_cancel_sync`. -/
  | sync (t : τ) (x : α)
  | round (t : τ)
  | park (t : τ)
  | resume (t : τ)
  /-- Another wake-up of a task. -/
  | wake (t : τ)
  /-- A task outside goes to sleep elsewhere, or the like. -/
  | elsewhere (t : τ) (state : TaskState)
  /-- The interrupt that runs the tick. -/
  | interrupt (now : ℕ)
  | tick

namespace State

def setSync (s : State α τ) (t : τ) (sync : Sync α) : State α τ :=
  { s with sync := update s.sync t sync }

/-- Another base after `timer_cancel_locked` has returned `ret` for `x`. -/
def setCancelled (s : State α τ) (base : Base α τ) (x : α) (ret : Except Errno ℕ) : State α τ :=
  { s with
    base := base
    cancelled := match ret, s.start x with
      | .ok 1, some k => k :: s.cancelled
      | _, _ => s.cancelled }

variable (rb : Rebalance α)

def timerStart (s : State α τ) (x : α) (deadline : ℕ) : State α τ :=
  match s.base.timerStart rb x deadline with
  | .error _ => s
  | .ok base =>
    { s with
      base := base
      starts := s.starts ++ [(x, deadline)]
      start := update s.start x (some s.starts.length) }

def timerCancel (s : State α τ) (x : α) : State α τ :=
  let (base, ret) := s.base.timerCancel rb x
  s.setCancelled base x ret

/-- One round of the loop of `timer_cancel_sync`, up to the unlock. -/
def syncRound (s : State α τ) (t : τ) (x : α) : State α τ :=
  let (base, state, ret) := s.base.cancelRound rb s.state t x
  let s := { s.setCancelled base x ret with state := state }
  match ret with
  | .ok _ => { s with drained := (x, s.start x) :: s.drained }.setSync t .outside
  | .error _ => s.setSync t (.parking x)

/-- The next step of `timer_tick`. -/
def tickStep (s : State α τ) : Option (State α τ) :=
  match s.tick with
  | .idle => none
  | .scan now =>
    match s.base.takeExpired rb now with
    | none => some { s with tick := .idle }
    | some (x, base) => some { s with base := base, tick := .call now x }
  | .call now x =>
    some { s with
      tick := .called now x
      calls := s.calls ++ ((s.start x).map fun k => ⟨k, now⟩).toList }
  | .called now x =>
    let (base, state) := s.base.endCall s.state x
    some { s with base := base, state := state, tick := .scan now }

end State

/-- One step. -/
def step (rb : Rebalance α) (s : State α τ) : Action α τ → Option (State α τ)
  | .start x deadline => some (s.timerStart rb x deadline)
  | .cancel x => some (s.timerCancel rb x)
  | .sync t x =>
    if s.sync t = .outside ∧ s.state t = .runnable then some (s.setSync t (.entering x)) else none
  | .round t =>
    match s.sync t with
    | .entering x => some (s.syncRound rb t x)
    | _ => none
  | .park t =>
    match s.sync t with
    | .parking x =>
      some (s.setSync t (if s.state t = .runnable then .entering x else .parked x))
    | _ => none
  | .resume t =>
    match s.sync t with
    | .parked x => if s.state t = .runnable then some (s.setSync t (.entering x)) else none
    | _ => none
  | .wake t => some { s with state := (schedWake s.state t).1 }
  | .elsewhere t state =>
    if s.sync t = .outside then some { s with state := update s.state t state } else none
  | .interrupt now =>
    match s.tick with
    | .idle => some { s with tick := .scan now }
    | _ => none
  | .tick => s.tickStep rb

/-- After `timers_init`. -/
def boot : State α τ where
  base := .init
  tick := .idle
  state _ := .runnable
  sync _ := .outside
  starts := []
  start _ := none
  calls := []
  cancelled := []
  drained := []

/-! ### The invariant -/

variable {rb : Rebalance α} {s s' : State α τ} {x : α} {base : Base α τ} {a : Action α τ}
  {tick : Tick α}

/-- The last start of `x` is still to be called: it is queued, or about to be called. -/
def State.Pending (s : State α τ) (x : α) : Prop :=
  (s.base.timer x).state = .queued ∨ ∃ now, s.tick = .call now x

/-- Start `k` has neither been called nor been cancelled. -/
def State.Fresh (s : State α τ) (k : ℕ) : Prop :=
  k ∉ s.cancelled ∧ ∀ c ∈ s.calls, c.start ≠ k

/-- The invariant: the base is in order, the tick is at the timer whose state says so, and the
records say of every start what has become of it. -/
structure Inv (s : State α τ) : Prop where
  ticking : Ticking s.base s.tick
  start : ∀ x k, s.start x = some k → s.starts[k]? = some (x, (s.base.timer x).deadline)
  pending : ∀ x, s.Pending x → ∃ k, s.start x = some k ∧ s.Fresh k
  once : (s.calls.map Call.start).Nodup
  called : ∀ c ∈ s.calls, ∃ x deadline, s.starts[c.start]? = some (x, deadline) ∧ deadline ≤ c.now
  cancelled : ∀ k ∈ s.cancelled, k < s.starts.length ∧ ∀ c ∈ s.calls, c.start ≠ k
  drained : ∀ x start, (x, start) ∈ s.drained →
    (∀ k ∈ start, k < s.starts.length) ∧
      (s.start x = start → (s.base.timer x).state = .idle)

section

variable (hinv : Inv s)
include hinv

omit [DecidableEq α] [DecidableEq τ] in
theorem State.start_length {k : ℕ} (h : s.start x = some k) : k < s.starts.length :=
  (List.getElem?_eq_some_iff.mp (hinv.start x k h)).1

omit [DecidableEq α] [DecidableEq τ] in
/-- Two timers never have the same last start. -/
theorem Inv.start_inj {y : α} {k : ℕ} (hx : s.start x = some k) (hy : s.start y = some k) :
    x = y := by
  have heq := hinv.start x k hx
  rw [hinv.start y k hy] at heq
  exact (Prod.mk.inj (Option.some.inj heq)).1.symm

omit [DecidableEq α] [DecidableEq τ] in
/-- Tasks and their places in `timer_cancel_sync` do not matter, nor does the queue. -/
theorem Inv.quiet (drain : List τ) (state : τ → TaskState) (sync : τ → Sync α) :
    Inv { s with base := { s.base with drain := drain }, state := state, sync := sync } :=
  { hinv with ticking := hinv.ticking.setDrain drain }

omit [DecidableEq τ] in
/-- One timer changes its state, and the tick may take it or let it go. -/
theorem Inv.move (x : α) (state : TimerState)
    (hticking : Ticking base tick) (htimer : base.timer = (s.base.setState x state).timer)
    (hcall : ∀ now y, tick = .call now y → s.tick = .call now y ∨ y = x)
    (hidle : state ≠ .idle → (s.base.timer x).state ≠ .idle)
    (hpending : state = .queued ∨ (∃ now, tick = .call now x) → s.Pending x) :
    Inv { s with base := base, tick := tick } where
  ticking := hticking
  start y k h := by
    change s.starts[k]? = some (y, (base.timer y).deadline)
    rw [htimer, Base.deadline_setState]
    exact hinv.start y k h
  pending y h := by
    by_cases hy : y = x
    · subst hy
      refine hinv.pending y (hpending (h.imp_left fun hq => ?_))
      change (base.timer y).state = _ at hq
      rwa [htimer, Base.timer_setState_self] at hq
    · refine hinv.pending y (h.imp (fun hq => ?_) fun ⟨now, htick⟩ => ⟨now, ?_⟩)
      · change (base.timer y).state = _ at hq
        rwa [htimer, Base.timer_setState_of_ne _ _ hy] at hq
      · exact (hcall now y htick).resolve_right hy
  once := hinv.once
  called := hinv.called
  cancelled := hinv.cancelled
  drained y start hmem := by
    refine (hinv.drained y start hmem).imp_right fun hold hstart => ?_
    change (base.timer y).state = .idle
    rw [htimer]
    by_cases hy : y = x
    · subst hy
      rw [Base.timer_setState_self]
      exact by_contra fun h => hidle h (hold hstart)
    · rw [Base.timer_setState_of_ne _ _ hy]
      exact hold hstart

/-! ### Starting and cancelling -/

omit [DecidableEq τ] in
theorem Inv.timerStart (x : α) (deadline : ℕ) : Inv (s.timerStart rb x deadline) := by
  unfold State.timerStart
  cases hstart : s.base.timerStart rb x deadline with
  | error e => exact hinv
  | ok base =>
    obtain ⟨hidle, htimer, -⟩ := Base.timerStart_eq hstart
    have htick : s.tick.timer ≠ some x :=
      hinv.ticking.timer_ne_of_state (by rw [hidle]; exact id)
    have hself : base.timer x = ⟨deadline, s.base.nextSequence, .queued⟩ := by
      rw [htimer, update_self]
    have hne : ∀ y ≠ x, base.timer y = s.base.timer y := fun y hy => by
      rw [htimer, update_of_ne hy]
    -- A number that was given before is not the new one.
    have hold : ∀ {k : ℕ} {e : α × ℕ}, s.starts[k]? = some e →
        (s.starts ++ [(x, deadline)])[k]? = some e := fun {k e} h => by
      rw [List.getElem?_append_left (List.getElem?_eq_some_iff.mp h).1]
      exact h
    have hlen : (s.starts ++ [(x, deadline)]).length = s.starts.length + 1 := by simp
    refine ⟨hinv.ticking.timerStart hstart, fun y k h => ?_, fun y h => ?_, hinv.once,
      fun c hc => ?_, fun k hk => ?_, fun y start hmem => ?_⟩
    · rcases eq_of_update h with ⟨rfl, ⟨⟩⟩ | ⟨hy, h⟩
      · simp [hself]
      · simp only [hne y hy]
        exact hold (hinv.start y k h)
    · by_cases hy : y = x
      · subst hy
        refine ⟨s.starts.length, by simp, fun hk => ?_, fun c hc heq => ?_⟩
        · exact lt_irrefl _ (hinv.cancelled _ hk).1
        · obtain ⟨z, d, hz, -⟩ := hinv.called c hc
          rw [heq, List.getElem?_eq_none le_rfl] at hz
          cases hz
      · simp only [State.Pending, hne y hy] at h
        obtain ⟨k, hk, hfresh⟩ := hinv.pending y h
        exact ⟨k, by simpa [update_of_ne hy] using hk, hfresh⟩
    · obtain ⟨z, d, hz, hd⟩ := hinv.called c hc
      exact ⟨z, d, hold hz, hd⟩
    · simp only [hlen]
      exact (hinv.cancelled k hk).imp_left Nat.lt_succ_of_lt
    · obtain ⟨hlt, hidle'⟩ := hinv.drained y start hmem
      refine ⟨fun k hk => ?_, fun h => ?_⟩
      · simp only [hlen]
        exact Nat.lt_succ_of_lt (hlt k hk)
      · rcases eq_of_update h with ⟨-, rfl⟩ | ⟨hy, h⟩
        · exact absurd (hlt _ rfl) (lt_irrefl _)
        · simp only [hne y hy]
          exact hidle' h

omit [DecidableEq α] [DecidableEq τ] in
/-- A start that is not to be called any more is cancelled. -/
theorem Inv.cancelStart {k : ℕ} (hstart : s.start x = some k) (hpending : ¬ s.Pending x)
    (hcalls : ∀ c ∈ s.calls, c.start ≠ k) : Inv { s with cancelled := k :: s.cancelled } where
  ticking := hinv.ticking
  start := hinv.start
  pending y h := by
    obtain ⟨l, hl, hfresh⟩ := hinv.pending y h
    refine ⟨l, hl, fun hmem => ?_, hfresh.2⟩
    rcases List.mem_cons.mp hmem with rfl | hmem
    · exact hpending (hinv.start_inj hl hstart ▸ h)
    · exact hfresh.1 hmem
  once := hinv.once
  called := hinv.called
  cancelled l hl := by
    rcases List.mem_cons.mp hl with rfl | hl
    · exact ⟨State.start_length hinv hstart, hcalls⟩
    · exact hinv.cancelled l hl
  drained := hinv.drained

omit [DecidableEq τ] in
/-- `timer_cancel_locked` keeps the invariant, and if it does not return `-EBUSY` the timer is
idle. -/
theorem Inv.timerCancel {ret : Except Errno ℕ} (h : s.base.timerCancel rb x = (base, ret)) :
    Inv (s.setCancelled base x ret) ∧ (ret ≠ .error .ebusy → (base.timer x).state = .idle) := by
  have hticking : Ticking base s.tick := hinv.ticking.timerCancel h
  rcases Base.timerCancel_eq rb s.base x with ⟨hq, heq⟩ | ⟨hexec, heq⟩ | ⟨hidle, heq⟩ <;>
    obtain ⟨rfl, rfl⟩ := Prod.mk.inj (h.symm.trans heq)
  · have hcall : ∀ now, s.tick ≠ .call now x := fun now hcall =>
      hinv.ticking.timer_ne_of_state (by rw [hq]; exact id) (by rw [hcall]; rfl)
    obtain ⟨k, hk, hfresh⟩ := hinv.pending x (.inl hq)
    have hmove := hinv.move x .idle hticking rfl (fun _ _ h => .inl h) (fun h => absurd rfl h)
      (fun h => h.elim nofun fun ⟨now, h⟩ => absurd h (hcall now))
    have hidle : ∀ b : Base α τ, ((b.setState x .idle).timer x).state = .idle := fun b => by
      rw [Base.timer_setState_self]
    refine ⟨?_, fun _ => hidle _⟩
    simp only [State.setCancelled, hk]
    refine hmove.cancelStart hk (fun hp => ?_) hfresh.2
    rcases hp with hp | ⟨now, hp⟩
    · rw [hidle] at hp
      cases hp
    · exact hcall now hp
  · refine ⟨?_, fun h => absurd rfl h⟩
    exact hinv.move x .draining hticking rfl (fun _ _ h => .inl h) (fun _ => hexec.ne.2)
      (fun h => h.elim nofun .inr)
  · exact ⟨hinv, fun _ => hidle⟩

omit [DecidableEq α] [DecidableEq τ] in
/-- `timer_cancel_sync` returns for a timer that is idle. -/
theorem Inv.drain (hidle : (s.base.timer x).state = .idle) :
    Inv { s with drained := (x, s.start x) :: s.drained } where
  ticking := hinv.ticking
  start := hinv.start
  pending := hinv.pending
  once := hinv.once
  called := hinv.called
  cancelled := hinv.cancelled
  drained y start hmem := by
    rcases List.mem_cons.mp hmem with heq | hmem
    · obtain ⟨rfl, rfl⟩ := Prod.mk.inj heq
      exact ⟨fun k hk => State.start_length hinv hk, fun _ => hidle⟩
    · exact hinv.drained y start hmem

/-- One round of the loop of `timer_cancel_sync`. -/
theorem Inv.syncRound (t : τ) (x : α) : Inv (s.syncRound rb t x) := by
  unfold State.syncRound Base.cancelRound
  generalize finishWait s.base.drain s.state t = finish
  obtain ⟨drain, state⟩ := finish
  have hfinish := hinv.quiet drain s.state s.sync
  cases hcancel : Base.timerCancel rb { s.base with drain := drain } x with
  | mk base ret =>
    obtain ⟨hinv', hidle⟩ := hfinish.timerCancel hcancel
    cases ret with
    | ok n =>
      simp only [hcancel]
      exact (hinv'.drain (hidle nofun)).quiet base.drain state _
    | error e =>
      simp only [hcancel]
      exact hinv'.quiet _ _ _

/-! ### The tick -/

omit [DecidableEq α] [DecidableEq τ] in
/-- The tick calls the timer that it has taken out. -/
theorem Inv.call {now k : ℕ} (htick : s.tick = .call now x) (hk : s.start x = some k)
    (hfresh : s.Fresh k) :
    Inv { s with tick := .called now x, calls := s.calls ++ [⟨k, now⟩] } where
  ticking := hinv.ticking.setTick (by rw [htick]; rfl) nofun
  start := hinv.start
  pending y h := by
    have hq : (s.base.timer y).state = .queued := h.resolve_right nofun
    have hy : y ≠ x := by
      rintro rfl
      have hexec := (hinv.ticking.executing y).mpr (by rw [htick]; rfl)
      exact hexec.ne.1 hq
    obtain ⟨l, hl, hfresh'⟩ := hinv.pending y (.inl hq)
    refine ⟨l, hl, hfresh'.1, fun c hc => ?_⟩
    rcases List.mem_append.mp hc with hc | hc
    · exact hfresh'.2 c hc
    · rw [List.mem_singleton.mp hc]
      rintro rfl
      exact hy (hinv.start_inj hl hk)
  once := by
    rw [List.map_append, List.nodup_append]
    refine ⟨hinv.once, List.nodup_singleton _, ?_⟩
    rintro l hl m hm rfl
    obtain ⟨c, hc, rfl⟩ := List.mem_map.mp hl
    exact hfresh.2 c hc (List.mem_singleton.mp hm)
  called c hc := by
    rcases List.mem_append.mp hc with hc | hc
    · exact hinv.called c hc
    · rw [List.mem_singleton.mp hc]
      exact ⟨x, _, hinv.start x k hk, hinv.ticking.due now x htick⟩
  cancelled l hl := by
    refine (hinv.cancelled l hl).imp_right fun hcalls c hc => ?_
    rcases List.mem_append.mp hc with hc | hc
    · exact hcalls c hc
    · rw [List.mem_singleton.mp hc]
      rintro rfl
      exact hfresh.1 hl
  drained := hinv.drained

omit [DecidableEq α] [DecidableEq τ] in
/-- The tick between two ticks, or before it looks at the first timer. -/
theorem Inv.setTick (hold : s.tick.timer = none) (hnew : tick.timer = none) :
    Inv { s with tick := tick } := by
  have hcall : ∀ now x, tick ≠ .call now x := by
    rintro now x rfl
    cases hnew
  exact ⟨hinv.ticking.setTick (hnew.trans hold.symm) hcall, hinv.start,
    fun y h => hinv.pending y (h.imp_right fun ⟨now, h⟩ => absurd h (hcall now y)), hinv.once,
    hinv.called, hinv.cancelled, hinv.drained⟩

theorem Inv.tickStep (hstep : s.tickStep rb = some s') : Inv s' := by
  unfold State.tickStep at hstep
  cases htick : s.tick with
  | idle =>
    rw [htick] at hstep
    cases hstep
  | scan now =>
    have hnone : s.tick.timer = none := by rw [htick]; rfl
    simp only [htick] at hstep
    cases htake : s.base.takeExpired rb now with
    | none =>
      rw [htake] at hstep
      cases hstep
      exact hinv.setTick hnone rfl
    | some e =>
      obtain ⟨x, base⟩ := e
      rw [htake] at hstep
      cases hstep
      obtain ⟨hticking, hleast, -, rfl⟩ := hinv.ticking.takeExpired hnone htake
      refine hinv.move x .running hticking rfl (fun now' y h => ?_) (fun _ => ?_) fun _ =>
        .inl hleast.1
      · exact .inr (Tick.call.inj h).2.symm
      · rw [hleast.1]
        exact nofun
  | call now x =>
    rw [htick] at hstep
    cases hstep
    obtain ⟨k, hk, hfresh⟩ := hinv.pending x (.inr ⟨now, htick⟩)
    rw [hk]
    exact hinv.call htick hk hfresh
  | called now x =>
    rw [htick] at hstep
    cases hstep
    have hmove : Inv { s with base := s.base.setState x .idle, tick := .scan now } :=
      hinv.move x .idle (htick ▸ hinv.ticking).endCall rfl nofun (fun h => absurd rfl h)
        fun h => h.elim nofun nofun
    exact hmove.quiet _ _ _

theorem Inv.step (hstep : step rb s a = some s') : Inv s' := by
  have hquiet : ∀ state sync, Inv { s with state := state, sync := sync } :=
    hinv.quiet s.base.drain
  cases a with
  | start x deadline =>
    cases hstep
    exact hinv.timerStart x deadline
  | cancel x =>
    cases hstep
    exact (hinv.timerCancel rfl).1
  | sync t x | elsewhere t state =>
    obtain ⟨-, rfl⟩ := ite_eq_some.mp hstep
    exact hquiet _ _
  | round t =>
    simp only [Timers.step] at hstep
    split at hstep
    · cases hstep
      exact hinv.syncRound t _
    · cases hstep
  | park t =>
    simp only [Timers.step] at hstep
    split at hstep
    · cases hstep
      exact hquiet _ _
    · cases hstep
  | resume t =>
    simp only [Timers.step] at hstep
    split at hstep
    · obtain ⟨-, rfl⟩ := ite_eq_some.mp hstep
      exact hquiet _ _
    · cases hstep
  | wake t =>
    cases hstep
    exact hquiet _ _
  | interrupt now =>
    simp only [Timers.step] at hstep
    split at hstep
    next htick =>
      cases hstep
      exact hinv.setTick (by rw [htick]; rfl) rfl
    · cases hstep
  | tick => exact hinv.tickStep hstep

end

omit [DecidableEq α] [DecidableEq τ] in
theorem inv_boot : Inv (boot : State α τ) where
  ticking := Ticking.init
  start := nofun
  pending _ h := h.elim nofun nofun
  once := List.nodup_nil
  called := nofun
  cancelled := nofun
  drained := nofun

/-! ### What users rely on -/

/-- What users of timers rely on, in a state and in the step after it. -/
structure TimersOk (rb : Rebalance α) (s : State α τ) : Prop where
  /-- The cached timer is the least queued one, and there is one unless none is queued. -/
  first_none : s.base.first = none ↔ ∀ x, (s.base.timer x).state ≠ .queued
  first_least : ∀ x, s.base.first = some x → s.base.Least x
  mem_tree : ∀ x, x ∈ s.base.tree.toList ↔ (s.base.timer x).state = .queued
  /-- A start is called at most once, and by a tick at or after its deadline. -/
  once : (s.calls.map Call.start).Nodup
  due : ∀ c ∈ s.calls, ∃ x deadline, s.starts[c.start]? = some (x, deadline) ∧ deadline ≤ c.now
  /-- A step that calls is one of the tick, for the last start of the timer it has taken out. -/
  calls : ∀ a s', step rb s a = some s' → s'.calls = s.calls ∨
    ∃ now x k, s.tick = .call now x ∧ s.start x = some k ∧ s'.calls = s.calls ++ [⟨k, now⟩]
  /-- The tick takes out the least queued timer, and only if it has expired. -/
  takes : ∀ a s' now x, step rb s a = some s' → s'.tick = .call now x →
    s.tick = .call now x ∨
      s.tick = .scan now ∧ s.base.Least x ∧ (s.base.timer x).deadline ≤ now
  /-- A start for which `timer_cancel_locked` has returned 1 is not called, before or after. -/
  cancelled : ∀ k ∈ s.cancelled, ∀ c ∈ s.calls, c.start ≠ k
  /-- After `timer_cancel_sync`, until the timer is started again, the timer is not in the tree
  and the tick is not at it. -/
  drained : ∀ x start, (x, start) ∈ s.drained → s.start x = start →
    x ∉ s.base.tree.toList ∧ s.base.first ≠ some x ∧ s.tick.timer ≠ some x

/-- Only the tick changes where it is, calls, and takes timers out. -/
theorem tick_of_step (hstep : step rb s a = some s') :
    (s'.tick = s.tick ∨ ∃ now, s'.tick = .scan now) ∧ s'.calls = s.calls ∨
      s.tickStep rb = some s' := by
  cases a with
  | start x deadline =>
    cases hstep
    unfold State.timerStart
    split <;> exact .inl ⟨.inl rfl, rfl⟩
  | cancel x | wake t =>
    cases hstep
    exact .inl ⟨.inl rfl, rfl⟩
  | sync t x | elsewhere t state =>
    obtain ⟨-, rfl⟩ := ite_eq_some.mp hstep
    exact .inl ⟨.inl rfl, rfl⟩
  | round t =>
    simp only [Timers.step] at hstep
    split at hstep
    · cases hstep
      unfold State.syncRound
      dsimp only
      split <;> exact .inl ⟨.inl rfl, rfl⟩
    · cases hstep
  | park t =>
    simp only [Timers.step] at hstep
    split at hstep
    · cases hstep
      exact .inl ⟨.inl rfl, rfl⟩
    · cases hstep
  | resume t =>
    simp only [Timers.step] at hstep
    split at hstep
    · obtain ⟨-, rfl⟩ := ite_eq_some.mp hstep
      exact .inl ⟨.inl rfl, rfl⟩
    · cases hstep
  | interrupt now =>
    simp only [Timers.step] at hstep
    split at hstep
    · cases hstep
      exact .inl ⟨.inr ⟨now, rfl⟩, rfl⟩
    · cases hstep
  | tick => exact .inr hstep

theorem Inv.calls (hinv : Inv s) (hstep : s.tickStep rb = some s') : s'.calls = s.calls ∨
    ∃ now x k, s.tick = .call now x ∧ s.start x = some k ∧ s'.calls = s.calls ++ [⟨k, now⟩] := by
  unfold State.tickStep at hstep
  split at hstep
  · cases hstep
  · split at hstep <;> cases hstep <;> exact .inl rfl
  next now x htick =>
    cases hstep
    obtain ⟨k, hk, -⟩ := hinv.pending x (.inr ⟨now, htick⟩)
    exact .inr ⟨now, x, k, htick, hk, by simp [hk]⟩
  · cases hstep
    exact .inl rfl

theorem Inv.takes (hinv : Inv s) {now : ℕ} (hstep : s.tickStep rb = some s')
    (htick' : s'.tick = .call now x) :
    s.tick = .scan now ∧ s.base.Least x ∧ (s.base.timer x).deadline ≤ now := by
  unfold State.tickStep at hstep
  split at hstep
  · cases hstep
  next now' htick =>
    split at hstep <;> cases hstep
    · cases htick'
    next y base htake =>
      obtain ⟨rfl, rfl⟩ := Tick.call.inj htick'
      obtain ⟨-, hleast, hdue, -⟩ := hinv.ticking.ok.takeExpired htake
      exact ⟨htick, hleast, hdue⟩
  · cases hstep
    cases htick'
  · cases hstep
    cases htick'

theorem Inv.timersOk (hinv : Inv s) : TimersOk rb s where
  first_none := hinv.ticking.ok.first_eq_none
  first_least _ := hinv.ticking.ok.least_first
  mem_tree := hinv.ticking.ok.mem_iff
  once := hinv.once
  due := hinv.called
  calls _ _ hstep := (tick_of_step hstep).elim (fun h => .inl h.2) hinv.calls
  takes _ _ now x hstep htick := by
    rcases tick_of_step hstep with ⟨hsame | ⟨now', hscan⟩, -⟩ | hstep
    · exact .inl (hsame ▸ htick)
    · rw [hscan] at htick
      cases htick
    · exact .inr (hinv.takes hstep htick)
  cancelled k hk := (hinv.cancelled k hk).2
  drained x start hmem hstart := by
    have hidle := (hinv.drained x start hmem).2 hstart
    have hnot : x ∉ s.base.tree.toList := by simp [hinv.ticking.ok.mem_iff, hidle]
    refine ⟨hnot, fun hfirst => ?_, fun htick => ?_⟩
    · rw [hinv.ticking.ok.first] at hfirst
      exact hnot (List.mem_of_head? hfirst)
    · exact ((hinv.ticking.executing x).mpr htick).ne.2 hidle

/-- **Timers.** For any timers and tasks, any way of rebalancing, and every interleaving. -/
theorem timersOk_of_reachable (hs : Reachable (· = boot) (Graph (step rb)) s) : TimersOk rb s := by
  have hinv : Inv s :=
    hs.invariant (fun _ h => h ▸ inv_boot) fun _ _ _ hinv hstep => hinv.step hstep
  exact hinv.timersOk

/-- Two timers with the same deadline and an earlier one. The earlier one is called while a task
waits for the end of the call; the first of the two is cancelled, and the other one, started
later, is called by the same tick. -/
def drainRun : List (Action ℕ ℕ) :=
  [.start 0 5, .start 1 5, .start 2 3, .interrupt 5, .tick, .sync 7 2, .round 7, .park 7,
    .cancel 0, .tick, .tick, .resume 7, .round 7, .tick, .start 1 9, .tick]

/-- Timer `1` has been called and is still executing, so it was not started a second time. -/
theorem timersOk_drainRun : ∃ s : State ℕ ℕ,
    Reachable (· = boot) (Graph (step Rebalance.plain)) s ∧ TimersOk Rebalance.plain s ∧
      s.starts = [(0, 5), (1, 5), (2, 3)] ∧ s.calls = [⟨2, 5⟩, ⟨1, 5⟩] ∧ s.cancelled = [0] ∧
      s.drained = [(2, some 2)] ∧ s.tick = .called 5 1 ∧ s.base.first = none :=
  exists_of_exec drainRun rfl (fun _ hs => timersOk_of_reachable hs) (by decide +kernel)

end Nuvix.Timers
