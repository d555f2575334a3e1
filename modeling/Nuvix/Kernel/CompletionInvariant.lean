import Nuvix.Kernel.Completion

/-!
# Completions: what holds in every interleaving

A wake-up is never lost because there are at least as many waiters awake in the queue as there
is to take, whenever one of them sleeps; this needs that there are fewer tasks than the greatest
value of the count. A timer that is not idle belongs to a task that is still in the wait that
started it, and by the time it is called the clock has passed the deadline for good.
-/

namespace Nuvix.Completions

open Sched Wait Timers SearchTree Transition Function

variable {κ ι τ : Type*}

/-! ### The count and the queue -/

namespace Completion

/-- The waiters in the queue that are awake. -/
def awake (waiters : List τ) (state : τ → TaskState) : ℕ :=
  waiters.countP fun t => state t = .runnable

/-- As long as a waiter sleeps, enough others are awake to take what there is. -/
structure Ok (c : Completion τ) (state : τ → TaskState) : Prop where
  nodup : c.waiters.Nodup
  done_le : c.done ≤ uint32Max
  tokens : (∃ t ∈ c.waiters, Asleep (state t)) → c.done ≤ awake c.waiters state

variable {c c' : Completion τ} {state state' : τ → TaskState} {t : τ} {waiters : List τ}

theorem awake_of_asleep (ht : Asleep (state t)) : state t ≠ .runnable := by
  intro heq
  rw [heq] at ht
  exact not_asleep_runnable ht

/-- Waiters that are awake stay awake, and sleepers may wake. -/
theorem Ok.calm (h : c.Ok state)
    (hstate : ∀ u ∈ c.waiters, state' u = state u ∨ state' u = .runnable) : c.Ok state' where
  nodup := h.nodup
  done_le := h.done_le
  tokens := by
    rintro ⟨u, hu, hasleep⟩
    have hold : Asleep (state u) := by
      rcases hstate u hu with heq | hrun
      · rwa [heq] at hasleep
      · exact absurd hrun (awake_of_asleep hasleep)
    refine (h.tokens ⟨u, hu, hold⟩).trans (List.countP_mono_left fun w hw hrun => ?_)
    simp only [decide_eq_true_eq] at hrun ⊢
    exact (hstate w hw).elim (·.trans hrun) id

theorem Ok.of_done_eq_zero (hnodup : c.waiters.Nodup) (hdone : c.done = 0) : c.Ok state :=
  ⟨hnodup, hdone ▸ Nat.zero_le _, fun _ => hdone ▸ Nat.zero_le _⟩

/-- No waiter sleeps once the count is at its greatest value: there are not enough tasks to have
that many awake and one asleep. -/
theorem Ok.not_asleep [Fintype τ] (hcard : Fintype.card τ ≤ uint32Max) (h : c.Ok state)
    (hdone : c.done = uint32Max) : ∀ t ∈ c.waiters, ¬ Asleep (state t) := by
  intro t ht hasleep
  have htokens := h.tokens ⟨t, ht, hasleep⟩
  have hlength : awake c.waiters state ≤ c.waiters.length := List.countP_le_length
  have hne : awake c.waiters state ≠ c.waiters.length := fun heq =>
    awake_of_asleep hasleep (by simpa using List.countP_eq_length.mp heq t ht)
  have hle := h.nodup.length_le_card
  omega

/-- What `take_completion_locked` does. -/
theorem take_eq_some (h : c.take = some c') : c.done ≠ 0 ∧ c'.waiters = c.waiters ∧
    (c.done = uint32Max ∧ c'.done = c.done ∨ c.done ≠ uint32Max ∧ c'.done + 1 = c.done) := by
  unfold take at h
  split at h
  · cases h
  next hdone =>
    cases h
    refine ⟨hdone, rfl, ?_⟩
    by_cases hmax : c.done = uint32Max
    · exact .inl ⟨hmax, by simp [hmax]⟩
    · refine .inr ⟨hmax, ?_⟩
      simp only [ne_eq, hmax, not_false_eq_true, if_true]
      omega

theorem take_eq_none (h : c.take = none) : c.done = 0 := by
  unfold take at h
  split at h
  · assumption
  · cases h

theorem Ok.take (h : c.Ok state) (htake : c.take = some c') : c'.Ok state := by
  obtain ⟨-, hwaiters, hdone⟩ := take_eq_some htake
  have hle : c'.done ≤ c.done := by omega
  refine ⟨hwaiters ▸ h.nodup, hle.trans h.done_le, fun hasleep => ?_⟩
  rw [hwaiters] at hasleep ⊢
  exact hle.trans (h.tokens hasleep)

variable [DecidableEq τ]

theorem awake_wake (hnodup : waiters.Nodup) (hmem : t ∈ waiters) (ht : Asleep (state t)) :
    awake waiters (update state t .runnable) = awake waiters state + 1 := by
  have hperm := List.perm_cons_erase hmem
  have hrest : (waiters.erase t).countP (fun u => update state t .runnable u = .runnable) =
      (waiters.erase t).countP fun u => state u = .runnable := by
    refine List.countP_congr fun u hu => ?_
    have hut : u ≠ t := fun heq => hnodup.not_mem_erase (heq ▸ hu)
    simp [update_of_ne hut]
  unfold awake
  rw [hperm.countP_eq, hperm.countP_eq, List.countP_cons_of_pos (by simp),
    List.countP_cons_of_neg (by simpa using awake_of_asleep ht), hrest]

/-- A waiter that is awake leaves. -/
theorem awake_erase (hmem : t ∈ waiters) (ht : state t = .runnable) :
    awake waiters state = awake (waiters.erase t) state + 1 := by
  unfold awake
  rw [(List.perm_cons_erase hmem).countP_eq, List.countP_cons_of_pos (by simpa using ht)]

theorem Ok.complete [Fintype τ] (hcard : Fintype.card τ ≤ uint32Max) (h : c.Ok state) :
    (c.complete state).1.Ok (c.complete state).2 := by
  by_cases hdone : c.done = uint32Max
  · -- Nobody sleeps, and the count stays.
    have hnone := h.not_asleep hcard hdone
    refine ⟨h.nodup, by simp [Completion.complete, hdone], ?_⟩
    rintro ⟨u, hu, hasleep⟩
    rcases wakeUpOne_spec c.waiters state with ⟨-, heq⟩ | ⟨w, hw, hw', -⟩
    · refine absurd ?_ (hnone u hu)
      rwa [Completion.complete, heq] at hasleep
    · exact absurd hw' (hnone w hw)
  · have hlt : c.done < uint32Max := lt_of_le_of_ne h.done_le hdone
    refine ⟨h.nodup, by simpa [Completion.complete, hdone, Nat.add_one_le_iff] using hlt, ?_⟩
    rintro ⟨u, hu, hasleep⟩
    simp only [Completion.complete, ne_eq, hdone, not_false_eq_true, if_true] at hasleep ⊢
    rcases wakeUpOne_spec c.waiters state with ⟨hnone, heq⟩ | ⟨w, hw, hw', heq⟩
    · rw [heq] at hasleep
      exact absurd hasleep (hnone u hu)
    · rw [heq, awake_wake h.nodup hw hw']
      exact Nat.succ_le_succ (h.tokens ⟨w, hw, hw'⟩)

theorem Ok.completeAll (h : c.Ok state) : (c.completeAll state).1.Ok (c.completeAll state).2 where
  nodup := h.nodup
  done_le := le_rfl
  tokens := by
    rintro ⟨u, hu, hasleep⟩
    change Asleep (wakeUpAll c.waiters state u) at hasleep
    rw [wakeUpAll_apply] at hasleep
    split at hasleep
    · exact absurd hasleep not_asleep_runnable
    next hnot =>
      exact absurd ⟨hu, hasleep⟩ hnot

/-- A waiter that is awake leaves the queue and takes. -/
theorem Ok.leaveTake [Fintype τ] (hcard : Fintype.card τ ≤ uint32Max) (h : c.Ok state)
    (hrun : state t = .runnable)
    (htake : { c with waiters := c.waiters.erase t }.take = some c') : c'.Ok state := by
  obtain ⟨-, hwaiters, hdone⟩ := take_eq_some htake
  simp only at hwaiters hdone
  refine ⟨hwaiters ▸ h.nodup.erase t, ?_, ?_⟩
  · have := h.done_le
    omega
  · rintro ⟨u, hu, hasleep⟩
    rw [hwaiters] at hu ⊢
    have hu' := List.mem_of_mem_erase hu
    rcases hdone with ⟨hmax, -⟩ | ⟨-, hdone⟩
    · exact absurd hasleep (h.not_asleep hcard hmax u hu')
    · have htokens := h.tokens ⟨u, hu', hasleep⟩
      by_cases hmem : t ∈ c.waiters
      · rw [awake_erase hmem hrun] at htokens
        omega
      · rw [List.erase_of_not_mem hmem]
        omega

end Completion

/-! ### Tasks and their timers -/

variable {s s' : State κ ι τ} {t u : τ} {cpu : κ} {pc : Pc κ} {form : Form κ}
  {base : Base (τ ⊕ ι) τ} {ret : Except Errno Unit} {state : τ → TaskState} {tick : Tick (τ ⊕ ι)}
  {c : Completion τ} {place place' : Place} {x : τ ⊕ ι} {now : ℕ}

theorem timerCpu_setPlace (place : Place) (pc : Pc κ) :
    (pc.setPlace place).timerCpu = pc.timerCpu := by
  unfold Pc.setPlace
  split
  next form =>
    cases form with
    | plain sleep => rfl
    | timed deadline cpu armed => cases armed <;> rfl
  · rfl
  · rfl

/-- What it means for a task to be outside. -/
theorem outside_of_place (h : pc.place = none) : (∀ place form, pc ≠ .wait place form) ∧
    (∀ place cpu ret, pc ≠ .drain place cpu ret) ∧ pc.timerCpu = none := by
  cases pc with
  | outside => exact ⟨nofun, nofun, rfl⟩
  | returned ret => exact ⟨nofun, nofun, rfl⟩
  | wait place form => cases h
  | drain place cpu ret => cases h

theorem setPlace_eq_wait (h : pc.setPlace place = .wait place' form) :
    ∃ old, pc = .wait old form := by
  cases pc <;> simp_all [Pc.setPlace]

theorem setPlace_eq_drain (h : pc.setPlace place = .drain place' cpu ret) :
    ∃ old, pc = .drain old cpu ret := by
  cases pc <;> simp_all [Pc.setPlace]

theorem place_setPlace (h : (pc.setPlace place).place = some place') : place = place' := by
  cases pc <;> simp_all [Pc.setPlace, Pc.place]

theorem ret_setPlace (place : Place) (pc : Pc κ) : (pc.setPlace place).ret = pc.ret := by
  cases pc <;> rfl

/-- The timer on the stack of a task is idle outside the wait that started it, the task is awake
once it has been called, and a task that sleeps until the end of the call will be woken. -/
structure State.TaskOk (s : State κ ι τ) (t : τ) : Prop where
  running : (s.pc t).place = some .entering → s.state t = .runnable
  armed : ∀ cpu, ((s.base cpu).timer (.inl t)).state ≠ .idle → (s.pc t).timerCpu = some cpu
  deadline : ∀ place deadline cpu, s.pc t = .wait place (.timed deadline cpu true) →
    ((s.base cpu).timer (.inl t)).deadline = deadline
  expired : s.expired t = true → ∀ place deadline cpu armed,
    s.pc t = .wait place (.timed deadline cpu armed) →
      deadline ≤ s.clock ∧ ¬ Asleep (s.state t)
  drain : ∀ place cpu ret, s.pc t = .drain place cpu ret → Asleep (s.state t) →
    t ∈ (s.base cpu).drain ∧ ((s.base cpu).timer (.inl t)).state = .draining

/-- A step is not about a task: at most it wakes it. -/
structure Same (s s' : State κ ι τ) (u : τ) : Prop where
  pc : s'.pc u = s.pc u
  expired : s'.expired u = s.expired u
  state : s'.state u = s.state u ∨ s'.state u = .runnable
  timer : ∀ cpu, (s'.base cpu).timer (.inl u) = (s.base cpu).timer (.inl u)
  drain : ∀ cpu, u ∈ (s.base cpu).drain → u ∈ (s'.base cpu).drain
  clock : s.clock ≤ s'.clock

theorem Same.refl (s : State κ ι τ) (u : τ) : Same s s u :=
  ⟨rfl, rfl, .inl rfl, fun _ => rfl, fun _ => id, le_rfl⟩

theorem asleep_of_or {state state' : TaskState} (hor : state' = state ∨ state' = .runnable)
    (h : Asleep state') : Asleep state := by
  rcases hor with rfl | rfl
  · exact h
  · exact absurd h not_asleep_runnable

theorem State.TaskOk.same (h : s.TaskOk u) (hsame : Same s s' u) : s'.TaskOk u where
  running hplace := by
    rw [hsame.pc] at hplace
    exact hsame.state.elim (·.trans (h.running hplace)) id
  armed cpu hidle := by
    rw [hsame.timer] at hidle
    rw [hsame.pc]
    exact h.armed cpu hidle
  deadline place deadline cpu hpc := by
    rw [hsame.pc] at hpc
    rw [hsame.timer]
    exact h.deadline place deadline cpu hpc
  expired hexpired place deadline cpu armed hpc := by
    rw [hsame.expired] at hexpired
    rw [hsame.pc] at hpc
    obtain ⟨hle, hawake⟩ := h.expired hexpired place deadline cpu armed hpc
    exact ⟨hle.trans hsame.clock, fun hasleep => hawake (asleep_of_or hsame.state hasleep)⟩
  drain place cpu ret hpc hasleep := by
    rw [hsame.pc] at hpc
    obtain ⟨hmem, hstate⟩ := h.drain place cpu ret hpc (asleep_of_or hsame.state hasleep)
    rw [hsame.timer]
    exact ⟨hsame.drain cpu hmem, hstate⟩

theorem pc_setPc_self [DecidableEq τ] (s : State κ ι τ) (t : τ) (pc : Pc κ) :
    (s.setPc t pc).pc t = pc :=
  update_self _ _ _

theorem pc_setPc_of_ne [DecidableEq τ] (s : State κ ι τ) (pc : Pc κ) (hu : u ≠ t) :
    (s.setPc t pc).pc u = s.pc u :=
  update_of_ne hu _ _

theorem ret_leave [DecidableEq τ] (s : State κ ι τ) (t : τ) (form : Form κ)
    (ret : Except Errno Unit) : ((s.leave t form ret).pc t).ret = some ret := by
  unfold State.leave
  rw [pc_setPc_self]
  split <;> rfl

theorem ret_sleepOn [DecidableEq τ] (s : State κ ι τ) (t : τ) (form : Form κ) :
    ((s.sleepOn t form).pc t).ret = none := by
  rw [State.sleepOn, pc_setPc_self]
  rfl

/-- A task moves on; what it is going to return stays, or is not decided. -/
theorem ret_setPc [DecidableEq τ] {r : State κ ι τ} (hr : r.pc = s.pc)
    (hpc : pc.ret = (s.pc u).ret ∨ pc.ret = none) (t : τ) :
    ((r.setPc u pc).pc t).ret = (s.pc t).ret ∨ ((r.setPc u pc).pc t).ret = none := by
  by_cases htu : t = u
  · rwa [htu, pc_setPc_self]
  · rw [pc_setPc_of_ne _ _ htu, hr]
    exact .inl rfl

theorem pc_callback [DecidableEq τ] (x : τ ⊕ ι) : (s.callback x).pc = s.pc := by
  cases x <;> rfl

/-- Another base of timers, as far as one task goes. -/
theorem Same.setBase [DecidableEq κ] (htimer : base.timer (.inl u) = (s.base cpu).timer (.inl u))
    (hdrain : u ∈ (s.base cpu).drain → u ∈ base.drain) : Same s (s.setBase cpu base) u where
  __ := Same.refl s u
  timer := (forall_update_iff s.base fun c b => b.timer (.inl u) = (s.base c).timer (.inl u)).mpr
    ⟨htimer, fun _ _ => rfl⟩
  drain := (forall_update_iff s.base fun c b => u ∈ (s.base c).drain → u ∈ b.drain).mpr
    ⟨hdrain, fun _ _ => id⟩

/-- The invariant. -/
structure Inv (s : State κ ι τ) : Prop where
  completion : s.completion.Ok s.state
  count : s.completion.done ≠ uint32Max → s.taken + s.completion.done = s.completes
  waits : ∀ t ∈ s.completion.waiters, ∃ place form, s.pc t = .wait place form
  ticking : ∀ cpu, Ticking (s.base cpu) (s.tick cpu)
  clock : ∀ cpu now, (s.tick cpu).now = some now → now ≤ s.clock
  task : ∀ t, s.TaskOk t

theorem inv_boot : Inv (boot : State κ ι τ) where
  completion := .of_done_eq_zero List.nodup_nil rfl
  count _ := rfl
  waits := nofun
  ticking _ := Ticking.init
  clock := nofun
  task _ := ⟨nofun, fun _ h => absurd rfl h, nofun, nofun, nofun⟩

section

variable (hinv : Inv s)
include hinv

/-- A task that is not in a waiting form is not in the queue. -/
theorem Inv.not_mem_waiters (hpc : ∀ place form, s.pc t ≠ .wait place form) :
    t ∉ s.completion.waiters := fun hmem =>
  have ⟨place, form, heq⟩ := hinv.waits t hmem
  hpc place form heq

/-- Without a wait that has started it, the timer of a task is idle. -/
theorem Inv.timer_idle (hpc : (s.pc t).timerCpu ≠ some cpu) :
    ((s.base cpu).timer (.inl t)).state = .idle :=
  by_contra fun hidle => hpc ((hinv.task t).armed cpu hidle)

/-- A step that is about no task. -/
theorem Inv.same (hcompletion : s'.completion.Ok s'.state)
    (hcount : s'.completion.done ≠ uint32Max → s'.taken + s'.completion.done = s'.completes)
    (hwaiters : ∀ u ∈ s'.completion.waiters, u ∈ s.completion.waiters)
    (hticking : ∀ cpu, Ticking (s'.base cpu) (s'.tick cpu))
    (hclock : ∀ cpu now, (s'.tick cpu).now = some now → now ≤ s'.clock) (hsame : ∀ u, Same s s' u) :
    Inv s' :=
  ⟨hcompletion, hcount, fun u hu => by rw [(hsame u).pc]; exact hinv.waits u (hwaiters u hu),
    hticking, hclock, fun u => (hinv.task u).same (hsame u)⟩

/-- Wake-ups, and another count. -/
theorem Inv.wake {completes taken : ℕ} (hcompletion : c.Ok state)
    (hcount : c.done ≠ uint32Max → taken + c.done = completes)
    (hwaiters : c.waiters = s.completion.waiters)
    (hstate : ∀ u, state u = s.state u ∨ state u = .runnable) :
    Inv { s with completion := c, state := state, completes := completes, taken := taken } :=
  hinv.same hcompletion hcount (fun _ hu => hwaiters ▸ hu) hinv.ticking hinv.clock
    fun u => { Same.refl s u with state := hstate u }

section

variable [DecidableEq κ]

theorem Inv.ticking_update (hticking : Ticking base (s.tick cpu)) (c : κ) :
    Ticking (update s.base cpu base c) (s.tick c) :=
  (forall_update_iff _ fun c b => Ticking b (s.tick c)).mpr
    ⟨hticking, fun c _ => hinv.ticking c⟩ c

/-- A task has its timer on one base only. -/
theorem Inv.armed_update (hcpu : ∀ c, (s.pc t).timerCpu = some c → c = cpu) (c : κ)
    (h : ((update s.base cpu base c).timer (.inl t)).state ≠ .idle) : c = cpu := by
  by_contra hc
  rw [update_of_ne hc] at h
  exact hc (hcpu c ((hinv.task t).armed c h))

theorem Inv.clock_update (hnow : ∀ now, tick.now = some now → now ≤ s.clock) :
    ∀ c now, (update s.tick cpu tick c).now = some now → now ≤ s.clock :=
  (forall_update_iff _ fun _ (tick : Tick _) => ∀ now, tick.now = some now → now ≤ s.clock).mpr
    ⟨hnow, fun c _ => hinv.clock c⟩

/-- Another base of timers, in which the timers of tasks are as they were. -/
theorem Inv.setBase (hticking : Ticking base (s.tick cpu))
    (htimer : ∀ t : τ, base.timer (.inl t) = (s.base cpu).timer (.inl t))
    (hdrain : base.drain = (s.base cpu).drain) : Inv (s.setBase cpu base) :=
  hinv.same hinv.completion hinv.count (fun _ => id) (hinv.ticking_update hticking)
    hinv.clock fun u => .setBase (htimer u) (hdrain ▸ id)

theorem Inv.setTick (hticking : Ticking (s.base cpu) tick)
    (hnow : ∀ now, tick.now = some now → now ≤ s.clock) : Inv (s.setTick cpu tick) := by
  refine hinv.same hinv.completion hinv.count (fun _ => id) ?_ (hinv.clock_update hnow)
    fun u => { Same.refl s u with }
  exact (forall_update_iff _ fun c tick => Ticking (s.base c) tick).mpr
    ⟨hticking, fun c _ => hinv.ticking c⟩

end

variable [DecidableEq τ]

/-- What a step has to do with the queue if it is about one task: the queue stays in order, and
nobody else in it is moved. -/
theorem Inv.task_step (t : τ) (hcompletion : s'.completion.Ok s'.state)
    (hcount : s'.completion.done ≠ uint32Max → s'.taken + s'.completion.done = s'.completes)
    (hwaiters : ∀ u ∈ s'.completion.waiters, u = t ∨ u ∈ s.completion.waiters)
    (hwaits : t ∈ s'.completion.waiters → ∃ place form, s'.pc t = .wait place form)
    (hticking : ∀ cpu, Ticking (s'.base cpu) (s'.tick cpu))
    (hclock : ∀ cpu now, (s'.tick cpu).now = some now → now ≤ s'.clock)
    (hother : ∀ u ≠ t, Same s s' u) (hself : s'.TaskOk t) : Inv s' where
  completion := hcompletion
  count := hcount
  waits u hu := by
    by_cases hut : u = t
    · subst hut
      exact hwaits hu
    · rw [(hother u hut).pc]
      exact hinv.waits u ((hwaiters u hu).resolve_left hut)
  ticking := hticking
  clock := hclock
  task u := by
    by_cases hut : u = t
    · subst hut
      exact hself
    · exact (hinv.task u).same (hother u hut)

/-- A task moves on, with the rest as it is. -/
theorem Inv.setPc {state : TaskState}
    (hstate : state = s.state t ∨ state = .runnable ∨ t ∉ s.completion.waiters)
    (hwaits : t ∈ s.completion.waiters → ∃ place form, pc = .wait place form)
    (hself : ({ s with state := update s.state t state }.setPc t pc).TaskOk t) :
    Inv ({ s with state := update s.state t state }.setPc t pc) := by
  refine hinv.task_step t (hinv.completion.calm fun u hu => ?_) hinv.count (fun u => .inr) ?_
    hinv.ticking hinv.clock (fun u hut => ?_) hself
  · by_cases hut : u = t
    · subst hut
      simp only [State.setPc, update_self]
      rcases hstate with h | h | h
      · exact .inl h
      · exact .inr h
      · exact absurd hu h
    · exact .inl (update_of_ne hut _ _)
  · intro hmem
    simpa [State.setPc] using hwaits hmem
  · exact { Same.refl s u with pc := update_of_ne hut _ _, state := .inl (update_of_ne hut _ _) }

/-! ### Calls and switches -/

/-- A task outside goes to sleep, or the like. -/
theorem Inv.elsewhere (hplace : (s.pc t).place = none) (state : TaskState) :
    Inv { s with state := update s.state t state } := by
  obtain ⟨hwait, hdrain, -⟩ := outside_of_place hplace
  refine hinv.task_step t (hinv.completion.calm fun u hu => .inl (update_of_ne ?_ _ _))
    hinv.count (fun _ => .inr) (hinv.waits t) hinv.ticking hinv.clock
    (fun u hu => { Same.refl s u with state := .inl (update_of_ne hu _ _) })
    ⟨fun h => (nomatch hplace.symm.trans h), (hinv.task t).armed, (hinv.task t).deadline,
      fun _ place deadline cpu armed h => absurd h (hwait _ _),
      fun place cpu ret h => absurd h (hdrain _ _ _)⟩
  rintro rfl
  exact hinv.not_mem_waiters hwait hu

/-- A task outside calls a waiting form. -/
theorem Inv.enter {expired : Bool} (hplace : (s.pc t).place = none) (hrun : s.state t = .runnable)
    (harmed : ∀ deadline cpu, form ≠ .timed deadline cpu true)
    (hexpired : ∀ deadline cpu armed, form = .timed deadline cpu armed → expired = false) :
    Inv ({ s with expired := update s.expired t expired }.setPc t
      (.wait .entering form)) := by
  obtain ⟨-, -, hidle⟩ := outside_of_place hplace
  have hpc' := pc_setPc_self { s with expired := update s.expired t expired } t
    (.wait .entering form)
  refine hinv.task_step t hinv.completion hinv.count (fun _ => .inr) (fun _ => ⟨_, _, hpc'⟩)
    hinv.ticking hinv.clock
    (fun u hu => { Same.refl s u with pc := pc_setPc_of_ne _ _ hu, expired := update_of_ne hu _ _ })
    ⟨fun _ => hrun, fun c h => ?_, ?_, ?_, ?_⟩
  · have hold := (hinv.task t).armed c h
    rw [hidle] at hold
    cases hold
  · intro place deadline cpu h
    exact absurd (Pc.wait.inj (hpc'.symm.trans h)).2 (harmed deadline cpu)
  · intro htrue place deadline cpu armed h
    have hfalse := hexpired _ _ _ (Pc.wait.inj (hpc'.symm.trans h)).2
    simp [State.setPc, hfalse] at htrue
  · exact fun place c ret' h => nomatch hpc'.symm.trans h

/-- A task is switched out, or goes on with its loop. -/
theorem Inv.setPlace {state : TaskState} (hstate : state = s.state t ∨ state = .runnable)
    (hrun : place = .entering → state = .runnable) :
    Inv ({ s with state := update s.state t state }.setPc t
      ((s.pc t).setPlace place)) := by
  have htask := hinv.task t
  have hpc' := pc_setPc_self { s with state := update s.state t state } t
    ((s.pc t).setPlace place)
  have hstate' : ({ s with state := update s.state t state }.setPc t
      ((s.pc t).setPlace place)).state t = state := update_self _ _ _
  have hasleep : Asleep state → Asleep (s.state t) := asleep_of_or hstate
  refine hinv.setPc (hstate.imp_right .inl) (fun hmem => ?_) ⟨?_, fun c h => ?_, ?_, ?_, ?_⟩
  · obtain ⟨old, form, h⟩ := hinv.waits t hmem
    exact ⟨place, form, by rw [h]; rfl⟩
  · intro h
    rw [hpc'] at h
    rw [hstate']
    exact hrun (place_setPlace h)
  · rw [hpc', timerCpu_setPlace]
    exact htask.armed c h
  · intro p deadline cpu h
    obtain ⟨old, h⟩ := setPlace_eq_wait (hpc'.symm.trans h)
    exact htask.deadline old deadline cpu h
  · intro hexpired p deadline cpu armed h
    obtain ⟨old, h⟩ := setPlace_eq_wait (hpc'.symm.trans h)
    obtain ⟨hle, hawake⟩ := htask.expired hexpired old deadline cpu armed h
    rw [hstate']
    exact ⟨hle, fun h => hawake (hasleep h)⟩
  · intro p cpu ret h hsleep
    rw [hstate'] at hsleep
    obtain ⟨old, h⟩ := setPlace_eq_drain (hpc'.symm.trans h)
    exact htask.drain old cpu ret h (hasleep hsleep)

theorem Inv.park (t : τ) : Inv (s.park t) := by
  refine hinv.setPlace (TaskState.parked_or _ _ _) fun h => ?_
  split at h
  · assumption
  · cases h

theorem Inv.resume (hrun : s.state t = .runnable) :
    Inv (s.setPc t ((s.pc t).setPlace .entering)) := by
  have hplace : Inv ({ s with state := update s.state t (s.state t) }.setPc t
      ((s.pc t).setPlace .entering)) := hinv.setPlace (.inl rfl) fun _ => hrun
  rwa [update_eq_self] at hplace

/-- `completion_timed_out`: the timer belongs to a task that is still in the wait that started
it, and the deadline has passed. -/
theorem Inv.timedOut (htick : s.tick cpu = .call now (.inl t)) : Inv (s.callback (.inl t)) := by
  have htask := hinv.task t
  have hexec := ((hinv.ticking cpu).executing (.inl t)).mpr (by rw [htick]; rfl)
  have hcpu := htask.armed cpu hexec.ne.2
  have hdue := (hinv.ticking cpu).due now _ htick
  have hnow : now ≤ s.clock := hinv.clock cpu now (by rw [htick]; rfl)
  have hawake := not_asleep_schedWake s.state t
  have hstate := schedWake_or s.state t
  refine hinv.task_step t (hinv.completion.calm fun u _ => hstate u) hinv.count
    (fun _ => .inr) (hinv.waits t) hinv.ticking hinv.clock
    (fun u hu => { Same.refl s u with expired := update_of_ne hu _ _, state := hstate u })
    ⟨fun h => (hstate t).elim (·.trans (htask.running h)) id, htask.armed, htask.deadline, ?_,
      fun _ _ _ _ hasleep => absurd hasleep hawake⟩
  intro _ place deadline c armed hpc
  refine ⟨?_, hawake⟩
  change s.pc t = _ at hpc
  change deadline ≤ s.clock
  rw [hpc] at hcpu
  cases armed with
  | false => cases hcpu
  | true =>
    obtain rfl := Option.some.inj hcpu
    rw [htask.deadline place deadline c hpc] at hdue
    exact hdue.trans hnow

/-! ### Rounds of the waiting forms -/

/-- A task leaves its loop; if its timer has been started, it goes on to wait for it. -/
theorem Inv.leave (hpc : s.pc t = .wait .entering form) {taken : ℕ} (hcompletion : c.Ok s.state)
    (hcount : c.done ≠ uint32Max → taken + c.done = s.completes) (ht : t ∉ c.waiters)
    (hwaiters : ∀ u ∈ c.waiters, u ∈ s.completion.waiters) (ret : Except Errno Unit) :
    Inv ({ s with completion := c, taken := taken }.leave t form ret) := by
  have hrun : s.state t = .runnable := (hinv.task t).running (by rw [hpc]; rfl)
  unfold State.leave
  refine hinv.task_step t hcompletion hcount (fun u hu => .inr (hwaiters u hu))
    (fun h => absurd h ht) hinv.ticking hinv.clock
    (fun u hu => { Same.refl s u with pc := pc_setPc_of_ne _ _ hu })
    ⟨fun _ => hrun, fun cpu hidle => ?_, ?_, ?_, fun _ _ _ _ hasleep => ?_⟩
  · have harmed := (hinv.task t).armed cpu hidle
    rw [hpc] at harmed
    rw [pc_setPc_self]
    cases form with
    | plain sleep => cases harmed
    | timed deadline cpu armed =>
      cases armed with
      | false => cases harmed
      | true => exact harmed
  -- After the loop the task is in no waiting form.
  · intro place deadline cpu hwait
    rw [pc_setPc_self] at hwait
    split at hwait <;> cases hwait
  · intro _ place deadline cpu armed hwait
    rw [pc_setPc_self] at hwait
    split at hwait <;> cases hwait
  · change Asleep (s.state t) at hasleep
    rw [hrun] at hasleep
    exact absurd hasleep not_asleep_runnable

/-- A task registers in the queue and is about to sleep; if it has a deadline, that has not
passed. -/
theorem Inv.sleepOn (hpc : s.pc t = .wait .entering form) (hdone : s.completion.done = 0)
    (hclock : ∀ deadline cpu armed, form = .timed deadline cpu armed → s.clock < deadline) :
    Inv (s.sleepOn t form) := by
  have htask := hinv.task t
  have hself : (s.sleepOn t form).pc t = .wait .parking form := pc_setPc_self _ _ _
  have hne : ∀ u ≠ t, (s.sleepOn t form).state u = s.state u :=
    fun u hu => update_of_ne hu _ _
  have hcpu : ∀ cpu, (s.pc t).timerCpu = some cpu →
      ((s.sleepOn t form).pc t).timerCpu = some cpu := by
    intro cpu h
    rwa [hself, ← timerCpu_setPlace .entering, Pc.setPlace, ← hpc]
  have hwaiters : (s.sleepOn t form).completion.waiters =
      (prepareToWait s.completion.waiters s.state t form.sleep).1 := rfl
  have hnodup : (s.sleepOn t form).completion.waiters.Nodup :=
    hwaiters ▸ nodup_prepareToWait hinv.completion.nodup
  refine hinv.task_step t (.of_done_eq_zero hnodup hdone) hinv.count
    (fun u hu => mem_prepareToWait.mp (hwaiters ▸ hu)) (fun _ => ⟨_, _, hself⟩) hinv.ticking
    hinv.clock
    (fun u hu => { Same.refl s u with pc := pc_setPc_of_ne _ _ hu, state := .inl (hne u hu) })
    ⟨?_, fun cpu hidle => hcpu cpu (htask.armed cpu hidle), ?_, ?_, ?_⟩
  · intro hplace
    rw [hself] at hplace
    cases hplace
  · intro place deadline cpu hwait
    rw [hself] at hwait
    obtain ⟨-, rfl⟩ := Pc.wait.inj hwait
    exact htask.deadline _ deadline cpu hpc
  · -- A timer that has been called says that the deadline has passed.
    intro hexpired place deadline cpu armed hwait
    rw [hself] at hwait
    obtain ⟨-, rfl⟩ := Pc.wait.inj hwait
    exact absurd (htask.expired hexpired _ _ _ _ hpc).1 (not_le.mpr (hclock _ _ _ rfl))
  · intro place cpu ret hdrain
    rw [hself] at hdrain
    cases hdrain

/-- A task leaves the queue while there is nothing to take. -/
theorem Inv.dequeue (hdone : s.completion.done = 0) (t : τ) :
    Inv { s with completion := { s.completion with
      waiters := s.completion.waiters.erase t } } :=
  hinv.same (.of_done_eq_zero (hinv.completion.nodup.erase t) hdone) hinv.count
    (fun _ hu => List.mem_of_mem_erase hu) hinv.ticking hinv.clock
    fun u => { Same.refl s u with }

variable [DecidableEq κ]

/-- A task moves on, and a base of timers changes as far as this task goes. -/
theorem Inv.base_step (t : τ) (hticking : Ticking base (s.tick cpu))
    (htimer : ∀ u : τ, u ≠ t → base.timer (.inl u) = (s.base cpu).timer (.inl u))
    (hdrain : ∀ u ≠ t, u ∈ (s.base cpu).drain → u ∈ base.drain)
    (hstate : ∀ u, u ≠ t ∨ u ∈ s.completion.waiters → state u = s.state u)
    (hwaits : t ∈ s.completion.waiters → ∃ place form, pc = .wait place form)
    (hself : (({ s with state := state }.setBase cpu base).setPc t pc).TaskOk t) :
    Inv (({ s with state := state }.setBase cpu base).setPc t pc) := by
  refine hinv.task_step t (hinv.completion.calm fun u hu => .inl (hstate u (.inr hu)))
    hinv.count (fun _ => .inr) (fun h => ?_) (hinv.ticking_update hticking) hinv.clock
    (fun u hu => { Same.setBase (htimer u hu) (hdrain u hu) with
      pc := pc_setPc_of_ne _ _ hu
      state := .inl (hstate u (.inl hu)) }) hself
  rw [pc_setPc_self]
  exact hwaits h

theorem Inv.callback (htick : s.tick cpu = .call now x) :
    Inv ((s.callback x).setTick cpu (.called now x)) := by
  have hticking : Ticking (s.base cpu) (.called now x) :=
    (hinv.ticking cpu).setTick (by rw [htick]; rfl) nofun
  have hnow : ∀ now', (Tick.called now x).now = some now' → now' ≤ s.clock :=
    fun now' h => hinv.clock cpu now' (by rw [htick]; exact h)
  cases x with
  | inl t => exact (hinv.timedOut htick).setTick hticking hnow
  | inr y => exact hinv.setTick hticking hnow

section

variable (hpc : s.pc t = .drain .entering cpu ret)
  (hticking : Ticking base (s.tick cpu))
  (htimer : ∀ u : τ, u ≠ t → base.timer (.inl u) = (s.base cpu).timer (.inl u))
  (hdrain : ∀ u ≠ t, u ∈ (s.base cpu).drain → u ∈ base.drain)
include hpc hticking htimer hdrain

/-- `timer_cancel_sync` returns. -/
theorem Inv.drained (hidle : (base.timer (.inl t)).state = .idle) :
    Inv ((s.setBase cpu base).setPc t (.returned ret)) := by
  have hrun : s.state t = .runnable := (hinv.task t).running (by rw [hpc]; rfl)
  have hqueue : t ∉ s.completion.waiters := hinv.not_mem_waiters (by simp [hpc])
  have hpc' := pc_setPc_self (s.setBase cpu base) t (.returned ret)
  refine hinv.base_step t hticking htimer hdrain (fun _ _ => rfl) (fun h => absurd h hqueue)
    ⟨fun _ => hrun, fun c h => absurd ?_ h, ?_, ?_, ?_⟩
  · obtain rfl := hinv.armed_update (by simp [hpc, Pc.timerCpu]) c h
    simpa [State.setPc, State.setBase] using hidle
  -- A task that has returned is in no wait.
  · exact fun place deadline c h => nomatch hpc'.symm.trans h
  · exact fun _ place deadline c armed h => nomatch hpc'.symm.trans h
  · exact fun place c ret' h => nomatch hpc'.symm.trans h

/-- The timer is being called, and the task is about to sleep until the call has ended. -/
theorem Inv.awaitCall (hstate : ∀ u ≠ t, state u = s.state u) (hmem : t ∈ base.drain)
    (hdraining : (base.timer (.inl t)).state = .draining) :
    Inv (({ s with state := state }.setBase cpu base).setPc t (.drain .parking cpu ret)) := by
  have hqueue : t ∉ s.completion.waiters := hinv.not_mem_waiters (by simp [hpc])
  have hpc' := pc_setPc_self ({ s with state := state }.setBase cpu base) t
    (.drain .parking cpu ret)
  refine hinv.base_step t hticking htimer hdrain
    (fun u hu => hstate u (hu.elim id fun h heq => hqueue (heq ▸ h)))
    (fun h => absurd h hqueue) ⟨?_, fun c h => ?_, ?_, ?_, ?_⟩
  · rw [hpc']
    exact nofun
  · rw [hpc', hinv.armed_update (by simp [hpc, Pc.timerCpu]) c h]
    rfl
  · exact fun place deadline c h => nomatch hpc'.symm.trans h
  · exact fun _ place deadline c armed h => nomatch hpc'.symm.trans h
  · intro place c ret' h _
    obtain ⟨-, rfl, -⟩ := Pc.drain.inj (hpc'.symm.trans h)
    simpa [State.setPc, State.setBase] using And.intro hmem hdraining

end

variable [DecidableEq ι] {rb : Rebalance (τ ⊕ ι)}

theorem Inv.arm {deadline : ℕ} (hpc : s.pc t = .wait .entering (.timed deadline cpu false))
    (hstart : (s.base cpu).timerStart rb (.inl t) deadline = .ok base) :
    Inv ((s.setBase cpu base).setPc t (.wait .entering (.timed deadline cpu true))) := by
  have htask := hinv.task t
  have hrun : s.state t = .runnable := htask.running (by rw [hpc]; rfl)
  obtain ⟨-, htimer, hdrain⟩ := Base.timerStart_eq hstart
  have hself : base.timer (.inl t) = ⟨deadline, (s.base cpu).nextSequence, .queued⟩ := by
    rw [htimer, update_self]
  refine hinv.base_step t ((hinv.ticking cpu).timerStart hstart) (fun u hu => ?_)
    (fun u _ h => hdrain ▸ h) (fun _ _ => rfl) (fun _ => ⟨_, _, rfl⟩)
    ⟨fun _ => hrun, fun c hidle => ?_, ?_, ?_, ?_⟩
  · rw [htimer, update_of_ne (fun h => hu (Sum.inl.inj h))]
  · -- Before it was started the timer was idle on every base.
    rw [pc_setPc_self, hinv.armed_update (by simp [hpc, Pc.timerCpu]) c hidle]
    rfl
  · intro place d c hwait
    rw [pc_setPc_self] at hwait
    obtain ⟨-, heq⟩ := Pc.wait.inj hwait
    obtain ⟨rfl, rfl, -⟩ := Form.timed.inj heq
    simp [State.setBase, State.setPc, hself]
  · intro hexpired place d c a hwait
    rw [pc_setPc_self] at hwait
    obtain ⟨-, heq⟩ := Pc.wait.inj hwait
    obtain ⟨rfl, rfl, -⟩ := Form.timed.inj heq
    exact htask.expired hexpired _ _ _ _ hpc
  · intro place c ret hdrain
    rw [pc_setPc_self] at hdrain
    cases hdrain

/-- A round that found nothing to take. -/
theorem Inv.waitMore (hpc : s.pc t = .wait .entering form) (hdone : s.completion.done = 0)
    (ht : t ∉ s.completion.waiters) : Inv (s.waitMore rb t form) := by
  have hleave : ∀ ret, Inv (s.leave t form ret) :=
    hinv.leave hpc hinv.completion hinv.count ht fun _ => id
  cases form with
  | plain sleep =>
    rw [State.waitMore]
    split
    · exact hleave _
    · exact hinv.sleepOn hpc hdone nofun
  | timed deadline cpu armed =>
    rw [State.waitMore]
    split
    · exact hleave _
    next hclock =>
      have hlt : s.clock < deadline := not_le.mp hclock
      split
      · refine hinv.sleepOn hpc hdone fun d c a heq => ?_
        obtain ⟨rfl, -, -⟩ := Form.timed.inj heq
        exact hlt
      next harmed =>
        obtain rfl : armed = false := Bool.eq_false_of_not_eq_true harmed
        split
        · exact hleave _
        next base hstart =>
          -- The timer is started first; then the task registers as one whose timer runs.
          have hsleep := (hinv.arm hpc hstart).sleepOn (pc_setPc_self _ _ _) hdone
            fun d c a heq => (Form.timed.inj heq).1 ▸ hlt
          simpa only [State.sleepOn, State.setPc, update_idem] using hsleep

omit hinv in
theorem Inv.waitRound [Fintype τ] (hcard : Fintype.card τ ≤ uint32Max) (hinv : Inv s)
    (hpc : s.pc t = .wait .entering form) : Inv (s.waitRound rb t form) := by
  have hrun : s.state t = .runnable := (hinv.task t).running (by rw [hpc]; rfl)
  have hawake : ¬ Asleep (s.state t) := hrun ▸ not_asleep_runnable
  have hnot : t ∉ s.completion.waiters.erase t := hinv.completion.nodup.not_mem_erase
  unfold State.waitRound
  simp only [finishWait_of_not_asleep hawake]
  split
  next c htake =>
    obtain ⟨-, hwaiters, hdone⟩ := Completion.take_eq_some htake
    have hmem : ∀ u ∈ c.waiters, u ∈ s.completion.waiters.erase t := fun u hu => by
      rwa [hwaiters] at hu
    refine hinv.leave hpc (hinv.completion.leaveTake hcard hrun htake) (fun hmax => ?_)
      (fun h => hnot (hmem t h)) (fun u hu => List.mem_of_mem_erase (hmem u hu)) _
    simp only at hdone
    rcases hdone with ⟨hmax', heq⟩ | ⟨hne, hsucc⟩
    · exact absurd (heq.trans hmax') hmax
    · have hcount := hinv.count hne
      omega
  next htake =>
    have hdone := Completion.take_eq_none htake
    exact (hinv.dequeue hdone t).waitMore hpc hdone hnot

theorem Inv.drainRound (hpc : s.pc t = .drain .entering cpu ret) :
    Inv (s.drainRound rb t cpu ret) := by
  have hrun : s.state t = .runnable := (hinv.task t).running (by rw [hpc]; rfl)
  have hawake : ¬ Asleep (s.state t) := hrun ▸ not_asleep_runnable
  unfold State.drainRound Base.cancelRound
  simp only [finishWait_of_not_asleep hawake]
  generalize hb : ({ s.base cpu with drain := (s.base cpu).drain.erase t } : Base _ _) = b
  have hold : Ticking b (s.tick cpu) := hb ▸ (hinv.ticking cpu).setDrain _
  have hbtimer : b.timer = (s.base cpu).timer := hb ▸ rfl
  have hbdrain : b.drain = (s.base cpu).drain.erase t := hb ▸ rfl
  cases hcancel : b.timerCancel rb (.inl t) with
  | mk base cancelled =>
    have hticking := hold.timerCancel hcancel
    obtain ⟨hother, hsame⟩ := Base.timerCancel_other hcancel
    have htimer : ∀ u : τ, u ≠ t → base.timer (.inl u) = (s.base cpu).timer (.inl u) :=
      fun u hu => (hother _ fun h => hu (Sum.inl.inj h)).trans (congrFun hbtimer _)
    have hdrain : ∀ u ≠ t, u ∈ (s.base cpu).drain → u ∈ base.drain := fun u hu h => by
      rw [hsame, hbdrain]
      exact (List.mem_erase_of_ne hu).mpr h
    rcases Base.timerCancel_eq rb b (.inl t) with ⟨-, heq⟩ | ⟨-, heq⟩ | ⟨hidle, heq⟩ <;>
      obtain ⟨hbase, rfl⟩ := Prod.mk.inj (hcancel.symm.trans heq)
    · refine hinv.drained hpc hticking htimer hdrain ?_
      rw [hbase, Base.timer_setState_self]
    · have hmem : ∀ u, u ∈ (prepareToWait base.drain s.state t .uninterruptible).1 ↔
          u = t ∨ u ∈ base.drain := fun _ => mem_prepareToWait
      refine hinv.awaitCall hpc (hticking.setDrain _) htimer
        (fun u hu h => (hmem u).mpr (.inr (hdrain u hu h)))
        (fun u hu => update_of_ne hu _ _) ((hmem t).mpr (.inl rfl)) ?_
      change (base.timer _).state = _
      rw [hbase, Base.timer_setState_self]
    · refine hinv.drained hpc hticking htimer hdrain ?_
      rwa [hbase]

/-! ### The ticks -/

/-- The tick takes a timer or lets it go. Whoever waits for the end of the call is awake then,
or the call has not ended. -/
theorem Inv.moveTimer {timerState : TimerState}
    (hticking : Ticking base tick) (hnow : ∀ now, tick.now = some now → now ≤ s.clock)
    (htimer : base.timer = ((s.base cpu).setState x timerState).timer)
    (hdrain : base.drain = (s.base cpu).drain)
    (hidle : timerState ≠ .idle → ((s.base cpu).timer x).state ≠ .idle)
    (hstate : ∀ u, state u = s.state u ∨ state u = .runnable)
    (hawake : ((s.base cpu).timer x).state = .draining →
      ∀ u ∈ (s.base cpu).drain, ¬ Asleep (state u)) :
    Inv (({ s with state := state }.setBase cpu base).setTick cpu tick) := by
  generalize hs' : ({ s with state := state }.setBase cpu base).setTick cpu tick = s'
  have hpc : s'.pc = s.pc := hs' ▸ rfl
  have hbase : s'.base cpu = base := by rw [← hs']; exact update_self _ _ _
  have hbase' : ∀ c ≠ cpu, s'.base c = s.base c := fun c hc => by
    rw [← hs']; exact update_of_ne hc _ _
  have hstate' : s'.state = state := hs' ▸ rfl
  have hdrain' : ∀ c, (s'.base c).drain = (s.base c).drain := fun c => by
    by_cases hc : c = cpu
    · rw [hc, hbase, hdrain]
    · rw [hbase' c hc]
  have htimer' : ∀ c y, c ≠ cpu ∨ y ≠ x → (s'.base c).timer y = (s.base c).timer y := by
    intro c y hne
    by_cases hc : c = cpu
    · rw [hc, hbase, htimer, Base.timer_setState_of_ne _ _ (hne.resolve_left (not_not.mpr hc))]
    · rw [hbase' c hc]
  have hother : ∀ u : τ, .inl u ≠ x → Same s s' u := fun u hu =>
    ⟨congrFun hpc u, hs' ▸ rfl, hstate' ▸ hstate u, fun c => htimer' c _ (.inr hu),
      fun c h => hdrain' c ▸ h, hs' ▸ le_rfl⟩
  have hall : ∀ u, s'.TaskOk u := fun u => by
    by_cases hu : .inl u = x
    · -- The timer is the one of this task.
      have htask := hinv.task u
      have hself : (s'.base cpu).timer (.inl u) =
          { (s.base cpu).timer (.inl u) with state := timerState } := by
        rw [hbase, htimer, hu, Base.timer_setState_self]
      refine ⟨fun h => ?_, fun c h => ?_, fun place deadline c h => ?_, ?_, ?_⟩
      · rw [hpc] at h
        rw [hstate']
        exact (hstate u).elim (·.trans (htask.running h)) id
      · rw [hpc]
        by_cases hc : c = cpu
        · rw [hc, hself] at h
          exact htask.armed c (hc ▸ hu ▸ hidle h)
        · exact htask.armed c (htimer' c _ (.inl hc) ▸ h)
      · rw [hpc] at h
        by_cases hc : c = cpu
        · rw [hc, hself]
          exact htask.deadline place deadline cpu (hc ▸ h)
        · rw [htimer' c _ (.inl hc)]
          exact htask.deadline place deadline c h
      · intro hexpired place deadline c armed h
        rw [hpc] at h
        have hold : s.expired u = true := by rwa [← hs'] at hexpired
        obtain ⟨hle, hsleep⟩ := htask.expired hold place deadline c armed h
        rw [hstate']
        exact ⟨hs' ▸ hle, fun h => hsleep (asleep_of_or (hstate u) h)⟩
      · intro place c ret h hsleep
        rw [hpc] at h
        rw [hstate'] at hsleep
        obtain ⟨hmem, hdraining⟩ := htask.drain place c ret h (asleep_of_or (hstate u) hsleep)
        by_cases hc : c = cpu
        · exact absurd hsleep (hawake (hu ▸ hc ▸ hdraining) u (hc ▸ hmem))
        · rw [htimer' c _ (.inl hc), hdrain']
          exact ⟨hmem, hdraining⟩
    · exact (hinv.task u).same (hother u hu)
  subst hs'
  refine ⟨hinv.completion.calm fun u _ => hstate u, hinv.count, hinv.waits, fun c => ?_,
    hinv.clock_update hnow, hall⟩
  by_cases hc : c = cpu
  · subst hc
    simpa [State.setTick, State.setBase] using hticking
  · simpa [State.setTick, State.setBase, update_of_ne hc] using hinv.ticking c

theorem Inv.tickStep (hstep : s.tickStep rb cpu = some s') : Inv s' := by
  have hticking := hinv.ticking cpu
  have hclock := hinv.clock cpu
  unfold State.tickStep at hstep
  cases htick : s.tick cpu with
  | idle =>
    rw [htick] at hstep
    cases hstep
  | scan now =>
    have hnone : (s.tick cpu).timer = none := by rw [htick]; rfl
    simp only [htick] at hstep
    split at hstep
    · cases hstep
      exact hinv.setTick (hticking.setTick hnone.symm nofun) nofun
    next x base htake =>
      cases hstep
      obtain ⟨hticking', hleast, -, rfl⟩ := hticking.takeExpired hnone htake
      refine hinv.moveTimer hticking' (fun now' h => hclock now' (by rw [htick]; exact h)) rfl rfl
        (fun _ => ?_) (fun _ => .inl rfl) fun h => ?_
      · rw [hleast.1]
        exact nofun
      · rw [hleast.1] at h
        cases h
  | call now x =>
    rw [htick] at hstep
    cases hstep
    exact hinv.callback htick
  | called now x =>
    simp only [htick, Option.some.injEq] at hstep
    obtain rfl := hstep
    refine hinv.moveTimer (htick ▸ hticking).endCall
      (fun now' h => hclock now' (by rw [htick]; exact h)) rfl rfl (fun h => absurd rfl h)
      (fun u => ?_) fun hdraining u hu => ?_
    · dsimp only [Base.endCall]
      split
      · exact wakeUpAll_or _ _ _
      · exact .inl rfl
    · -- The end of the call wakes everybody in the queue.
      simp only [Base.endCall, hdraining, if_true, wakeUpAll_apply]
      split
      · exact not_asleep_runnable
      next hnot =>
        exact fun hasleep => hnot ⟨hu, hasleep⟩

end

/-! ### Every step -/

variable [DecidableEq κ] [DecidableEq ι] [DecidableEq τ] {rb : Rebalance (τ ⊕ ι)} {a : Action κ ι τ}

theorem Inv.step [Fintype τ] (hcard : Fintype.card τ ≤ uint32Max) (hinv : Inv s)
    (hstep : step rb s a = some s') : Inv s' := by
  cases a with
  | complete =>
    cases hstep
    refine hinv.wake (hinv.completion.complete hcard) (fun hmax => ?_) rfl fun u => ?_
    · by_cases hdone : s.completion.done = uint32Max
      · simp [hdone] at hmax
      · have hcount := hinv.count hdone
        simp only [ne_eq, hdone, not_false_eq_true, if_true]
        omega
    · rcases wakeUpOne_spec s.completion.waiters s.state with ⟨-, heq⟩ | ⟨w, -, -, heq⟩
      · exact .inl (congrFun heq u)
      · rw [heq]
        by_cases hu : u = w
        · exact .inr (by rw [hu, update_self])
        · exact .inl (update_of_ne hu _ _)
  | completeAll =>
    cases hstep
    exact hinv.wake hinv.completion.completeAll (fun h => absurd rfl h) rfl (wakeUpAll_or _ _)
  | tryWait =>
    simp only [Completions.step] at hstep
    split at hstep
    · cases hstep
      exact hinv
    next c htake =>
      cases hstep
      obtain ⟨-, hwaiters, hdone⟩ := Completion.take_eq_some htake
      refine hinv.wake (hinv.completion.take htake) (fun hmax => ?_) hwaiters fun _ => .inl rfl
      rcases hdone with ⟨hmax', heq⟩ | ⟨hne, hsucc⟩
      · exact absurd (heq.trans hmax') hmax
      · have hcount := hinv.count hne
        omega
  | wait t mode =>
    obtain ⟨⟨hplace, hrun⟩, rfl⟩ := ite_eq_some.mp hstep
    have henter : Inv ({ s with expired := update s.expired t (s.expired t) }.setPc t
      (.wait .entering (.plain mode.sleep))) := hinv.enter hplace hrun nofun nofun
    rwa [update_eq_self] at henter
  | waitUntil t deadline cpu =>
    obtain ⟨⟨hplace, hrun⟩, rfl⟩ := ite_eq_some.mp hstep
    have hidle : ((s.base cpu).timer (.inl t)).state = .idle :=
      hinv.timer_idle (by rw [(outside_of_place hplace).2.2]; exact nofun)
    have henter : Inv ({ s with expired := update s.expired t false }.setPc t
      (.wait .entering (.timed deadline cpu false))) :=
      hinv.enter hplace hrun nofun fun _ _ _ _ => rfl
    rwa [Base.setState_eq_self hidle, State.setBase, update_eq_self]
  | round t =>
    simp only [Completions.step] at hstep
    split at hstep
    next form hpc =>
      cases hstep
      exact hinv.waitRound hcard hpc
    next cpu ret hpc =>
      cases hstep
      exact hinv.drainRound hpc
    · cases hstep
  | park t =>
    obtain ⟨-, rfl⟩ := ite_eq_some.mp hstep
    exact hinv.park t
  | resume t =>
    obtain ⟨⟨-, hrun⟩, rfl⟩ := ite_eq_some.mp hstep
    exact hinv.resume hrun
  | signal t sigpending kill =>
    cases hstep
    exact hinv.same hinv.completion hinv.count (fun _ => id) hinv.ticking hinv.clock
      fun u => { Same.refl s u with }
  | wake t states =>
    cases hstep
    have hstate := fun u => (wakeTask_or s.state t states u).imp_right And.right
    exact hinv.wake (hinv.completion.calm fun u _ => hstate u) hinv.count rfl hstate
  | elsewhere t state =>
    obtain ⟨hplace, rfl⟩ := ite_eq_some.mp hstep
    exact hinv.elsewhere hplace state
  | advance ticks =>
    cases hstep
    exact hinv.same hinv.completion hinv.count (fun _ => id) hinv.ticking
      (fun cpu now h => (hinv.clock cpu now h).trans (Nat.le_add_right _ _))
      fun u => { Same.refl s u with clock := Nat.le_add_right _ _ }
  | interrupt cpu =>
    simp only [Completions.step] at hstep
    split at hstep
    next htick =>
      cases hstep
      refine hinv.setTick ((hinv.ticking cpu).setTick (by rw [htick]; rfl) nofun) fun now h => ?_
      exact (Option.some.inj h).ge
    · cases hstep
  | tick cpu => exact hinv.tickStep hstep
  | start cpu x deadline =>
    simp only [Completions.step] at hstep
    split at hstep
    · cases hstep
      exact hinv
    next base hstart =>
      cases hstep
      obtain ⟨-, htimer, hdrain⟩ := Base.timerStart_eq hstart
      refine hinv.setBase ((hinv.ticking cpu).timerStart hstart) (fun t => ?_) hdrain
      rw [htimer, update_of_ne Sum.inl_ne_inr]
  | cancel cpu x =>
    cases hstep
    have hcancel : (s.base cpu).timerCancel rb (.inr x) = _ := rfl
    obtain ⟨hother, hdrain⟩ := Base.timerCancel_other hcancel
    exact hinv.setBase ((hinv.ticking cpu).timerCancel hcancel) (fun t => hother _ nofun) hdrain

/-! ### What a wait returns -/

/-- A round that returns `-ETIMEDOUT` has found nothing to take and the deadline passed. -/
theorem waitRound_etimedout (h : ((s.waitRound rb t form).pc t).ret = some (.error .etimedout)) :
    s.completion.done = 0 ∧ ∃ deadline cpu armed, form = .timed deadline cpu armed ∧
      deadline ≤ s.clock := by
  unfold State.waitRound at h
  dsimp only at h
  split at h
  · rw [ret_leave] at h
    cases h
  next htake =>
    have hdone := Completion.take_eq_none htake
    refine ⟨hdone, ?_⟩
    cases form with
    | plain sleep =>
      rw [State.waitMore] at h
      split at h <;> simp [ret_leave, ret_sleepOn] at h
    | timed deadline cpu armed =>
      rw [State.waitMore] at h
      split at h
      next hclock => exact ⟨deadline, cpu, armed, rfl, hclock⟩
      split at h
      · simp [ret_sleepOn] at h
      split at h
      next hstart =>
        -- `timer_start` fails with another error.
        rw [ret_leave, Base.timerStart_error hstart] at h
        cases h
      · simp [ret_sleepOn] at h

/-- A round is about the task that runs it. -/
theorem pc_waitRound_of_ne (hu : u ≠ t) : (s.waitRound rb t form).pc u = s.pc u := by
  unfold State.waitRound
  cases form <;> dsimp only [State.waitMore] <;> repeat' split
  all_goals exact pc_setPc_of_ne _ _ hu

theorem pc_of_tickStep (hstep : s.tickStep rb cpu = some s') : s'.pc = s.pc := by
  unfold State.tickStep at hstep
  split at hstep
  · cases hstep
  · split at hstep <;> cases hstep <;> rfl
  next x _ =>
    cases hstep
    exact pc_callback x
  · cases hstep
    rfl

/-- What a task is going to return is decided in a round of its waiting form. -/
theorem ret_of_step (hstep : step rb s a = some s') (t : τ) :
    ((s'.pc t).ret = (s.pc t).ret ∨ (s'.pc t).ret = none) ∨
      ∃ form, s.pc t = .wait .entering form ∧ s' = s.waitRound rb t form := by
  cases a with
  | complete | completeAll | signal u sigpending kill | wake u states | advance ticks
  | cancel cpu x =>
    cases hstep
    exact .inl (.inl rfl)
  | tryWait | start cpu x deadline =>
    simp only [Completions.step] at hstep
    split at hstep <;> cases hstep <;> exact .inl (.inl rfl)
  | wait u mode | waitUntil u deadline cpu =>
    obtain ⟨-, rfl⟩ := ite_eq_some.mp hstep
    exact .inl (ret_setPc rfl (.inr rfl) t)
  | round u =>
    simp only [Completions.step] at hstep
    split at hstep
    next form hpc =>
      cases hstep
      by_cases htu : t = u
      · subst htu
        exact .inr ⟨form, hpc, rfl⟩
      · exact .inl (.inl (by rw [pc_waitRound_of_ne htu]))
    next cpu ret hpc =>
      cases hstep
      have hret : (s.pc u).ret = some ret := by rw [hpc]; rfl
      unfold State.drainRound
      dsimp only
      split
      · refine .inl (ret_setPc rfl (.inl ?_) t)
        exact hret.symm
      · refine .inl (ret_setPc rfl (.inl ?_) t)
        exact hret.symm
    · cases hstep
  | park u | resume u =>
    obtain ⟨-, rfl⟩ := ite_eq_some.mp hstep
    exact .inl (ret_setPc rfl (.inl (ret_setPlace _ _)) t)
  | elsewhere u state =>
    obtain ⟨-, rfl⟩ := ite_eq_some.mp hstep
    exact .inl (.inl rfl)
  | interrupt cpu =>
    simp only [Completions.step] at hstep
    split at hstep
    · cases hstep
      exact .inl (.inl rfl)
    · cases hstep
  | tick cpu => exact .inl (.inl (by rw [pc_of_tickStep hstep]))

/-! ### What users rely on -/

/-- What users of completions rely on, in a state and in the step after it. -/
structure CompletionOk (rb : Rebalance (τ ⊕ ι)) (s : State κ ι τ) : Prop where
  /-- As long as the count has not reached its greatest value, nothing is lost. -/
  count : s.completion.done ≠ uint32Max → s.taken + s.completion.done = s.completes
  /-- There is no lost wake-up. -/
  wakeup : ¬ (0 < s.completion.done ∧ (∃ t ∈ s.completion.waiters, Asleep (s.state t)) ∧
    ∀ t ∈ s.completion.waiters, s.state t ≠ .runnable)
  /-- A wait times out in a round that finds nothing to take after its deadline. -/
  timedOut : ∀ a s' t, step rb s a = some s' → (s'.pc t).ret = some (.error .etimedout) →
    (s.pc t).ret = some (.error .etimedout) ∨
      s.completion.done = 0 ∧ ∃ deadline cpu armed,
        s.pc t = .wait .entering (.timed deadline cpu armed) ∧ deadline ≤ s.clock
  /-- After its timer has been called a task does not sleep in the queue, and if it sleeps to
  wait for the end of the call then the call has not ended. -/
  awake : ∀ t, s.expired t = true → Asleep (s.state t) →
    (∀ place deadline cpu armed, s.pc t ≠ .wait place (.timed deadline cpu armed)) ∧
      ∀ place cpu ret, s.pc t = .drain place cpu ret → (s.tick cpu).timer = some (.inl t)
  /-- A task that has returned has no timer that is queued or being called. -/
  drained : ∀ t ret cpu, s.pc t = .returned ret →
    .inl t ∉ (s.base cpu).tree.toList ∧ (s.tick cpu).timer ≠ some (.inl t)

theorem Inv.completionOk (hinv : Inv s) : CompletionOk rb s where
  count := hinv.count
  wakeup := by
    rintro ⟨hpos, hasleep, hnone⟩
    have htokens := hinv.completion.tokens hasleep
    have hzero : Completion.awake s.completion.waiters s.state = 0 := by
      refine List.countP_eq_zero.mpr fun t ht => ?_
      simpa using hnone t ht
    omega
  timedOut a s' t hstep hret := by
    rcases ret_of_step hstep t with (heq | hnone) | ⟨form, hpc, rfl⟩
    · exact .inl (heq ▸ hret)
    · rw [hnone] at hret
      cases hret
    · obtain ⟨hdone, deadline, cpu, armed, rfl, hclock⟩ := waitRound_etimedout hret
      exact .inr ⟨hdone, deadline, cpu, armed, hpc, hclock⟩
  awake t hexpired hasleep := by
    refine ⟨fun place deadline cpu armed hpc => ?_, fun place cpu ret hpc => ?_⟩
    · exact ((hinv.task t).expired hexpired place deadline cpu armed hpc).2 hasleep
    · obtain ⟨-, hdraining⟩ := (hinv.task t).drain place cpu ret hpc hasleep
      refine ((hinv.ticking cpu).executing _).mp ?_
      rw [hdraining]
      exact trivial
  drained t ret cpu hpc := by
    have hidle : ((s.base cpu).timer (.inl t)).state = .idle :=
      hinv.timer_idle (by rw [hpc]; exact nofun)
    refine ⟨?_, (hinv.ticking cpu).timer_ne_of_state (by rw [hidle]; exact id)⟩
    rw [(hinv.ticking cpu).ok.mem_iff, hidle]
    exact nofun

/-- **Completions.** For any CPUs, timers and interleavings, and for any number of tasks that
the count can hold. Tasks have different process numbers below `PID_MAX`, which is far less. -/
theorem completionOk_of_reachable [Fintype τ] (hcard : Fintype.card τ ≤ uint32Max)
    (hs : Reachable (· = boot) (Graph (step rb)) s) : CompletionOk rb s := by
  have hinv : Inv s :=
    hs.invariant (fun _ h => h ▸ inv_boot) fun _ _ _ hinv hstep => hinv.step hcard hstep
  exact hinv.completionOk

example : PidTable.pidMax ≤ uint32Max := by decide

/-- Task `0` waits with a deadline and task `1` killably. What is completed is taken by task
`0` while the tick has its timer out, so task `0` waits for the end of the call; task `1` is
killed. Task `2` comes after its deadline, and then there is nothing to take. -/
def raceRun : List (Action ℕ ℕ (Fin 3)) :=
  [.waitUntil 0 5 0, .round 0, .park 0, .wait 1 .killable, .round 1, .park 1, .complete,
    .advance 7, .interrupt 0, .tick 0, .resume 0, .round 0, .round 0, .park 0, .tick 0, .tick 0,
    .resume 0, .round 0, .signal 1 true true, .wake 1 (wakeSignalStates true), .resume 1,
    .round 1, .waitUntil 2 3 1, .round 2, .complete]

/-- One call is taken and one is left; the three waits have returned. -/
theorem completionOk_raceRun : ∃ s : State ℕ ℕ (Fin 3),
    Reachable (· = boot) (Graph (step Rebalance.plain)) s ∧ CompletionOk Rebalance.plain s ∧
      s.pc 0 = .returned (.ok ()) ∧ s.pc 1 = .returned (.error .erestartsys) ∧
      s.pc 2 = .returned (.error .etimedout) ∧ s.taken = 1 ∧ s.completion.done = 1 ∧
      s.completes = 2 :=
  exists_of_exec raceRun rfl (fun _ hs => completionOk_of_reachable (by simp [uint32Max]) hs)
    (by decide +kernel)

end Nuvix.Completions
