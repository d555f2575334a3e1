import Nuvix.Kernel.Wait
import Nuvix.Lib.Transition

/-!
# Mutexes: `kernel/mutex.c`

A mutex has an owner and a queue of waiters. `mutex_unlock` wakes the first waiter that is
asleep and does not hand the mutex to it: whoever comes first takes it, and a waiter that finds
it taken goes to the end of the queue. A waiter leaves the queue only in its own section, where
it takes the mutex if it can, and looks at its signals only if it cannot. That is why a free
mutex whose waiters sleep always has a waiter that does not.

Any number of tasks call the functions. Between calls a task may sleep elsewhere, and signals
and other wake-ups come at any time.
-/

namespace Nuvix.Mutex

open Sched Wait Transition Function

variable {τ : Type*} [DecidableEq τ]

/-- Where a task is: outside, before a round of `mutex_lock_state`, registered and before the
switch, switched out, after a lock that succeeded, and after one that returned `-EINTR`. -/
inductive Pc
  | outside
  | entering (sleep : TaskState)
  | parking (sleep : TaskState)
  | parked (sleep : TaskState)
  | owning
  | interrupted
  deriving DecidableEq

/-- A task that is in `mutex_lock_state`. -/
def Pc.waits : Pc → Prop
  | entering _ | parking _ | parked _ => True
  | _ => False

/-- `struct mutex`, the states of the tasks, `TF_SIGPENDING` and whether `SIGKILL` is pending. -/
structure State (τ : Type*) where
  owner : Option τ
  waiters : List τ
  state : τ → TaskState
  sigpending : τ → Bool
  kill : τ → Bool
  pc : τ → Pc

/-- What tasks, signals and other wake-ups do. -/
inductive Action (τ : Type*)
  /-- A task calls `mutex_lock` or `mutex_lock_interruptible`. -/
  | lock (t : τ) (interruptible : Bool)
  | round (t : τ)
  | park (t : τ)
  | resume (t : τ)
  | trylock (t : τ)
  | unlock (t : τ)
  /-- The signals of a task change. -/
  | signal (t : τ) (sigpending kill : Bool)
  | wake (t : τ) (states : BitVec 32)
  /-- A task outside goes to sleep elsewhere, or the like. -/
  | elsewhere (t : τ) (state : TaskState)

namespace State

def setPc (s : State τ) (t : τ) (pc : Pc) : State τ := { s with pc := update s.pc t pc }

/-- One round of the loop of `mutex_lock_state`, up to the unlock. -/
def lockSection (s : State τ) (t : τ) (sleep : TaskState) : State τ :=
  let (waiters, state) := finishWait s.waiters s.state t
  match s.owner with
  | none => { s with owner := some t, waiters := waiters, state := state }.setPc t .owning
  | some _ =>
    if signalPendingState sleep (s.sigpending t) (s.kill t) then
      { s with waiters := waiters, state := state }.setPc t .interrupted
    else
      let (waiters, state) := prepareToWait waiters state t sleep
      { s with waiters := waiters, state := state }.setPc t (.parking sleep)

/-- `mutex_trylock`. -/
def trylock (s : State τ) (t : τ) : State τ :=
  match s.owner with
  | none => { s with owner := some t }.setPc t .owning
  | some _ => s.setPc t .outside

/-- `mutex_unlock`. -/
def unlock (s : State τ) (t : τ) : State τ :=
  { s with owner := none, state := wakeUpOne s.waiters s.state }.setPc t .outside

/-- The switch in `sched_park`. -/
def park (s : State τ) (t : τ) (sleep : TaskState) : State τ :=
  let next := (s.state t).parked (s.sigpending t) (s.kill t)
  { s with state := update s.state t next }.setPc t
    (if next = TaskState.runnable then .entering sleep else .parked sleep)

end State

/-- One step. A task runs only while it is runnable, and in the places where it is. -/
def step (s : State τ) : Action τ → Option (State τ)
  | .lock t interruptible =>
    if (s.pc t = .outside ∨ s.pc t = .interrupted) ∧ s.state t = .runnable then
      some (s.setPc t (.entering (if interruptible then .interruptible else .uninterruptible)))
    else none
  | .round t =>
    match s.pc t with
    | .entering sleep => some (s.lockSection t sleep)
    | _ => none
  | .park t =>
    match s.pc t with
    | .parking sleep => some (s.park t sleep)
    | _ => none
  | .resume t =>
    match s.pc t with
    | .parked sleep => if s.state t = .runnable then some (s.setPc t (.entering sleep)) else none
    | _ => none
  | .trylock t =>
    if (s.pc t = .outside ∨ s.pc t = .interrupted) ∧ s.state t = .runnable then some (s.trylock t)
    else none
  | .unlock t => if s.pc t = .owning ∧ s.state t = .runnable then some (s.unlock t) else none
  | .signal t sigpending kill => some { s with
      sigpending := update s.sigpending t sigpending
      kill := update s.kill t kill }
  | .wake t states => some { s with state := (wakeTask s.state t states).1 }
  | .elsewhere t state =>
    if s.pc t = .outside ∨ s.pc t = .owning ∨ s.pc t = .interrupted then
      some { s with state := update s.state t state }
    else none

/-- `mutex_init`. -/
def boot : State τ where
  owner := none
  waiters := []
  state _ := .runnable
  sigpending _ := false
  kill _ := false
  pc _ := .outside

/-! ### The invariant -/

/-- The invariant: who owns the mutex, where the waiters are, and that a free mutex has a
waiter that is awake if it has one that sleeps. -/
structure Inv (s : State τ) : Prop where
  owner : ∀ t, s.owner = some t ↔ s.pc t = .owning
  nodup : s.waiters.Nodup
  waits : ∀ t ∈ s.waiters, (s.pc t).waits
  wakeup : s.owner = none → (∃ t ∈ s.waiters, Asleep (s.state t)) →
    ∃ t ∈ s.waiters, s.state t = .runnable

variable {s s' : State τ} {t : τ} {state : τ → TaskState} {sleep : TaskState}

theorem pc_setPc_self (s : State τ) (t : τ) (pc : Pc) : (s.setPc t pc).pc t = pc :=
  update_self _ _ _

theorem pc_setPc_of_ne (s : State τ) {t u : τ} (pc : Pc) (hu : u ≠ t) :
    (s.setPc t pc).pc u = s.pc u :=
  update_of_ne hu _ _

section

variable (hinv : Inv s)
include hinv

omit [DecidableEq τ] in
/-- Waiters that are awake stay awake, and sleepers may wake. -/
theorem Inv.calm (hstate : ∀ u ∈ s.waiters, state u = s.state u ∨ state u = .runnable) :
    (∃ u ∈ s.waiters, Asleep (state u)) → s.owner = none →
      ∃ u ∈ s.waiters, state u = .runnable := by
  rintro ⟨u, hu, hasleep⟩ hfree
  have hold : Asleep (s.state u) := by
    rcases hstate u hu with heq | hrun
    · rwa [heq] at hasleep
    · rw [hrun] at hasleep
      exact absurd hasleep not_asleep_runnable
  obtain ⟨w, hw, hrun⟩ := hinv.wakeup hfree ⟨u, hu, hold⟩
  exact ⟨w, hw, (hstate w hw).elim (·.trans hrun) id⟩

/-- A task moves within `mutex_lock_state`, or outside it. -/
theorem Inv.setPc {pc : Pc} (hpc : s.pc t ≠ .owning) (hpc' : pc ≠ .owning)
    (hwaits : t ∈ s.waiters → pc.waits) : Inv (s.setPc t pc) where
  owner u := by
    by_cases hu : u = t
    · subst hu
      rw [pc_setPc_self]
      exact ⟨fun h => absurd ((hinv.owner u).mp h) hpc, fun h => absurd h hpc'⟩
    · rw [pc_setPc_of_ne _ _ hu]
      exact hinv.owner u
  nodup := hinv.nodup
  waits u hu := by
    by_cases hut : u = t
    · subst hut
      rw [pc_setPc_self]
      exact hwaits hu
    · rw [pc_setPc_of_ne _ _ hut]
      exact hinv.waits u hu
  wakeup := hinv.wakeup

omit [DecidableEq τ] in
/-- Another state of the tasks in which no waiter has fallen asleep. -/
theorem Inv.setState (hstate : ∀ u ∈ s.waiters, state u = s.state u ∨ state u = .runnable) :
    Inv { s with state := state } :=
  ⟨hinv.owner, hinv.nodup, hinv.waits, fun hfree hasleep => hinv.calm hstate hasleep hfree⟩

/-- A task takes the mutex, and is not in the queue then. -/
theorem Inv.own (hfree : s.owner = none) (state : τ → TaskState) :
    Inv ({ s with owner := some t, waiters := s.waiters.erase t, state := state }.setPc t
      .owning) where
  owner u := by
    by_cases hu : u = t
    · subst hu
      rw [pc_setPc_self]
      exact ⟨fun _ => rfl, fun _ => rfl⟩
    · rw [pc_setPc_of_ne _ _ hu]
      refine ⟨fun h => absurd (Option.some.inj h).symm hu, fun h => ?_⟩
      rw [(hinv.owner u).mpr h] at hfree
      cases hfree
  nodup := hinv.nodup.erase t
  waits u hu := by
    have hut : u ≠ t := fun heq => hinv.nodup.not_mem_erase (heq ▸ hu)
    rw [pc_setPc_of_ne _ _ hut]
    exact hinv.waits u (List.mem_of_mem_erase hu)
  wakeup := nofun

/-- One round of the loop of `mutex_lock_state`. -/
theorem Inv.lockSection (hpc : s.pc t = .entering sleep) : Inv (s.lockSection t sleep) := by
  have hfst := finishWait_fst s.waiters s.state t
  unfold State.lockSection
  cases howner : s.owner with
  | none =>
    simp only [hfst]
    exact hinv.own howner _
  | some o =>
    have hpc' : s.pc t ≠ .owning := by simp [hpc]
    -- Nobody sees the queue or the states of its tasks while the mutex is owned.
    have hleave : ∀ waiters state, waiters.Nodup → (∀ u ∈ waiters, (s.pc u).waits) →
        Inv { s with owner := some o, waiters := waiters, state := state } :=
      fun waiters state hnodup hwaits => ⟨howner ▸ hinv.owner, hnodup, hwaits, nofun⟩
    have hnodup := hinv.nodup.erase t
    have hnot : t ∉ s.waiters.erase t := hinv.nodup.not_mem_erase
    have herase : ∀ u ∈ s.waiters.erase t, (s.pc u).waits :=
      fun u hu => hinv.waits u (List.mem_of_mem_erase hu)
    simp only [hfst]
    split
    · have hinv' := hleave _ (finishWait s.waiters s.state t).2 hnodup herase
      exact hinv'.setPc hpc' nofun fun hmem => absurd hmem hnot
    · simp only [prepareToWait, if_neg hnot]
      refine Inv.setPc (hleave _ _ ?_ fun u hu => ?_) hpc' nofun fun _ => trivial
      · refine List.nodup_append.mpr ⟨hnodup, List.nodup_singleton _, ?_⟩
        rintro u hu w hw rfl
        rw [List.mem_singleton.mp hw] at hu
        exact hnot hu
      · rcases List.mem_append.mp hu with hu | hu
        · exact herase u hu
        · rw [List.mem_singleton.mp hu, hpc]
          exact trivial

theorem Inv.park (hpc : s.pc t = .parking sleep) : Inv (s.park t sleep) := by
  unfold State.park
  refine (hinv.setState fun u _ => ?_).setPc (by simp [hpc]) ?_ ?_
  · by_cases hu : u = t
    · rw [hu, update_self]
      exact TaskState.parked_or _ _ _
    · exact .inl (update_of_ne hu _ _)
  · split <;> exact nofun
  · intro _
    split <;> exact trivial

/-- The owner gives the mutex up and wakes the first sleeper. -/
theorem Inv.unlock (hpc : s.pc t = .owning) : Inv (s.unlock t) where
  owner u := by
    refine ⟨nofun, fun h => ?_⟩
    have howner := (hinv.owner t).mpr hpc
    by_cases hu : u = t
    · rw [State.unlock, hu, pc_setPc_self] at h
      cases h
    · rw [State.unlock, pc_setPc_of_ne _ _ hu] at h
      rw [(hinv.owner u).mpr h] at howner
      exact absurd (Option.some.inj howner) hu
  nodup := hinv.nodup
  waits u hu := by
    have hwaits := hinv.waits u hu
    have hut : u ≠ t := by
      rintro rfl
      rwa [hpc] at hwaits
    rw [State.unlock, pc_setPc_of_ne _ _ hut]
    exact hwaits
  wakeup := by
    rintro - ⟨u, hu, hasleep⟩
    rcases wakeUpOne_spec s.waiters s.state with ⟨hnone, heq⟩ | ⟨w, hw, -, heq⟩
    · -- Nobody was asleep, so nobody is.
      change Asleep (wakeUpOne s.waiters s.state u) at hasleep
      rw [heq] at hasleep
      exact absurd hasleep (hnone u hu)
    · refine ⟨w, hw, ?_⟩
      change wakeUpOne s.waiters s.state w = .runnable
      rw [heq, update_self]

theorem Inv.trylock (hpc : s.pc t = .outside ∨ s.pc t = .interrupted) : Inv (s.trylock t) := by
  have hnot : t ∉ s.waiters := by
    intro hmem
    have hwaits := hinv.waits t hmem
    rcases hpc with hpc | hpc <;> simp [hpc, Pc.waits] at hwaits
  unfold State.trylock
  split
  next hfree =>
    have hown := hinv.own (t := t) hfree s.state
    rwa [List.erase_of_not_mem hnot] at hown
  · exact hinv.setPc (by rcases hpc with hpc | hpc <;> simp [hpc]) nofun
      fun hmem => absurd hmem hnot

theorem Inv.step {b : Action τ} (hstep : step s b = some s') : Inv s' := by
  cases b with
  | lock t interruptible =>
    obtain ⟨⟨hpc, -⟩, rfl⟩ := ite_eq_some.mp hstep
    exact hinv.setPc (by rcases hpc with hpc | hpc <;> simp [hpc]) nofun fun _ => trivial
  | round t =>
    simp only [Mutex.step] at hstep
    split at hstep
    next sleep hpc =>
      cases hstep
      exact hinv.lockSection hpc
    · cases hstep
  | park t =>
    simp only [Mutex.step] at hstep
    split at hstep
    next sleep hpc =>
      cases hstep
      exact hinv.park hpc
    · cases hstep
  | resume t =>
    simp only [Mutex.step] at hstep
    split at hstep
    next sleep hpc =>
      obtain ⟨-, rfl⟩ := ite_eq_some.mp hstep
      exact hinv.setPc (by simp [hpc]) nofun fun _ => trivial
    · cases hstep
  | trylock t =>
    obtain ⟨⟨hpc, -⟩, rfl⟩ := ite_eq_some.mp hstep
    exact hinv.trylock hpc
  | unlock t =>
    obtain ⟨⟨hpc, -⟩, rfl⟩ := ite_eq_some.mp hstep
    exact hinv.unlock hpc
  | signal t sigpending kill =>
    cases hstep
    exact ⟨hinv.owner, hinv.nodup, hinv.waits, hinv.wakeup⟩
  | wake t states =>
    cases hstep
    exact hinv.setState fun u _ => (wakeTask_or s.state t states u).imp_right And.right
  | elsewhere t state =>
    obtain ⟨hpc, rfl⟩ := ite_eq_some.mp hstep
    refine hinv.setState fun u hu => .inl (update_of_ne ?_ _ _)
    rintro rfl
    have hwaits := hinv.waits u hu
    rcases hpc with hpc | hpc | hpc <;> simp [hpc, Pc.waits] at hwaits

end

omit [DecidableEq τ] in
theorem inv_boot : Inv (boot : State τ) :=
  ⟨fun _ => ⟨nofun, nofun⟩, List.nodup_nil, nofun, nofun⟩

/-! ### What users rely on -/

/-- What users of a mutex rely on. -/
structure MutexOk (s : State τ) : Prop where
  /-- At most one task is between a lock that succeeded and its unlock, and it is the owner. -/
  exclusive : ∀ t u, s.pc t = .owning → s.pc u = .owning → t = u
  owner : ∀ t, s.owner = some t ↔ s.pc t = .owning
  /-- A task that got `-EINTR` does not own the mutex. -/
  interrupted : ∀ t, s.pc t = .interrupted → s.owner ≠ some t
  /-- Every waiter in the queue is in `mutex_lock_state`. -/
  waits : ∀ t ∈ s.waiters, (s.pc t).waits
  /-- A free mutex has a waiter that is awake if it has one that sleeps. -/
  wakeup : ¬ (s.owner = none ∧ (∃ t ∈ s.waiters, Asleep (s.state t)) ∧
    ∀ t ∈ s.waiters, s.state t ≠ .runnable)

omit [DecidableEq τ] in
theorem Inv.mutexOk (hinv : Inv s) : MutexOk s where
  exclusive t u ht hu := by
    have hboth := (hinv.owner t).mpr ht
    rw [(hinv.owner u).mpr hu] at hboth
    exact (Option.some.inj hboth).symm
  owner := hinv.owner
  interrupted t ht howner := by
    rw [(hinv.owner t).mp howner] at ht
    cases ht
  waits := hinv.waits
  wakeup := by
    rintro ⟨hfree, hasleep, hnone⟩
    obtain ⟨t, ht, hrun⟩ := hinv.wakeup hfree hasleep
    exact hnone t ht hrun

/-- **Mutexes.** For any number of tasks, and signals and wake-ups at any time. -/
theorem mutexOk_of_reachable (hs : Reachable (· = boot) (Graph step) s) : MutexOk s := by
  have hinv : Inv s :=
    hs.invariant (fun _ h => h ▸ inv_boot) fun _ _ _ hinv hstep => hinv.step hstep
  exact hinv.mutexOk

/-- Two tasks wait; the owner unlocks, and a third task is first to take the mutex. The task
that was woken goes back to the queue, and the other one has a signal. -/
def barging : List (Action ℕ) :=
  [.lock 0 false, .round 0, .lock 1 false, .round 1, .park 1, .lock 2 true, .round 2, .park 2,
    .unlock 0, .trylock 3, .resume 1, .round 1, .signal 2 true false,
    .wake 2 (wakeSignalStates false), .unlock 3]

/-- The mutex is free; task `1` has been woken again before it was switched out. -/
theorem mutexOk_barging : ∃ s : State ℕ, Reachable (· = boot) (Graph step) s ∧ MutexOk s ∧
    s.owner = none ∧ s.waiters = [2, 1] ∧ s.state 2 = .runnable ∧ s.state 1 = .runnable ∧
    s.pc 2 = .parked .interruptible :=
  exists_of_exec barging rfl (fun _ hs => mutexOk_of_reachable hs) (by decide +kernel)

end Nuvix.Mutex
