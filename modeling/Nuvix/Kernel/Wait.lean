import Nuvix.Kernel.Sched

/-!
# Wait queues: `kernel/wait.c`

A task that waits puts itself at the end of the queue and registers a state to sleep in; it
sleeps only once it is switched out in that state. A wake-up makes a task runnable that is in
one of the states it names, whether it has been switched out yet or not. All four functions
run under the lock of the queue.
-/

namespace Nuvix.Wait

open Sched Function

variable {τ : Type*} [DecidableEq τ]

/-- A state that `sched_wake` ends. -/
def Asleep (state : TaskState) : Prop := state.isIn wakeStates = true

instance (state : TaskState) : Decidable (Asleep state) := inferInstanceAs (Decidable (_ = true))

/-- `wake_task`: the states of the tasks, and whether the task was woken. -/
def wakeTask (state : τ → TaskState) (t : τ) (states : BitVec 32) : (τ → TaskState) × Bool :=
  (update state t ((state t).woken states), (state t).isIn states)

/-- `sched_wake`. -/
def schedWake (state : τ → TaskState) (t : τ) : (τ → TaskState) × Bool :=
  wakeTask state t wakeStates

/-- `prepare_to_wait_locked`. -/
def prepareToWait (waiters : List τ) (state : τ → TaskState) (t : τ) (sleep : TaskState) :
    List τ × (τ → TaskState) :=
  (if t ∈ waiters then waiters else waiters ++ [t], update state t sleep)

/-- `finish_wait_locked`. -/
def finishWait (waiters : List τ) (state : τ → TaskState) (t : τ) : List τ × (τ → TaskState) :=
  if t ∈ waiters then (waiters.erase t, (schedWake state t).1) else (waiters, state)

/-- `wake_up_one_locked`. -/
def wakeUpOne : List τ → (τ → TaskState) → τ → TaskState
  | [], state => state
  | t :: waiters, state =>
    let (state, woke) := schedWake state t
    if woke then state else wakeUpOne waiters state

/-- `wake_up_all_locked`. -/
def wakeUpAll (waiters : List τ) (state : τ → TaskState) : τ → TaskState :=
  waiters.foldl (fun state t => (schedWake state t).1) state

variable {state : τ → TaskState} {waiters : List τ} {t u : τ} {sleep : TaskState}

theorem not_asleep_runnable : ¬ Asleep .runnable := by decide

/-- A wake-up leaves a task as it is or makes it runnable. -/
theorem wakeTask_or (state : τ → TaskState) (t : τ) (states : BitVec 32) (u : τ) :
    (wakeTask state t states).1 u = state u ∨
      u = t ∧ (wakeTask state t states).1 u = .runnable := by
  by_cases hu : u = t
  · subst hu
    simpa [wakeTask] using (state u).woken_or states
  · exact .inl (update_of_ne hu _ _)

theorem schedWake_of_asleep (h : Asleep (state t)) :
    schedWake state t = (update state t .runnable, true) := by
  have hin : (state t).isIn wakeStates = true := h
  rw [schedWake, wakeTask, TaskState.woken, if_pos hin, hin]

theorem schedWake_of_not_asleep (h : ¬ Asleep (state t)) : schedWake state t = (state, false) := by
  have hin : ¬ (state t).isIn wakeStates = true := h
  rw [schedWake, wakeTask, TaskState.woken, if_neg hin, update_eq_self, Bool.eq_false_iff.mpr hin]

theorem wakeUpOne_spec (waiters : List τ) (state : τ → TaskState) :
    ((∀ t ∈ waiters, ¬ Asleep (state t)) ∧ wakeUpOne waiters state = state) ∨
      ∃ t ∈ waiters, Asleep (state t) ∧
        wakeUpOne waiters state = update state t .runnable := by
  induction waiters with
  | nil => exact .inl ⟨nofun, rfl⟩
  | cons t waiters ih =>
    by_cases ht : Asleep (state t)
    · refine .inr ⟨t, List.mem_cons_self, ht, ?_⟩
      rw [wakeUpOne, schedWake_of_asleep ht]
      rfl
    · have hskip : wakeUpOne (t :: waiters) state = wakeUpOne waiters state := by
        rw [wakeUpOne, schedWake_of_not_asleep ht]
        rfl
      rw [hskip]
      refine ih.imp (fun ⟨hnone, heq⟩ => ⟨?_, heq⟩) fun ⟨u, hu, hrest⟩ =>
        ⟨u, List.mem_cons_of_mem _ hu, hrest⟩
      intro u hu
      rcases List.mem_cons.mp hu with rfl | hu
      · exact ht
      · exact hnone u hu

theorem wakeUpAll_apply (waiters : List τ) (state : τ → TaskState) (u : τ) :
    wakeUpAll waiters state u =
      if u ∈ waiters ∧ Asleep (state u) then .runnable else state u := by
  induction waiters generalizing state with
  | nil => simp [wakeUpAll]
  | cons t waiters ih =>
    have hcons : wakeUpAll (t :: waiters) state = wakeUpAll waiters (schedWake state t).1 := rfl
    rw [hcons, ih]
    by_cases ht : Asleep (state t)
    · rw [schedWake_of_asleep ht]
      by_cases hu : u = t
      · subst hu
        simp [ht, not_asleep_runnable]
      · simp [hu]
    · rw [schedWake_of_not_asleep ht]
      by_cases hu : u = t
      · subst hu
        simp [ht]
      · simp [hu]

theorem schedWake_or (state : τ → TaskState) (t u : τ) :
    (schedWake state t).1 u = state u ∨ (schedWake state t).1 u = .runnable :=
  (wakeTask_or state t wakeStates u).imp_right And.right

theorem not_asleep_schedWake (state : τ → TaskState) (t : τ) :
    ¬ Asleep ((schedWake state t).1 t) := by
  by_cases ht : Asleep (state t)
  · simp [schedWake_of_asleep ht, not_asleep_runnable]
  · rwa [schedWake_of_not_asleep ht]

theorem wakeUpAll_or (waiters : List τ) (state : τ → TaskState) (u : τ) :
    wakeUpAll waiters state u = state u ∨ wakeUpAll waiters state u = .runnable := by
  rw [wakeUpAll_apply]
  split
  · exact .inr rfl
  · exact .inl rfl

theorem finishWait_fst (waiters : List τ) (state : τ → TaskState) (t : τ) :
    (finishWait waiters state t).1 = waiters.erase t := by
  unfold finishWait
  split
  · rfl
  next ht =>
    exact (List.erase_of_not_mem ht).symm

/-- A task that is awake leaves the queue. -/
theorem finishWait_of_not_asleep (ht : ¬ Asleep (state t)) :
    finishWait waiters state t = (waiters.erase t, state) := by
  refine Prod.ext (finishWait_fst waiters state t) ?_
  unfold finishWait
  rw [schedWake_of_not_asleep ht]
  split <;> rfl

theorem mem_prepareToWait : u ∈ (prepareToWait waiters state t sleep).1 ↔ u = t ∨ u ∈ waiters := by
  unfold prepareToWait
  dsimp only
  split
  next ht =>
    exact ⟨.inr, fun h => h.elim (fun heq => heq ▸ ht) id⟩
  · simp [or_comm]

theorem nodup_prepareToWait (hnodup : waiters.Nodup) :
    (prepareToWait waiters state t sleep).1.Nodup := by
  unfold prepareToWait
  dsimp only
  split
  · exact hnodup
  next ht =>
    exact List.nodup_append.mpr ⟨hnodup, List.nodup_singleton _,
      fun u hu w hw heq => ht (List.mem_singleton.mp hw ▸ heq ▸ hu)⟩

/-! ### The run queues -/

section RunQueues

variable {C T : ℕ} (s : Sched.State C T) (c : Fin C) (t : Fin T)

/-- The states of the tasks. -/
def taskStates : Fin T → TaskState := fun u => (s.task u).state

theorem taskStates_setTask (task : Task C) :
    taskStates (s.setTask t task) = update (taskStates s) t task.state := by
  funext u
  exact apply_update (fun _ => Task.state) s.task t task u

theorem taskStates_keep (task : Task C) (h : task.state = (s.task t).state) :
    taskStates (s.setTask t task) = taskStates s := by
  rw [taskStates_setTask, h]
  exact update_eq_self _ _

theorem taskStates_setNeedResched (value : Bool) :
    taskStates (s.setNeedResched t value) = taskStates s :=
  taskStates_keep s t _ rfl

theorem taskStates_enqueueTask : taskStates (enqueueTask s c t) = taskStates s := by
  have hqueue := taskStates_keep (s.setRq c { s.rq c with readyList := (s.rq c).readyList ++ [t] })
    t { s.task t with onRq := true } rfl
  unfold enqueueTask
  split_ifs
  · rfl
  · dsimp only
    split_ifs
    · exact (taskStates_setNeedResched ..).trans hqueue
    · exact hqueue

/-- `wake_task` on the run queues does to the states of the tasks what it does here. -/
theorem taskStates_wakeTask (states : BitVec 32) :
    taskStates (Sched.wakeTask s c t states) = (wakeTask (taskStates s) t states).1 := by
  unfold Sched.wakeTask wakeTask TaskState.woken
  change _ = update (taskStates s) t (if (s.task t).state.isIn states then _ else _)
  split_ifs
  · have hset := taskStates_setTask s t { s.task t with state := .runnable }
    dsimp only
    split_ifs
    · exact hset
    · exact (taskStates_enqueueTask _ c t).trans hset
  · exact (update_eq_self _ _).symm

theorem taskStates_switchTo (quantumTicks now : ℕ) :
    taskStates (switchTo quantumTicks s c now) = taskStates s := by
  have hpick : ∀ s : Sched.State C T, taskStates (pickNextTask s c).1 = taskStates s := by
    intro s
    unfold pickNextTask
    split
    · rfl
    · exact taskStates_keep _ _ _ (by rfl)
  refine Eq.trans (taskStates_keep _ _ _ ?_) ((hpick _).trans (taskStates_setNeedResched ..))
  rfl

/-- A switch changes the state of the task that calls it only, and only for its signals. -/
theorem taskStates_prepareSwitch (quantumTicks now : ℕ) (rotate sigpending kill : Bool) :
    taskStates (prepareSwitch quantumTicks s c rotate sigpending kill now) =
      update (taskStates s) (s.rq c).curr
        ((taskStates s (s.rq c).curr).parked sigpending kill) := by
  rw [← show taskStates (s.setState (s.rq c).curr
    ((taskStates s (s.rq c).curr).parked sigpending kill)) = _ from taskStates_setTask ..]
  unfold prepareSwitch
  dsimp only
  split_ifs
  · exact taskStates_switchTo ..
  · exact taskStates_setNeedResched ..
  · exact taskStates_setNeedResched ..
  · exact taskStates_switchTo ..
  · rfl
  · exact (taskStates_switchTo ..).trans (taskStates_enqueueTask ..)

end RunQueues

end Nuvix.Wait
