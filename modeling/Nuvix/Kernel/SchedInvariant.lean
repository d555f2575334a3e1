import Nuvix.Kernel.Sched
import Nuvix.Lib.Transition

/-!
# The invariant of the run queues

A task stays on the CPU it was placed on, so the invariant is one of each CPU and its
tasks, and a section on one CPU leaves the others alone. Between the two halves of a
switch the task that leaves is still marked as running.
-/

namespace Nuvix.Sched

open Transition Function

variable {C T : ℕ} {c : Fin C} {t : Fin T} {task : Fin T → Task C} {s' : State C T} {q : Rq T}
  {s : State C T}

/-! ### The invariant -/

/-- The tasks of CPU `c` and its run queue agree. -/
structure CpuOk (q : Rq T) (task : Fin T → Task C) (c : Fin C) : Prop where
  idleCpu : (task q.idle).cpu = some c
  idleState : (task q.idle).state = .runnable
  currCpu : (task q.curr).cpu = some c
  currState : (task q.curr).state ≠ .new
  ready : ∀ t ∈ q.readyList, (task t).cpu = some c ∧ (task t).state = .runnable ∧
    t ≠ q.curr ∧ t ≠ q.idle
  nodup : q.readyList.Nodup
  onRq : ∀ t, (task t).cpu = some c → ((task t).onRq = true ↔ t ∈ q.readyList)
  onCpu : ∀ t, (task t).cpu = some c →
    ((task t).onCpu = true ↔ t = q.curr ∨ q.leaving = some t)
  leaving : ∀ t, q.leaving = some t → t ≠ q.curr ∧ (task t).cpu = some c
  runnable : ∀ t, (task t).cpu = some c → (task t).state = .runnable →
    t = q.idle ∨ t = q.curr ∨ t ∈ q.readyList
  count : q.nrRunnable = q.readyList.length + if q.curr = q.idle then 0 else 1

structure Inv (s : State C T) : Prop where
  ok : s.failed = false
  cpu : ∀ c, CpuOk (s.rq c) s.task c
  unplaced : ∀ t, (s.task t).cpu = none →
    (s.task t).state = .new ∧ (s.task t).onRq = false ∧ (s.task t).onCpu = false

/-- The fields of a task that the invariant is about. -/
def Task.Same (a b : Task C) : Prop :=
  a.cpu = b.cpu ∧ a.state = b.state ∧ a.onRq = b.onRq ∧ a.onCpu = b.onCpu

/-- The invariant of a CPU is about its own tasks. -/
theorem CpuOk.frame {task' : Fin T → Task C} (h : CpuOk q task c)
    (hcpu : ∀ t, (task' t).cpu = (task t).cpu)
    (hsame : ∀ t, (task t).cpu = some c → (task' t).Same (task t)) : CpuOk q task' c where
  idleCpu := (hcpu _).trans h.idleCpu
  idleState := (hsame _ h.idleCpu).2.1.trans h.idleState
  currCpu := (hcpu _).trans h.currCpu
  currState := by
    rw [(hsame _ h.currCpu).2.1]
    exact h.currState
  ready := by
    intro t ht
    obtain ⟨hc, hstate, hne⟩ := h.ready t ht
    exact ⟨(hcpu t).trans hc, (hsame t hc).2.1.trans hstate, hne⟩
  nodup := h.nodup
  onRq := by
    intro t ht
    rw [hcpu] at ht
    rw [(hsame t ht).2.2.1]
    exact h.onRq t ht
  onCpu := by
    intro t ht
    rw [hcpu] at ht
    rw [(hsame t ht).2.2.2]
    exact h.onCpu t ht
  leaving := fun t ht => ⟨(h.leaving t ht).1, (hcpu t).trans (h.leaving t ht).2⟩
  runnable := by
    intro t ht hstate
    rw [hcpu] at ht
    rw [(hsame t ht).2.1] at hstate
    exact h.runnable t ht hstate
  count := h.count

/-- A task `t` of the CPU changes, and it may join or leave the list and the switch. -/
theorem CpuOk.replace {k : Task C} {ready : List (Fin T)} {n : ℤ} {leaving : Option (Fin T)}
    (h : CpuOk q task c) (hcpu : k.cpu = some c) (hmem : ∀ u ≠ t, (u ∈ ready ↔ u ∈ q.readyList))
    (hother : ∀ u ≠ t, (leaving = some u ↔ q.leaving = some u)) (hnodup : ready.Nodup)
    (hcount : n = ready.length + if q.curr = q.idle then 0 else 1)
    (hidle : t = q.idle → k.state = .runnable) (hcurr : t = q.curr → k.state ≠ .new)
    (hready : t ∈ ready → k.state = .runnable ∧ t ≠ q.curr ∧ t ≠ q.idle)
    (honRq : k.onRq = true ↔ t ∈ ready) (honCpu : k.onCpu = true ↔ t = q.curr ∨ leaving = some t)
    (hleaving : leaving = some t → t ≠ q.curr)
    (hrunnable : k.state = .runnable → t = q.idle ∨ t = q.curr ∨ t ∈ ready) :
    CpuOk { q with readyList := ready, nrRunnable := n, leaving := leaving }
      (update task t k) c where
  idleCpu := (forall_update_iff task fun u k => u = q.idle → k.cpu = some c).mpr
    ⟨fun _ => hcpu, fun _ _ hu => hu ▸ h.idleCpu⟩ _ rfl
  idleState := (forall_update_iff task fun u k => u = q.idle → k.state = .runnable).mpr
    ⟨hidle, fun _ _ hu => hu ▸ h.idleState⟩ _ rfl
  currCpu := (forall_update_iff task fun u k => u = q.curr → k.cpu = some c).mpr
    ⟨fun _ => hcpu, fun _ _ hu => hu ▸ h.currCpu⟩ _ rfl
  currState := (forall_update_iff task fun u k => u = q.curr → k.state ≠ .new).mpr
    ⟨hcurr, fun _ _ hu => hu ▸ h.currState⟩ _ rfl
  ready := (forall_update_iff task fun u k => u ∈ ready → k.cpu = some c ∧
      k.state = .runnable ∧ u ≠ q.curr ∧ u ≠ q.idle).mpr
    ⟨fun hu => ⟨hcpu, hready hu⟩, fun u hut hu => h.ready u ((hmem u hut).mp hu)⟩
  nodup := hnodup
  onRq := (forall_update_iff task fun u k => k.cpu = some c → (k.onRq = true ↔ u ∈ ready)).mpr
    ⟨fun _ => honRq, fun u hut hu => (h.onRq u hu).trans (hmem u hut).symm⟩
  onCpu := (forall_update_iff task fun u k => k.cpu = some c →
      (k.onCpu = true ↔ u = q.curr ∨ leaving = some u)).mpr
    ⟨fun _ => honCpu, fun u hut hu => (h.onCpu u hu).trans (or_congr_right (hother u hut).symm)⟩
  leaving := (forall_update_iff task fun u k => leaving = some u →
      u ≠ q.curr ∧ k.cpu = some c).mpr
    ⟨fun hu => ⟨hleaving hu, hcpu⟩, fun u hut hu => h.leaving u ((hother u hut).mp hu)⟩
  runnable := (forall_update_iff task fun u k => k.cpu = some c → k.state = .runnable →
      u = q.idle ∨ u = q.curr ∨ u ∈ ready).mpr
    ⟨fun _ => hrunnable, fun u hut hu hrun =>
      (h.runnable u hu hrun).imp_right (Or.imp_right (hmem u hut).mpr)⟩
  count := hcount

/-- A section on CPU `c`: other run queues and their tasks are as before. -/
structure Local (c : Fin C) (s s' : State C T) : Prop where
  rq : ∀ d ≠ c, s'.rq d = s.rq d
  cpu : ∀ t, (s'.task t).cpu = (s.task t).cpu
  task : ∀ t, (s.task t).cpu ≠ some c → (s'.task t).Same (s.task t)

theorem Local.trans {s'' : State C T} (h : Local c s s') (h' : Local c s' s'') : Local c s s'' where
  rq := fun d hd => (h'.rq d hd).trans (h.rq d hd)
  cpu := fun t => (h'.cpu t).trans (h.cpu t)
  task := by
    intro t ht
    have h1 := h.task t ht
    have h2 := h'.task t (by rw [h.cpu]; exact ht)
    exact ⟨h2.1.trans h1.1, h2.2.1.trans h1.2.1, h2.2.2.1.trans h1.2.2.1,
      h2.2.2.2.trans h1.2.2.2⟩

theorem Inv.of_local (h : Inv s) (hl : Local c s s') (hok : s'.failed = false)
    (hc : CpuOk (s'.rq c) s'.task c) : Inv s' where
  ok := hok
  cpu := by
    intro d
    rcases eq_or_ne d c with rfl | hne
    · exact hc
    · rw [hl.rq d hne]
      apply (h.cpu d).frame hl.cpu
      intro t ht
      apply hl.task
      rw [ht]
      exact fun heq => hne (Option.some.inj heq)
  unplaced := by
    intro t ht
    rw [hl.cpu] at ht
    obtain ⟨hstate, honrq, honcpu⟩ := h.unplaced t ht
    obtain ⟨-, h1, h2, h3⟩ := hl.task t (by rw [ht]; exact nofun)
    exact ⟨h1.trans hstate, h2.trans honrq, h3.trans honcpu⟩

/-! ### Small changes -/

section Small

variable {s : State C T} {c : Fin C} {t : Fin T}

theorem local_setRq (s : State C T) (c : Fin C) (q : Rq T) : Local c s (s.setRq c q) :=
  ⟨fun _ hd => update_of_ne hd _ _, fun _ => rfl, fun _ _ => ⟨rfl, rfl, rfl, rfl⟩⟩

theorem local_setTask {task : Task C} (ht : (s.task t).cpu = some c) (hcpu : task.cpu = some c) :
    Local c s (s.setTask t task) := by
  refine ⟨fun _ _ => rfl, ?_, ?_⟩
  · exact (forall_update_iff s.task fun u task => task.cpu = (s.task u).cpu).mpr
      ⟨hcpu.trans ht.symm, fun _ _ => rfl⟩
  · intro u hu
    have hne : u ≠ t := by
      rintro rfl
      exact hu ht
    change (update s.task t task u).Same (s.task u)
    rw [update_of_ne hne]
    exact ⟨rfl, rfl, rfl, rfl⟩

@[simp] theorem task_setTask_self (task : Task C) : (s.setTask t task).task t = task :=
  update_self ..

theorem task_setTask_of_ne {u : Fin T} (task : Task C) (hne : u ≠ t) :
    (s.setTask t task).task u = s.task u :=
  update_of_ne hne _ _

/-- A field that the new record has in common with the old one is unchanged in all tasks. -/
theorem field_setTask {α : Type} (g : Task C → α) {task : Task C} (h : g task = g (s.task t))
    (u : Fin T) : g ((s.setTask t task).task u) = g (s.task u) :=
  (forall_update_iff s.task fun u task => g task = g (s.task u)).mpr ⟨h, fun _ _ => rfl⟩ u

@[simp] theorem rq_setTask (task : Task C) : (s.setTask t task).rq = s.rq := rfl

@[simp] theorem task_setRq (q : Rq T) : (s.setRq c q).task = s.task := rfl

@[simp] theorem rq_setRq_self (q : Rq T) : (s.setRq c q).rq c = q := update_self ..

/-- `TF_NEED_RESCHED` is not part of the invariant. -/
theorem same_setNeedResched (s : State C T) (t : Fin T) (value : Bool) (u : Fin T) :
    ((s.setNeedResched t value).task u).Same (s.task u) :=
  (forall_update_iff s.task fun u task => task.Same (s.task u)).mpr
    ⟨by exact ⟨rfl, rfl, rfl, rfl⟩, fun _ _ => ⟨rfl, rfl, rfl, rfl⟩⟩ u

theorem Inv.setNeedResched (h : Inv s) (t : Fin T) (value : Bool) :
    Inv (s.setNeedResched t value) where
  ok := h.ok
  cpu := fun d => (h.cpu d).frame (fun u => (same_setNeedResched s t value u).1)
    fun u _ => same_setNeedResched s t value u
  unplaced := by
    intro u hu
    obtain ⟨hcpu, hstate, honrq, honcpu⟩ := same_setNeedResched s t value u
    rw [hcpu] at hu
    obtain ⟨h1, h2, h3⟩ := h.unplaced u hu
    exact ⟨hstate.trans h1, honrq.trans h2, honcpu.trans h3⟩

theorem CpuOk.deadline (h : CpuOk q task c) (deadline : ℕ) :
    CpuOk { q with quantumDeadline := deadline } task c :=
  ⟨h.idleCpu, h.idleState, h.currCpu, h.currState, h.ready, h.nodup, h.onRq, h.onCpu, h.leaving,
    h.runnable, h.count⟩

theorem Inv.deadline (h : Inv s) (c : Fin C) (deadline : ℕ) :
    Inv (s.setRq c { s.rq c with quantumDeadline := deadline }) := by
  apply h.of_local (local_setRq s c _) h.ok
  rw [rq_setRq_self]
  exact (h.cpu c).deadline deadline

/-- The current task changes its state. -/
theorem Inv.setState (h : Inv s) {state : TaskState} (hnew : state ≠ .new)
    (hidle : (s.rq c).curr = (s.rq c).idle → state = .runnable) :
    Inv (s.setState (s.rq c).curr state) := by
  have hc := h.cpu c
  exact h.of_local (local_setTask hc.currCpu hc.currCpu) h.ok (hc.replace hc.currCpu
    (fun _ _ => .rfl) (fun _ _ => .rfl) hc.nodup hc.count hidle (fun _ => hnew)
    (fun hin => absurd rfl (hc.ready _ hin).2.2.1) (hc.onRq _ hc.currCpu) (hc.onCpu _ hc.currCpu)
    (fun hw => (hc.leaving _ hw).1) fun _ => .inr (.inl rfl))

end Small

/-! ### Waking and publishing -/

section Enqueued

variable {s : State C T} {c : Fin C} {t : Fin T}

/-- A task that is neither running nor ready is made ready. -/
theorem Inv.enqueued (h : Inv s) (hcpu : (s.task t).cpu = some c)
    (hstate : (s.task t).state ≠ .runnable) (hcurr : t ≠ (s.rq c).curr) :
    Inv (addRunnable (enqueueTask (s.setState t .runnable) c t) c 1) := by
  have hc := h.cpu c
  have hready : t ∉ (s.rq c).readyList := fun hin => hstate (hc.ready t hin).2.1
  have hidle : t ≠ (s.rq c).idle := by
    rintro rfl
    exact hstate hc.idleState
  have honrq : (s.task t).onRq = false := by
    by_contra hon
    exact hready ((hc.onRq t hcpu).mp (by simpa using hon))
  have hassert : ¬ (((s.setState t .runnable).task t).onRq = true ∨
      t = ((s.setState t .runnable).rq c).idle) := by
    unfold State.setState
    rw [task_setTask_self]
    simp [honrq, hidle]
  -- The state with the task queued and counted, whatever the flag of the current task.
  let s' := ((s.setRq c { s.rq c with
      readyList := (s.rq c).readyList ++ [t], nrRunnable := (s.rq c).nrRunnable + 1 }).setTask t
    { s.task t with state := .runnable, onRq := true })
  have hinv : Inv s' := by
    have hlocal : Local c s s' := (local_setRq s c _).trans (local_setTask hcpu hcpu)
    have hrq : s'.rq c = { s.rq c with
        readyList := (s.rq c).readyList ++ [t], nrRunnable := (s.rq c).nrRunnable + 1 } :=
      rq_setRq_self _
    apply h.of_local hlocal h.ok
    rw [hrq]
    refine hc.replace hcpu (fun u hu => by simp [hu]) (fun _ _ => .rfl) ?_ ?_
      (fun heq => absurd heq hidle) (fun heq => absurd heq hcurr) (fun _ => ⟨rfl, hcurr, hidle⟩)
      (by simp) (hc.onCpu t hcpu) (fun hw => (hc.leaving t hw).1) fun _ => .inr (.inr (by simp))
    · exact List.nodup_append.mpr ⟨hc.nodup, List.nodup_singleton t, fun a ha b hb hab =>
        hready (List.mem_singleton.mp hb ▸ hab ▸ ha)⟩
    · rw [hc.count, List.length_append, List.length_singleton]
      push_cast
      ring
  unfold enqueueTask
  rw [if_neg hassert]
  have hsame : addRunnable (((s.setState t .runnable).setRq c
      { (s.setState t .runnable).rq c with
        readyList := ((s.setState t .runnable).rq c).readyList ++ [t] }).setTask t
      { ((s.setState t .runnable).setRq c
        { (s.setState t .runnable).rq c with
          readyList := ((s.setState t .runnable).rq c).readyList ++ [t] }).task t with
        onRq := true }) c 1 = s' := by
    simp [s', State.setState, State.setTask, State.setRq, addRunnable]
  dsimp only
  split_ifs
  · exact (hsame ▸ hinv).setNeedResched _ true
  · exact hsame ▸ hinv

theorem Inv.wakeTask (h : Inv s) {states : BitVec 32} (hcpu : (s.task t).cpu = some c)
    (hleaving : (s.rq c).leaving = none)
    (hmask : TaskState.runnable.isIn states = false) : Inv (wakeTask s c t states) := by
  have hc := h.cpu c
  unfold Sched.wakeTask
  split_ifs with hin
  · have hstate : (s.task t).state ≠ .runnable := by
      intro heq
      rw [heq, hmask] at hin
      exact nomatch hin
    have honcpu : ((s.setState t .runnable).task t).onCpu = (s.task t).onCpu := by
      unfold State.setState
      rw [task_setTask_self]
    dsimp only
    rw [honcpu]
    split_ifs with hon
    · -- A task that is still running has not been switched out, and just goes on.
      have heq : t = (s.rq c).curr := by
        rcases (hc.onCpu t hcpu).mp hon with heq | heq
        · exact heq
        · rw [hleaving] at heq
          exact nomatch heq
      rw [heq]
      exact h.setState nofun fun _ => rfl
    · apply h.enqueued hcpu hstate
      intro heq
      exact hon ((hc.onCpu t hcpu).mpr (.inl heq))
  · exact h

theorem Inv.publish (h : Inv s) (hcpu : (s.task t).cpu = some c)
    (hnew : (s.task t).state = .new) : Inv (publish s c t) := by
  apply h.enqueued hcpu (by rw [hnew]; exact nofun)
  rintro rfl
  exact (h.cpu c).currState hnew

end Enqueued

/-! ### Switching -/

section Switch

variable {s : State C T} {c : Fin C} {quantumTicks now : ℕ} {rest : List (Fin T)}

/-- The current task is about to leave: it is ready if it can run, and not counted
otherwise. -/
structure Parted (s : State C T) (c : Fin C) : Prop where
  idleCpu : (s.task (s.rq c).idle).cpu = some c
  idleState : (s.task (s.rq c).idle).state = .runnable
  currCpu : (s.task (s.rq c).curr).cpu = some c
  ready : ∀ t ∈ (s.rq c).readyList, (s.task t).cpu = some c ∧ (s.task t).state = .runnable ∧
    t ≠ (s.rq c).idle
  nodup : (s.rq c).readyList.Nodup
  onRq : ∀ t, (s.task t).cpu = some c → ((s.task t).onRq = true ↔ t ∈ (s.rq c).readyList)
  onCpu : ∀ t, (s.task t).cpu = some c → ((s.task t).onCpu = true ↔ t = (s.rq c).curr)
  runnable : ∀ t, (s.task t).cpu = some c → (s.task t).state = .runnable →
    t = (s.rq c).idle ∨ t ∈ (s.rq c).readyList
  count : (s.rq c).nrRunnable = (s.rq c).readyList.length
  head : ∀ t rest, (s.rq c).readyList = t :: rest → t ≠ (s.rq c).curr
  empty : (s.rq c).readyList = [] → (s.rq c).curr ≠ (s.rq c).idle

/-- The state `switchTo` ends in, for the task that is picked. -/
def switched (s : State C T) (c : Fin C) (next : Fin T) (rest : List (Fin T)) (deadline : ℕ) :
    State C T :=
  ((s.setNeedResched (s.rq c).curr false).setRq c
    { s.rq c with
      curr := next
      readyList := rest
      quantumDeadline := deadline
      leaving := some (s.rq c).curr }).setTask next
    { (s.setNeedResched (s.rq c).curr false).task next with onRq := false, onCpu := true }

theorem switchTo_nil (hidle : (s.task (s.rq c).idle).onRq = false)
    (hnil : (s.rq c).readyList = []) : switchTo quantumTicks s c now =
      switched s c (s.rq c).idle [] (now + quantumTicks) := by
  have honrq : ((s.setNeedResched (s.rq c).curr false).task (s.rq c).idle).onRq = false :=
    (same_setNeedResched s (s.rq c).curr false (s.rq c).idle).2.2.1.trans hidle
  have hpick : pickNextTask (s.setNeedResched (s.rq c).curr false) c =
      (s.setNeedResched (s.rq c).curr false, (s.rq c).idle) := by
    unfold pickNextTask
    have hsame : ((s.setNeedResched (s.rq c).curr false).rq c).readyList = [] := hnil
    rw [hsame]
    rfl
  unfold switchTo switched
  dsimp only
  rw [hpick]
  dsimp only
  rw [task_setRq]
  have hrq : (s.setNeedResched (s.rq c).curr false).rq c = s.rq c := rfl
  rw [hrq]
  generalize (s.setNeedResched (s.rq c).curr false).task (s.rq c).idle = next at honrq
  obtain ⟨cpu, state, onRq, onCpu, needResched⟩ := next
  obtain rfl : onRq = false := honrq
  rw [hnil]

theorem switchTo_cons (hcons : (s.rq c).readyList = t :: rest) :
    switchTo quantumTicks s c now = switched s c t rest (now + quantumTicks) := by
  have hpick : pickNextTask (s.setNeedResched (s.rq c).curr false) c =
      (((s.setNeedResched (s.rq c).curr false).setRq c { s.rq c with readyList := rest }).setTask t
        { (s.setNeedResched (s.rq c).curr false).task t with onRq := false }, t) := by
    unfold pickNextTask
    have hsame : ((s.setNeedResched (s.rq c).curr false).rq c).readyList = t :: rest := hcons
    rw [hsame]
    rfl
  unfold switchTo switched
  dsimp only
  rw [hpick]
  simp [State.setTask, State.setRq]

/-- Whatever is picked takes over. -/
theorem Parted.switched (h : Parted s c) {next : Fin T} {deadline : ℕ}
    (hne : next ≠ (s.rq c).curr) (hcpu : (s.task next).cpu = some c)
    (hstate : (s.task next).state = .runnable) (hnext : next ∉ rest)
    (hrest : ∀ t, t ∈ (s.rq c).readyList ↔ t ∈ rest ∨ t = next ∧ next ≠ (s.rq c).idle)
    (hnodup : rest.Nodup) (hcount : ((s.rq c).readyList.length : ℤ) =
      rest.length + if next = (s.rq c).idle then 0 else 1) :
    Local c s (switched s c next rest deadline) ∧
      CpuOk ((switched s c next rest deadline).rq c) (switched s c next rest deadline).task c := by
  generalize hs' : Sched.switched s c next rest deadline = s'
  have hself : s'.task next =
      { (s.setNeedResched (s.rq c).curr false).task next with onRq := false, onCpu := true } := by
    rw [← hs']
    exact task_setTask_self _
  have hother : ∀ u ≠ next, s'.task u = (s.setNeedResched (s.rq c).curr false).task u := by
    intro u hu
    rw [← hs']
    exact task_setTask_of_ne _ hu
  have hflag := same_setNeedResched s (s.rq c).curr false
  have hrq : s'.rq c =
      { s.rq c with
        curr := next
        readyList := rest
        quantumDeadline := deadline
        leaving := some (s.rq c).curr } := by
    rw [← hs']
    exact rq_setRq_self _
  have htcpu : ∀ u, (s'.task u).cpu = (s.task u).cpu := by
    intro u
    rw [← hs', ← (hflag u).1]
    exact field_setTask Task.cpu (by rfl) u
  have htstate : ∀ u, (s'.task u).state = (s.task u).state := by
    intro u
    rw [← hs', ← (hflag u).2.1]
    exact field_setTask Task.state (by rfl) u
  have hlocal : Local c s s' := by
    refine ⟨fun d hd => ?_, htcpu, fun u hu => ?_⟩
    · rw [← hs']
      exact update_of_ne hd _ _
    · have hne : u ≠ next := by
        rintro rfl
        exact hu hcpu
      rw [hother u hne]
      exact hflag u
  refine ⟨hlocal, ?_⟩
  rw [hrq]
  constructor
  · exact (htcpu _).trans h.idleCpu
  · exact (htstate _).trans h.idleState
  · exact (htcpu _).trans hcpu
  · dsimp only
    rw [htstate, hstate]
    exact nofun
  · intro u hu
    obtain ⟨h1, h2, h3⟩ := h.ready u ((hrest u).mpr (.inl hu))
    refine ⟨(htcpu u).trans h1, (htstate u).trans h2, ?_, h3⟩
    rintro rfl
    exact hnext hu
  · exact hnodup
  · intro u hu
    rw [htcpu] at hu
    rcases eq_or_ne u next with rfl | hne
    · rw [hself]
      simp [hnext]
    · rw [hother u hne, (hflag u).2.2.1, h.onRq u hu, hrest u]
      simp [hne]
  · intro u hu
    rw [htcpu] at hu
    rcases eq_or_ne u next with rfl | hne
    · rw [hself]
      simp
    · rw [hother u hne, (hflag u).2.2.2, h.onCpu u hu]
      simp [hne, eq_comm]
  · intro u hu
    cases hu
    exact ⟨hne.symm, (htcpu _).trans h.currCpu⟩
  · intro u hu hrun
    rw [htcpu] at hu
    rw [htstate] at hrun
    rcases h.runnable u hu hrun with heq | hin
    · exact .inl heq
    · rcases (hrest u).mp hin with hin | ⟨heq, -⟩
      · exact .inr (.inr hin)
      · exact .inr (.inl heq)
  · exact h.count.trans hcount

theorem Parted.switchTo (h : Parted s c) (quantumTicks now : ℕ) :
    Local c s (switchTo quantumTicks s c now) ∧
      CpuOk ((switchTo quantumTicks s c now).rq c) (switchTo quantumTicks s c now).task c := by
  cases hready : (s.rq c).readyList with
  | nil =>
    have hidle : (s.task (s.rq c).idle).onRq = false := by
      by_contra hon
      have hin := (h.onRq _ h.idleCpu).mp (by simpa using hon)
      rw [hready] at hin
      exact nomatch hin
    rw [switchTo_nil hidle hready]
    apply h.switched (h.empty hready).symm h.idleCpu h.idleState <;> simp [hready]
  | cons t rest =>
    rw [switchTo_cons hready]
    obtain ⟨hcpu, hstate, hidle⟩ := h.ready t (by rw [hready]; exact List.mem_cons_self)
    have hnodup := h.nodup
    rw [hready, List.nodup_cons] at hnodup
    apply h.switched (h.head t rest hready) hcpu hstate hnodup.1 _ hnodup.2
    · rw [hready, if_neg hidle, List.length_cons]
      push_cast
      ring
    · intro u
      rw [hready, List.mem_cons]
      simp only [ne_eq, hidle, not_false_eq_true, and_true]
      exact or_comm

theorem failed_switchTo (s : State C T) (c : Fin C) :
    (switchTo quantumTicks s c now).failed = s.failed := by
  unfold switchTo pickNextTask
  dsimp only
  cases ((s.setNeedResched (s.rq c).curr false).rq c).readyList <;> rfl

section

variable (h : Inv s)
include h

section

variable (hleaving : (s.rq c).leaving = none)
include hleaving

/-- The current task leaves without joining the list: it cannot run, or is the idle task. -/
theorem Inv.parted (htask : s'.task = s.task)
    (hrq : s'.rq c = { s.rq c with nrRunnable := (s.rq c).readyList.length })
    (hrun : (s.task (s.rq c).curr).state = .runnable → (s.rq c).curr = (s.rq c).idle)
    (hempty : (s.rq c).readyList = [] → (s.rq c).curr ≠ (s.rq c).idle) : Parted s' c := by
  have hc := h.cpu c
  constructor <;> rw [hrq] <;> try rw [htask]
  · exact hc.idleCpu
  · exact hc.idleState
  · exact hc.currCpu
  · exact fun t ht => ⟨(hc.ready t ht).1, (hc.ready t ht).2.1, (hc.ready t ht).2.2.2⟩
  · exact hc.nodup
  · exact hc.onRq
  · intro t ht
    rw [hc.onCpu t ht, hleaving]
    simp
  · intro t ht hstate
    rcases hc.runnable t ht hstate with heq | rfl | hin
    · exact .inl heq
    · exact .inl (hrun hstate)
    · exact .inr hin
  · intro t rest hcons
    exact (hc.ready t (by rw [hcons]; exact List.mem_cons_self)).2.2.1
  · exact hempty

/-- A task that cannot run is no longer counted. -/
theorem parted_of_sleeping (hstate : (s.task (s.rq c).curr).state ≠ .runnable) :
    Parted (addRunnable s c (-1)) c := by
  have hc := h.cpu c
  have hidle : (s.rq c).curr ≠ (s.rq c).idle := by
    intro heq
    rw [heq] at hstate
    exact hstate hc.idleState
  refine h.parted hleaving rfl ((rq_setRq_self _).trans ?_) (fun hrun => absurd hrun hstate)
    fun _ => hidle
  rw [hc.count, if_neg hidle, add_neg_cancel_right]

/-- The idle task leaves when there is work. -/
theorem parted_of_idle (hidle : (s.rq c).curr = (s.rq c).idle) (hready : (s.rq c).readyList ≠ []) :
    Parted s c := by
  have hcount := (h.cpu c).count
  rw [if_pos hidle, add_zero] at hcount
  exact h.parted hleaving rfl (by rw [← hcount]) (fun _ => hidle) fun hnil => absurd hnil hready

omit hleaving in
/-- The current task joins the end of the list. -/
theorem enqueueTask_curr (hidle : (s.rq c).curr ≠ (s.rq c).idle) : enqueueTask s c (s.rq c).curr =
      (s.setRq c { s.rq c with readyList := (s.rq c).readyList ++ [(s.rq c).curr] }).setTask
        (s.rq c).curr { s.task (s.rq c).curr with onRq := true } := by
  have hc := h.cpu c
  have honrq : (s.task (s.rq c).curr).onRq ≠ true := by
    intro hon
    exact (hc.ready _ ((hc.onRq _ hc.currCpu).mp hon)).2.2.1 rfl
  unfold enqueueTask
  rw [if_neg (not_or.mpr ⟨honrq, hidle⟩)]
  dsimp only
  rw [rq_setTask, rq_setRq_self, if_neg hidle]
  rfl

theorem parted_of_rotated (hstate : (s.task (s.rq c).curr).state = .runnable)
    (hidle : (s.rq c).curr ≠ (s.rq c).idle) (hready : (s.rq c).readyList ≠ []) :
    Parted (enqueueTask s c (s.rq c).curr) c ∧
      Local c s (enqueueTask s c (s.rq c).curr) ∧
      (enqueueTask s c (s.rq c).curr).failed = false := by
  have hc := h.cpu c
  rw [enqueueTask_curr h hidle]
  generalize hs' : (s.setRq c { s.rq c with
    readyList := (s.rq c).readyList ++ [(s.rq c).curr] }).setTask (s.rq c).curr
      { s.task (s.rq c).curr with onRq := true } = s'
  have hself : s'.task (s.rq c).curr = { s.task (s.rq c).curr with onRq := true } := by
    rw [← hs']
    exact task_setTask_self _
  have hother : ∀ t, t ≠ (s.rq c).curr → s'.task t = s.task t := by
    intro t ht
    rw [← hs']
    exact task_setTask_of_ne _ ht
  have hrq : s'.rq c =
      { s.rq c with readyList := (s.rq c).readyList ++ [(s.rq c).curr] } := by
    rw [← hs']
    exact rq_setRq_self _
  have hcurr : (s.rq c).curr ∉ (s.rq c).readyList := fun hin => (hc.ready _ hin).2.2.1 rfl
  have hlocal : Local c s s' := by
    rw [← hs']
    exact (local_setRq s c _).trans (local_setTask hc.currCpu hc.currCpu)
  have htstate : ∀ t, (s'.task t).state = (s.task t).state := hs' ▸ field_setTask _ rfl
  have htoncpu : ∀ t, (s'.task t).onCpu = (s.task t).onCpu := hs' ▸ field_setTask _ rfl
  refine ⟨?_, hlocal, by rw [← hs']; exact h.ok⟩
  constructor <;> rw [hrq] <;> dsimp only
  · exact (hlocal.cpu _).trans hc.idleCpu
  · exact (htstate _).trans hc.idleState
  · exact (hlocal.cpu _).trans hc.currCpu
  · intro t ht
    rw [hlocal.cpu, htstate]
    rcases List.mem_append.mp ht with hin | hin
    · exact ⟨(hc.ready t hin).1, (hc.ready t hin).2.1, (hc.ready t hin).2.2.2⟩
    · obtain rfl := List.mem_singleton.mp hin
      exact ⟨hc.currCpu, hstate, hidle⟩
  · rw [List.nodup_append]
    refine ⟨hc.nodup, List.nodup_singleton _, ?_⟩
    intro t ht u hu heq
    obtain rfl := List.mem_singleton.mp hu
    exact hcurr (heq ▸ ht)
  · intro t ht
    rw [hlocal.cpu] at ht
    rcases eq_or_ne t (s.rq c).curr with rfl | hne
    · rw [hself]
      simp
    · rw [hother t hne, hc.onRq t ht]
      simp [hne]
  · intro t ht
    rw [hlocal.cpu] at ht
    rw [htoncpu, hc.onCpu t ht, hleaving]
    simp
  · intro t ht hrun
    rw [hlocal.cpu] at ht
    rw [htstate] at hrun
    rcases hc.runnable t ht hrun with h1 | rfl | h1
    · exact .inl h1
    · exact .inr (List.mem_append_right _ List.mem_cons_self)
    · exact .inr (List.mem_append_left _ h1)
  · have hcount := hc.count
    rw [if_neg hidle] at hcount
    rw [hcount, List.length_append, List.length_singleton]
    push_cast
    rfl
  · intro t rest hcons
    cases hlist : (s.rq c).readyList with
    | nil => exact absurd hlist hready
    | cons u us =>
      rw [hlist, List.cons_append] at hcons
      obtain ⟨rfl, -⟩ := List.cons.inj hcons
      exact (hc.ready u (by rw [hlist]; exact List.mem_cons_self)).2.2.1
  · intro hnil
    simp at hnil

/-- `sched_prepare_switch_locked` keeps the invariant, whatever it decides. -/
theorem Inv.prepareSwitch (rotate sigpending kill : Bool) :
    Inv (prepareSwitch quantumTicks s c rotate sigpending kill now) := by
  unfold Sched.prepareSwitch
  dsimp only
  -- a pending signal cancels the sleep first
  generalize hs₁ : s.setState (s.rq c).curr _ = s₁
  have hrq : s₁.rq = s.rq := hs₁ ▸ rfl
  have h₁ : Inv s₁ := by
    rw [← hs₁]
    have hc := h.cpu c
    rcases TaskState.parked_or (s.task (s.rq c).curr).state sigpending kill with heq | heq <;>
      rw [heq]
    · exact h.setState hc.currState fun hidle => hidle ▸ hc.idleState
    · exact h.setState nofun fun _ => rfl
  rw [← hrq] at hleaving ⊢
  by_cases hstate : (s₁.task (s₁.rq c).curr).state = .runnable
  · rw [if_neg (not_not.mpr hstate)]
    by_cases hready : (s₁.rq c).readyList = []
    · rw [if_pos hready]
      by_cases hquantum : (s₁.rq c).curr ≠ (s₁.rq c).idle ∧
          (rotate = true ∨ (s₁.task (s₁.rq c).curr).needResched = true)
      · rw [if_pos hquantum]
        exact (h₁.deadline c _).setNeedResched _ _
      · rw [if_neg hquantum]
        exact h₁.setNeedResched _ _
    · rw [if_neg hready]
      by_cases hidle : (s₁.rq c).curr = (s₁.rq c).idle
      · rw [if_pos hidle]
        obtain ⟨hlocal, hcpu⟩ :=
          (parted_of_idle h₁ hleaving hidle hready).switchTo quantumTicks now
        exact h₁.of_local hlocal ((failed_switchTo _ _).trans h₁.ok) hcpu
      · rw [if_neg hidle]
        by_cases hstay : rotate = false ∧ (s₁.task (s₁.rq c).curr).needResched = false
        · rwa [if_pos hstay]
        · rw [if_neg hstay]
          obtain ⟨hparted, hqueued, hfailed⟩ :=
            parted_of_rotated h₁ hleaving hstate hidle hready
          obtain ⟨hlocal, hcpu⟩ := hparted.switchTo quantumTicks now
          exact h₁.of_local (hqueued.trans hlocal) ((failed_switchTo _ _).trans hfailed) hcpu
  · rw [if_pos hstate]
    obtain ⟨hlocal, hcpu⟩ := (parted_of_sleeping h₁ hleaving hstate).switchTo quantumTicks now
    exact h₁.of_local ((local_setRq _ _ _).trans hlocal) ((failed_switchTo _ _).trans h₁.ok) hcpu

omit hleaving in
/-- The next task, on its own stack, gives the lock back. -/
theorem Inv.finishSwitch {prev : Fin T} (hleaving : (s.rq c).leaving = some prev) :
    Inv (finishSwitch s c prev) := by
  have hc := h.cpu c
  obtain ⟨hne, hcpu⟩ := hc.leaving prev hleaving
  unfold Sched.finishSwitch
  rw [if_neg hne]
  dsimp only
  have hlocal : Local c s (s.setTask prev { s.task prev with onCpu := false }) :=
    local_setTask hcpu hcpu
  refine h.of_local (hlocal.trans (local_setRq _ c _)) h.ok ?_
  rw [rq_setRq_self]
  refine hc.replace hcpu (fun _ _ => .rfl) (fun t ht => ?_) hc.nodup hc.count
    (fun heq => heq ▸ hc.idleState) (fun heq => absurd heq hne) (fun hin => (hc.ready prev hin).2)
    (hc.onRq prev hcpu) (by simp [hne]) nofun (hc.runnable prev hcpu)
  simp [hleaving, ht.symm]

theorem Inv.exit (hidle : (s.rq c).curr ≠ (s.rq c).idle) (sigpending kill : Bool) :
    Inv (exit quantumTicks s c sigpending kill now) := by
  unfold Sched.exit
  rw [if_neg hidle]
  have hzombie : Inv (s.setState (s.rq c).curr .zombie) :=
    h.setState nofun fun heq => absurd heq hidle
  exact hzombie.prepareSwitch hleaving _ _ _

end

theorem Inv.tick (c : Fin C) : Inv (tick quantumTicks s c now) := by
  unfold Sched.tick
  dsimp only
  split_ifs
  · exact h.setNeedResched _ _
  · exact h.deadline c _
  · exact h

end

end Switch

/-! ### The steps -/

section Step

variable {s : State C T} {idle : Fin C → Fin T}

/-- A new task is given a CPU, before it is published there. -/
theorem Inv.place (h : Inv s) (hcpu : (s.task t).cpu = none) (c : Fin C) :
    Inv (s.setTask t { s.task t with cpu := some c }) := by
  obtain ⟨hnew, honrq, honcpu⟩ := h.unplaced t hcpu
  have hother : ∀ d u, (s.task u).cpu = some d →
      (s.setTask t { s.task t with cpu := some c }).task u = s.task u := by
    intro d u hu
    apply task_setTask_of_ne
    rintro rfl
    rw [hcpu] at hu
    exact nomatch hu
  have hself : (s.setTask t { s.task t with cpu := some c }).task t =
      { s.task t with cpu := some c } := task_setTask_self _
  -- the new task is in no list and runs nowhere, so it satisfies what is said of a task
  have hcases : ∀ d u, ((s.setTask t { s.task t with cpu := some c }).task u).cpu = some d →
      u = t ∨ (s.task u).cpu = some d := by
    intro d u hu
    rcases eq_or_ne u t with rfl | hne
    · exact .inl rfl
    · rw [task_setTask_of_ne _ hne] at hu
      exact .inr hu
  have hready : ∀ d, t ∉ (s.rq d).readyList := by
    intro d hin
    have := ((h.cpu d).ready t hin).1
    rw [hcpu] at this
    exact nomatch this
  have hcurr : ∀ d, t ≠ (s.rq d).curr := by
    rintro d rfl
    have := (h.cpu d).currCpu
    rw [hcpu] at this
    exact nomatch this
  have hleaving : ∀ d, (s.rq d).leaving ≠ some t := by
    intro d heq
    have := ((h.cpu d).leaving t heq).2
    rw [hcpu] at this
    exact nomatch this
  refine ⟨h.ok, fun d => ?_, fun u hu => ?_⟩
  · have hc := h.cpu d
    rw [rq_setTask]
    constructor
    · rw [hother d _ hc.idleCpu]
      exact hc.idleCpu
    · rw [hother d _ hc.idleCpu]
      exact hc.idleState
    · rw [hother d _ hc.currCpu]
      exact hc.currCpu
    · rw [hother d _ hc.currCpu]
      exact hc.currState
    · intro u hu
      rw [hother d u (hc.ready u hu).1]
      exact hc.ready u hu
    · exact hc.nodup
    · intro u hu
      rcases hcases d u hu with rfl | hu
      · rw [hself]
        simp [honrq, hready d]
      · rw [hother d u hu]
        exact hc.onRq u hu
    · intro u hu
      rcases hcases d u hu with rfl | hu
      · rw [hself]
        simp [honcpu, hcurr d, hleaving d]
      · rw [hother d u hu]
        exact hc.onCpu u hu
    · intro u hu
      rw [hother d u (hc.leaving u hu).2]
      exact hc.leaving u hu
    · intro u hu hrun
      rcases hcases d u hu with rfl | hu
      · rw [hself] at hrun
        exact absurd (hnew.symm.trans hrun) nofun
      · rw [hother d u hu] at hrun
        exact hc.runnable u hu hrun
    · exact hc.count
  · rcases eq_or_ne u t with rfl | hne
    · rw [hself] at hu
      exact nomatch hu
    · rw [task_setTask_of_ne _ hne] at hu ⊢
      exact h.unplaced u hu

/-- The wake-ups that do not name `TASK_RUNNABLE`. -/
def Action.wakesSleeping : Action C T → Prop
  | .wake _ states => TaskState.runnable.isIn states = false
  | _ => True

/-- The masks of `sched_wake`, `sched_wake_signal` and `sched_resume` are such. -/
theorem runnable_isIn_callers (kill : Bool) : TaskState.runnable.isIn wakeStates = false ∧
      TaskState.runnable.isIn (wakeSignalStates kill) = false ∧
      TaskState.runnable.isIn resumeStates = false := by
  cases kill <;> decide

theorem locked_eq_some {t : State C T} (h : locked s c s' = some t) :
    (s.rq c).leaving = none ∧ s' = t := by
  unfold locked at h
  split_ifs at h with hfree
  exact ⟨Option.isNone_iff_eq_none.mp hfree, Option.some.inj h⟩

theorem Inv.step (h : Inv s) {quantumTicks : ℕ} {a : Action C T} (hmask : a.wakesSleeping)
    (hstep : step quantumTicks s a = some s') : Inv s' := by
  unfold Sched.step at hstep
  rw [if_neg (by rw [h.ok]; exact nofun)] at hstep
  cases a with
  | place t c =>
    obtain ⟨hnew, rfl⟩ := ite_eq_some.mp hstep
    exact h.place hnew.2 c
  | publish t =>
    simp only at hstep
    split at hstep
    · split_ifs at hstep with hnew
      obtain ⟨-, rfl⟩ := locked_eq_some hstep
      exact h.publish (by assumption) hnew
    · exact nomatch hstep
  | wake t states =>
    simp only at hstep
    split at hstep
    · obtain ⟨hleaving, rfl⟩ := locked_eq_some hstep
      exact h.wakeTask (by assumption) hleaving hmask
    · exact nomatch hstep
  | setSleep c state =>
    simp only at hstep
    split_ifs at hstep with hsleep
    obtain ⟨-, rfl⟩ := locked_eq_some hstep
    unfold setSleep
    rw [if_pos hsleep]
    apply h.setState
    · rcases hsleep.2 with rfl | rfl | rfl <;> exact nofun
    · exact fun heq => absurd heq hsleep.1
  | stop c stopPending =>
    simp only at hstep
    split_ifs at hstep with hidle
    obtain ⟨-, rfl⟩ := locked_eq_some hstep
    unfold stop
    split_ifs
    · exact h.setState nofun fun heq => absurd heq hidle
    · exact h
  | tick c now =>
    obtain ⟨-, rfl⟩ := locked_eq_some hstep
    exact h.tick c
  | switch c rotate sigpending kill now =>
    obtain ⟨hleaving, rfl⟩ := locked_eq_some hstep
    exact h.prepareSwitch hleaving _ _ _
  | finish c =>
    obtain ⟨prev, hleaving, rfl⟩ := Option.map_eq_some_iff.mp hstep
    exact h.finishSwitch hleaving
  | exit c sigpending kill now =>
    simp only at hstep
    split_ifs at hstep with hidle
    obtain ⟨hleaving, rfl⟩ := locked_eq_some hstep
    exact h.exit hleaving hidle _ _

theorem boot_idle (hidle : Function.Injective idle) (c : Fin C) :
    (boot idle).task (idle c) = ⟨some c, .runnable, false, true, false⟩ := by
  unfold boot
  dsimp only
  have hfind : (List.finRange C).find? (fun d => decide (idle d = idle c)) = some c := by
    cases hfound : (List.finRange C).find? fun d => decide (idle d = idle c) with
    | none =>
      have := List.find?_eq_none.mp hfound c (List.mem_finRange c)
      simp at this
    | some d =>
      have := List.find?_some hfound
      rw [decide_eq_true_eq] at this
      rw [hidle this]
  rw [hfind]

theorem boot_other (ht : ∀ c, idle c ≠ t) :
    (boot idle).task t = ⟨none, .new, false, false, false⟩ := by
  unfold boot
  dsimp only
  have hfind : (List.finRange C).find? (fun d => decide (idle d = t)) = none := by
    apply List.find?_eq_none.mpr
    intro c _
    simp [ht c]
  rw [hfind]

theorem inv_boot (hidle : Function.Injective idle) : Inv (boot idle) := by
  have hcpu : ∀ c t, ((boot idle).task t).cpu = some c → t = idle c := by
    intro c t ht
    by_cases hex : ∃ d, idle d = t
    · obtain ⟨d, rfl⟩ := hex
      rw [boot_idle hidle] at ht
      rw [Option.some.inj ht]
    · rw [boot_other (not_exists.mp hex)] at ht
      exact nomatch ht
  refine ⟨rfl, fun c => ?_, fun t ht => ?_⟩
  · have hrq : (boot idle).rq c = ⟨idle c, idle c, [], 0, 0, none⟩ := rfl
    rw [hrq]
    constructor <;> dsimp only
    · rw [boot_idle hidle]
    · rw [boot_idle hidle]
    · rw [boot_idle hidle]
    · rw [boot_idle hidle]
      exact nofun
    · exact fun t ht => nomatch ht
    · exact List.nodup_nil
    · intro t ht
      rw [hcpu c t ht, boot_idle hidle]
      simp
    · intro t ht
      rw [hcpu c t ht, boot_idle hidle]
      simp
    · exact fun t ht => nomatch ht
    · exact fun t ht _ => .inl (hcpu c t ht)
    · simp
  · by_cases hex : ∃ d, idle d = t
    · obtain ⟨d, rfl⟩ := hex
      rw [boot_idle hidle] at ht
      exact nomatch ht
    · rw [boot_other (not_exists.mp hex)]
      exact ⟨rfl, rfl, rfl⟩

end Step

/-! ### Run queues whose lock is free -/

/-- The run queue of `c` is consistent with its tasks. -/
structure QueueOk (s : State C T) (c : Fin C) : Prop where
  /-- A task that can run is the current task or once in the list, and of this CPU only. -/
  runnable : ∀ t, (s.task t).cpu = some c → (s.task t).state = .runnable → t ≠ (s.rq c).idle →
    (t = (s.rq c).curr ∧ t ∉ (s.rq c).readyList ∨
      t ≠ (s.rq c).curr ∧ (s.rq c).readyList.count t = 1) ∧
    ∀ d ≠ c, t ≠ (s.rq d).curr ∧ t ∉ (s.rq d).readyList
  /-- `on_rq` marks the tasks of the list, and `on_cpu` the current one. -/
  onRq : ∀ t, (s.task t).cpu = some c → ((s.task t).onRq = true ↔ t ∈ (s.rq c).readyList)
  onCpu : ∀ t, (s.task t).cpu = some c → ((s.task t).onCpu = true ↔ t = (s.rq c).curr)
  home : (s.task (s.rq c).curr).cpu = some c ∧ ∀ t ∈ (s.rq c).readyList, (s.task t).cpu = some c
  idle : (s.rq c).idle ∉ (s.rq c).readyList
  count : (s.rq c).nrRunnable =
    (s.rq c).readyList.length + if (s.rq c).curr = (s.rq c).idle then 0 else 1

theorem Inv.queueOk (h : Inv s) (hfree : (s.rq c).leaving = none) : QueueOk s c := by
  have hc := h.cpu c
  constructor
  · intro t ht hrun hidle
    refine ⟨?_, fun d hd => ⟨?_, ?_⟩⟩
    · rcases hc.runnable t ht hrun with heq | heq | hin
      · exact absurd heq hidle
      · exact .inl ⟨heq, fun hin => (hc.ready t hin).2.2.1 heq⟩
      · exact .inr ⟨(hc.ready t hin).2.2.1, List.count_eq_one_of_mem hc.nodup hin⟩
    · rintro rfl
      exact hd (Option.some.inj ((h.cpu d).currCpu.symm.trans ht))
    · intro hin
      exact hd (Option.some.inj (((h.cpu d).ready t hin).1.symm.trans ht))
  · exact hc.onRq
  · intro t ht
    rw [hc.onCpu t ht, hfree]
    simp
  · exact ⟨hc.currCpu, fun t ht => (hc.ready t ht).1⟩
  · exact fun hin => (hc.ready _ hin).2.2.2 rfl
  · exact hc.count

/-- No assertion fails, every task that can run has a CPU, and each run queue whose lock is
free is consistent, for any interleaving of the sections. -/
theorem queueOk_of_reachable {quantumTicks : ℕ} {idle : Fin C → Fin T}
    (hidle : Function.Injective idle) {s : State C T} (h : Reachable (· = boot idle)
      (Guarded (Graph (step quantumTicks)) fun _ a => a.wakesSleeping) s) : s.failed = false ∧
      (∀ t, (s.task t).state = .runnable → ∃ c, (s.task t).cpu = some c) ∧
      ∀ c, (s.rq c).leaving = none → QueueOk s c := by
  have hinv : Inv s := by
    apply h.invariant
    · rintro s rfl
      exact inv_boot hidle
    · exact fun s a t hs hstep => hs.step hstep.1 hstep.2
  refine ⟨hinv.ok, fun t ht => ?_, fun c hfree => hinv.queueOk hfree⟩
  by_contra hcpu
  have hnone : (s.task t).cpu = none := by
    rw [Option.eq_none_iff_forall_ne_some]
    exact fun c heq => hcpu ⟨c, heq⟩
  have hnew := (hinv.unplaced t hnone).1
  rw [ht] at hnew
  exact nomatch hnew

/-- Two tasks on one CPU: the first runs and sleeps, the second takes over, and the first
is woken. -/
def sleepRun : List (Action 1 3) :=
  [.place 1 0, .publish 1, .place 2 0, .publish 2, .switch 0 false false false 0, .finish 0,
    .setSleep 0 .interruptible, .switch 0 false false false 5, .finish 0, .wake 1 wakeStates]

theorem wakesSleeping_sleepRun : ∀ a ∈ sleepRun, a.wakesSleeping := by
  intro a ha
  simp only [sleepRun, List.mem_cons, List.not_mem_nil, or_false] at ha
  rcases ha with rfl | rfl | rfl | rfl | rfl | rfl | rfl | rfl | rfl | rfl
  case inr.inr.inr.inr.inr.inr.inr.inr.inr => exact (runnable_isIn_callers false).1
  all_goals trivial

theorem queueOk_sleepRun : ∃ s : State 1 3, exec (step 10) (boot fun _ => 0) sleepRun = some s ∧
      ((s.rq 0).curr, (s.rq 0).readyList) = (2, [1]) ∧ s.failed = false ∧
      (∀ t, (s.task t).state = .runnable → ∃ c, (s.task t).cpu = some c) ∧
      ∀ c, (s.rq c).leaving = none → QueueOk s c := by
  have hrun : ((exec (step 10) (boot fun _ => 0) sleepRun).map
      fun s => ((s.rq 0).curr, (s.rq 0).readyList)) = some (2, [1]) := by
    decide +kernel
  obtain ⟨s, hs, hqueue⟩ := Option.map_eq_some_iff.mp hrun
  have hreach : Reachable (· = boot fun _ => 0)
      (Guarded (Graph (step 10)) fun _ a => a.wakesSleeping) s :=
    Reachable.exec_guarded (fun a ha _ => wakesSleeping_sleepRun a ha) (.init rfl) hs
  have hidle : Function.Injective fun _ : Fin 1 => (0 : Fin 3) :=
    Function.injective_of_subsingleton _
  exact ⟨s, hs, hqueue, queueOk_of_reachable hidle hreach⟩

/-- A wake-up that names `TASK_RUNNABLE` enqueues a task that is in the list already. -/
theorem wake_runnable_fails : ∃ s : State 1 2,
    Reachable (· = boot fun _ : Fin 1 => 0) (Graph (step 10)) s ∧ s.failed = true := by
  have hrun : ((exec (step 10) (boot fun _ : Fin 1 => 0)
      [.place 1 0, .publish 1, .wake 1 TaskState.runnable.bit]).map
        fun s : State 1 2 => s.failed) = some true := by decide +kernel
  obtain ⟨s, hs, hfailed⟩ := Option.map_eq_some_iff.mp hrun
  exact ⟨s, Reachable.exec (.init rfl) hs, hfailed⟩

end Nuvix.Sched
