import Nuvix.Kernel.PidSections

/-!
# What one section does to the hash table and to the references

A function of `kernel/pid.c` that neither allocates nor frees a number moves tasks
between lists and references between slots and callers. Two facts about each of them
are enough for the tables as a whole: the hash table still holds exactly the objects
with a task on some list, and an object has a reference afterwards if and only if it
had one before.
-/

namespace Nuvix.PidTable

open Transition Function

variable {s s' s'' : State} {t u p q : ℕ} {ty : PidType} {f : Task → Task} {members : List ℕ}
  {child : ℕ}

/-! ### The hash table -/

/-- Some list of the object is not empty. -/
def Listed (s : State) (p : ℕ) : Prop := ∃ ty, (s.pid p).tasks ty ≠ []

/-- The hash table holds the listed objects, except that `q` may be left in it. -/
structure HashedBut (s : State) (q : ℕ) : Prop where
  nodup : s.pidTable.Nodup
  mem : ∀ p, Listed s p → p ∈ s.pidTable
  listed : ∀ p ≠ q, p ∈ s.pidTable → Listed s p

/-- The hash table holds exactly the listed objects. -/
structure Hashed (s : State) : Prop where
  nodup : s.pidTable.Nodup
  mem_iff : ∀ p, p ∈ s.pidTable ↔ Listed s p

theorem Hashed.of_eq (h : Hashed s) (htable : s'.pidTable = s.pidTable)
    (htasks : ∀ p, (s'.pid p).tasks = (s.pid p).tasks) : Hashed s' := by
  refine ⟨htable ▸ h.nodup, fun p => ?_⟩
  rw [htable, h.mem_iff]
  unfold Listed
  rw [htasks]

theorem Hashed.modTask (h : Hashed s) : Hashed (modTask s t f) :=
  h.of_eq rfl fun _ => rfl

theorem listed_hlistDel (hl : Listed (hlistDel s t ty p) q) : Listed s q := by
  obtain ⟨ty', hne⟩ := hl
  obtain ⟨u, hu⟩ := List.exists_mem_of_ne_nil _ hne
  exact ⟨ty', List.ne_nil_of_mem (mem_hlistDel_tasks.mp hu).1⟩

theorem listed_hlistDel_of_ne (hq : q ≠ p) (hl : Listed s q) : Listed (hlistDel s t ty p) q := by
  obtain ⟨ty', hne⟩ := hl
  obtain ⟨u, hu⟩ := List.exists_mem_of_ne_nil _ hne
  exact ⟨ty', List.ne_nil_of_mem (mem_hlistDel_tasks.mpr ⟨hu, fun ⟨_, hqp, _⟩ => hq hqp⟩)⟩

theorem listed_hlistAdd : Listed (hlistAdd s t ty p) q ↔ Listed s q ∨ q = p := by
  constructor
  · rintro ⟨ty', hne⟩
    obtain ⟨u, hu⟩ := List.exists_mem_of_ne_nil _ hne
    rcases mem_hlistAdd_tasks.mp hu with hu | ⟨-, hqp, -⟩
    · exact .inl ⟨ty', List.ne_nil_of_mem hu⟩
    · exact .inr hqp
  · rintro (⟨ty', hne⟩ | rfl)
    · obtain ⟨u, hu⟩ := List.exists_mem_of_ne_nil _ hne
      exact ⟨ty', List.ne_nil_of_mem (mem_hlistAdd_tasks.mpr (.inl hu))⟩
    · exact ⟨ty, List.ne_nil_of_mem (mem_hlistAdd_tasks.mpr (.inr ⟨rfl, rfl, rfl⟩))⟩

/-- `hlist_del` may leave the object hashed with empty lists. -/
theorem Hashed.hlistDel (h : Hashed s) : HashedBut (hlistDel s t ty p) p where
  nodup := h.nodup
  mem := fun q hq => (h.mem_iff q).mpr (listed_hlistDel hq)
  listed := fun q hqp hq => listed_hlistDel_of_ne hqp ((h.mem_iff q).mp hq)

/-- `hlist_add_head` on a hashed object. -/
theorem HashedBut.hlistAdd (h : HashedBut s q) (hp : p ∈ s.pidTable) :
    HashedBut (hlistAdd s t ty p) q where
  nodup := h.nodup
  mem := by
    intro r hr
    rcases listed_hlistAdd.mp hr with hr | rfl
    · exact h.mem r hr
    · exact hp
  listed := fun r hrq hr => listed_hlistAdd.mpr (.inl (h.listed r hrq hr))

/-- `unhash_unused_pid` removes the object if nothing is left on its lists. -/
theorem HashedBut.unhashUnusedPid (h : HashedBut s q) : Hashed (unhashUnusedPid s q) := by
  have hlisted : ∀ r, Listed (PidTable.unhashUnusedPid s q) r ↔ Listed s r := by
    intro r
    unfold Listed
    rw [unhashUnusedPid_pid]
  by_cases hempty : ∀ ty ∈ PidType.all, (s.pid q).tasks ty = []
  · have htable : (PidTable.unhashUnusedPid s q).pidTable = s.pidTable.erase q := by
      unfold PidTable.unhashUnusedPid
      rw [if_pos hempty]
    refine ⟨htable ▸ h.nodup.erase q, fun r => ?_⟩
    rw [htable, hlisted, h.nodup.mem_erase_iff]
    constructor
    · rintro ⟨hrq, hr⟩
      exact h.listed r hrq hr
    · intro hr
      refine ⟨?_, h.mem r hr⟩
      rintro rfl
      obtain ⟨ty, hty⟩ := hr
      exact hty (hempty ty (PidType.mem_all ty))
  · have hsame : PidTable.unhashUnusedPid s q = s := by
      unfold PidTable.unhashUnusedPid
      rw [if_neg hempty]
    rw [hsame]
    refine ⟨h.nodup, fun r => ⟨fun hr => ?_, h.mem r⟩⟩
    by_cases hrq : r = q
    · subst hrq
      push Not at hempty
      obtain ⟨ty, -, hty⟩ := hempty
      exact ⟨ty, hty⟩
    · exact h.listed r hrq hr

/-- One round of `pid_publish` hashes the object before it lists the task. -/
theorem Hashed.publishType (h : Hashed s) : Hashed (publishType s t ty) := by
  unfold PidTable.publishType
  dsimp only
  set p := (s.task t).pids ty
  by_cases hp : p ∈ s.pidTable
  · rw [if_pos hp]
    refine ⟨h.nodup, fun q => ?_⟩
    rw [listed_hlistAdd]
    change q ∈ s.pidTable ↔ _
    rw [h.mem_iff]
    refine ⟨.inl, ?_⟩
    rintro (hq | rfl)
    · exact hq
    · exact (h.mem_iff p).mp hp
  · rw [if_neg hp]
    refine ⟨List.nodup_cons.mpr ⟨hp, h.nodup⟩, fun q => ?_⟩
    rw [listed_hlistAdd]
    change q ∈ p :: s.pidTable ↔ Listed s q ∨ q = p
    rw [List.mem_cons, h.mem_iff, or_comm]

theorem Hashed.pidPublish (h : Hashed s) : Hashed (pidPublish s t) :=
  List.foldlRecOn _ _ h fun _ hs _ _ => hs.publishType

theorem Hashed.pidUnpublish (h : Hashed s) : Hashed (pidUnpublish s t) :=
  List.foldlRecOn _ _ h fun _ hs _ _ => hs.hlistDel.unhashUnusedPid

/-- `change_pid` into a hashed object, which stays hashed. -/
theorem Hashed.changePid (h : Hashed s) (hp : p ∈ s.pidTable) :
    Hashed (changePid s t ty p) ∧ p ∈ (changePid s t ty p).pidTable := by
  have hadd : HashedBut (hlistAdd (PidTable.modTask (refcountInc (PidTable.hlistDel s t ty
      ((s.task t).pids ty)) p) t fun k => k.setPid ty p) t ty p) ((s.task t).pids ty) := by
    refine HashedBut.hlistAdd ?_ hp
    have hdel : HashedBut (PidTable.hlistDel s t ty ((s.task t).pids ty)) ((s.task t).pids ty) :=
      h.hlistDel
    refine ⟨hdel.nodup, fun q hq => hdel.mem q ?_, fun q hne hq => ?_⟩
    · simpa [Listed] using hq
    · simpa [Listed] using hdel.listed q hne hq
  have hhashed : Hashed (PidTable.changePid s t ty p) :=
    hadd.unhashUnusedPid.of_eq rfl fun q => by simp [PidTable.changePid]
  refine ⟨hhashed, (hhashed.mem_iff p).mpr ⟨ty, ?_⟩⟩
  exact List.ne_nil_of_mem ((mem_changePid_tasks _ _ _ _).mpr (.inr ⟨rfl, rfl, rfl⟩))

/-! ### References -/

/-- A slot of some task points at the object. -/
def Slotted (s : State) (q : ℕ) : Prop :=
  ∃ t ty, (s.task t).phase ≠ .free ∧ (s.task t).pids ty = q

/-- An object has references when a slot or a caller points at it. -/
theorem Wf.refcount_pos_iff (h : Wf s) : 0 < (s.pid q).refcount ↔ q ∈ s.held ∨ Slotted s q := by
  constructor
  · intro hq
    by_contra hnone
    rw [not_or] at hnone
    obtain ⟨D, -, hsum⟩ := h.refs
    have hslots : ∑ t ∈ D, slotCount (s.task t) q = 0 := by
      refine Finset.sum_eq_zero fun t _ => ?_
      by_cases hfree : (s.task t).phase = .free
      · exact slotCount_free hfree q
      · rw [slotCount_of_ne_free hfree, List.count_eq_zero]
        intro hmem
        obtain ⟨ty, -, hty⟩ := List.mem_map.mp hmem
        exact hnone.2 ⟨t, ty, hfree, hty⟩
    rw [hsum, hslots, List.count_eq_zero.mpr hnone.1] at hq
    exact absurd hq (by simp)
  · rintro (hheld | ⟨t, ty, hfree, rfl⟩)
    · exact h.held_pos hheld
    · exact h.slot_pos hfree ty

/-- A listed object is in a slot of a published task. -/
theorem Wf.listed_iff (h : Wf s) :
    Listed s q ↔ ∃ ty t, (s.task t).Published ∧ t ∈ (s.pid q).tasks ty := by
  constructor
  · rintro ⟨ty, hne⟩
    obtain ⟨t, ht⟩ := List.exists_mem_of_ne_nil _ hne
    exact ⟨ty, t, ((h.linked q ty t).mp ht).1, ht⟩
  · rintro ⟨ty, t, -, ht⟩
    exact ⟨ty, List.ne_nil_of_mem ht⟩

theorem Wf.refcount_pos_of_listed (h : Wf s) (hq : Listed s q) : 0 < (s.pid q).refcount := by
  obtain ⟨ty, t, -, ht⟩ := h.listed_iff.mp hq
  obtain ⟨hpub, heq⟩ := (h.linked q ty t).mp ht
  exact heq ▸ h.slot_pos hpub.ne_free ty

theorem Wf.listed_slot (h : Wf s) (ht : (s.task t).Published) (ty : PidType) :
    Listed s ((s.task t).pids ty) :=
  ⟨ty, List.ne_nil_of_mem ((h.linked _ ty t).mpr ⟨ht, rfl⟩)⟩

/-! ### Functions that neither allocate nor free a number -/

/-- The bitmap, the search position and the numbers of the objects are unchanged. -/
structure SameNumbers (s s' : State) : Prop where
  pidmap : s'.pidmap = s.pidmap
  nextPid : s'.nextPid = s.nextPid
  nr : ∀ q, (s'.pid q).nr = (s.pid q).nr

theorem SameNumbers.rfl' : SameNumbers s s := ⟨rfl, rfl, fun _ => rfl⟩

theorem SameNumbers.trans (h : SameNumbers s s') (h' : SameNumbers s' s'') : SameNumbers s s'' :=
  ⟨h'.pidmap.trans h.pidmap, h'.nextPid.trans h.nextPid, fun q => (h'.nr q).trans (h.nr q)⟩

/-- A loop whose rounds leave the numbers alone. -/
theorem SameNumbers.foldl {α : Type} {f : State → α → State} (hf : ∀ s a, SameNumbers s (f s a))
    (l : List α) (s : State) : SameNumbers s (l.foldl f s) := by
  induction l generalizing s with
  | nil => exact .rfl'
  | cons a l ih => exact (hf s a).trans (ih (f s a))

theorem unhashUnusedPid_nextPid : (unhashUnusedPid s p).nextPid = s.nextPid := by
  unfold unhashUnusedPid
  split <;> rfl

theorem sameNumbers_modTask : SameNumbers s (modTask s t f) :=
  ⟨rfl, rfl, fun _ => rfl⟩

theorem sameNumbers_changePid : SameNumbers s (changePid s t ty p) where
  pidmap := by simp
  nextPid := unhashUnusedPid_nextPid
  nr := fun q => by simp

theorem sameNumbers_publishType : SameNumbers s (publishType s t ty) where
  pidmap := publishType_relisted.pidmap
  nextPid := by
    unfold publishType
    dsimp only
    split <;> rfl
  nr := publishType_relisted.nr

theorem sameNumbers_pidUnpublish : SameNumbers s (pidUnpublish s t) := by
  refine SameNumbers.foldl (fun s ty => ?_) _ s
  exact ⟨by simp, unhashUnusedPid_nextPid, fun q => by simp⟩

/-- What a function that neither allocates nor frees a number may do with the
references: hand a slot over to its caller, or fill a slot with an object that some
slot already holds. -/
structure Moved (s s' : State) : Prop extends SameNumbers s s' where
  held : ∀ q ∈ s.held, q ∈ s'.held
  taken : ∀ q, q ∈ s'.held → q ∈ s.held ∨ Slotted s q
  slotted : ∀ q, Slotted s' q → Slotted s q
  kept : ∀ q, Slotted s q → Slotted s' q ∨ q ∈ s'.held

/-- Slots are redirected to objects in use, with a reference held on what they left. -/
theorem Moved.redirect (hn : SameNumbers s s')
    (hfree : ∀ u, (s'.task u).phase = .free ↔ (s.task u).phase = .free)
    (hpids : ∀ u ty, (s'.task u).pids ty = (s.task u).pids ty ∨
      (Slotted s ((s'.task u).pids ty) ∧ (s.task u).pids ty ∈ s'.held))
    (hheld : ∀ q ∈ s.held, q ∈ s'.held)
    (htaken : ∀ q, q ∈ s'.held → q ∈ s.held ∨ Slotted s q) : Moved s s' where
  toSameNumbers := hn
  held := hheld
  taken := htaken
  slotted := by
    rintro q ⟨u, ty, hu, rfl⟩
    rcases hpids u ty with heq | ⟨hslot, -⟩
    · exact ⟨u, ty, mt (hfree u).mpr hu, heq.symm⟩
    · exact hslot
  kept := by
    rintro q ⟨u, ty, hu, rfl⟩
    rcases hpids u ty with heq | ⟨-, hleft⟩
    · exact .inl ⟨u, ty, mt (hfree u).mp hu, heq⟩
    · exact .inr hleft

/-- The slots of existing tasks stay where they are. -/
theorem Moved.of_slots (hn : SameNumbers s s') (hheld : s'.held = s.held)
    (hfree : ∀ u, (s'.task u).phase = .free ↔ (s.task u).phase = .free)
    (hpids : ∀ u, (s'.task u).pids = (s.task u).pids) : Moved s s' :=
  .redirect hn hfree (fun u ty => .inl (congrFun (hpids u) ty)) (fun _ hq => hheld ▸ hq)
    fun _ hq => .inl (hheld ▸ hq)

/-- Replacing one task by one with the same slots. -/
theorem Moved.modTask (hphase : (f (s.task t)).phase = .free ↔ (s.task t).phase = .free)
    (hpids : (f (s.task t)).pids = (s.task t).pids) : Moved s (modTask s t f) := by
  refine .of_slots ⟨rfl, rfl, fun _ => rfl⟩ rfl (fun u => ?_) fun u => ?_
  · rw [modTask_task]
    split
    next hu => rw [hu, hphase]
    next => rfl
  · rw [modTask_task]
    split
    next hu => rw [hu, hpids]
    next => rfl

/-- `reparent_children` and the end of `task_exit`. -/
theorem moved_exit (ht : (s.task t).phase = .running) :
    Moved s (reparentChildren (modTask s t fun k => k.setPhase .zombie) t) := by
  have hat : ∀ u, (((reparentChildren (modTask s t fun k => k.setPhase .zombie) t).task u).phase =
      if u = t then .zombie else (s.task u).phase) ∧
      ((reparentChildren (modTask s t fun k => k.setPhase .zombie) t).task u).pids =
        (s.task u).pids := by
    intro u
    simp only [reparentChildren, modTask_task]
    by_cases hut : u = t
    · simp [hut]
    · by_cases hpar : (s.task u).parent = t <;> simp [hut, hpar]
  refine .of_slots ⟨rfl, rfl, fun _ => rfl⟩ rfl (fun u => ?_) fun u => (hat u).2
  rw [(hat u).1]
  split
  next hu => simp [hu, ht]
  next => rfl

/-- The second half of `sys_clone`. -/
theorem moved_publish (h : Wf s) (ht : (s.task t).phase = .forking child) :
    Moved s (publishChild s t child) := by
  have hc := h.fork t child ht
  have hnum : SameNumbers s (pidPublish (modTask s child fun k => k.setParent t) child) :=
    sameNumbers_modTask.trans (SameNumbers.foldl (fun _ _ => sameNumbers_publishType) _ _)
  have hat : ∀ u, (publishChild s t child).task u = publishTask s t child u :=
    congrFun (h.publish_wf ht).2
  refine .of_slots ?_ ?_ (fun u => ?_) fun u => ?_
  · unfold publishChild
    exact (hnum.trans sameNumbers_modTask).trans sameNumbers_modTask
  · exact (pidPublish_spec (modTask s child fun k => k.setParent t) child).1.held
  · rw [hat, publishTask, update_apply, update_apply]
    split
    next hu => simp [hu, ht]
    next =>
      split
      next hu => simp [hu, hc]
      next => rfl
  · rw [hat, publishTask, update_apply, update_apply]
    split
    next hu => rw [hu, setPhase_pids]
    next =>
      split
      next hu => rw [hu, setPhase_pids, setParent_pids]
      next => rfl

/-- `pid_unpublish`, called by `sys_wait4`. -/
theorem moved_reap (hc : (s.task child).phase = .zombie) :
    Moved s (modTask (pidUnpublish s child) child fun k =>
      (k.setPhase .reaped).setParent child) := by
  obtain ⟨htask, hheld, -⟩ := (pidUnpublish_spec s child).1
  refine .of_slots (sameNumbers_pidUnpublish.trans sameNumbers_modTask) ?_ (fun u => ?_)
    fun u => ?_
  · rw [modTask_held, hheld]
  · rw [modTask_task, htask]
    split
    next hu => simp [hu, hc]
    next => rfl
  · rw [modTask_task, htask]
    split
    next hu => rw [hu, setParent_pids, setPhase_pids]
    next => rfl

/-- The final `task_put` hands the four slots over to its own loop. -/
theorem moved_taskPut (ht : (s.task t).phase = .reaped) : Moved s (taskPut s t) := by
  have hat : ∀ u, (taskPut s t).task u = if u = t then (s.task t).setPhase .free else s.task u :=
    fun u => by simp [taskPut, update_apply]
  have hmem : ∀ q, q ∈ (taskPut s t).held ↔ (∃ ty, (s.task t).pids ty = q) ∨ q ∈ s.held := by
    intro q
    simp [taskPut]
  refine ⟨⟨rfl, rfl, fun _ => rfl⟩, fun q hq => (hmem q).mpr (.inr hq), fun q hq => ?_, ?_, ?_⟩
  · rcases (hmem q).mp hq with ⟨ty, heq⟩ | hq
    · exact .inr ⟨t, ty, by simp [ht], heq⟩
    · exact .inl hq
  · rintro q ⟨u, ty, hu, heq⟩
    rw [hat] at hu heq
    split at hu
    next => exact absurd rfl hu
    next hut =>
      rw [if_neg hut] at heq
      exact ⟨u, ty, hu, heq⟩
  · rintro q ⟨u, ty, hu, heq⟩
    by_cases hut : u = t
    · exact .inr ((hmem q).mpr (.inl ⟨ty, hut ▸ heq⟩))
    · refine .inl ⟨u, ty, ?_, ?_⟩
      · rwa [hat, if_neg hut]
      · rwa [hat, if_neg hut]

/-! ### `sys_setpgid` and `pid_setsid` -/

/-- `refcount_inc` for a reference the caller keeps across the unlock. -/
theorem Hashed.hold (h : Hashed s) : Hashed { refcountInc s p with held := p :: s.held } :=
  h.of_eq rfl fun _ => refcountInc_tasks

theorem sameNumbers_hold : SameNumbers s { refcountInc s p with held := p :: s.held } :=
  ⟨rfl, rfl, fun _ => refcountInc_nr⟩

/-- The loop of `sys_setpgid`. -/
theorem Hashed.joinGroup (h : Hashed s) (hp : p ∈ s.pidTable) : Hashed (joinGroup s t p) := by
  unfold PidTable.joinGroup
  by_cases heq : (s.task t).pids .pgid = p
  · rw [if_pos heq]
    exact h.hold
  · rw [if_neg heq]
    refine (List.foldlRecOn (motive := fun s => Hashed s ∧ p ∈ s.pidTable) _ _ ⟨h.hold, hp⟩ ?_).1
    intro s hs member _
    exact hs.1.changePid hs.2

theorem sameNumbers_joinGroup : SameNumbers s (joinGroup s t p) := by
  unfold joinGroup
  dsimp only
  split
  · exact sameNumbers_hold
  · exact sameNumbers_hold.trans (SameNumbers.foldl (fun _ _ => sameNumbers_changePid) _ _)

theorem joinGroup_held : (joinGroup s t p).held = (s.task t).pids .pgid :: s.held := by
  unfold joinGroup
  dsimp only
  split
  · rfl
  · refine List.foldlRecOn (motive := fun s' : State => s'.held = _) _ _ rfl ?_
    intro s' hs member _
    rw [changePid_held, hs]

theorem moved_joinGroup (h : Wf s) (ht : (s.task t).Published) (hp : Slotted s p) :
    Moved s (joinGroup s t p) := by
  have htask := (h.joinGroup ht (h.refcount_pos_iff.mpr (.inr hp))).2
  refine .redirect sameNumbers_joinGroup (fun u => ?_) (fun u ty => ?_) (fun q hq => ?_)
    fun q hq => ?_
  · rw [htask, update_apply]
    split
    next hu => rw [hu]; rfl
    next => rfl
  · rw [htask, update_apply, joinGroup_held]
    split
    next hu =>
      subst hu
      by_cases hty : ty = .pgid
      · subst hty
        refine .inr ⟨?_, by simp⟩
        simpa [Task.setPid] using hp
      · exact .inl (by simp [Task.setPid, hty])
    next => exact .inl rfl
  · rw [joinGroup_held]
    exact List.mem_cons_of_mem _ hq
  · rw [joinGroup_held] at hq
    rcases List.mem_cons.mp hq with rfl | hq
    · exact .inr ⟨t, .pgid, ht.ne_free, rfl⟩
    · exact .inl hq

/-- The state in which the loop of `pid_setsid` starts: both old objects are held. -/
def holdOld (s : State) (t : ℕ) : State :=
  let s₁ : State :=
    { refcountInc s ((s.task t).pids .pgid) with held := (s.task t).pids .pgid :: s.held }
  { refcountInc s₁ ((s.task t).pids .sid) with held := (s.task t).pids .sid :: s₁.held }

/-- The loop of `pid_setsid`. -/
def foundSession (s : State) (members : List ℕ) (tgid : ℕ) : State :=
  members.foldl (fun s m => changePid (changePid s m .pgid tgid) m .sid tgid) s

theorem pidSetsid_eq (hok : pidSetsid s t = .ok s') :
    ∃ members, s' = foundSession (holdOld s t) members ((s.task t).pids .tgid) := by
  unfold pidSetsid at hok
  dsimp only at hok
  split at hok
  · cases hok
  · exact ⟨_, (Except.ok.inj hok).symm⟩

theorem Hashed.foundSession (h : Hashed s) (hp : p ∈ s.pidTable) (members : List ℕ) :
    Hashed (foundSession s members p) := by
  refine (List.foldlRecOn (motive := fun s => Hashed s ∧ p ∈ s.pidTable) _ _ ⟨h, hp⟩ ?_).1
  intro s hs m _
  have hgroup : Hashed (PidTable.changePid s m .pgid p) ∧
      p ∈ (PidTable.changePid s m .pgid p).pidTable := hs.1.changePid hs.2
  exact hgroup.1.changePid hgroup.2

theorem sameNumbers_foundSession : SameNumbers s (foundSession s members p) :=
  SameNumbers.foldl (fun _ _ => sameNumbers_changePid.trans sameNumbers_changePid) _ _

theorem foundSession_held : (foundSession s members p).held = s.held := by
  refine List.foldlRecOn (motive := fun s' : State => s'.held = s.held) _ _ rfl ?_
  intro s' hs m _
  rw [changePid_held, changePid_held, hs]

theorem moved_pidSetsid (h : Wf s) (ht : (s.task t).Published) (hok : pidSetsid s t = .ok s') :
    Moved s s' := by
  obtain ⟨-, -, -, htask⟩ := h.pidSetsid_ok ht hok
  obtain ⟨members, heq⟩ := pidSetsid_eq hok
  have hnum : SameNumbers s s' :=
    heq ▸ (sameNumbers_hold.trans sameNumbers_hold).trans sameNumbers_foundSession
  have hheld : s'.held = (s.task t).pids .sid :: (s.task t).pids .pgid :: s.held := by
    rw [heq, foundSession_held]
    rfl
  refine .redirect hnum (fun u => ?_) (fun u ty => ?_) (fun q hq => ?_) fun q hq => ?_
  · rw [htask, update_apply]
    split
    next hu => rw [hu]; rfl
    next => rfl
  · rw [htask, update_apply, hheld]
    split
    next hu =>
      subst hu
      have htgid : Slotted s ((s.task u).pids .tgid) := ⟨u, .tgid, ht.ne_free, rfl⟩
      cases ty with
      | tid | tgid => exact .inl rfl
      | pgid | sid => exact .inr ⟨htgid, by simp⟩
    next => exact .inl rfl
  · rw [hheld]
    exact List.mem_cons_of_mem _ (List.mem_cons_of_mem _ hq)
  · rw [hheld, List.mem_cons, List.mem_cons] at hq
    rcases hq with rfl | rfl | hq
    · exact .inr ⟨t, .sid, ht.ne_free, rfl⟩
    · exact .inr ⟨t, .pgid, ht.ne_free, rfl⟩
    · exact .inl hq

theorem Hashed.pidSetsid (h : Hashed s) (hwf : Wf s) (ht : (s.task t).Published)
    (hok : pidSetsid s t = .ok s') : Hashed s' := by
  obtain ⟨members, heq⟩ := pidSetsid_eq hok
  have htgid := (h.mem_iff _).mpr (hwf.listed_slot ht .tgid)
  exact heq ▸ h.hold.hold.foundSession htgid members

/-- The target of a successful `sys_setpgid` is a slot of a published task. -/
theorem exists_published_slot {pgrp : ℕ} (ht : (s.task t).Published)
    (hp : pgrp = (s.task t).pids .tgid ∨
      ∃ member, (s.task member).Published ∧ (s.task member).pids .pgid = pgrp ∧
        (s.task member).pids .sid = (s.task t).pids .sid) :
    ∃ u ty, (s.task u).Published ∧ (s.task u).pids ty = pgrp := by
  rcases hp with rfl | ⟨member, hpub, heq, -⟩
  · exact ⟨t, .tgid, ht, rfl⟩
  · exact ⟨member, .pgid, hpub, heq⟩

/-- A function that is one section neither allocates nor frees a number and leaves the
hash table right. -/
theorem step_whole {e : Event} (h : Wf s) (hh : Hashed s) (he : e.isWhole)
    (hstep : step s e = some s') : Moved s s' ∧ Hashed s' := by
  have hrefl : Moved s s := .of_slots .rfl' rfl (fun _ => .rfl) fun _ => rfl
  cases e with
  | fork => cases he
  | put => cases he
  | publish t =>
    simp only [step] at hstep
    split at hstep
    next child ht =>
      cases hstep
      refine ⟨moved_publish h ht, ?_⟩
      have hpublished : Hashed (pidPublish (modTask s child fun k => k.setParent t) child) :=
        hh.modTask.pidPublish
      unfold publishChild
      exact hpublished.modTask.modTask
    next => cases hstep
  | setpgid t nr pgid =>
    simp only [step] at hstep
    split at hstep
    · split at hstep
      · cases hstep
        exact ⟨hrefl, hh⟩
      next s₁ hok =>
        cases hstep
        obtain ⟨task, pgrp, hpub, -, htarget, rfl⟩ := sysSetpgid_ok h hok
        obtain ⟨u, ty, hu, rfl⟩ := exists_published_slot hpub htarget
        refine ⟨moved_joinGroup h hpub ⟨u, ty, hu.ne_free, rfl⟩, ?_⟩
        exact hh.joinGroup ((hh.mem_iff _).mpr (h.listed_slot hu ty))
    · cases hstep
  | setsid t =>
    simp only [step] at hstep
    split at hstep
    next ht =>
      split at hstep
      · cases hstep
        exact ⟨hrefl, hh⟩
      next s₁ hok =>
        cases hstep
        have hpub : (s.task t).Published := by simp [Task.Published, ht]
        exact ⟨moved_pidSetsid h hpub hok, hh.pidSetsid h hpub hok⟩
    next => cases hstep
  | execve t =>
    simp only [step] at hstep
    split at hstep
    · cases hstep
      exact ⟨.modTask .rfl rfl, hh.modTask⟩
    · cases hstep
  | exit t =>
    simp only [step] at hstep
    split at hstep
    next hen =>
      cases hstep
      exact ⟨moved_exit hen.1, hh.of_eq rfl fun _ => rfl⟩
    next => cases hstep
  | reap t child =>
    simp only [step] at hstep
    split at hstep
    next hen =>
      cases hstep
      exact ⟨moved_reap hen.2.1, hh.pidUnpublish.modTask⟩
    next => cases hstep
  | taskPut t =>
    simp only [step] at hstep
    split at hstep
    next ht =>
      cases hstep
      exact ⟨moved_taskPut ht, hh.of_eq rfl fun _ => rfl⟩
    next => cases hstep

end Nuvix.PidTable
