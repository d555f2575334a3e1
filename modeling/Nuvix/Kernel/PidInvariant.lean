import Nuvix.Kernel.Pid

/-!
# The identifier tables are well formed

What one atomic step of `kernel/pid.c` keeps: live objects have distinct numbers,
a reference count is exactly the number of task slots and callers that point at
the object, and the four lists of an object are the published tasks that use it.
-/

namespace Nuvix.PidTable

open Function Transition

variable {s s' : State} {t u p q child nr : ℕ} {ty ty' : PidType} {k : Task} {f : Task → Task}

/-! ### What each update changes -/

/-- A field that the change of one object leaves alone is unchanged in all of them. -/
theorem modPid_pid {α : Type} {f : Pid → Pid} (g : Pid → α) (hg : ∀ o, g (f o) = g o) :
    g ((modPid s p f).pid q) = g (s.pid q) := by
  by_cases h : q = p
  · subst h
    simp [modPid, hg]
  · simp [modPid, h]

@[simp] theorem refcountInc_task : (refcountInc s p).task = s.task := rfl
@[simp] theorem refcountInc_held : (refcountInc s p).held = s.held := rfl
@[simp] theorem refcountInc_pidmap : (refcountInc s p).pidmap = s.pidmap := rfl
@[simp] theorem refcountInc_nr : ((refcountInc s p).pid q).nr = (s.pid q).nr :=
  modPid_pid Pid.nr fun _ => rfl

@[simp] theorem refcountInc_tasks : ((refcountInc s p).pid q).tasks = (s.pid q).tasks :=
  modPid_pid Pid.tasks fun _ => rfl

theorem refcountInc_refcount :
    ((refcountInc s p).pid q).refcount = (s.pid q).refcount + if p = q then 1 else 0 := by
  by_cases h : q = p
  · subst h; simp [refcountInc, modPid]
  · simp [refcountInc, modPid, update_of_ne h, Ne.symm h]

@[simp] theorem refcountDec_task : (refcountDec s p).task = s.task := rfl
@[simp] theorem refcountDec_held : (refcountDec s p).held = s.held := rfl
@[simp] theorem refcountDec_pidmap : (refcountDec s p).pidmap = s.pidmap := rfl
@[simp] theorem refcountDec_nr : ((refcountDec s p).pid q).nr = (s.pid q).nr :=
  modPid_pid Pid.nr fun _ => rfl

@[simp] theorem refcountDec_tasks : ((refcountDec s p).pid q).tasks = (s.pid q).tasks :=
  modPid_pid Pid.tasks fun _ => rfl

theorem refcountDec_refcount :
    ((refcountDec s p).pid q).refcount = (s.pid q).refcount - if p = q then 1 else 0 := by
  by_cases h : q = p
  · subst h; simp [refcountDec, modPid]
  · simp [refcountDec, modPid, update_of_ne h, Ne.symm h]

@[simp] theorem hlistAdd_task : (hlistAdd s t ty p).task = s.task := rfl
@[simp] theorem hlistAdd_held : (hlistAdd s t ty p).held = s.held := rfl
@[simp] theorem hlistAdd_pidmap : (hlistAdd s t ty p).pidmap = s.pidmap := rfl

@[simp] theorem hlistAdd_nr : ((hlistAdd s t ty p).pid q).nr = (s.pid q).nr :=
  modPid_pid Pid.nr fun _ => rfl

@[simp] theorem hlistAdd_refcount : ((hlistAdd s t ty p).pid q).refcount = (s.pid q).refcount :=
  modPid_pid Pid.refcount fun _ => rfl

theorem mem_hlistAdd_tasks : u ∈ ((hlistAdd s t ty p).pid q).tasks ty' ↔
      u ∈ (s.pid q).tasks ty' ∨ (u = t ∧ q = p ∧ ty' = ty) := by
  by_cases h : q = p
  · subst h
    by_cases hty : ty' = ty
    · subst hty; simp [hlistAdd, modPid, or_comm]
    · simp [hlistAdd, modPid, hty]
  · simp [hlistAdd, modPid, h]

@[simp] theorem hlistDel_task : (hlistDel s t ty p).task = s.task := rfl
@[simp] theorem hlistDel_held : (hlistDel s t ty p).held = s.held := rfl
@[simp] theorem hlistDel_pidmap : (hlistDel s t ty p).pidmap = s.pidmap := rfl

@[simp] theorem hlistDel_nr : ((hlistDel s t ty p).pid q).nr = (s.pid q).nr :=
  modPid_pid Pid.nr fun _ => rfl

@[simp] theorem hlistDel_refcount : ((hlistDel s t ty p).pid q).refcount = (s.pid q).refcount :=
  modPid_pid Pid.refcount fun _ => rfl

theorem mem_hlistDel_tasks : u ∈ ((hlistDel s t ty p).pid q).tasks ty' ↔
      u ∈ (s.pid q).tasks ty' ∧ ¬ (u = t ∧ q = p ∧ ty' = ty) := by
  by_cases h : q = p
  · subst h
    by_cases hty : ty' = ty
    · subst hty; simp [hlistDel, modPid]
    · simp [hlistDel, modPid, hty]
  · simp [hlistDel, modPid, h]

@[simp] theorem unhashUnusedPid_pid : (unhashUnusedPid s p).pid = s.pid := by
  unfold unhashUnusedPid; split <;> rfl
@[simp] theorem unhashUnusedPid_task : (unhashUnusedPid s p).task = s.task := by
  unfold unhashUnusedPid; split <;> rfl
@[simp] theorem unhashUnusedPid_held : (unhashUnusedPid s p).held = s.held := by
  unfold unhashUnusedPid; split <;> rfl
@[simp] theorem unhashUnusedPid_pidmap : (unhashUnusedPid s p).pidmap = s.pidmap := by
  unfold unhashUnusedPid; split <;> rfl

@[simp] theorem setPhase_phase (k : Task) (a : Phase) : (k.setPhase a).phase = a := rfl
@[simp] theorem setPhase_pids (k : Task) (a : Phase) : (k.setPhase a).pids = k.pids := rfl

@[simp] theorem setParent_phase (k : Task) (a : ℕ) : (k.setParent a).phase = k.phase := rfl
@[simp] theorem setParent_pids (k : Task) (a : ℕ) : (k.setParent a).pids = k.pids := rfl

@[simp] theorem modTask_pid : (modTask s t f).pid = s.pid := rfl
@[simp] theorem modTask_held : (modTask s t f).held = s.held := rfl
@[simp] theorem modTask_pidmap : (modTask s t f).pidmap = s.pidmap := rfl

theorem modTask_task : (modTask s t f).task u = if u = t then f (s.task t) else s.task u := by
  simp [modTask, update_apply]


/-! ### The invariant -/

/-- How many of its four slots a task spends on the object `q`. -/
def slotCount (k : Task) (q : ℕ) : ℕ :=
  if k.phase = .free then 0 else (PidType.all.map k.pids).count q

/-- A count is the number of task slots and of held references to the object.
Only finitely many tasks exist, and `D` bounds them. -/
def RefsExact (s : State) : Prop :=
  ∃ D : Finset ℕ, (∀ t, t ∉ D → (s.task t).phase = .free) ∧
    ∀ q, (s.pid q).refcount = ∑ t ∈ D, slotCount (s.task t) q + s.held.count q

/-- The well-formedness of the identifier tables. -/
structure Wf (s : State) : Prop where
  nrInj : ∀ p q, 0 < (s.pid p).refcount → 0 < (s.pid q).refcount →
    (s.pid p).nr = (s.pid q).nr → p = q
  nrSet : ∀ p, 0 < (s.pid p).refcount → s.pidmap (s.pid p).nr = true
  refs : RefsExact s
  linked : ∀ q ty t, t ∈ (s.pid q).tasks ty ↔ (s.task t).Published ∧ (s.task t).pids ty = q
  tgid : ∀ t, (s.task t).phase ≠ .free → (s.task t).pids .tgid = (s.task t).pids .tid
  tidInj : ∀ t u, (s.task t).phase ≠ .free → (s.task u).phase ≠ .free →
    (s.task t).pids .tid = (s.task u).pids .tid → t = u
  fork : ∀ t c, (s.task t).phase = .forking c → (s.task c).phase = .prepared
  forkInj : ∀ t u c, (s.task t).phase = .forking c → (s.task u).phase = .forking c → t = u

theorem Task.Published.ne_free (h : k.Published) : k.phase ≠ .free := by
  intro hf
  simp [Task.Published, hf] at h

theorem slotCount_of_ne_free (h : k.phase ≠ .free) (q : ℕ) :
    slotCount k q = (PidType.all.map k.pids).count q := if_neg h

theorem slotCount_free (h : k.phase = .free) (q : ℕ) : slotCount k q = 0 := if_pos h

/-- A slot of an existing task keeps its object alive. -/
theorem Wf.slot_pos (h : Wf s) (ht : (s.task t).phase ≠ .free) (ty : PidType) :
    0 < (s.pid ((s.task t).pids ty)).refcount := by
  obtain ⟨D, hD, hcount⟩ := h.refs
  have hmem : t ∈ D := by
    by_contra hn
    exact ht (hD t hn)
  have hslot : 0 < slotCount (s.task t) ((s.task t).pids ty) := by
    rw [slotCount_of_ne_free ht, List.count_pos_iff]
    exact List.mem_map.mpr ⟨ty, PidType.mem_all ty, rfl⟩
  have hle := Finset.single_le_sum (f := fun u => slotCount (s.task u) ((s.task t).pids ty))
    (fun _ _ => Nat.zero_le _) hmem
  rw [hcount]
  omega

/-- A held reference keeps its object alive. -/
theorem Wf.held_pos (h : Wf s) (hp : p ∈ s.held) : 0 < (s.pid p).refcount := by
  obtain ⟨D, -, hcount⟩ := h.refs
  have := List.count_pos_iff.mpr hp
  rw [hcount]
  omega

/-- Replace one task: the slots of the others are counted as before. -/
theorem sum_slotCount_update {D : Finset ℕ} (ht : t ∈ D) (f : ℕ → Task) (k : Task) (q : ℕ) :
    ∑ u ∈ D, slotCount (update f t k u) q + slotCount (f t) q =
      ∑ u ∈ D, slotCount (f u) q + slotCount k q := by
  have hcomp : (fun u => slotCount (update f t k u) q) =
      update (fun u => slotCount (f u) q) t (slotCount k q) := by
    funext u
    by_cases hu : u = t
    · subst hu; simp
    · simp [hu]
  rw [hcomp, Finset.sum_update_of_mem ht, ← Finset.add_sum_erase D _ ht,
    Finset.sdiff_singleton_eq_erase]
  omega

/-- One entry of a table is replaced by one that has its key for itself. -/
theorem inj_update {α β : Type} {f : ℕ → α} {v : α} (P : α → Prop) (key : α → β)
    (h : ∀ a b, P (f a) → P (f b) → key (f a) = key (f b) → a = b)
    (hv : P v → ∀ b ≠ t, P (f b) → key (f b) ≠ key v) (a b : ℕ) :
    P (update f t v a) → P (update f t v b) →
      key (update f t v a) = key (update f t v b) → a = b := by
  by_cases hat : a = t <;> by_cases hbt : b = t
  · exact fun _ _ _ => hat.trans hbt.symm
  · rw [hat, update_self, update_of_ne hbt]
    exact fun ha hb hab => absurd hab.symm (hv ha b hbt hb)
  · rw [hbt, update_self, update_of_ne hat]
    exact fun ha hb hab => absurd hab (hv hb a hat ha)
  · rw [update_of_ne hat, update_of_ne hbt]
    exact h a b

/-- No slot points at an object without references. -/
theorem Wf.slot_ne (h : Wf s) (hp : (s.pid p).refcount = 0) (u : ℕ) (ty : PidType)
    (hu : (s.task u).phase ≠ .free) : (s.task u).pids ty ≠ p := by
  rintro rfl
  exact absurd (h.slot_pos hu ty) (by omega)

/-- Only a prepared task is being forked. -/
theorem Wf.not_forking (h : Wf s) (ht : (s.task t).phase ≠ .prepared) (u : ℕ) :
    (s.task u).phase ≠ .forking t := fun hu => ht (h.fork u t hu)

/-! ### One task is replaced -/

section Replace

variable (h : Wf s) (htask : s'.task = update s.task t k) (hmap : s'.pidmap = s.pidmap)
  (hnr : ∀ q, (s'.pid q).nr = (s.pid q).nr)
  (hlive : ∀ q, 0 < (s'.pid q).refcount → 0 < (s.pid q).refcount)
  (hcount : ∀ q, (s'.pid q).refcount + slotCount (s.task t) q + s.held.count q =
    (s.pid q).refcount + slotCount k q + s'.held.count q)
  (hself : ∀ q ty, t ∈ (s'.pid q).tasks ty ↔ k.Published ∧ k.pids ty = q)
  (hother : ∀ q ty u, u ≠ t → (u ∈ (s'.pid q).tasks ty ↔ u ∈ (s.pid q).tasks ty))

include h htask hmap hnr hlive hcount hself hother

/-- A step changes one task at a time. The tables stay well formed if the counts follow
the slots and the held references, the lists follow the task, and neither its number nor
its fork is that of another task. -/
theorem Wf.replace (htgid : k.phase ≠ .free → k.pids .tgid = k.pids .tid)
    (htid : k.phase ≠ .free → ∀ u ≠ t, (s.task u).phase ≠ .free →
      (s.task u).pids .tid ≠ k.pids .tid)
    (hprep : ∀ u, (s.task u).phase = .forking t → k.phase = .prepared)
    (hfork : ∀ c, k.phase = .forking c → c ≠ t ∧ (s.task c).phase = .prepared ∧
      ∀ u ≠ t, (s.task u).phase ≠ .forking c) : Wf s' := by
  have hat : s'.task t = k := by rw [htask, update_self]
  have hne : ∀ u ≠ t, s'.task u = s.task u := by
    intro u hu
    rw [htask, update_of_ne hu]
  refine ⟨?_, ?_, ?_, ?_, ?_, ?_, ?_, ?_⟩
  · intro a b ha hb hab
    rw [hnr, hnr] at hab
    exact h.nrInj a b (hlive a ha) (hlive b hb) hab
  · intro a ha
    rw [hmap, hnr]
    exact h.nrSet a (hlive a ha)
  · obtain ⟨D, hD, hsum⟩ := h.refs
    refine ⟨insert t D, fun u hu => ?_, fun q => ?_⟩
    · rw [Finset.mem_insert, not_or] at hu
      rw [hne u hu.1]
      exact hD u hu.2
    · have hbase : ∑ u ∈ insert t D, slotCount (s.task u) q = ∑ u ∈ D, slotCount (s.task u) q :=
        Finset.sum_insert_of_eq_zero_if_notMem fun hn => slotCount_free (hD t hn) q
      have hupd := sum_slotCount_update (Finset.mem_insert_self t D) s.task k q
      have hold := hsum q
      have hnew := hcount q
      rw [htask]
      omega
  · intro q ty u
    by_cases hut : u = t
    · rw [hut, hat, hself]
    · rw [hne u hut, hother q ty u hut, h.linked]
  · rw [htask]
    exact (forall_update_iff _ fun _ (k : Task) => k.phase ≠ .free → k.pids .tgid = k.pids .tid).mpr
      ⟨htgid, fun u _ => h.tgid u⟩
  · rw [htask]
    exact inj_update (fun k : Task => k.phase ≠ .free) (fun k => k.pids .tid) h.tidInj htid
  · intro u c huc
    by_cases hut : u = t
    · rw [hut, hat] at huc
      obtain ⟨hct, hc, -⟩ := hfork c huc
      rw [hne c hct, hc]
    · rw [hne u hut] at huc
      by_cases hct : c = t
      · rw [hct, hat]
        exact hprep u (hct ▸ huc)
      · rw [hne c hct]
        exact h.fork u c huc
  · intro a b c ha hb
    rw [htask] at ha hb
    exact inj_update (fun k : Task => k.phase = .forking c) (fun _ => ())
      (fun a b ha hb _ => h.forkInj a b c ha hb)
      (fun hc b hb hbc => absurd hbc ((hfork c hc).2.2 b hb)) a b ha hb rfl

/-- The task keeps its phase and its process; its other slots and the references held by
callers may change. -/
theorem Wf.redirect (hphase : k.phase = (s.task t).phase)
    (htid : k.pids .tid = (s.task t).pids .tid) (htgid : k.pids .tgid = (s.task t).pids .tgid) :
    Wf s' := by
  refine h.replace htask hmap hnr hlive hcount hself hother ?_ ?_ ?_ ?_
  · intro hk
    rw [htid, htgid]
    exact h.tgid t (hphase ▸ hk)
  · intro hk u hut hu heq
    exact hut (h.tidInj u t hu (hphase ▸ hk) (heq.trans htid))
  · intro u hu
    rw [hphase]
    exact h.fork u t hu
  · intro c hc
    rw [hphase] at hc
    have hprep := h.fork t c hc
    refine ⟨?_, hprep, fun u hut hu => hut (h.forkInj u t c hu hc)⟩
    rintro rfl
    rw [hc] at hprep
    cases hprep

end Replace

/-- A task that stays on its lists enters another phase, and nobody forks it. -/
theorem Wf.setPhase {a : Phase} (h : Wf s) (ht : (s.task t).phase ≠ .free) (ha : a ≠ .free)
    (hfork : ∀ c, a ≠ .forking c) (hpub : ((s.task t).setPhase a).Published ↔ (s.task t).Published)
    (hnone : ∀ u, (s.task u).phase ≠ .forking t) : Wf (modTask s t fun k => k.setPhase a) := by
  refine h.replace (k := (s.task t).setPhase a) rfl rfl (fun _ => rfl) (fun _ => id) ?_ ?_
    (fun _ _ _ _ => .rfl) (fun _ => h.tgid t ht) ?_ (fun u hu => absurd hu (hnone u))
    fun c hc => absurd hc (hfork c)
  · intro q
    rw [slotCount_of_ne_free ht, slotCount_of_ne_free ha]
    rfl
  · intro q ty
    rw [hpub]
    exact h.linked q ty t
  · intro _ u hut hu heq
    exact hut (h.tidInj u t hu ht heq)

/-- No task is replaced: references are taken or dropped by callers. -/
theorem Wf.recount (h : Wf s) (htask : s'.task = s.task) (hmap : s'.pidmap = s.pidmap)
    (hnr : ∀ q, (s'.pid q).nr = (s.pid q).nr) (htasks : ∀ q, (s'.pid q).tasks = (s.pid q).tasks)
    (hlive : ∀ q, 0 < (s'.pid q).refcount → 0 < (s.pid q).refcount)
    (hcount : ∀ q, (s'.pid q).refcount + s.held.count q = (s.pid q).refcount + s'.held.count q) :
    Wf s' := by
  refine h.redirect (t := 0) (k := s.task 0) ?_ hmap hnr hlive ?_ ?_ ?_ rfl rfl rfl
  · rw [htask, update_eq_self]
  · intro q
    have := hcount q
    omega
  · intro q ty
    rw [htasks, h.linked]
  · intro q ty u _
    rw [htasks]

/-- Nothing that the tables depend on changes. -/
theorem Wf.of_eq (h : Wf s) (hpid : s'.pid = s.pid) (hmap : s'.pidmap = s.pidmap)
    (hheld : s'.held = s.held) (hphase : ∀ u, (s'.task u).phase = (s.task u).phase)
    (hpids : ∀ u, (s'.task u).pids = (s.task u).pids) : Wf s' := by
  obtain ⟨hinj, hset, hrefs, hlinked, htgid, htid, hfork, hforkInj⟩ := h
  constructor <;>
    simpa only [RefsExact, slotCount, Task.Published, hpid, hmap, hheld, hphase, hpids]

/-! ### References taken and dropped by callers -/

/-- Taking a reference on an object some task uses. -/
theorem Wf.hold (h : Wf s) (hp : 0 < (s.pid p).refcount) :
    Wf { refcountInc s p with held := p :: s.held } := by
  refine h.recount rfl rfl (fun _ => refcountInc_nr) (fun _ => refcountInc_tasks) ?_ ?_
  · intro q hq
    change 0 < ((refcountInc s p).pid q).refcount at hq
    rw [refcountInc_refcount] at hq
    by_cases hpq : p = q
    · exact hpq ▸ hp
    · simpa [hpq] using hq
  · intro q
    change ((refcountInc s p).pid q).refcount + _ = _ + (p :: s.held).count q
    rw [refcountInc_refcount, List.count_cons]
    simp only [beq_iff_eq]
    omega

theorem Wf.drop_wf (h : Wf s) (hp : p ∈ s.held) :
    Wf { refcountDec s p with held := s.held.erase p } := by
  have hpos := h.held_pos hp
  refine h.recount rfl rfl (fun _ => refcountDec_nr) (fun _ => refcountDec_tasks) ?_ ?_
  · intro q hq
    change 0 < ((refcountDec s p).pid q).refcount at hq
    rw [refcountDec_refcount] at hq
    omega
  · intro q
    change ((refcountDec s p).pid q).refcount + _ = _ + (s.held.erase p).count q
    rw [refcountDec_refcount, List.count_erase]
    by_cases hpq : p = q
    · subst hpq
      have := List.count_pos_iff.mpr hp
      simp
      omega
    · simp [hpq]

/-- Giving back a number that no referenced object carries. -/
theorem Wf.clear_wf (h : Wf s) {n : ℕ} (hn : ∀ q, 0 < (s.pid q).refcount → (s.pid q).nr ≠ n) :
    Wf { s with pidmap := update s.pidmap n false } := by
  refine ⟨h.nrInj, ?_, h.refs, h.linked, h.tgid, h.tidInj, h.fork, h.forkInj⟩
  intro a ha
  dsimp only at ha ⊢
  rw [update_of_ne (hn a ha)]
  exact h.nrSet a ha

/-- Dropping a held reference, and the number with it if it was the last one. -/
theorem Wf.put (h : Wf s) (hp : p ∈ s.held) : Wf { pidPut s p with held := s.held.erase p } := by
  have hdrop := h.drop_wf hp
  unfold pidPut
  split
  next hlast =>
    refine hdrop.clear_wf fun q hq hnr => ?_
    -- Another live object with this number would have been the same object.
    change 0 < ((refcountDec s p).pid q).refcount at hq
    change ((refcountDec s p).pid q).nr = (s.pid p).nr at hnr
    rw [refcountDec_refcount] at hq
    rw [refcountDec_nr] at hnr
    obtain rfl := h.nrInj q p (by omega) (by omega) hnr
    simp [hlast] at hq
  next => exact hdrop

/-! ### Changing the group or session of a published task -/

section ChangePid

variable (s t ty p)

@[simp] theorem changePid_held : (changePid s t ty p).held = s.held := by
  simp [changePid]

@[simp] theorem changePid_pidmap : (changePid s t ty p).pidmap = s.pidmap := by
  simp [changePid]

@[simp] theorem changePid_nr : ((changePid s t ty p).pid q).nr = (s.pid q).nr := by
  simp [changePid]

theorem changePid_task : (changePid s t ty p).task = update s.task t ((s.task t).setPid ty p) := by
  simp [changePid, modTask]

theorem changePid_refcount : ((changePid s t ty p).pid q).refcount =
      (s.pid q).refcount + (if p = q then 1 else 0) - if (s.task t).pids ty = q then 1 else 0 := by
  simp [changePid, refcountDec_refcount, refcountInc_refcount]

theorem mem_changePid_tasks : u ∈ ((changePid s t ty p).pid q).tasks ty' ↔
      (u ∈ (s.pid q).tasks ty' ∧ ¬ (u = t ∧ q = (s.task t).pids ty ∧ ty' = ty)) ∨
        (u = t ∧ q = p ∧ ty' = ty) := by
  simp [changePid, mem_hlistAdd_tasks, mem_hlistDel_tasks]

end ChangePid

theorem changePid_phase : ((changePid s t ty p).task u).phase = (s.task u).phase := by
  rw [changePid_task]
  by_cases h : u = t
  · subst h; simp [Task.setPid]
  · simp [h]

theorem changePid_published (ty : PidType) (p : ℕ) :
    ((changePid s t ty p).task u).Published ↔ (s.task u).Published := by
  simp [Task.Published, changePid_phase]

/-- The slots of a task after one of them is redirected from `old` to `p`. -/
theorem slotCount_setPid (k : Task) (hk : k.phase ≠ .free) (ty : PidType) (p q : ℕ) :
    slotCount (k.setPid ty p) q + (if k.pids ty = q then 1 else 0) =
      slotCount k q + if p = q then 1 else 0 := by
  rw [slotCount_of_ne_free hk, slotCount_of_ne_free (k := k.setPid ty p) hk]
  cases ty <;> simp [PidType.all, List.count_cons, Task.setPid] <;> omega

/-- `change_pid` on the group or session of a published task keeps the tables
well formed. -/
theorem Wf.changePid (h : Wf s) (ht : (s.task t).Published) (hp : 0 < (s.pid p).refcount)
    (hty : ty = .pgid ∨ ty = .sid) : Wf (changePid s t ty p) := by
  have hold := h.slot_pos ht.ne_free ty
  refine h.redirect (changePid_task ..) (changePid_pidmap ..) (fun _ => changePid_nr ..)
    ?_ ?_ ?_ ?_ rfl ?_ ?_
  · intro q hq
    rw [changePid_refcount] at hq
    by_cases hpq : p = q
    · exact hpq ▸ hp
    · simp only [hpq, if_false] at hq
      omega
  · intro q
    have hslot := slotCount_setPid (s.task t) ht.ne_free ty p q
    rw [changePid_refcount, changePid_held]
    by_cases hoq : (s.task t).pids ty = q
    · simp only [hoq, if_true] at hslot ⊢
      subst hoq
      omega
    · simp only [hoq, if_false] at hslot ⊢
      omega
  · intro q ty'
    rw [mem_changePid_tasks, h.linked]
    by_cases hty' : ty' = ty
    · subst hty'
      simp only [ht, Task.setPid, update_self, true_and, and_true]
      tauto
    · simp [hty', Task.setPid, Task.Published]
  · intro q ty' u hut
    simp [mem_changePid_tasks, hut]
  · rcases hty with rfl | rfl <;> simp [Task.setPid]
  · rcases hty with rfl | rfl <;> simp [Task.setPid]

/-! ### `sys_setpgid` and `pid_setsid` -/

theorem Task.setPid_setPid (k : Task) (ty : PidType) (p : ℕ) :
    (k.setPid ty p).setPid ty p = k.setPid ty p := by
  simp [Task.setPid]

theorem Task.setPid_self (k : Task) (ty : PidType) : k.setPid ty (k.pids ty) = k := by
  simp [Task.setPid]

/-- The threads of a process: with one thread per process, the task itself. -/
theorem Wf.mem_tgid (h : Wf s) (ht : (s.task t).Published) :
    u ∈ (s.pid ((s.task t).pids .tgid)).tasks .tgid ↔ u = t := by
  rw [h.linked]
  constructor
  · rintro ⟨hu, heq⟩
    rw [h.tgid u hu.ne_free, h.tgid t ht.ne_free] at heq
    exact h.tidInj u t hu.ne_free ht.ne_free heq
  · rintro rfl
    exact ⟨ht, rfl⟩

theorem Wf.refcount_changePid_pos (h : Wf s) (ht : (s.task t).Published) (ty : PidType)
    (hp : 0 < (s.pid p).refcount) : 0 < ((PidTable.changePid s t ty p).pid p).refcount := by
  have hold := h.slot_pos ht.ne_free ty
  rw [changePid_refcount]
  by_cases heq : (s.task t).pids ty = p
  · subst heq; simp; omega
  · simp [heq]

/-- A loop over the threads of a process changes its one task as a single round does, if a
second round has no further effect on the task. -/
theorem Wf.foldl_threads {f : State → ℕ → State} {g : Task → Task} (P : State → Prop)
    (hg : ∀ k, g (g k) = g k)
    (hf : ∀ s, Wf s → P s →
      Wf (f s t) ∧ P (f s t) ∧ (f s t).task = update s.task t (g (s.task t)))
    {l : List ℕ} (hl : ∀ m ∈ l, m = t) (h : Wf s) (hP : P s) (hne : l ≠ []) :
    Wf (l.foldl f s) ∧ (l.foldl f s).task = update s.task t (g (s.task t)) := by
  induction l generalizing s with
  | nil => exact absurd rfl hne
  | cons m l ih =>
    obtain rfl := hl m (by simp)
    obtain ⟨hwf, hP', htask⟩ := hf s h hP
    by_cases hnil : l = []
    · subst hnil
      exact ⟨hwf, htask⟩
    · obtain ⟨hwf', htask'⟩ := ih (fun k hk => hl k (by simp [hk])) hwf hP' hnil
      refine ⟨hwf', ?_⟩
      rw [List.foldl_cons, htask', htask, update_self, update_idem, hg]

/-- The tail of `sys_setpgid` moves the task into the group and nothing else. -/
theorem Wf.joinGroup (h : Wf s) (ht : (s.task t).Published) (hp : 0 < (s.pid p).refcount) :
    Wf (joinGroup s t p) ∧ (PidTable.joinGroup s t p).task =
        update s.task t ((s.task t).setPid .pgid p) := by
  have hhold := h.hold (h.slot_pos ht.ne_free .pgid)
  unfold PidTable.joinGroup
  by_cases heq : (s.task t).pids .pgid = p
  · simp only [heq, if_true]
    rw [heq] at hhold
    refine ⟨hhold, ?_⟩
    change s.task = _
    rw [← heq, Task.setPid_self, update_eq_self]
  · simp only [heq, if_false]
    have hmem := fun u => hhold.mem_tgid (t := t) (u := u) ht
    have hpos : 0 < ((refcountInc s ((s.task t).pids .pgid)).pid p).refcount := by
      rw [refcountInc_refcount]
      omega
    refine Wf.foldl_threads (g := (·.setPid .pgid p))
      (fun s => (s.task t).Published ∧ 0 < (s.pid p).refcount) (fun k => k.setPid_setPid .pgid p)
      (fun s h hs => ?_) (fun m hm => (hmem m).mp hm) hhold ⟨ht, hpos⟩
        (List.ne_nil_of_mem ((hmem t).mpr rfl))
    exact ⟨h.changePid hs.1 hs.2 (.inl rfl), ⟨(changePid_published ..).mpr hs.1,
      h.refcount_changePid_pos hs.1 .pgid hs.2⟩, changePid_task ..⟩

/-- What a successful `sys_setpgid` has checked, and what it does. -/
theorem sysSetpgid_ok {cur : ℕ} {nr pgid : ℤ} (h : Wf s) (hok : sysSetpgid s cur nr pgid = .ok s') :
    ∃ task pgrp, (s.task task).Published ∧ (s.task task).pids .sid ≠ (s.task task).pids .tgid ∧
      (pgrp = (s.task task).pids .tgid ∨
        ∃ member, (s.task member).Published ∧ (s.task member).pids .pgid = pgrp ∧
          (s.task member).pids .sid = (s.task task).pids .sid) ∧ s' = joinGroup s task pgrp := by
  unfold sysSetpgid at hok
  extract_lets nr' pgid' at hok
  split at hok
  · cases hok
  split at hok
  · cases hok
  next task htask =>
  dsimp only at hok
  split at hok
  · cases hok
  split at hok
  · cases hok
  split at hok
  · cases hok
  next hsid =>
  split at hok
  · cases hok
  next pgrp hpgrp =>
  refine ⟨task, pgrp, ?_, hsid, ?_, (Except.ok.inj hok).symm⟩
  · obtain ⟨p, -, hhead⟩ := Option.bind_eq_some_iff.mp htask
    exact ((h.linked p .tid task).mp (List.mem_of_head? hhead)).1
  · unfold targetGroup at hpgrp
    dsimp only at hpgrp
    split at hpgrp
    next heq =>
      rw [heq] at hpgrp
      exact .inl (Option.some.inj hpgrp).symm
    next =>
      split at hpgrp
      · cases hpgrp
      next member hmember =>
      split at hpgrp
      · cases hpgrp
      next hsame =>
      obtain ⟨p, hp, hhead⟩ := Option.bind_eq_some_iff.mp hmember
      rw [hp] at hpgrp
      obtain rfl := Option.some.inj hpgrp
      obtain ⟨hpub, hgrp⟩ := (h.linked p .pgid member).mp (List.mem_of_head? hhead)
      exact .inr ⟨member, hpub, hgrp, not_not.mp hsame⟩

/-- The target of a successful `sys_setpgid` is alive. -/
theorem Wf.target_pos (h : Wf s) (ht : (s.task t).Published) (hp : p = (s.task t).pids .tgid ∨
      ∃ member, (s.task member).Published ∧ (s.task member).pids .pgid = p ∧
        (s.task member).pids .sid = (s.task t).pids .sid) : 0 < (s.pid p).refcount := by
  rcases hp with rfl | ⟨member, hpub, rfl, -⟩
  · exact h.slot_pos ht.ne_free .tgid
  · exact h.slot_pos hpub.ne_free .pgid

/-- The new session: the task leads its own group and its own session. -/
def Task.leadSession (k : Task) : Task :=
  (k.setPid .pgid (k.pids .tgid)).setPid .sid (k.pids .tgid)

theorem Task.leadSession_leadSession (k : Task) : k.leadSession.leadSession = k.leadSession := by
  have hpids : k.leadSession.leadSession.pids = k.leadSession.pids := by
    funext ty
    cases ty <;> rfl
  cases k
  simp only [Task.leadSession, Task.setPid] at hpids ⊢
  rw [hpids]

/-- One round of `pid_setsid`. -/
theorem Wf.setsid_round (h : Wf s) (ht : (s.task t).Published) (hp : (s.task t).pids .tgid = p) :
    Wf (PidTable.changePid (PidTable.changePid s t .pgid p) t .sid p) ∧
      (PidTable.changePid (PidTable.changePid s t .pgid p) t .sid p).task =
        update s.task t (s.task t).leadSession := by
  have hpos : 0 < (s.pid p).refcount := hp ▸ h.slot_pos ht.ne_free .tgid
  refine ⟨(h.changePid ht hpos (.inl rfl)).changePid ((changePid_published ..).mpr ht)
    (h.refcount_changePid_pos ht .pgid hpos) (.inr rfl), ?_⟩
  rw [changePid_task, changePid_task, update_self, update_idem, ← hp]
  rfl

/-- What a successful `pid_setsid` has checked, and what it does. -/
theorem Wf.pidSetsid_ok (h : Wf s) (ht : (s.task t).Published) (hok : pidSetsid s t = .ok s') :
    (s.task t).pids .sid ≠ (s.task t).pids .tgid ∧
      (s.pid ((s.task t).pids .tgid)).tasks .pgid = [] ∧ Wf s' ∧
      s'.task = update s.task t (s.task t).leadSession := by
  unfold pidSetsid at hok
  dsimp only at hok
  split at hok
  · cases hok
  next hcheck =>
  rw [not_or, not_not] at hcheck
  have hwf := h.hold (h.slot_pos ht.ne_free .pgid)
  have hwf' := hwf.hold (hwf.slot_pos (t := t) ht.ne_free .sid)
  have hmem := fun u => hwf'.mem_tgid (t := t) (u := u) ht
  obtain rfl := Except.ok.inj hok
  refine ⟨hcheck.1, hcheck.2, Wf.foldl_threads
    (fun s' => (s'.task t).Published ∧ (s'.task t).pids .tgid = (s.task t).pids .tgid)
    Task.leadSession_leadSession (fun s' h hs => ?_) (fun m hm => (hmem m).mp hm) hwf' ⟨ht, rfl⟩
    (List.ne_nil_of_mem ((hmem t).mpr rfl))⟩
  obtain ⟨hwf₁, htask₁⟩ := h.setsid_round hs.1 hs.2
  refine ⟨hwf₁, ?_, htask₁⟩
  rwa [htask₁, update_self]

/-! ### `pid_prepare` -/

theorem findNr_clear (h : findNr s = some nr) : s.pidmap nr = false := by
  unfold findNr at h
  extract_lets first second at h
  split at h
  · split at h
    · cases h
    next hne =>
      obtain rfl := Option.some.inj h
      exact Bitmap.findNextZero_clear (lt_of_le_of_ne Bitmap.findNextZero_le hne)
  next hne =>
    obtain rfl := Option.some.inj h
    exact Bitmap.findNextZero_clear (lt_of_le_of_ne Bitmap.findNextZero_le hne)

/-- The loop of `pid_prepare` adds one reference for each slot and changes nothing
else. -/
theorem foldl_refcountInc (l : List PidType) (f : PidType → ℕ) (s : State) :
    (l.foldl (fun s ty => refcountInc s (f ty)) s).task = s.task ∧
    (l.foldl (fun s ty => refcountInc s (f ty)) s).held = s.held ∧
    (l.foldl (fun s ty => refcountInc s (f ty)) s).pidmap = s.pidmap ∧
    ∀ q, ((l.foldl (fun s ty => refcountInc s (f ty)) s).pid q).refcount =
        (s.pid q).refcount + (l.map f).count q ∧
      ((l.foldl (fun s ty => refcountInc s (f ty)) s).pid q).nr = (s.pid q).nr ∧
      ((l.foldl (fun s ty => refcountInc s (f ty)) s).pid q).tasks = (s.pid q).tasks := by
  induction l generalizing s with
  | nil => simp
  | cons ty l ih =>
    obtain ⟨htask, hheld, hmap, hpid⟩ := ih (refcountInc s (f ty))
    refine ⟨htask, hheld, hmap, fun q => ?_⟩
    obtain ⟨hcount, hnr, htasks⟩ := hpid q
    refine ⟨?_, by simpa using hnr, by simpa using htasks⟩
    rw [List.foldl_cons, hcount, refcountInc_refcount, List.map_cons, List.count_cons]
    by_cases hq : f ty = q
    · simp [hq]; omega
    · simp [hq]

/-- `pid_prepare` numbers a fresh object and counts the four slots of the task. -/
theorem pidPrepare_ok {parent : Option ℕ} (hp : (s.pid p).refcount = 0)
    (hok : pidPrepare s t parent p = .ok s') :
    ∃ nr, s.pidmap nr = false ∧ s'.pidmap = update s.pidmap nr true ∧
      s'.held = s.held ∧
      s'.task = update s.task t { s.task t with pids := preparePids s parent p } ∧
      (∀ q, (s'.pid q).refcount =
        (s.pid q).refcount + (PidType.all.map (preparePids s parent p)).count q) ∧
      (∀ q, (s'.pid q).nr = if q = p then nr else (s.pid q).nr) ∧
      ∀ q, (s'.pid q).tasks = if q = p then fun _ => [] else (s.pid q).tasks := by
  unfold pidPrepare pidAlloc at hok
  cases hnr : findNr s with
  | none =>
    rw [hnr] at hok
    cases hok
  | some nr =>
    rw [hnr] at hok
    dsimp only at hok
    obtain rfl := Except.ok.inj hok
    clear hok
    -- The identities read the parent, which the allocation did not touch.
    set s₁ : State := { s with
      pidmap := update s.pidmap nr true
      nextPid := if nr + 1 = pidMax then pidInit else nr + 1
      pid := update s.pid p { refcount := 1, nr := nr, tasks := fun _ => [] } } with hs₁
    have hpids : preparePids s₁ parent p = preparePids s parent p := by
      funext ty
      cases ty <;> rfl
    rw [hpids]
    obtain ⟨htask, hheld, hmap, hpid⟩ := foldl_refcountInc PidType.all (preparePids s parent p)
      (modTask s₁ t fun k => { k with pids := preparePids s parent p })
    set s₂ := PidType.all.foldl (fun s' ty => refcountInc s' (preparePids s parent p ty))
      (modTask s₁ t fun k => { k with pids := preparePids s parent p }) with hs₂
    have hslots : 2 ≤ (PidType.all.map (preparePids s parent p)).count p := by
      simp only [PidType.all, List.map_cons, List.map_nil, preparePids, List.count_cons]
      simp
    have hlast : (s₂.pid p).refcount ≠ 1 := by
      rw [(hpid p).1]
      simp only [modTask_pid, hs₁, update_self]
      omega
    have hput : pidPut s₂ p = refcountDec s₂ p := by
      unfold pidPut
      rw [if_neg hlast]
    rw [hput]
    refine ⟨nr, findNr_clear hnr, hmap, hheld, htask, fun q => ?_, fun q => ?_, fun q => ?_⟩
    · rw [refcountDec_refcount, (hpid q).1, modTask_pid]
      by_cases hq : q = p
      · subst hq
        simp [hs₁, hp]
      · simp [hs₁, hq, Ne.symm hq]
    · rw [refcountDec_nr, (hpid q).2.1, modTask_pid]
      by_cases hq : q = p
      · subst hq; simp [hs₁]
      · simp [hs₁, hq]
    · rw [refcountDec_tasks, (hpid q).2.2, modTask_pid]
      by_cases hq : q = p
      · subst hq; simp [hs₁]
      · simp [hs₁, hq]

/-- The task map after the first half of `sys_clone`. -/
def forkTask (s : State) (t child p : ℕ) : ℕ → Task :=
  update
    (update s.task child (Task.prepare (preparePids s (some t) p) child)) t
    ((s.task t).setPhase (.forking child))

theorem forkTask_eq {s₁ : State} (hct : child ≠ t) (htask : s₁.task =
      update s.task child { s.task child with pids := preparePids s (some t) p }) :
    (modTask (modTask s₁ child fun k => Task.prepare k.pids child) t fun k =>
      k.setPhase (.forking child)).task = forkTask s t child p := by
  unfold modTask forkTask
  dsimp only
  rw [htask, update_idem, update_self, update_of_ne hct.symm]

/-- `pid_alloc` hands its caller the only reference to a fresh object with a number
no live object carries. -/
theorem Wf.alloc_wf (h : Wf s) (hp : (s.pid p).refcount = 0) (hclear : s.pidmap nr = false)
    (next : ℕ) : Wf { s with
      pidmap := update s.pidmap nr true
      nextPid := next
      pid := update s.pid p { refcount := 1, nr := nr, tasks := fun _ => [] }
      held := p :: s.held } := by
  have hnrlive : ∀ q, 0 < (s.pid q).refcount → (s.pid q).nr ≠ nr := by
    rintro q hq rfl
    rw [h.nrSet q hq] at hclear
    cases hclear
  refine ⟨?_, ?_, ?_, ?_, h.tgid, h.tidInj, h.fork, h.forkInj⟩
  · exact inj_update (fun o : Pid => 0 < o.refcount) Pid.nr h.nrInj fun _ b _ => hnrlive b
  · intro a ha
    dsimp only at ha ⊢
    by_cases hap : a = p
    · simp [hap]
    · rw [update_of_ne hap] at ha ⊢
      rw [update_of_ne (hnrlive a ha)]
      exact h.nrSet a ha
  · obtain ⟨D, hD, hsum⟩ := h.refs
    refine ⟨D, hD, fun q => ?_⟩
    have hc := hsum q
    dsimp only
    rw [List.count_cons]
    by_cases hqp : q = p
    · subst hqp
      rw [update_self]
      simp
      omega
    · rw [update_of_ne hqp, hc]
      simp [Ne.symm hqp]
  · intro q ty u
    dsimp only
    by_cases hqp : q = p
    · subst hqp
      rw [update_self]
      refine ⟨fun hmem => absurd hmem (by simp), fun ⟨hpub, heq⟩ => ?_⟩
      exact absurd heq (h.slot_ne hp u ty hpub.ne_free)
    · rw [update_of_ne hqp]
      exact h.linked q ty u

/-- The second section of `pid_prepare`, for an object `p` that only its caller knows:
the child takes its four slots and a reference for each. -/
theorem Wf.prepare_wf (h : Wf s) (ht : (s.task t).phase = .running)
    (hc : (s.task child).phase = .free)
    (hfresh : ∀ u ty, (s.task u).phase ≠ .free → (s.task u).pids ty ≠ p)
    (hp : 0 < (s.pid p).refcount) (hmap : s'.pidmap = s.pidmap)
    (hheld : s'.held = s.held) (htask : s'.task = forkTask s t child p)
    (hcount : ∀ q, (s'.pid q).refcount =
      (s.pid q).refcount + (PidType.all.map (preparePids s (some t) p)).count q)
    (hnr : ∀ q, (s'.pid q).nr = (s.pid q).nr)
    (htasks : ∀ q, (s'.pid q).tasks = (s.pid q).tasks) : Wf s' := by
  have hct : child ≠ t := by
    rintro rfl
    rw [hc] at ht
    cases ht
  have htfree : (s.task t).phase ≠ .free := by simp [ht]
  set k := Task.prepare (preparePids s (some t) p) child
  -- First the child takes its slots; then its parent waits for the publication.
  set s₁ : State := { s' with task := update s.task child k }
  have hat_t : s₁.task t = s.task t := update_of_ne (Ne.symm hct) _ _
  have hat_c : s₁.task child = k := update_self ..
  have hchild : Wf s₁ := by
    refine h.replace rfl hmap hnr ?_ ?_ ?_ ?_ (fun _ => rfl) ?_ ?_ nofun
    · intro q hq
      change 0 < (s'.pid q).refcount at hq
      rw [hcount] at hq
      by_contra hzero
      have hpos : 0 < (PidType.all.map (preparePids s (some t) p)).count q := by omega
      obtain ⟨ty, -, hty⟩ := List.mem_map.mp (List.count_pos_iff.mp hpos)
      cases ty
      · exact hzero (hty ▸ hp)
      · exact hzero (hty ▸ hp)
      · exact hzero (hty ▸ h.slot_pos htfree .pgid)
      · exact hzero (hty ▸ h.slot_pos htfree .sid)
    · intro q
      have hslot : slotCount k q = (PidType.all.map (preparePids s (some t) p)).count q := rfl
      change (s'.pid q).refcount + _ + _ = _ + s'.held.count q
      rw [hcount, slotCount_free hc, hslot, hheld]
      omega
    · intro q ty
      change child ∈ (s'.pid q).tasks ty ↔ _
      rw [htasks, h.linked]
      simp [Task.Published, hc, k, Task.prepare]
    · intro q ty u _
      change u ∈ (s'.pid q).tasks ty ↔ _
      rw [htasks]
    · intro _ u _ hu
      exact hfresh u .tid hu
    · intro u hu
      rfl
  refine hchild.replace (k := (s.task t).setPhase (.forking child)) htask rfl (fun _ => rfl)
    (fun _ => id) ?_ ?_ (fun _ _ _ _ => .rfl) (fun _ => h.tgid t htfree) ?_ ?_ ?_
  · intro q
    rw [hat_t, slotCount_of_ne_free htfree, slotCount_of_ne_free (by simp)]
    rfl
  · intro q ty
    change t ∈ (s₁.pid q).tasks ty ↔ _
    rw [hchild.linked, hat_t]
    simp [Task.Published, ht]
  · intro _ u hut hu heq
    exact hut (hchild.tidInj u t hu (hat_t ▸ htfree) (by rw [heq, hat_t, setPhase_pids]))
  · exact fun u hu => absurd hu (hchild.not_forking (by simp [hat_t, ht]) u)
  · intro c hcc
    obtain rfl := Phase.forking.inj hcc
    refine ⟨hct, by rw [hat_c]; rfl, fun u _ hu => ?_⟩
    by_cases huc : u = child
    · rw [huc, hat_c] at hu
      cases hu
    · rw [show s₁.task u = s.task u from update_of_ne huc _ _] at hu
      exact h.not_forking (by simp [hc]) u hu

/-- Dropping the reference that was just taken restores the state. -/
theorem pidPut_hold (hp : 0 < (s.pid p).refcount) :
    { pidPut { refcountInc s p with held := p :: s.held } p with held := s.held } = s := by
  have hne : ((refcountInc s p).pid p).refcount ≠ 1 := by
    rw [refcountInc_refcount, if_pos rfl]
    omega
  have hput : pidPut { refcountInc s p with held := p :: s.held } p =
      refcountDec { refcountInc s p with held := p :: s.held } p := if_neg hne
  rw [hput]
  simp [refcountDec, refcountInc, modPid]

/-- The first half of `sys_clone`: allocate, fill the slots, drop the reference
`pid_alloc` returned. -/
theorem Wf.fork_wf (h : Wf s) (ht : (s.task t).phase = .running)
    (hc : (s.task child).phase = .free) (hp : (s.pid p).refcount = 0)
    (hclear : s.pidmap nr = false) (hmap : s'.pidmap = update s.pidmap nr true)
    (hheld : s'.held = s.held) (htask : s'.task = forkTask s t child p)
    (hcount : ∀ q, (s'.pid q).refcount =
      (s.pid q).refcount + (PidType.all.map (preparePids s (some t) p)).count q)
    (hnr : ∀ q, (s'.pid q).nr = if q = p then nr else (s.pid q).nr)
    (htasks : ∀ q, (s'.pid q).tasks = if q = p then fun _ => [] else (s.pid q).tasks) : Wf s' := by
  have hpos : 0 < (s'.pid p).refcount := by
    rw [hcount]
    have hmem : p ∈ PidType.all.map (preparePids s (some t) p) := by
      simp [PidType.all, preparePids]
    have := List.count_pos_iff.mpr hmem
    omega
  have halloc := h.alloc_wf hp hclear s.nextPid
  -- The state between the section and the drop: one more reference to `p` is held.
  have hprep : Wf { refcountInc s' p with held := p :: s'.held } := by
    refine halloc.prepare_wf (t := t) (p := p) ht hc (h.slot_ne hp) ?_ hmap ?_ htask ?_ ?_ ?_
    · simp
    · rw [hheld]
    · intro q
      change ((refcountInc s' p).pid q).refcount =
        (update s.pid p _ q).refcount + (PidType.all.map (preparePids s (some t) p)).count q
      rw [refcountInc_refcount, hcount]
      by_cases hqp : q = p
      · subst hqp
        rw [update_self, if_pos rfl, hp]
        change 0 + _ + 1 = 1 + _
        omega
      · rw [update_of_ne hqp, if_neg (Ne.symm hqp)]
        rfl
    · intro q
      change ((refcountInc s' p).pid q).nr = (update s.pid p _ q).nr
      rw [refcountInc_nr, hnr]
      by_cases hqp : q = p <;> simp [hqp]
    · intro q
      change ((refcountInc s' p).pid q).tasks = (update s.pid p _ q).tasks
      rw [refcountInc_tasks, htasks]
      by_cases hqp : q = p <;> simp [hqp]
  have hput := hprep.put (p := p) (by simp)
  have herase : (p :: s'.held).erase p = s'.held := by simp
  rwa [herase, pidPut_hold hpos] at hput

/-! ### Publication, exit and reaping -/

/-- Only the lists and the hash table differ. -/
structure Relisted (s s' : State) : Prop where
  task : s'.task = s.task
  held : s'.held = s.held
  pidmap : s'.pidmap = s.pidmap
  nr : ∀ q, (s'.pid q).nr = (s.pid q).nr
  refcount : ∀ q, (s'.pid q).refcount = (s.pid q).refcount

theorem publishType_relisted : Relisted s (publishType s t ty) := by
  unfold publishType
  dsimp only
  split <;> exact ⟨rfl, rfl, rfl, fun _ => hlistAdd_nr, fun _ => hlistAdd_refcount⟩

theorem mem_publishType_tasks : u ∈ ((publishType s t ty).pid q).tasks ty' ↔
      u ∈ (s.pid q).tasks ty' ∨ (u = t ∧ q = (s.task t).pids ty ∧ ty' = ty) := by
  unfold publishType
  dsimp only
  split <;> rw [mem_hlistAdd_tasks]

/-- `pid_publish` puts the task on the four lists its slots name. -/
theorem pidPublish_spec (s : State) (t : ℕ) :
    Relisted s (pidPublish s t) ∧ ∀ q ty u, u ∈ ((pidPublish s t).pid q).tasks ty ↔
      u ∈ (s.pid q).tasks ty ∨ (u = t ∧ q = (s.task t).pids ty) := by
  constructor
  · constructor <;>
      simp [pidPublish, PidType.all, publishType_relisted.task, publishType_relisted.held,
        publishType_relisted.pidmap, publishType_relisted.nr, publishType_relisted.refcount]
  · intro q ty u
    simp only [pidPublish, PidType.all, List.foldl_cons, List.foldl_nil, mem_publishType_tasks,
      publishType_relisted.task]
    cases ty <;> simp

/-- `pid_unpublish` takes the task off the four lists its slots name. -/
theorem pidUnpublish_spec (s : State) (t : ℕ) :
    Relisted s (pidUnpublish s t) ∧ ∀ q ty u, u ∈ ((pidUnpublish s t).pid q).tasks ty ↔
      u ∈ (s.pid q).tasks ty ∧ ¬ (u = t ∧ q = (s.task t).pids ty) := by
  constructor
  · constructor <;> simp [pidUnpublish, PidType.all]
  · intro q ty u
    simp only [pidUnpublish, PidType.all, List.foldl_cons, List.foldl_nil, unhashUnusedPid_pid,
      unhashUnusedPid_task, hlistDel_task, mem_hlistDel_tasks]
    cases ty <;> simp

/-- The task map after the second half of `sys_clone`. -/
def publishTask (s : State) (t child : ℕ) : ℕ → Task :=
  update
    (update s.task child (((s.task child).setParent t).setPhase .running)) t
    ((s.task t).setPhase .running)

theorem Wf.publish_wf (h : Wf s) (ht : (s.task t).phase = .forking child) :
    Wf (publishChild s t child) ∧ (publishChild s t child).task = publishTask s t child := by
  have hc := h.fork t child ht
  have hct : child ≠ t := by
    rintro rfl
    rw [hc] at ht
    cases ht
  obtain ⟨⟨htask, hheld, hmap, hpnr, hpcount⟩, hplist⟩ := pidPublish_spec
    (modTask s child fun k => k.setParent t) child
  have hmaps : (publishChild s t child).task = publishTask s t child := by
    unfold publishChild publishTask modTask at *
    dsimp only at *
    rw [htask, update_idem, update_self, update_of_ne hct.symm]
  -- The parent stops waiting before the child stops being prepared.
  have hparent : Wf (modTask s t fun k => k.setPhase .running) := by
    exact h.setPhase (by simp [ht]) (by simp) nofun (by simp [Task.Published, ht])
      (h.not_forking (by simp [ht]))
  have hpub : (publishChild s t child).pid =
      (pidPublish (modTask s child fun k => k.setParent t) child).pid := by
    simp only [publishChild, modTask_pid]
  have hnr : ∀ q, ((publishChild s t child).pid q).nr = (s.pid q).nr := by
    intro q
    rw [hpub, hpnr, modTask_pid]
  have hrefs : ∀ q, ((publishChild s t child).pid q).refcount = (s.pid q).refcount := by
    intro q
    rw [hpub, hpcount, modTask_pid]
  have hlist : ∀ q ty u, u ∈ ((publishChild s t child).pid q).tasks ty ↔
      u ∈ (s.pid q).tasks ty ∨ (u = child ∧ q = (s.task child).pids ty) := by
    intro q ty u
    have hslots : ((modTask s child fun k => k.setParent t).task child).pids =
        (s.task child).pids := by
      simp [modTask_task]
    rw [hpub, hplist, hslots, modTask_pid]
  have hcm : (modTask s t fun k => k.setPhase .running).task child = s.task child := by
    rw [modTask_task, if_neg hct]
  refine ⟨?_, hmaps⟩
  refine hparent.replace (t := child) (k := ((s.task child).setParent t).setPhase .running)
    ?_ ?_ hnr (fun q hq => ?_) (fun q => ?_) ?_ ?_ ?_ ?_ ?_ nofun
  · rw [hmaps, publishTask, update_comm hct]
    rfl
  · simp only [publishChild, modTask_pidmap, hmap]
  · rwa [hrefs] at hq
  · have hheld' : (publishChild s t child).held = s.held := by
      simp only [publishChild, modTask_held, hheld]
    rw [hrefs, hheld', hcm, slotCount_of_ne_free (by simp [hc]), slotCount_of_ne_free (by simp)]
    rfl
  · intro q ty
    rw [hlist, h.linked]
    simp [Task.Published, hc, eq_comm]
  · intro q ty u huc
    simp [hlist, huc]
  · intro _
    exact h.tgid child (by simp [hc])
  · intro _ u huc hu heq
    refine huc (hparent.tidInj u child hu ?_ (heq.trans ?_))
    · simp [hcm, hc]
    · rw [hcm]
      rfl
  · intro u hu
    rw [modTask_task] at hu
    split at hu
    · cases hu
    next hut => exact absurd (h.forkInj u t child hu ht) hut

theorem Wf.reap_wf (h : Wf s) (hc : (s.task child).phase = .zombie) :
    Wf (modTask (pidUnpublish s child) child fun k => (k.setPhase .reaped).setParent child) := by
  obtain ⟨⟨htask, hheld, hmap, hnr, hcount⟩, hlist⟩ := pidUnpublish_spec s child
  refine h.replace (t := child) (k := ((s.task child).setPhase .reaped).setParent child) ?_ ?_
    hnr (fun q hq => hcount q ▸ hq) (fun q => ?_) ?_ ?_ ?_ ?_ ?_ nofun
  · rw [← htask]
    rfl
  · rw [modTask_pidmap, hmap]
  · rw [modTask_pid, modTask_held, hcount, hheld, slotCount_of_ne_free (by simp [hc]),
      slotCount_of_ne_free (by simp)]
    rfl
  · intro q ty
    rw [modTask_pid, hlist, h.linked]
    simp only [true_and, Task.Published, hc, setParent_phase, setPhase_phase, false_and, iff_false,
      not_and, not_not]
    exact fun heq => heq.symm
  · intro q ty u huc
    simp [hlist, huc]
  · intro _
    exact h.tgid child (by simp [hc])
  · intro _ u huc hu heq
    exact huc (h.tidInj u child hu (by simp [hc]) heq)
  · exact fun u hu => absurd hu (h.not_forking (by simp [hc]) u)

theorem Wf.taskPut_wf (h : Wf s) (ht : (s.task t).phase = .reaped) : Wf (taskPut s t) := by
  refine h.replace (k := (s.task t).setPhase .free) rfl rfl (fun _ => rfl) (fun _ => id) ?_ ?_
    (fun _ _ _ _ => .rfl) (fun hk => absurd rfl hk) (fun hk => absurd rfl hk) ?_ nofun
  · intro q
    have hslot := slotCount_of_ne_free (k := s.task t) (by simp [ht]) q
    have hzero : slotCount ((s.task t).setPhase .free) q = 0 := slotCount_free rfl q
    simp only [taskPut, List.count_append]
    omega
  · intro q ty
    change t ∈ (s.pid q).tasks ty ↔ _
    rw [h.linked]
    simp [Task.Published, ht]
  · exact fun u hu => absurd hu (h.not_forking (by simp [ht]) u)

/-! ### The system -/

theorem Wf.modTask_wf (h : Wf s) (hf : (f (s.task t)).phase = (s.task t).phase)
    (hf' : (f (s.task t)).pids = (s.task t).pids) : Wf (modTask s t f) := by
  refine h.of_eq rfl rfl rfl (fun u => ?_) fun u => ?_
  · rw [modTask_task]
    split
    next hut => rw [hut, hf]
    next => rfl
  · rw [modTask_task]
    split
    next hut => rw [hut, hf']
    next => rfl

theorem Wf.exit_wf (h : Wf s) (ht : (s.task t).phase = .running) :
    Wf (reparentChildren (modTask s t fun k => k.setPhase .zombie) t) := by
  have hzombie : Wf (modTask s t fun k => k.setPhase .zombie) := by
    exact h.setPhase (by simp [ht]) nofun nofun (by simp [Task.Published, ht])
      (h.not_forking (by simp [ht]))
  refine hzombie.of_eq rfl rfl rfl (fun u => ?_) fun u => ?_
  · unfold reparentChildren
    dsimp only
    split <;> rfl
  · unfold reparentChildren
    dsimp only
    split <;> rfl

/-- Every step of the system keeps the identifier tables well formed. -/
theorem step_wf {e : Event} (h : Wf s) (hstep : step s e = some s') : Wf s' := by
  cases e with
  | fork t child p =>
    obtain ⟨⟨ht, hc, hp⟩, hstep⟩ := Option.ite_none_right_eq_some.mp hstep
    split at hstep <;> cases hstep
    · exact h
    next s₁ hok =>
      obtain ⟨nr, hclear, hmap, hheld, htask, hcount, hnr, htasks⟩ := pidPrepare_ok hp hok
      refine h.fork_wf ht hc hp hclear hmap hheld ?_ hcount hnr htasks
      exact forkTask_eq (by rintro rfl; simp [hc] at ht) htask
  | publish t =>
    simp only [step] at hstep
    split at hstep <;> cases hstep
    exact (h.publish_wf ‹_›).1
  | setpgid t nr pgid =>
    obtain ⟨-, hstep⟩ := Option.ite_none_right_eq_some.mp hstep
    split at hstep <;> cases hstep
    · exact h
    next hok =>
      obtain ⟨task, pgrp, hpub, -, htarget, rfl⟩ := sysSetpgid_ok h hok
      exact (h.joinGroup hpub (h.target_pos hpub htarget)).1
  | setsid t =>
    obtain ⟨ht, hstep⟩ := Option.ite_none_right_eq_some.mp hstep
    split at hstep <;> cases hstep
    · exact h
    next hok => exact (h.pidSetsid_ok (by simp [Task.Published, ht]) hok).2.2.1
  | execve t =>
    obtain ⟨-, rfl⟩ := ite_eq_some.mp hstep
    exact h.modTask_wf rfl rfl
  | exit t =>
    obtain ⟨⟨ht, -⟩, rfl⟩ := ite_eq_some.mp hstep
    exact h.exit_wf ht
  | reap t child =>
    obtain ⟨⟨-, hc, -⟩, rfl⟩ := ite_eq_some.mp hstep
    exact h.reap_wf hc
  | taskPut t =>
    obtain ⟨ht, rfl⟩ := ite_eq_some.mp hstep
    exact h.taskPut_wf ht
  | put p =>
    obtain ⟨hp, rfl⟩ := ite_eq_some.mp hstep
    exact h.put hp

end Nuvix.PidTable
