import Nuvix.Kernel.PidInvariant

/-!
# Process groups and sessions

A process group belongs to one session. `sys_setpgid` and `pid_setsid` look at
published tasks only, while a child between `pid_prepare` and `pid_publish`
already carries the group and session its parent had. The group law therefore
holds in every run in which no process founds a session while such a child still
carries the process's own number as its group, and it fails in a run where one
does.
-/

namespace Nuvix.PidTable

open Transition Function

/-- The number of the task's process group, as `sys_getpgid` reports it. -/
def pgidNr (s : State) (t : ℕ) : ℕ := (s.pid ((s.task t).pids .pgid)).nr

/-- The number of the task's session, as `sys_getsid` reports it. -/
def sidNr (s : State) (t : ℕ) : ℕ := (s.pid ((s.task t).pids .sid)).nr

/-- Published tasks with the same process group id have the same session id. -/
def GroupsInOneSession (s : State) : Prop :=
  ∀ t u, (s.task t).Published → (s.task u).Published → pgidNr s t = pgidNr s u →
    sidNr s t = sidNr s u

/-- The branch of `pid_setsid` that founds a session is not taken while a prepared
child carries the process's number as its group. -/
def SetsidMeetsNoFork (s : State) : Event → Prop
  | .setsid t =>
    (s.task t).pids .sid = (s.task t).pids .tgid ∨
      (s.pid ((s.task t).pids .tgid)).tasks .pgid ≠ [] ∨
      ∀ c, (s.task c).phase = .prepared → (s.task c).pids .pgid ≠ (s.task t).pids .tgid
  | _ => True

/-- The identities of a prepared or published task are in use. -/
def Task.Active (k : Task) : Prop := k.phase = .prepared ∨ k.Published

theorem Task.Active.ne_free {k : Task} (h : k.Active) : k.phase ≠ .free := by
  rcases h with h | h
  · simp [h]
  · exact h.ne_free

/-- The law for prepared children too, together with its reason: the process whose
number names a group is in the session of the group. -/
structure SessionInv (s : State) : Prop where
  wf : Wf s
  group : ∀ t u, (s.task t).Active → (s.task u).Active →
    (s.task t).pids .pgid = (s.task u).pids .pgid → (s.task t).pids .sid = (s.task u).pids .sid
  leader : ∀ t u, (s.task t).Active → (s.task u).Active →
    (s.task t).pids .pgid = (s.task u).pids .tgid → (s.task t).pids .sid = (s.task u).pids .sid

/-- Numbers identify the objects that tasks use. -/
theorem SessionInv.groupsInOneSession {s : State} (h : SessionInv s) : GroupsInOneSession s := by
  intro t u ht hu heq
  have hgrp := h.wf.nrInj _ _ (h.wf.slot_pos ht.ne_free .pgid) (h.wf.slot_pos hu.ne_free .pgid) heq
  unfold sidNr
  rw [h.group t u (.inr ht) (.inr hu) hgrp]

/-- A step that activates no task and keeps the identities of the active ones. -/
theorem SessionInv.of_le {s s' : State} (h : SessionInv s) (hwf : Wf s')
    (hle : ∀ t, (s'.task t).Active → (s.task t).Active ∧ (s'.task t).pids = (s.task t).pids) :
    SessionInv s' := by
  refine ⟨hwf, fun t u ht hu => ?_, fun t u ht hu => ?_⟩
  · rw [(hle t ht).2, (hle u hu).2]
    exact h.group t u (hle t ht).1 (hle u hu).1
  · rw [(hle t ht).2, (hle u hu).2]
    exact h.leader t u (hle t ht).1 (hle u hu).1

/-- A new child copies the group and session of its parent, and its own number
names no group yet. -/
theorem SessionInv.fork {s s' : State} {t child p : ℕ} (h : SessionInv s) (hwf : Wf s')
    (ht : (s.task t).phase = .running) (hp : (s.pid p).refcount = 0) (hct : child ≠ t)
    (htask : s'.task = forkTask s t child p) : SessionInv s' := by
  have hact_t : (s.task t).Active := .inr (by simp [Task.Published, ht])
  -- Each task of the new state has the group and session of an active old one.
  have hpid : ∀ u, (s'.task u).Active → ∃ v, (s.task v).Active ∧
      (s'.task u).pids .pgid = (s.task v).pids .pgid ∧
      (s'.task u).pids .sid = (s.task v).pids .sid ∧
      ((s'.task u).pids .tgid = (s.task v).pids .tgid ∨ (s'.task u).pids .tgid = p) := by
    intro u hu
    rw [htask] at hu ⊢
    unfold forkTask at hu ⊢
    by_cases hut : u = t
    · subst hut
      exact ⟨u, hact_t, by simp⟩
    · by_cases huc : u = child
      · subst huc
        exact ⟨t, hact_t, by simp [hut, Task.prepare, preparePids]⟩
      · simp only [update_of_ne hut, update_of_ne huc] at hu ⊢
        exact ⟨u, hu, rfl, rfl, .inl rfl⟩
  refine ⟨hwf, fun a b ha hb hab => ?_, fun a b ha hb hab => ?_⟩
  · obtain ⟨v, hv, hpg, hsid, -⟩ := hpid a ha
    obtain ⟨w, hw, hpg', hsid', -⟩ := hpid b hb
    rw [hsid, hsid']
    exact h.group v w hv hw (by rw [← hpg, ← hpg', hab])
  · obtain ⟨v, hv, hpg, hsid, -⟩ := hpid a ha
    obtain ⟨w, hw, -, hsid', htg⟩ := hpid b hb
    rw [hsid, hsid']
    rcases htg with htg | htg
    · exact h.leader v w hv hw (by rw [← hpg, ← htg, hab])
    · have hlive := h.wf.slot_pos hv.ne_free .pgid
      rw [← hpg, hab, htg] at hlive
      omega

/-- One task gets another group or session: what has to be compared is this task and
each other one. -/
theorem SessionInv.replace {s s' : State} {t : ℕ} {k : Task} (h : SessionInv s) (hwf : Wf s')
    (htask : s'.task = update s.task t k)
    (hgroup : ∀ u ≠ t, (s.task u).Active → (s.task u).pids .pgid = k.pids .pgid →
      (s.task u).pids .sid = k.pids .sid)
    (hleads : ∀ u ≠ t, (s.task u).Active → (s.task u).pids .pgid = k.pids .tgid →
      (s.task u).pids .sid = k.pids .sid)
    (hled : ∀ u ≠ t, (s.task u).Active → k.pids .pgid = (s.task u).pids .tgid →
      (s.task u).pids .sid = k.pids .sid) : SessionInv s' := by
  have hat : s'.task t = k := by rw [htask, update_self]
  have hne : ∀ u ≠ t, s'.task u = s.task u := by
    intro u hut
    rw [htask, update_of_ne hut]
  refine ⟨hwf, fun a b ha hb hab => ?_, fun a b ha hb hab => ?_⟩
  · by_cases hat' : a = t <;> by_cases hbt : b = t
    · rw [hat', hbt]
    · rw [hat', hat, hne b hbt] at hab ⊢
      exact (hgroup b hbt (hne b hbt ▸ hb) hab.symm).symm
    · rw [hbt, hat, hne a hat'] at hab ⊢
      exact hgroup a hat' (hne a hat' ▸ ha) hab
    · rw [hne a hat', hne b hbt] at *
      exact h.group a b ha hb hab
  · by_cases hat' : a = t <;> by_cases hbt : b = t
    · rw [hat', hbt]
    · rw [hat', hat, hne b hbt] at hab ⊢
      exact (hled b hbt (hne b hbt ▸ hb) hab).symm
    · rw [hbt, hat, hne a hat'] at hab ⊢
      exact hleads a hat' (hne a hat' ▸ ha) hab
    · rw [hne a hat', hne b hbt] at *
      exact h.leader a b ha hb hab

/-- Joining a group of one's own session, or the group of one's own number. -/
theorem SessionInv.setPgid {s s' : State} {t p : ℕ} (h : SessionInv s) (hwf : Wf s')
    (ht : (s.task t).Published) (htarget : p = (s.task t).pids .tgid ∨
      ∃ member, (s.task member).Published ∧ (s.task member).pids .pgid = p ∧
        (s.task member).pids .sid = (s.task t).pids .sid)
    (htask : s'.task = update s.task t ((s.task t).setPid .pgid p)) : SessionInv s' := by
  refine h.replace hwf htask (fun u _ hu hup => ?_) (fun u _ hu hup => ?_) fun u _ hu hup => ?_
  · -- Whoever carries the target group is in the session of the task.
    rcases htarget with htg | ⟨member, hm, hmp, hms⟩
    · exact h.leader u t hu (.inr ht) (hup.trans htg)
    · exact (h.group u member hu (.inr hm) (hup.trans hmp.symm)).trans hms
  · exact h.leader u t hu (.inr ht) hup
  · -- So is whoever the target group is named after.
    replace hup : p = (s.task u).pids .tgid := hup
    change (s.task u).pids .sid = (s.task t).pids .sid
    rcases htarget with htg | ⟨member, hm, hmp, hms⟩
    · have htid := htg.symm.trans hup
      rw [h.wf.tgid t ht.ne_free, h.wf.tgid u hu.ne_free] at htid
      rw [h.wf.tidInj t u ht.ne_free hu.ne_free htid]
    · rw [← hms]
      exact (h.leader member u (.inr hm) hu (hmp.trans hup)).symm

/-- Founding a session when no other active task carries the group. -/
theorem SessionInv.setSid {s s' : State} {t : ℕ} (h : SessionInv s) (hwf : Wf s')
    (ht : (s.task t).Published) (hempty : (s.pid ((s.task t).pids .tgid)).tasks .pgid = [])
    (hprep : ∀ c, (s.task c).phase = .prepared → (s.task c).pids .pgid ≠ (s.task t).pids .tgid)
    (htask : s'.task = update s.task t (s.task t).leadSession) : SessionInv s' := by
  -- The number of the new session names no group that anybody else is in.
  have hfresh : ∀ u, (s.task u).Active → (s.task u).pids .pgid ≠ (s.task t).pids .tgid := by
    rintro u (hu | hu) heq
    · exact hprep u hu heq
    · have hmem := (h.wf.linked _ .pgid u).mpr ⟨hu, heq⟩
      rw [hempty] at hmem
      cases hmem
  refine h.replace hwf htask (fun u _ hu hup => ?_) (fun u _ hu hup => ?_) fun u hut hu hup => ?_
  · exact absurd hup (hfresh u hu)
  · exact absurd hup (hfresh u hu)
  · -- Another process would have to carry the same process number.
    replace hup : (s.task t).pids .tgid = (s.task u).pids .tgid := hup
    rw [h.wf.tgid t ht.ne_free, h.wf.tgid u hu.ne_free] at hup
    exact absurd (h.wf.tidInj t u ht.ne_free hu.ne_free hup).symm hut

/-- Every step that meets the condition keeps the invariant. -/
theorem SessionInv.step {s s' : State} {e : Event} (h : SessionInv s)
    (hok : SetsidMeetsNoFork s e) (hstep : step s e = some s') : SessionInv s' := by
  have hwf := step_wf h.wf hstep
  cases e with
  | fork t child p =>
    simp only [PidTable.step] at hstep
    split at hstep
    next hen =>
      obtain ⟨ht, hc, hp⟩ := hen
      have hct : child ≠ t := by
        rintro rfl
        simp [hc] at ht
      split at hstep
      · cases hstep
        exact h
      next s₁ hprep =>
        obtain ⟨-, -, -, -, htask, -⟩ := pidPrepare_ok hp hprep
        cases hstep
        exact h.fork hwf ht hp hct (forkTask_eq hct htask)
    next => cases hstep
  | publish t =>
    simp only [PidTable.step] at hstep
    split at hstep
    next child hphase =>
      cases hstep
      have hprep := h.wf.fork t child hphase
      refine h.of_le hwf fun u hu => ?_
      rw [(h.wf.publish_wf hphase).2] at hu ⊢
      unfold publishTask at hu ⊢
      by_cases hut : u = t
      · subst hut
        exact ⟨.inr (by simp [Task.Published, hphase]), by simp⟩
      · by_cases huc : u = child
        · subst huc
          exact ⟨.inl hprep, by simp [hut]⟩
        · simp only [update_of_ne hut, update_of_ne huc] at hu ⊢
          exact ⟨hu, trivial⟩
    next => cases hstep
  | setpgid t nr pgid =>
    simp only [PidTable.step] at hstep
    split at hstep
    · split at hstep
      · cases hstep
        exact h
      next s₁ hset =>
        cases hstep
        obtain ⟨task, pgrp, hpub, -, htarget, rfl⟩ := sysSetpgid_ok h.wf hset
        obtain ⟨-, htask⟩ := h.wf.joinGroup hpub (h.wf.target_pos hpub htarget)
        exact h.setPgid hwf hpub htarget htask
    · cases hstep
  | setsid t =>
    simp only [PidTable.step] at hstep
    split at hstep
    next ht =>
      have hpub : (s.task t).Published := by simp [Task.Published, ht]
      split at hstep
      · cases hstep
        exact h
      next s₁ hset =>
        cases hstep
        obtain ⟨hsid, hempty, -, htask⟩ := h.wf.pidSetsid_ok hpub hset
        rcases hok with hlead | hmember | hprep
        · exact absurd hlead hsid
        · exact absurd hempty hmember
        · exact h.setSid hwf hpub hempty hprep htask
    next => cases hstep
  | execve t =>
    simp only [PidTable.step] at hstep
    split at hstep
    · cases hstep
      refine h.of_le hwf fun u hu => ?_
      rw [modTask_task] at hu ⊢
      split at hu
      next hut =>
        subst hut
        exact ⟨hu, by simp⟩
      next hut => exact ⟨hu, by simp [hut]⟩
    · cases hstep
  | exit t =>
    simp only [PidTable.step] at hstep
    split at hstep
    next hen =>
      cases hstep
      refine h.of_le hwf fun u hu => ?_
      by_cases hut : u = t
      · subst hut
        exact ⟨.inr (by simp [Task.Published, hen.1]), by simp [reparentChildren, modTask_task]⟩
      · by_cases hpar : (s.task u).parent = t
        · simp only [reparentChildren, modTask_task, hut, hpar, if_false, ne_eq, not_false_eq_true,
            and_self, if_true] at hu ⊢
          exact ⟨hu, rfl⟩
        · simp only [reparentChildren, modTask_task, hut, hpar, if_false, and_false] at hu ⊢
          exact ⟨hu, trivial⟩
    next => cases hstep
  | reap t child =>
    simp only [PidTable.step] at hstep
    split at hstep
    next hen =>
      cases hstep
      refine h.of_le hwf fun u hu => ?_
      rw [modTask_task, (pidUnpublish_spec s child).1.task] at hu ⊢
      split at hu
      · exact absurd hu (by simp [Task.Active, Task.Published])
      next huc => exact ⟨hu, by simp [huc]⟩
    next => cases hstep
  | taskPut t =>
    simp only [PidTable.step] at hstep
    split at hstep
    next ht =>
      cases hstep
      refine h.of_le hwf fun u hu => ?_
      by_cases hut : u = t
      · subst hut
        exact absurd hu (by simp [Task.Active, Task.Published, taskPut])
      · simp only [taskPut, update_of_ne hut] at hu ⊢
        exact ⟨hu, trivial⟩
    next => cases hstep
  | put p =>
    simp only [PidTable.step] at hstep
    split at hstep
    next hp =>
      cases hstep
      refine h.of_le hwf fun u hu => ?_
      have htask : (pidPut s p).task = s.task := by
        unfold pidPut
        split <;> rfl
      simp only [htask] at hu ⊢
      exact ⟨hu, trivial⟩
    next => cases hstep

/-! ### The initial state -/

theorem boot_eq : ∃ s, pidPrepare empty initTask none 0 = .ok s ∧
    boot = modTask (pidPublish s initTask) initTask fun k => k.setPhase .running := by
  have hnr : findNr empty = some 1 := by decide
  unfold boot pidPrepare pidAlloc
  rw [hnr]
  exact ⟨_, rfl, rfl⟩

theorem preparePids_boot (ty : PidType) : preparePids empty none 0 ty = 0 := by
  cases ty <;> rfl

/-- The only task at the start is `init`. -/
theorem boot_task (u : ℕ) : boot.task u = if u = 0 then
    ({ empty.task 0 with pids := preparePids empty none 0 } : Task).setPhase .running
    else empty.task u := by
  obtain ⟨s, hprep, hboot⟩ := boot_eq
  obtain ⟨-, -, -, -, htask, -⟩ := pidPrepare_ok rfl hprep
  rw [hboot, modTask_task, (pidPublish_spec s initTask).1.task, htask]
  by_cases hu : u = initTask
  · subst hu; simp [initTask]
  · have hu' : u ≠ 0 := hu
    simp [hu, hu']

/-- The only object at the start is the one of `init`. -/
theorem boot_refcount (q : ℕ) : (boot.pid q).refcount = if q = 0 then 4 else 0 := by
  obtain ⟨s, hprep, hboot⟩ := boot_eq
  obtain ⟨-, -, -, -, -, hcount, -⟩ := pidPrepare_ok rfl hprep
  rw [hboot, modTask_pid, (pidPublish_spec s initTask).1.refcount, hcount]
  simp only [PidType.all, List.map_cons, List.map_nil, preparePids_boot]
  by_cases hq : q = 0
  · subst hq; rfl
  · simp [empty, hq, Ne.symm hq]

/-- `init` starts as its own process, group and session. -/
theorem boot_sessionInv : SessionInv boot := by
  obtain ⟨s, hprep, hboot⟩ := boot_eq
  obtain ⟨nr, -, hmap, hheld, htask, hcount, hnr, htasks⟩ := pidPrepare_ok rfl hprep
  obtain ⟨⟨-, hheld', hmap', hnr', -⟩, hlist⟩ := pidPublish_spec s initTask
  have hfree : ∀ u, (boot.task u).phase ≠ .free → u = 0 := by
    intro u hu
    by_contra hne
    rw [boot_task, if_neg hne] at hu
    exact hu rfl
  have hslot : ∀ ty, (boot.task 0).pids ty = 0 := by
    intro ty
    rw [boot_task, if_pos rfl]
    exact preparePids_boot ty
  have hlive : ∀ q, 0 < (boot.pid q).refcount → q = 0 := by
    intro q hq
    rw [boot_refcount] at hq
    by_contra hne
    simp [hne] at hq
  have hwf : Wf boot := by
    refine ⟨?_, ?_, ?_, ?_, ?_, ?_, ?_, ?_⟩
    · intro a b ha hb _
      rw [hlive a ha, hlive b hb]
    · intro a ha
      obtain rfl := hlive a ha
      rw [hboot, modTask_pid, modTask_pidmap, hmap', hmap, hnr', hnr]
      simp
    · refine ⟨{0}, fun u hu => ?_, fun q => ?_⟩
      · by_contra hne
        exact hu (by simp [hfree u hne])
      · rw [Finset.sum_singleton, boot_refcount, hboot, modTask_held, hheld', hheld, ← hboot,
          slotCount_of_ne_free (by rw [boot_task, if_pos rfl]; simp)]
        simp only [PidType.all, List.map_cons, List.map_nil, hslot, empty, List.count_nil]
        by_cases hq : q = 0
        · subst hq; rfl
        · simp [hq, Ne.symm hq]
    · intro q ty u
      rw [hboot, modTask_pid, hlist, htasks, ← hboot]
      have hnil : u ∉ (if q = 0 then fun _ => [] else (empty.pid q).tasks) ty := by
        split <;> simp [empty]
      have hs : (s.task initTask).pids ty = 0 := by
        rw [htask]
        simpa using preparePids_boot ty
      rw [hs]
      simp only [hnil, false_or]
      constructor
      · rintro ⟨rfl, rfl⟩
        refine ⟨?_, hslot ty⟩
        rw [boot_task]
        simp [initTask, Task.Published]
      · rintro ⟨hpub, heq⟩
        obtain rfl := hfree u hpub.ne_free
        exact ⟨rfl, heq.symm.trans (hslot ty)⟩
    · intro u hu
      obtain rfl := hfree u hu
      rw [hslot, hslot]
    · intro a b ha hb _
      rw [hfree a ha, hfree b hb]
    · intro a c hac
      rw [boot_task] at hac
      split at hac
      · cases hac
      · cases hac
    · intro a b c ha _
      rw [boot_task] at ha
      split at ha
      · cases ha
      · cases ha
  refine ⟨hwf, fun a b ha hb _ => ?_, fun a b ha hb _ => ?_⟩
  · rw [hfree a ha.ne_free, hfree b hb.ne_free]
  · rw [hfree a ha.ne_free, hfree b hb.ne_free]

/-! ### The group law -/

/-- In every run whose `pid_setsid` steps meet no prepared child of their own group,
published tasks of one process group are in one session, in every state reached. -/
theorem groupsInOneSession_of_setsidMeetsNoFork (s : State)
    (h : Reachable (· = boot) (Guarded (Graph step) SetsidMeetsNoFork) s) :
    GroupsInOneSession s := by
  have hinv : SessionInv s := by
    refine Reachable.invariant ?_ ?_ h
    · rintro s rfl
      exact boot_sessionInv
    · intro s e t hs hstep
      exact hs.step hstep.1 hstep.2
  exact hinv.groupsInOneSession

/-- The run: `X` leads group 2 and `P` joins it; `X` moves back to group 1; `P` forks
`C`; `init` moves `P` into a group of its own; `X` founds a session while `C` still
carries group 2; `C` is published. -/
def splitRun : List Event :=
  [.fork 0 1 1, .publish 0, .fork 0 2 2, .publish 0,
   .setpgid 1 0 0, .setpgid 2 0 2, .setpgid 1 0 1,
   .fork 2 3 3, .setpgid 0 3 3, .setsid 1, .publish 2]

/-- A session founded during a fork splits the process group of the forked child:
the law fails in a state the system reaches. -/
theorem setsid_during_fork_splits_group :
    ∃ s, Reachable (· = boot) (Graph step) s ∧ ¬ GroupsInOneSession s := by
  have hrun : ((exec step boot splitRun).map fun s =>
      decide ((s.task 1).Published ∧ (s.task 3).Published ∧ pgidNr s 1 = pgidNr s 3 ∧
        sidNr s 1 ≠ sidNr s 3)) = some true := by
    decide +kernel
  obtain ⟨s, hexec, hs⟩ := Option.map_eq_some_iff.mp hrun
  obtain ⟨hx, hc, hpgid, hsid⟩ := of_decide_eq_true hs
  exact ⟨s, Reachable.exec (.init rfl) hexec, fun hlaw => hsid (hlaw 1 3 hx hc hpgid)⟩

/-- A child that leads its own group is refused a new session: a run that meets the
condition, with two groups in one session at its end. -/
theorem groupsInOneSession_after_refused_setsid :
    ∃ s, Reachable (· = boot) (Guarded (Graph step) SetsidMeetsNoFork) s ∧
      GroupsInOneSession s ∧ pgidNr s 0 = 1 ∧ pgidNr s 1 = 2 ∧ sidNr s 1 = 1 := by
  have hrun : ((exec step boot [.fork 0 1 1, .publish 0, .setpgid 1 0 0]).bind fun s =>
      (step s (.setsid 1)).map fun s' =>
        decide ((s.pid ((s.task 1).pids .tgid)).tasks .pgid ≠ [] ∧ pgidNr s' 0 = 1 ∧
          pgidNr s' 1 = 2 ∧ sidNr s' 1 = 1)) = some true := by
    decide +kernel
  obtain ⟨s, hexec, hs⟩ := Option.bind_eq_some_iff.mp hrun
  obtain ⟨s', hset, hs'⟩ := Option.map_eq_some_iff.mp hs
  obtain ⟨hmember, hobs⟩ := of_decide_eq_true hs'
  have hreach : Reachable (· = boot) (Guarded (Graph step) SetsidMeetsNoFork) s := by
    refine Reachable.exec_guarded ?_ (.init rfl) hexec
    intro e he s
    simp only [List.mem_cons, List.not_mem_nil, or_false] at he
    rcases he with rfl | rfl | rfl <;> trivial
  have hok : SetsidMeetsNoFork s (.setsid 1) := .inr (.inl hmember)
  have hreach' := Reachable.step hreach ⟨hok, hset⟩
  exact ⟨s', hreach', groupsInOneSession_of_setsidMeetsNoFork s' hreach', hobs⟩

end Nuvix.PidTable
