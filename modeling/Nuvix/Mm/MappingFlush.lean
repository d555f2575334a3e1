import Nuvix.Mm.MappingStep

/-!
# What a successful `mapping_flush` guarantees

A flush collects the dirty pages, samples `m_error`, and then writes the pages it
collected. The writeback of a page may also be done by another task, and then a
failure shows in `m_error` only. For a mapping with a mutex this cannot happen
while the flush runs. For a mapping without one, such as that of the ext2
metadata, a failure of another task between the sample and the return is lost:
the flush finds the page clean and returns zero.
-/

namespace Nuvix.Mapping

open Transition

variable {N : ℕ} {hasMutex : ℕ → Bool} {s₁ s s' : State N} {t u : Fin N} {m c : ℕ}
  {tr : List (Fin N × Action)} {a : Action} {ph : Phase} {ret : ℤ} {b : Fin N × Action}

/-! ### The pages of a flush -/

/-- A page of `m` that is dirty or under writeback. -/
def Due (s : State N) (m c : ℕ) : Prop :=
  (s.cache.page c).mapping = m ∧ (s.cache.page c).state ≠ .clean

/-- A `write_page` of `c` has returned `ret`: in the trace, or it had returned at its
start to a task that has not recorded the result yet. -/
def Returned (s₁ : State N) (tr : List (Fin N × Action)) (c : ℕ) (ret : ℤ) : Prop :=
  (∃ u, (u, .writePage c ret) ∈ tr) ∨ ∃ u k, (s₁.task u).pc = .wbDone c ret k

/-- `mapping_purge` has removed `c`. -/
def Removed (tr : List (Fin N × Action)) (c : ℕ) : Prop := ∃ u, (u, .remove c) ∈ tr

/-- The page has been written, with any result, or removed. -/
def Settled (s₁ : State N) (tr : List (Fin N × Action)) (c : ℕ) : Prop :=
  (∃ ret, Returned s₁ tr c ret) ∨ Removed tr c

/-- The write of a page the flush answers for has failed. -/
def Failed (s₁ : State N) (m : ℕ) (tr : List (Fin N × Action)) : Prop :=
  ∃ c ret, Due s₁ m c ∧ Returned s₁ tr c ret ∧ ret ≠ 0

/-- Task `u` has failed to write page `c` and has not recorded it yet. -/
def PendingFailure (s : State N) (u : Fin N) (c : ℕ) : Prop :=
  ∃ ret k, (s.task u).pc = .wbDone c ret k ∧ ret ≠ 0

theorem Returned.snoc (h : Returned s₁ tr c ret) : Returned s₁ (tr ++ [b]) c ret := by
  rcases h with ⟨u, hu⟩ | hpc
  · exact .inl ⟨u, List.mem_append_left _ hu⟩
  · exact .inr hpc

theorem Settled.snoc (h : Settled s₁ tr c) : Settled s₁ (tr ++ [b]) c := by
  rcases h with ⟨ret, hret⟩ | ⟨u, hu⟩
  · exact .inl ⟨ret, hret.snoc⟩
  · exact .inr ⟨u, List.mem_append_left _ hu⟩

/-- A result that one more action has added is the one this action returned. -/
theorem Returned.of_snoc (h : Returned s₁ (tr ++ [(u, a)]) c ret) :
    Returned s₁ tr c ret ∨ a = .writePage c ret := by
  rcases h with ⟨v, hv⟩ | hpc
  · rcases List.mem_append.mp hv with hmem | hlast
    · exact .inl (.inl ⟨v, hmem⟩)
    · exact .inr (Prod.mk.inj (List.mem_singleton.mp hlast)).2.symm
  · exact .inl (.inr hpc)

/-! ### How far a flush is -/

/-- The three phases of `mapping_flush`: before the collection, before the sample of
`m_error`, and with its result so far and the pages still to write. -/
inductive Phase
  | collecting
  | sampling (pages : List ℕ)
  | writing (ret : ℤ) (pages : List ℕ)

/-- The mapping a task flushes, and the phase. -/
def Pc.phase : Pc → Option (ℕ × Phase)
  | .flushAlloc m | .flushCollect m => some (m, .collecting)
  | .flushSample m pages => some (m, .sampling pages)
  | .flushNext m ret pages | .put _ (.flush m ret pages) | .wbDone _ _ (.flush m ret pages) =>
    some (m, .writing ret pages)
  | .wbLock c (.flush m ret rest) | .wbTest c (.flush m ret rest)
  | .wbWrite c (.flush m ret rest) => some (m, .writing ret (c :: rest))
  | .wbUnlock _ err (.flush m ret rest) =>
    some (m, .writing (if err ≠ 0 ∧ ret = 0 then err else ret) rest)
  | _ => none

/-- A failure that has been recorded will be reported. -/
def Phase.Reports (s : State N) (m : ℕ) : Phase → Prop
  | .collecting | .sampling _ => s.cache.mError m ≠ 0
  | .writing ret _ => ret ≠ 0

/-- The flush still comes to page `c`, or fails. -/
def Phase.Covers (c : ℕ) : Phase → Prop
  | .collecting => True
  | .sampling pages => c ∈ pages
  | .writing ret pages => ret ≠ 0 ∨ c ∈ pages

/-- Task `t`, which entered its flush of `m` in `s₁`, is past its sample of `m_error`, and
another task has failed to write a page the flush answers for. -/
def LateFailure (s₁ s : State N) (t : Fin N) (m : ℕ) : Prop :=
  (∃ ret pages, (s.task t).pc.phase = some (m, .writing ret pages)) ∧
    ∃ u c, u ≠ t ∧ Due s₁ m c ∧ PendingFailure s u c

/-- What one step of the flushing task does. -/
structure PhaseStep (s : State N) (t : Fin N) (a : Action) (s' : State N) (m : ℕ)
    (ph ph' : Phase) : Prop where
  phase : (s'.task t).pc.phase = some (m, ph')
  reports : ph.Reports s m → ph'.Reports s' m
  pending : ∀ c, PendingFailure s t c → ph'.Reports s' m
  covers : ∀ c, (s.cache.page c).mapping = m → ph.Covers c →
    ph'.Covers c ∨ (s.cache.page c).state = .clean ∨ ∃ ret, a = .writePage c ret

theorem Phase.Reports.mono (h : ph.Reports s m)
    (herror : s.cache.mError m ≠ 0 → s'.cache.mError m ≠ 0) : ph.Reports s' m := by
  cases ph with
  | collecting | sampling pages => exact herror h
  | writing ret pages => exact h

/-- A step that keeps the phase and the recorded errors. -/
theorem PhaseStep.of_eq (hphase : (s'.task t).pc.phase = some (m, ph))
    (herror : s.cache.mError m ≠ 0 → s'.cache.mError m ≠ 0)
    (hpending : ∀ c, ¬ PendingFailure s t c) :
    PhaseStep s t a s' m ph ph where
  phase := hphase
  reports h := h.mono herror
  pending c h := absurd h (hpending c)
  covers _ _ hc := .inl hc

/-- A task that is not before the second section of a writeback has nothing to
record. -/
theorem not_pendingFailure (hpc : ∀ c ret k, (s.task t).pc ≠ .wbDone c ret k) :
    ∀ c, ¬ PendingFailure s t c := by
  rintro c ⟨ret, k, h, -⟩
  exact hpc c ret k h

/-- A page that a task has locked for a writeback and finds not dirty is clean: the
writer would hold the mutex. -/
theorem Inv.clean_of_wbTest {k : Cont} (h : Inv s) (hpc : (s.task t).pc = .wbTest c k)
    (hdirty : (s.cache.page c).state.dirty = false) : (s.cache.page c).state = .clean := by
  have hholder : (s.cache.page c).holder = some t :=
    (h.page c).locked t (by simp [hpc, Pc.locked])
  have hwb : (s.cache.page c).state.writeback = false := by
    by_contra hwb
    rw [Bool.not_eq_false] at hwb
    obtain ⟨u, hu⟩ := (h.page c).writing hwb
    have hlocked := (h.page c).locked u (((s.task u).role c).writing_locked hu)
    cases hholder.symm.trans hlocked
    simp [hpc, Pc.writing] at hu
  cases hst : (s.cache.page c).state
  rw [hst] at hdirty hwb
  exact congrArg₂ PageState.mk hdirty hwb

/-- The flush goes on past a page that is clean or has just been written. -/
theorem PhaseStep.of_next {d : ℕ} {rest : List ℕ}
    (hphase : (s'.task t).pc.phase = some (m, .writing ret rest))
    (hpending : ∀ c, ¬ PendingFailure s t c)
    (hd : (s.cache.page d).state = .clean ∨ ∃ ret, a = .writePage d ret) :
    PhaseStep s t a s' m (.writing ret (d :: rest)) (.writing ret rest) := by
  refine ⟨hphase, id, fun c h => absurd h (hpending c), fun c _ hc => ?_⟩
  rcases hc with hret | hmem
  · exact .inl (.inl hret)
  · rcases List.mem_cons.mp hmem with rfl | hrest
    · exact .inr hd
    · exact .inl (.inr hrest)

/-- A step of the flushing task other than its return. -/
theorem step_phase (h : Inv s) (hph : (s.task t).pc.phase = some (m, ph))
    (hret : ∀ ret, a ≠ .flushReturn ret) (hstep : step hasMutex s (t, a) = some s') :
    ∃ ph', PhaseStep s t a s' m ph ph' := by
  obtain ⟨lost, hk, -⟩ := (step_keeps h hstep).cache
  have herror := hk.error m
  obtain ⟨pc, hpc, hmove⟩ := step_move hstep
  rw [hpc] at hph
  have hquiet : (∀ c ret k, pc ≠ .wbDone c ret k) → ∀ c, ¬ PendingFailure s t c := fun hne =>
    not_pendingFailure (by rwa [hpc])
  -- only the places of a flush have a phase, and of the others only those of `mapping_flush`
  cases hmove with
  | flushReturn => exact absurd rfl (hret _)
  | flushAlloc | flushNext =>
    cases hph
    exact ⟨_, .of_eq (by rw [setPc_pc]; rfl) herror (hquiet nofun)⟩
  | flushAllocFail =>
    cases hph
    have henomem : -Errno.enomem.code ≠ 0 := by decide
    exact ⟨.writing (-Errno.enomem.code) [], ⟨by rw [setPc_pc]; rfl, fun _ => henomem,
      fun c h => absurd h (hquiet nofun c), fun c _ _ => .inl (.inl henomem)⟩⟩
  | flushCollect =>
    cases hph
    refine ⟨.sampling _, ⟨by rw [setPc_pc]; rfl, id, fun c h => absurd h (hquiet nofun c),
      fun c hc _ => ?_⟩⟩
    -- everything that is not clean is on the dirty list
    by_cases hclean : (s.cache.page c).state = .clean
    · exact .inr (.inl hclean)
    · exact .inl (List.mem_filter.mpr ⟨(h.page c).dirty.mpr hclean, by simp [hc]⟩)
  | flushSample =>
    cases hph
    exact ⟨.writing (s.cache.mError m) _, ⟨by rw [setPc_pc]; rfl, id,
      fun c h => absurd h (hquiet nofun c), fun c _ hc => .inl (.inr hc)⟩⟩
  | putPanic =>
    exact ⟨_, .of_eq (by change (s.task t).pc.phase = _; rwa [hpc]) herror (hquiet nofun)⟩
  | @putLast c k | @putRef c k | @wbLock c k =>
    refine ⟨ph, .of_eq ?_ herror (hquiet nofun)⟩
    rw [setPc_pc]
    cases k <;> exact hph
  | @wbUnlock c err k =>
    refine ⟨ph, .of_eq ?_ herror (hquiet nofun)⟩
    rw [setThread_pc]
    cases k <;> exact hph
  | @wbClean c k hdirty =>
    cases k <;> cases hph
    exact ⟨_, .of_next (by rw [setPc_pc]; rfl) (hquiet nofun) (.inl (h.clean_of_wbTest hpc hdirty))⟩
  | @wbBegin c k =>
    cases k <;> cases hph
    exact ⟨_, .of_eq (by rw [setPc_pc]; rfl) herror (hquiet nofun)⟩
  | @writePage c ret' k =>
    cases k <;> cases hph
    exact ⟨_, .of_next (by rw [setPc_pc]; rfl) (hquiet nofun) (.inr ⟨ret', rfl⟩)⟩
  | @wbDone c err k =>
    cases k <;> cases hph
    next ret rest =>
      -- the result of the flush takes up the failure
      have hreports : ret ≠ 0 ∨ err ≠ 0 → (if err ≠ 0 ∧ ret = 0 then err else ret) ≠ 0 := by
        intro hne
        split_ifs with hcond
        · exact hcond.1
        · tauto
      refine ⟨.writing (if err ≠ 0 ∧ ret = 0 then err else ret) rest, ⟨by rw [setPc_pc]; rfl,
        fun hret => hreports (.inl hret), ?_, ?_⟩⟩
      · rintro c' ⟨ret', k', hpc', hret'⟩
        rw [hpc] at hpc'
        cases hpc'
        exact hreports (.inr hret')
      · intro x _ hx
        exact .inl (hx.imp_left fun hret => hreports (.inl hret))
  | _ => cases hph

/-! ### From the entry to the return -/

/-- What holds in a run since the state `s₁` in which task `t` entered its flush of
`m`. -/
structure FlushInv (s₁ : State N) (t : Fin N) (m : ℕ) (tr : List (Fin N × Action)) (s : State N) :
    Prop where
  inv : Inv s
  mapping : ∀ c, Due s₁ m c → c < s.cache.next ∧ (s.cache.page c).mapping = m
  state : ∀ c, Due s₁ m c → (s.cache.page c).state ≠ .clean ∨ Settled s₁ tr c
  returned : ∀ u c ret k, (s.task u).pc = .wbDone c ret k → Returned s₁ tr c ret
  phase : ∃ ph, (s.task t).pc.phase = some (m, ph) ∧
    (Failed s₁ m tr → ph.Reports s m ∨ ∃ u c, Due s₁ m c ∧ PendingFailure s u c) ∧
    ∀ c, Due s₁ m c → ph.Covers c ∨ Settled s₁ tr c

/-- A due page has been created. -/
theorem Due.lt_next (h : Inv s) (hc : Due s m c) : c < s.cache.next := by
  refine Nat.lt_of_not_le fun hle => ?_
  exact ((h.page c).unborn hle).1 ((h.page c).busy hc.2)

theorem flush_entry (hstep : step hasMutex s (t, .flush m) = some s') :
    (s.task t).pc = .idle ∧ s' = s.setPc t (.flushAlloc m) := by
  obtain ⟨pc, hpc, hmove⟩ := step_move hstep
  cases hmove with
  | flush => exact ⟨hpc, rfl⟩

/-- The second section of a writeback records the failure. -/
theorem PendingFailure.record (h : PendingFailure s u c)
    (hstep : step hasMutex s (u, a) = some s') :
    s'.cache.mError (s.cache.page c).mapping ≠ 0 := by
  obtain ⟨ret, k, hdone, hret⟩ := h
  obtain ⟨pc, hpc, hmove⟩ := step_move hstep
  obtain rfl := hpc.symm.trans hdone
  cases hmove with
  | wbDone =>
    change (s.cache.finish c ret).mError _ ≠ 0
    simp [Cache.finish, hret, Cache.setRefs, Cache.setState, Cache.setPage]

/-- Recorded by another task before the sample, it will be reported; after the
sample it is late. -/
theorem PendingFailure.reports (h : PendingFailure s u c) (hc : Due s₁ m c)
    (hmapping : (s.cache.page c).mapping = m) (hph : (s.task t).pc.phase = some (m, ph))
    (hlate : ¬ LateFailure s₁ s t m) (hne : u ≠ t) (hstep : step hasMutex s (u, a) = some s') :
    ph.Reports s' m := by
  cases ph with
  | collecting | sampling pages => exact hmapping ▸ h.record hstep
  | writing ret pages => exact absurd ⟨⟨ret, pages, hph⟩, u, c, hne, hc, h⟩ hlate

theorem FlushInv.entry (h : Inv s₁) (hstep : Mapping.step hasMutex s₁ (t, .flush m) = some s) :
    FlushInv s₁ t m [] s := by
  have hinv := h.step hstep
  obtain ⟨hidle, rfl⟩ := flush_entry hstep
  have hpc : ∀ {u c ret k}, ((s₁.setPc t (.flushAlloc m)).task u).pc = .wbDone c ret k →
      (s₁.task u).pc = .wbDone c ret k := by
    intro u c ret k hu
    rcases eq_or_ne u t with rfl | hne
    · rw [setPc_pc] at hu
      cases hu
    · rwa [setPc_task_of_ne hne] at hu
  have hborn : ∀ c, Due s₁ m c → c < s₁.cache.next := fun c hc => hc.lt_next h
  refine ⟨hinv, fun c hc => ⟨hborn c hc, hc.1⟩, fun c hc => .inl hc.2,
    fun u c ret k hu => .inr ⟨u, k, hpc hu⟩, .collecting, by rw [setPc_pc]; rfl, ?_,
    fun c _ => .inl trivial⟩
  rintro ⟨c, ret, hc, ⟨u, hu⟩ | ⟨u, k, hu⟩, hret⟩
  · cases hu
  · have hne : u ≠ t := by
      rintro rfl
      rw [hidle] at hu
      cases hu
    exact .inr ⟨u, c, hc, ret, k, by rw [setPc_task_of_ne hne, hu], hret⟩

/-- One step of any task, unless a late failure is pending. -/
theorem FlushInv.step (h : FlushInv s₁ t m tr s) (hlate : ¬ LateFailure s₁ s t m)
    (hret : ∀ ret, (u, a) ≠ (t, .flushReturn ret))
    (hstep : Mapping.step hasMutex s (u, a) = some s') : FlushInv s₁ t m (tr ++ [(u, a)]) s' := by
  have hkeeps := step_keeps h.inv hstep
  obtain ⟨lost, hk, hlost⟩ := hkeeps.cache
  have hmapping : ∀ c, Due s₁ m c → c < s'.cache.next ∧ (s'.cache.page c).mapping = m := by
    intro c hc
    obtain ⟨hlt, hm⟩ := h.mapping c hc
    exact ⟨hlt.trans_le hk.next, (hk.mapping c hlt).trans hm⟩
  have hreturned : ∀ v c ret k, (s'.task v).pc = .wbDone c ret k →
      Returned s₁ (tr ++ [(u, a)]) c ret := by
    intro v c ret k hv
    rcases eq_or_ne v u with rfl | hne
    · rw [action_of_wbDone hstep hv]
      exact .inl ⟨v, List.mem_append_right _ List.mem_cons_self⟩
    · rw [hkeeps.task v hne] at hv
      exact (h.returned v c ret k hv).snoc
  refine ⟨h.inv.step hstep, hmapping, fun c hc => ?_, hreturned, ?_⟩
  · -- a page becomes clean only when it is settled
    by_cases hclean : (s'.cache.page c).state = .clean
    · right
      rcases hk.state c hclean with hbefore | hc'
      · exact ((h.state c hc).resolve_left (not_not_intro hbefore)).snoc
      · rcases hlost c hc' with rfl | ⟨ret, k, hpc, -⟩
        · exact .inr ⟨u, List.mem_append_right _ List.mem_cons_self⟩
        · exact .inl ⟨ret, (h.returned u c ret k hpc).snoc⟩
    · exact .inl hclean
  · obtain ⟨ph, hph, hfail, hcover⟩ := h.phase
    -- a new failure is pending in the task whose write has returned
    have hfails : ∀ {ph' : Phase}, (ph.Reports s m → ph'.Reports s' m) →
        (∀ c, Due s₁ m c → PendingFailure s u c → ph'.Reports s' m) → Failed s₁ m (tr ++ [(u, a)]) →
        ph'.Reports s' m ∨ ∃ v c, Due s₁ m c ∧ PendingFailure s' v c := by
      rintro ph' hreports hpending ⟨c, ret, hc, hr, hne⟩
      rcases hr.of_snoc with hold | rfl
      · rcases hfail ⟨c, ret, hc, hold, hne⟩ with hrep | ⟨v, d, hd, hv⟩
        · exact .inl (hreports hrep)
        · rcases eq_or_ne v u with rfl | hvu
          · exact .inl (hpending d hd hv)
          · refine .inr ⟨v, d, hd, ?_⟩
            rwa [PendingFailure, hkeeps.task v hvu]
      · obtain ⟨k, -, hpc⟩ := pc_of_writePage hstep
        exact .inr ⟨u, c, hc, ret, k, hpc, hne⟩
    rcases eq_or_ne u t with rfl | hne
    · obtain ⟨ph', hps⟩ := step_phase h.inv hph (fun ret ha => hret ret (by rw [ha])) hstep
      refine ⟨ph', hps.phase, hfails hps.reports fun c _ => hps.pending c, fun c hc => ?_⟩
      rcases hcover c hc with hcov | hset
      · rcases hps.covers c (h.mapping c hc).2 hcov with hcov' | hclean | ⟨ret, rfl⟩
        · exact .inl hcov'
        · exact .inr ((h.state c hc).resolve_left (not_not_intro hclean)).snoc
        · exact .inr (.inl ⟨ret, .inl ⟨u, List.mem_append_right _ List.mem_cons_self⟩⟩)
      · exact .inr hset.snoc
    · exact ⟨ph, by rw [hkeeps.task t hne.symm, hph], hfails (fun hrep => hrep.mono (hk.error m))
        fun c hc hv => hv.reports hc (h.mapping c hc).2 hph hlate hne hstep,
        fun c hc => (hcover c hc).imp_right Settled.snoc⟩

/-- The ownership of the mutexes in every reachable state. -/
theorem Reaches.ownerInv (h : Reaches hasMutex s) : OwnerInv hasMutex s := by
  have hinit : ∀ s : State N, s = boot N → Inv s ∧ OwnerInv hasMutex s := by
    rintro s rfl
    exact ⟨inv_boot, fun t => trivial⟩
  have hstep : ∀ (s : State N) a s', Inv s ∧ OwnerInv hasMutex s → Graph (step hasMutex) s a s' →
      Inv s' ∧ OwnerInv hasMutex s' := fun s a s' hs hstep =>
    ⟨hs.1.step hstep, hs.2.step hs.1 hstep⟩
  exact (h.invariant hinit hstep).2

/-- A flushing task holds the mutex of the mapping. -/
theorem Pc.Owned.of_phase {pc : Pc} (h : pc.Owned hasMutex s t) (hph : pc.phase = some (m, ph)) :
    AssertLocked hasMutex s t m := by
  cases pc with
  | flushAlloc m' | flushCollect m' =>
    cases hph
    exact h
  | flushSample m' pages | flushNext m' ret pages =>
    cases hph
    exact h.1
  | put c k =>
    cases k <;> cases hph
    exact h.1
  | wbLock c k | wbTest c k | wbWrite c k | wbDone c err k | wbUnlock c err k =>
    cases k <;> cases hph
    exact h.2.1.1
  | _ => cases hph

/-- No failure is late for a mapping with a mutex: the flush holds it. -/
theorem FlushInv.not_lateFailure (h : FlushInv s₁ t m tr s) (hown : OwnerInv hasMutex s)
    (hm : hasMutex m = true) : ¬ LateFailure s₁ s t m := by
  rintro ⟨⟨ret, pages, hph⟩, u, c, hne, hc, err, k, hpc, -⟩
  obtain ⟨-, rfl⟩ := h.mapping c hc
  have hu : s.owner (s.cache.page c).mapping = some u := by
    have howned := hown u
    rw [hpc] at howned
    exact howned.1 hm
  have ht : s.owner (s.cache.page c).mapping = some t := (hown t).of_phase hph hm
  exact hne (Option.some.inj (hu.symm.trans ht))

/-- Task `t` stays in its flush. -/
def Flushes (t : Fin N) (b : Fin N × Action) : Prop := ∀ ret, b ≠ (t, .flushReturn ret)

/-- Task `t` stays in its flush of `m`, and no failure is late. -/
def InTime (hasMutex : ℕ → Bool) (s₁ : State N) (t : Fin N) (m : ℕ) (s : State N)
    (b : Fin N × Action) : Prop :=
  Flushes t b ∧ (hasMutex m = true ∨ ¬ LateFailure s₁ s t m)

/-- No failure is late in any state of the run, its last one included. -/
def TimelyRun (hasMutex : ℕ → Bool) (s₁ : State N) (t : Fin N) (m : ℕ) (s₂ : State N)
    (tr : List (Fin N × Action)) (s : State N) : Prop :=
  Run (Guarded (Graph (step hasMutex)) (InTime hasMutex s₁ t m)) s₂ tr s ∧ ¬ LateFailure s₁ s t m

section

variable {s₂ : State N} (h : FlushInv s₁ t m [] s₂) (hown : OwnerInv hasMutex s₂)
include h hown

/-- The invariant at the end of every run without late failures. -/
theorem FlushInv.run
    (hrun : Run (Guarded (Graph (Mapping.step hasMutex)) (InTime hasMutex s₁ t m)) s₂ tr s) :
    FlushInv s₁ t m tr s ∧ OwnerInv hasMutex s := by
  have hstep : ∀ tr s b s', FlushInv s₁ t m tr s ∧ OwnerInv hasMutex s →
      Guarded (Graph (Mapping.step hasMutex)) (InTime hasMutex s₁ t m) s b s' →
      FlushInv s₁ t m (tr ++ [b]) s' ∧ OwnerInv hasMutex s' := by
    rintro tr s ⟨u, a⟩ s' ⟨hflush, hown⟩ ⟨⟨hret, htime⟩, hstep⟩
    have hlate : ¬ LateFailure s₁ s t m := htime.elim (hflush.not_lateFailure hown) id
    exact ⟨hflush.step hlate hret hstep, hown.step hflush.inv hstep⟩
  exact hrun.history ⟨h, hown⟩ hstep

/-- A failure that is late is one of a page the flush answers for, so a run with none of
those is in time. -/
theorem FlushInv.inTime
    (hrun : Run (Guarded (Graph (Mapping.step hasMutex)) fun _ => Flushes t) s₂ tr s) :
    Failed s₁ m tr ∨ TimelyRun hasMutex s₁ t m s₂ tr s := by
  -- a late failure at the end of a run in time
  have hlast : ∀ tr s,
      Run (Guarded (Graph (Mapping.step hasMutex)) (InTime hasMutex s₁ t m)) s₂ tr s →
      Failed s₁ m tr ∨ TimelyRun hasMutex s₁ t m s₂ tr s := by
    intro tr s hrun
    by_cases hlate : LateFailure s₁ s t m
    · obtain ⟨-, u, c, -, hc, ret, k, hpc, hret⟩ := hlate
      exact .inl ⟨c, ret, hc, (h.run hown hrun).1.returned u c ret k hpc, hret⟩
    · exact .inr ⟨hrun, hlate⟩
  refine hrun.history (H := fun tr s => Failed s₁ m tr ∨ TimelyRun hasMutex s₁ t m s₂ tr s)
    (hlast [] s₂ (.nil s₂)) ?_
  rintro tr s b s' (⟨c, ret, hc, hr, hret⟩ | ⟨hrun, hlate⟩) ⟨hflush, hstep⟩
  · exact .inl ⟨c, ret, hc, hr.snoc, hret⟩
  · exact hlast _ _ (hrun.snoc ⟨⟨hflush, .inr hlate⟩, hstep⟩)

end

theorem flush_return (hstep : step hasMutex s (t, .flushReturn ret) = some s') :
    ∃ m, (s.task t).pc = .flushNext m ret [] := by
  obtain ⟨pc, hpc, hmove⟩ := step_move hstep
  cases hmove with
  | flushReturn => exact ⟨_, hpc⟩

/-- Every page of `m` that was dirty or under writeback in `s₁` has been written
successfully or removed, and no write of such a page has failed. -/
def Durable (s₁ : State N) (m : ℕ) (tr : List (Fin N × Action)) : Prop :=
  ∀ c, Due s₁ m c → (Returned s₁ tr c 0 ∨ Removed tr c) ∧ ∀ ret, Returned s₁ tr c ret → ret = 0

/-- A flush of `m` that returns zero has made the pages that were due at its entry
durable, exactly when the failure of another task to write one of them was pending in no
state of the run in which the flush was past its sample. With a mutex none is. -/
theorem flush_durable {s₂ s₃ s₄ : State N} (h : Reaches hasMutex s₁)
    (hentry : step hasMutex s₁ (t, .flush m) = some s₂)
    (hrun : Run (Guarded (Graph (step hasMutex)) fun _ => Flushes t) s₂ tr s₃)
    (hreturn : step hasMutex s₃ (t, .flushReturn 0) = some s₄) :
    (hasMutex m = true → Durable s₁ m tr) ∧
      (Durable s₁ m tr ↔ TimelyRun hasMutex s₁ t m s₂ tr s₃) := by
  have hfirst := FlushInv.entry h.inv hentry
  have hown₂ := h.ownerInv.step h.inv hentry
  -- a run in time, with no late failure at its end
  have htime : TimelyRun hasMutex s₁ t m s₂ tr s₃ → Durable s₁ m tr := by
    rintro ⟨hrun, hlate⟩ c hc
    obtain ⟨hflush, -⟩ := hfirst.run hown₂ hrun
    obtain ⟨ph, hph, hfail, hcover⟩ := hflush.phase
    obtain ⟨m', hpc⟩ := flush_return hreturn
    rw [hpc] at hph
    cases hph
    have hzero : ∀ ret, Returned s₁ tr c ret → ret = 0 := by
      intro ret hr
      by_contra hne
      rcases hfail ⟨c, ret, hc, hr, hne⟩ with hrep | ⟨u, d, hd, hu⟩
      · exact hrep rfl
      · have hut : u ≠ t := by
          rintro rfl
          obtain ⟨ret', k, hu, -⟩ := hu
          rw [hpc] at hu
          cases hu
        exact hlate ⟨⟨0, [], by rw [hpc]; rfl⟩, u, d, hut, hd, hu⟩
    refine ⟨?_, hzero⟩
    rcases hcover c hc with (hne | hmem) | ⟨ret, hr⟩ | hremoved
    · exact absurd rfl hne
    · cases hmem
    · rw [hzero ret hr] at hr
      exact .inl hr
    · exact .inr hremoved
  refine ⟨fun hm => ?_, fun hdur => ?_, htime⟩
  · have hrun : Run (Guarded (Graph (step hasMutex)) (InTime hasMutex s₁ t m)) s₂ tr s₃ :=
      hrun.history (H := Run _ s₂) (.nil s₂) fun _ _ _ _ ih hstep =>
        ih.snoc ⟨⟨hstep.1, .inl hm⟩, hstep.2⟩
    obtain ⟨hflush, hown⟩ := hfirst.run hown₂ hrun
    exact htime ⟨hrun, hflush.not_lateFailure hown hm⟩
  · rcases hfirst.inTime hown₂ hrun with ⟨c, ret, hc, hr, hret⟩ | htimely
    · exact absurd ((hdur c hc).2 ret hr) hret
    · exact htimely

/-! ### Runs -/

/-- Task `0` gets page `c` of mapping `0` as page `c` of the cache, dirties it and
releases it. -/
def dirtyPage (N : ℕ) [NeZero N] (c : ℕ) : List (Fin N × Action) :=
  [(0, .get 0 c), (0, .alloc true), (0, .run), (0, .readPage 0), (0, .run), (0, .lock c),
    (0, .dirty c), (0, .unlock c), (0, .put c), (0, .run)]

/-- The flush of task `0` has sampled `m_error` when the flusher, task `1`, writes page
`0`. -/
def flusherWrites (ret : ℤ) : List (Fin 2 × Action) :=
  [(0, .alloc true), (0, .run), (0, .run), (1, .flusher), (1, .run), (1, .run), (1, .run),
    (1, .run), (1, .writePage 0 ret), (1, .run), (1, .run)]

/-- The flush then finds page `0` clean and writes page `1`. -/
def sharedWrites : List (Fin 2 × Action) :=
  flusherWrites 0 ++ List.replicate 8 (0, .run) ++ [(0, .writePage 1 0)] ++
    List.replicate 3 (0, .run)

def Pc.failed : Pc → Bool
  | .wbDone _ ret _ => ret ≠ 0
  | _ => false

/-- No task has a failure to record. -/
def Calm (s : State N) : Prop := ∀ u, (s.task u).pc.failed = false

instance : Decidable (Calm s) := inferInstanceAs (Decidable (∀ _, _))

instance : Decidable (Due s m c) := inferInstanceAs (Decidable (_ ∧ _))

theorem Calm.not_lateFailure (h : Calm s) : ¬ LateFailure s₁ s t m := by
  rintro ⟨-, u, c, -, -, ret, k, hpc, hret⟩
  have hu := h u
  rw [hpc] at hu
  exact hret (by simpa [Pc.failed] using hu)

/-- Two pages of a mapping without mutex, of which the flusher writes one while the flush
is past its sample. -/
theorem flush_durable_beside_flusher : ∃ s₁ s₂ s₃ s₄ : State 2, Reaches noMutex s₁ ∧
    step noMutex s₁ (0, .flush 0) = some s₂ ∧
    Run (Guarded (Graph (step noMutex)) fun _ => Flushes 0) s₂ sharedWrites s₃ ∧
    step noMutex s₃ (0, .flushReturn 0) = some s₄ ∧ (Due s₁ 0 0 ∧ Due s₁ 0 1) ∧
    Durable s₁ 0 sharedWrites := by
  have hexec : ((exec (step noMutex) (boot 2) (dirtyPage 2 0 ++ dirtyPage 2 1)).bind fun s₁ =>
      if Due s₁ 0 0 ∧ Due s₁ 0 1 then
        (step noMutex s₁ (0, .flush 0)).bind fun s₂ =>
          (exec (fun s b => if Calm s then step noMutex s b else none) s₂ sharedWrites).bind
            fun s₃ => if Calm s₃ then step noMutex s₃ (0, .flushReturn 0) else none
      else none).isSome = true := by decide +kernel
  obtain ⟨s₄, h⟩ := Option.isSome_iff_exists.mp hexec
  obtain ⟨s₁, h₁, h⟩ := Option.bind_eq_some_iff.mp h
  split_ifs at h with hdue
  obtain ⟨s₂, h₂, h⟩ := Option.bind_eq_some_iff.mp h
  obtain ⟨s₃, h₃, h⟩ := Option.bind_eq_some_iff.mp h
  split_ifs at h with hcalm
  have hreach : Reaches noMutex s₁ := Reachable.exec (.init rfl) h₁
  have hflushes : ∀ b ∈ sharedWrites, Flushes 0 b := by
    rintro b hb ret rfl
    simp [sharedWrites, flusherWrites] at hb
  have hrun : Run (Guarded (Graph (step noMutex)) (InTime noMutex s₁ 0 0)) s₂
      ([] ++ sharedWrites) s₃ := by
    refine Run.exec (fun b hb s s' hstep => ?_) (.nil s₂) h₃
    split_ifs at hstep with hs
    exact ⟨⟨hflushes b hb, .inr hs.not_lateFailure⟩, hstep⟩
  have hstays := hrun.history (H := Run (Guarded (Graph (step noMutex)) fun _ => Flushes 0) s₂)
    (.nil s₂) fun _ _ _ _ ih hstep => ih.snoc ⟨hstep.1.1, hstep.2⟩
  exact ⟨s₁, s₂, s₃, s₄, hreach, h₂, hstays, h, hdue,
    (flush_durable hreach h₂ hstays h).2.mpr ⟨hrun, hcalm.not_lateFailure⟩⟩

/-- The flusher fails to write page `0`; the flush then finds the page clean. -/
def lateWrite : List (Fin 2 × Action) := flusherWrites (-5) ++ List.replicate 5 (0, .run)

/-- The page is dirty when the flush is entered, its only write fails, it is not
removed, and the flush returns zero. -/
theorem flush_loses_late_failure : ∃ s₁ s₂ s₃ s₄ : State 2, Reaches noMutex s₁ ∧
    step noMutex s₁ (0, .flush 0) = some s₂ ∧ exec (step noMutex) s₂ lateWrite = some s₃ ∧
    step noMutex s₃ (0, .flushReturn 0) = some s₄ ∧ Due s₁ 0 0 ∧ Returned s₁ lateWrite 0 (-5) ∧
    ¬ Returned s₁ lateWrite 0 0 ∧ ¬ Removed lateWrite 0 := by
  have hexec : ((exec (step noMutex) (boot 2) (dirtyPage 2 0)).bind fun s₁ =>
      if Due s₁ 0 0 ∧ ∀ u, (s₁.task u).pc = .idle then
        (step noMutex s₁ (0, .flush 0)).bind fun s₂ =>
          (exec (step noMutex) s₂ lateWrite).bind fun s₃ => step noMutex s₃ (0, .flushReturn 0)
      else none).isSome = true := by decide +kernel
  obtain ⟨s₄, h⟩ := Option.isSome_iff_exists.mp hexec
  obtain ⟨s₁, h₁, h⟩ := Option.bind_eq_some_iff.mp h
  split_ifs at h with hdue
  obtain ⟨s₂, h₂, h⟩ := Option.bind_eq_some_iff.mp h
  obtain ⟨s₃, h₃, h₄⟩ := Option.bind_eq_some_iff.mp h
  refine ⟨s₁, s₂, s₃, s₄, Reachable.exec (.init rfl) h₁, h₂, h₃, h₄, hdue.1, .inl ⟨1, by decide⟩,
    ?_, ?_⟩
  · rintro (⟨u, hu⟩ | ⟨u, k, hu⟩)
    · simp [lateWrite, flusherWrites] at hu
    · rw [hdue.2 u] at hu
      cases hu
  · rintro ⟨u, hu⟩
    simp [lateWrite, flusherWrites] at hu

end Nuvix.Mapping
