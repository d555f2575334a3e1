import Nuvix.Mm.MappingLists

/-!
# What one step of the page cache keeps

Two facts every argument about whole runs of the page cache needs. A step changes
one task only, and a page becomes clean only when it is removed or at the end of a
writeback. A task inside an operation holds the mutex of the mapping it works on,
if the mapping has one.
-/

namespace Nuvix.Mapping

open Transition Function

variable {N : ℕ} {hasMutex : ℕ → Bool} {s s' : State N} {t u : Fin N} {c : ℕ} {ret : ℤ} {k : Cont}
  {o : Option (Fin N)} {a : Action} {m : ℕ} {pc : Pc}

/-! ### What a step keeps -/

/-- Pages stay in their mapping, errors stay recorded, and no page but `lost`
becomes clean. -/
structure Keeps (lost : Option ℕ) (k k' : Cache N) : Prop where
  next : k.next ≤ k'.next
  mapping : ∀ c < k.next, (k'.page c).mapping = (k.page c).mapping
  state : ∀ c, (k'.page c).state = .clean → (k.page c).state = .clean ∨ lost = some c
  error : ∀ m, k.mError m ≠ 0 → k'.mError m ≠ 0

namespace Keeps

variable {k k' k'' : Cache N} {lost : Option ℕ} {c : ℕ}

theorem refl (k : Cache N) : Keeps lost k k :=
  ⟨le_rfl, fun _ _ => rfl, fun _ h => .inl h, fun _ h => h⟩

theorem trans (h : Keeps lost k k') (h' : Keeps lost k' k'') : Keeps lost k k'' where
  next := h.next.trans h'.next
  mapping c hc := (h'.mapping c (hc.trans_le h.next)).trans (h.mapping c hc)
  state c hc := (h'.state c hc).elim (h.state c) .inr
  error m hm := h'.error m (h.error m hm)

theorem setPage {pg : CachePage N} (hmapping : pg.mapping = (k.page c).mapping)
    (hstate : pg.state = .clean → (k.page c).state = .clean ∨ lost = some c) :
    Keeps lost k (k.setPage c pg) := by
  refine ⟨le_rfl, fun x _ => ?_, fun x hx => ?_, fun _ h => h⟩
  · rcases eq_or_ne x c with rfl | hne
    · rw [Cache.setPage_page, update_self, hmapping]
    · rw [Cache.setPage_page, update_of_ne hne]
  · rcases eq_or_ne x c with rfl | hne
    · rw [Cache.setPage_page, update_self] at hx
      exact hstate hx
    · rw [Cache.setPage_page, update_of_ne hne] at hx
      exact .inl hx

theorem link : Keeps lost k (k.link c) := by
  refine ⟨by rw [Cache.link_next], fun x _ => by rw [Cache.link_page], fun x hx => ?_,
    fun m hm => by rwa [Cache.link_mError]⟩
  rw [Cache.link_page] at hx
  exact .inl hx

/-- The lists and the counter do not matter. -/
theorem of_eq (hpage : k'.page = k.page) (hnext : k'.next = k.next)
    (herror : k'.mError = k.mError) :
    Keeps lost k k' :=
  ⟨hnext.ge, fun c _ => by rw [hpage], fun c hc => .inl (by rwa [hpage] at hc),
    fun m hm => by rwa [herror]⟩

theorem setRefs {refs : ℕ} : Keeps lost k (k.setRefs c refs) := setPage rfl .inl

theorem setHolder : Keeps lost k (k.setHolder c o) := setPage rfl .inl

theorem setRead : Keeps lost k (k.setRead c ret) :=
  have hset : Keeps lost k (k.setPage c { k.page c with error := ret }) := setPage rfl .inl
  { hset with }

theorem setState {st : PageState} (hlost : st = .clean → lost = some c) :
    Keeps lost k (k.setState c st) :=
  setPage rfl fun h => .inr (hlost h)

theorem hold : Keeps lost k (k.hold c) := setRefs.trans link

theorem destroy (hclean : (k.page c).state = .clean) : Keeps lost k (k.destroy c) :=
  have hset : Keeps lost k
      (k.setPage c ⟨(k.page c).mapping, (k.page c).index, 0, .clean, 0, none⟩) :=
    setPage rfl fun _ => .inl hclean
  { hset with }

theorem unhash : Keeps lost k (k.unhash c) :=
  setRefs.trans (of_eq rfl rfl rfl)

theorem insert : Keeps lost k (k.insert c) :=
  setRefs.trans (of_eq rfl rfl rfl)

theorem create {index : ℕ} (hclean : (k.page k.next).state = .clean) :
    Keeps lost k (k.create t m index) := by
  refine ⟨Nat.le_succ _, fun c hc => ?_, fun c hc => ?_, fun _ h => h⟩
  · exact congrArg CachePage.mapping (update_of_ne hc.ne _ _)
  · rcases eq_or_ne c k.next with rfl | hne
    · exact .inl hclean
    · have hpg : (k.create t m index).page c = k.page c := update_of_ne hne _ _
      rw [hpg] at hc
      exact .inl hc

theorem holdAll {pages : List ℕ} : Keeps lost k (k.holdAll pages) :=
  ⟨le_rfl, fun _ _ => rfl, fun _ h => .inl h, fun _ h => h⟩

theorem makeRoom (hroom : k.makeRoom = .room k') : Keeps lost k k' := by
  unfold Cache.makeRoom at hroom
  split_ifs at hroom with hnr
  · cases hroom
    exact refl k
  · split at hroom
    · cases hroom
    · next v rest hlru =>
      dsimp only at hroom
      split_ifs at hroom with hbusy
      cases hroom
      push Not at hbusy
      have hlists : Keeps lost k { k with
          lru := k.lru.erase v
          table := k.table.erase v
          nr := k.nr - 1 } := of_eq rfl rfl rfl
      exact hlists.trans (destroy hbusy.2)

theorem finish : Keeps (some c) k (k.finish c ret) := by
  have herror : Keeps (some c) k
      (if ret ≠ 0 then { k with mError := update k.mError (k.page c).mapping ret } else k) := by
    split_ifs with hret
    · refine ⟨le_rfl, fun _ _ => rfl, fun _ h => .inl h, fun m hm => ?_⟩
      dsimp only
      rcases eq_or_ne m (k.page c).mapping with rfl | hne
      · rwa [update_self]
      · rwa [update_of_ne hne]
    · exact refl k
  exact herror.trans ((setState fun _ => rfl).trans (setRefs.trans link))

theorem remove : Keeps (some c) k (k.remove c) :=
  (setState fun _ => rfl).trans (unhash.trans (of_eq rfl rfl rfl))

end Keeps

/-- What one step can do to the other tasks, to pages, mappings and errors: a page
becomes clean only when it is removed or at the end of a writeback, and a failed
writeback is then recorded. -/
structure StepKeeps (s : State N) (t : Fin N) (a : Action) (s' : State N) : Prop where
  task : ∀ u ≠ t, s'.task u = s.task u
  cache : ∃ lost, Keeps lost s.cache s'.cache ∧ ∀ c, lost = some c → a = .remove c ∨
    ∃ ret k, (s.task t).pc = .wbDone c ret k ∧
      (ret ≠ 0 → s'.cache.mError (s.cache.page c).mapping ≠ 0)

/-- The common case: no page becomes clean. -/
theorem StepKeeps.of_keeps (htask : ∀ u ≠ t, s'.task u = s.task u)
    (hkeeps : Keeps none s.cache s'.cache) : StepKeeps s t a s' :=
  ⟨htask, none, hkeeps, nofun⟩

section

variable {a : Action} {pc : Pc}

theorem setPc_task_of_ne (hu : u ≠ t) : (s.setPc t pc).task u = s.task u :=
  update_of_ne hu _ _

/-- A page outside the table has nothing to write. -/
theorem Inv.clean_of_notMem (h : Inv s) (hc : c ∉ s.cache.table) :
    (s.cache.page c).state = .clean :=
  by_contra fun hs => hc ((h.page c).busy hs)

/-- A page before its insertion. -/
theorem Inv.of_getInsert (h : Inv s) (hpc : (s.task t).pc = .getInsert c) :
    c ∉ s.cache.table ∧ (s.cache.page c).state = .clean := by
  obtain ⟨htable, -, hclean⟩ := (h.page c).fresh t (by simp [hpc, Pc.fresh])
  exact ⟨htable, hclean⟩

/-- What one step can do to pages, mappings and errors. -/
theorem step_keeps (h : Inv s) (hstep : step hasMutex s (t, a) = some s') : StepKeeps s t a s' := by
  obtain ⟨pc, hpc, hmove⟩ := step_move hstep
  have htask : ∀ u ≠ t, s'.task u = s.task u := fun u hu => hmove.task hu
  cases hmove with
  | lockMapping | unlockMapping | getMiss | put | dirtyDetached | writeback | flush | flusher
  | purge | allocFail | insertPanic | putPanic | wbClean | writePage | flushAlloc | flushAllocFail
  | flushSample | flushNext | flushReturn | flusherLock | flusherNext | flusherEnd | flusherUnlock
  | flusherPut | purgeReturn | purgePanic | purgeGone => exact .of_keeps htask (.refl _)
  | lock | unlock | getUnlock | getUnlockFail | readyLock | readyUnlock | readyUnlockFail | wbLock
  | wbUnlock | purgeLock | purgeUnlock => exact .of_keeps htask .setHolder
  | getHit => exact .of_keeps htask .hold
  | @dirty c =>
    have hset : Keeps none s.cache
        (s.cache.setState c ⟨true, (s.cache.page c).state.writeback⟩) :=
      .setState fun hst => absurd (congrArg PageState.dirty hst) (by simp [PageState.clean])
    exact .of_keeps htask (hset.trans .link)
  | alloc =>
    exact .of_keeps htask (.create (h.clean_of_notMem ((h.page _).unborn le_rfl).1))
  | @insertHit c cached hfind =>
    obtain ⟨htable, hclean⟩ := h.of_getInsert hpc
    have hne : c ≠ cached := fun heq => htable (heq ▸ List.mem_of_find?_eq_some hfind)
    have hpg : (s.cache.hold cached).page c = s.cache.page c := by
      rw [Cache.hold, Cache.link_page]
      exact update_of_ne hne _ _
    exact .of_keeps htask (Keeps.hold.trans (.destroy (by rw [hpg]; exact hclean)))
  | insertFull => exact .of_keeps htask (.destroy (h.of_getInsert hpc).2)
  | insert hfind hroom => exact .of_keeps htask ((Keeps.makeRoom hroom).trans .insert)
  | readPage => exact .of_keeps htask .setRead
  | getFail => exact .of_keeps htask .unhash
  | putLast hone hc => exact .of_keeps htask (.destroy (h.clean_of_notMem hc))
  | putRef => exact .of_keeps htask (Keeps.setRefs.trans .link)
  | @wbBegin c =>
    have hset : Keeps none s.cache (s.cache.setState c ⟨false, true⟩) :=
      .setState fun hst => absurd (congrArg PageState.writeback hst) (by decide)
    exact .of_keeps htask (hset.trans (Keeps.setRefs.trans .link))
  | @wbDone c ret k =>
    refine ⟨htask, some c, .finish, fun c' hc => .inr ⟨ret, k, ?_, fun hret => ?_⟩⟩
    · rw [hpc, Option.some.inj hc]
    · cases hc
      change (s.cache.finish c ret).mError _ ≠ 0
      simp [Cache.finish, hret, Cache.setRefs, Cache.setState, Cache.setPage]
  | flushCollect | flusherCollect => exact .of_keeps htask .holdAll
  | purgeSelect => exact .of_keeps htask .setRefs
  | @purgeRemove v =>
    exact ⟨htask, some v, .remove, fun c hc => .inl (by rw [Option.some.inj hc])⟩

end

/-! ### Who holds the mutex of a mapping -/

section

variable (hasMutex) (s) (t)

/-- A flush that goes on later holds the mutex of its mapping, and its pages belong
to the mapping. -/
def Cont.Owned : Cont → Prop
  | .flush m _ rest => AssertLocked hasMutex s t m ∧ ∀ c ∈ rest, (s.cache.page c).mapping = m
  | _ => True

/-- The continuation is that of an operation on mapping `m`. -/
def Cont.On (m : ℕ) : Cont → Prop
  | .flush m' .. => m' = m
  | .flusher m' _ => m' = m
  | _ => True

/-- A task inside an operation holds the mutex of the mapping it works on. -/
def Pc.Owned : Pc → Prop
  | .flushAlloc m | .flushCollect m => AssertLocked hasMutex s t m
  | .flushSample m pages | .flushNext m _ pages =>
    AssertLocked hasMutex s t m ∧ ∀ c ∈ pages, (s.cache.page c).mapping = m
  | .put _ k => k.Owned hasMutex s t
  | .wbLock c k | .wbTest c k | .wbWrite c k | .wbDone c _ k | .wbUnlock c _ k =>
    AssertLocked hasMutex s t (s.cache.page c).mapping ∧ k.Owned hasMutex s t ∧
      k.On (s.cache.page c).mapping
  | .flusherUnlock _ m _ => AssertLocked hasMutex s t m
  | _ => True

end

/-- Every task holds the mutex of the mapping it works on. -/
def OwnerInv (hasMutex : ℕ → Bool) (s : State N) : Prop :=
  ∀ t, (s.task t).pc.Owned hasMutex s t

theorem AssertLocked.mono (h : AssertLocked hasMutex s t m)
    (howner : ∀ m, s.owner m = some t → s'.owner m = some t) : AssertLocked hasMutex s' t m :=
  fun hm => howner m (h hm)

theorem Cont.Owned.mono (h : k.Owned hasMutex s t)
    (howner : ∀ m, s.owner m = some t → s'.owner m = some t)
    (hmapping : ∀ c, 0 < k.refs c → (s'.cache.page c).mapping = (s.cache.page c).mapping) :
    k.Owned hasMutex s' t := by
  cases k with
  | flush m ret rest =>
    refine ⟨h.1.mono howner, fun c hc => ?_⟩
    rw [hmapping c (List.count_pos_iff.mpr hc)]
    exact h.2 c hc
  | client | flusher m rest | purge m first last => trivial

/-- The owner of a mutex and the mapping of the referenced pages are all that
matters. -/
theorem Pc.Owned.mono (h : pc.Owned hasMutex s t)
    (howner : ∀ m, s.owner m = some t → s'.owner m = some t)
    (hmapping : ∀ c, 0 < pc.refs c → (s'.cache.page c).mapping = (s.cache.page c).mapping) :
    pc.Owned hasMutex s' t := by
  have hpages : ∀ {pages : List ℕ} {m : ℕ}, (∀ c, 0 < pages.count c →
      (s'.cache.page c).mapping = (s.cache.page c).mapping) →
      (∀ c ∈ pages, (s.cache.page c).mapping = m) → ∀ c ∈ pages, (s'.cache.page c).mapping = m := by
    intro pages m hmap hold c hc
    rw [hmap c (List.count_pos_iff.mpr hc)]
    exact hold c hc
  cases pc with
  | flushAlloc m | flushCollect m | flusherUnlock c m rest => exact AssertLocked.mono h howner
  | flushSample m pages | flushNext m ret pages =>
    exact ⟨h.1.mono howner, hpages hmapping h.2⟩
  | put c k =>
    exact Cont.Owned.mono h howner fun x hx => hmapping x (by simp only [Pc.refs]; omega)
  | wbLock c k | wbTest c k | wbUnlock c ret k | wbWrite c k | wbDone c ret k =>
    have hc : (s'.cache.page c).mapping = (s.cache.page c).mapping :=
      hmapping c (by simp only [Pc.refs, at_self]; omega)
    obtain ⟨hlock, hk, hon⟩ := h
    refine ⟨?_, hk.mono howner fun x hx => hmapping x (by simp only [Pc.refs]; omega), ?_⟩
    · rw [hc]
      exact hlock.mono howner
    · rwa [hc]
  | idle | getAlloc m index | getInsert c | getRead c | getFail c | getUnlock c | readyLock c
  | readyUnlock c | flusherCollect | flusherNext pages | purgeSelect m first last
  | purgeLock v m first last | purgeRemove v m first last | purgeUnlock v m first last => trivial

/-- A page to which an operation has a reference has been created. -/
theorem Inv.lt_next (h : Inv s) (hc : 0 < (s.task t).pc.refs c) : c < s.cache.next := by
  have hpos : 0 < ((s.task t).role c).refs := by
    rw [Thread.role_refs]
    omega
  exact Nat.lt_of_not_le ((h.page c).born (t := t) (.inr hpos))

/-- What a step does to the mutexes of the mappings: those of other tasks stay, and
the task itself holds the one it needs next. -/
structure StepOwned (hasMutex : ℕ → Bool) (s : State N) (t : Fin N) (s' : State N) : Prop where
  others : ∀ u ≠ t, ∀ m, s.owner m = some u → s'.owner m = some u
  self : (s'.task t).pc.Owned hasMutex s' t

/-- The common case: no mutex changes hands, and the next place in the code refers
to pages the task had a reference on. -/
theorem StepOwned.of_pc (h : Inv s) (hkeeps : StepKeeps s t a s') (howner : s'.owner = s.owner)
    (hpc : (s'.task t).pc = pc) (hown : pc.Owned hasMutex s t)
    (hrefs : ∀ c, 0 < pc.refs c → 0 < (s.task t).pc.refs c) : StepOwned hasMutex s t s' := by
  obtain ⟨lost, hk, -⟩ := hkeeps.cache
  refine ⟨fun u _ m hu => by rwa [howner], ?_⟩
  rw [hpc]
  exact hown.mono (fun m hm => by rwa [howner]) fun c hc => hk.mapping c (h.lt_next (hrefs c hc))

section

variable {a : Action} {pc : Pc}

theorem setPc_pc : ((s.setPc t pc).task t).pc = pc := by
  simp [State.setPc]

theorem setThread_pc {th : Thread} : ((s.setThread t th).task t).pc = th.pc := by
  simp [State.setThread]

/-- A place in the code that needs no mutex. -/
theorem StepOwned.of_trivial (howner : s'.owner = s.owner) (hpc : (s'.task t).pc = pc)
    (htrivial : pc.Owned hasMutex s' t) : StepOwned hasMutex s t s' :=
  ⟨fun u _ m hu => by rwa [howner], by rwa [hpc]⟩

/-- A mutex that was free or was the task's own changes hands. -/
theorem StepOwned.of_owner (howner : s'.owner = update s.owner m o)
    (hold : s.owner m = none ∨ s.owner m = some t) (hself : (s'.task t).pc.Owned hasMutex s' t) :
    StepOwned hasMutex s t s' := by
  refine ⟨fun u hu m' hm => ?_, hself⟩
  rcases eq_or_ne m' m with rfl | hne
  · rcases hold with hfree | hmine
    · exact absurd (hfree.symm.trans hm) nofun
    · exact absurd (Option.some.inj (hmine.symm.trans hm)).symm hu
  · rwa [howner, update_of_ne hne]

theorem Cont.owned_afterPut (h : k.Owned hasMutex s t) : k.afterPut.Owned hasMutex s t := by
  cases k with
  | flush m ret rest => exact h
  | client | flusher m rest | purge m first last => trivial

theorem step_owned (h : Inv s) (hinv : OwnerInv hasMutex s)
    (hstep : step hasMutex s (t, a) = some s') : StepOwned hasMutex s t s' := by
  have hkeeps := step_keeps h hstep
  have hown := hinv t
  obtain ⟨pc, hpc, hmove⟩ := step_move hstep
  rw [hpc] at hown
  have hsame : ∀ x, 0 < pc.refs x → 0 < (s.task t).pc.refs x := by
    rw [hpc]
    exact fun x hx => hx
  cases hmove with
  | lockMapping hm =>
    exact .of_owner rfl (.inl hm.2) (by change (s.task t).pc.Owned _ _ _; rw [hpc]; trivial)
  | unlockMapping hm =>
    exact .of_owner rfl (.inr hm) (by change (s.task t).pc.Owned _ _ _; rw [hpc]; trivial)
  | lock | unlock | dirty | dirtyDetached | insertPanic | purgePanic =>
    exact .of_trivial rfl hpc trivial
  | getHit | getMiss | flusher | purge | alloc | allocFail | insertHit | insertFull | insert
  | getFail | getUnlockFail | readyLock | readyUnlockFail | flushReturn | flusherCollect
  | flusherEnd | flusherPut | purgeSelect | purgeReturn | purgeLock | purgeRemove | purgeGone
  | purgeUnlock => exact .of_trivial rfl setPc_pc trivial
  | put | getUnlock | readyUnlock => exact .of_trivial rfl setThread_pc trivial
  | readPage =>
    refine .of_trivial rfl setPc_pc ?_
    split_ifs <;> trivial
  | writeback hc => exact .of_trivial rfl setThread_pc ⟨hc.2, trivial, trivial⟩
  | flush hlock => exact .of_trivial rfl setPc_pc hlock
  | putPanic => exact .of_pc h hkeeps rfl hpc hown hsame
  | @putLast c k | @putRef c k =>
    refine .of_pc h hkeeps rfl setPc_pc (Cont.owned_afterPut hown) fun x hx => hsame x ?_
    rw [Cont.refs_afterPut] at hx
    simp only [Pc.refs]
    omega
  | wbLock | wbClean | writePage => exact .of_pc h hkeeps rfl setPc_pc hown hsame
  | wbBegin | wbDone =>
    refine .of_pc h hkeeps rfl setPc_pc hown fun x hx => hsame x ?_
    simp only [Pc.refs] at hx ⊢
    omega
  | @wbUnlock c ret k =>
    obtain ⟨hlock, hk, hon⟩ := hown
    refine .of_pc h hkeeps rfl setThread_pc ?_ fun x hx => hsame x ?_
    · cases k with
      | flush m ret' rest => exact hk
      | flusher m rest =>
        change m = _ at hon
        rwa [← hon] at hlock
      | client | purge m first last => trivial
    · cases k <;> simp only [Cont.afterWriteback, Pc.refs, Cont.refs] at hx ⊢ <;> omega
  | flushAlloc | flushSample => exact .of_trivial rfl setPc_pc hown
  | flushAllocFail => exact .of_trivial rfl setPc_pc ⟨hown, by simp⟩
  | @flushCollect m =>
    refine .of_trivial rfl setPc_pc ⟨hown, fun c hc => ?_⟩
    have hmatch : m = (s.cache.page c).mapping := by simpa using (List.mem_filter.mp hc).2
    exact hmatch.symm
  | @flushNext m c ret rest =>
    have hc : (s.cache.page c).mapping = m := hown.2 c List.mem_cons_self
    refine .of_trivial rfl setPc_pc ⟨?_, ⟨hown.1, fun x hx => hown.2 x (List.mem_cons_of_mem c hx)⟩,
      hc.symm⟩
    change AssertLocked hasMutex s t (s.cache.page c).mapping
    rw [hc]
    exact hown.1
  | flusherLock hfree =>
    refine .of_owner rfl (.inl hfree) ?_
    rw [setPc_pc]
    exact ⟨fun _ => update_self .., trivial, rfl⟩
  | flusherNext hmutex =>
    exact .of_trivial rfl setPc_pc ⟨fun hm => Bool.noConfusion (hmutex.symm.trans hm), trivial, rfl⟩
  | flusherUnlock hmutex =>
    refine .of_owner rfl (.inr (hown hmutex)) ?_
    rw [setPc_pc]
    trivial

/-- Every step keeps the ownership of the mutexes. -/
theorem OwnerInv.step (hown : OwnerInv hasMutex s) (h : Inv s)
    (hstep : step hasMutex s (t, a) = some s') : OwnerInv hasMutex s' := by
  have howned := step_owned h hown hstep
  have hkeeps := step_keeps h hstep
  obtain ⟨lost, hk, -⟩ := hkeeps.cache
  intro u
  rcases eq_or_ne u t with rfl | hu
  · exact howned.self
  · rw [hkeeps.task u hu]
    exact (hown u).mono (howned.others u hu) fun c hc => hk.mapping c (h.lt_next hc)

/-- A backend write that returns leaves its task before the second section. -/
theorem pc_of_writePage (hstep : step hasMutex s (t, .writePage c ret) = some s') :
    ∃ k, (s.task t).pc = .wbWrite c k ∧ (s'.task t).pc = .wbDone c ret k := by
  obtain ⟨pc, hpc, hmove⟩ := step_move hstep
  cases hmove with
  | writePage => exact ⟨_, hpc, setPc_pc⟩

/-- Only the return of a backend write leads before the second section. -/
theorem action_of_wbDone (hstep : step hasMutex s (t, a) = some s')
    (hpc' : (s'.task t).pc = .wbDone c ret k) : a = .writePage c ret := by
  obtain ⟨pc, hpc, hmove⟩ := step_move hstep
  cases hmove with
  | writePage =>
    rw [setPc_pc] at hpc'
    cases hpc'
    rfl
  | lockMapping | unlockMapping | lock | unlock | dirty | dirtyDetached | insertPanic | putPanic
  | purgePanic =>
    change (s.task t).pc = _ at hpc'
    rw [hpc] at hpc'
    cases hpc'
  | @putLast c k | @putRef c k =>
    rw [setPc_pc] at hpc'
    cases k <;> cases hpc'
  | @wbUnlock c ret k =>
    rw [setThread_pc] at hpc'
    cases k <;> cases hpc'
  | readPage =>
    rw [setPc_pc] at hpc'
    split_ifs at hpc'
  | put | writeback | getUnlock | readyUnlock =>
    rw [setThread_pc] at hpc'
    cases hpc'
  | _ =>
    rw [setPc_pc] at hpc'
    cases hpc'

end

end Nuvix.Mapping
