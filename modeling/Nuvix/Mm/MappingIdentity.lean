import Nuvix.Mm.MappingStep

/-!
# Identity, capacity and life of cached pages

Along every interleaving of the sections of `mm/mapping.c`: a page of a mapping is
cached once, the counter of the cache is the size of the table and stays within the
array of a collection, a page is destroyed once and after everybody has let go of it,
and a lookup hands out only what has been read.

What `read_page` returned for a page and how often `cache_page_destroy` was called on it
are recorded in the cache; the record is written and never read.
-/

namespace Nuvix.Mapping

open Transition Function

variable {N : ℕ} {hasMutex : ℕ → Bool} {s s' : State N} {t : Fin N} {a : Action} {c : ℕ}
  {k : Cache N} {pg : CachePage N} {ret : ℤ}

/-! ### What one step can do -/

/-- The page a task has created and not yet read. -/
def Pc.loading : Pc → Option ℕ
  | .getInsert c | .getRead c => some c
  | _ => none

/-- The table, the identity of the pages, the results of their reads and their being
alive are unchanged, and no page is destroyed. -/
structure Same (k k' : Cache N) : Prop where
  table : k'.table = k.table
  nr : k'.nr = k.nr
  next : k'.next = k.next
  calls : k'.calls = k.calls
  mapping : ∀ c, (k'.page c).mapping = (k.page c).mapping
  index : ∀ c, (k'.page c).index = (k.page c).index
  error : ∀ c, (k'.page c).error = (k.page c).error
  dead : ∀ c, (k'.page c).refs = 0 ↔ (k.page c).refs = 0

/-- What one step can do to the table and to the life of pages. -/
inductive Turn (s : State N) (t : Fin N) (s' : State N) : Prop
  /-- Neither the table nor the life of a page changes. -/
  | same (hsame : Same s.cache s'.cache)
      (hload : ∀ c, (s.task t).pc.loading = some c → (s'.task t).pc.loading = some c)
  /-- `mapping_get` allocates a page. -/
  | create (m index : ℕ) (hcache : s'.cache = s.cache.create t m index)
      (hpc : (s.task t).pc = .getAlloc m index) (hpc' : (s'.task t).pc = .getInsert s.cache.next)
  /-- The second lookup found the page: the new one is destroyed. -/
  | duplicate (c cached : ℕ) (hcached : cached ∈ s.cache.table)
      (hcache : s'.cache = (s.cache.hold cached).destroy c) (hpc : (s.task t).pc = .getInsert c)
  /-- There is no room: the new page is destroyed. -/
  | full (c : ℕ) (hcache : s'.cache = s.cache.destroy c) (hpc : (s.task t).pc = .getInsert c)
  /-- The new page enters the table. -/
  | insert (c : ℕ) (hcache : s'.cache = s.cache.insert c)
      (hroom : s.cache.nr < cachePages)
      (hfind : s.cache.find (s.cache.page c).mapping (s.cache.page c).index = none)
      (hpc : (s.task t).pc = .getInsert c) (hpc' : (s'.task t).pc = .getRead c)
  /-- The new page takes the place of the first page of the LRU list. -/
  | evict (c victim : ℕ)
      (hcache : s'.cache = (Cache.destroy { s.cache with
        lru := s.cache.lru.erase victim
        table := s.cache.table.erase victim
        nr := s.cache.nr - 1 } victim).insert c)
      (hlru : victim ∈ s.cache.lru)
      (hfind : s.cache.find (s.cache.page c).mapping (s.cache.page c).index = none)
      (hpc : (s.task t).pc = .getInsert c) (hpc' : (s'.task t).pc = .getRead c)
  /-- `read_page` returns. -/
  | read (c : ℕ) (ret : ℤ)
      (hcache : s'.cache = s.cache.setRead c ret)
      (hpc : (s.task t).pc = .getRead c)
  /-- A page is unhashed, after a failed read or by a purge. -/
  | unhash (c : ℕ) (htable : s'.cache.table = s.cache.table.erase c)
      (hnr : s'.cache.nr = s.cache.nr - 1) (hmem : c ∈ s.cache.table)
      (hother : Same { s.cache with table := s'.cache.table, nr := s'.cache.nr } s'.cache)
      (hpc : (s.task t).pc.loading = none)
  /-- The last reference to an unhashed page is dropped. -/
  | destroy (c : ℕ) (hcache : s'.cache = s.cache.destroy c) (hone : (s.cache.page c).refs = 1)
      (htable : c ∉ s.cache.table) (hpc : (s.task t).pc.loading = none)

/-- A field in which the new page agrees with the old one. -/
theorem Cache.setPage_field {β : Type} (f : CachePage N → β) (hf : f pg = f (k.page c)) (x : ℕ) :
    f ((k.setPage c pg).page x) = f (k.page x) := by
  rcases eq_or_ne x c with rfl | hx
  · rw [Cache.setPage_page, update_self, hf]
  · rw [Cache.setPage_page, update_of_ne hx]

theorem Cache.destroy_mapping (k : Cache N) (c d : ℕ) :
    ((k.destroy c).page d).mapping = (k.page d).mapping := by
  unfold destroy
  exact setPage_field CachePage.mapping (by rfl) d

theorem Cache.destroy_index (k : Cache N) (c d : ℕ) :
    ((k.destroy c).page d).index = (k.page d).index := by
  unfold destroy
  exact setPage_field CachePage.index (by rfl) d

namespace Same

variable {k k' k'' : Cache N} {c : ℕ}

theorem refl (k : Cache N) : Same k k :=
  ⟨rfl, rfl, rfl, rfl, fun _ => rfl, fun _ => rfl, fun _ => rfl, fun _ => .rfl⟩

theorem trans (h : Same k k') (h' : Same k' k'') : Same k k'' where
  table := h'.table.trans h.table
  nr := h'.nr.trans h.nr
  next := h'.next.trans h.next
  calls := h'.calls.trans h.calls
  mapping c := (h'.mapping c).trans (h.mapping c)
  index c := (h'.index c).trans (h.index c)
  error c := (h'.error c).trans (h.error c)
  dead c := (h'.dead c).trans (h.dead c)

theorem setPage (hmapping : pg.mapping = (k.page c).mapping)
    (hindex : pg.index = (k.page c).index) (herror : pg.error = (k.page c).error)
    (hdead : pg.refs = 0 ↔ (k.page c).refs = 0) : Same k (k.setPage c pg) := by
  refine ⟨rfl, rfl, rfl, rfl, Cache.setPage_field _ hmapping, Cache.setPage_field _ hindex,
    Cache.setPage_field _ herror, fun x => ?_⟩
  exact Iff.of_eq (Cache.setPage_field (fun pg => pg.refs = 0) (propext hdead) x)

theorem link : Same k (k.link c) := by
  have hbook : (k.link c).nr = k.nr ∧ (k.link c).calls = k.calls := by
    unfold Cache.link
    split_ifs <;> exact ⟨rfl, rfl⟩
  refine ⟨Cache.link_table k c, hbook.1, Cache.link_next k c, hbook.2, ?_, ?_, ?_, ?_⟩ <;>
    intro x <;> rw [Cache.link_page]

theorem setRefs {refs : ℕ} (hold : (k.page c).refs ≠ 0) (hnew : refs ≠ 0) :
    Same k (k.setRefs c refs) :=
  setPage rfl rfl rfl (iff_of_false hnew hold)

theorem setState {st : PageState} : Same k (k.setState c st) := setPage rfl rfl rfl .rfl

theorem setHolder {o : Option (Fin N)} : Same k (k.setHolder c o) := setPage rfl rfl rfl .rfl

theorem hold (hpos : (k.page c).refs ≠ 0) : Same k (k.hold c) :=
  (setRefs hpos (Nat.succ_ne_zero _)).trans link

theorem holdAll {pages : List ℕ} (hpos : ∀ c ∈ pages, (k.page c).refs ≠ 0) :
    Same k (k.holdAll pages) := by
  refine ⟨rfl, rfl, rfl, rfl, fun _ => rfl, fun _ => rfl, fun _ => rfl, fun c => ?_⟩
  change (k.page c).refs + pages.count c = 0 ↔ (k.page c).refs = 0
  by_cases hc : c ∈ pages
  · have := hpos c hc
    omega
  · rw [List.count_eq_zero_of_not_mem hc, Nat.add_zero]

theorem finish (hpos : (k.page c).refs ≠ 0) : Same k (k.finish c ret) := by
  have herror : Same k
      (if ret ≠ 0 then { k with mError := update k.mError (k.page c).mapping ret }
        else k) := by
    split_ifs
    · exact ⟨rfl, rfl, rfl, rfl, fun _ => rfl, fun _ => rfl, fun _ => rfl, fun _ => .rfl⟩
    · exact refl k
  refine herror.trans (setState.trans (Same.trans (setRefs ?_ ?_) link))
  · intro hzero
    exact hpos ((herror.trans setState).dead c |>.mp hzero)
  · split_ifs <;> omega

end Same

/-- A hashed page has a reference. -/
theorem Inv.refs_ne_zero_of_mem (h : Inv s) (hc : c ∈ s.cache.table) :
    (s.cache.page c).refs ≠ 0 := by
  have hcount := (h.page c).count
  rw [if_pos hc] at hcount
  omega

/-- A page some task refers to has a reference. -/
theorem Inv.refs_ne_zero_of_role (h : Inv s) (hc : 0 < ((s.task t).role c).refs) :
    (s.cache.page c).refs ≠ 0 := by
  have hcount := (h.page c).count
  have hle := refs_le_sum (fun u => (s.task u).role c) t
  omega

/-- A step outside the loading of a page. -/
theorem Turn.of_quiet (hsame : Same s.cache s'.cache) (hload : (s.task t).pc.loading = none) :
    Turn s t s' := by
  refine .same hsame fun c hc => ?_
  rw [hload] at hc
  cases hc

/-- `hash_del` and `refcount_dec` on a hashed page that the caller refers to. -/
theorem Same.unhash (hpos : (k.page c).refs ≠ 0) :
    Same { k with table := k.table.erase c, nr := k.nr - 1 } (k.unhash c) := by
  have hset : Same k (k.setRefs c
      (if (k.page c).refs ≤ 1 then (k.page c).refs else (k.page c).refs - 1)) := by
    refine .setRefs hpos ?_
    split_ifs <;> omega
  exact ⟨rfl, rfl, rfl, rfl, hset.mapping, hset.index, hset.error, hset.dead⟩

/-- The section of `mapping_purge` on a hashed page. -/
theorem Same.remove (hpos : (k.page c).refs ≠ 0) :
    Same { k with table := k.table.erase c, nr := k.nr - 1 } (k.remove c) := by
  have hclean : Same k (k.setState c .clean) := .setState
  have hset : Same { k.setState c .clean with table := k.table.erase c, nr := k.nr - 1 }
      ((k.setState c .clean).unhash c) := Same.unhash fun hzero => hpos ((hclean.dead c).mp hzero)
  exact ⟨rfl, rfl, rfl, rfl, fun d => (hset.mapping d).trans (hclean.mapping d),
    fun d => (hset.index d).trans (hclean.index d), fun d => (hset.error d).trans (hclean.error d),
    fun d => (hset.dead d).trans (hclean.dead d)⟩

/-- A new page enters the table, with or without a victim. -/
theorem turn_of_room (hpc : (s.task t).pc = .getInsert c)
    (hfind : s.cache.find (s.cache.page c).mapping (s.cache.page c).index = none)
    (hroom : s.cache.makeRoom = .room k) :
    Turn s t ((s.setCache (k.insert c)).setPc t (.getRead c)) := by
  unfold Cache.makeRoom at hroom
  split_ifs at hroom with hnr
  · cases hroom
    exact .insert c rfl hnr hfind hpc setPc_pc
  · split at hroom
    · cases hroom
    next victim rest hlru =>
      dsimp only at hroom
      split_ifs at hroom with hbusy
      cases hroom
      exact .evict c victim rfl (by simp [hlru]) hfind hpc setPc_pc

/-- Every step is one of the turns. -/
theorem step_turn (h : Inv s) (hstep : step hasMutex s (t, a) = some s') : Turn s t s' := by
  obtain ⟨pc, hpc, hmove⟩ := step_move hstep
  have hquiet : ∀ {s'}, pc.loading = none → Same s.cache s'.cache → Turn s t s' :=
    fun hload hsame => .of_quiet hsame (by rw [hpc]; exact hload)
  have hcollect : ∀ m, Same s.cache (s.cache.holdAll (s.cache.collect m)) := by
    refine fun m => .holdAll fun c hc => h.refs_ne_zero_of_mem ?_
    exact (h.page c).busy ((h.page c).dirty.mp (List.mem_filter.mp hc).1)
  cases hmove with
  | lockMapping | unlockMapping | getMiss | put | dirtyDetached | writeback | flush | flusher
  | purge | allocFail | wbClean | writePage | flushAlloc | flushAllocFail | flushSample | flushNext
  | flushReturn | flusherLock | flusherNext | flusherEnd | flusherUnlock | flusherPut | purgeReturn
  | purgePanic | purgeGone | putPanic => exact hquiet rfl (.refl _)
  | lock | unlock | getUnlock | getUnlockFail | readyLock | readyUnlock | readyUnlockFail | wbLock
  | wbUnlock | purgeLock | purgeUnlock => exact hquiet rfl .setHolder
  | getHit hlock hfind =>
    exact hquiet rfl (.hold (h.refs_ne_zero_of_mem (List.mem_of_find?_eq_some hfind)))
  | dirty => exact hquiet rfl (Same.setState.trans .link)
  | @alloc m index =>
    exact .create m index rfl hpc setPc_pc
  | @insertHit c cached hfind =>
    exact .duplicate c cached (List.mem_of_find?_eq_some hfind) rfl hpc
  | insertPanic hfind hroom =>
    exact .same (.refl _) (fun c hc => hc)
  | @insertFull c hfind hroom =>
    exact .full c rfl hpc
  | insert hfind hroom => exact turn_of_room hpc hfind hroom
  | @readPage c ret =>
    exact .read c ret rfl hpc
  | @getFail c =>
    have htable := ((h.page c).reading t (by simp [hpc, Pc.reading])).1
    exact .unhash c rfl rfl htable (Same.unhash (h.refs_ne_zero_of_mem htable)) (by rw [hpc]; rfl)
  | @putLast c k hone hc =>
    exact .destroy c rfl hone hc (by rw [hpc]; rfl)
  | putRef hzero hone =>
    exact hquiet rfl ((Same.setRefs hzero (by omega)).trans .link)
  | @wbBegin c k =>
    have hpos : (s.cache.page c).refs ≠ 0 :=
      h.refs_ne_zero_of_role (t := t) (by simp [hpc, Pc.refs])
    refine hquiet rfl
      (Same.setState.trans (Same.trans (.setRefs ?_ (Nat.succ_ne_zero _)) .link))
    exact fun hzero => hpos ((Same.setState.dead c).mp hzero)
  | wbDone =>
    exact hquiet rfl (.finish (h.refs_ne_zero_of_role (t := t) (by simp [hpc, Pc.refs])))
  | flushCollect | flusherCollect => exact hquiet rfl (hcollect _)
  | purgeSelect hmatch =>
    exact hquiet rfl (.setRefs (h.refs_ne_zero_of_mem hmatch.1) (Nat.succ_ne_zero _))
  | @purgeRemove v m first last hc =>
    exact .unhash v rfl rfl hc (Same.remove (h.refs_ne_zero_of_mem hc)) (by rw [hpc]; rfl)

/-! ### The books -/

/-- The table, its counter and the record agree with the pages; `loading` are the pages
whose content is not there yet. -/
structure Book (k : Cache N) (loading : ℕ → Prop) : Prop where
  key : ∀ c ∈ k.table, ∀ d ∈ k.table, (k.page c).mapping = (k.page d).mapping →
    (k.page c).index = (k.page d).index → c = d
  nr : k.nr = k.table.length
  room : k.nr ≤ cachePages
  destroyed : ∀ c, k.calls.destroyed c = if c < k.next ∧ (k.page c).refs = 0 then 1 else 0
  read : ∀ c < k.next, (k.page c).refs ≠ 0 → loading c ∨ k.calls.read c = some (k.page c).error

namespace Book

variable {k k' : Cache N} {loading loading' : ℕ → Prop} {c : ℕ}

section

variable (h : Book k loading)
include h

theorem same (hsame : Same k k') (hload : ∀ c, loading c → loading' c) :
    Book k' loading' where
  key := by
    intro c hc d hd
    rw [hsame.table] at hc hd
    rw [hsame.mapping, hsame.mapping, hsame.index, hsame.index]
    exact h.key c hc d hd
  nr := by
    rw [hsame.nr, hsame.table]
    exact h.nr
  room := by
    rw [hsame.nr]
    exact h.room
  destroyed := by
    intro c
    simp only [hsame.calls, h.destroyed, hsame.next, hsame.dead]
  read := by
    intro c hc hrefs
    rw [hsame.next] at hc
    rw [Ne, hsame.dead] at hrefs
    rw [hsame.error, hsame.calls]
    exact (h.read c hc hrefs).imp_left (hload c)

theorem drop (hmem : c ∈ k.table) :
    Book { k with table := k.table.erase c, nr := k.nr - 1 } loading where
  key d hd e he := h.key d (List.mem_of_mem_erase hd) e (List.mem_of_mem_erase he)
  nr := by
    rw [List.length_erase_of_mem hmem, h.nr]
  room := (Nat.sub_le _ _).trans h.room
  destroyed := h.destroyed
  read := h.read

/-- `cache_page_destroy` on a page that still had a reference. -/
theorem destroy (hlt : c < k.next) (hpos : (k.page c).refs ≠ 0)
    (hload : ∀ d ≠ c, loading d → loading' d) :
    Book (k.destroy c) loading' := by
  have hself : ((k.destroy c).page c).refs = 0 := by
    rw [Cache.destroy, Cache.setPage_page, update_self]
  have hother : ∀ d ≠ c, (k.destroy c).page d = k.page d := fun d hd => by
    rw [Cache.destroy, Cache.setPage_page, update_of_ne hd]
  refine ⟨fun d hd e he => ?_, h.nr, h.room, fun d => ?_, fun d hd hrefs => ?_⟩
  · rw [Cache.destroy_mapping, Cache.destroy_mapping, Cache.destroy_index, Cache.destroy_index]
    exact h.key d hd e he
  · rcases eq_or_ne d c with rfl | hd
    · rw [if_pos ⟨hlt, hself⟩]
      exact (update_self d _ _).trans (by rw [h.destroyed, if_neg fun hc => hpos hc.2])
    · rw [hother d hd]
      exact (update_of_ne hd _ _).trans (h.destroyed d)
  · have hne : d ≠ c := by
      rintro rfl
      exact hrefs hself
    rw [hother d hne] at hrefs ⊢
    exact (h.read d hd hrefs).imp_left (hload d hne)

theorem create {t : Fin N} {m index : ℕ} (htable : ∀ d ∈ k.table, d ≠ k.next)
    (hnew : loading' k.next) (hload : ∀ c, loading c → loading' c) :
    Book (k.create t m index) loading' := by
  have hself : (k.create t m index).page k.next = ⟨m, index, 1, .clean, 0, some t⟩ :=
    update_self _ _ _
  have hother : ∀ d ≠ k.next, (k.create t m index).page d = k.page d :=
    fun d hd => update_of_ne hd _ _
  refine ⟨fun d hd e he => ?_, h.nr, h.room, fun d => ?_, fun d hd hrefs => ?_⟩
  · rw [hother d (htable d hd), hother e (htable e he)]
    exact h.key d hd e he
  · refine (h.destroyed d).trans ?_
    rcases eq_or_ne d k.next with rfl | hd
    · rw [hself, if_neg fun hc => lt_irrefl _ hc.1, if_neg fun hc => Nat.one_ne_zero hc.2]
    · have hlt : d < (k.create t m index).next ↔ d < k.next := by
        change d < k.next + 1 ↔ d < k.next
        omega
      simp only [hother d hd, hlt]
  · rcases eq_or_ne d k.next with rfl | hne
    · exact .inl hnew
    · have hlt : d < k.next := by
        have : d < k.next + 1 := hd
        omega
      rw [hother d hne] at hrefs ⊢
      exact (h.read d hlt hrefs).imp_left (hload d)

/-- The page being loaded enters the table. -/
theorem insert (hroom : k.nr < cachePages) (hpos : (k.page c).refs ≠ 0)
    (hkey : ∀ d ∈ k.table, (k.page d).mapping = (k.page c).mapping →
      (k.page d).index ≠ (k.page c).index) : Book (k.insert c) loading := by
  have hsame : Same k (k.setRefs c ((k.page c).refs + 1)) :=
    Same.setRefs hpos (Nat.succ_ne_zero _)
  have hbook := h.same hsame fun _ => id
  refine ⟨fun d hd e he hm hi => ?_, congrArg (· + 1) h.nr, hroom, hbook.destroyed, hbook.read⟩
  have hmapping : (k.page d).mapping = (k.page e).mapping := by
    rw [← hsame.mapping, ← hsame.mapping]
    exact hm
  have hindex : (k.page d).index = (k.page e).index := by
    rw [← hsame.index, ← hsame.index]
    exact hi
  rcases List.mem_cons.mp hd with hdc | hdt <;> rcases List.mem_cons.mp he with hec | het
  · rw [hdc, hec]
  · rw [hdc] at hmapping hindex
    exact absurd hindex.symm (hkey e het hmapping.symm)
  · rw [hec] at hmapping hindex
    exact absurd hindex (hkey d hdt hmapping)
  · exact h.key d hdt e het hmapping hindex

theorem readPage (hload : ∀ d ≠ c, loading d → loading' d) :
    Book (k.setRead c ret) loading' := by
  have hmapping : ∀ d, ((k.setRead c ret).page d).mapping =
      (k.page d).mapping := Cache.setPage_field CachePage.mapping rfl
  have hindex : ∀ d, ((k.setRead c ret).page d).index =
      (k.page d).index := Cache.setPage_field CachePage.index rfl
  have hdead : ∀ d, ((k.setRead c ret).page d).refs =
      (k.page d).refs := Cache.setPage_field CachePage.refs rfl
  refine ⟨fun d hd e he => ?_, h.nr, h.room, fun d => ?_, fun d hd hrefs => ?_⟩
  · rw [hmapping, hmapping, hindex, hindex]
    exact h.key d hd e he
  · rw [hdead]
    exact h.destroyed d
  · rw [hdead] at hrefs
    unfold Cache.setRead
    rcases eq_or_ne d c with rfl | hne
    · right
      dsimp only
      rw [Cache.setPage_page, update_self, update_self]
    · dsimp only
      rw [Cache.setPage_page, update_of_ne hne, update_of_ne hne]
      exact (h.read d hd hrefs).imp_left (hload d hne)

end

end Book

/-! ### The invariant -/

/-- Some task has created the page and not yet read it. -/
def Loading (s : State N) (c : ℕ) : Prop := ∃ u, (s.task u).pc.loading = some c

/-- A loading by another task goes on. -/
theorem loading_of_ne {d : ℕ} (htask : ∀ u ≠ t, s'.task u = s.task u)
    (hpc : (s.task t).pc.loading = some c) (hd : d ≠ c) (hload : Loading s d) : Loading s' d := by
  obtain ⟨u, hu⟩ := hload
  refine ⟨u, ?_⟩
  rw [htask u]
  · exact hu
  · rintro rfl
    exact hd (Option.some.inj (hu.symm.trans hpc))

/-- A step of a task that loads nothing, or goes on loading. -/
theorem loading_mono (htask : ∀ u ≠ t, s'.task u = s.task u)
    (hpc : ∀ c, (s.task t).pc.loading = some c → (s'.task t).pc.loading = some c)
    (hload : Loading s c) : Loading s' c := by
  obtain ⟨u, hu⟩ := hload
  refine ⟨u, ?_⟩
  rcases eq_or_ne u t with rfl | hne
  · exact hpc c hu
  · rwa [htask u hne]

/-- Every page of another identity than the ones found. -/
theorem Cache.find_none {m index d : ℕ} (hfind : k.find m index = none) (hd : d ∈ k.table)
    (hm : (k.page d).mapping = m) : (k.page d).index ≠ index := by
  intro hi
  have := List.find?_eq_none.mp hfind d hd
  simp [hm, hi] at this

theorem Inv.lt_next_of_mem (h : Inv s) (hc : c ∈ s.cache.table) : c < s.cache.next := by
  by_contra hle
  exact ((h.page c).unborn (not_lt.mp hle)).1 hc

/-- What a task is loading it has created, inside its mutex and with a reference. -/
theorem Inv.of_loading (h : Inv s) (hpc : (s.task t).pc.loading = some c) :
    (s.cache.page c).holder = some t ∧ (s.cache.page c).refs ≠ 0 ∧ c < s.cache.next := by
  have hlocked : ((s.task t).role c).locked = true := by
    rw [Thread.role_locked]
    cases hp : (s.task t).pc <;> rw [hp] at hpc <;> simp_all [Pc.loading, Pc.locked]
  have hrefs := h.refs_ne_zero_of_role (((s.task t).role c).locked_refs hlocked)
  refine ⟨(h.page c).locked t hlocked, hrefs, ?_⟩
  by_contra hle
  exact hrefs ((h.page c).unborn (not_lt.mp hle)).2

/-- The invariant, with the books. -/
structure BookInv (s : State N) : Prop where
  base : Inv s
  book : Book s.cache (Loading s)

theorem bookInv_boot : BookInv (boot N) where
  base := inv_boot
  book := ⟨nofun, rfl, Nat.zero_le _,
    fun c => (if_neg fun hc => absurd hc.1 (Nat.not_lt_zero c)).symm,
    fun c hc => absurd hc (Nat.not_lt_zero c)⟩

theorem BookInv.step (h : BookInv s) (hstep : step hasMutex s (t, a) = some s') : BookInv s' := by
  have htask := (step_keeps h.base hstep).task
  refine ⟨h.base.step hstep, ?_⟩
  cases step_turn h.base hstep with
  | same hsame hload =>
    exact h.book.same hsame fun c => loading_mono htask hload
  | create m index hcache hpc hpc' =>
    rw [hcache]
    refine h.book.create ?_ ?_ fun c => loading_mono htask ?_
    · rintro d hd rfl
      exact absurd hd ((h.base.page _).unborn le_rfl).1
    · exact ⟨t, by rw [hpc']; rfl⟩
    · rw [hpc]
      nofun
  | duplicate c cached hcached hcache hpc =>
    have hloading : (s.task t).pc.loading = some c := by rw [hpc]; rfl
    obtain ⟨-, hpos, hlt⟩ := h.base.of_loading hloading
    have hsame : Same s.cache (s.cache.hold cached) :=
      Same.hold (h.base.refs_ne_zero_of_mem hcached)
    rw [hcache]
    refine (h.book.same hsame fun _ => id).destroy ?_ ?_ fun d hd => loading_of_ne htask hloading hd
    · rwa [hsame.next]
    · rw [Ne, hsame.dead]
      exact hpos
  | full c hcache hpc =>
    have hloading : (s.task t).pc.loading = some c := by rw [hpc]; rfl
    obtain ⟨-, hpos, hlt⟩ := h.base.of_loading hloading
    rw [hcache]
    exact h.book.destroy hlt hpos fun d hd => loading_of_ne htask hloading hd
  | insert c hcache hroom hfind hpc hpc' =>
    have hloading : (s.task t).pc.loading = some c := by rw [hpc]; rfl
    have hloading' : (s'.task t).pc.loading = some c := by rw [hpc']; rfl
    obtain ⟨-, hpos, -⟩ := h.base.of_loading hloading
    rw [hcache]
    have hmono : ∀ d, Loading s d → Loading s' d := fun d => loading_mono htask fun d hd => by
      rw [hloading', ← hd, hloading]
    exact (h.book.same (Same.refl _) hmono).insert hroom hpos
      fun d hd => Cache.find_none hfind hd
  | evict c victim hcache hlru hfind hpc hpc' =>
    have hloading : (s.task t).pc.loading = some c := by rw [hpc]; rfl
    have hloading' : (s'.task t).pc.loading = some c := by rw [hpc']; rfl
    have hmono : ∀ d, Loading s d → Loading s' d := fun d => loading_mono htask fun d hd => by
      rw [hloading', ← hd, hloading]
    obtain ⟨-, hpos, -⟩ := h.base.of_loading hloading
    have hvictim := ((h.base.page victim).lru hlru).1
    have hvpos := h.base.refs_ne_zero_of_mem hvictim
    have hvlt : victim < s.cache.next := h.base.lt_next_of_mem hvictim
    have hne : c ≠ victim := by
      rintro rfl
      exact ((h.base.page c).fresh t (by rw [Thread.role_fresh, hpc]; simp [Pc.fresh])).1 hvictim
    rw [hcache]
    -- the victim leaves the table, is destroyed, and the new page enters
    have hlru' : Same { s.cache with
        table := s.cache.table.erase victim
        nr := s.cache.nr - 1 } { s.cache with
        lru := s.cache.lru.erase victim
        table := s.cache.table.erase victim
        nr := s.cache.nr - 1 } :=
      ⟨rfl, rfl, rfl, rfl, fun _ => rfl, fun _ => rfl, fun _ => rfl, fun _ => .rfl⟩
    have hdestroyed := ((h.book.drop hvictim).same hlru' hmono).destroy hvlt hvpos fun _ _ => id
    refine hdestroyed.insert ?_ ?_ ?_
    · have := h.book.room
      have := h.book.nr
      have := List.length_pos_of_mem hvictim
      change s.cache.nr - 1 < cachePages
      omega
    · rwa [Cache.destroy, Cache.setPage_page, update_of_ne hne]
    · intro d hd
      rw [Cache.destroy_mapping, Cache.destroy_mapping, Cache.destroy_index, Cache.destroy_index]
      have hd' : d ∈ s.cache.table := List.mem_of_mem_erase hd
      have hnone := Cache.find_none hfind hd'
      exact hnone
  | read c ret hcache hpc =>
    have hloading : (s.task t).pc.loading = some c := by rw [hpc]; rfl
    rw [hcache]
    exact h.book.readPage fun d hd => loading_of_ne htask hloading hd
  | unhash c htable hnr hmem hother hpc =>
    have hbook := h.book.drop hmem
    rw [← htable, ← hnr] at hbook
    refine hbook.same hother fun d => loading_mono htask ?_
    rw [hpc]
    nofun
  | destroy c hcache hone htable hpc =>
    have hpos : (s.cache.page c).refs ≠ 0 := by
      rw [hone]
      exact Nat.one_ne_zero
    rw [hcache]
    refine h.book.destroy ?_ hpos fun d _ => loading_mono htask ?_
    · by_contra hle
      exact hpos ((h.base.page c).unborn (not_lt.mp hle)).2
    · rw [hpc]
      nofun

/-! ### The law -/

/-- In the step from `s` to `s'`, `mapping_get` of task `t` returns the page `c`. -/
def Gets (s s' : State N) (t : Fin N) (c : ℕ) : Prop :=
  ((s.task t).pc = .getUnlock c ∨ (s.task t).pc = .readyUnlock c) ∧
    (s'.task t).held = c :: (s.task t).held

/-- The references that tasks have to a page. -/
def taskRefs (s : State N) (c : ℕ) : ℕ := ∑ t, ((s.task t).role c).refs

/-- Identity, capacity and life of the cached pages. -/
structure CacheOk (hasMutex : ℕ → Bool) (s : State N) : Prop where
  /-- One page for each mapping and index. -/
  unique : ∀ c ∈ s.cache.table, ∀ d ∈ s.cache.table,
    (s.cache.page c).mapping = (s.cache.page d).mapping →
    (s.cache.page c).index = (s.cache.page d).index → c = d
  nodup : s.cache.table.Nodup
  nr : s.cache.nr = s.cache.table.length
  room : s.cache.nr ≤ cachePages
  /-- A collection fits into its array. -/
  collect : ∀ m, (s.cache.collect m).length ≤ cachePages
  refs : ∀ c, (s.cache.page c).refs = (if c ∈ s.cache.table then 1 else 0) + taskRefs s c
  /-- A page is destroyed once, when it is neither hashed nor referenced. -/
  destroyed : ∀ c, s.cache.calls.destroyed c =
    if c < s.cache.next ∧ c ∉ s.cache.table ∧ taskRefs s c = 0 then 1 else 0
  /-- What `mapping_get` returns has been read, and nobody is reading it. -/
  got : ∀ s' t a c, step hasMutex s (t, a) = some s' → Gets s s' t c →
    s.cache.calls.read c = some 0 ∧ ¬ Loading s c

/-- A task inside the mutex of a page, in the course of a lookup. -/
theorem locked_of_gets (hgets : Gets s s' t c) :
    ((s.task t).role c).locked = true ∧ (s.task t).pc.loading = none := by
  rcases hgets.1 with hpc | hpc <;> rw [Thread.role_locked, hpc] <;> simp [Pc.locked, Pc.loading]

/-- A lookup returns a page only without an error. -/
theorem error_of_gets (hstep : step hasMutex s (t, a) = some s') (hgets : Gets s s' t c) :
    (s.cache.page c).error = 0 := by
  obtain ⟨hgets, hheld⟩ := hgets
  obtain ⟨pc, hpc, hmove⟩ := step_move hstep
  have hne : (s.task t).held ≠ c :: (s.task t).held := fun heq => by
    simpa using congrArg List.length heq
  rw [hpc] at hgets
  rcases hgets with rfl | rfl <;> cases hmove
  · assumption
  · simp [State.setPc, State.setCache] at hheld
  · assumption
  · simp [State.setPc, State.setCache] at hheld

theorem BookInv.cacheOk (h : BookInv s) : CacheOk hasMutex s := by
  have hdirty : s.cache.dirty ⊆ s.cache.table := fun c hc =>
    (h.base.page c).busy ((h.base.page c).dirty.mp hc)
  have hrefs : ∀ c, (s.cache.page c).refs =
      (if c ∈ s.cache.table then 1 else 0) + taskRefs s c := fun c => (h.base.page c).count
  refine ⟨h.book.key, h.base.table_nodup, h.book.nr, h.book.room, fun m => ?_, hrefs,
    fun c => ?_, fun s' t a c hstep hgets => ?_⟩
  · calc (s.cache.collect m).length
        ≤ s.cache.dirty.length := List.length_filter_le _ _
      _ ≤ s.cache.table.length := (h.base.dirty_nodup.subperm hdirty).length_le
      _ ≤ cachePages := h.book.nr ▸ h.book.room
  · have hzero : (s.cache.page c).refs = 0 ↔ c ∉ s.cache.table ∧ taskRefs s c = 0 := by
      rw [hrefs]
      split_ifs with hc <;> simp [hc]
    simp only [h.book.destroyed, hzero]
  · obtain ⟨hlocked, hload⟩ := locked_of_gets hgets
    have hholder := (h.base.page c).locked t hlocked
    have hrefs := h.base.refs_ne_zero_of_role (((s.task t).role c).locked_refs hlocked)
    have hnot : ¬ Loading s c := by
      rintro ⟨u, hu⟩
      have hu' := (h.base.of_loading hu).1
      rw [hholder] at hu'
      rw [← Option.some.inj hu', hload] at hu
      cases hu
    have hlt : c < s.cache.next := by
      by_contra hle
      exact hrefs ((h.base.page c).unborn (not_lt.mp hle)).2
    refine ⟨?_, hnot⟩
    rw [((h.book.read c hlt hrefs).resolve_left hnot), error_of_gets hstep hgets]

/-- **Identity and life of cached pages.** In every state that any number of tasks reach,
by any interleaving of the sections of `mm/mapping.c`, the books of the cache are in
order, and a lookup returns only what has been read. -/
theorem cacheOk_of_reachable (hs : Reachable (· = boot N) (Graph (step hasMutex)) s) :
    CacheOk hasMutex s := by
  have hinit : ∀ s : State N, s = boot N → BookInv s := by
    rintro s rfl
    exact bookInv_boot
  exact (hs.invariant hinit fun s b s' hinv hstep => hinv.step hstep).cacheOk

/-- Task `1` looks up a page that task `0` is reading, and waits for its mutex. -/
def sharedLookup : List (Fin 2 × Action) :=
  [(0, .get 0 0), (0, .alloc true), (0, .run), (1, .get 0 0), (0, .readPage 0), (0, .run),
    (1, .run)]

/-- The books when the waiting task gets the page. -/
theorem cacheOk_sharedLookup : ∃ s s' : State 2,
    step noMutex s (1, .run) = some s' ∧ Gets s s' 1 0 ∧ CacheOk noMutex s ∧
    s.cache.calls.read 0 = some 0 := by
  have hexec : ((exec (step noMutex) (boot 2) sharedLookup).bind fun s =>
      (step noMutex s (1, .run)).map fun s' =>
        decide ((s.task 1).pc = .readyUnlock 0 ∧
          (s'.task 1).held = 0 :: (s.task 1).held)) = some true := by decide +kernel
  obtain ⟨s, hs, hmap⟩ := Option.bind_eq_some_iff.mp hexec
  obtain ⟨s', hs', hgets⟩ := Option.map_eq_some_iff.mp hmap
  obtain ⟨hpc, hheld⟩ := of_decide_eq_true hgets
  have hok := cacheOk_of_reachable (Reachable.exec (.init rfl) hs)
  exact ⟨s, s', hs', ⟨.inr hpc, hheld⟩, hok, (hok.got s' 1 .run 0 hs' ⟨.inr hpc, hheld⟩).1⟩

end Nuvix.Mapping
