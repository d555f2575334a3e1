import Nuvix.Mm.MappingInvariant

/-!
# The lists of the page cache

In every reachable state the dirty list holds the hashed pages with a state, the
LRU list holds hashed pages without one, and no page is on both. That a page on
the LRU list has no reference but that of the table holds exactly when no
`mapping_purge` has just selected it: its search takes a reference and, unlike
every other section, does not call `mapping_link`. A lookup that needs room in
that window stops the kernel.
-/

namespace Nuvix.Mapping

open Transition Function

variable {N : ℕ} {hasMutex : ℕ → Bool} {s s' : State N} {c : ℕ}

/-- The states that any number of tasks can reach. -/
def Reaches (hasMutex : ℕ → Bool) (s : State N) : Prop :=
  Reachable (· = boot N) (Graph (step hasMutex)) s

theorem Reaches.inv (h : Reaches hasMutex s) : Inv s := by
  have hinit : ∀ s : State N, s = boot N → Inv s := by
    rintro s rfl
    exact inv_boot
  exact h.invariant hinit fun s a t hs hstep => hs.step hstep

/-- A page on the LRU list is hashed, without a state and referenced by the table
only; a page on the dirty list is hashed and has a state; no page is on both. -/
structure ListsConsistent (k : Cache N) : Prop where
  lru : ∀ c ∈ k.lru, c ∈ k.table ∧ (k.page c).state = .clean ∧ (k.page c).refs = 1
  dirty : ∀ c ∈ k.dirty, c ∈ k.table ∧ (k.page c).state ≠ .clean
  disjoint : ∀ c, ¬ (c ∈ k.lru ∧ c ∈ k.dirty)

/-- No purge stands between its search and the removal of a page on the LRU list. -/
def NoLruVictim (s : State N) : Prop :=
  ∀ t c, (s.task t).pc.purging = some c → c ∉ s.cache.lru

/-- The references of a page on the LRU list are those of the table and of the
purges that have selected it. -/
theorem Inv.refs_of_mem_lru (h : Inv s) (hc : c ∈ s.cache.lru) :
    (s.cache.page c).refs = 1 + ∑ t, if (s.task t).pc.purging = some c then 1 else 0 := by
  obtain ⟨htable, -, hroles⟩ := (h.page c).lru hc
  rw [(h.page c).count, if_pos htable]
  congr 1
  refine Finset.sum_congr rfl fun t _ => ?_
  rw [hroles t]
  simp

theorem Inv.listsConsistent_iff (h : Inv s) : ListsConsistent s.cache ↔ NoLruVictim s := by
  constructor
  · intro hlists t c hpurging hc
    have hone := (hlists.lru c hc).2.2
    rw [h.refs_of_mem_lru hc] at hone
    have hle : (if (s.task t).pc.purging = some c then 1 else 0) ≤
        ∑ t, if (s.task t).pc.purging = some c then 1 else 0 :=
      Finset.single_le_sum (f := fun t => if (s.task t).pc.purging = some c then 1 else 0)
        (fun _ _ => Nat.zero_le _) (Finset.mem_univ t)
    rw [if_pos hpurging] at hle
    omega
  · intro hnone
    refine ⟨fun c hc => ?_, fun c hc => ?_, fun c hc => ?_⟩
    · obtain ⟨htable, hclean, -⟩ := (h.page c).lru hc
      refine ⟨htable, hclean, ?_⟩
      rw [h.refs_of_mem_lru hc, Finset.sum_eq_zero fun t _ => if_neg fun hp => hnone t c hp hc,
        Nat.add_zero]
    · have hstate := (h.page c).dirty.mp hc
      exact ⟨(h.page c).busy hstate, hstate⟩
    · exact (h.page c).dirty.mp hc.2 ((h.page c).lru hc.1).2.1

/-- With consistent lists `mapping_make_room` finds a victim without users. -/
theorem makeRoom_ne_panic {k : Cache N} (h : ListsConsistent k) : k.makeRoom ≠ .panic := by
  unfold Cache.makeRoom
  split_ifs with hnr
  · exact nofun
  · split
    · exact nofun
    · next v rest hlru =>
      obtain ⟨-, hclean, hone⟩ := h.lru v (by rw [hlru]; exact List.mem_cons_self)
      dsimp only
      rw [if_neg (by simp [hclean, hone])]
      exact nofun

/-- In every reachable state the law of the lists holds exactly when no purge
stands before the removal of a page on the LRU list, and then the assertion on the
victim holds. -/
theorem listsConsistent_iff_noLruVictim (h : Reaches hasMutex s) :
    (ListsConsistent s.cache ↔ NoLruVictim s) ∧ (NoLruVictim s → s.cache.makeRoom ≠ .panic) := by
  have hiff := h.inv.listsConsistent_iff
  exact ⟨hiff, fun hnone => makeRoom_ne_panic (hiff.mpr hnone)⟩

/-! ### The window of `mapping_purge` -/

/-- No mapping has a mutex, as that of the ext2 metadata. -/
def noMutex (_ : ℕ) : Bool := false

/-- A lookup of page `n` of mapping `0` that reads it, and the release. -/
def load (n : ℕ) : List (Fin 2 × Action) :=
  [(0, .get 0 n), (0, .alloc true), (0, .run), (0, .readPage 0), (0, .run), (0, .put n), (0, .run)]

/-- The pages `0` to `n - 1` of mapping `0` are cached and unused. -/
structure Loaded (n : ℕ) (s : State 2) : Prop where
  panic : s.panic = none
  task : ∀ t, s.task t = ⟨[], .idle⟩
  next : s.cache.next = n
  nr : s.cache.nr = n
  dirty : s.cache.dirty = []
  lru : s.cache.lru = List.range n
  table : s.cache.table = (List.range n).reverse
  page : ∀ c < n, s.cache.page c = ⟨0, c, 1, .clean, 0, none⟩

section

variable {n : ℕ} {s : State 2}

theorem Loaded.lt_of_mem (h : Loaded n s) (hc : c ∈ s.cache.table) : c < n := by
  simpa [h.table] using hc

/-- No lookup of page `n` finds one, also with a new page in the store. -/
theorem Loaded.find (h : Loaded n s) (page : ℕ → CachePage 2)
    (hpage : ∀ c < n, (page c).index = c) :
    List.find? (fun c => (page c).mapping == 0 && (page c).index == n) s.cache.table = none := by
  rw [List.find?_eq_none]
  intro c hc
  have hlt := h.lt_of_mem hc
  simp only [hpage c hlt, Bool.and_eq_true, beq_iff_eq, not_and]
  omega

/-- The state after one more page. -/
def afterLoad (s : State 2) (n : ℕ) : State 2 where
  cache :=
    { s.cache with
      page := update s.cache.page n ⟨0, n, 1, .clean, 0, none⟩
      next := n + 1
      table := n :: s.cache.table
      lru := s.cache.lru.erase n ++ [n]
      dirty := s.cache.dirty.erase n
      nr := n + 1
      calls.read := update s.cache.calls.read n (some 0) }
  owner := s.owner
  task := update s.task 0 ⟨[], .idle⟩
  panic := none

theorem Loaded.exec_load (h : Loaded n s) (hn : n < cachePages) :
    exec (step noMutex) s (load n) = some (afterLoad s n) := by
  have hfirst := h.find s.cache.page fun c hc => congrArg CachePage.index (h.page c hc)
  have hsecond : ∀ pg : CachePage 2, _ := fun pg => h.find (update s.cache.page n pg)
    fun c hc => by rw [update_of_ne hc.ne, h.page c hc]
  simp [load, exec, step, start, stepGet, stepPut, noMutex, AssertLocked, h.task 0, h.panic,
    hfirst, hsecond, State.setPc, State.setCache, State.setThread, Cache.create, Cache.insert,
    Cache.makeRoom, h.nr, hn, Cache.setHolder, Cache.setPage, Cache.setRefs, Cache.setRead, h.next,
    Cache.find, Cache.link, afterLoad, Cont.afterPut]

theorem Loaded.succ (h : Loaded n s) : Loaded (n + 1) (afterLoad s n) where
  panic := rfl
  task t := by
    rcases eq_or_ne t 0 with rfl | ht
    · simp [afterLoad]
    · simp [afterLoad, ht, h.task t]
  next := rfl
  nr := rfl
  dirty := by simp [afterLoad, h.dirty]
  lru := by
    have hn : n ∉ List.range n := List.not_mem_range_self
    simp [afterLoad, h.lru, List.erase_of_not_mem hn, List.range_succ]
  table := by simp [afterLoad, h.table, List.range_succ]
  page c hc := by
    rcases eq_or_ne c n with rfl | hne
    · simp [afterLoad]
    · simp [afterLoad, hne, h.page c (by omega)]

/-- The cache can be filled to any number of unused pages. -/
theorem exists_loaded (hn : n ≤ cachePages) : ∃ s, Reaches noMutex s ∧ Loaded n s := by
  induction n with
  | zero => exact ⟨boot 2, .init rfl, ⟨rfl, fun _ => rfl, rfl, rfl, rfl, rfl, rfl, nofun⟩⟩
  | succ n ih =>
    obtain ⟨s, hs, hload⟩ := ih (by omega)
    exact ⟨afterLoad s n, Reachable.exec hs (hload.exec_load hn), hload.succ⟩

theorem Loaded.noLruVictim (h : Loaded n s) : NoLruVictim s := by
  intro t c hpurging
  rw [h.task t] at hpurging
  cases hpurging

/-- A cache full of unused pages: the law holds and room can be made. -/
theorem listsConsistent_full_cache : ∃ s : State 2, Reaches noMutex s ∧
    s.cache.lru = List.range cachePages ∧ ListsConsistent s.cache ∧ s.cache.makeRoom ≠ .panic := by
  obtain ⟨s, hs, hload⟩ := exists_loaded (le_refl cachePages)
  obtain ⟨hiff, hroom⟩ := listsConsistent_iff_noLruVictim hs
  exact ⟨s, hs, hload.lru, hiff.mpr hload.noLruVictim, hroom hload.noLruVictim⟩

/-- The state after the search of a purge that has met page `0`. -/
def afterSelect (s : State 2) : State 2 where
  cache := s.cache.setRefs 0 2
  owner := s.owner
  task := update s.task 1 ⟨[], .purgeLock 0 0 0 1⟩
  panic := none

theorem Loaded.exec_select (h : Loaded n s) (hn : 0 < n) :
    exec (step noMutex) s [(1, .purge 0 0 1), (1, .select (some 0))] = some (afterSelect s) := by
  have hmem : 0 ∈ s.cache.table := by simpa [h.table] using hn
  simp [exec, step, start, stepPurge, noMutex, AssertLocked, h.task 1, h.panic, State.setPc,
    State.setCache, Purges, hmem, h.page 0 hn, Cache.setRefs, Cache.setPage, afterSelect]

theorem Loaded.exec_victim (h : Loaded cachePages s) : ∃ s', exec (step noMutex) (afterSelect s)
      [(0, .get 0 cachePages), (0, .alloc true), (0, .run)] = some s' ∧
      s'.panic = some .busyVictim := by
  have hpage0 := h.page 0 (by decide)
  have hindex : ∀ c < cachePages, ((afterSelect s).cache.page c).index = c := by
    intro c hc
    rcases eq_or_ne c 0 with rfl | hne
    · simp [afterSelect, Cache.setRefs, hpage0]
    · simp [afterSelect, Cache.setRefs, hne, h.page c hc]
  have hfirst := h.find (afterSelect s).cache.page hindex
  have hsecond : ∀ pg : CachePage 2, _ := fun pg =>
    h.find (update (afterSelect s).cache.page cachePages pg)
      fun c hc => by rw [update_of_ne hc.ne, hindex c hc]
  have hlru : s.cache.lru = 0 :: (List.range 255).map Nat.succ :=
    h.lru.trans (List.range_succ_eq_map (n := 255))
  have hne : (0 : ℕ) ≠ cachePages := by decide
  simp only [afterSelect, Cache.setRefs, Cache.setPage] at hfirst hsecond
  simp [exec, step, start, stepGet, noMutex, AssertLocked, h.task 0, State.setPc, State.setCache,
    Cache.find, afterSelect, Cache.create, Cache.makeRoom, h.nr, h.next, hfirst, hsecond, hlru,
    Cache.setPage, Cache.setRefs, State.fail, hne]

end

/-- With the cache full of unused pages, one task purges page `0` and another looks
up a page that is not cached. Between the search of the purge and its removal, page
`0` is on the LRU list with two references; the lookup takes it as its victim and
the assertion fails. -/
theorem purge_of_lru_page_stops_kernel :
    (∃ s : State 2, Reaches noMutex s ∧ s.panic = none ∧ 0 ∈ s.cache.lru ∧
      (s.cache.page 0).refs = 2 ∧ ¬ ListsConsistent s.cache) ∧
    ∃ s : State 2, Reaches noMutex s ∧ s.panic = some .busyVictim := by
  obtain ⟨s, hs, hload⟩ := exists_loaded (le_refl cachePages)
  have hselect := Reachable.exec hs (hload.exec_select (by decide))
  obtain ⟨s', hexec, hpanic⟩ := hload.exec_victim
  have hmem : 0 ∈ (afterSelect s).cache.lru := by
    change 0 ∈ s.cache.lru
    rw [hload.lru]
    decide
  have hrefs : ((afterSelect s).cache.page 0).refs = 2 := by
    simp [afterSelect, Cache.setRefs]
  refine ⟨⟨afterSelect s, hselect, rfl, hmem, hrefs, fun hlists => ?_⟩, s',
    Reachable.exec hselect hexec, hpanic⟩
  have hone := (hlists.lru 0 hmem).2.2
  rw [hrefs] at hone
  cases hone

end Nuvix.Mapping
