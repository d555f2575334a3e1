import Nuvix.Mm.MappingFlush
import Nuvix.Mm.MappingHost

/-!
# The barrier of `mapping_purge`

A flusher keeps references to pages it has collected and writes them after any delay. A
purge has to make sure that it never writes a page the purge has met: a page is written
only while it is hashed, a page that has left the table never comes back under its name,
and a purge returns when no page of its range is hashed.
-/

namespace Nuvix.Mapping

open Transition

variable {N : ℕ} {hasMutex : ℕ → Bool} {s s' : State N} {t : Fin N} {a : Action} {c : ℕ}

/-- A page is not inserted after its allocation except by the task that allocated it. -/
theorem step_fresh (hstep : step hasMutex s (t, a) = some s')
    (hc : (s'.task t).pc.fresh = some c) : (s.task t).pc.fresh = some c ∨ c = s.cache.next := by
  obtain ⟨pc, hpc, hmove⟩ := step_move hstep
  -- no move but the allocation leads before the insertion; a failed assertion stays
  cases hmove with
  | lockMapping | unlockMapping | lock | unlock | dirty | dirtyDetached | insertPanic | putPanic
  | purgePanic => exact .inl hc
  | alloc =>
    rw [setPc_pc] at hc
    cases hc
    exact .inr rfl
  | @putLast c k | @putRef c k =>
    rw [setPc_pc] at hc
    cases k <;> cases hc
  | @wbUnlock c ret k =>
    rw [setThread_pc] at hc
    cases k <;> cases hc
  | readPage =>
    rw [setPc_pc] at hc
    split_ifs at hc <;> cases hc
  | put | writeback | getUnlock | readyUnlock =>
    rw [setThread_pc] at hc
    cases hc
  | _ =>
    rw [setPc_pc] at hc
    cases hc

/-! ### Pages that have been cached once -/

/-- The page has been created, and nobody is about to insert it. -/
def Established (s : State N) (c : ℕ) : Prop :=
  c < s.cache.next ∧ ∀ u, (s.task u).pc.fresh ≠ some c

theorem Inv.established_of_mem (h : Inv s) (hc : c ∈ s.cache.table) : Established s c := by
  refine ⟨h.lt_next_of_mem hc, fun u hu => ?_⟩
  exact ((h.page c).fresh u (by simp [hu])).1 hc

/-- A page keeps its mapping and its index. -/
theorem Turn.identity (h : Turn s t s') (hc : c < s.cache.next) :
    (s'.cache.page c).mapping = (s.cache.page c).mapping ∧
      (s'.cache.page c).index = (s.cache.page c).index := by
  cases h with
  | same hsame hload => exact ⟨hsame.mapping c, hsame.index c⟩
  | create m index hcache hpc hpc' =>
    rw [hcache, Cache.create]
    dsimp only
    rw [Cache.setPage_page, Function.update_of_ne hc.ne]
    exact ⟨rfl, rfl⟩
  | duplicate d cached hcached hcache hpc =>
    rw [hcache, Cache.destroy_mapping, Cache.destroy_index, Cache.hold, Cache.link_page]
    exact ⟨Cache.setPage_field CachePage.mapping (by rfl) c,
      Cache.setPage_field CachePage.index (by rfl) c⟩
  | full d hcache hpc | destroy d hcache hone htable hpc =>
    rw [hcache, Cache.destroy_mapping, Cache.destroy_index]
    exact ⟨rfl, rfl⟩
  | insert d hcache hroom hfind hpc hpc' =>
    rw [hcache, Cache.insert]
    exact ⟨Cache.setPage_field CachePage.mapping (by rfl) c,
      Cache.setPage_field CachePage.index (by rfl) c⟩
  | evict d victim hcache hlru hfind hpc hpc' =>
    rw [hcache, Cache.insert]
    dsimp only
    rw [Cache.setRefs_mapping, Cache.destroy_mapping]
    refine ⟨rfl, ?_⟩
    rw [Cache.setRefs, Cache.setPage_field CachePage.index (by rfl), Cache.destroy_index]
  | read d ret hcache hpc =>
    rw [hcache]
    exact ⟨Cache.setPage_field CachePage.mapping (by rfl) c,
      Cache.setPage_field CachePage.index (by rfl) c⟩
  | unhash d htable hnr hmem hother hpc =>
    exact ⟨hother.mapping c, hother.index c⟩

/-- Only a page that has just been created enters the table. -/
theorem Turn.mem_table (h : Turn s t s') (hc : c ∈ s'.cache.table) :
    c ∈ s.cache.table ∨ (s.task t).pc.fresh = some c := by
  cases h with
  | same hsame hload => exact .inl (hsame.table ▸ hc)
  | create m index hcache hpc hpc' | full d hcache hpc
  | read d ret hcache hpc | destroy d hcache hone htable hpc =>
    rw [hcache] at hc
    exact .inl hc
  | duplicate d cached hcached hcache hpc =>
    rw [hcache, Cache.destroy] at hc
    have hc' : c ∈ (s.cache.hold cached).table := hc
    rw [Cache.hold, Cache.link_table] at hc'
    exact .inl hc'
  | insert d hcache hroom hfind hpc hpc' =>
    rw [hcache] at hc
    rcases List.mem_cons.mp hc with rfl | hc
    · exact .inr (by rw [hpc]; rfl)
    · exact .inl hc
  | evict d victim hcache hlru hfind hpc hpc' =>
    rw [hcache] at hc
    rcases List.mem_cons.mp hc with rfl | hc
    · exact .inr (by rw [hpc]; rfl)
    · exact .inl (List.mem_of_mem_erase hc)
  | unhash d htable hnr hmem hother hpc =>
    rw [htable] at hc
    exact .inl (List.mem_of_mem_erase hc)

/-- What a step leaves of a page that has been cached once. -/
theorem Established.step (hc : Established s c) (h : Inv s)
    (hstep : step hasMutex s (t, a) = some s') :
    Established s' c ∧ (s'.cache.page c).mapping = (s.cache.page c).mapping ∧
      (s'.cache.page c).index = (s.cache.page c).index ∧
      (c ∈ s'.cache.table → c ∈ s.cache.table) := by
  obtain ⟨hborn, hfresh⟩ := hc
  have hsteps := step_keeps h hstep
  have hturn := step_turn h hstep
  obtain ⟨lost, hkeeps, -⟩ := hsteps.cache
  obtain ⟨hmapping, hindex⟩ := hturn.identity hborn
  refine ⟨⟨hborn.trans_le hkeeps.next, fun u hu => ?_⟩, hmapping, hindex, fun hmem => ?_⟩
  · rcases eq_or_ne u t with rfl | hne
    · rcases step_fresh hstep hu with hold | hnew
      · exact hfresh u hold
      · exact hborn.ne hnew
    · rw [hsteps.task u hne] at hu
      exact hfresh u hu
  · exact (hturn.mem_table hmem).resolve_right (hfresh t)

/-! ### The barrier -/

namespace Hosted

variable {hasGet : ℕ → Bool} {x y : Hosted N} {m : ℕ} {b : Fin N × Call}

/-- Each step is a step of `mm/mapping.c` or leaves its state alone. -/
theorem step_cases (hstep : Hosted.step hasMutex hasGet x b = some y) :
    (∃ a, b.2 = .op a ∧ Mapping.step hasMutex x.s (b.1, a) = some y.s) ∨ y.s = x.s := by
  obtain ⟨t, call⟩ := b
  cases call with
  | op a =>
    simp only [Hosted.step] at hstep
    split_ifs at hstep
    obtain ⟨s', hs', rfl⟩ := Option.map_eq_some_iff.mp hstep
    exact .inl ⟨a, rfl, hs'⟩
  | release =>
    simp only [Hosted.step] at hstep
    split_ifs at hstep
    split at hstep
    · cases hstep
    · cases hstep
      exact .inr rfl

/-- A page of a mapping with a given index that has been cached once. -/
structure Known (hasGet : ℕ → Bool) (m index c : ℕ) (x : Hosted N) : Prop where
  inv : Inv hasGet x
  established : Established x.s c
  mapping : (x.s.cache.page c).mapping = m
  index : (x.s.cache.page c).index = index

variable {index : ℕ} {tr : List (Fin N × Call)}

section

variable (h : Known hasGet m index c x)
include h

theorem Known.step (hstep : Hosted.step hasMutex hasGet x b = some y) :
    Known hasGet m index c y ∧ (c ∈ y.s.cache.table → c ∈ x.s.cache.table) := by
  have hinv := h.inv.step hstep
  rcases step_cases hstep with ⟨a, -, hs⟩ | hs
  · obtain ⟨hest, hmapping, hindex, htable⟩ := h.established.step h.inv.base hs
    exact ⟨⟨hinv, hest, hmapping.trans h.mapping, hindex.trans h.index⟩, htable⟩
  · refine ⟨⟨hinv, ?_, ?_, ?_⟩, ?_⟩
    · rw [hs]
      exact h.established
    · rw [hs]
      exact h.mapping
    · rw [hs]
      exact h.index
    · rw [hs]
      exact id

theorem Known.run (hrun : Run (Graph (Hosted.step hasMutex hasGet)) x tr y) :
    Known hasGet m index c y ∧ (c ∈ y.s.cache.table → c ∈ x.s.cache.table) := by
  refine hrun.history (H := fun _ y => Known hasGet m index c y ∧
    (c ∈ y.s.cache.table → c ∈ x.s.cache.table)) ⟨h, id⟩ ?_
  rintro tr y b z ⟨hy, htable⟩ hstep
  obtain ⟨hz, htable'⟩ := hy.step hstep
  exact ⟨hz, htable ∘ htable'⟩

omit h in
/-- A page that is not hashed is not being written. -/
theorem Inv.not_writing_of_notMem (h : Inv hasGet x) (hc : c ∉ x.s.cache.table) (u : Fin N) :
    (x.s.task u).pc.writing ≠ some c := by
  intro hu
  refine hc ((h.base.page c).busy ?_)
  rw [h.writing u c hu]
  decide

/-- A purge returns when it finds no page of its range. -/
theorem notMem_of_select {first last : ℕ} (hfirst : first ≤ index) (hlast : index < last)
    (hpc : (x.s.task t).pc = .purgeSelect m first last)
    (hstep : Hosted.step hasMutex hasGet x (t, .op (.select none)) = some y) :
    c ∉ x.s.cache.table := by
  intro hc
  simp only [Hosted.step] at hstep
  split_ifs at hstep
  obtain ⟨s', hs', -⟩ := Option.map_eq_some_iff.mp hstep
  obtain ⟨pc, hselect, hmove⟩ := step_move hs'
  obtain rfl := hselect.symm.trans hpc
  cases hmove with
  | purgeReturn hnone =>
    refine hnone c hc ⟨hc, h.mapping, ?_, ?_⟩
    · rwa [h.index]
    · rw [h.index]
      exact hlast

/-- After the return of a purge, no page it has met is written. -/
theorem Known.not_writing {first last : ℕ} {z : Hosted N} (hfirst : first ≤ index)
    (hlast : index < last) (hpc : (x.s.task t).pc = .purgeSelect m first last)
    (hreturn : Hosted.step hasMutex hasGet x (t, .op (.select none)) = some y)
    (hrun : Run (Graph (Hosted.step hasMutex hasGet)) y tr z) (u : Fin N) :
    (z.s.task u).pc.writing ≠ some c := by
  obtain ⟨hy, htable⟩ := h.step hreturn
  obtain ⟨hz, htable'⟩ := hy.run hrun
  have hgone := notMem_of_select h hfirst hlast hpc hreturn
  exact hz.inv.not_writing_of_notMem (fun hc => hgone (htable (htable' hc))) u

end

/-! ### The law -/

/-- The step of task `t` calls `write_page` on the page. -/
def StartsWrite (x y : Hosted N) (t : Fin N) (c : ℕ) : Prop :=
  ∃ k, (x.s.task t).pc = .wbTest c k ∧ (y.s.task t).pc = .wbWrite c k

/-- The step of task `t` removes the page in `mapping_purge`. -/
def RemovesPage (x : Hosted N) (t : Fin N) (call : Call) (c : ℕ) : Prop :=
  call = .op (.remove c) ∧ ∃ m first last, (x.s.task t).pc = .purgeRemove c m first last

/-- What holds in a state about purges, dirty pages and the references to hosts. -/
structure PurgeLaw (hasMutex hasGet : ℕ → Bool) (x : Hosted N) : Prop where
  /-- A purge of `[first, last)` starts here and has returned in `x₄`: no page it was
  about is under `write_page` then or later. -/
  barrier : ∀ t m first last c x₂ tr x₃ x₄ tr' x₅, Purges x.s m first last c →
    Hosted.step hasMutex hasGet x (t, .op (.purge m first last)) = some x₂ →
    Run (Graph (Hosted.step hasMutex hasGet)) x₂ tr x₃ →
    (x₃.s.task t).pc = .purgeSelect m first last →
    Hosted.step hasMutex hasGet x₃ (t, .op (.select none)) = some x₄ →
    Run (Graph (Hosted.step hasMutex hasGet)) x₄ tr' x₅ →
    ∀ u, (x₅.s.task u).pc.writing ≠ some c
  /-- A page stops to be dirty when it is written or purged. -/
  dirty : ∀ y t call c, Hosted.step hasMutex hasGet x (t, call) = some y →
    (x.s.cache.page c).state.dirty = true → (y.s.cache.page c).state.dirty = false →
    StartsWrite x y t c ∨ RemovesPage x t call c
  /-- The references to the host of `m`. -/
  balance : ∀ m, hasGet m = true → x.gets m = x.puts m + (x.s.busy m).card + x.pending m
  /-- `ext2_alloc_branch` purges the block it has allocated from the metadata mapping: a
  page cached for the block before is not written after. -/
  block : ∀ t m blk c tr x₃ x₄ tr' x₅, c ∈ x.s.cache.table → (x.s.cache.page c).mapping = m →
    (x.s.cache.page c).index = blk →
    Run (Graph (Hosted.step hasMutex hasGet)) x tr x₃ →
    (x₃.s.task t).pc = .purgeSelect m blk (blk + 1) →
    Hosted.step hasMutex hasGet x₃ (t, .op (.select none)) = some x₄ →
    Run (Graph (Hosted.step hasMutex hasGet)) x₄ tr' x₅ →
    ∀ u, (x₅.s.task u).pc.writing ≠ some c

theorem Inv.known_of_mem (h : Inv hasGet x) (hc : c ∈ x.s.cache.table) :
    Known hasGet (x.s.cache.page c).mapping (x.s.cache.page c).index c x :=
  ⟨h, h.base.established_of_mem hc, rfl, rfl⟩

/-- How a page stops to be dirty. -/
theorem Inv.dirty_cleared {call : Call} (h : Inv hasGet x)
    (hstep : Hosted.step hasMutex hasGet x (t, call) = some y)
    (hdirty : (x.s.cache.page c).state.dirty = true)
    (hclean : (y.s.cache.page c).state.dirty = false) :
    StartsWrite x y t c ∨ RemovesPage x t call c := by
  rcases step_cases hstep with ⟨a, hcall, hs⟩ | hs
  · -- in every other case the page keeps its state
    have hkeep : (y.s.cache.page c).state ≠ (x.s.cache.page c).state := by
      intro heq
      rw [heq, hdirty] at hclean
      cases hclean
    cases step_mark h.base hs with
    | quiet hstate hhosts hwriting hvictim => exact absurd (hstate c) hkeep
    | dirty d ha hmem hholder hself hother hpc hpc' =>
      obtain rfl : c = d := by_contra fun hne => hkeep (hother c hne)
      rw [hself] at hclean
      cases hclean
    | begin d k hdirty hself hother hmap hpc hpc' =>
      obtain rfl : c = d := by_contra fun hne => hkeep (hother c hne)
      exact .inl ⟨k, hpc, hpc'⟩
    | finish d ret k ha hself hother hmap hpc hpc' =>
      obtain rfl : c = d := by_contra fun hne => hkeep (hother c hne)
      rw [h.writing t c (by rw [hpc]; rfl)] at hdirty
      cases hdirty
    | purge v m first last ha hwriteback hself hother hpc hpc' =>
      obtain rfl : c = v := by_contra fun hne => hkeep (hother c hne)
      refine .inr ⟨?_, m, first, last, hpc⟩
      rwa [← ha]
  · rw [hs, hdirty] at hclean
    cases hclean

theorem Inv.purgeLaw (h : Inv hasGet x) : PurgeLaw hasMutex hasGet x where
  barrier := by
    intro t m first last c x₂ tr x₃ x₄ tr' x₅ hpurges hstart hrun hpc hreturn hrun' u
    obtain ⟨hmem, rfl, hfirst, hlast⟩ := hpurges
    obtain ⟨h₂, -⟩ := (h.known_of_mem hmem).step hstart
    obtain ⟨h₃, -⟩ := h₂.run hrun
    exact h₃.not_writing hfirst hlast hpc hreturn hrun' u
  dirty y t call c hstep := h.dirty_cleared hstep
  balance := h.balance
  block := by
    intro t m blk c tr x₃ x₄ tr' x₅ hmem hmapping hindex hrun hpc hreturn hrun' u
    subst hmapping hindex
    obtain ⟨h₃, -⟩ := (h.known_of_mem hmem).run hrun
    exact h₃.not_writing le_rfl (Nat.lt_succ_self _) hpc hreturn hrun' u

end Hosted

/-- **The barrier of a purge and the references to hosts.** In every state that any number
of tasks reach: a purge that starts there ends all writing of the pages it is about, a
page stops to be dirty only when it is written or purged, and the references to a host
are those for busy pages and those still to be released. -/
theorem purgeLaw_of_reachable {hasGet : ℕ → Bool} {x : Hosted N}
    (hx : Reachable (· = Hosted.start N) (Graph (Hosted.step hasMutex hasGet)) x) :
    Hosted.PurgeLaw hasMutex hasGet x := by
  have hinit : ∀ x : Hosted N, x = Hosted.start N → Hosted.Inv hasGet x := by
    rintro x rfl
    exact Hosted.inv_start
  exact (hx.invariant hinit fun x b y hinv hstep => hinv.step hstep).purgeLaw

/-- Task `0` dirties page `0`, and the flusher, task `1`, collects it. -/
def collectedPage : List (Fin 2 × Call) :=
  (dirtyPage 2 0).map (Prod.map id .op) ++ [(1, .op .flusher), (1, .op .run)]

/-- Task `0` purges the page and releases its host. -/
def purgeCollected : List (Fin 2 × Call) :=
  [(0, .op (.select (some 0))), (0, .op .run), (0, .op (.remove 0)), (0, .op .run), (0, .op .run),
    (0, .release)]

/-- The flusher still has the purged page in hand, and a reference to its host; it will
not write the page. -/
theorem purgeLaw_collectedPage : ∃ x x₂ x₃ x₄ : Hosted 2, Purges x.s 0 0 1 0 ∧
    Hosted.step noMutex (fun _ => true) x (0, .op (.purge 0 0 1)) = some x₂ ∧
    exec (Hosted.step noMutex fun _ => true) x₂ purgeCollected = some x₃ ∧
    Hosted.step noMutex (fun _ => true) x₃ (0, .op (.select none)) = some x₄ ∧
    Hosted.PurgeLaw noMutex (fun _ => true) x ∧ Hosted.PurgeLaw noMutex (fun _ => true) x₄ ∧
    x₄.gets 0 = 2 ∧ x₄.puts 0 = 1 ∧ (x₄.s.busy 0).card = 0 ∧ x₄.pending 0 = 1 := by
  have hexec : ((exec (Hosted.step noMutex fun _ => true) (Hosted.start 2) collectedPage).bind
      fun x => if Purges x.s 0 0 1 0 then
        (Hosted.step noMutex (fun _ => true) x (0, .op (.purge 0 0 1))).bind fun x₂ =>
          (exec (Hosted.step noMutex fun _ => true) x₂ purgeCollected).bind fun x₃ =>
            (Hosted.step noMutex (fun _ => true) x₃ (0, .op (.select none))).map fun x₄ =>
              decide (x₄.gets 0 = 2 ∧ x₄.puts 0 = 1 ∧ (x₄.s.busy 0).card = 0 ∧ x₄.pending 0 = 1)
        else none) = some true := by decide +kernel
  obtain ⟨x, hx, h⟩ := Option.bind_eq_some_iff.mp hexec
  split_ifs at h with hpurges
  obtain ⟨x₂, h₂, h⟩ := Option.bind_eq_some_iff.mp h
  obtain ⟨x₃, h₃, h⟩ := Option.bind_eq_some_iff.mp h
  obtain ⟨x₄, h₄, h⟩ := Option.map_eq_some_iff.mp h
  have hreach : Reachable (· = Hosted.start 2) (Graph (Hosted.step noMutex fun _ => true)) x :=
    Reachable.exec (.init rfl) hx
  have hreach₄ : Reachable (· = Hosted.start 2) (Graph (Hosted.step noMutex fun _ => true)) x₄ :=
    .step (Reachable.exec (.step hreach h₂) h₃) h₄
  exact ⟨x, x₂, x₃, x₄, hpurges, h₂, h₃, h₄, purgeLaw_of_reachable hreach,
    purgeLaw_of_reachable hreach₄, of_decide_eq_true h⟩

end Nuvix.Mapping
