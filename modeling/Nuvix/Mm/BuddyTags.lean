import Nuvix.Mm.BuddyPartition

/-!
# Flags on allocated blocks

The slab allocator sets flags of its own on the heads of blocks it has got, and clears them
before it gives a block back. `alloc_pages` and `free_pages` neither set nor clear them, and read
them only where `allocated_block` compares all flags at once. So the allocator works as if they
were not there, as long as nobody frees a block that has one.
-/

namespace Nuvix.Buddy

variable {m : Mem} {s : State} {g : ℕ → Bool × Bool} {p k : ℕ} {order : ℤ} {page : ℕ}

/-- The flags with `PG_SLAB` and `PG_KMALLOC` as given. -/
def tagFlags (flags : PageFlags) (g : Bool × Bool) : PageFlags :=
  { flags with slab := g.1, kmalloc := g.2 }

/-- The state with `PG_SLAB` and `PG_KMALLOC` as given. -/
def State.tag (s : State) (g : ℕ → Bool × Bool) : State where
  page p := { s.page p with flags := tagFlags (s.page p).flags (g p) }
  freeArea := s.freeArea
  managed := s.managed

/-- `PG_SLAB` and `PG_KMALLOC` of every page. -/
def State.tags (s : State) : ℕ → Bool × Bool :=
  fun p => ((s.page p).flags.slab, (s.page p).flags.kmalloc)

/-- The state without the two flags. -/
def State.untagged (s : State) : State := s.tag fun _ => (false, false)

theorem tag_tags : s.tag s.tags = s := rfl

theorem untagged_tag : (s.tag g).untagged = s.untagged := rfl

/-! ### What the allocator does -/

theorem setPage_tag (pg : Page) :
    (s.tag g).setPage p { pg with flags := tagFlags pg.flags (g p) } = (s.setPage p pg).tag g := by
  refine State.mk.injEq .. ▸ ⟨funext fun q => ?_, rfl, rfl⟩
  by_cases hq : q = p
  · subst hq
    simp [State.setPage, State.tag]
  · simp [State.setPage, State.tag, hq]

theorem addBlock_tag : addBlock (s.tag g) p k = (addBlock s p k).tag g := by
  have hpage := setPage_tag (s := s) (g := g) (p := p)
    ⟨{ (s.page p).flags with buddy := true }, (s.page p).refcount, k⟩
  exact congrArg (fun t => State.setArea t k _) hpage

theorem delBlock_tag : delBlock (s.tag g) p = (delBlock s p).tag g :=
  setPage_tag (s := s.setArea _ _)
    ⟨{ (s.page p).flags with buddy := false }, (s.page p).refcount, pageOrderNone⟩

theorem mergeLoop_tag (turns : ℕ) :
    mergeLoop m turns (s.tag g) p k = (mergeLoop m turns s p k).tag g := by
  induction turns generalizing s p k with
  | zero => exact addBlock_tag
  | succ turns ih =>
    have hbuddy : ((s.tag g).page (Dyadic.buddy p k)).flags.buddy =
        (s.page (Dyadic.buddy p k)).flags.buddy := rfl
    have horder : ((s.tag g).page (Dyadic.buddy p k)).order =
        (s.page (Dyadic.buddy p k)).order := rfl
    simp only [mergeLoop, hbuddy, horder, delBlock_tag, ih, addBlock_tag]
    split <;> rfl

theorem splitBlock_tag (order : ℕ) :
    splitBlock (s.tag g) p k order = (splitBlock s p k order).tag g := by
  induction order generalizing s with
  | zero => rfl
  | succ order ih =>
    rw [splitBlock, splitBlock]
    split
    · rw [addBlock_tag, ih]
    · rfl

theorem firstBlock_tag (turns : ℕ) : firstBlock (s.tag g) turns k = firstBlock s turns k := by
  induction turns generalizing k with
  | zero => rfl
  | succ turns ih =>
    have harea : (s.tag g).freeArea = s.freeArea := rfl
    rw [firstBlock, firstBlock, harea]
    cases (s.freeArea k).list with
    | nil => exact ih
    | cons pfn pfns => rfl

theorem markAllocated_tag : markAllocated (s.tag g) p k = (markAllocated s p k).tag g :=
  setPage_tag ⟨{ (s.page p).flags with allocated := true }, 1, k⟩

/-- `alloc_pages` does not see the flags. -/
theorem allocPages_tag (order : ℤ) :
    allocPages m (s.tag g) order = ((allocPages m s order).1.tag g, (allocPages m s order).2) := by
  unfold allocPages
  split
  · rfl
  · dsimp only
    rw [firstBlock_tag]
    split
    · rfl
    · rw [delBlock_tag, splitBlock_tag, markAllocated_tag]

theorem getPage_tag : getPage m (s.tag g) p = (getPage m s p).tag g := by
  unfold getPage
  split
  · exact setPage_tag ⟨(s.page p).flags, refcountInc (s.page p).refcount, (s.page p).order⟩
  · rfl

/-- `free_pages` does not see the flags either, if the block has none. -/
theorem freePages_tag (h : allocatedBlock m (s.tag g) page order = allocatedBlock m s page order) :
    freePages m (s.tag g) page order = (freePages m s page order).tag g := by
  have hrefs : ∀ q, ((s.tag g).page q).refcount = (s.page q).refcount := fun _ => rfl
  unfold freePages
  rw [h]
  split
  · rfl
  · split
    · rfl
    · simp only [hrefs]
      generalize m.pageToPfn page = q
      generalize refcountDecAndTest (s.page q).refcount = dec
      split
      · have hset := setPage_tag (s := s) (g := g) (p := q)
          ⟨{ (s.page q).flags with allocated := false }, dec.1, pageOrderNone⟩
        exact (congrArg (fun t => mergeBlock m t q order.toNat) hset).trans (mergeLoop_tag _)
      · exact setPage_tag ⟨(s.page q).flags, dec.1, (s.page q).order⟩

/-- Only the flags of the block are compared. -/
theorem allocatedBlock_congr {s' : State}
    (h : ∀ q ∈ Dyadic.block (m.pageToPfn page) order.toNat, s'.page q = s.page q) :
    allocatedBlock m s' page order = allocatedBlock m s page order := by
  have hinner : ∀ i ∈ List.range (1 <<< order.toNat),
      s'.page (m.pageToPfn page + i) = s.page (m.pageToPfn page + i) := fun i hi => by
    rw [List.mem_range, Nat.one_shiftLeft] at hi
    exact h _ ⟨Nat.le_add_right _ _, by omega⟩
  have hall : ((List.range (1 <<< order.toNat)).all fun i =>
      i == 0 || ((s'.page (m.pageToPfn page + i)).flags == {} &&
        (s'.page (m.pageToPfn page + i)).order == pageOrderNone &&
        (s'.page (m.pageToPfn page + i)).refcount == 0)) =
      (List.range (1 <<< order.toNat)).all fun i =>
        i == 0 || ((s.page (m.pageToPfn page + i)).flags == {} &&
          (s.page (m.pageToPfn page + i)).order == pageOrderNone &&
          (s.page (m.pageToPfn page + i)).refcount == 0) := by
    rw [Bool.eq_iff_iff, List.all_eq_true, List.all_eq_true]
    exact forall₂_congr fun i hi => by rw [hinner i hi]
  unfold allocatedBlock
  dsimp only
  rw [h _ Dyadic.self_mem_block, hall]

/-- Setting the flags of one page. -/
theorem setPage_tagFlags (g : Bool × Bool) :
    s.setPage p { s.page p with flags := tagFlags (s.page p).flags g } =
      s.tag (Function.update s.tags p g) := by
  refine State.mk.injEq .. ▸ ⟨funext fun q => ?_, rfl, rfl⟩
  by_cases hq : q = p
  · subst hq
    simp
  · simp [State.tags, tagFlags, hq]

/-! ### After `buddy_init` -/

/-- Nothing is allocated, and no page has one of the flags. -/
def Fresh (s : State) : Prop :=
  ∀ p, (s.page p).flags.allocated = false ∧ s.tags p = (false, false)

theorem fresh_buddyInit (m : Mem) (mb : Memblock) : Fresh (buddyInit m mb) := by
  have hstable : Stable fun pg => pg.flags.allocated = false ∧
      (pg.flags.slab, pg.flags.kmalloc) = (false, false) :=
    ⟨fun _ _ => id, fun _ => id⟩
  exact fun _ => hstable.finishInit mb.reserved _ ⟨rfl, rfl⟩

/-- Dropping flags that no page has changes nothing. -/
theorem Fresh.untagged (h : Fresh s) : s.untagged = s := by
  have htags : s.tags = fun _ => (false, false) := funext fun q => (h q).2
  calc s.untagged = s.tag s.tags := by rw [htags]; rfl
    _ = s := tag_tags

end Nuvix.Buddy
