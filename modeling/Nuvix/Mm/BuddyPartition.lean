import Nuvix.Mm.BuddyInvariant

/-!
# What the buddy allocator guarantees

Every reachable state partitions the managed range into reserved pages, free
blocks and live blocks, and an allocation never overlaps a live block. Seen from
its clients the allocator is a map from heads to orders and reference counts
(`liveBlocks`), and each call changes that map at one head only.
-/

namespace Nuvix.Buddy

open Dyadic Transition Function

variable {m : Mem} {s s' : State} {p q k j n x : ℕ} {H : Set ℕ} {order : ℤ} {r : Memblock.Region}
  {start : ℕ}

/-! ### Blocks and owners -/

/-- The descriptor of `p` shows a free block of order `k`. -/
def FreeBlock (m : Mem) (s : State) (p k : ℕ) : Prop :=
  m.PfnValid p ∧ (s.page p).flags.buddy = true ∧ (s.page p).order = k

/-- The descriptor of `p` shows an allocated block of order `k`. -/
def LiveBlock (m : Mem) (s : State) (p k : ℕ) : Prop :=
  m.PfnValid p ∧ (s.page p).flags.allocated = true ∧ (s.page p).order = k

instance : Decidable (FreeBlock m s p k) := inferInstanceAs (Decidable (_ ∧ _))

instance : Decidable (LiveBlock m s p k) := inferInstanceAs (Decidable (_ ∧ _))

/-- What a page belongs to. -/
inductive Owner
  | reserved
  | free (head order : ℕ)
  | live (head order : ℕ)

/-- The owner holds the page `p`. -/
def Owner.Holds (m : Mem) (s : State) (p : ℕ) : Owner → Prop
  | .reserved => (s.page p).flags.reserved = true
  | .free q k => FreeBlock m s q k ∧ p ∈ block q k
  | .live q k => LiveBlock m s q k ∧ p ∈ block q k

/-- The invariant in the terms of pages and blocks. -/
structure Partitioned (m : Mem) (s : State) : Prop where
  partition : ∀ p, m.PfnValid p → ∃! o : Owner, o.Holds m s p
  free_fits : ∀ p k, FreeBlock m s p k →
    k < m.maxOrder ∧ 2 ^ k ∣ p ∧ m.minPfn ≤ p ∧ p + 2 ^ k ≤ m.maxPfn
  live_fits : ∀ p k, LiveBlock m s p k →
    k < m.maxOrder ∧ 2 ^ k ∣ p ∧ m.minPfn ≤ p ∧ p + 2 ^ k ≤ m.maxPfn
  listed : ∀ p k, (s.freeArea k).list.count p = if FreeBlock m s p k then 1 else 0
  nr_free : ∀ k, (s.freeArea k).nrFree = (s.freeArea k).list.length
  interior : ∀ p k, FreeBlock m s p k ∨ LiveBlock m s p k → ∀ q ∈ block p k, q ≠ p →
    (s.page q).flags = {} ∧ (s.page q).order = pageOrderNone ∧ (s.page q).refcount = 0
  coalesced : ∀ p k, k + 1 < m.maxOrder → FreeBlock m s p k → ¬ FreeBlock m s (p ^^^ 2 ^ k) k

theorem freeBlock_iff (h : Wf m s H) : FreeBlock m s p k ↔ p ∈ (s.freeArea k).list :=
  h.mem_iff_flags.symm

theorem FreeBlock.head (hfree : FreeBlock m s p k) (h : Wf m s H) : Head m (s.page p) k :=
  (h.of_mem ((freeBlock_iff h).mp hfree)).2.1

theorem liveBlock_iff (h : Wf m s H) : LiveBlock m s p k ↔
    m.PfnValid p ∧ k < m.maxOrder ∧ ∃ n, 0 < n ∧ s.page p = livePage k n := by
  constructor
  · rintro ⟨hp, hflag, rfl⟩
    refine ⟨hp, ?_⟩
    rcases h.tiled.kinds hp with heq | heq | ⟨j, -, heq⟩ | ⟨j, n, hj, hn, heq⟩
    · rw [heq] at hflag
      cases hflag
    · rw [heq] at hflag
      cases hflag
    · rw [heq] at hflag
      cases hflag
    · rw [heq]
      exact ⟨hj, n, hn, rfl⟩
  · rintro ⟨hp, -, n, -, heq⟩
    rw [LiveBlock, heq]
    exact ⟨hp, rfl, rfl⟩

theorem LiveBlock.head (hlive : LiveBlock m s p k) (h : Wf m s H) : Head m (s.page p) k := by
  obtain ⟨-, hk, n, hn, heq⟩ := (liveBlock_iff h).mp hlive
  rw [heq]
  exact head_live hk hn

theorem not_liveBlock_of_freeBlock (h : Wf m s H) (hfree : FreeBlock m s p k) :
    ¬ LiveBlock m s p j := by
  intro hlive
  obtain ⟨-, -, n, -, heq⟩ := (liveBlock_iff h).mp hlive
  have hflag := hfree.2.1
  rw [heq] at hflag
  cases hflag

/-- A page inside a block is not reserved. -/
theorem Wf.reserved_eq_false_of_mem (h : Wf m s H) (hq : m.PfnValid q) (hk : Head m (s.page q) k)
    (hp : p ∈ block q k) : (s.page p).flags.reserved = false := by
  rcases eq_or_ne p q with rfl | hne
  · rcases hk with ⟨-, heq | ⟨n, -, heq⟩⟩
    · rw [heq]
      rfl
    · rw [heq]
      rfl
  · rw [(h.tiled.interior q k hq hk p hp hne).1]
    rfl

/-- Every page of the range has exactly one owner. -/
theorem Wf.existsUnique_owner (h : Wf m s ∅) (hp : m.PfnValid p) :
    ∃! o : Owner, o.Holds m s p := by
  rcases h.tiled.cover p hp with hhole | hinit | ⟨q, k, hq, hk, hmem⟩
  · exact absurd hhole (Set.notMem_empty p)
  · -- a reserved page is in no block
    have hres : (s.page p).flags.reserved = true := by rw [hinit]; rfl
    refine ⟨.reserved, hres, fun o ho => ?_⟩
    cases o with
    | reserved => rfl
    | free q k | live q k =>
      have := h.reserved_eq_false_of_mem ho.1.1 (ho.1.head h) ho.2
      rw [hres] at this
      cases this
  · have hres := h.reserved_eq_false_of_mem hq hk hmem
    -- any other block with this page has the same head, hence the same order
    have hsame : ∀ r j, m.PfnValid r → Head m (s.page r) j → p ∈ block r j → r = q ∧ j = k := by
      intro r j hr hj hin
      obtain rfl := h.tiled.head_unique hr hj hq hk hin hmem
      exact ⟨rfl, hj.order_eq.symm.trans hk.order_eq⟩
    rcases hk.2 with hfree | ⟨n, hn, hlive⟩
    · have hblock : FreeBlock m s q k := by rw [FreeBlock, hfree]; exact ⟨hq, rfl, rfl⟩
      refine ⟨.free q k, ⟨hblock, hmem⟩, fun o ho => ?_⟩
      cases o with
      | reserved => exact absurd (hres.symm.trans ho) Bool.false_ne_true
      | free r j =>
        obtain ⟨rfl, rfl⟩ := hsame r j ho.1.1 (ho.1.head h) ho.2
        rfl
      | live r j =>
        obtain ⟨rfl, rfl⟩ := hsame r j ho.1.1 (ho.1.head h) ho.2
        exact absurd ho.1 (not_liveBlock_of_freeBlock h hblock)
    · have hblock : LiveBlock m s q k := (liveBlock_iff h).mpr ⟨hq, hk.1, n, hn, hlive⟩
      refine ⟨.live q k, ⟨hblock, hmem⟩, fun o ho => ?_⟩
      cases o with
      | reserved => exact absurd (hres.symm.trans ho) Bool.false_ne_true
      | free r j =>
        obtain ⟨rfl, rfl⟩ := hsame r j ho.1.1 (ho.1.head h) ho.2
        exact absurd hblock (not_liveBlock_of_freeBlock h ho.1)
      | live r j =>
        obtain ⟨rfl, rfl⟩ := hsame r j ho.1.1 (ho.1.head h) ho.2
        rfl

theorem Wf.fits (h : Wf m s H) (hp : m.PfnValid p) (hk : Head m (s.page p) k) :
    k < m.maxOrder ∧ 2 ^ k ∣ p ∧ m.minPfn ≤ p ∧ p + 2 ^ k ≤ m.maxPfn :=
  ⟨hk.1, (h.tiled.fits p k hp hk).1, hp.1, (h.tiled.fits p k hp hk).2⟩

/-- Between calls the internal invariant gives the partition. -/
theorem Wf.partitioned (h : Wf m s ∅) : Partitioned m s where
  partition p hp := h.existsUnique_owner hp
  free_fits p k hfree := h.fits hfree.1 (hfree.head h)
  live_fits p k hlive := h.fits hlive.1 (hlive.head h)
  listed p k := by
    split_ifs with hfree
    · exact List.count_eq_one_of_mem (h.listed.nodup k) ((freeBlock_iff h).mp hfree)
    · exact List.count_eq_zero_of_not_mem fun hmem => hfree ((freeBlock_iff h).mpr hmem)
  nr_free k := h.listed.count k
  interior p k hblock q hq hne := by
    have hhead : m.PfnValid p ∧ Head m (s.page p) k := by
      rcases hblock with hfree | hlive
      · exact ⟨hfree.1, hfree.head h⟩
      · exact ⟨hlive.1, hlive.head h⟩
    rw [(h.tiled.interior p k hhead.1 hhead.2 q hq hne).1]
    exact ⟨rfl, rfl, rfl⟩
  coalesced p k hk hfree hbuddy := by
    rw [freeBlock_iff h] at hfree hbuddy
    refine h.coalesced k p hk hfree ?_
    rwa [buddy, Nat.one_shiftLeft]

/-! ### The contract of `alloc_pages` -/

/-- The block returned is cut from the front of a free block, so no live block
meets it. -/
theorem Wf.disjoint_of_alloc (h : Wf m s ∅) (halloc : Buddy.allocPages m s order = (s', some p))
    (hlive : LiveBlock m s q k) : Disjoint (block p order.toNat) (block q k) := by
  rcases allocPages_cases m s order with ⟨heq, -⟩ | ⟨p', j, -, hle, -, hmem, heq⟩
  · rw [heq] at halloc
    cases halloc
  · obtain ⟨-, rfl⟩ : _ ∧ p' = p := by
      rw [heq] at halloc
      exact ⟨congrArg Prod.fst halloc, Option.some.inj (congrArg Prod.snd halloc)⟩
    obtain ⟨hp, hhead, -⟩ := h.of_mem hmem
    refine Set.disjoint_left.mpr fun x hxp hxq => ?_
    have hx : x ∈ block p' j :=
      ⟨hxp.1, hxp.2.trans_le (Nat.add_le_add_left (Nat.pow_le_pow_right two_pos hle) p')⟩
    obtain rfl := h.tiled.head_unique hp hhead hlive.1 (hlive.head h) hx hxq
    exact not_liveBlock_of_freeBlock h ((freeBlock_iff h).mpr hmem) hlive

/-- A valid request fails only when no free block is large enough. -/
theorem Wf.not_freeBlock_of_alloc_eq_none (h : Wf m s ∅) (h0 : 0 ≤ order)
    (hlt : order < m.maxOrder) (hnull : (Buddy.allocPages m s order).2 = none)
    (hle : order.toNat ≤ k) : ¬ FreeBlock m s p k := by
  intro hfree
  have hk := (hfree.head h).1
  rw [freeBlock_iff h] at hfree
  rcases allocPages_cases m s order with ⟨-, hempty⟩ | ⟨p', j, -, -, -, -, heq⟩
  · rw [hempty h0 hlt k hle hk] at hfree
    exact List.not_mem_nil hfree
  · rw [heq] at hnull
    cases hnull

/-! ### The allocator as its clients see it -/

/-- The live blocks: the order and the number of references of each head. -/
abbrev Heap := ℕ → Option (ℕ × ℕ)

/-- The live blocks of a state. -/
def liveBlocks (m : Mem) (s : State) : Heap := fun p =>
  if m.PfnValid p ∧ (s.page p).flags.allocated = true then
    some ((s.page p).order, (s.page p).refcount)
  else none

/-- The address of a descriptor. -/
def pageAddr (m : Mem) (p : ℕ) : ℕ := m.memMap + (p - m.minPfn) * sizeofPage

/-- A `free_pages` call that names a live block. -/
def Frees (m : Mem) (live : Heap) (addr : ℕ) (order : ℤ) (p k n : ℕ) : Prop :=
  addr ≠ 0 ∧ m.PfnValid p ∧ addr = pageAddr m p ∧ order = k ∧ live p = some (k, n)

/-- The block a call returns. -/
def result (m : Mem) (s : State) : Event → Option ℕ
  | .alloc order => (allocPages m s order).2
  | .free _ _ | .get _ => none

/-- What a call may return and do to the live blocks: an allocation adds the block it
returns, which meets no live one, a free of a live block drops one of its references,
and the block with the last, any other free does nothing. -/
inductive HeapStep (m : Mem) (live : Heap) : Event → Option ℕ → Heap → Prop
  | allocNull (order : ℤ) : HeapStep m live (.alloc order) none live
  | alloc {order p : ℕ} (hp : m.PfnValid p) (hfits : p + 2 ^ order ≤ m.maxPfn)
      (hdvd : 2 ^ order ∣ p)
      (hfresh : ∀ q k n, live q = some (k, n) → Disjoint (block p order) (block q k)) :
      HeapStep m live (.alloc order) (some p) (update live p (some (order, 1)))
  | free {addr p k n : ℕ} {order : ℤ} (hfrees : Frees m live addr order p k (n + 1)) :
      HeapStep m live (.free addr order) none
        (update live p (if n = 0 then none else some (k, n)))
  | freeReject {addr : ℕ} {order : ℤ} (hreject : ∀ p k n, ¬ Frees m live addr order p k n) :
      HeapStep m live (.free addr order) none live
  | get {p k n : ℕ} (hlive : live p = some (k, n)) :
      HeapStep m live (.get p) none (update live p (some (k, refcountInc n)))
  | getDead {p : ℕ} (hdead : live p = none) : HeapStep m live (.get p) none live

theorem liveBlocks_eq_some (h : Wf m s H) : liveBlocks m s p = some (k, n) ↔
    m.PfnValid p ∧ k < m.maxOrder ∧ 0 < n ∧ s.page p = livePage k n := by
  unfold liveBlocks
  constructor
  · intro hlive
    split_ifs at hlive with hcond
    obtain ⟨hp, hk, n', hn, heq⟩ := (liveBlock_iff h).mp ⟨hcond.1, hcond.2, rfl⟩
    rw [heq] at hlive hk
    cases hlive
    exact ⟨hp, hk, hn, heq⟩
  · rintro ⟨hp, -, -, heq⟩
    rw [heq, if_pos ⟨hp, rfl⟩]
    rfl

/-- A write that gives a page its new descriptor gives its head the new entry. -/
theorem liveBlocks_setPage (hp : m.PfnValid p) (pg : Page) :
    liveBlocks m (s.setPage p pg) = update (liveBlocks m s) p
      (if pg.flags.allocated = true then some (pg.order, pg.refcount) else none) := by
  funext q
  rcases eq_or_ne q p with rfl | hne
  · simp [liveBlocks, State.setPage, hp]
  · simp [liveBlocks, State.setPage, hne]

theorem liveBlocks_setPage_dead {pg : Page} (hold : (s.page p).flags.allocated = false)
    (hnew : pg.flags.allocated = false) : liveBlocks m (s.setPage p pg) = liveBlocks m s := by
  funext q
  rcases eq_or_ne q p with rfl | hne
  · simp [liveBlocks, State.setPage, hold, hnew]
  · simp [liveBlocks, State.setPage, hne]

theorem liveBlocks_addBlock (h : s.page p = cleanPage) :
    liveBlocks m (addBlock s p k) = liveBlocks m s :=
  liveBlocks_setPage_dead (by rw [h]; rfl) (by rw [h]; rfl)

theorem liveBlocks_delBlock (h : s.page p = freePage k) :
    liveBlocks m (delBlock s p) = liveBlocks m s := by
  have hpage : (delBlock s p).page = (s.setPage p cleanPage).page := delBlock_page h
  calc liveBlocks m (delBlock s p) = liveBlocks m (s.setPage p cleanPage) := by
        unfold liveBlocks
        rw [hpage]
    _ = liveBlocks m s := liveBlocks_setPage_dead (by rw [h]; rfl) rfl

theorem Wf.liveBlocks_mergeLoop {turns : ℕ} (h : Wf m s (block p k)) (hdvd : 2 ^ k ∣ p) :
    liveBlocks m (Buddy.mergeLoop m turns s p k) = liveBlocks m s := by
  induction turns generalizing s p k with
  | zero => exact liveBlocks_addBlock (h.tiled.hole p self_mem_block).2
  | succ turns ih =>
    unfold Buddy.mergeLoop
    dsimp only
    split_ifs with hstop
    · exact liveBlocks_addBlock (h.tiled.hole p self_mem_block).2
    · push Not at hstop
      have hmem : buddy p k ∈ (s.freeArea k).list :=
        h.mem_iff_flags.mpr ⟨hstop.1, by simpa using hstop.2.1, hstop.2.2⟩
      have hdel := h.delBlock hmem
      rw [block_union_buddy hdvd] at hdel
      rw [ih hdel (dvd_min_buddy hdvd), liveBlocks_delBlock (h.of_mem hmem).2.2]

theorem Wf.liveBlocks_splitBlock (h : Wf m s (block p k)) (hdvd : 2 ^ k ∣ p)
    (hk : k < m.maxOrder) : liveBlocks m (Buddy.splitBlock s p j k) = liveBlocks m s := by
  induction k generalizing s with
  | zero => rfl
  | succ k ih =>
    unfold Buddy.splitBlock
    split_ifs with hlt
    · -- one turn is itself a split down to order `k`
      have hone := h.splitBlock hdvd hk k.le_succ
      have hturn : Buddy.splitBlock s p k (k + 1) = Buddy.addBlock s (p + 1 <<< k) k := by
        cases k <;> simp [Buddy.splitBlock]
      rw [hturn] at hone
      rw [ih hone ((pow_dvd_pow 2 k.le_succ).trans hdvd) (by omega)]
      refine liveBlocks_addBlock (h.tiled.hole _ ?_).2
      have hpos := Nat.two_pow_pos k
      rw [Nat.one_shiftLeft, mem_block, pow_succ]
      omega
    · rfl

theorem pageToPfn_pageAddr (hp : m.PfnValid p) : m.pageToPfn (pageAddr m p) = p := by
  have hdiv : (pageAddr m p - m.memMap) / sizeofPage = p - m.minPfn := by
    rw [pageAddr, Nat.add_sub_cancel_left]
    exact Nat.mul_div_cancel _ (by decide)
  have := hp.1
  rw [Mem.pageToPfn, hdiv]
  omega

/-- The checks of `allocated_block` accept exactly the head and the order of a
live block. -/
theorem Wf.allocatedBlock_iff {addr : ℕ} (h : Wf m s ∅) :
    allocatedBlock m s addr order = true ↔ ∃ p k n : ℕ, m.PfnValid p ∧ addr = pageAddr m p ∧
      order = (k : ℤ) ∧ liveBlocks m s p = some (k, n) := by
  constructor
  · intro hok
    obtain ⟨n, hn, hk, hp, hpage⟩ := h.of_allocatedBlock hok
    refine ⟨m.pageToPfn addr, order.toNat, n, hp, ?_, ?_,
      (liveBlocks_eq_some h).mpr ⟨hp, hk, hn, hpage⟩⟩
    · dsimp only [allocatedBlock] at hok
      split_ifs at hok with horder haddr hhead
      push Not at haddr
      rw [pageAddr, Mem.pageToPfn, Nat.add_sub_cancel_left,
        Nat.div_mul_cancel (Nat.dvd_of_mod_eq_zero haddr.2.2)]
      omega
    · dsimp only [allocatedBlock] at hok
      split_ifs at hok with horder haddr hhead
      omega
  · rintro ⟨p, k, n, hp, rfl, rfl, hlive⟩
    obtain ⟨-, hk, hn, hpage⟩ := (liveBlocks_eq_some h).mp hlive
    have hhead : Head m (s.page p) k := by
      rw [hpage]
      exact head_live hk hn
    obtain ⟨hdvd, hfits⟩ := h.tiled.fits p k hp hhead
    have hoff : pageAddr m p - m.memMap = (p - m.minPfn) * sizeofPage :=
      Nat.add_sub_cancel_left _ _
    have hrange : pageAddr m p < m.memMap + (m.maxPfn - m.minPfn) * sizeofPage := by
      obtain ⟨hmin, hmax⟩ := hp
      rw [pageAddr, sizeofPage]
      omega
    dsimp only [allocatedBlock]
    rw [pageToPfn_pageAddr hp, hoff, Int.toNat_natCast, hpage, if_neg (by omega), if_neg, if_neg]
    · rw [List.all_eq_true]
      intro i hi
      rw [List.mem_range, Nat.one_shiftLeft] at hi
      rcases Nat.eq_zero_or_pos i with rfl | hpos
      · rfl
      · rw [(h.tiled.interior p k hp hhead (p + i) ⟨by omega, by omega⟩ (by omega)).1]
        simp [cleanPage]
    · push Not
      refine ⟨mask_eq_zero_iff.mpr hdvd, ?_, rfl, rfl, hn.ne'⟩
      rw [Nat.one_shiftLeft]
      omega
    · push Not
      exact ⟨Nat.le_add_right _ _, hrange, Nat.mul_mod_left _ _⟩

/-- A block that `alloc_pages` returns was free, and is live with one reference then. -/
theorem Wf.liveBlocks_allocPages {t : State} (h : Wf m s ∅)
    (heq : Buddy.allocPages m s order = (t, some p)) : m.PfnValid p ∧ 0 ≤ order ∧
      liveBlocks m s p = none ∧
      liveBlocks m t = update (liveBlocks m s) p (some (order.toNat, 1)) := by
  rcases allocPages_cases m s order with ⟨heq', -⟩ | ⟨q, k, h0, hle, hk, hmem, heq'⟩ <;>
    obtain ⟨rfl, hpq⟩ := Prod.mk.inj (heq.symm.trans heq')
  · cases hpq
  · cases hpq
    obtain ⟨hp, hhead, hfree⟩ := h.of_mem hmem
    have hdvd := (h.tiled.fits p k hp hhead).1
    have hdel := h.delBlock hmem
    rw [Set.empty_union] at hdel
    refine ⟨hp, h0, by simp [liveBlocks, hfree, freePage], ?_⟩
    refine (liveBlocks_setPage hp _).trans ?_
    rw [hdel.liveBlocks_splitBlock hdvd hk, liveBlocks_delBlock hfree]
    rfl

/-- Each call of the allocator is a step of the live blocks. -/
theorem Wf.heapStep (h : Wf m s ∅) (e : Event) :
    HeapStep m (liveBlocks m s) e (result m s e) (liveBlocks m (Buddy.step m s e)) := by
  cases e with
  | alloc order =>
    rcases allocPages_cases m s order with ⟨heq, -⟩ | ⟨p, k, h0, hle, hk, hmem, heq⟩
    · rw [Buddy.step, result, heq]
      exact .allocNull order
    · obtain ⟨hp, hhead, hfree⟩ := h.of_mem hmem
      obtain ⟨hdvd, hfits⟩ := h.tiled.fits p k hp hhead
      have hlive : liveBlocks m (Buddy.step m s (.alloc order)) =
          update (liveBlocks m s) p (some (order.toNat, 1)) := by
        rw [Buddy.step]
        exact (h.liveBlocks_allocPages (t := (Buddy.allocPages m s order).1) (by rw [heq])).2.2.2
      have hpow : 2 ^ order.toNat ≤ 2 ^ k := Nat.pow_le_pow_right two_pos hle
      have hresult : result m s (.alloc order) = some p := by rw [result, heq]
      rw [hlive, hresult]
      have hcast : order = (order.toNat : ℤ) := by omega
      rw [hcast, Int.toNat_natCast]
      refine .alloc hp (by omega) ((pow_dvd_pow 2 hle).trans hdvd) (fun q j n hq => ?_)
      obtain ⟨hqv, hj, hn, hpage⟩ := (liveBlocks_eq_some h).mp hq
      exact h.disjoint_of_alloc heq ((liveBlock_iff h).mpr ⟨hqv, hj, n, hn, hpage⟩)
  | free addr order =>
    rw [Buddy.step, result]
    by_cases hok : addr ≠ 0 ∧ allocatedBlock m s addr order = true
    · obtain ⟨p, k, n, hp, haddr, horder, hlive⟩ := h.allocatedBlock_iff.mp hok.2
      obtain ⟨-, hk, hn, hpage⟩ := (liveBlocks_eq_some h).mp hlive
      obtain ⟨n, rfl⟩ : ∃ i, n = i + 1 := ⟨n - 1, by omega⟩
      have hstep : HeapStep m (liveBlocks m s) (.free addr order) none
          (update (liveBlocks m s) p (if n = 0 then none else some (k, n))) :=
        .free ⟨hok.1, hp, haddr, horder, hlive⟩
      convert hstep using 1
      have hpfn : m.pageToPfn addr = p := by rw [haddr, pageToPfn_pageAddr hp]
      unfold Buddy.freePages
      rw [if_neg hok.1, if_neg (by simp [hok.2])]
      dsimp only
      rw [hpfn, hpage, horder, Int.toNat_natCast]
      rcases Nat.eq_zero_or_pos n with rfl | hpos
      · have hhead : Head m (s.page p) k := by
          rw [hpage]
          exact head_live hk one_pos
        have hold : ∀ j, s.page p ≠ freePage j := fun j => by
          rw [hpage]
          exact livePage_ne_free
        have hclear := h.setPage hold (fun j => freePage_ne_clean.symm)
          (h.tiled.lift hp hhead)
        rw [Set.empty_union] at hclear
        exact (hclear.liveBlocks_mergeLoop (h.tiled.fits p k hp hhead).1).trans
          (liveBlocks_setPage hp _)
      · rw [show (livePage k (n + 1)).refcount = n + 1 from rfl,
          refcountDecAndTest_of_gt (by omega), if_neg hpos.ne']
        exact liveBlocks_setPage hp _
    · have hsame : Buddy.freePages m s addr order = s := by
        unfold Buddy.freePages
        split_ifs with hnull hreject
        · rfl
        · rfl
        · exact absurd ⟨hnull, by simpa using hreject⟩ hok
      rw [hsame]
      refine .freeReject fun p k n hfrees => hok ⟨hfrees.1, ?_⟩
      exact h.allocatedBlock_iff.mpr ⟨p, k, n, hfrees.2⟩
  | get p =>
    rw [Buddy.step, result]
    rcases hlive : liveBlocks m s p with _ | ⟨k, n⟩
    · convert HeapStep.getDead hlive using 1
      unfold Buddy.getPage
      split_ifs with hp
      · refine liveBlocks_setPage_dead ?_ ?_
        · simpa [liveBlocks, hp] using hlive
        · simpa [liveBlocks, hp] using hlive
      · rfl
    · convert HeapStep.get hlive using 1
      obtain ⟨hp, -, -, hpage⟩ := (liveBlocks_eq_some h).mp hlive
      unfold Buddy.getPage
      rw [if_pos hp]
      refine (liveBlocks_setPage hp _).trans ?_
      rw [hpage]
      rfl

/-! ### Reserved pages -/

/-- The end of `buddy_init` from any point of its loop. -/
def finishInit (m : Mem) (rs : List Memblock.Region) (s : State) (start : ℕ) : State :=
  releaseRange m (initLoop m rs s start).1 (initLoop m rs s start).2 m.maxPfn

/-- A property of descriptors that releasing a page keeps. -/
structure Stable (P : Page → Prop) : Prop where
  add : ∀ pg order, P pg → P ⟨{ pg.flags with buddy := true }, pg.refcount, order⟩
  clear : ∀ pg, P pg → P ⟨{ pg.flags with reserved := false }, pg.refcount, pg.order⟩

namespace Stable

variable {P : Page → Prop}

theorem releaseLoop (h : Stable P) (turns start stop : ℕ) (hx : P (s.page x)) :
    P ((releaseLoop m turns s start stop).page x) := by
  induction turns generalizing s start with
  | zero => exact hx
  | succ turns ih =>
    rw [Buddy.releaseLoop]
    split_ifs
    · apply ih
      by_cases hxs : x = start
      · subst hxs
        simpa [Buddy.addBlock, State.setArea, State.setPage] using h.add _ _ hx
      · rwa [addBlock_page_of_ne hxs]
    · exact hx

theorem releaseRange (h : Stable P) (start stop : ℕ) (hx : P (s.page x)) :
    P ((releaseRange m s start stop).page x) := by
  apply h.releaseLoop
  unfold clearReserved
  dsimp only
  split_ifs
  · exact h.clear _ hx
  · exact hx

/-- What holds of a descriptor at some point of `buddy_init` still holds at its end. -/
theorem finishInit (h : Stable P) (rs : List Memblock.Region) (start : ℕ) (hx : P (s.page x)) :
    P ((finishInit m rs s start).page x) := by
  induction rs generalizing s start with
  | nil => exact h.releaseRange _ _ hx
  | cons r rs ih =>
    unfold Buddy.finishInit
    rw [initLoop]
    dsimp only
    split_ifs
    · exact ih _ hx
    · exact h.releaseRange _ _ hx
    · exact ih _ (h.releaseRange _ _ hx)
    · exact ih _ hx

end Stable

/-- The rest of `buddy_init` touches only pages between `start` and `max_pfn`. -/
theorem finishInit_page_of_notMem (rs : List Memblock.Region) (h : ¬ (start ≤ x ∧ x < m.maxPfn)) :
    (finishInit m rs s start).page x = s.page x := by
  induction rs generalizing s start with
  | nil => exact releaseRange_page_of_notMem h
  | cons r rs ih =>
    unfold finishInit
    rw [initLoop]
    dsimp only
    split_ifs with hpassed hbeyond hgap
    · exact ih h
    · exact releaseRange_page_of_notMem h
    · refine (ih (by omega)).trans (releaseRange_page_of_notMem (by omega))
    · exact ih (by omega)

/-- The page `x` has a byte in common with the region. -/
def Touches (r : Memblock.Region) (x : ℕ) : Prop :=
  r.base >>> pageShift ≤ x ∧ x < pfnUp r.stop

theorem finishInit_page_of_touches {rs : List Memblock.Region}
    (hsorted : rs.Pairwise fun r r' => r.base ≤ r'.base) (hr : r ∈ rs) (hx : Touches r x)
    (hinit : s.page x = initPage) : (finishInit m rs s start).page x = initPage := by
  induction rs generalizing s start with
  | nil => exact absurd hr List.not_mem_nil
  | cons r' rs ih =>
    obtain ⟨hhead, htail⟩ := List.pairwise_cons.mp hsorted
    -- the region that holds `x` starts no earlier than the one at hand
    have hfirst : r'.base >>> pageShift ≤ x := by
      refine le_trans ?_ hx.1
      rw [Nat.shiftRight_eq_div_pow, Nat.shiftRight_eq_div_pow]
      refine Nat.div_le_div_right ?_
      rcases List.mem_cons.mp hr with rfl | hr
      · exact le_rfl
      · exact hhead r hr
    have hrest : ∀ {t : State} {start' : ℕ}, t.page x = initPage →
        (r = r' → ¬ (start' ≤ x ∧ x < m.maxPfn)) →
        (finishInit m rs t start').page x = initPage := by
      intro t start' ht hpast
      rcases List.mem_cons.mp hr with heq | hr
      · rw [finishInit_page_of_notMem rs (hpast heq), ht]
      · exact ih htail hr ht
    unfold finishInit
    rw [initLoop]
    dsimp only
    split_ifs with hpassed hbeyond hgap
    · refine hrest hinit fun heq => ?_
      have := hx.2
      rw [heq] at this
      omega
    · rw [releaseRange_page_of_notMem (by omega), hinit]
    · refine hrest ?_ fun heq => ?_
      · rw [releaseRange_page_of_notMem (by omega), hinit]
      · have := hx.2
        rw [heq] at this
        omega
    · refine hrest hinit fun heq => ?_
      have := hx.2
      rw [heq] at this
      omega

/-- No page that a reservation touches is released. -/
theorem buddyInit_page_of_reserved {mb : Memblock} (hr : r ∈ mb.reserved) (hx : Touches r x) :
    (buddyInit m mb).page x = initPage :=
  finishInit_page_of_touches mb.sorted hr hx rfl

/-! ### Runs -/

/-- The states that `buddy_init` can leave behind. -/
def Booted (m : Mem) (s : State) : Prop := ∃ mb : Memblock, s = buddyInit m mb

/-- One call of a client. -/
def Step (m : Mem) (s : State) (e : Event) (t : State) : Prop := t = step m s e

theorem wf_of_reachable (h : Reachable (Booted m) (Step m) s) : Wf m s ∅ := by
  have hinit : ∀ s, Booted m s → Wf m s ∅ := by
    rintro s ⟨mb, rfl⟩
    exact wf_buddyInit m mb
  have hstep : ∀ s e t, Wf m s ∅ → Step m s e t → Wf m t ∅ := by
    rintro s e t hs rfl
    exact hs.step e
  exact h.invariant hinit hstep

/-- `buddy_init` marks no block allocated. -/
theorem liveBlocks_of_booted (h : Booted m s) : liveBlocks m s = fun _ => none := by
  obtain ⟨mb, rfl⟩ := h
  have hstable : Stable fun pg => pg.flags.allocated = false := ⟨fun _ _ => id, fun _ => id⟩
  funext p
  have hpage : ((buddyInit m mb).page p).flags.allocated = false :=
    hstable.finishInit mb.reserved m.minPfn rfl
  simp [liveBlocks, hpage]

/-- In every state that calls of any kind reach from `buddy_init`, the pages are
partitioned, an allocation is disjoint from the live blocks, and it fails only
for lack of a free block of its order or above. The live blocks are those that calls have
returned and no call has freed since: there are none at first, and every call is a step of
`HeapStep`. -/
theorem partitioned_of_reachable (h : Reachable (Booted m) (Step m) s) :
    Partitioned m s ∧ (Booted m s → liveBlocks m s = fun _ => none) ∧
      (∀ e, HeapStep m (liveBlocks m s) e (result m s e) (liveBlocks m (step m s e))) ∧
      (∀ order s' p, allocPages m s order = (s', some p) →
        ∀ q k, LiveBlock m s q k → Disjoint (block p order.toNat) (block q k)) ∧
      (∀ order : ℤ, 0 ≤ order → order < m.maxOrder → (allocPages m s order).2 = none →
        ∀ p k, order.toNat ≤ k → ¬ FreeBlock m s p k) := by
  have hwf := wf_of_reachable h
  refine ⟨hwf.partitioned, liveBlocks_of_booted, hwf.heapStep, ?_, ?_⟩
  · intro order s' p halloc q k hlive
    exact hwf.disjoint_of_alloc halloc hlive
  · intro order h0 hlt hnull p k hle
    exact hwf.not_freeBlock_of_alloc_eq_none h0 hlt hnull hle

/-- A range that starts and ends off any large alignment. -/
def smallMem : Mem := ⟨3, 29, 4096, 4, by decide, by decide, by decide⟩

/-- One reservation, of a part of page 9 only. -/
def smallMemblock : Memblock :=
  ⟨3 * 4096, 26 * 4096, [⟨9 * 4096 + 16, 100, false, by decide, by decide⟩], by simp, by decide⟩

/-- One allocation, and a free of its page with a wrong order. -/
def smallState : State :=
  step smallMem (step smallMem (buddyInit smallMem smallMemblock) (.alloc 0)) (.free 5496 1)

theorem smallState_reachable : Reachable (Booted smallMem) (Step smallMem) smallState :=
  .step (a := .free 5496 1) (.step (a := .alloc 0) (.init ⟨smallMemblock, rfl⟩) rfl) rfl

/-- The rejected free leaves the page live, and the next block is apart from it. -/
theorem partitioned_smallState : Partitioned smallMem smallState ∧
    LiveBlock smallMem smallState 28 0 ∧ (allocPages smallMem smallState 1).2 = some 10 ∧
    Disjoint (block 10 1) (block 28 0) := by
  obtain ⟨hpart, -, -, hdisj, -⟩ := partitioned_of_reachable smallState_reachable
  have hlive : LiveBlock smallMem smallState 28 0 := by decide +kernel
  have hsnd : (allocPages smallMem smallState 1).2 = some 10 := by decide +kernel
  refine ⟨hpart, hlive, hsnd, ?_⟩
  exact hdisj 1 _ 10 (Prod.ext rfl hsnd) 28 0 hlive

end Nuvix.Buddy
