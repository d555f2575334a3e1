import Nuvix.Lib.Transition
import Nuvix.Mm.Buddy

/-!
# The invariant of the buddy allocator

The allocator is in the middle of an operation most of the time: a block has been
taken off its list and is not yet split, merged or handed out. `Wf m s H` says
that the state is consistent except for a hole `H` of pages that belong to no
block. Every primitive moves one block into or out of the hole, and a complete
call starts and ends with an empty one.
-/

namespace Nuvix.Buddy

open Dyadic Transition Function

variable {m : Mem} {s : State} {page : ℕ → Page} {H : Set ℕ} {pg : Page}
  {p q k j x turns start stop order n : ℕ}

/-! ### Descriptors -/

/-- A page that heads no block: interior, or in the hole. -/
def cleanPage : Page := ⟨{}, 0, pageOrderNone⟩

/-- The head of a free block. -/
def freePage (k : ℕ) : Page := ⟨{ buddy := true }, 0, k⟩

/-- The head of an allocated block with `n` references. -/
def livePage (k n : ℕ) : Page := ⟨{ allocated := true }, n, k⟩

/-- The descriptor `pg` heads a free or an allocated block of order `k`. -/
def Head (m : Mem) (pg : Page) (k : ℕ) : Prop :=
  k < m.maxOrder ∧ (pg = freePage k ∨ ∃ n, 0 < n ∧ pg = livePage k n)

theorem head_free (h : k < m.maxOrder) : Head m (freePage k) k := ⟨h, .inl rfl⟩

theorem head_live (h : k < m.maxOrder) (hn : 0 < n) : Head m (livePage k n) k :=
  ⟨h, .inr ⟨n, hn, rfl⟩⟩

theorem not_head_clean : ¬ Head m cleanPage k := by
  rintro ⟨-, h | ⟨n, -, h⟩⟩ <;> cases h

theorem not_head_init : ¬ Head m initPage k := by
  rintro ⟨-, h | ⟨n, -, h⟩⟩ <;> cases h

theorem Head.order_eq (h : Head m pg k) : pg.order = k := by
  rcases h with ⟨-, rfl | ⟨n, -, rfl⟩⟩ <;> rfl

theorem freePage_ne_clean : freePage k ≠ cleanPage := by
  intro h
  cases h

theorem livePage_ne_free : livePage j n ≠ freePage k := by
  intro h
  cases h

theorem initPage_ne_free : initPage ≠ freePage k := by
  intro h
  cases h

theorem initPage_ne_clean : initPage ≠ cleanPage := by decide

/-! ### Tilings -/

/-- Blocks, reserved pages and the hole `H` cover the range without overlap. -/
structure Tiled (m : Mem) (page : ℕ → Page) (H : Set ℕ) : Prop where
  hole : ∀ p ∈ H, m.PfnValid p ∧ page p = cleanPage
  fits : ∀ p k, m.PfnValid p → Head m (page p) k → 2 ^ k ∣ p ∧ p + 2 ^ k ≤ m.maxPfn
  interior : ∀ p k, m.PfnValid p → Head m (page p) k →
    ∀ q ∈ block p k, q ≠ p → page q = cleanPage ∧ q ∉ H
  cover : ∀ p, m.PfnValid p → p ∈ H ∨ page p = initPage ∨
    ∃ q k, m.PfnValid q ∧ Head m (page q) k ∧ p ∈ block q k

namespace Tiled

section

variable (h : Tiled m page H)
include h

theorem head_notMem (hk : Head m (page p) k) : p ∉ H := by
  intro hp
  rw [(h.hole p hp).2] at hk
  exact not_head_clean hk

section

variable (hp : m.PfnValid p)
include hp

theorem block_valid (hk : Head m (page p) k) (hx : x ∈ block p k) : m.PfnValid x :=
  ⟨hp.1.trans hx.1, hx.2.trans_le (h.fits p k hp hk).2⟩

theorem block_notMem (hk : Head m (page p) k) (hx : x ∈ block p k) : x ∉ H := by
  rcases eq_or_ne x p with rfl | hne
  · exact h.head_notMem hk
  · exact (h.interior p k hp hk x hx hne).2

/-- A page lies in at most one block. -/
theorem head_unique (hk : Head m (page p) k) (hq : m.PfnValid q) (hj : Head m (page q) j)
    (hxp : x ∈ block p k) (hxq : x ∈ block q j) : p = q := by
  by_contra hne
  -- the head that comes second would be an interior page of the first block
  rcases Nat.lt_or_gt_of_ne hne with hlt | hlt
  · have hmem : q ∈ block p k := ⟨hlt.le, hxq.1.trans_lt hxp.2⟩
    rw [(h.interior p k hp hk q hmem hlt.ne').1] at hj
    exact not_head_clean hj
  · have hmem : p ∈ block q j := ⟨hlt.le, hxp.1.trans_lt hxq.2⟩
    rw [(h.interior q j hq hj p hmem hlt.ne').1] at hk
    exact not_head_clean hk

/-- Every valid descriptor is of one of four kinds. -/
theorem kinds :
    page p = initPage ∨ page p = cleanPage ∨ (∃ k, k < m.maxOrder ∧ page p = freePage k) ∨
      ∃ k n, k < m.maxOrder ∧ 0 < n ∧ page p = livePage k n := by
  rcases h.cover p hp with hhole | hinit | ⟨q, k, hq, hk, hmem⟩
  · exact .inr (.inl (h.hole p hhole).2)
  · exact .inl hinit
  · rcases eq_or_ne p q with rfl | hne
    · rcases hk with ⟨hk, hfree | ⟨n, hn, hlive⟩⟩
      · exact .inr (.inr (.inl ⟨k, hk, hfree⟩))
      · exact .inr (.inr (.inr ⟨k, n, hk, hn, hlive⟩))
    · exact .inr (.inl (h.interior q k hq hk p hmem hne).1)

omit hp in
/-- Put a block into the hole. -/
theorem place (hsub : block p k ⊆ H) (hdvd : 2 ^ k ∣ p) (hpg : Head m pg k) :
    Tiled m (update page p pg) (H \ block p k) := by
  have hp : p ∈ H := hsub self_mem_block
  have hclean : page p = cleanPage := (h.hole p hp).2
  -- old heads are still heads, since the page at `p` was clean
  have hold : ∀ q j, Head m (update page p pg q) j → q ≠ p → Head m (page q) j :=
    fun q j hj hne => by rwa [update_of_ne hne] at hj
  have hkeep : ∀ q j, Head m (page q) j → q ≠ p := fun q j hj heq => by
    rw [heq, hclean] at hj
    exact not_head_clean hj
  refine ⟨?_, ?_, ?_, ?_⟩
  · rintro q ⟨hq, hout⟩
    have hne : q ≠ p := fun heq => hout (heq ▸ self_mem_block)
    rw [update_of_ne hne]
    exact h.hole q hq
  · intro q j hq hj
    rcases eq_or_ne q p with rfl | hne
    · rw [update_self] at hj
      obtain rfl : j = k := by rw [← hj.order_eq, ← hpg.order_eq]
      have hlast : q + 2 ^ j - 1 ∈ block q j := by
        have := Nat.two_pow_pos j
        exact ⟨by omega, by omega⟩
      have hvalid := (h.hole _ (hsub hlast)).1.2
      exact ⟨hdvd, by omega⟩
    · exact h.fits q j hq (hold q j hj hne)
  · intro q j hq hj y hy hyq
    rcases eq_or_ne q p with rfl | hne
    · rw [update_self] at hj
      obtain rfl : j = k := by rw [← hj.order_eq, ← hpg.order_eq]
      rw [update_of_ne hyq]
      exact ⟨(h.hole y (hsub hy)).2, fun hmem => hmem.2 hy⟩
    · obtain ⟨hyclean, hyH⟩ := h.interior q j hq (hold q j hj hne) y hy hyq
      have hyp : y ≠ p := fun heq => hyH (heq ▸ hp)
      rw [update_of_ne hyp]
      exact ⟨hyclean, fun hmem => hyH hmem.1⟩
  · intro q hq
    rcases h.cover q hq with hhole | hinit | ⟨r, j, hr, hj, hmem⟩
    · by_cases hin : q ∈ block p k
      · refine .inr (.inr ⟨p, k, (h.hole p hp).1, ?_, hin⟩)
        rwa [update_self]
      · exact .inl ⟨hhole, hin⟩
    · have hne : q ≠ p := fun heq => by
        rw [heq, hclean] at hinit
        exact initPage_ne_clean hinit.symm
      exact .inr (.inl (by rwa [update_of_ne hne]))
    · refine .inr (.inr ⟨r, j, hr, ?_, hmem⟩)
      rwa [update_of_ne (hkeep r j hj)]

/-- Take a block out into the hole. -/
theorem lift (hk : Head m (page p) k) : Tiled m (update page p cleanPage) (H ∪ block p k) := by
  have hold : ∀ q j, Head m (update page p cleanPage q) j → q ≠ p ∧ Head m (page q) j := by
    intro q j hj
    rcases eq_of_update (rfl : update page p cleanPage q = _) with ⟨-, hq⟩ | ⟨hne, hq⟩ <;>
      rw [← hq] at hj
    · exact absurd hj not_head_clean
    · exact ⟨hne, hj⟩
  have hclean : ∀ q, page q = cleanPage → update page p cleanPage q = cleanPage := by
    intro q hq
    rcases eq_or_ne q p with rfl | hne
    · exact update_self ..
    · rwa [update_of_ne hne]
  refine ⟨?_, ?_, ?_, ?_⟩
  · rintro q (hq | hq)
    · exact ⟨(h.hole q hq).1, hclean q (h.hole q hq).2⟩
    · refine ⟨h.block_valid hp hk hq, ?_⟩
      rcases eq_or_ne q p with rfl | hne
      · exact update_self ..
      · exact hclean q (h.interior p k hp hk q hq hne).1
  · intro q j hq hj
    exact h.fits q j hq (hold q j hj).2
  · intro q j hq hj y hy hyq
    obtain ⟨hne, hj⟩ := hold q j hj
    obtain ⟨hyclean, hyH⟩ := h.interior q j hq hj y hy hyq
    refine ⟨hclean y hyclean, ?_⟩
    rintro (hmem | hmem)
    · exact hyH hmem
    · exact hne (h.head_unique hq hj hp hk hy hmem)
  · intro q hq
    rcases h.cover q hq with hhole | hinit | ⟨r, j, hr, hj, hmem⟩
    · exact .inl (.inl hhole)
    · have hne : q ≠ p := fun heq => by
        rw [← heq, hinit] at hk
        exact not_head_init hk
      exact .inr (.inl (by rwa [update_of_ne hne]))
    · rcases eq_or_ne r p with rfl | hne
      · obtain rfl : j = k := by rw [← hj.order_eq, ← hk.order_eq]
        exact .inl (.inr hmem)
      · refine .inr (.inr ⟨r, j, hr, ?_, hmem⟩)
        rwa [update_of_ne hne]

/-- Exchange the head of a block for another of the same order. -/
theorem retag (hk : Head m (page p) k) (hpg : Head m pg k) : Tiled m (update page p pg) H := by
  have hplace := (h.lift hp hk).place Set.subset_union_right (h.fits p k hp hk).1 hpg
  rw [update_idem, Set.union_sdiff_right] at hplace
  have hdisj : H \ block p k = H := by
    refine sdiff_eq_left.mpr (Set.disjoint_left.mpr fun x hx hmem => ?_)
    exact h.block_notMem hp hk hmem hx
  rwa [hdisj] at hplace

end

/-- Turn a range of reserved pages into a hole. -/
theorem unreserve {a b : ℕ} (hrange : ∀ p, a ≤ p → p < b → m.PfnValid p ∧ page p = initPage) :
    Tiled m (fun p => if a ≤ p ∧ p < b then cleanPage else page p) (H ∪ Set.Ico a b) := by
  have hold : ∀ q j, Head m (if a ≤ q ∧ q < b then cleanPage else page q) j →
      ¬ (a ≤ q ∧ q < b) ∧ Head m (page q) j := by
    intro q j hj
    split_ifs at hj with hin
    · exact absurd hj not_head_clean
    · exact ⟨hin, hj⟩
  have hclean : ∀ q, page q = cleanPage → ¬ (a ≤ q ∧ q < b) := by
    rintro q hq ⟨hle, hlt⟩
    rw [(hrange q hle hlt).2] at hq
    exact initPage_ne_clean hq
  refine ⟨?_, ?_, ?_, ?_⟩
  · rintro q (hq | hq)
    · exact ⟨(h.hole q hq).1, by rw [if_neg (hclean q (h.hole q hq).2), (h.hole q hq).2]⟩
    · exact ⟨(hrange q hq.1 hq.2).1, if_pos hq⟩
  · intro q j hq hj
    exact h.fits q j hq (hold q j hj).2
  · intro q j hq hj y hy hyq
    obtain ⟨hyclean, hyH⟩ := h.interior q j hq (hold q j hj).2 y hy hyq
    rw [if_neg (hclean y hyclean)]
    refine ⟨hyclean, ?_⟩
    rintro (hmem | hmem)
    · exact hyH hmem
    · exact hclean y hyclean hmem
  · intro q hq
    by_cases hin : a ≤ q ∧ q < b
    · exact .inl (.inr hin)
    · rw [if_neg hin]
      rcases h.cover q hq with hhole | hinit | ⟨r, j, hr, hj, hmem⟩
      · exact .inl (.inl hhole)
      · exact .inr (.inl hinit)
      · refine .inr (.inr ⟨r, j, hr, ?_, hmem⟩)
        have hout : ¬ (a ≤ r ∧ r < b) := by
          rintro ⟨hle, hlt⟩
          rw [(hrange r hle hlt).2] at hj
          exact not_head_init hj
        rwa [if_neg hout]

end

end Tiled

/-! ### Free lists -/

/-- The free lists hold exactly the heads of free blocks, each once. -/
structure Listed (m : Mem) (s : State) : Prop where
  mem_iff : ∀ k p, p ∈ (s.freeArea k).list ↔
    k < m.maxOrder ∧ m.PfnValid p ∧ s.page p = freePage k
  nodup : ∀ k, (s.freeArea k).list.Nodup
  count : ∀ k, (s.freeArea k).nrFree = (s.freeArea k).list.length

theorem freePage_inj : freePage k = freePage j ↔ k = j := by
  constructor
  · intro h
    exact congrArg Page.order h
  · intro h
    rw [h]

theorem addBlock_page (h : s.page p = cleanPage) :
    (addBlock s p k).page = update s.page p (freePage k) := by
  change update s.page p _ = _
  rw [h]
  rfl

theorem addBlock_freeArea : (addBlock s p k).freeArea =
    update s.freeArea k ⟨p :: (s.freeArea k).list, (s.freeArea k).nrFree + 1⟩ :=
  rfl

theorem delBlock_page (h : s.page p = freePage k) :
    (delBlock s p).page = update s.page p cleanPage := by
  change update s.page p _ = _
  rw [h]
  rfl

theorem delBlock_freeArea (h : s.page p = freePage k) : (delBlock s p).freeArea =
    update s.freeArea k ⟨(s.freeArea k).list.erase p, (s.freeArea k).nrFree - 1⟩ := by
  have horder : (s.page p).order = k := by rw [h]; rfl
  change update s.freeArea (s.page p).order _ = _
  rw [horder]

namespace Listed

theorem notMem_of_clean (h : Listed m s) (hp : s.page p = cleanPage) : p ∉ (s.freeArea k).list := by
  intro hmem
  rw [((h.mem_iff k p).mp hmem).2.2] at hp
  exact freePage_ne_clean hp

/-- A write to a descriptor that does not head a free block, before or after. -/
theorem setPage (h : Listed m s) (hold : ∀ k, s.page p ≠ freePage k)
    (hnew : ∀ k, pg ≠ freePage k) : Listed m (s.setPage p pg) := by
  refine ⟨fun k q => ?_, h.nodup, h.count⟩
  refine (h.mem_iff k q).trans ?_
  rcases eq_or_ne q p with rfl | hne
  · simp [State.setPage, hold, hnew]
  · simp [State.setPage, hne]

theorem addBlock (h : Listed m s) (hk : k < m.maxOrder) (hp : m.PfnValid p)
    (hclean : s.page p = cleanPage) : Listed m (addBlock s p k) := by
  refine ⟨fun j q => ?_, fun j => ?_, fun j => ?_⟩
  · rw [addBlock_page hclean, addBlock_freeArea]
    rcases eq_or_ne j k with rfl | hj
    · rw [update_self, List.mem_cons]
      rcases eq_or_ne q p with rfl | hq
      · simp [hk, hp]
      · simp [hq, h.mem_iff]
    · rw [update_of_ne hj, h.mem_iff]
      rcases eq_or_ne q p with rfl | hq
      · rw [update_self, hclean, freePage_inj]
        exact ⟨fun hc => absurd hc.2.2.symm freePage_ne_clean, fun hc => absurd hc.2.2 hj.symm⟩
      · rw [update_of_ne hq]
  · rw [addBlock_freeArea]
    rcases eq_or_ne j k with rfl | hj
    · rw [update_self]
      exact List.nodup_cons.mpr ⟨h.notMem_of_clean hclean, h.nodup j⟩
    · rw [update_of_ne hj]
      exact h.nodup j
  · rw [addBlock_freeArea]
    rcases eq_or_ne j k with rfl | hj
    · rw [update_self, List.length_cons, h.count]
    · rw [update_of_ne hj, h.count]

theorem delBlock (h : Listed m s) (hmem : p ∈ (s.freeArea k).list) : Listed m (delBlock s p) := by
  obtain ⟨-, -, hfree⟩ := (h.mem_iff k p).mp hmem
  refine ⟨fun j q => ?_, fun j => ?_, fun j => ?_⟩
  · rw [delBlock_page hfree, delBlock_freeArea hfree]
    rcases eq_or_ne j k with rfl | hj
    · rw [update_self, (h.nodup j).mem_erase_iff, h.mem_iff]
      rcases eq_or_ne q p with rfl | hq
      · simp [freePage_ne_clean.symm]
      · simp [hq]
    · rw [update_of_ne hj, h.mem_iff]
      rcases eq_or_ne q p with rfl | hq
      · rw [update_self, hfree, freePage_inj]
        exact ⟨fun hc => absurd hc.2.2.symm hj, fun hc => absurd hc.2.2.symm freePage_ne_clean⟩
      · rw [update_of_ne hq]
  · rw [delBlock_freeArea hfree]
    rcases eq_or_ne j k with rfl | hj
    · rw [update_self]
      exact (h.nodup j).erase p
    · rw [update_of_ne hj]
      exact h.nodup j
  · rw [delBlock_freeArea hfree]
    rcases eq_or_ne j k with rfl | hj
    · rw [update_self, List.length_erase_of_mem hmem, h.count]
    · rw [update_of_ne hj, h.count]

end Listed

/-! ### The invariant -/

/-- No two free buddies below the largest order. -/
def Coalesced (m : Mem) (s : State) : Prop :=
  ∀ k p, k + 1 < m.maxOrder → p ∈ (s.freeArea k).list → buddy p k ∉ (s.freeArea k).list

/-- The state is consistent except for the hole `H`. -/
structure Wf (m : Mem) (s : State) (H : Set ℕ) : Prop where
  tiled : Tiled m s.page H
  listed : Listed m s
  coalesced : Coalesced m s

namespace Wf

theorem of_mem (h : Wf m s H) (hmem : p ∈ (s.freeArea k).list) :
    m.PfnValid p ∧ Head m (s.page p) k ∧ s.page p = freePage k := by
  obtain ⟨hk, hp, hfree⟩ := (h.listed.mem_iff k p).mp hmem
  refine ⟨hp, ?_, hfree⟩
  rw [hfree]
  exact head_free hk

/-- The test `merge_block` makes on a descriptor. -/
theorem mem_iff_flags (h : Wf m s H) : p ∈ (s.freeArea k).list ↔
    m.PfnValid p ∧ (s.page p).flags.buddy = true ∧ (s.page p).order = k := by
  rw [h.listed.mem_iff]
  constructor
  · rintro ⟨-, hp, hfree⟩
    rw [hfree]
    exact ⟨hp, rfl, rfl⟩
  · rintro ⟨hp, hflag, rfl⟩
    rcases h.tiled.kinds hp with heq | heq | ⟨j, hj, heq⟩ | ⟨j, n, -, -, heq⟩
    · rw [heq] at hflag
      cases hflag
    · rw [heq] at hflag
      cases hflag
    · rw [heq]
      exact ⟨hj, hp, rfl⟩
    · rw [heq] at hflag
      cases hflag

/-- Putting a block of the hole on its list, where it has no free buddy. -/
theorem addBlock (h : Wf m s H) (hsub : block p k ⊆ H) (hdvd : 2 ^ k ∣ p)
    (hk : k < m.maxOrder) (hbuddy : k + 1 < m.maxOrder → buddy p k ∉ (s.freeArea k).list) :
    Wf m (addBlock s p k) (H \ block p k) := by
  obtain ⟨hp, hclean⟩ := h.tiled.hole p (hsub self_mem_block)
  refine ⟨?_, h.listed.addBlock hk hp hclean, ?_⟩
  · rw [addBlock_page hclean]
    exact h.tiled.place hsub hdvd (head_free hk)
  · intro j q hj hq
    rw [addBlock_freeArea] at hq ⊢
    rcases eq_or_ne j k with rfl | hne
    · rw [update_self, List.mem_cons] at hq ⊢
      rintro (heq | hmem)
      · rcases hq with rfl | hq
        · -- a block is not its own buddy
          rcases buddy_cases hdvd with ⟨-, hb⟩ | ⟨-, hb, -⟩
          · have := Nat.two_pow_pos j
            omega
          · have := Nat.two_pow_pos j
            omega
        · rw [← heq, buddy_buddy] at hbuddy
          exact hbuddy hj hq
      · rcases hq with rfl | hq
        · exact hbuddy hj hmem
        · exact h.coalesced j q hj hq hmem
    · rw [update_of_ne hne] at hq ⊢
      exact h.coalesced j q hj hq

/-- Taking a block off its list into the hole. -/
theorem delBlock (h : Wf m s H) (hmem : p ∈ (s.freeArea k).list) :
    Wf m (delBlock s p) (H ∪ block p k) := by
  obtain ⟨hp, hhead, hfree⟩ := h.of_mem hmem
  refine ⟨?_, h.listed.delBlock hmem, ?_⟩
  · rw [delBlock_page hfree]
    exact h.tiled.lift hp hhead
  · intro j q hj hq
    rw [delBlock_freeArea hfree] at hq ⊢
    rcases eq_or_ne j k with rfl | hne
    · rw [update_self] at hq ⊢
      exact fun hb => h.coalesced j q hj (List.mem_of_mem_erase hq) (List.mem_of_mem_erase hb)
    · rw [update_of_ne hne] at hq ⊢
      exact h.coalesced j q hj hq

/-- A write to the descriptor of a page that heads no free block. -/
theorem setPage {H' : Set ℕ} (h : Wf m s H) (hold : ∀ k, s.page p ≠ freePage k)
    (hnew : ∀ k, pg ≠ freePage k) (htiled : Tiled m (update s.page p pg) H') :
    Wf m (s.setPage p pg) H' :=
  ⟨htiled, h.listed.setPage hold hnew, h.coalesced⟩

/-! ### Freeing -/

/-- The merging loop fills a hole of one block. Each turn either closes the hole
or doubles it by the free buddy. -/
theorem mergeLoop (h : Wf m s (block p k)) (hdvd : 2 ^ k ∣ p)
    (hturns : k + turns + 1 = m.maxOrder) : Wf m (mergeLoop m turns s p k) ∅ := by
  induction turns generalizing s p k with
  | zero =>
    have hadd := h.addBlock subset_rfl hdvd (by omega) (fun hlt => by omega)
    rwa [Set.sdiff_self] at hadd
  | succ turns ih =>
    unfold Buddy.mergeLoop
    by_cases hmem : buddy p k ∈ (s.freeArea k).list
    · obtain ⟨hvalid, hflag, horder⟩ := h.mem_iff_flags.mp hmem
      have hdel := h.delBlock hmem
      rw [block_union_buddy hdvd] at hdel
      have hrest := ih hdel (dvd_min_buddy hdvd) (by omega)
      simpa [hvalid, hflag, horder] using hrest
    · have hstop : ¬ m.PfnValid (buddy p k) ∨ (s.page (buddy p k)).flags.buddy = false ∨
          (s.page (buddy p k)).order ≠ k := by
        rw [h.mem_iff_flags] at hmem
        by_contra hcon
        push Not at hcon
        exact hmem ⟨hcon.1, by simpa using hcon.2.1, hcon.2.2⟩
      have hadd := h.addBlock subset_rfl hdvd (by omega) (fun _ => hmem)
      rw [Set.sdiff_self] at hadd
      simpa only [hstop, if_true] using hadd

/-- What `allocated_block` establishes about the page it accepts. -/
theorem of_allocatedBlock {addr : ℕ} {order : ℤ} (h : Wf m s ∅)
    (hok : allocatedBlock m s addr order = true) :
    ∃ n, 0 < n ∧ order.toNat < m.maxOrder ∧ m.PfnValid (m.pageToPfn addr) ∧
      s.page (m.pageToPfn addr) = livePage order.toNat n := by
  dsimp only [allocatedBlock] at hok
  split_ifs at hok with horder haddr hpage
  push Not at horder haddr hpage
  obtain ⟨-, hroom, hflags, hord, hrefs⟩ := hpage
  have hvalid : m.PfnValid (m.pageToPfn addr) := by
    constructor
    · exact Nat.le_add_right _ _
    · have := Nat.two_pow_pos order.toNat
      rw [Nat.one_shiftLeft] at hroom
      omega
  rcases h.tiled.kinds hvalid with heq | heq | ⟨k, -, heq⟩ | ⟨k, n, hk, hn, heq⟩
  · rw [heq] at hflags
    cases hflags
  · rw [heq] at hflags
    cases hflags
  · rw [heq] at hflags
    cases hflags
  · have hkorder : k = order.toNat := by rw [← hord, heq]; rfl
    rw [hkorder] at hk heq
    exact ⟨n, hn, hk, hvalid, heq⟩

/-- `free_pages` keeps the invariant for arguments of any kind. -/
theorem freePages (h : Wf m s ∅) (addr : ℕ) (order : ℤ) : Wf m (freePages m s addr order) ∅ := by
  unfold Buddy.freePages
  split_ifs with hnull hreject
  · exact h
  · exact h
  obtain ⟨n, hn, hk, hvalid, hpage⟩ := h.of_allocatedBlock (by simpa using hreject)
  have hhead : Head m (s.page (m.pageToPfn addr)) order.toNat := by
    rw [hpage]
    exact head_live hk hn
  have hold : ∀ k, s.page (m.pageToPfn addr) ≠ freePage k := fun k => by
    rw [hpage]
    exact livePage_ne_free
  dsimp only
  rw [hpage]
  rcases Nat.lt_or_ge 1 n with hmany | hone
  · -- a reference remains
    have hdec : refcountDecAndTest (livePage order.toNat n).refcount = (n - 1, false) :=
      refcountDecAndTest_of_gt hmany
    rw [hdec]
    exact h.setPage hold (fun k => livePage_ne_free)
      (h.tiled.retag hvalid hhead (head_live hk (by omega)))
  · -- the last reference: the block becomes the hole that merging fills
    obtain rfl : n = 1 := by omega
    have hclear := h.setPage hold (fun k => freePage_ne_clean.symm) (h.tiled.lift hvalid hhead)
    rw [Set.empty_union] at hclear
    exact hclear.mergeLoop (h.tiled.fits _ _ hvalid hhead).1 (by omega)

/-- A further reference on any page: only a live block can gain one. -/
theorem getPage (h : Wf m s H) (pfn : ℕ) : Wf m (getPage m s pfn) H := by
  have hzero : (s.page pfn).refcount = 0 → Buddy.getPage m s pfn = s := by
    intro hrefs
    unfold Buddy.getPage
    split_ifs with hvalid
    · dsimp only
      rw [hrefs, refcountInc_zero, ← hrefs]
      exact congrArg (State.mk · s.freeArea s.managed) (update_eq_self pfn s.page)
    · rfl
  by_cases hvalid : m.PfnValid pfn
  · rcases h.tiled.kinds hvalid with heq | heq | ⟨k, -, heq⟩ | ⟨k, n, hk, hn, heq⟩
    · rwa [hzero (by rw [heq]; rfl)]
    · rwa [hzero (by rw [heq]; rfl)]
    · rwa [hzero (by rw [heq]; rfl)]
    · have hget : Buddy.getPage m s pfn = s.setPage pfn (livePage k (refcountInc n)) := by
        rw [Buddy.getPage, if_pos hvalid, heq]
        rfl
      rw [hget]
      refine h.setPage (fun j => ?_) (fun j => livePage_ne_free) ?_
      · rw [heq]
        exact livePage_ne_free
      · refine h.tiled.retag hvalid ?_ (head_live hk (refcountInc_pos hn))
        rw [heq]
        exact head_live hk hn
  · rwa [Buddy.getPage, if_neg hvalid]

/-! ### Allocating -/

/-- The splitting loop gives back right halves until a block of order `j` is left. -/
theorem splitBlock (h : Wf m s (block p k)) (hdvd : 2 ^ k ∣ p) (hk : k < m.maxOrder)
    (hjk : j ≤ k) : Wf m (splitBlock s p j k) (block p j) := by
  induction k generalizing s with
  | zero =>
    obtain rfl : j = 0 := by omega
    exact h
  | succ k ih =>
    unfold Buddy.splitBlock
    rcases Nat.lt_or_ge j (k + 1) with hlt | hge
    · rw [if_pos hlt, Nat.one_shiftLeft]
      have hhalf : block (p + 2 ^ k) k ⊆ block p (k + 1) := by
        intro x hx
        rw [mem_block, pow_succ] at *
        omega
      -- the other half is in the hole, so it is not a free block
      have hleft : buddy (p + 2 ^ k) k ∉ (s.freeArea k).list := by
        rw [buddy_right_half hdvd]
        exact h.listed.notMem_of_clean (h.tiled.hole p self_mem_block).2
      have hdvd' : 2 ^ k ∣ p := (pow_dvd_pow 2 k.le_succ).trans hdvd
      have hadd := h.addBlock hhalf (Nat.dvd_add hdvd' (dvd_refl _)) (by omega) (fun _ => hleft)
      rw [block_succ_diff_right] at hadd
      exact ih hadd hdvd' (by omega) (by omega)
    · obtain rfl : j = k + 1 := by omega
      rwa [if_neg (lt_irrefl _)]

/-- Handing out the hole. -/
theorem markAllocated (h : Wf m s (block p k)) (hdvd : 2 ^ k ∣ p) (hk : k < m.maxOrder) :
    Wf m (markAllocated s p k) ∅ := by
  have hclean := (h.tiled.hole p self_mem_block).2
  have hplace := h.tiled.place subset_rfl hdvd (head_live (n := 1) hk one_pos)
  rw [Set.sdiff_self] at hplace
  unfold Buddy.markAllocated
  rw [hclean]
  refine h.setPage (fun j => ?_) (fun j => livePage_ne_free) hplace
  rw [hclean]
  exact freePage_ne_clean.symm

end Wf

theorem firstBlock_some (h : firstBlock s turns order = some (p, k)) :
    order ≤ k ∧ k < order + turns ∧ p ∈ (s.freeArea k).list := by
  induction turns generalizing order with
  | zero => cases h
  | succ turns ih =>
    unfold firstBlock at h
    split at h
    · have := ih h
      exact ⟨by omega, by omega, this.2.2⟩
    · next heq =>
      cases h
      exact ⟨le_rfl, by omega, by rw [heq]; exact List.mem_cons_self⟩

theorem firstBlock_none (h : firstBlock s turns order = none) (hle : order ≤ k)
    (hlt : k < order + turns) : (s.freeArea k).list = [] := by
  induction turns generalizing order with
  | zero => omega
  | succ turns ih =>
    unfold firstBlock at h
    split at h
    · next heq =>
      rcases Nat.eq_or_lt_of_le hle with rfl | hle
      · exact heq
      · exact ih h hle (by omega)
    · cases h

/-- The two ways `alloc_pages` can end. -/
theorem allocPages_cases (m : Mem) (s : State) (order : ℤ) : ((allocPages m s order = (s, none)) ∧
      (0 ≤ order → order < m.maxOrder →
        ∀ k, order.toNat ≤ k → k < m.maxOrder → (s.freeArea k).list = [])) ∨
    ∃ p k, 0 ≤ order ∧ order.toNat ≤ k ∧ k < m.maxOrder ∧ p ∈ (s.freeArea k).list ∧
      allocPages m s order =
        (markAllocated (splitBlock (delBlock s p) p order.toNat k) p order.toNat, some p) := by
  unfold allocPages
  split_ifs with horder
  · exact .inl ⟨rfl, fun h0 hlt => by omega⟩
  · push Not at horder
    rcases hfirst : firstBlock s (m.maxOrder - order.toNat) order.toNat with _ | ⟨p, k⟩
    · refine .inl ⟨by simp only [hfirst], fun _ _ k hle hlt => ?_⟩
      exact firstBlock_none hfirst hle (by omega)
    · obtain ⟨hle, hlt, hmem⟩ := firstBlock_some hfirst
      exact .inr ⟨p, k, horder.1, hle, by omega, hmem, by simp only [hfirst]⟩

theorem Wf.allocPages (h : Wf m s ∅) (order : ℤ) : Wf m (allocPages m s order).1 ∅ := by
  rcases allocPages_cases m s order with ⟨heq, -⟩ | ⟨p, k, -, hle, hk, hmem, heq⟩
  · rwa [heq]
  · rw [heq]
    obtain ⟨hp, hhead, -⟩ := h.of_mem hmem
    have hdvd := (h.tiled.fits p k hp hhead).1
    have hdel := h.delBlock hmem
    rw [Set.empty_union] at hdel
    exact (hdel.splitBlock hdvd hk hle).markAllocated ((pow_dvd_pow 2 hle).trans hdvd) (by omega)

/-- A call keeps the invariant, whatever its arguments. -/
theorem Wf.step (h : Wf m s ∅) (e : Event) : Wf m (step m s e) ∅ := by
  cases e with
  | alloc order => exact h.allocPages order
  | free addr order => exact h.freePages addr order
  | get pfn => exact h.getPage pfn

/-! ### Initialisation -/

/-- The order chosen for a block at `start` is the largest possible one. -/
theorem fitOrder_spec (start len top : ℕ) (hlen : 0 < len) :
    fitOrder start len top ≤ top ∧ 2 ^ fitOrder start len top ∣ start ∧
      2 ^ fitOrder start len top ≤ len ∧
      (fitOrder start len top = top ∨ ¬ 2 ^ (fitOrder start len top + 1) ∣ start ∨
        len < 2 ^ (fitOrder start len top + 1)) := by
  induction top with
  | zero => exact ⟨le_rfl, one_dvd _, hlen, .inl rfl⟩
  | succ top ih =>
    unfold fitOrder
    split_ifs with hskip
    · obtain ⟨hle, hdvd, hfit, hmax⟩ := ih
      refine ⟨by omega, hdvd, hfit, .inr ?_⟩
      rcases hmax with htop | hmax
      · rw [htop, ← Nat.one_shiftLeft (top + 1)]
        refine hskip.imp (fun hmask hdvd => hmask (mask_eq_zero_iff.mpr ?_)) id
        rwa [Nat.one_shiftLeft] at hdvd
      · exact hmax
    · push Not at hskip
      exact ⟨le_rfl, mask_eq_zero_iff.mp hskip.1, by rw [← Nat.one_shiftLeft]; exact hskip.2,
        .inl rfl⟩

/-- The outer loop fills a hole that is an interval. `hgreedy` says that the block
just before the hole, if it is free, could not have been chosen larger. -/
theorem Wf.releaseLoop (h : Wf m s (Set.Ico start stop))
    (hturns : stop ≤ start + turns) (hstop : ∀ k, stop ∉ (s.freeArea k).list)
    (hgreedy : ∀ q k, q ∈ (s.freeArea k).list → q + 2 ^ k = start → k + 1 < m.maxOrder →
      2 ^ (k + 1) ∣ q → stop - q < 2 ^ (k + 1)) :
    Wf m (releaseLoop m turns s start stop) ∅ := by
  induction turns generalizing s start with
  | zero =>
    rwa [Set.Ico_eq_empty (by omega)] at h
  | succ turns ih =>
    unfold Buddy.releaseLoop
    split_ifs with hlt
    · have hmax := m.maxOrder_pos
      obtain ⟨hle, hdvd, hfit, hbest⟩ :=
        fitOrder_spec start (stop - start) (m.maxOrder - 1) (by omega)
      generalize fitOrder start (stop - start) (m.maxOrder - 1) = o at *
      have hpow : 2 ^ (o + 1) = 2 ^ o + 2 ^ o := by rw [pow_succ]; omega
      have hpos := Nat.two_pow_pos o
      have hsub : block start o ⊆ Set.Ico start stop := fun x hx => ⟨hx.1, by
        have := hx.2
        omega⟩
      have hbuddy : o + 1 < m.maxOrder → buddy start o ∉ (s.freeArea o).list := by
        intro ho hmem
        rcases buddy_cases hdvd with ⟨-, hright⟩ | ⟨-, hleft, hdvd'⟩
        · rw [hright] at hmem
          rcases Nat.lt_or_ge (start + 2 ^ o) stop with hin | hout
          · exact h.listed.notMem_of_clean (h.tiled.hole _ ⟨by omega, hin⟩).2 hmem
          · rw [show start + 2 ^ o = stop by omega] at hmem
            exact hstop o hmem
        · have := hgreedy _ o hmem hleft ho hdvd'
          omega
      have hadd := h.addBlock hsub hdvd (by omega) hbuddy
      have hrest : Set.Ico start stop \ block start o = Set.Ico (start + 2 ^ o) stop := by
        ext x
        simp only [Set.mem_sdiff, Set.mem_Ico, mem_block]
        omega
      rw [hrest] at hadd
      dsimp only
      rw [Nat.one_shiftLeft]
      have hmem_add : ∀ q k, q ∈ ((Buddy.addBlock s start o).freeArea k).list →
          q = start ∨ q ∈ (s.freeArea k).list := by
        intro q k hq
        rw [addBlock_freeArea] at hq
        rcases eq_or_ne k o with rfl | hne
        · rwa [update_self, List.mem_cons] at hq
        · rw [update_of_ne hne] at hq
          exact .inr hq
      refine ih hadd (by omega) (fun k hk => ?_) (fun q k hq hend hk hqdvd => ?_)
      · rcases hmem_add stop k hk with heq | hmem
        · omega
        · exact hstop k hmem
      · -- the block that ends where the new hole starts is the one just added
        obtain ⟨hqv, hqh, -⟩ := hadd.of_mem hq
        have hself : start ∈ ((Buddy.addBlock s start o).freeArea o).list := by
          rw [addBlock_freeArea, update_self]
          exact List.mem_cons_self
        obtain ⟨hsv, hsh, -⟩ := hadd.of_mem hself
        have hpk := Nat.two_pow_pos k
        obtain rfl : q = start := hadd.tiled.head_unique (x := start + 2 ^ o - 1) hqv hqh hsv hsh
          ⟨by omega, by omega⟩ ⟨by omega, by omega⟩
        obtain rfl : k = o := hqh.order_eq.symm.trans hsh.order_eq
        rcases hbest with htop | hndvd | hshort
        · omega
        · exact absurd hqdvd hndvd
        · exact hshort
    · rwa [Set.Ico_eq_empty (by omega)] at h

theorem addBlock_page_of_ne (h : x ≠ p) : (addBlock s p k).page x = s.page x :=
  update_of_ne h _ _

theorem releaseLoop_page_of_notMem (h : ¬ (start ≤ x ∧ x < stop)) :
    (releaseLoop m turns s start stop).page x = s.page x := by
  induction turns generalizing s start with
  | zero => rfl
  | succ turns ih =>
    unfold releaseLoop
    split_ifs with hlt
    · have hpos := Nat.two_pow_pos (fitOrder start (stop - start) (m.maxOrder - 1))
      dsimp only
      rw [Nat.one_shiftLeft, ih (by omega), addBlock_page_of_ne (by omega)]
    · rfl

/-- Releasing a range leaves the other descriptors alone. -/
theorem releaseRange_page_of_notMem (h : ¬ (start ≤ x ∧ x < stop)) :
    (releaseRange m s start stop).page x = s.page x := by
  rw [releaseRange, releaseLoop_page_of_notMem h]
  exact if_neg h

/-- A range of reserved pages between reserved pages can be released. -/
theorem Wf.releaseRange (h : Wf m s ∅)
    (hrange : ∀ p, start ≤ p → p < stop → m.PfnValid p ∧ s.page p = initPage)
    (hstop : ¬ m.PfnValid stop ∨ s.page stop = initPage)
    (hbehind : start ≤ m.minPfn ∨ s.page (start - 1) = initPage) :
    Wf m (releaseRange m s start stop) ∅ := by
  have hpage : (clearReserved s start stop).page =
      fun p => if start ≤ p ∧ p < stop then cleanPage else s.page p := by
    funext p
    rw [clearReserved]
    dsimp only
    split_ifs with hin
    · rw [(hrange p hin.1 hin.2).2]
      rfl
    · rfl
  have hnotFree : ∀ p k, start ≤ p → p < stop → s.page p ≠ freePage k := fun p k hle hlt => by
    rw [(hrange p hle hlt).2]
    exact initPage_ne_free
  have hclear : Wf m (clearReserved s start stop) (Set.Ico start stop) := by
    refine ⟨?_, ⟨fun k p => ?_, h.listed.nodup, h.listed.count⟩, h.coalesced⟩
    · rw [hpage]
      have := h.tiled.unreserve hrange
      rwa [Set.empty_union] at this
    · refine (h.listed.mem_iff k p).trans ?_
      rw [hpage]
      dsimp only
      split_ifs with hin
      · simp [hnotFree p k hin.1 hin.2, freePage_ne_clean.symm]
      · rfl
  refine hclear.releaseLoop (by omega) (fun k hmem => ?_) (fun q k hmem hend _ _ => ?_)
  · obtain ⟨-, hvalid, hfree⟩ := (h.listed.mem_iff k stop).mp hmem
    rcases hstop with hstop | hstop
    · exact hstop hvalid
    · rw [hstop] at hfree
      exact initPage_ne_free hfree
  · -- no free block ends at `start`: the page before is reserved or out of range
    obtain ⟨hvalid, hhead, hfree⟩ := h.of_mem (p := q) (k := k) hmem
    have hpos := Nat.two_pow_pos k
    rcases hbehind with hmin | hbehind
    · have := hvalid.1
      omega
    · have hlast : start - 1 ∈ block q k := ⟨by omega, by omega⟩
      rcases eq_or_ne (start - 1) q with heq | hne
      · rw [heq, hfree] at hbehind
        exact absurd hbehind.symm initPage_ne_free
      · have := (h.tiled.interior q k hvalid hhead _ hlast hne).1
        rw [hbehind] at this
        exact absurd this initPage_ne_clean

theorem pfn_lt_pfnUp {a b : ℕ} (h : a < b) : a >>> pageShift < pfnUp b := by
  rw [pfnUp, pageSize, Nat.and_two_pow_sub_one_eq_mod, Nat.shiftRight_eq_div_pow,
    Nat.shiftRight_eq_div_pow]
  have hpos := Nat.two_pow_pos pageShift
  generalize 2 ^ pageShift = d at *
  have hle : a / d ≤ b / d := Nat.div_le_div_right h.le
  split_ifs with hmod
  · rwa [Nat.add_zero, Nat.div_lt_iff_lt_mul hpos, Nat.div_mul_cancel (Nat.dvd_of_mod_eq_zero hmod)]
  · omega

/-- What holds between two turns of the loop of `buddy_init`. -/
structure InitInv (m : Mem) (s : State) (start : ℕ) : Prop where
  wf : Wf m s ∅
  ge : m.minPfn ≤ start
  le : start ≤ m.maxPfn
  ahead : ∀ p, start ≤ p → s.page p = initPage
  behind : start ≤ m.minPfn ∨ s.page (start - 1) = initPage

theorem wf_initState : Wf m initState ∅ where
  tiled := ⟨fun p hp => absurd hp (Set.notMem_empty p), fun p k _ hk => absurd hk not_head_init,
    fun p k _ hk => absurd hk not_head_init, fun p _ => .inr (.inl rfl)⟩
  listed := ⟨fun k p => by simp [initState, initPage_ne_free], fun k => List.nodup_nil,
    fun k => rfl⟩
  coalesced := fun k p _ hmem => absurd hmem List.not_mem_nil

theorem InitInv.initLoop (h : InitInv m s start) (rs : List Memblock.Region) :
    InitInv m (initLoop m rs s start).1 (initLoop m rs s start).2 := by
  induction rs generalizing s start with
  | nil => exact h
  | cons r rs ih =>
    have hlast : r.base >>> pageShift < pfnUp r.stop :=
      pfn_lt_pfnUp (Nat.lt_add_of_pos_right r.size_pos)
    rw [Buddy.initLoop]
    generalize r.base >>> pageShift = first at *
    generalize pfnUp r.stop = last at *
    dsimp only
    split_ifs with hpassed hbeyond hgap
    · exact ih h
    · exact h
    · have hout : ∀ p, first ≤ p → (releaseRange m s start first).page p = initPage := by
        intro p hp
        rw [releaseRange_page_of_notMem (by omega)]
        exact h.ahead p (by omega)
      refine ih ⟨?_, ?_, ?_, ?_, ?_⟩
      · refine h.wf.releaseRange (fun p hle hlt => ?_) (.inr (h.ahead first hgap.le)) h.behind
        exact ⟨⟨h.ge.trans hle, by omega⟩, h.ahead p hle⟩
      · have := h.ge
        have := m.pfn_lt
        omega
      · exact min_le_right _ _
      · intro p hp
        exact hout p (by omega)
      · exact .inr (hout _ (by omega))
    · have hge := h.ge
      have hle := h.le
      refine ih ⟨h.wf, by omega, min_le_right _ _, fun p hp => h.ahead p (by omega), ?_⟩
      rcases Nat.lt_or_ge start (min last m.maxPfn) with hlt | hge
      · exact .inr (h.ahead _ (by omega))
      · rw [show min last m.maxPfn = start by omega]
        exact h.behind

/-- `buddy_init` establishes the invariant from any table of reservations. -/
theorem wf_buddyInit (m : Mem) (mb : Memblock) : Wf m (buddyInit m mb) ∅ := by
  have hinit : InitInv m initState m.minPfn :=
    ⟨wf_initState, le_rfl, m.pfn_lt.le, fun _ _ => rfl, .inl le_rfl⟩
  have h := hinit.initLoop mb.reserved
  refine h.wf.releaseRange (fun p hle hlt => ⟨⟨h.ge.trans hle, hlt⟩, h.ahead p hle⟩) ?_ h.behind
  exact .inl fun hvalid => lt_irrefl _ hvalid.2

end Nuvix.Buddy
