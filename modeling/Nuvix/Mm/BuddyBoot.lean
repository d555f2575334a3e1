import Nuvix.Mm.BuddyTags

/-!
# The hand-over of memory at boot

`buddy_init` walks once over the reservations, which are sorted but may overlap, and releases
the gaps between them. Every page that no reservation meets lies in exactly one gap, so that it
is released once and counted once; no other page is.
-/

namespace Nuvix.Buddy

open Dyadic

variable {m : Mem} {s : State} {r : Memblock.Region} {rs : List Memblock.Region}
  {start x : ℕ}

/-! ### The pages that no reservation meets -/

instance : Decidable (Touches r x) := inferInstanceAs (Decidable (_ ∧ _))

/-- The pages from `start` on that no reservation meets. -/
def untouched (m : Mem) (rs : List Memblock.Region) (start : ℕ) : Finset ℕ :=
  (Finset.Ico start m.maxPfn).filter fun x => ∀ r ∈ rs, ¬ Touches r x

theorem mem_untouched : x ∈ untouched m rs start ↔
    (start ≤ x ∧ x < m.maxPfn) ∧ ∀ r ∈ rs, ¬ Touches r x := by
  rw [untouched, Finset.mem_filter, Finset.mem_Ico]

/-- Pages are rounded to so that a region touches those it has a byte in common with. -/
theorem touches_iff : Touches r x ↔ r.base < (x + 1) * pageSize ∧ x * pageSize < r.stop := by
  have hmod : r.stop &&& (pageSize - 1) = r.stop % 4096 := Nat.and_two_pow_sub_one_eq_mod _ 12
  have hsize : pageSize = 4096 := rfl
  have hdiv : ∀ a, a >>> pageShift = a / 4096 := fun a => Nat.shiftRight_eq_div_pow a 12
  rw [Touches, pfnUp, hmod, hdiv, hdiv, hsize]
  split_ifs <;> omega

section

variable (hsorted : (r :: rs).Pairwise fun r r' => r.base ≤ r'.base)
include hsorted

/-- In a sorted table no page before a region is met by a later one. -/
theorem not_touches_of_lt (hx : x < r.base >>> pageShift) : ∀ r' ∈ r :: rs, ¬ Touches r' x := by
  intro r' hr' htouch
  have hle : r.base ≤ r'.base := by
    rcases List.mem_cons.mp hr' with rfl | hr'
    · exact le_rfl
    · exact (List.pairwise_cons.mp hsorted).1 r' hr'
  have hfirst : r.base >>> pageShift ≤ r'.base >>> pageShift := by
    rw [Nat.shiftRight_eq_div_pow, Nat.shiftRight_eq_div_pow]
    exact Nat.div_le_div_right hle
  exact absurd (hfirst.trans htouch.1) (not_le.mpr hx)

omit hsorted in
/-- A region that was passed meets none of the pages left. -/
theorem untouched_passed (hlast : pfnUp r.stop ≤ start) :
    untouched m (r :: rs) start = untouched m rs start := by
  ext x
  rw [mem_untouched, mem_untouched, List.forall_mem_cons]
  refine and_congr_right fun hx => and_iff_right fun htouch => ?_
  exact absurd htouch.2 (not_lt.mpr (hlast.trans hx.1))

/-- Behind a region past the end of memory there is nothing to look for. -/
theorem untouched_beyond (hfirst : m.maxPfn ≤ r.base >>> pageShift) :
    untouched m (r :: rs) start = Finset.Ico start m.maxPfn := by
  ext x
  rw [mem_untouched, Finset.mem_Ico, and_iff_left_of_imp]
  exact fun hx => not_touches_of_lt hsorted (hx.2.trans_le hfirst)

/-- Any other region ends a gap, and the search goes on behind it. -/
theorem untouched_gap (hlast : start < pfnUp r.stop) (hfirst : r.base >>> pageShift < m.maxPfn) :
    untouched m (r :: rs) start = Finset.Ico start (r.base >>> pageShift) ∪
      untouched m rs (min (pfnUp r.stop) m.maxPfn) := by
  ext x
  rw [Finset.mem_union, mem_untouched, mem_untouched, Finset.mem_Ico]
  constructor
  · rintro ⟨hx, hall⟩
    obtain ⟨hr, hrest⟩ := List.forall_mem_cons.mp hall
    rcases Nat.lt_or_ge x (r.base >>> pageShift) with hlt | hge
    · exact .inl ⟨hx.1, hlt⟩
    · have hpast : pfnUp r.stop ≤ x := not_lt.mp fun hlt => hr ⟨hge, hlt⟩
      exact .inr ⟨⟨(min_le_left _ _).trans hpast, hx.2⟩, hrest⟩
  · rintro (⟨hx, hlt⟩ | ⟨hx, hrest⟩)
    · exact ⟨⟨hx, hlt.trans hfirst⟩, not_touches_of_lt hsorted hlt⟩
    · have hpast : pfnUp r.stop ≤ x := by omega
      refine ⟨⟨by omega, hx.2⟩, List.forall_mem_cons.mpr ⟨fun htouch => ?_, hrest⟩⟩
      exact absurd htouch.2 (not_lt.mpr hpast)

end

/-- `release_range` counts the pages of its range. -/
theorem releaseLoop_managed (turns stop : ℕ) :
    (releaseLoop m turns s start stop).managed = s.managed := by
  induction turns generalizing s start with
  | zero => rfl
  | succ turns ih =>
    rw [releaseLoop]
    split_ifs
    · exact ih
    · rfl

/-- The pages counted are those that no reservation meets, by induction on the turns. -/
theorem finishInit_managed (hsorted : rs.Pairwise fun r r' => r.base ≤ r'.base) :
    (finishInit m rs s start).managed = s.managed + (untouched m rs start).card := by
  have hrange : ∀ (s : State) first stop,
      (releaseRange m s first stop).managed = s.managed + (stop - first) :=
    fun _ _ _ => releaseLoop_managed _ _
  induction rs generalizing s start with
  | nil =>
    have hall : untouched m [] start = Finset.Ico start m.maxPfn := by
      ext x
      simp [untouched]
    rw [hall, Nat.card_Ico]
    exact hrange s start m.maxPfn
  | cons r rs ih =>
    have htail := (List.pairwise_cons.mp hsorted).2
    have hrest : ∀ s start, (finishInit m rs s start).managed =
        s.managed + (untouched m rs start).card := fun s start => ih htail
    unfold finishInit at hrest ⊢
    rw [initLoop]
    dsimp only
    split_ifs with hpassed hbeyond hgap
    · rw [hrest, untouched_passed hpassed]
    · rw [untouched_beyond hsorted hbeyond, Nat.card_Ico]
      exact hrange s start m.maxPfn
    · have hfirst := pfn_lt_pfnUp (Nat.lt_add_of_pos_right (n := r.base) r.size_pos)
      rw [hrest, hrange, untouched_gap hsorted (not_le.mp hpassed) (not_le.mp hbeyond),
        Finset.card_union_of_disjoint, Nat.card_Ico, Nat.add_assoc]
      refine Finset.disjoint_left.mpr fun x hx hrest => ?_
      rw [Finset.mem_Ico] at hx
      rw [mem_untouched] at hrest
      change r.base >>> pageShift < pfnUp r.stop at hfirst
      omega
    · rw [hrest, untouched_gap hsorted (not_le.mp hpassed) (not_le.mp hbeyond),
        Finset.Ico_eq_empty hgap, Finset.empty_union]

/-! ### What is released -/

theorem stable_unreserved : Stable fun pg => pg.flags.reserved = false :=
  ⟨fun _ _ => id, fun _ _ => rfl⟩

theorem releaseRange_reserved {stop : ℕ} (hx : start ≤ x ∧ x < stop) :
    ((releaseRange m s start stop).page x).flags.reserved = false := by
  apply stable_unreserved.releaseLoop
  rw [clearReserved]
  dsimp only
  rw [if_pos hx]

/-- What no reservation meets is released in some turn, and stays so. -/
theorem finishInit_reserved (hsorted : rs.Pairwise fun r r' => r.base ≤ r'.base)
    (hx : x ∈ untouched m rs start) :
    ((finishInit m rs s start).page x).flags.reserved = false := by
  induction rs generalizing s start with
  | nil => exact releaseRange_reserved (mem_untouched.mp hx).1
  | cons r rs ih =>
    have htail := (List.pairwise_cons.mp hsorted).2
    unfold finishInit
    rw [initLoop]
    dsimp only
    split_ifs with hpassed hbeyond hgap
    · rw [untouched_passed hpassed] at hx
      exact ih htail hx
    · exact releaseRange_reserved (mem_untouched.mp hx).1
    · rw [untouched_gap hsorted (not_le.mp hpassed) (not_le.mp hbeyond), Finset.mem_union] at hx
      rcases hx with hx | hx
      · exact stable_unreserved.finishInit rs _ (releaseRange_reserved (Finset.mem_Ico.mp hx))
      · exact ih htail hx
    · rw [untouched_gap hsorted (not_le.mp hpassed) (not_le.mp hbeyond),
        Finset.Ico_eq_empty hgap, Finset.empty_union] at hx
      exact ih htail hx

/-- Right after `buddy_init` a page is in a free block unless it is reserved. -/
theorem mem_freeBlock_iff (mb : Memblock) (hx : m.PfnValid x) :
    (∃ p k, FreeBlock m (buddyInit m mb) p k ∧ x ∈ block p k) ↔
      ((buddyInit m mb).page x).flags.reserved = false := by
  have hwf := wf_buddyInit m mb
  constructor
  · rintro ⟨p, k, hfree, hmem⟩
    exact hwf.reserved_eq_false_of_mem hfree.1 (hfree.head hwf) hmem
  · intro hres
    rcases hwf.tiled.cover x hx with hhole | hinit | ⟨q, k, hq, hk, hmem⟩
    · exact absurd hhole (Set.notMem_empty x)
    · rw [hinit] at hres
      cases hres
    · refine ⟨q, k, ⟨hq, ?_⟩, hmem⟩
      rcases hk.2 with hfree | ⟨refs, -, hlive⟩
      · rw [hfree]
        exact ⟨rfl, rfl⟩
      · -- nothing has been allocated yet
        have hnone := (fresh_buddyInit m mb q).1
        rw [hlive] at hnone
        cases hnone

/-- The inner loop of `release_range`, with `none` for a search that goes below order 0. -/
def orderSearch (start len : ℕ) : ℕ → Option ℕ
  | 0 => if start &&& (1 <<< 0 - 1) ≠ 0 ∨ 1 <<< 0 > len then none else some 0
  | order + 1 =>
    if start &&& (1 <<< (order + 1) - 1) ≠ 0 ∨ 1 <<< (order + 1) > len then
      orderSearch start len order
    else some (order + 1)

/-- The search ends at order 0 at the latest, where every page is a block. -/
theorem orderSearch_eq {len : ℕ} (hlen : 0 < len) (top : ℕ) :
    orderSearch start len top = some (fitOrder start len top) := by
  induction top with
  | zero =>
    refine if_neg ?_
    simp only [Nat.shiftLeft_zero, Nat.sub_self, Nat.and_zero]
    omega
  | succ top ih =>
    rw [orderSearch, fitOrder]
    split_ifs
    · exact ih
    · rfl

/-! ### The contract -/

/-- What `buddy_init` hands over. -/
structure HandedOver (m : Mem) (mb : Memblock) : Prop where
  free_iff : ∀ x, m.PfnValid x →
    ((∃ p k, FreeBlock m (buddyInit m mb) p k ∧ x ∈ block p k) ↔
      ∀ r ∈ mb.reserved, ¬ (r.base < (x + 1) * pageSize ∧ x * pageSize < r.stop))
  managed : (buddyInit m mb).managed = ((Finset.Ico m.minPfn m.maxPfn).filter fun x =>
    ∀ r ∈ mb.reserved, ¬ (r.base < (x + 1) * pageSize ∧ x * pageSize < r.stop)).card
  aligned : ∀ p k, FreeBlock m (buddyInit m mb) p k →
    k < m.maxOrder ∧ 2 ^ k ∣ p ∧ m.minPfn ≤ p ∧ p + 2 ^ k ≤ m.maxPfn
  coalesced : ∀ p k, k + 1 < m.maxOrder → FreeBlock m (buddyInit m mb) p k →
    ¬ FreeBlock m (buddyInit m mb) (p ^^^ 2 ^ k) k
  /-- The search for an order ends wherever `release_range` starts it. -/
  search : ∀ start stop, start < stop → orderSearch start (stop - start) (m.maxOrder - 1) =
    some (fitOrder start (stop - start) (m.maxOrder - 1))

/-- **The hand-over.** -/
theorem handedOver_buddyInit (m : Mem) (mb : Memblock) : HandedOver m mb where
  free_iff := by
    intro x hx
    rw [mem_freeBlock_iff mb hx]
    simp only [← touches_iff]
    constructor
    · intro hres r hr htouch
      rw [buddyInit_page_of_reserved hr htouch] at hres
      cases hres
    · exact fun hall => finishInit_reserved mb.sorted (mem_untouched.mpr ⟨hx, hall⟩)
  managed := by
    simp only [← touches_iff]
    exact (finishInit_managed mb.sorted).trans (Nat.zero_add _)
  aligned := (wf_buddyInit m mb).partitioned.free_fits
  coalesced := (wf_buddyInit m mb).partitioned.coalesced
  search := fun _ _ hlt => orderSearch_eq (Nat.sub_pos_of_lt hlt) _

end Nuvix.Buddy
