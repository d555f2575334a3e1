import Nuvix.Mm.Vma

/-!
# The order of the VMAs

The VMAs of a tree are valid, disjoint, and in the order of the tree. Lookups then
find exactly the VMA that covers an address, insertion succeeds exactly for a valid
range that is free, and splitting never fails. What a tree says about an address
(the permissions and the place in a file) does not change when VMAs are split.
-/

namespace Nuvix

open SearchTree

/-- The conditions `vma_insert` puts on a VMA. -/
structure Vma.Valid (v : Vma) : Prop where
  lower : uvaddrStart ≤ v.start
  upper : v.stop ≤ uvaddrEnd
  nonempty : v.start < v.stop
  start_aligned : v.start % pageSize = 0
  stop_aligned : v.stop % pageSize = 0

/-- The address lies in the VMA. -/
def Vma.Covers (v : Vma) (a : ℕ) : Prop := v.start ≤ a ∧ a < v.stop

/-- The file and the position in it from which a fault at `a` reads. -/
def Vma.filePos (v : Vma) (a : ℕ) : Option (ℕ × ℕ) :=
  match v.file with
  | none => none
  | some f => if v.fstart ≤ a ∧ a < v.fend then some (f, v.offset + (a - v.start)) else none

/-- The VMA has an address in `[start, stop)`. -/
def Vma.Meets (v : Vma) (start stop : ℕ) : Prop := v.start < stop ∧ start < v.stop

/-- The VMAs of the tree are not empty, disjoint and in the order of the tree. -/
structure VmaOrdered (t : Bst Vma) : Prop where
  ordered : t.toList.Pairwise fun v w => v.stop ≤ w.start
  nonempty : ∀ v ∈ t.toList, v.start < v.stop

/-- The VMAs of the tree are valid, disjoint and in the order of the tree. -/
structure TreeOk (t : Bst Vma) : Prop where
  ordered : t.toList.Pairwise fun v w => v.stop ≤ w.start
  valid : ∀ v ∈ t.toList, v.Valid

variable {rb : Rebalance Vma} {t t' t'' : Bst Vma} {v w : Vma} {a start stop addr : ℕ}
  {flags : VmFlags} {ok : ℕ → Bool} {x : ℕ} {E : Errno → Bst Vma → Prop}

theorem TreeOk.nil : TreeOk .nil := ⟨List.Pairwise.nil, nofun⟩

theorem TreeOk.inOrder (h : TreeOk t) : VmaOrdered t :=
  ⟨h.ordered, fun v hv => (h.valid v hv).nonempty⟩

/-- What holds of two VMAs in order holds along the tree. -/
theorem VmaOrdered.pairwise (h : VmaOrdered t) {R : Vma → Vma → Prop}
    (hR : ∀ v w, v.start < v.stop → w.start < w.stop → v.stop ≤ w.start → R v w) :
    t.toList.Pairwise R :=
  List.Pairwise.imp_of_mem (fun hv hw => hR _ _ (h.nonempty _ hv) (h.nonempty _ hw)) h.ordered

/-- Two VMAs that meet are one. -/
theorem VmaOrdered.eq_of_meets (h : VmaOrdered t) (hv : v ∈ t.toList) (hw : w ∈ t.toList)
    (hvw : v.Meets w.start w.stop) : v = w := by
  by_contra hne
  have hsym : t.toList.Pairwise fun v w => v.stop ≤ w.start ∨ w.stop ≤ v.start :=
    h.ordered.imp .inl
  have : Std.Symm fun v w : Vma => v.stop ≤ w.start ∨ w.stop ≤ v.start := ⟨fun _ _ => Or.symm⟩
  have hor := hsym.forall hv hw hne
  have hmeets : v.start < w.stop ∧ w.start < v.stop := hvw
  omega

theorem VmaOrdered.eq_of_covers (h : VmaOrdered t) (hv : v ∈ t.toList) (hw : w ∈ t.toList)
    (hva : v.Covers a) (hwa : w.Covers a) : v = w :=
  h.eq_of_meets hv hw ⟨hva.1.trans_lt hwa.2, hwa.1.trans_lt hva.2⟩

@[inherit_doc VmaOrdered.eq_of_meets]
theorem TreeOk.eq_of_meets (h : TreeOk t) (hv : v ∈ t.toList) (hw : w ∈ t.toList)
    (hvw : v.start < w.stop) (hwv : w.start < v.stop) : v = w :=
  h.inOrder.eq_of_meets hv hw ⟨hvw, hwv⟩

theorem TreeOk.eq_of_covers (h : TreeOk t) (hv : v ∈ t.toList) (hw : w ∈ t.toList)
    (hva : v.Covers a) (hwa : w.Covers a) : v = w :=
  h.inOrder.eq_of_covers hv hw hva hwa

theorem TreeOk.nodup (h : TreeOk t) : t.toList.Nodup := by
  refine h.inOrder.pairwise fun v w hv _ hle => ?_
  rintro rfl
  exact absurd hv (Nat.not_lt.mpr hle)

/-! ### Lookups -/

theorem vmaFind_eq_some (h : vmaFind t a = some v) : v ∈ t.toList ∧ v.Covers a := by
  obtain ⟨hmem, hside⟩ := Bst.search_eq_some h
  split_ifs at hside with hlt hge
  exact ⟨hmem, Nat.le_of_not_lt hlt, Nat.lt_of_not_ge hge⟩

theorem vmaFind_eq_none (h : VmaOrdered t) (hnone : vmaFind t a = none) :
    ∀ v ∈ t.toList, ¬ v.Covers a := by
  have hdir : Directed (fun v : Vma => if a < v.start then .lt else if a ≥ v.stop then .gt else .eq)
      t.toList := by
    refine h.pairwise fun v w hv hw hle => ?_
    dsimp only
    constructor <;> intro hside <;> split_ifs at hside ⊢ <;> first | rfl | omega
  intro v hv hcov
  apply Bst.search_eq_none hdir hnone v hv
  rw [if_neg (Nat.not_lt.mpr hcov.1), if_neg (Nat.not_le.mpr hcov.2)]

/-- `vma_find` finds the VMA that contains the address. -/
theorem VmaOrdered.find_iff (h : VmaOrdered t) :
    vmaFind t a = some v ↔ v ∈ t.toList ∧ v.Covers a := by
  constructor
  · exact vmaFind_eq_some
  · rintro ⟨hmem, hcov⟩
    cases hfind : vmaFind t a with
    | none => exact absurd hcov (vmaFind_eq_none h hfind v hmem)
    | some w =>
      obtain ⟨hw, hwcov⟩ := vmaFind_eq_some hfind
      rw [h.eq_of_covers hmem hw hcov hwcov]

theorem vmaFind_eq_some_iff (h : TreeOk t) : vmaFind t a = some v ↔ v ∈ t.toList ∧ v.Covers a :=
  h.inOrder.find_iff

theorem vmaFindIntersection_eq_some (h : vmaFindIntersection t start stop = some v) :
    v ∈ t.toList ∧ v.start < stop ∧ start < v.stop := by
  rcases Bst.searchFirst_eq_some h with ⟨hmem, hbelow, hhit⟩ | hnone
  · exact ⟨hmem, of_decide_eq_true hhit, Nat.lt_of_not_le (of_decide_eq_false hbelow)⟩
  · cases hnone

/-- `vma_find_intersection` finds the first VMA, in the order of the tree, that meets the range. -/
theorem VmaOrdered.findIntersection_eq (h : VmaOrdered t) (start stop : ℕ) :
    vmaFindIntersection t start stop =
      t.toList.find? fun v => !decide (start ≥ v.stop) && decide (v.start < stop) := by
  rw [vmaFindIntersection, Bst.searchFirst_eq_find, Option.or_none]
  refine h.pairwise fun v w hv hw hle => ?_
  simp only [decide_eq_true_eq]
  omega

theorem VmaOrdered.findIntersection_eq_none_iff (h : VmaOrdered t) (start stop : ℕ) :
    vmaFindIntersection t start stop = none ↔ ∀ v ∈ t.toList, v.stop ≤ start ∨ stop ≤ v.start := by
  rw [h.findIntersection_eq, List.find?_eq_none]
  refine forall₂_congr fun v _ => ?_
  simp only [Bool.and_eq_true, Bool.not_eq_true', decide_eq_false_iff_not, decide_eq_true_eq]
  omega

/-- Nothing is found only in a free range. -/
theorem vmaFindIntersection_eq_none (h : TreeOk t)
    (hnone : vmaFindIntersection t start stop = none) :
    ∀ v ∈ t.toList, v.stop ≤ start ∨ stop ≤ v.start :=
  (h.inOrder.findIntersection_eq_none_iff start stop).mp hnone

/-! ### Insertion and removal -/

theorem TreeOk.erase (h : TreeOk t) : TreeOk (rb.erase v t) := by
  constructor
  · rw [rb.toList_erase]
    exact h.ordered.sublist List.erase_sublist
  · intro w hw
    rw [rb.toList_erase] at hw
    exact h.valid w (List.mem_of_mem_erase hw)

theorem TreeOk.mem_erase (h : TreeOk t) : w ∈ (rb.erase v t).toList ↔ w ≠ v ∧ w ∈ t.toList := by
  rw [rb.toList_erase, h.nodup.mem_erase_iff]

/-- `vma_insert` finds nothing wrong with the VMA and its `vm_flags`. -/
def Vma.Accepted (v : Vma) (word : ℕ) : Prop := v.Valid ∧ ¬ bitsOutside word vmAccess

theorem Vma.Valid.accepted (h : v.Valid) : v.Accepted v.flags.word := by
  refine ⟨h, ?_⟩
  obtain ⟨read, write, exec⟩ := v.flags
  cases read <;> cases write <;> cases exec <;> decide

/-- `vma_insert` refuses an invalid VMA, then one that meets a VMA of the tree; any other is put
behind the VMAs that end before it. -/
theorem VmaOrdered.insert_cases (rb : Rebalance Vma) (h : VmaOrdered t) (v : Vma) (word : ℕ) :
    (¬ v.Accepted word ∧ vmaInsertWord rb t v word = .error .einval) ∨
      (v.Accepted word ∧ (∃ w ∈ t.toList, w.Meets v.start v.stop) ∧
        vmaInsertWord rb t v word = .error .eexist) ∨
      v.Accepted word ∧ ∃ t' xs ys, vmaInsertWord rb t v word = .ok t' ∧ t.toList = xs ++ ys ∧
        t'.toList = xs ++ v :: ys ∧ (∀ w ∈ xs, w.stop ≤ v.start) ∧ ∀ w ∈ ys, v.stop ≤ w.start := by
  unfold vmaInsertWord
  split_ifs with hinval
  · refine .inl ⟨?_, rfl⟩
    rintro ⟨hv, hword⟩
    have := hv.lower
    have := hv.upper
    have := hv.nonempty
    have := hv.start_aligned
    have := hv.stop_aligned
    rcases hinval with h | h | h | h | h | h <;> first | omega | exact hword h
  push Not at hinval
  obtain ⟨hlower, hupper, hnonempty, hstart, hstop, hword⟩ := hinval
  have hvalid : v.Accepted word := ⟨⟨hlower, hupper, hnonempty, hstart, hstop⟩, hword⟩
  have hdir : Directed v.side t.toList := by
    refine h.pairwise fun u w hu hw hle => ?_
    simp only [Vma.side]
    constructor <;> intro hside <;> split_ifs at hside ⊢ <;> first | rfl | omega
  right
  rcases Bst.link_spec v hdir with
    ⟨hnone, w, hw, hside⟩ | ⟨t₁, xs, ys, hsome, hlist, hlist', hxs, hys⟩
  · unfold Vma.side at hside
    split_ifs at hside with hlt hge
    refine .inl ⟨hvalid, ⟨w, hw, Nat.lt_of_not_le hlt, Nat.lt_of_not_le hge⟩, ?_⟩
    rw [hnone]
  · refine .inr ⟨hvalid, rb.insertColor v t₁, xs, ys, ?_, hlist, ?_, fun w hw => ?_, fun w hw => ?_⟩
    · rw [hsome]
    · rw [rb.toList_insertColor, hlist']
    · have hside := hxs w hw
      unfold Vma.side at hside
      split_ifs at hside with _ hge
      exact hge
    · have hside := hys w hw
      unfold Vma.side at hside
      split_ifs at hside with hle
      exact hle

/-- A VMA put in its place keeps the order. -/
theorem VmaOrdered.of_insert (h : VmaOrdered t) {xs ys : List Vma} (hv : v.start < v.stop)
    (hlist : t.toList = xs ++ ys) (hlist' : t'.toList = xs ++ v :: ys)
    (hxs : ∀ w ∈ xs, w.stop ≤ v.start) (hys : ∀ w ∈ ys, v.stop ≤ w.start) :
    VmaOrdered t' ∧ ∀ w, w ∈ t'.toList ↔ w = v ∨ w ∈ t.toList := by
  have hmem : ∀ w, w ∈ t'.toList ↔ w = v ∨ w ∈ t.toList := by
    intro w
    rw [hlist', hlist, List.mem_append, List.mem_cons, List.mem_append]
    exact or_left_comm
  refine ⟨⟨?_, fun w hw => ?_⟩, hmem⟩
  · have hord := h.ordered
    rw [hlist] at hord
    obtain ⟨hordx, hordy, hcross⟩ := List.pairwise_append.mp hord
    rw [hlist']
    refine List.pairwise_append.mpr
      ⟨hordx, List.pairwise_cons.mpr ⟨hys, hordy⟩, fun u hu w hw => ?_⟩
    rcases List.mem_cons.mp hw with rfl | hw
    · exact hxs u hu
    · exact hcross u hu w hw
  · rcases (hmem w).mp hw with rfl | hw
    · exact hv
    · exact h.nonempty w hw

/-- What a successful insertion has done. -/
theorem of_vmaInsert_eq_ok (h : TreeOk t) (hok : vmaInsert rb t v = .ok t') :
    v.Valid ∧ TreeOk t' ∧ ∀ w, w ∈ t'.toList ↔ w = v ∨ w ∈ t.toList := by
  unfold vmaInsert at hok
  rcases h.inOrder.insert_cases rb v v.flags.word with
    ⟨-, herr⟩ | ⟨-, -, herr⟩ | ⟨⟨hvalid, -⟩, t₁, xs, ys, hok₁, hlist, hlist', hxs, hys⟩
  · cases herr.symm.trans hok
  · cases herr.symm.trans hok
  · obtain rfl : t₁ = t' := Except.ok.inj (hok₁.symm.trans hok)
    obtain ⟨hord, hmem⟩ := h.inOrder.of_insert hvalid.nonempty hlist hlist' hxs hys
    refine ⟨hvalid, ⟨hord.ordered, fun w hw => ?_⟩, hmem⟩
    rcases (hmem w).mp hw with rfl | hw
    · exact hvalid
    · exact h.valid w hw

/-- A valid VMA whose range is free can be inserted. -/
theorem vmaInsert_ok (rb : Rebalance Vma) (h : TreeOk t) (hv : v.Valid)
    (hfree : ∀ w ∈ t.toList, w.stop ≤ v.start ∨ v.stop ≤ w.start) :
    ∃ t', vmaInsert rb t v = .ok t' := by
  rcases h.inOrder.insert_cases rb v v.flags.word with
    ⟨hinval, -⟩ | ⟨-, ⟨w, hw, hlt, hgt⟩, -⟩ | ⟨-, t', xs, ys, hok, -⟩
  · exact absurd hv.accepted hinval
  · have hside := hfree w hw
    omega
  · exact ⟨t', hok⟩

/-! ### What the calls return -/

/-- The VMA is the one that starts first among those that meet `[start, stop)`. -/
structure Vma.LowestMeeting (v : Vma) (t : Bst Vma) (start stop : ℕ) : Prop where
  mem : v ∈ t.toList
  meets : v.Meets start stop
  lowest : ∀ w ∈ t.toList, w.Meets start stop → v.start ≤ w.start

theorem VmaOrdered.lowest_of_findIntersection (h : VmaOrdered t)
    (hfound : vmaFindIntersection t start stop = some v) : v.LowestMeeting t start stop := by
  refine ⟨(vmaFindIntersection_eq_some hfound).1, (vmaFindIntersection_eq_some hfound).2, ?_⟩
  rw [h.findIntersection_eq] at hfound
  obtain ⟨-, xs, ys, hlist, hxs⟩ := List.find?_eq_some_iff_append.mp hfound
  have hord := h.ordered
  rw [hlist] at hord ⊢
  intro w hw ⟨hlt, hgt⟩
  rcases List.mem_append.mp hw with hw | hw
  · -- the search would have ended at a VMA before `v`
    have hmiss : w.stop ≤ start := by simpa [hlt] using hxs w hw
    omega
  · rcases List.mem_cons.mp hw with rfl | hw
    · exact le_rfl
    · have hle := (List.pairwise_cons.mp (List.pairwise_append.mp hord).2.1).1 w hw
      have hv := h.nonempty v (hlist ▸ List.mem_append_right _ List.mem_cons_self)
      omega

/-- What the calls that descend the tree return. A failing insertion gives no new tree: the old
one has not been touched. -/
structure LookupsOk (rb : Rebalance Vma) (t : Bst Vma) : Prop where
  find : ∀ a v, vmaFind t a = some v ↔ v ∈ t.toList ∧ v.Covers a
  first : ∀ start stop v, start < stop →
    (vmaFindIntersection t start stop = some v ↔ v.LowestMeeting t start stop)
  first_none : ∀ start stop, start < stop →
    (vmaFindIntersection t start stop = none ↔ ∀ v ∈ t.toList, ¬ v.Meets start stop)
  invalid : ∀ v word, vmaInsertWord rb t v word = .error .einval ↔ ¬ v.Accepted word
  busy : ∀ v word, v.Accepted word →
    (vmaInsertWord rb t v word = .error .eexist ↔ ∃ w ∈ t.toList, w.Meets v.start v.stop)
  free : ∀ v word, v.Accepted word → (∀ w ∈ t.toList, ¬ w.Meets v.start v.stop) →
    ∃ t', vmaInsertWord rb t v word = .ok t' ∧ VmaOrdered t' ∧
      ∀ w, w ∈ t'.toList ↔ w = v ∨ w ∈ t.toList

/-- Lookups and insertion do on every ordered tree what they are for: a descent along one path
misses nothing, since the VMAs off the path lie on the side that is left. -/
theorem lookupsOk_of_ordered (rb : Rebalance Vma) (h : VmaOrdered t) : LookupsOk rb t := by
  have hnone : ∀ start stop, vmaFindIntersection t start stop = none ↔
      ∀ v ∈ t.toList, ¬ v.Meets start stop := by
    intro start stop
    rw [h.findIntersection_eq_none_iff]
    refine forall₂_congr fun v _ => ?_
    rw [Vma.Meets]
    omega
  refine ⟨fun a v => h.find_iff, fun start stop v hlt => ?_, fun start stop _ => hnone start stop,
    fun v word => ?_, fun v word hv => ?_, fun v word hv hfree => ?_⟩
  · refine ⟨h.lowest_of_findIntersection, fun hv => ?_⟩
    cases hfound : vmaFindIntersection t start stop with
    | none => exact absurd hv.meets ((hnone start stop).mp hfound v hv.mem)
    | some u =>
      have hu := h.lowest_of_findIntersection hfound
      have huv := hu.lowest v hv.mem hv.meets
      have hvu := hv.lowest u hu.mem hu.meets
      have hstart := h.nonempty v hv.mem
      have hstart' := h.nonempty u hu.mem
      rw [h.eq_of_covers hu.mem hv.mem ⟨huv, by omega⟩ ⟨le_rfl, hstart⟩]
  · rcases h.insert_cases rb v word with ⟨hv, heq⟩ | ⟨hv, -, heq⟩ | ⟨hv, t', xs, ys, heq, -⟩ <;>
      simp [heq, hv]
  · rcases h.insert_cases rb v word with
      ⟨hinval, -⟩ | ⟨-, hmeets, heq⟩ | ⟨-, t', xs, ys, heq, hlist, -, hxs, hys⟩
    · exact absurd hv hinval
    · simp [heq, hmeets]
    · refine iff_of_false (by simp [heq]) ?_
      rintro ⟨w, hw, hlt, hgt⟩
      rw [hlist] at hw
      rcases List.mem_append.mp hw with hw | hw
      · exact absurd hgt (Nat.not_lt.mpr (hxs w hw))
      · exact absurd hlt (Nat.not_lt.mpr (hys w hw))
  · rcases h.insert_cases rb v word with
      ⟨hinval, -⟩ | ⟨-, ⟨w, hw, hmeets⟩, -⟩ | ⟨-, t', xs, ys, heq, hlist, hlist', hxs, hys⟩
    · exact absurd hv hinval
    · exact absurd hmeets (hfree w hw)
    · exact ⟨t', heq, h.of_insert hv.1.nonempty hlist hlist' hxs hys⟩

/-- A tree with two VMAs that touch. -/
def touchingTree : Bst Vma :=
  .node false (.node true .nil ⟨0x10000, 0x12000, {}, none, 0, 0, 0⟩ .nil)
    ⟨0x12000, 0x13000, {}, none, 0, 0, 0⟩ .nil

theorem lookupsOk_touchingTree :
    VmaOrdered touchingTree ∧ LookupsOk Rebalance.plain touchingTree := by
  have h : VmaOrdered touchingTree := ⟨by simp [touchingTree], by simp [touchingTree]⟩
  exact ⟨h, lookupsOk_of_ordered _ h⟩

/-- A VMA that is not aligned is refused as invalid, although it meets a VMA of the tree. -/
theorem unaligned_insert_einval :
    VmaOrdered touchingTree ∧ (∃ w ∈ touchingTree.toList, w.Meets 0x10800 0x11000) ∧
      vmaInsert Rebalance.plain touchingTree ⟨0x10800, 0x11000, {}, none, 0, 0, 0⟩ =
        .error .einval := by
  refine ⟨⟨by simp [touchingTree], by simp [touchingTree]⟩, ?_, by decide⟩
  exact ⟨⟨0x10000, 0x12000, {}, none, 0, 0, 0⟩, by decide, by decide, by decide⟩

/-! ### Splitting -/

/-- The VMAs of `t'` are parts of those of `t`, cover the same addresses, and say the
same about them. -/
structure Refines (t' t : Bst Vma) : Prop where
  part : ∀ w ∈ t'.toList, ∃ v ∈ t.toList, v.start ≤ w.start ∧ w.stop ≤ v.stop ∧
    w.flags = v.flags ∧ ∀ a, w.Covers a → w.filePos a = v.filePos a
  cover : ∀ v ∈ t.toList, ∀ a, v.Covers a → ∃ w ∈ t'.toList, w.Covers a

theorem Refines.refl (t : Bst Vma) : Refines t t :=
  ⟨fun w hw => ⟨w, hw, le_rfl, le_rfl, rfl, fun _ _ => rfl⟩, fun v hv _ ha => ⟨v, hv, ha⟩⟩

theorem Refines.trans (h : Refines t'' t') (h' : Refines t' t) : Refines t'' t := by
  constructor
  · intro w hw
    obtain ⟨v, hv, hstart, hstop, hflags, hpos⟩ := h.part w hw
    obtain ⟨u, hu, hstart', hstop', hflags', hpos'⟩ := h'.part v hv
    refine ⟨u, hu, hstart'.trans hstart, hstop.trans hstop', hflags.trans hflags', fun a ha => ?_⟩
    exact (hpos a ha).trans (hpos' a ⟨hstart.trans ha.1, ha.2.trans_le hstop⟩)
  · intro u hu a ha
    obtain ⟨v, hv, hva⟩ := h'.cover u hu a ha
    exact h.cover v hv a hva

/-- No VMA extends over `x`. -/
def NoCross (x : ℕ) (t : Bst Vma) : Prop := ∀ v ∈ t.toList, ¬ (v.start < x ∧ x < v.stop)

theorem Refines.noCross (h : Refines t' t) (hx : NoCross x t) : NoCross x t' := by
  intro w hw hcross
  obtain ⟨v, hv, hstart, hstop, -⟩ := h.part w hw
  exact hx v hv ⟨hstart.trans_lt hcross.1, hcross.2.trans_le hstop⟩

namespace Vma

@[simp] theorem leftPart_start : (v.leftPart addr).start = v.start := by
  unfold leftPart
  split <;> rfl

@[simp] theorem leftPart_stop : (v.leftPart addr).stop = addr := by
  unfold leftPart
  split <;> rfl

@[simp] theorem leftPart_flags : (v.leftPart addr).flags = v.flags := by
  unfold leftPart
  split <;> rfl

@[simp] theorem rightPart_start : (v.rightPart addr).start = addr := by
  unfold rightPart
  split <;> rfl

@[simp] theorem rightPart_stop : (v.rightPart addr).stop = v.stop := by
  unfold rightPart
  split <;> rfl

@[simp] theorem rightPart_flags : (v.rightPart addr).flags = v.flags := by
  unfold rightPart
  split <;> rfl

theorem leftPart_filePos (ha : a < addr) : (v.leftPart addr).filePos a = v.filePos a := by
  obtain ⟨start, stop, flags, file, offset, fstart, fend⟩ := v
  cases file with
  | none => rfl
  | some f =>
    have hiff : (min addr fstart ≤ a ∧ a < min addr fend) ↔ (fstart ≤ a ∧ a < fend) := by omega
    simp only [leftPart, filePos, hiff]

theorem rightPart_filePos (hstart : v.start ≤ addr) (ha : addr ≤ a) :
    (v.rightPart addr).filePos a = v.filePos a := by
  obtain ⟨start, stop, flags, file, offset, fstart, fend⟩ := v
  cases file with
  | none => rfl
  | some f =>
    have hiff : (max addr fstart ≤ a ∧ a < max addr fend) ↔ (fstart ≤ a ∧ a < fend) := by omega
    dsimp only at hstart
    have hpos : offset + (addr - start) + (a - addr) = offset + (a - start) := by omega
    simp only [rightPart, filePos, hiff, hpos]

end Vma

/-- A valid VMA is put in a free range. -/
theorem runs_mustInsert (h : TreeOk t) (hv : v.Valid)
    (hfree : ∀ w ∈ t.toList, w.stop ≤ v.start ∨ v.stop ≤ w.start) :
    (mustInsert rb v).Runs t (fun _ t' => TreeOk t' ∧ ∀ w, w ∈ t'.toList ↔ w = v ∨ w ∈ t.toList)
      E := by
  refine .must (.tryModify (fun t' hok => (of_vmaInsert_eq_ok h hok).2) fun e herr => ?_)
  obtain ⟨t', hok⟩ := vmaInsert_ok rb h hv hfree
  cases hok.symm.trans herr

/-- The split of a VMA in two never fails. -/
theorem runs_vmaSplit (h : TreeOk t) (hv : v ∈ t.toList) (hleft : v.start < addr)
    (hright : addr < v.stop) (haligned : addr % pageSize = 0) :
    (vmaSplit rb v addr).Runs t (fun _ t' => TreeOk t' ∧ ∀ w, w ∈ t'.toList ↔
      w = v.rightPart addr ∨ w = v.leftPart addr ∨ w ≠ v ∧ w ∈ t.toList) E := by
  have hvalid := h.valid v hv
  -- the other VMAs are off both parts
  have hother : ∀ w, w ≠ v ∧ w ∈ t.toList → w.stop ≤ v.start ∨ v.stop ≤ w.start := by
    rintro w ⟨hne, hw⟩
    by_contra hmeets
    exact hne (h.eq_of_meets hw hv (by omega) (by omega))
  have hlvalid : (v.leftPart addr).Valid := by
    refine ⟨?_, ?_, ?_, ?_, ?_⟩ <;> simp only [Vma.leftPart_start, Vma.leftPart_stop]
    · exact hvalid.lower
    · exact hright.le.trans hvalid.upper
    · exact hleft
    · exact hvalid.start_aligned
    · exact haligned
  have hrvalid : (v.rightPart addr).Valid := by
    refine ⟨?_, ?_, ?_, ?_, ?_⟩ <;> simp only [Vma.rightPart_start, Vma.rightPart_stop]
    · exact hvalid.lower.trans hleft.le
    · exact hvalid.upper
    · exact hright
    · exact haligned
    · exact hvalid.stop_aligned
  have herase : TreeOk (rb.erase v t) := h.erase
  refine .modify_bind (.bind (runs_mustInsert herase hlvalid fun w hw => ?_) ?_ fun _ _ => id)
  · have hw := hother w (h.mem_erase.mp hw)
    simp only [Vma.leftPart_start, Vma.leftPart_stop]
    omega
  rintro _ t₁ ⟨htree₁, hmem₁⟩
  simp only [h.mem_erase] at hmem₁
  refine (runs_mustInsert htree₁ hrvalid fun w hw => ?_).mono ?_ fun _ _ => id
  · simp only [Vma.rightPart_start, Vma.rightPart_stop]
    rcases (hmem₁ w).mp hw with rfl | hw
    · rw [Vma.leftPart_stop]
      exact .inl le_rfl
    · have hw := hother w hw
      omega
  · rintro _ t₂ ⟨htree₂, hmem₂⟩
    refine ⟨htree₂, fun w => ?_⟩
    rw [hmem₂, hmem₁]

/-- What a split at `x` leaves: nothing extends over `x`, and VMAs beyond `x` end
where they ended. -/
structure SplitAt (x : ℕ) (t t' : Bst Vma) : Prop where
  tree : TreeOk t'
  refines : Refines t' t
  noCross : NoCross x t'
  beyond : ∀ w ∈ t'.toList, ∀ a, x ≤ a → w.Covers a → ∃ v ∈ t.toList, v.Covers a ∧ v.stop = w.stop

theorem SplitAt.refl (h : TreeOk t) (hx : NoCross x t) : SplitAt x t t :=
  ⟨h, .refl t, hx, fun w hw _ _ ha => ⟨w, hw, ha, rfl⟩⟩

theorem vmaSplit_splitAt (h : TreeOk t) (hv : v ∈ t.toList) (hleft : v.start < addr)
    (hright : addr < v.stop) (haligned : addr % pageSize = 0) :
    (vmaSplit rb v addr).Runs t (fun _ => SplitAt addr t) E := by
  refine (runs_vmaSplit h hv hleft hright haligned).mono ?_ fun _ _ => id
  rintro _ t' ⟨htree, hmem⟩
  refine ⟨htree, ⟨fun w hw => ?_, fun u hu a ha => ?_⟩, fun w hw hcross => ?_,
    fun w hw a hxa ha => ?_⟩
  · rcases (hmem w).mp hw with rfl | rfl | ⟨-, hw⟩
    · refine ⟨v, hv, by simp [hleft.le], by simp, by simp, fun a ha => ?_⟩
      exact Vma.rightPart_filePos hleft.le (by simpa using ha.1)
    · refine ⟨v, hv, by simp, by simp [hright.le], by simp, fun a ha => ?_⟩
      exact Vma.leftPart_filePos (by simpa using ha.2)
    · exact ⟨w, hw, le_rfl, le_rfl, rfl, fun _ _ => rfl⟩
  · rcases eq_or_ne u v with rfl | hne
    · rcases Nat.lt_or_ge a addr with hlt | hge
      · exact ⟨u.leftPart addr, (hmem _).mpr (.inr (.inl rfl)), by simpa using ha.1, by simpa⟩
      · exact ⟨u.rightPart addr, (hmem _).mpr (.inl rfl), by simpa, by simpa using ha.2⟩
    · exact ⟨u, (hmem u).mpr (.inr (.inr ⟨hne, hu⟩)), ha⟩
  · rcases (hmem w).mp hw with rfl | rfl | ⟨hne, hw⟩
    · simp at hcross
    · simp at hcross
    · exact hne (h.eq_of_meets hw hv (by omega) (by omega))
  · rcases (hmem w).mp hw with rfl | rfl | ⟨-, hw⟩
    · exact ⟨v, hv, ⟨hleft.le.trans hxa, by simpa using ha.2⟩, by simp⟩
    · have hlt : a < addr := by simpa using ha.2
      omega
    · exact ⟨w, hw, ha, rfl⟩

/-! ### Ranges -/

/-- The VMA that `split_range` splits at the start of its range. -/
theorem splitFirst_eq_some (h : splitFirst t start = some v) :
    v ∈ t.toList ∧ v.start < start ∧ start < v.stop := by
  obtain ⟨hfind, hlt⟩ := Option.filter_eq_some_iff.mp h
  obtain ⟨hmem, hcov⟩ := vmaFind_eq_some hfind
  exact ⟨hmem, of_decide_eq_true hlt, hcov.2⟩

theorem splitFirst_eq_none (h : TreeOk t) (hnone : splitFirst t start = none) :
    NoCross start t := by
  rintro v hv ⟨hlt, hgt⟩
  have hfind : vmaFind t start = some v := (vmaFind_eq_some_iff h).mpr ⟨hv, hlt.le, hgt⟩
  simp only [splitFirst, hfind, Option.filter, hlt, decide_true] at hnone
  cases hnone

theorem splitLast_eq_some (h : splitLast t stop = some v) :
    v ∈ t.toList ∧ v.Covers (stop - 1) ∧ stop < v.stop := by
  obtain ⟨hfind, hlt⟩ := Option.filter_eq_some_iff.mp h
  obtain ⟨hmem, hcov⟩ := vmaFind_eq_some hfind
  exact ⟨hmem, hcov, of_decide_eq_true hlt⟩

theorem splitLast_eq_none (h : TreeOk t) (hnone : splitLast t stop = none) : NoCross stop t := by
  rintro v hv ⟨hlt, hgt⟩
  have hfind : vmaFind t (stop - 1) = some v :=
    (vmaFind_eq_some_iff h).mpr ⟨hv, by omega, by omega⟩
  simp only [splitLast, hfind, Option.filter, hgt, decide_true] at hnone
  cases hnone

/-- What `split_range` leaves: no VMA extends over an end of the range. -/
structure RangeSplit (start stop : ℕ) (t t' : Bst Vma) : Prop where
  tree : TreeOk t'
  refines : Refines t' t
  first : NoCross start t'
  last : NoCross stop t'

/-- The error of a call of `split_range` without memory. -/
def NoMemory (ok : ℕ → Bool) (e : Errno) : Prop := e = .enomem ∧ (ok 1 = false ∨ ok 2 = false)

/-- `split_range` on an aligned range: the assertions of `vma_split` hold, and it fails before its
first change. -/
theorem runs_splitRange (h : TreeOk t) (hlt : start < stop) (hstart : start % pageSize = 0)
    (hstop : stop % pageSize = 0) :
    (splitRange rb ok start stop).Runs t (fun _ => RangeSplit start stop t)
      fun e t' => t' = t ∧ NoMemory ok e := by
  refine .assert_bind ⟨hlt, hstart, hstop⟩ (.get_bind ?_)
  dsimp only
  split_ifs with hleft hright
  · exact .throw ⟨rfl, rfl, .inl hleft.2⟩
  · exact .throw ⟨rfl, rfl, .inr hright.2⟩
  have hfirst : (splitIf rb (splitFirst t start) start).Runs t (fun _ => SplitAt start t)
      fun e t' => t' = t ∧ NoMemory ok e := by
    cases hfound : splitFirst t start with
    | none => exact .pure (.refl h (splitFirst_eq_none h hfound))
    | some v =>
      obtain ⟨hmem, hleft, hright⟩ := splitFirst_eq_some hfound
      exact vmaSplit_splitAt h hmem hleft hright hstart
  refine .bind hfirst (fun _ t₁ h₁ => ?_) fun _ _ => id
  cases hfound : splitLast t stop with
  | none =>
    exact .pure ⟨h₁.tree, h₁.refines, h₁.noCross, h₁.refines.noCross (splitLast_eq_none h hfound)⟩
  | some v =>
    obtain ⟨hmem, hcov, hbeyond⟩ := splitLast_eq_some hfound
    obtain ⟨w, hw, hwcov⟩ := h₁.refines.cover v hmem (stop - 1) hcov
    have hfind : vmaFind t₁ (stop - 1) = some w := (vmaFind_eq_some_iff h₁.tree).mpr ⟨hw, hwcov⟩
    -- the VMA still ends beyond the range
    obtain ⟨u, hu, hucov, hustop⟩ := h₁.beyond w hw (stop - 1) (by omega) hwcov
    obtain rfl := h.eq_of_covers hu hmem hucov hcov
    have hleft : w.start < stop := hwcov.1.trans_lt (by omega)
    have hright : stop < w.stop := hbeyond.trans_eq hustop
    refine .get_bind ?_
    rw [hfind]
    refine (vmaSplit_splitAt h₁.tree hw hleft hright hstop).mono (fun _ t₂ h₂ => ?_) fun _ _ => id
    exact ⟨h₂.tree, h₂.refines.trans h₁.refines, h₂.refines.noCross h₁.noCross, h₂.noCross⟩

/-- The loop of `unmap_range` removes the VMAs that meet the range. -/
theorem unmapLoop_spec {ε : Type} (rb : Rebalance Vma) (start stop : ℕ) (pte : ℕ → Option ε)
    {fuel : ℕ} (h : TreeOk t) (hfuel : t.toList.length ≤ fuel) :
    TreeOk (unmapLoop rb start stop fuel t pte).1 ∧
      ∀ w, w ∈ (unmapLoop rb start stop fuel t pte).1.toList ↔
        w ∈ t.toList ∧ (w.stop ≤ start ∨ stop ≤ w.start) := by
  induction fuel generalizing t pte with
  | zero =>
    have hnil : t.toList = [] := List.length_eq_zero_iff.mp (Nat.le_zero.mp hfuel)
    exact ⟨h, by simp [unmapLoop, hnil]⟩
  | succ fuel ih =>
    simp only [unmapLoop]
    cases hfound : vmaFindIntersection t start stop with
    | none =>
      refine ⟨h, fun w => ?_⟩
      have hfree := vmaFindIntersection_eq_none h hfound w
      tauto
    | some v =>
      obtain ⟨hv, hlt, hgt⟩ := vmaFindIntersection_eq_some hfound
      have hlen : (rb.erase v t).toList.length ≤ fuel := by
        rw [rb.toList_erase, List.length_erase_of_mem hv]
        omega
      obtain ⟨htree, hmem⟩ := ih _ (t := rb.erase v t) h.erase hlen
      refine ⟨htree, fun w => ?_⟩
      rw [hmem, h.mem_erase]
      constructor
      · exact fun hw => ⟨hw.1.2, hw.2⟩
      · rintro ⟨hw, hout⟩
        refine ⟨⟨?_, hw⟩, hout⟩
        rintro rfl
        omega

/-- Every VMA of `t'` lies within one of `t` and has its flags, or flags that `new` allows. -/
def Parts (new : VmFlags → Prop) (t' t : Bst Vma) : Prop :=
  ∀ w ∈ t'.toList, ∃ v ∈ t.toList, v.start ≤ w.start ∧ w.stop ≤ v.stop ∧
    (w.flags = v.flags ∨ new w.flags)

section

variable {new : VmFlags → Prop}

theorem Parts.of_subset (h : ∀ w ∈ t'.toList, w ∈ t.toList) : Parts new t' t :=
  fun w hw => ⟨w, h w hw, le_rfl, le_rfl, .inl rfl⟩

theorem Parts.trans (h : Parts new t'' t') (h' : Parts new t' t) : Parts new t'' t := by
  intro w hw
  obtain ⟨v, hv, hstart, hstop, hflags⟩ := h w hw
  obtain ⟨u, hu, hstart', hstop', hflags'⟩ := h' v hv
  refine ⟨u, hu, hstart'.trans hstart, hstop.trans hstop', ?_⟩
  rcases hflags with heq | hnew
  · rwa [heq]
  · exact .inr hnew

theorem Refines.parts (h : Refines t' t) : Parts new t' t := by
  intro w hw
  obtain ⟨v, hv, hstart, hstop, hflags, -⟩ := h.part w hw
  exact ⟨v, hv, hstart, hstop, .inl hflags⟩

end

/-- A change in place that leaves all bounds. -/
theorem TreeOk.map {f : Vma → Vma} (h : TreeOk t) (hstart : ∀ w, (f w).start = w.start)
    (hstop : ∀ w, (f w).stop = w.stop) : TreeOk (t.map f) := by
  constructor
  · rw [Bst.toList_map, List.pairwise_map]
    refine h.ordered.imp fun {u w} hle => ?_
    rwa [hstart, hstop]
  · intro w hw
    rw [Bst.toList_map] at hw
    obtain ⟨u, hu, rfl⟩ := List.mem_map.mp hw
    have hvalid := h.valid u hu
    refine ⟨?_, ?_, ?_, ?_, ?_⟩ <;> simp only [hstart, hstop]
    · exact hvalid.lower
    · exact hvalid.upper
    · exact hvalid.nonempty
    · exact hvalid.start_aligned
    · exact hvalid.stop_aligned

/-- The VMAs after `vma->vm_flags` has been set. -/
theorem mem_setFlags (hw : w ∈ (setFlags v flags t).toList) :
    w ∈ t.toList ∧ w ≠ v ∨ v ∈ t.toList ∧ w = { v with flags } := by
  unfold setFlags at hw
  rw [Bst.toList_map] at hw
  obtain ⟨u, hu, rfl⟩ := List.mem_map.mp hw
  split_ifs with huv
  · exact .inr ⟨huv ▸ hu, by rw [huv]⟩
  · exact .inl ⟨hu, huv⟩

theorem mem_setFlags_of_ne (hw : w ∈ t.toList) (hne : w ≠ v) : w ∈ (setFlags v flags t).toList := by
  unfold setFlags
  rw [Bst.toList_map]
  exact List.mem_map.mpr ⟨w, hw, if_neg hne⟩

theorem mem_setFlags_self (hv : v ∈ t.toList) : { v with flags } ∈ (setFlags v flags t).toList := by
  unfold setFlags
  rw [Bst.toList_map]
  exact List.mem_map.mpr ⟨v, hv, if_pos rfl⟩

theorem TreeOk.setFlags (h : TreeOk t) (v : Vma) (flags : VmFlags) : TreeOk (setFlags v flags t) :=
  h.map (fun w => by split_ifs <;> rfl) fun w => by split_ifs <;> rfl

theorem parts_setFlags : Parts (· = flags) (setFlags v flags t) t := by
  intro w hw
  rcases mem_setFlags hw with ⟨hw, -⟩ | ⟨hv, rfl⟩
  · exact ⟨w, hw, le_rfl, le_rfl, .inl rfl⟩
  · exact ⟨v, hv, le_rfl, le_rfl, .inr rfl⟩

end Nuvix
