import Nuvix.Mm.AddressSpace

/-!
# What `munmap` and `mprotect` do to each address

An address has an attribute: none if it is not mapped, otherwise the flags of its VMA and where its
first contents come from, which is a position of a file or zeros. Splitting a VMA changes no
attribute. So the range operations are described address by address, whatever VMAs the range cuts,
covers or misses.
-/

namespace Nuvix

open SearchTree

/-- The flags of a VMA, and where a page of it gets the byte at an address from. -/
def Vma.attr (v : Vma) (a : ℕ) : VmFlags × Option (ℕ × ℕ) := (v.flags, v.filePos a)

/-- The attribute of an address. -/
def attr (t : Bst Vma) (a : ℕ) : Option (VmFlags × Option (ℕ × ℕ)) :=
  (vmaFind t a).map fun v => v.attr a

variable {rb : Rebalance Vma} {t t' t'' : Bst Vma} {v w : Vma} {a pos mid start stop : ℕ}
  {flags : VmFlags} {ok : ℕ → Bool}

theorem attr_of_mem (h : TreeOk t) (hv : v ∈ t.toList) (ha : v.Covers a) :
    attr t a = some (v.attr a) := by
  rw [attr, (vmaFind_eq_some_iff h).mpr ⟨hv, ha⟩]
  rfl

theorem attr_eq_none_iff (h : TreeOk t) : attr t a = none ↔ ∀ v ∈ t.toList, ¬ v.Covers a := by
  constructor
  · intro hnone v hv ha
    rw [attr_of_mem h hv ha] at hnone
    cases hnone
  · intro hfree
    unfold attr
    cases hfind : vmaFind t a with
    | none => rfl
    | some v =>
      obtain ⟨hv, ha⟩ := vmaFind_eq_some hfind
      exact absurd ha (hfree v hv)

/-- Splits change no attribute. -/
theorem Refines.attr_eq (hr : Refines t' t) (h : TreeOk t) (h' : TreeOk t') (a : ℕ) :
    attr t' a = attr t a := by
  by_cases hnone : attr t' a = none
  · rw [hnone, eq_comm, attr_eq_none_iff h]
    intro v hv ha
    obtain ⟨w, hw, hwa⟩ := hr.cover v hv a ha
    exact (attr_eq_none_iff h').mp hnone w hw hwa
  · rw [attr_eq_none_iff h'] at hnone
    push Not at hnone
    obtain ⟨w, hw, hwa⟩ := hnone
    obtain ⟨v, hv, hle, hge, hflags, hpos⟩ := hr.part w hw
    rw [attr_of_mem h' hw hwa, attr_of_mem h hv ⟨hle.trans hwa.1, hwa.2.trans_le hge⟩]
    unfold Vma.attr
    rw [hflags, hpos a hwa]

/-! ### Unmapping -/

section

variable {ε : Type}

variable {pte : ℕ → Option ε}

/-- The page starts in the range. -/
def PageStarts (start stop page : ℕ) : Prop := start ≤ page * pageSize ∧ page * pageSize < stop

instance (start stop page : ℕ) : Decidable (PageStarts start stop page) :=
  inferInstanceAs (Decidable (_ ∧ _))

theorem clearPages_apply {turns addr : ℕ} (haddr : addr % pageSize = 0)
    (hturns : stop ≤ addr + turns) (page : ℕ) : clearPages stop turns addr pte page =
      if PageStarts addr stop page then none else pte page := by
  obtain ⟨k, rfl⟩ : ∃ k, addr = k * pageSize := ⟨addr / pageSize, by
    rw [Nat.div_mul_cancel (Nat.dvd_of_mod_eq_zero haddr)]⟩
  have hpos : 0 < pageSize := by decide
  have hstarts : ∀ k, PageStarts (k * pageSize) stop page ↔ k ≤ page ∧ page * pageSize < stop :=
    fun k => and_congr_left' (Nat.mul_le_mul_right_iff hpos)
  clear haddr
  induction turns generalizing k pte with
  | zero =>
    rw [if_neg fun h : PageStarts _ stop page => absurd (h.1.trans_lt h.2) (by omega)]
    rfl
  | succ turns ih =>
    have hnext : k * pageSize + pageSize = (k + 1) * pageSize := (Nat.succ_mul k pageSize).symm
    rw [clearPages]
    split
    next hlt =>
      rw [Nat.mul_div_cancel _ hpos, hnext, ih (k + 1) (by omega)]
      by_cases hself : page = k
      · subst hself
        rw [Function.update_self, if_pos ((hstarts page).mpr ⟨le_rfl, hlt⟩), ite_self]
      · rw [Function.update_of_ne hself]
        refine if_congr ?_ rfl rfl
        rw [hstarts, hstarts]
        omega
    next hge =>
      rw [if_neg fun h : PageStarts _ stop page => hge (h.1.trans_lt h.2)]

/-- The entries of VMAs that meet the range are gone. -/
theorem unmapLoop_snd (rb : Rebalance Vma) (pte : ℕ → Option ε) (start stop : ℕ) {fuel : ℕ}
    (h : TreeOk t) (hfuel : t.toList.length ≤ fuel) (page : ℕ) :
    ((∃ v ∈ t.toList, start < v.stop ∧ v.start < stop ∧ v.Covers (page * pageSize)) →
      (unmapLoop rb start stop fuel t pte).2 page = none) ∧
    ((∀ v ∈ t.toList, start < v.stop → v.start < stop → ¬ v.Covers (page * pageSize)) →
      (unmapLoop rb start stop fuel t pte).2 page = pte page) := by
  induction fuel generalizing t pte with
  | zero =>
    have hnil : t.toList = [] := List.length_eq_zero_iff.mp (Nat.le_zero.mp hfuel)
    refine ⟨?_, fun _ => rfl⟩
    rintro ⟨v, hv, -⟩
    rw [hnil] at hv
    cases hv
  | succ fuel ih =>
    rw [unmapLoop]
    cases hfound : vmaFindIntersection t start stop with
    | none =>
      refine ⟨?_, fun _ => rfl⟩
      rintro ⟨v, hv, hlt, hgt, -⟩
      exact absurd hlt (fun hlt => (vmaFindIntersection_eq_none h hfound v hv).elim
        (fun hle => absurd hlt (not_lt.mpr hle)) fun hle => absurd hgt (not_lt.mpr hle))
    | some v =>
      obtain ⟨hv, hlt, hgt⟩ := vmaFindIntersection_eq_some hfound
      have hlen : (rb.erase v t).toList.length ≤ fuel := by
        rw [rb.toList_erase, List.length_erase_of_mem hv]
        omega
      have hclear : clearPages v.stop (v.stop - v.start) v.start pte page =
          if PageStarts v.start v.stop page then none else pte page :=
        clearPages_apply (h.valid v hv).start_aligned (by omega) page
      obtain ⟨hgone, hkept⟩ := ih (t := rb.erase v t)
        (clearPages v.stop (v.stop - v.start) v.start pte) h.erase hlen
      dsimp only
      constructor
      · rintro ⟨w, hw, hwlt, hwgt, hcov⟩
        by_cases hwv : w = v
        · -- The entry is cleared in this turn, and no later turn writes it.
          subst hwv
          by_cases hagain : ∃ u ∈ (rb.erase w t).toList, start < u.stop ∧ u.start < stop ∧
              u.Covers (page * pageSize)
          · exact hgone hagain
          · push Not at hagain
            have hin : PageStarts w.start w.stop page := hcov
            rw [hkept hagain, hclear, if_pos hin]
        · exact hgone ⟨w, h.mem_erase.mpr ⟨hwv, hw⟩, hwlt, hwgt, hcov⟩
      · intro hfree
        have hnot : ¬ PageStarts v.start v.stop page := fun hin => hfree v hv hgt hlt hin
        rw [hkept fun w hw => hfree w (h.mem_erase.mp hw).2, hclear, if_neg hnot]

namespace MapState

variable {s s' : MapState ε}

/-- What unmapping leaves, address by address. An entry is removed with the VMA of its page. -/
structure Unmapped (start stop : ℕ) (s s' : MapState ε) : Prop where
  startBrk : s'.mm.startBrk = s.mm.startBrk
  brk : s'.mm.brk = s.mm.brk
  tree : TreeOk s'.mm.vmas
  parts : Parts (fun _ => False) s'.mm.vmas s.mm.vmas
  attr : ∀ a, Nuvix.attr s'.mm.vmas a =
    if start ≤ a ∧ a < stop then none else Nuvix.attr s.mm.vmas a
  gone : ∀ page, PageStarts start stop page → Nuvix.attr s.mm.vmas (page * pageSize) ≠ none →
    s'.pte page = none
  kept : ∀ page, (PageStarts start stop page → Nuvix.attr s.mm.vmas (page * pageSize) = none) →
    s'.pte page = s.pte page

/-- An entry that is left was there, and if its page was mapped it still is. -/
theorem Unmapped.entry {page : ℕ} {e : ε} (h : Unmapped start stop s s')
    (hpage : s'.pte page = some e) : s.pte page = some e ∧
      (Nuvix.attr s.mm.vmas (page * pageSize) ≠ none →
        Nuvix.attr s'.mm.vmas (page * pageSize) = Nuvix.attr s.mm.vmas (page * pageSize)) := by
  have hnot : ¬ (PageStarts start stop page ∧ Nuvix.attr s.mm.vmas (page * pageSize) ≠ none) := by
    rintro ⟨hin, hne⟩
    cases (h.gone page hin hne).symm.trans hpage
  push Not at hnot
  refine ⟨(h.kept page hnot).symm.trans hpage, fun hne => (h.attr _).trans (if_neg fun hin => ?_)⟩
  exact hne (hnot hin)

/-- A program on the VMAs leaves the rest. -/
theorem runs_onVmas {x : Prog (Bst Vma) Errno Unit} {Q : Bst Vma → Prop}
    {E : Errno → Bst Vma → Prop} (h : x.Runs s.mm.vmas (fun _ => Q) E) :
    (onVmas x).Runs s (fun _ s' => ∃ t, Q t ∧ s' = s.setVmas t)
      fun e s' => ∃ t, E e t ∧ s' = s.setVmas t :=
  .focus (h.mono (fun _ t ht => ⟨t, ht, rfl⟩) fun _ t ht => ⟨t, ht, rfl⟩)

/-- The loop of `unmap_range`, after the VMAs have been split at the ends of the range. -/
theorem unmapped_of_split (h : TreeOk s.mm.vmas) (h₁ : RangeSplit start stop s.mm.vmas t)
    (hr : unmapLoop rb start stop t.toList.length t s.pte = (t', pte)) :
    Unmapped start stop s ⟨⟨t', s.mm.startBrk, s.mm.brk⟩, pte⟩ := by
  obtain ⟨htree, hmem⟩ := unmapLoop_spec rb start stop s.pte h₁.tree le_rfl
  have hpages := unmapLoop_snd rb s.pte start stop h₁.tree le_rfl
  rw [hr] at htree hmem hpages
  dsimp only at htree hmem hpages
  have hattr := h₁.refines.attr_eq h h₁.tree
  -- A VMA that meets the range lies in it, since it extends over neither end.
  have hinside : ∀ v ∈ t.toList, start < v.stop → v.start < stop →
      start ≤ v.start ∧ v.stop ≤ stop := by
    intro v hv hgt hlt
    have hfirst := h₁.first v hv
    have hlast := h₁.last v hv
    omega
  refine ⟨rfl, rfl, htree, ?_, fun a => ?_, fun page hin hne => ?_, fun page hout => ?_⟩
  · exact Parts.trans (.of_subset fun w hw => ((hmem w).mp hw).1) h₁.refines.parts
  · rw [← hattr a]
    split
    next ha =>
      rw [attr_eq_none_iff htree]
      intro v hv hcov
      have hout := ((hmem v).mp hv).2
      have := hcov.1
      have := hcov.2
      omega
    next ha =>
      by_cases hnone : Nuvix.attr t a = none
      · rw [hnone, attr_eq_none_iff htree]
        exact fun v hv => (attr_eq_none_iff h₁.tree).mp hnone v ((hmem v).mp hv).1
      · rw [attr_eq_none_iff h₁.tree] at hnone
        push Not at hnone
        obtain ⟨v, hv, hcov⟩ := hnone
        have hout : v.stop ≤ start ∨ stop ≤ v.start := by
          by_contra hmeets
          have := hinside v hv (by omega) (by omega)
          have := hcov.1
          have := hcov.2
          omega
        rw [attr_of_mem htree ((hmem v).mpr ⟨hv, hout⟩) hcov, attr_of_mem h₁.tree hv hcov]
  · rw [← hattr, Ne, attr_eq_none_iff h₁.tree] at hne
    push Not at hne
    obtain ⟨v, hv, hcov⟩ := hne
    exact (hpages page).1 ⟨v, hv, hin.1.trans_lt hcov.2, hcov.1.trans_lt hin.2, hcov⟩
  · refine (hpages page).2 fun v hv hgt hlt hcov => ?_
    obtain ⟨hle, hge⟩ := hinside v hv hgt hlt
    have hnone := hout ⟨hle.trans hcov.1, hcov.2.trans_le hge⟩
    rw [← hattr] at hnone
    exact (attr_eq_none_iff h₁.tree).mp hnone v hv hcov

/-- `unmap_range` fails only for want of memory, before its first change. -/
theorem runs_unmapRange (h : TreeOk s.mm.vmas) (hlt : start < stop) (hstart : start % pageSize = 0)
    (hstop : stop % pageSize = 0) :
    (unmapRange rb ok start stop).Runs s (fun _ => Unmapped start stop s)
      fun e s' => s' = s ∧ NoMemory ok e := by
  refine .bind (runs_onVmas (runs_splitRange h hlt hstart hstop)) ?_ ?_
  · rintro _ _ ⟨t, ht, rfl⟩
    exact unmapped_of_split h ht rfl
  · rintro e _ ⟨t, ⟨rfl, hmem⟩, rfl⟩
    exact ⟨rfl, hmem⟩

end MapState

end

/-! ### Protecting -/

/-- Other flags, and the same source. -/
def recolor (flags : VmFlags) (b : VmFlags × Option (ℕ × ℕ)) : VmFlags × Option (ℕ × ℕ) :=
  (flags, b.2)

/-- Every address of the range is mapped and has got the flags, and nothing else has changed. -/
structure Protected (flags : VmFlags) (start stop : ℕ) (t t' : Bst Vma) : Prop where
  tree : TreeOk t'
  parts : Parts (· = flags) t' t
  mapped : ∀ a, start ≤ a → a < stop → attr t a ≠ none
  attr : ∀ a, Nuvix.attr t' a =
    if start ≤ a ∧ a < stop then (Nuvix.attr t a).map (recolor flags) else Nuvix.attr t a

theorem Protected.of_refines (h : TreeOk t) (h' : TreeOk t') (hr : Refines t' t) :
    Protected flags pos pos t t' :=
  ⟨h', hr.parts, fun a hle hlt => by omega, fun a => by rw [if_neg (by omega), hr.attr_eq h h']⟩

theorem Protected.trans (h : Protected flags pos mid t t') (h' : Protected flags mid stop t' t'')
    (hpos : pos ≤ mid) (hmid : mid ≤ stop) : Protected flags pos stop t t'' := by
  refine ⟨h'.tree, h'.parts.trans h.parts, ?_, ?_⟩
  · intro a hle hlt
    by_cases ha : a < mid
    · exact h.mapped a hle ha
    · have hmapped := h'.mapped a (by omega) hlt
      rwa [h.attr, if_neg (by omega)] at hmapped
  · intro a
    rw [h'.attr, h.attr]
    by_cases hlow : pos ≤ a ∧ a < mid
    · rw [if_pos hlow, if_neg (by omega), if_pos (by omega)]
    · rw [if_neg hlow]
      refine if_congr ?_ rfl rfl
      omega

/-- Setting the flags of one VMA. -/
theorem Protected.setFlags (h : TreeOk t) (hv : v ∈ t.toList) :
    Protected flags v.start v.stop t (setFlags v flags t) := by
  have h' := h.setFlags v flags
  refine ⟨h', parts_setFlags, ?_, ?_⟩
  · intro a hle hlt
    rw [attr_of_mem h hv ⟨hle, hlt⟩]
    nofun
  · intro a
    split
    next ha =>
      rw [attr_of_mem h hv ha, attr_of_mem h' (mem_setFlags_self hv) ha]
      rfl
    next ha =>
      by_cases hnone : Nuvix.attr t a = none
      · rw [hnone, attr_eq_none_iff h']
        intro w hw hcov
        rcases mem_setFlags hw with ⟨hw, -⟩ | ⟨-, rfl⟩
        · exact (attr_eq_none_iff h).mp hnone w hw hcov
        · exact ha hcov
      · rw [attr_eq_none_iff h] at hnone
        push Not at hnone
        obtain ⟨w, hw, hcov⟩ := hnone
        have hne : w ≠ v := by
          rintro rfl
          exact ha hcov
        rw [attr_of_mem h hw hcov, attr_of_mem h' (mem_setFlags_of_ne hw hne) hcov]

/-- No VMA extends over the end of another one. -/
theorem TreeOk.noCross_stop (h : TreeOk t) (hv : v ∈ t.toList) : NoCross v.stop t := by
  rintro w hw ⟨hlt, hgt⟩
  have hne := (h.valid v hv).nonempty
  have hwv : w = v := h.eq_of_meets hw hv hlt (by omega)
  rw [hwv] at hgt
  omega

theorem NoCross.setFlags {x : ℕ} (h : NoCross x t) : NoCross x (setFlags v flags t) := by
  intro w hw
  rcases mem_setFlags hw with ⟨hw, -⟩ | ⟨hv, rfl⟩
  · exact h w hw
  · exact h v hv

/-- The range was protected up to its first hole. -/
def ProtectedToHole (flags : VmFlags) (pos stop : ℕ) (t t' : Bst Vma) : Prop :=
  ∃ hole, pos ≤ hole ∧ hole < stop ∧ attr t hole = none ∧ Protected flags pos hole t t'

theorem Protected.toHole (h : Protected flags pos mid t t') (hpos : pos ≤ mid)
    (h' : ProtectedToHole flags mid stop t' t'') : ProtectedToHole flags pos stop t t'' := by
  obtain ⟨hole, hle, hlt, hnone, hprot⟩ := h'
  refine ⟨hole, hpos.trans hle, hlt, ?_, h.trans hprot hpos hle⟩
  rwa [h.attr, if_neg (by omega)] at hnone

theorem runs_protectLoop (fuel : ℕ) (h : TreeOk t) (hfuel : stop ≤ pos + fuel)
    (hle : pos ≤ stop) (hfirst : NoCross pos t) (hlast : NoCross stop t) :
    (protectLoop flags stop fuel pos).Runs t (fun _ => Protected flags pos stop t)
      fun e t' => e = .enomem ∧ ProtectedToHole flags pos stop t t' := by
  induction fuel generalizing t pos with
  | zero =>
    obtain rfl : pos = stop := by omega
    exact .pure (.of_refines h h (.refl t))
  | succ fuel ih =>
    rw [protectLoop]
    split_ifs with hlt
    · refine .get_bind ?_
      cases hfind : vmaFind t pos with
      | none =>
        refine .throw ⟨rfl, pos, le_rfl, hlt, ?_, .of_refines h h (.refl t)⟩
        rw [attr, hfind]
        rfl
      | some v =>
        obtain ⟨hv, hcov⟩ := vmaFind_eq_some hfind
        have hstart : v.start = pos := by
          have := hfirst v hv
          have := hcov.1
          have := hcov.2
          omega
        have hstop : v.stop ≤ stop := by
          have := hlast v hv
          omega
        have hprot : Protected flags pos v.stop t (setFlags v flags t) := hstart ▸ .setFlags h hv
        refine .modify_bind (Prog.Runs.mono (ih hprot.tree (by have := hcov.2; omega) hstop
          (h.noCross_stop hv).setFlags hlast.setFlags) (fun _ t' ht' => ?_) fun e t' ht' => ?_)
        · exact hprot.trans ht' hcov.2.le hstop
        · exact ⟨ht'.1, hprot.toHole hcov.2.le ht'.2⟩
    · obtain rfl : pos = stop := by omega
      exact .pure (.of_refines h h (.refl t))

/-- What protecting leaves, address by address. -/
theorem runs_protectRange (h : TreeOk t) (hlt : start < stop) (hstart : start % pageSize = 0)
    (hstop : stop % pageSize = 0) :
    (protectRange rb ok start stop flags).Runs t (fun _ => Protected flags start stop t)
      fun e t' => t' = t ∧ NoMemory ok e ∨ e = .enomem ∧ ProtectedToHole flags start stop t t' := by
  refine .bind (runs_splitRange h hlt hstart hstop) (fun _ t₁ h₁ => ?_) fun _ _ => .inl
  have hsplit : Protected flags start start t t₁ := .of_refines h h₁.tree h₁.refines
  refine (runs_protectLoop (stop - start) h₁.tree (by omega) hlt.le h₁.first h₁.last).mono
    (fun _ t' ht' => ?_) fun e t' ht' => ?_
  · exact hsplit.trans ht' le_rfl hlt.le
  · exact .inr ⟨ht'.1, hsplit.toHole le_rfl ht'.2⟩

/-- **Range operations.** For every well-formed tree and every aligned range whose pages have
entries only where there are VMAs. Without memory for the parts of a VMA nothing has changed. -/
theorem attr_of_rangeEdits {ε : Type} (rb : Rebalance Vma) (ok : ℕ → Bool) (flags : VmFlags)
    {s : MapState ε} (h : TreeOk s.mm.vmas) (hpte : ∀ page, PageStarts start stop page →
      (s.pte page).isSome → attr s.mm.vmas (page * pageSize) ≠ none)
    (hlt : start < stop) (hstart : start % pageSize = 0) (hstop : stop % pageSize = 0) :
    (MapState.unmapRange rb ok start stop).Runs s (fun _ s' => (∀ a, attr s'.mm.vmas a =
          if start ≤ a ∧ a < stop then none else attr s.mm.vmas a) ∧
        ∀ page, s'.pte page = if PageStarts start stop page then none else s.pte page)
      (fun e s' => s' = s ∧ NoMemory ok e) ∧ (protectRange rb ok start stop flags).Runs s.mm.vmas
      (fun _ => Protected flags start stop s.mm.vmas) fun e t => t = s.mm.vmas ∧ NoMemory ok e ∨
        e = .enomem ∧ ProtectedToHole flags start stop s.mm.vmas t := by
  refine ⟨(MapState.runs_unmapRange h hlt hstart hstop).mono (fun _ s' hs' => ?_) fun _ _ => id,
    runs_protectRange h hlt hstart hstop⟩
  refine ⟨hs'.attr, fun page => ?_⟩
  split_ifs with hin
  · by_cases hnone : attr s.mm.vmas (page * pageSize) = none
    · -- No VMA, so no entry either.
      rw [hs'.kept page fun _ => hnone]
      by_contra hne
      exact hpte page hin (Option.isSome_iff_ne_none.mpr hne) hnone
    · exact hs'.gone page hin hnone
  · exact hs'.kept page fun h => absurd h hin

/-- A VMA of four pages, backed by a file from within the first page to within the last one. -/
def fileVma : Vma := ⟨0x10000, 0x14000, { read := true }, some 7, 0x1000, 0x10100, 0x13200⟩

/-- A VMA of one page without a file. -/
def zeroVma : Vma := { start := 0x16000, stop := 0x17000, flags := { write := true } }

/-- The two VMAs, and the page of the trampoline. -/
def gapSpace : MapState Unit where
  mm := ⟨.node false .nil fileVma (.node true .nil zeroVma .nil), 0, 0⟩
  pte page := if page = userTrampoline / pageSize then some () else none

theorem treeOk_gapSpace : TreeOk gapSpace.mm.vmas := by
  refine ⟨by decide, fun v hv => ?_⟩
  rcases List.mem_pair.mp hv with rfl | rfl <;>
    exact ⟨by decide, by decide, by decide, by decide, by decide⟩

/-- The second page is unmapped; protecting from the fourth page on stops at the gap. -/
theorem attr_gapSpace :
    ((MapState.unmapRange Rebalance.plain (fun _ => true) 0x11000 0x12000).Runs gapSpace
      (fun _ s' => attr s'.mm.vmas 0x11fff = none ∧
        attr s'.mm.vmas 0x12000 = some ({ read := true }, some (7, 0x3000)))
      fun _ _ => False) ∧
    (protectRange Rebalance.plain (fun _ => true) 0x13000 0x18000 { exec := true }).Runs
      gapSpace.mm.vmas (fun _ _ => True)
      fun e t => e = .enomem ∧
        ProtectedToHole { exec := true } 0x13000 0x18000 gapSpace.mm.vmas t := by
  have hpages : ∀ start stop, stop ≤ ustackTop → ∀ page, PageStarts start stop page →
      (gapSpace.pte page).isSome → attr gapSpace.mm.vmas (page * pageSize) ≠ none := by
    intro start stop htop page hin hpage
    obtain rfl : page = userTrampoline / pageSize := by
      by_contra hne
      simp [gapSpace, hne] at hpage
    exact absurd (hin.2.trans_le htop) (by decide)
  constructor
  · have hunmap := (attr_of_rangeEdits Rebalance.plain (fun _ => true) { exec := true }
      treeOk_gapSpace (hpages 0x11000 0x12000 (by decide)) (by decide) (by decide) (by decide)).1
    refine hunmap.mono (fun _ s' hs' => ?_) fun e s' hs' => ?_
    · rw [hs'.1, hs'.1]
      exact ⟨by decide, by decide⟩
    · exact absurd hs'.2.2 (by decide)
  · have hprotect := (attr_of_rangeEdits Rebalance.plain (fun _ => true) { exec := true }
      treeOk_gapSpace (hpages 0x13000 0x18000 (by decide)) (by decide) (by decide) (by decide)).2
    refine hprotect.mono (fun _ _ _ => trivial) fun e t ht => ht.resolve_left ?_
    rintro ⟨-, -, hmem⟩
    exact absurd hmem (by decide)

end Nuvix
