import Nuvix.Mm.Mmap
import Nuvix.Mm.VmaOrder

/-!
# The layout of an address space

Every call that changes an address space keeps its VMAs valid, disjoint and in the order of
the tree, away from the guard page below the stack and from the range above it.
-/

namespace Nuvix

open SearchTree

variable {cfg : MmConfig} {rb : Rebalance Vma} {ok : ℕ → Bool} {t t' : Bst Vma} {v : Vma}
  {mm mm' : Mm} {start stop len : ℕ} {vs : List Vma} {flags : VmFlags} {top addr : ℕ}

/-! ### The user half -/

theorem pageSize_eq : pageSize = 4096 := rfl

theorem uvaddrStart_eq : uvaddrStart = 65536 := rfl

theorem uvaddrEnd_eq : uvaddrEnd = 274877906944 := rfl

theorem ustackTop_eq : ustackTop = 274877898752 := rfl

/-- The stack and its guard page, in numbers. -/
theorem MmConfig.bottoms (cfg : MmConfig) :
    cfg.ustackBottom = 274877898752 - cfg.ustackPages * 4096 ∧
      cfg.guardBottom = 274877894656 - cfg.ustackPages * 4096 ∧ 1 ≤ cfg.ustackPages ∧
      cfg.ustackPages ≤ 256 := by
  have hrange := cfg.range
  have hbottom : cfg.ustackBottom = 274877898752 - cfg.ustackPages * 4096 := rfl
  have hguard : cfg.guardBottom = cfg.ustackBottom - 4096 := rfl
  omega

theorem alignUp_aligned (x : ℕ) : alignUp x pageSize % pageSize = 0 := Nat.mul_mod_left _ _

theorem alignDown_aligned (x : ℕ) : alignDown x pageSize % pageSize = 0 := Nat.mul_mod_left _ _

/-- `ALIGN_UP` to a page. -/
theorem alignUp_spec (x : ℕ) : x ≤ alignUp x pageSize ∧ alignUp x pageSize < x + pageSize := by
  simp only [alignUp, pageSize_eq]
  omega

theorem alignDown_le (x : ℕ) : alignDown x pageSize ≤ x := Nat.div_mul_le_self _ _

/-- Rounding up does not leave an aligned bound. -/
theorem alignUp_le {x bound : ℕ} (hx : x ≤ bound) (hbound : bound % pageSize = 0) :
    alignUp x pageSize ≤ bound := by
  simp only [alignUp, pageSize_eq] at *
  omega

theorem MmConfig.guardBottom_aligned (cfg : MmConfig) : cfg.guardBottom % pageSize = 0 := by
  have h := cfg.bottoms
  rw [pageSize_eq]
  omega

/-- The invariant of the layout of one address space. -/
structure LayoutOk (cfg : MmConfig) (mm : Mm) : Prop where
  tree : TreeOk mm.vmas
  guard : ∀ v ∈ mm.vmas.toList, v.stop ≤ cfg.guardBottom ∨ cfg.ustackBottom ≤ v.start
  top : ∀ v ∈ mm.vmas.toList, v.stop ≤ ustackTop

/-- A new tree whose VMAs are parts of old ones. -/
theorem LayoutOk.of_parts {new : VmFlags → Prop} {startBrk brk : ℕ} (h : LayoutOk cfg mm)
    (htree : TreeOk t) (hparts : Parts new t mm.vmas) : LayoutOk cfg ⟨t, startBrk, brk⟩ := by
  refine ⟨htree, fun w hw => ?_, fun w hw => ?_⟩
  · obtain ⟨v, hv, hstart, hstop, -⟩ := hparts w hw
    have hguard := h.guard v hv
    omega
  · obtain ⟨v, hv, -, hstop, -⟩ := hparts w hw
    exact hstop.trans (h.top v hv)

theorem layoutOk_mmAlloc : LayoutOk cfg mmAlloc := ⟨.nil, nofun, nofun⟩

/-! ### Choosing a range -/

/-- A range that `range_end` accepts. -/
theorem rangeEnd_eq_ok (h : rangeEnd cfg start len = .ok stop) :
    start < stop ∧ start % pageSize = 0 ∧ stop % pageSize = 0 ∧ rangeAllowed cfg start stop := by
  unfold rangeEnd at h
  dsimp only at h
  split_ifs at h with hstart hlen hmax hbound hallowed
  cases h
  have hup := alignUp_spec len
  have haligned := alignUp_aligned len
  generalize alignUp len pageSize = n at *
  rw [pageSize_eq] at *
  exact ⟨by omega, by omega, by omega, hallowed⟩

/-- The range of `len` bytes from `a` lies below `top` and meets none of the VMAs. -/
structure Hole (len top : ℕ) (vs : List Vma) (a : ℕ) : Prop where
  lower : uvaddrStart ≤ a
  upper : a + len ≤ top
  free : ∀ v ∈ vs, v.stop ≤ a ∨ a + len ≤ v.start

/-- The search from the top down finds the highest hole below `top`. The bound it carries
stays above `UVADDR_START`, so that no difference wraps around. -/
theorem findBelow_highest (len : ℕ) (hord : vs.Pairwise fun v w => w.stop ≤ v.start)
    (hvalid : ∀ v ∈ vs, v.Valid) (htop : uvaddrStart ≤ top) :
    (findBelow len top vs ≠ 0 → Hole len top vs (findBelow len top vs)) ∧
      ∀ a, Hole len top vs a → a ≤ findBelow len top vs := by
  induction vs generalizing top with
  | nil =>
    simp only [findBelow]
    split_ifs with hfits
    · exact ⟨fun _ => ⟨by omega, by omega, nofun⟩, fun a ha => Nat.le_sub_of_add_le ha.upper⟩
    · refine ⟨fun hne => absurd rfl hne, fun a ha => absurd ?_ hfits⟩
      have hlower := ha.lower
      have hupper := ha.upper
      omega
  | cons v vs ih =>
    obtain ⟨hv, hord⟩ := List.pairwise_cons.mp hord
    obtain ⟨hvvalid, hvalid⟩ := List.forall_mem_cons.mp hvalid
    have hvne := hvvalid.nonempty
    have hvlow := hvvalid.lower
    simp only [findBelow]
    split_ifs with habove hfits
    · obtain ⟨hhole, hhigh⟩ := ih hord hvalid htop
      refine ⟨fun hne => ?_, fun a ha => hhigh a ⟨ha.lower, ha.upper, ?_⟩⟩
      · have hfound := hhole hne
        refine ⟨hfound.lower, hfound.upper, List.forall_mem_cons.mpr ⟨.inr ?_, hfound.free⟩⟩
        exact hfound.upper.trans habove
      · exact (List.forall_mem_cons.mp ha.free).2
    · -- the gap below `top` is large enough
      refine ⟨fun _ => ⟨by omega, by omega, ?_⟩, fun a ha => Nat.le_sub_of_add_le ha.upper⟩
      refine List.forall_mem_cons.mpr ⟨.inl (by omega), fun w hw => .inl ?_⟩
      have hw := hv w hw
      omega
    · -- no hole lies above `v`
      obtain ⟨hhole, hhigh⟩ := ih hord hvalid hvlow
      refine ⟨fun hne => ?_, fun a ha => hhigh a ⟨ha.lower, ?_, ?_⟩⟩
      · have hfound := hhole hne
        have hupper := hfound.upper
        exact ⟨hfound.lower, by omega, List.forall_mem_cons.mpr ⟨.inr hupper, hfound.free⟩⟩
      · have hupper := ha.upper
        have hside := (List.forall_mem_cons.mp ha.free).1
        omega
      · exact (List.forall_mem_cons.mp ha.free).2

theorem findBelow_aligned (hvalid : ∀ v ∈ vs, v.Valid) (htop : top % pageSize = 0)
    (hlen : len % pageSize = 0) : findBelow len top vs % pageSize = 0 := by
  induction vs generalizing top with
  | nil =>
    simp only [findBelow, pageSize_eq] at *
    split_ifs <;> omega
  | cons v vs ih =>
    obtain ⟨hvvalid, hvalid⟩ := List.forall_mem_cons.mp hvalid
    simp only [findBelow]
    split_ifs with habove hfits
    · exact ih hvalid htop
    · rw [pageSize_eq] at *
      omega
    · exact ih hvalid hvvalid.start_aligned

/-- The range that begins at the rounded hint is allowed and meets no VMA. -/
def HintFits (cfg : MmConfig) (t : Bst Vma) (hint len : ℕ) : Prop :=
  rangeAllowed cfg (alignDown hint pageSize) (alignDown hint pageSize + len) ∧
    ∀ v ∈ t.toList, v.stop ≤ alignDown hint pageSize ∨ alignDown hint pageSize + len ≤ v.start

/-- `find_unmapped` takes the hint or searches. -/
theorem findUnmapped_eq (cfg : MmConfig) (h : TreeOk t) (hint len : ℕ) :
    (HintFits cfg t hint len → findUnmapped cfg t hint len = alignDown hint pageSize) ∧
      (¬ HintFits cfg t hint len →
        findUnmapped cfg t hint len = findBelow len cfg.guardBottom t.toList.reverse) := by
  have hiff := h.inOrder.findIntersection_eq_none_iff (alignDown hint pageSize)
    (alignDown hint pageSize + len)
  refine ⟨fun hfits => ?_, fun hfits => if_neg fun hcond => hfits ?_⟩
  · have hrange := hfits.1.1
    rw [ustackTop_eq] at hrange
    refine if_pos ⟨?_, ?_, hfits.1, hiff.mpr hfits.2⟩
    · rw [uvaddrEnd_eq]
      omega
    · rw [uvaddrEnd_eq]
      omega
  · exact ⟨hcond.2.2.1, hiff.mp hcond.2.2.2⟩

/-- The search meets the VMAs in falling order. -/
theorem TreeOk.falling (h : TreeOk t) :
    t.toList.reverse.Pairwise (fun v w => w.stop ≤ v.start) ∧ ∀ v ∈ t.toList.reverse, v.Valid :=
  ⟨List.pairwise_reverse.mpr h.ordered, fun v hv => h.valid v (List.mem_reverse.mp hv)⟩

theorem MmConfig.uvaddrStart_le_guardBottom (cfg : MmConfig) : uvaddrStart ≤ cfg.guardBottom := by
  have hcfg := cfg.bottoms
  rw [uvaddrStart_eq]
  omega

/-- The range `find_unmapped` returns is aligned, allowed and free. -/
theorem findUnmapped_spec {hint : ℕ} (h : LayoutOk cfg mm) (hlen : len % pageSize = 0)
    (hne : findUnmapped cfg mm.vmas hint len ≠ 0) :
    findUnmapped cfg mm.vmas hint len % pageSize = 0 ∧
      rangeAllowed cfg (findUnmapped cfg mm.vmas hint len)
        (findUnmapped cfg mm.vmas hint len + len) ∧
      ∀ v ∈ mm.vmas.toList, v.stop ≤ findUnmapped cfg mm.vmas hint len ∨
        findUnmapped cfg mm.vmas hint len + len ≤ v.start := by
  obtain ⟨htaken, hsearch⟩ := findUnmapped_eq cfg h.tree hint len
  obtain ⟨hord, hvalid⟩ := h.tree.falling
  by_cases hfits : HintFits cfg mm.vmas hint len
  · rw [htaken hfits]
    exact ⟨alignDown_aligned hint, hfits⟩
  · rw [hsearch hfits] at hne ⊢
    have hcfg := cfg.bottoms
    have hhole := (findBelow_highest len hord hvalid cfg.uvaddrStart_le_guardBottom).1 hne
    have hlower := hhole.lower
    have hupper := hhole.upper
    refine ⟨findBelow_aligned hvalid cfg.guardBottom_aligned hlen, ⟨?_, .inl hupper⟩, ?_⟩
    · rw [ustackTop_eq]
      omega
    · exact fun v hv => hhole.free v (List.mem_reverse.mpr hv)

/-- What `find_unmapped` returns when the hint cannot be used. -/
structure HighestHole (cfg : MmConfig) (t : Bst Vma) (len a : ℕ) : Prop where
  hole : a ≠ 0 → Hole len cfg.guardBottom t.toList a
  highest : ∀ b, Hole len cfg.guardBottom t.toList b → b ≤ a
  none : a = 0 ↔ ¬ ∃ b, Hole len cfg.guardBottom t.toList b

/-- **The search for a hole.** -/
theorem findUnmapped_highest (cfg : MmConfig) (h : TreeOk t) (hint len : ℕ) :
    (HintFits cfg t hint len → findUnmapped cfg t hint len = alignDown hint pageSize) ∧
      (¬ HintFits cfg t hint len → HighestHole cfg t len (findUnmapped cfg t hint len)) := by
  obtain ⟨htaken, hsearch⟩ := findUnmapped_eq cfg h hint len
  refine ⟨htaken, fun hfits => ?_⟩
  rw [hsearch hfits]
  obtain ⟨hord, hvalid⟩ := h.falling
  have hiff : ∀ a, Hole len cfg.guardBottom t.toList.reverse a ↔
      Hole len cfg.guardBottom t.toList a := by
    intro a
    constructor
    · exact fun ha => ⟨ha.lower, ha.upper, fun v hv => ha.free v (List.mem_reverse.mpr hv)⟩
    · exact fun ha => ⟨ha.lower, ha.upper, fun v hv => ha.free v (List.mem_reverse.mp hv)⟩
  obtain ⟨hhole, hhigh⟩ := findBelow_highest len hord hvalid cfg.uvaddrStart_le_guardBottom
  simp only [hiff] at hhole hhigh
  refine ⟨hhole, hhigh, ?_⟩
  constructor
  · rintro hzero ⟨b, hb⟩
    have hle := hhigh b hb
    have hlow := hb.lower
    rw [uvaddrStart_eq] at hlow
    omega
  · intro hnone
    by_contra hne
    exact hnone ⟨_, hhole hne⟩

/-- A stack of 16 pages, and one VMA right below its guard page. -/
def belowGuard : Bst Vma :=
  .node true (.node false .nil { start := 0x3ffffe0000, stop := 0x3ffffed000, flags := {} } .nil)
    { start := 0x3ffffee000, stop := 0x3fffffe000, flags := {} } .nil

/-- The highest hole is below that VMA. -/
theorem findUnmapped_belowGuard : ∃ cfg, cfg.ustackPages = 16 ∧
    HighestHole cfg belowGuard 0x2000 (findUnmapped cfg belowGuard 0 0x2000) ∧
    findUnmapped cfg belowGuard 0 0x2000 = 0x3ffffde000 := by
  refine ⟨⟨16, by decide⟩, rfl, (findUnmapped_highest _ ⟨by decide, fun v hv => ?_⟩ 0 _).2 ?_,
    by decide +kernel⟩
  · rcases List.mem_pair.mp hv with rfl | rfl <;>
      exact ⟨by decide, by decide, by decide, by decide, by decide⟩
  · exact fun hfits => hfits.1.1 (.inl (by decide))

/-! ### Permissions and the heap -/

/-- What can be written can be read. -/
def VmFlags.Readable (f : VmFlags) : Prop := f.write = true → f.read = true

/-- A good layout, in which what can be written can be read and the heap ends below the
guard page. -/
structure MmOk (cfg : MmConfig) (mm : Mm) : Prop where
  layout : LayoutOk cfg mm
  readable : ∀ v ∈ mm.vmas.toList, v.flags.Readable
  brk : mm.brk ≤ cfg.guardBottom

theorem MmOk.of_parts {new : VmFlags → Prop} {brk : ℕ} (h : MmOk cfg mm) (htree : TreeOk t)
    (hparts : Parts new t mm.vmas) (hnew : ∀ f, new f → f.Readable) (hbrk : brk ≤ cfg.guardBottom) :
    MmOk cfg ⟨t, mm.startBrk, brk⟩ := by
  refine ⟨h.layout.of_parts htree hparts, fun w hw => ?_, hbrk⟩
  obtain ⟨v, hv, -, -, heq | hflags⟩ := hparts w hw
  · rw [heq]
    exact h.readable v hv
  · exact hnew _ hflags

/-- The VMAs have been split, or some removed. -/
theorem MmOk.of_old (h : MmOk cfg mm) (htree : TreeOk t)
    (hparts : Parts (fun _ => False) t mm.vmas) : MmOk cfg ⟨t, mm.startBrk, mm.brk⟩ :=
  h.of_parts htree hparts (fun _ => False.elim) h.brk

theorem MmOk.setBrk {brk : ℕ} (h : MmOk cfg mm) (hbrk : brk ≤ cfg.guardBottom) :
    MmOk cfg ⟨mm.vmas, mm.startBrk, brk⟩ :=
  h.of_parts h.layout.tree (.of_subset fun _ => id) (fun _ => False.elim) hbrk

theorem MmOk.setFlags (h : MmOk cfg mm) (hf : flags.Readable) :
    MmOk cfg ⟨setFlags v flags mm.vmas, mm.startBrk, mm.brk⟩ := by
  refine h.of_parts (h.layout.tree.setFlags v flags) parts_setFlags ?_ h.brk
  rintro f rfl
  exact hf

/-- One more VMA in an allowed range. -/
theorem MmOk.insert {brk : ℕ} (h : MmOk cfg mm) (htree : TreeOk t)
    (hmem : ∀ w, w ∈ t.toList ↔ w = v ∨ w ∈ mm.vmas.toList)
    (hallowed : rangeAllowed cfg v.start v.stop) (hreadable : v.flags.Readable)
    (hbrk : brk ≤ cfg.guardBottom) : MmOk cfg ⟨t, mm.startBrk, brk⟩ := by
  have hrange := hallowed.1
  refine ⟨⟨htree, fun w hw => ?_, fun w hw => ?_⟩, fun w hw => ?_, hbrk⟩ <;>
    rcases (hmem w).mp hw with rfl | hw
  · exact hallowed.2
  · exact h.layout.guard w hw
  · omega
  · exact h.layout.top w hw
  · exact hreadable
  · exact h.readable w hw

theorem mapRange_eq_ok {allocated : Bool}
    (h : mapRange rb allocated t start stop flags = .ok (t', v)) :
    v = { start, stop, flags } ∧ vmaInsert rb t v = .ok t' := by
  unfold mapRange at h
  dsimp only at h
  split_ifs at h
  cases hins : vmaInsert rb t { start, stop, flags } with
  | error e =>
    rw [hins] at h
    cases h
  | ok t₁ =>
    rw [hins] at h
    cases h
    exact ⟨rfl, hins⟩

/-- The copies of the VMAs at a fork. -/
theorem cloneVmas_eq_ok {n : ℕ} (h : TreeOk t)
    (hok : cloneVmas rb ok n t vs = .ok t') :
    TreeOk t' ∧ ∀ w, w ∈ t'.toList ↔ w ∈ vs ∨ w ∈ t.toList := by
  induction vs generalizing t n with
  | nil =>
    cases hok
    exact ⟨h, by simp⟩
  | cons v vs ih =>
    simp only [cloneVmas] at hok
    split_ifs at hok
    cases hins : vmaInsert rb t v with
    | error e =>
      rw [hins] at hok
      cases hok
    | ok t₁ =>
      rw [hins] at hok
      obtain ⟨-, htree, hmem⟩ := of_vmaInsert_eq_ok h hins
      obtain ⟨htree', hmem'⟩ := ih htree hok
      refine ⟨htree', fun w => ?_⟩
      rw [hmem', hmem, List.mem_cons]
      tauto

/-- The VMAs of the child of a fork are those of the parent. -/
theorem mmOk_mmClone (h : MmOk cfg mm) (hok : mmClone rb ok mm = .ok mm') :
    MmOk cfg mm' ∧ ∀ w, w ∈ mm'.vmas.toList ↔ w ∈ mm.vmas.toList := by
  obtain ⟨t, hclone, hret⟩ := exists_of_bind_eq_ok hok
  cases hret
  obtain ⟨htree, hmem⟩ := cloneVmas_eq_ok .nil hclone
  have hmem : ∀ w, w ∈ t.toList ↔ w ∈ mm.vmas.toList := by
    intro w
    rw [hmem w]
    exact or_iff_left nofun
  exact ⟨h.of_old htree (.of_subset fun w => (hmem w).mp), hmem⟩

/-! ### What the calls ask for -/

/-- An aligned range below the top of the stack. -/
structure RangeOk (start stop : ℕ) : Prop where
  lt : start < stop
  start_aligned : start % pageSize = 0
  stop_aligned : stop % pageSize = 0
  top : stop ≤ ustackTop

/-- What follows an `unmap_range` of `[start, stop)`. -/
def AfterOk (cfg : MmConfig) (start stop : ℕ) : After → Prop
  | .ret => True
  | .setBrk addr => addr ≤ cfg.guardBottom
  | .insert vma => vma.start = start ∧ vma.stop = stop ∧ vma.file = none ∧ vma.flags.Readable ∧
      rangeAllowed cfg start stop

/-- The request can be served: its ranges are aligned and allowed, and free where a VMA
is to be inserted. -/
def Request.Ok (cfg : MmConfig) (mm : Mm) : Request → Prop
  | .nothing => True
  | .insert vma => vma.Valid ∧ (∀ w ∈ mm.vmas.toList, w.stop ≤ vma.start ∨ vma.stop ≤ w.start) ∧
      AfterOk cfg vma.start vma.stop (.insert vma)
  | .unmap start stop after => RangeOk start stop ∧ AfterOk cfg start stop after
  | .protect start stop f => RangeOk start stop ∧ f.Readable
  | .grow start stop addr => (∀ w ∈ mm.vmas.toList, w.stop ≤ start ∨ stop ≤ w.start) ∧
      stop ≤ cfg.guardBottom ∧ addr ≤ cfg.guardBottom
  | .setBrk addr => addr ≤ cfg.guardBottom

theorem readable_vmProt (prot : ℕ) : (vmProt prot).Readable := by
  intro hwrite
  simp only [vmProt, decide_eq_true_eq] at hwrite ⊢
  exact .inr hwrite

theorem rangeOk_of_rangeEnd (h : rangeEnd cfg start len = .ok stop) :
    RangeOk start stop ∧ rangeAllowed cfg start stop := by
  obtain ⟨hlt, hstart, hstop, hallowed⟩ := rangeEnd_eq_ok h
  exact ⟨⟨hlt, hstart, hstop, by have := hallowed.1; omega⟩, hallowed⟩

/-- A VMA in an allowed range is valid. -/
theorem RangeOk.valid (h : RangeOk v.start v.stop) (hallowed : rangeAllowed cfg v.start v.stop) :
    v.Valid := by
  have hrange := hallowed.1
  have htop := h.top
  rw [ustackTop_eq] at htop
  refine ⟨by omega, ?_, h.lt, h.start_aligned, h.stop_aligned⟩
  rw [uvaddrEnd_eq]
  omega

/-- `range_end` of a length that is already rounded. -/
theorem rangeEnd_alignUp (h : rangeEnd cfg start (alignUp len pageSize) = .ok stop) :
    stop = start + alignUp len pageSize := by
  unfold rangeEnd at h
  dsimp only at h
  split_ifs at h
  cases h
  rw [le_antisymm (alignUp_le le_rfl (alignUp_aligned len)) (alignUp_spec _).1]

/-- The VMA that `sys_mmap` makes. -/
def mmapVma (start len prot : ℕ) : Vma :=
  { start, stop := start + alignUp len pageSize, flags := vmProt prot }

/-- `sys_mmap` asks for its VMA in a free range, or with `MAP_FIXED` at the address it was given
after the range has been unmapped. -/
theorem mmapRequest_eq_ok {r : Request} {prot flags offset : ℕ} (h : MmOk cfg mm)
    (hr : mmapRequest cfg mm ok addr len prot flags offset = .ok r) :
    r.Ok cfg mm ∧ ∃ start, r = .insert (mmapVma start len prot) ∧ flags &&& mapFixed = 0 ∨
      r = .unmap start (mmapVma start len prot).stop (.insert (mmapVma start len prot)) ∧
        start = addr := by
  unfold mmapRequest at hr
  dsimp only at hr
  split_ifs at hr with hinval hmax halloc hfixed hzero
  · obtain ⟨stop, hend, hret⟩ := exists_of_bind_eq_ok hr
    cases hret
    obtain ⟨hrange, hallowed⟩ := rangeOk_of_rangeEnd hend
    obtain rfl := rangeEnd_alignUp hend
    exact ⟨⟨hrange, rfl, rfl, rfl, readable_vmProt prot, hallowed⟩, addr, .inr ⟨rfl, rfl⟩⟩
  · cases hr
    obtain ⟨haligned, hallowed, hfree⟩ := findUnmapped_spec h.layout (alignUp_aligned len) hzero
    refine ⟨⟨RangeOk.valid ⟨?_, haligned, ?_, ?_⟩ hallowed, hfree, rfl, rfl, rfl,
      readable_vmProt prot, hallowed⟩, _, .inl ⟨rfl, not_not.mp hfixed⟩⟩ <;> dsimp only
    · have hup := alignUp_spec len
      omega
    · have hround := alignUp_aligned len
      rw [pageSize_eq] at *
      omega
    · have hrange := hallowed.1
      omega

theorem munmapRequest_eq_ok {r : Request} (hr : munmapRequest cfg start len = .ok r) :
    ∃ stop, rangeEnd cfg start len = .ok stop ∧ r = .unmap start stop .ret := by
  obtain ⟨stop, hend, hret⟩ := exists_of_bind_eq_ok hr
  cases hret
  exact ⟨stop, hend, rfl⟩

theorem munmapRequest_ok {r : Request} (hr : munmapRequest cfg start len = .ok r) :
    r.Ok cfg mm := by
  obtain ⟨stop, hend, rfl⟩ := munmapRequest_eq_ok hr
  exact ⟨(rangeOk_of_rangeEnd hend).1, trivial⟩

theorem mprotectRequest_eq_ok {r : Request} {prot : ℕ}
    (hr : mprotectRequest cfg start len prot = .ok r) :
    r = .nothing ∨ ∃ stop, RangeOk start stop ∧ r = .protect start stop (vmProt prot) := by
  unfold mprotectRequest at hr
  split_ifs at hr
  · cases hr
    exact .inl rfl
  · obtain ⟨stop, hend, hret⟩ := exists_of_bind_eq_ok hr
    cases hret
    exact .inr ⟨stop, (rangeOk_of_rangeEnd hend).1, rfl⟩

theorem mprotectRequest_ok {r : Request} {prot : ℕ}
    (hr : mprotectRequest cfg start len prot = .ok r) : r.Ok cfg mm := by
  rcases mprotectRequest_eq_ok hr with rfl | ⟨stop, hrange, rfl⟩
  · trivial
  · exact ⟨hrange, readable_vmProt prot⟩

theorem brkRequest_ok (h : MmOk cfg mm) (addr : ℕ) : (brkRequest cfg mm addr).Ok cfg mm := by
  unfold brkRequest
  dsimp only
  by_cases hbounds : addr < mm.startBrk ∨ addr > cfg.guardBottom
  · rw [if_pos hbounds]
    trivial
  rw [if_neg hbounds]
  have haddr : addr ≤ cfg.guardBottom := by omega
  have hstop := alignUp_le haddr cfg.guardBottom_aligned
  split_ifs with hgrow hbusy hshrink
  · trivial
  · rw [Option.not_isSome_iff_eq_none] at hbusy
    exact ⟨vmaFindIntersection_eq_none h.layout.tree hbusy, hstop, haddr⟩
  · have hbrk := alignUp_le h.brk cfg.guardBottom_aligned
    have hcfg := cfg.bottoms
    refine ⟨⟨hshrink, alignUp_aligned _, alignUp_aligned _, ?_⟩, haddr⟩
    rw [ustackTop_eq]
    omega
  · exact haddr

end Nuvix
