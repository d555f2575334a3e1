import Nuvix.Kernel.Execve
import Nuvix.Mm.AddressSpace

/-!
# Accepted images load

The headers of an executable are arbitrary 64-bit values. Three checks look at them before anything
is mapped: `elf_check_ehdr`, `elf_check_phdrs` and `check_layout`. What they leave is enough for the
rest of `load_exec`: the sums it computes do not wrap, the segments it maps are apart from each
other and from everything above them, and so the only thing that can go wrong is the memory.
-/

namespace Nuvix

open SearchTree

/-! ### The ELF header -/

/-- The fields of `struct elf64_ehdr` that are read. -/
structure ElfHeader where
  ident : Fin 16 → ℕ
  type : ℕ
  machine : ℕ
  version : ℕ
  entry : ℕ
  phoff : ℕ
  flags : ℕ
  ehsize : ℕ
  phentsize : ℕ
  phnum : ℕ

def etExec : ℕ := 2

def etDyn : ℕ := 3

def emRiscv : ℕ := 243

def evCurrent : ℕ := 1

/-- `PN_XNUM`. -/
def pnXnum : ℕ := 0xffff

def efRiscvRvc : ℕ := 0x1

def efRiscvFloatAbi : ℕ := 0x6

def efRiscvFloatAbiSoft : ℕ := 0x0

def efRiscvFloatAbiDouble : ℕ := 0x4

/-- `sizeof(struct elf64_ehdr)`. -/
def ehdrSize : ℕ := 64

/-- `elf_check_arch`; `fpu` is `CONFIG_FPU`. -/
def elfCheckArch (fpu : Bool) (hdr : ElfHeader) : Bool :=
  let floatAbi := hdr.flags &&& efRiscvFloatAbi
  if fpu ∧ floatAbi > efRiscvFloatAbiDouble then false
  else if ¬ fpu ∧ floatAbi ≠ efRiscvFloatAbiSoft then false
  else
    -- `EI_CLASS` and `EI_DATA`: 64 bits, little-endian
    hdr.machine = emRiscv ∧ hdr.ident 4 = 2 ∧ hdr.ident 5 = 1 ∧
      ¬ bitsOutside hdr.flags (efRiscvRvc ||| efRiscvFloatAbi)

/-- `elf_check_ehdr`. -/
def elfCheckEhdr (fpu : Bool) (hdr : ElfHeader) (limit : ℕ) : Except Errno Unit :=
  if ¬ (hdr.ident 0 = 0x7f ∧ hdr.ident 1 = 0x45 ∧ hdr.ident 2 = 0x4c ∧ hdr.ident 3 = 0x46) ∨
      ¬ elfCheckArch fpu hdr ∨ hdr.ident 6 ≠ evCurrent ∨ hdr.version ≠ evCurrent ∨
      (hdr.type ≠ etExec ∧ hdr.type ≠ etDyn) ∨ hdr.ehsize ≠ ehdrSize ∨
      hdr.phentsize ≠ phdrSize ∨ hdr.phnum = 0 ∨ hdr.phnum = pnXnum ∨ hdr.phoff < ehdrSize then
    .error .enoexec
  else if ¬ fileRangeValid limit hdr.phoff (hdr.phnum * phdrSize) then .error .enoexec
  else .ok ()

/-- What the later checks read of the header. -/
def ElfHeader.ehdr (hdr : ElfHeader) : Ehdr := ⟨hdr.type = etDyn, hdr.entry, hdr.phoff⟩

/-! ### Segments -/

section

variable (cfg : MmConfig) (ehdr : Ehdr)

/-- Where the first page of a segment starts. -/
def Phdr.segStart (p : Phdr) : ℕ := alignDown (ehdr.loadOffset + p.vaddr) pageSize

/-- Where the last page of a segment ends. -/
def Phdr.segStop (p : Phdr) : ℕ := alignUp (ehdr.loadOffset + p.vaddr + p.memsz) pageSize

/-- The VMA that `load_segments` makes for a segment. -/
def segmentVma (file : ℕ) (p : Phdr) : Vma :=
  Vma.backBy { start := p.segStart ehdr, stop := p.segStop ehdr, flags := segmentFlags p } file
    (ehdr.loadOffset + p.vaddr) p

/-- The VMA of `setup_stack`. -/
def stackVma : Vma where
  start := cfg.ustackBottom
  stop := ustackTop
  flags := { read := true, write := true }

/-- The segment lies in the part of the user half that images may use, and its place in the file
agrees with its address. -/
structure Phdr.Placed (p : Phdr) : Prop where
  lower : uvaddrStart ≤ ehdr.loadOffset + p.vaddr
  upper : ehdr.loadOffset + p.vaddr + p.memsz ≤ cfg.guardBottom
  congruent : p.vaddr % pageSize = p.offset % pageSize
  nonempty : p.memsz ≠ 0
  filesz_le : p.filesz ≤ p.memsz
  file_end : p.offset + p.filesz ≤ int64Max

/-- The segment holds the program headers. -/
def Phdr.HoldsPhdrs (phsize : ℕ) (p : Phdr) : Prop :=
  p.offset ≤ ehdr.phoff ∧ ehdr.phoff - p.offset ≤ p.filesz ∧
    phsize ≤ p.filesz - (ehdr.phoff - p.offset)

/-- Where the program headers are in memory if the segment holds them. -/
def Phdr.phdrAddr (p : Phdr) : ℕ := ehdr.loadOffset + p.vaddr + (ehdr.phoff - p.offset)

end

variable {cfg : MmConfig} {rb : Rebalance Vma} {ok : ℕ → Bool} {t : Bst Vma} {mm mm' : Mm}
  {v w : Vma} {ehdr : Ehdr} {p q : Phdr} {phdrs : List Phdr} {phsize file phdrAddr : ℕ}

namespace Phdr.Placed

theorem bounds (h : p.Placed cfg ehdr) : uvaddrStart ≤ p.segStart ehdr ∧
    p.segStart ehdr ≤ ehdr.loadOffset + p.vaddr ∧
    ehdr.loadOffset + p.vaddr + p.memsz ≤ p.segStop ehdr ∧ p.segStop ehdr ≤ cfg.guardBottom := by
  have hlower := h.lower
  refine ⟨?_, alignDown_le _, (alignUp_spec _).1, alignUp_le h.upper cfg.guardBottom_aligned⟩
  unfold Phdr.segStart alignDown
  rw [uvaddrStart_eq] at *
  rw [pageSize_eq]
  omega

theorem lt (h : p.Placed cfg ehdr) : p.segStart ehdr < p.segStop ehdr := by
  have hbounds := h.bounds
  have hne := h.nonempty
  omega

theorem valid (h : p.Placed cfg ehdr) {flags : VmFlags} :
    Vma.Valid { start := p.segStart ehdr, stop := p.segStop ehdr, flags } := by
  have hbounds := h.bounds
  have hcfg := cfg.bottoms
  refine ⟨hbounds.1, ?_, h.lt, alignDown_aligned _, alignUp_aligned _⟩
  rw [uvaddrEnd_eq]
  dsimp only
  omega

/-- The load bias is a multiple of the page size, so the position of the first page in the file
is one as well. -/
theorem offset_eq (h : p.Placed cfg ehdr) : ehdr.loadOffset + p.vaddr ≤ p.offset + p.segStart ehdr ∧
      p.offset + p.segStart ehdr - (ehdr.loadOffset + p.vaddr) = alignDown p.offset pageSize := by
  have hcongr := h.congruent
  have hbias : ehdr.loadOffset % pageSize = 0 := by
    unfold Ehdr.loadOffset
    split_ifs <;> rfl
  unfold Phdr.segStart alignDown
  rw [pageSize_eq] at *
  omega

end Phdr.Placed

theorem loadOffset_le : ehdr.loadOffset ≤ uvaddrStart := by
  unfold Ehdr.loadOffset
  split_ifs
  · exact le_rfl
  · exact Nat.zero_le _

/-! ### The checks -/

/-- A segment that the scan of `elf_check_phdrs` has accepted is valid. -/
theorem segmentValid_of_elfCheckPhdrs (h : elfCheckPhdrs ehdr phsize int64Max phdrs = .ok ())
    (hp : p ∈ phdrs) (hload : p.Loads) : segmentValid int64Max p := by
  obtain ⟨scan, hscan, -⟩ := exists_of_bind_eq_ok h
  obtain ⟨s, s', hturn⟩ := exists_turn_of_foldlM_eq_ok hscan hp
  by_contra hinvalid
  have hchecked : p.type.checked = true := by rw [hload.1]; rfl
  rw [scanPhdr, if_pos ⟨hchecked, hinvalid⟩] at hturn
  cases hturn

/-- The segment is executable and the entry point lies in it. -/
def Phdr.Enters (ehdr : Ehdr) (p : Phdr) : Prop :=
  p.type = .load ∧ p.flags &&& pfX ≠ 0 ∧ p.vaddr ≤ ehdr.entry ∧ ehdr.entry - p.vaddr < p.memsz

/-- Only a segment to be loaded can set the flag of the scan. -/
theorem haveEntry_of_scanPhdr {s s' : PhdrScan} (h : scanPhdr ehdr phsize int64Max s p = .ok s')
    (hentry : s'.haveEntry) : s.haveEntry ∨ p.Enters ehdr := by
  unfold scanPhdr at h
  split at h
  · cases h
  split at h
  · cases h
  · cases h
  next htype =>
    split at h
    · cases h
    · cases h
      rw [Bool.or_eq_true, decide_eq_true_eq] at hentry
      exact hentry.imp id fun hx => ⟨htype, hx⟩
  · split at h
    · cases h
    · cases h
      exact .inl hentry
  · split at h
    · cases h
    · cases h
      exact .inl hentry
  · cases h
    exact .inl hentry

/-- The flag of the scan says that some segment has the entry point. -/
theorem haveEntry_of_foldlM {s s' : PhdrScan}
    (h : phdrs.foldlM (scanPhdr ehdr phsize int64Max) s = .ok s') (hentry : s'.haveEntry) :
    s.haveEntry ∨ ∃ p ∈ phdrs, p.Enters ehdr := by
  induction phdrs generalizing s with
  | nil =>
    cases h
    exact .inl hentry
  | cons p ps ih =>
    rw [List.foldlM_cons] at h
    obtain ⟨s₁, hturn, h⟩ := exists_of_bind_eq_ok h
    rcases ih h with hprev | ⟨q, hq, henters⟩
    · exact (haveEntry_of_scanPhdr hturn hprev).imp_right fun h => ⟨p, List.mem_cons_self, h⟩
    · exact .inr ⟨q, List.mem_cons_of_mem p hq, henters⟩

theorem exists_enters (h : elfCheckPhdrs ehdr phsize int64Max phdrs = .ok ()) :
    ∃ p ∈ phdrs, p.Enters ehdr := by
  obtain ⟨scan, hscan, hend⟩ := exists_of_bind_eq_ok h
  have hentry : scan.haveEntry := by
    by_contra hno
    rw [if_neg hno] at hend
    cases hend
  exact (haveEntry_of_foldlM hscan hentry).resolve_left Bool.false_ne_true

/-- One turn of the loop of `check_layout`. -/
theorem checkSegment_eq_ok {s s' : ℕ × ℕ} (hload : p.Loads) (hvalid : segmentValid int64Max p)
    (h : checkSegment cfg ehdr phsize s p = .ok s') :
    p.Placed cfg ehdr ∧ s.1 ≤ p.segStart ehdr ∧ s'.1 = p.segStop ehdr ∧
      (s'.2 = s.2 ∨ p.HoldsPhdrs ehdr phsize ∧ s'.2 = p.phdrAddr ehdr) := by
  obtain ⟨hfields, -⟩ := hvalid
  push Not at hfields
  obtain ⟨hfilesz, ⟨hoff, hlen⟩, hmemsz, -⟩ := hfields
  have hne := hload.2
  have hsum : (p.vaddr + p.memsz) % 2 ^ 64 = p.vaddr + p.memsz := by
    rw [uint64Max] at hmemsz
    exact Nat.mod_eq_of_lt (by omega)
  have hbias : ehdr.loadOffset ≤ uvaddrStart := loadOffset_le
  have hcfg := cfg.bottoms
  unfold checkSegment at h
  dsimp only at h
  rw [if_neg (not_not_intro hload), hsum] at h
  split at h
  · cases h
  rename_i hbounds
  push Not at hbounds
  obtain ⟨hlower, hupper, hcongr⟩ := hbounds
  split at h
  · cases h
  rename_i hstart
  have hplaced : p.Placed cfg ehdr := by
    rw [uvaddrStart_eq] at *
    exact ⟨by rw [uvaddrStart_eq]; omega, by omega, hcongr, hne, hfilesz, by omega⟩
  cases h
  refine ⟨hplaced, not_lt.mp hstart, ?_, ?_⟩
  · dsimp only
    rw [Phdr.segStop, Nat.add_assoc]
  · dsimp only
    split
    next hholds =>
      exact .inr ⟨hholds.2, rfl⟩
    · exact .inl rfl

/-- What `check_layout` says of all segments. -/
theorem foldlM_checkSegment {s s' : ℕ × ℕ}
    (hvalid : ∀ p ∈ phdrs, p.Loads → segmentValid int64Max p)
    (h : phdrs.foldlM (checkSegment cfg ehdr phsize) s = .ok s') :
    (∀ p ∈ phdrs, p.Loads → p.Placed cfg ehdr ∧ s.1 ≤ p.segStart ehdr) ∧
      (phdrs.Pairwise fun p q => p.Loads → q.Loads → p.segStop ehdr ≤ q.segStart ehdr) ∧
      (s'.2 = s.2 ∨ ∃ p ∈ phdrs, p.Loads ∧ p.HoldsPhdrs ehdr phsize ∧ s'.2 = p.phdrAddr ehdr) := by
  induction phdrs generalizing s with
  | nil =>
    cases h
    exact ⟨nofun, .nil, .inl rfl⟩
  | cons p ps ih =>
    obtain ⟨hp, hps⟩ := List.forall_mem_cons.mp hvalid
    rw [List.foldlM_cons] at h
    obtain ⟨s₁, hturn, h⟩ := exists_of_bind_eq_ok h
    obtain ⟨hplaced, hpair, hphdr⟩ := ih hps h
    by_cases hload : p.Loads
    · obtain ⟨hplaced₁, hstart, hstop, hphdr₁⟩ := checkSegment_eq_ok hload (hp hload) hturn
      have hle : s.1 ≤ s₁.1 := hstop ▸ hstart.trans hplaced₁.lt.le
      refine ⟨List.forall_mem_cons.mpr ⟨fun _ => ⟨hplaced₁, hstart⟩, fun q hq hq' => ?_⟩,
        .cons (fun q hq _ hq' => hstop ▸ (hplaced q hq hq').2) hpair, ?_⟩
      · exact ⟨(hplaced q hq hq').1, hle.trans (hplaced q hq hq').2⟩
      · rcases hphdr with hphdr | ⟨q, hq, hrest⟩
        · exact hphdr₁.imp hphdr.trans fun h =>
            ⟨p, List.mem_cons_self, hload, h.1, hphdr.trans h.2⟩
        · exact .inr ⟨q, List.mem_cons_of_mem p hq, hrest⟩
    · rw [checkSegment, if_pos hload] at hturn
      cases hturn
      refine ⟨List.forall_mem_cons.mpr ⟨fun h => absurd h hload, hplaced⟩,
        .cons (fun q hq h => absurd h hload) hpair, hphdr.imp_right ?_⟩
      rintro ⟨q, hq, hrest⟩
      exact ⟨q, List.mem_cons_of_mem p hq, hrest⟩

/-! ### Mapping -/

/-- The call fails for lack of memory, or else the result is as wanted. -/
def Fulfills (ok : ℕ → Bool) {α : Type} (r : Except Errno α) (Q : α → Prop) : Prop :=
  match r with
  | .error e => e = .enomem ∧ ∃ n, ok n = false
  | .ok a => Q a

theorem Fulfills.bind {α β : Type} {x : Except Errno α} {f : α → Except Errno β} {P : α → Prop}
    {Q : β → Prop} (h : Fulfills ok x P) (hf : ∀ a, P a → Fulfills ok (f a) Q) :
    Fulfills ok (x >>= f) Q := by
  cases x with
  | error e => exact h
  | ok a => exact hf a h

theorem Fulfills.mono {α : Type} {x : Except Errno α} {P Q : α → Prop} (h : Fulfills ok x P)
    (hPQ : ∀ a, P a → Q a) : Fulfills ok x Q := by
  cases x with
  | error e => exact h
  | ok a => exact hPQ a h

/-- A range that is free is mapped if there is memory. -/
theorem fulfills_mapRange (rb : Rebalance Vma) (ok : ℕ → Bool) (n : ℕ) {start stop : ℕ}
    (flags : VmFlags) (h : TreeOk t) (hvalid : Vma.Valid { start, stop, flags })
    (hfree : ∀ w ∈ t.toList, w.stop ≤ start ∨ stop ≤ w.start) :
    Fulfills ok (mapRange rb (ok n) t start stop flags) fun r =>
      r.2 = { start, stop, flags } ∧ TreeOk r.1 ∧
        ∀ w, w ∈ r.1.toList ↔ w = { start, stop, flags } ∨ w ∈ t.toList := by
  unfold mapRange
  split
  · obtain ⟨t', hins⟩ := vmaInsert_ok rb h hvalid hfree
    obtain ⟨-, htree, hmem⟩ := of_vmaInsert_eq_ok h hins
    dsimp only
    rw [hins]
    exact ⟨rfl, htree, hmem⟩
  next hno =>
    exact ⟨rfl, n, Bool.eq_false_iff.mpr hno⟩

theorem segmentVma_bounds : (segmentVma ehdr file p).start = p.segStart ehdr ∧
    (segmentVma ehdr file p).stop = p.segStop ehdr ∧
    (segmentVma ehdr file p).flags = segmentFlags p := by
  unfold segmentVma Vma.backBy
  split_ifs
  · exact ⟨rfl, rfl, rfl⟩
  · exact ⟨rfl, rfl, rfl⟩

/-- Setting the fields of a VMA that has just been mapped. -/
theorem mem_map_backBy (file : ℕ) {old : Bst Vma} (htree : TreeOk t)
    (hv : v = { start := p.segStart ehdr, stop := p.segStop ehdr, flags := segmentFlags p })
    (hmem : ∀ w, w ∈ t.toList ↔ w = v ∨ w ∈ old.toList) (hnew : v ∉ old.toList) :
    TreeOk (t.map fun w => if w = v then v.backBy file (ehdr.loadOffset + p.vaddr) p else w) ∧
      ∀ w, w ∈ (t.map fun w =>
          if w = v then v.backBy file (ehdr.loadOffset + p.vaddr) p else w).toList ↔
        w = segmentVma ehdr file p ∨ w ∈ old.toList := by
  have hback : v.backBy file (ehdr.loadOffset + p.vaddr) p = segmentVma ehdr file p := by
    rw [hv]
    rfl
  rw [hback]
  constructor
  · refine htree.map (fun w => ?_) fun w => ?_
    · split_ifs with hw
      · rw [segmentVma_bounds.1, hw, hv]
      · rfl
    · split_ifs with hw
      · rw [segmentVma_bounds.2.1, hw, hv]
      · rfl
  · intro w
    rw [Bst.toList_map, List.mem_map]
    constructor
    · rintro ⟨u, hu, rfl⟩
      split_ifs with huv
      · exact .inl rfl
      · exact .inr (((hmem u).mp hu).resolve_left huv)
    · rintro (rfl | hw)
      · exact ⟨v, (hmem v).mpr (.inl rfl), if_pos rfl⟩
      · refine ⟨w, (hmem w).mpr (.inr hw), if_neg ?_⟩
        rintro rfl
        exact hnew hw

/-- The VMAs of the segments. The VMAs that are there lie below the segments that are left. -/
theorem fulfills_loadSegments (rb : Rebalance Vma) (ok : ℕ → Bool) (file n : ℕ) (mm : Mm)
    (hplaced : ∀ p ∈ phdrs, p.Loads → p.Placed cfg ehdr)
    (hpair : phdrs.Pairwise fun p q => p.Loads → q.Loads → p.segStop ehdr ≤ q.segStart ehdr)
    (htree : TreeOk mm.vmas)
    (hbelow : ∀ v ∈ mm.vmas.toList, ∀ p ∈ phdrs, p.Loads → v.stop ≤ p.segStart ehdr) :
    Fulfills ok (loadSegments ehdr rb ok file n mm phdrs) fun mm' => TreeOk mm'.vmas ∧
      (∀ w, w ∈ mm'.vmas.toList ↔
        w ∈ mm.vmas.toList ∨ ∃ p ∈ phdrs, p.Loads ∧ w = segmentVma ehdr file p) ∧
      mm'.brk ≤ max mm.startBrk cfg.guardBottom := by
  induction phdrs generalizing n mm with
  | nil =>
    refine ⟨htree, fun w => ⟨.inl, ?_⟩, le_max_left _ _⟩
    rintro (hw | ⟨p, hp, -⟩)
    · exact hw
    · cases hp
  | cons p ps ih =>
    obtain ⟨hplaced₁, hplaced⟩ := List.forall_mem_cons.mp hplaced
    obtain ⟨hpair₁, hpair⟩ := List.pairwise_cons.mp hpair
    rw [loadSegments]
    by_cases hload : p.Loads
    swap
    · rw [if_pos hload]
      have hrest := ih n mm hplaced hpair htree fun v hv q hq =>
        hbelow v hv q (List.mem_cons_of_mem p hq)
      have hexists : ∀ w, (∃ q ∈ p :: ps, q.Loads ∧ w = segmentVma ehdr file q) ↔
          ∃ q ∈ ps, q.Loads ∧ w = segmentVma ehdr file q := by
        intro w
        rw [List.exists_mem_cons_iff, or_iff_right fun h => hload h.1]
      simpa only [hexists] using hrest
    rw [if_neg (not_not_intro hload)]
    have hpl := hplaced₁ hload
    have hsum : (ehdr.loadOffset + p.vaddr + p.memsz) % 2 ^ 64 =
        ehdr.loadOffset + p.vaddr + p.memsz := by
      have hupper := hpl.upper
      have hcfg := cfg.bottoms
      exact Nat.mod_eq_of_lt (by omega)
    dsimp only
    rw [hsum]
    have hmap := fulfills_mapRange rb ok n (segmentFlags p) htree hpl.valid fun w hw =>
      .inl (hbelow w hw p List.mem_cons_self hload)
    refine hmap.bind ?_
    rintro ⟨t, v⟩ ⟨hv, htree', hmem⟩
    dsimp only at hv htree' hmem
    rw [← hv] at hmem
    have hnew : v ∉ mm.vmas.toList := by
      intro hmem
      have hle := hbelow v hmem p List.mem_cons_self hload
      have hlt := hpl.lt
      rw [hv] at hle
      exact absurd hle (not_le.mpr hlt)
    obtain ⟨htree₁, hmem₁⟩ := mem_map_backBy file htree' hv hmem hnew
    have hbelow₁ : ∀ w, w = segmentVma ehdr file p ∨ w ∈ mm.vmas.toList → ∀ q ∈ ps, q.Loads →
        w.stop ≤ q.segStart ehdr := by
      rintro w (rfl | hw) q hq hq'
      · rw [segmentVma_bounds.2.1]
        exact hpair₁ q hq hload hq'
      · exact hbelow w hw q (List.mem_cons_of_mem p hq) hq'
    have hrest := ih (n + 1) ⟨_, max mm.startBrk (p.segStop ehdr), mm.brk⟩ hplaced hpair
      htree₁ fun w hw => hbelow₁ w ((hmem₁ w).mp hw)
    refine hrest.mono fun mm' h => ⟨h.1, fun w => ?_, ?_⟩
    swap
    · have hle := h.2.2
      have hstop := hpl.bounds.2.2.2
      dsimp only at hle
      omega
    rw [h.2.1, hmem₁, List.exists_mem_cons_iff, and_iff_right hload, or_assoc, or_left_comm]

theorem fulfills_setupStack {n : ℕ} (htree : TreeOk mm.vmas)
    (hbelow : ∀ v ∈ mm.vmas.toList, v.stop ≤ cfg.guardBottom) :
    Fulfills ok (setupStack cfg rb (ok n) mm) fun mm' => TreeOk mm'.vmas ∧
      (∀ w, w ∈ mm'.vmas.toList ↔ w = stackVma cfg ∨ w ∈ mm.vmas.toList) ∧ mm'.brk = mm.brk := by
  have hcfg := cfg.bottoms
  have hvalid : Vma.Valid (stackVma cfg) := by
    refine ⟨?_, ?_, ?_, ?_, ?_⟩
    · change uvaddrStart ≤ cfg.ustackBottom
      rw [uvaddrStart_eq]
      omega
    · change ustackTop ≤ uvaddrEnd
      decide
    · change cfg.ustackBottom < ustackTop
      rw [ustackTop_eq]
      omega
    · change cfg.ustackBottom % pageSize = 0
      rw [pageSize_eq]
      omega
    · change ustackTop % pageSize = 0
      decide
  have hmap := fulfills_mapRange rb ok n { read := true, write := true } htree hvalid fun w hw =>
    .inl ((hbelow w hw).trans (by change cfg.guardBottom ≤ cfg.ustackBottom; omega))
  exact hmap.bind fun r hr => ⟨hr.2.1, hr.2.2, rfl⟩

/-! ### Images -/

/-- What the checks say of the segments, and of the place of the program headers. -/
theorem segments_of_checks (htable : elfCheckPhdrs ehdr phsize int64Max phdrs = .ok ())
    (hlayout : checkLayout cfg ehdr phsize phdrs = .ok phdrAddr) :
    (∀ p ∈ phdrs, p.Loads → p.Placed cfg ehdr) ∧
      (phdrs.Pairwise fun p q => p.Loads → q.Loads → p.segStop ehdr ≤ q.segStart ehdr) ∧
      (phdrAddr = 0 ∨ ∃ p ∈ phdrs, p.Loads ∧ p.HoldsPhdrs ehdr phsize ∧
        phdrAddr = p.phdrAddr ehdr) := by
  obtain ⟨s, hfold, hs⟩ := exists_of_bind_eq_ok hlayout
  cases hs
  obtain ⟨hplaced, hpair, hphdr⟩ := foldlM_checkSegment
    (fun p hp hload => segmentValid_of_elfCheckPhdrs htable hp hload) hfold
  exact ⟨fun p hp hload => (hplaced p hp hload).1, hpair, hphdr⟩

/-- The VMAs of a program that has been loaded are those of its segments and the stack. -/
theorem fulfills_loadExec (rb : Rebalance Vma) (ok : ℕ → Bool) (file : ℕ)
    (htable : elfCheckPhdrs ehdr (phdrs.length * phdrSize) int64Max phdrs = .ok ())
    (hlayout : checkLayout cfg ehdr (phdrs.length * phdrSize) phdrs = .ok phdrAddr) :
    Fulfills ok (loadExec cfg ehdr rb ok file phdrs) fun mm => TreeOk mm.vmas ∧
      (∀ w, w ∈ mm.vmas.toList ↔
        w = stackVma cfg ∨ ∃ p ∈ phdrs, p.Loads ∧ w = segmentVma ehdr file p) ∧
      mm.brk ≤ cfg.guardBottom := by
  obtain ⟨hplaced, hpair, -⟩ := segments_of_checks htable hlayout
  unfold loadExec
  dsimp only
  rw [htable, hlayout]
  have hload := fulfills_loadSegments rb ok file 0 mmAlloc hplaced hpair TreeOk.nil nofun
  refine hload.bind fun mm hmm => ?_
  have hmem : ∀ w, w ∈ mm.vmas.toList ↔
      ∃ p ∈ phdrs, p.Loads ∧ w = segmentVma ehdr file p := fun w =>
    (hmm.2.1 w).trans (or_iff_right List.not_mem_nil)
  refine (fulfills_setupStack hmm.1 fun v hv => ?_).mono fun mm' h' =>
    ⟨h'.1, fun w => by rw [h'.2.1, hmem], ?_⟩
  · obtain ⟨p, hp, hload, rfl⟩ := (hmem v).mp hv
    rw [segmentVma_bounds.2.1]
    exact (hplaced p hp hload).bounds.2.2.2
  · rw [h'.2.2]
    exact hmm.2.2.trans (max_le (Nat.zero_le _) le_rfl)

/-- The headers of an executable have passed the checks of `load_exec`; `phdrAddr` is
`image->phdr_addr`. -/
structure Accepted (cfg : MmConfig) (fpu : Bool) (hdr : ElfHeader) (phdrs : List Phdr)
    (phdrAddr : ℕ) : Prop where
  header : elfCheckEhdr fpu hdr int64Max = .ok ()
  count : phdrs.length = hdr.phnum
  table : elfCheckPhdrs hdr.ehdr (phdrs.length * phdrSize) int64Max phdrs = .ok ()
  layout : checkLayout cfg hdr.ehdr (phdrs.length * phdrSize) phdrs = .ok phdrAddr

variable {fpu : Bool} {hdr : ElfHeader} {phdrAddr : ℕ}

/-- No sum or difference that `load_segments` computes for the segment wraps around. -/
structure Phdr.Exact (ehdr : Ehdr) (p : Phdr) : Prop where
  vaddr : ehdr.loadOffset + p.vaddr < 2 ^ 64
  stop : ehdr.loadOffset + p.vaddr + p.memsz + (pageSize - 1) < 2 ^ 64
  offset : p.offset + p.segStart ehdr < 2 ^ 64
  offset_sub : ehdr.loadOffset + p.vaddr ≤ p.offset + p.segStart ehdr
  fend : ehdr.loadOffset + p.vaddr + p.filesz < 2 ^ 64

theorem Phdr.Placed.exact (h : p.Placed cfg ehdr) : p.Exact ehdr := by
  have hupper := h.upper
  have hbounds := h.bounds
  have hfilesz := h.filesz_le
  have hend := h.file_end
  have hcfg := cfg.bottoms
  rw [int64Max] at hend
  exact ⟨by omega, by rw [pageSize_eq]; omega, by omega, h.offset_eq.1, by omega⟩

/-- The part of a VMA that comes from the file lies in the VMA, and the position of its first page
is a file offset and a multiple of the page size. -/
structure Vma.FileOk (v : Vma) : Prop where
  offset_aligned : v.offset % pageSize = 0
  offset_le : v.offset ≤ int64Max
  start_le : v.start ≤ v.fstart
  fstart_le : v.fstart ≤ v.fend
  fend_le : v.fend ≤ v.stop

theorem Phdr.Placed.fileOk (h : p.Placed cfg ehdr) (hfile : (segmentVma ehdr file p).file ≠ none) :
    (segmentVma ehdr file p).FileOk := by
  have hbounds := h.bounds
  have hfilesz := h.filesz_le
  have hend := h.file_end
  have hoffset := h.offset_eq.2
  have hfsz : p.filesz ≠ 0 := by
    intro hzero
    rw [segmentVma, Vma.backBy, if_neg (not_not_intro hzero)] at hfile
    exact hfile rfl
  rw [segmentVma, Vma.backBy, if_pos hfsz]
  refine ⟨?_, ?_, hbounds.2.1, Nat.le_add_right _ _, ?_⟩
  · dsimp only
    rw [hoffset]
    exact alignDown_aligned _
  · dsimp only
    rw [hoffset]
    exact (alignDown_le _).trans (by omega)
  · dsimp only
    omega

/-- What holds of an image that has been accepted. -/
structure ImageOk (cfg : MmConfig) (ehdr : Ehdr) (phdrs : List Phdr) : Prop where
  exact : ∀ p ∈ phdrs, p.Loads → p.Exact ehdr
  /-- The pages of the segments are apart. -/
  apart : phdrs.Pairwise fun p q => p.Loads → q.Loads → p.segStop ehdr ≤ q.segStart ehdr
  /-- They are user pages below the guard page, the stack and the trampoline. -/
  user : ∀ p ∈ phdrs, p.Loads → uvaddrStart ≤ p.segStart ehdr ∧ p.segStop ehdr ≤ cfg.guardBottom
  above : cfg.guardBottom + pageSize = cfg.ustackBottom ∧ cfg.ustackBottom < ustackTop ∧
    ustackTop < userTrampoline
  /-- Loading can only fail for lack of memory. -/
  loads : ∀ rb ok file, Fulfills ok (loadExec cfg ehdr rb ok file phdrs) fun mm =>
    (∀ p ∈ phdrs, p.Loads → segmentVma ehdr file p ∈ mm.vmas.toList) ∧
      (∀ v ∈ mm.vmas.toList, v.file ≠ none → v.FileOk) ∧
      ∃ v ∈ mm.vmas.toList, v.Covers (ehdr.loadOffset + ehdr.entry) ∧ v.flags.exec

/-- The entry point lies in the VMA of the segment that has it. -/
theorem Phdr.Enters.covers (henters : p.Enters ehdr) (h : p.Placed cfg ehdr) :
    (segmentVma ehdr file p).Covers (ehdr.loadOffset + ehdr.entry) ∧
      (segmentVma ehdr file p).flags.exec := by
  obtain ⟨-, hexec, hle, hlt⟩ := henters
  have hbounds := h.bounds
  refine ⟨⟨?_, ?_⟩, ?_⟩
  · rw [segmentVma_bounds.1]
    omega
  · rw [segmentVma_bounds.2.1]
    omega
  · rw [segmentVma_bounds.2.2]
    exact decide_eq_true hexec

/-- **Accepted images load.** -/
theorem imageOk_of_accepted (h : Accepted cfg fpu hdr phdrs phdrAddr) :
    ImageOk cfg hdr.ehdr phdrs := by
  obtain ⟨hplaced, hpair, -⟩ := segments_of_checks h.table h.layout
  refine ⟨fun p hp hload => (hplaced p hp hload).exact, hpair, fun p hp hload => ?_, ?_, ?_⟩
  · have hbounds := (hplaced p hp hload).bounds
    exact ⟨hbounds.1, hbounds.2.2.2⟩
  · have hcfg := cfg.bottoms
    have htop : ustackTop < userTrampoline := by decide
    rw [pageSize_eq, ustackTop_eq]
    exact ⟨by omega, by omega, htop⟩
  · intro rb ok file
    refine (fulfills_loadExec rb ok file h.table h.layout).mono fun mm hmm =>
      ⟨fun p hp hload => ?_, ?_, ?_⟩
    · exact (hmm.2.1 _).mpr (.inr ⟨p, hp, hload, rfl⟩)
    · intro v hv hfile
      rcases (hmm.2.1 v).mp hv with rfl | ⟨p, hp, hload, rfl⟩
      · exact absurd rfl hfile
      · exact (hplaced p hp hload).fileOk hfile
    · obtain ⟨p, hp, henters⟩ := exists_enters h.table
      have hload : p.Loads := ⟨henters.1, by have := henters.2.2.2; omega⟩
      exact ⟨_, (hmm.2.1 _).mpr (.inr ⟨p, hp, hload, rfl⟩), henters.covers (hplaced p hp hload)⟩

/-- A position-independent program with a segment of code that holds the headers, and a segment of
data that is longer in memory than in the file. -/
def pieHeader : ElfHeader where
  ident := fun i => [0x7f, 0x45, 0x4c, 0x46, 2, 1, 1].getD i 0
  type := etDyn
  machine := emRiscv
  version := evCurrent
  entry := 0x1000
  phoff := 64
  flags := efRiscvRvc ||| efRiscvFloatAbiDouble
  ehsize := ehdrSize
  phentsize := phdrSize
  phnum := 2

def piePhdrs : List Phdr :=
  [⟨.load, pfR ||| pfX, 0, 0, 0x1800, 0x1800, 0x1000⟩,
    ⟨.load, pfR ||| pfW, 0x1800, 0x2800, 0x100, 0x1900, 0x1000⟩]

theorem accepted_pie : Accepted ⟨16, by decide⟩ true pieHeader piePhdrs 0x10040 :=
  ⟨by decide, by decide, by decide, by decide⟩

theorem imageOk_pie : ImageOk ⟨16, by decide⟩ pieHeader.ehdr piePhdrs :=
  imageOk_of_accepted accepted_pie

end Nuvix
