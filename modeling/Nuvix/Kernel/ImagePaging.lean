import Nuvix.Lib.Bytes
import Nuvix.Mm.PageTable

/-!
# The contents of a program: `load_exec` and `handle_page_fault`

A program is not copied when it is loaded. `load_segments` notes in each VMA which part of it comes
from the file, `vma_split` cuts these notes when a range is unmapped or protected, and a fault reads
one page according to the note it finds. Here the three are put together, to the byte: whatever
ranges are unmapped and protected, and in whatever order the pages are touched, every byte of a
segment is the byte of the file it stands for, or zero, until the program stores another one.
-/

namespace Nuvix.Paging

open Bytes SearchTree Transition Function
open Vm (Access)

/-! ### Files -/

/-- A file whose contents do not change. -/
structure File where
  size : ℕ
  bytes : Store

/-- Copy `n` bytes of the file from `pos` on to `dst`. -/
def copyIn (f : File) (pos dst n : ℕ) (buf : Store) : Store :=
  fun j => if dst ≤ j ∧ j < dst + n then f.bytes (pos + (j - dst)) else buf j

/-- The loop `while (iov.count)` around `vfs_read`. A call may fail or read less than it is asked
for, as `chunk` says; it reads nothing at the end of the file, which is the error `eof`. -/
def readLoop (f : File) (eof : Errno) (chunk : ℕ → Except Errno ℕ) :
    ℕ → ℕ → ℕ → ℕ → ℕ → Store → Except Errno Store
  | 0, _, _, _, _, buf => .ok buf
  | fuel + 1, turn, pos, dst, count, buf =>
    if count = 0 then .ok buf
    else
      match chunk turn with
      | .error e => .error e
      | .ok n =>
        let got := min n (min count (f.size - pos))
        if got = 0 then .error eof
        else
          readLoop f eof chunk fuel (turn + 1) (pos + got) (dst + got) (count - got)
            (copyIn f pos dst got buf)

variable {f : File} {eof : Errno} {chunk : ℕ → Except Errno ℕ} {fuel turn pos dst count : ℕ}
  {buf buf' : Store} {j : ℕ}

/-- If the loop ends well, it has read all that it was asked for. -/
theorem readLoop_eq_ok (hfuel : count ≤ fuel)
    (h : readLoop f eof chunk fuel turn pos dst count buf = .ok buf') :
    buf' = copyIn f pos dst count buf := by
  induction fuel generalizing turn pos dst count buf with
  | zero =>
    cases h
    funext j
    rw [copyIn, if_neg (by omega)]
  | succ fuel ih =>
    rw [readLoop] at h
    split at h
    next hzero =>
      cases h
      funext j
      rw [copyIn, if_neg (by omega)]
    cases hchunk : chunk turn with
    | error e =>
      rw [hchunk] at h
      cases h
    | ok n =>
      rw [hchunk] at h
      dsimp only at h
      have hgot : min n (min count (f.size - pos)) ≤ count := by omega
      generalize min n (min count (f.size - pos)) = got at *
      split at h
      · cases h
      rw [ih (by omega) h]
      funext j
      unfold copyIn
      by_cases hj : dst ≤ j ∧ j < dst + got
      · rw [if_neg (by omega), if_pos hj, if_pos (by omega)]
      · rw [if_neg hj]
        by_cases hj' : dst ≤ j ∧ j < dst + count
        · have hpos : pos + got + (j - (dst + got)) = pos + (j - dst) := by omega
          rw [if_pos (by omega), if_pos hj', hpos]
        · rw [if_neg (by omega), if_neg hj']

/-- Within the file, the loop ends well if no call fails. -/
theorem exists_readLoop_eq_ok (hchunk : ∀ n, ∃ m, 0 < m ∧ chunk n = .ok m)
    (hend : pos + count ≤ f.size) :
    ∃ buf', readLoop f eof chunk fuel turn pos dst count buf = .ok buf' := by
  induction fuel generalizing turn pos dst count buf with
  | zero => exact ⟨buf, rfl⟩
  | succ fuel ih =>
    rw [readLoop]
    split
    · exact ⟨buf, rfl⟩
    obtain ⟨m, hm, hturn⟩ := hchunk turn
    rw [hturn]
    dsimp only
    rw [if_neg (by omega)]
    exact ih (by omega)

/-! ### Loading -/

/-- The fields of the ELF header. -/
def readEhdr (b : Store) : ElfHeader where
  ident := fun i => (b i).toNat
  type := load b 16 2
  machine := load b 18 2
  version := load b 20 4
  entry := load b 24 8
  phoff := load b 32 8
  flags := load b 48 4
  ehsize := load b 52 2
  phentsize := load b 54 2
  phnum := load b 56 2

/-- The values of `p_type` that are told apart. -/
def phdrType : ℕ → PhdrType
  | 1 => .load
  | 2 => .dynamic
  | 3 => .interp
  | 5 => .shlib
  | 6 => .phdr
  | 7 => .tls
  | 0x6474e551 => .gnuStack
  | 0x6474e552 => .gnuRelro
  | _ => .other

/-- The fields of the program header at `a`; `p_paddr` is not read. -/
def readPhdr (b : Store) (a : ℕ) : Phdr where
  type := phdrType (load b a 4)
  flags := load b (a + 4) 4
  offset := load b (a + 8) 8
  vaddr := load b (a + 16) 8
  filesz := load b (a + 32) 8
  memsz := load b (a + 40) 8
  align := load b (a + 48) 8

/-- `read_exact`. -/
def readExact (f : File) (chunk : ℕ → Except Errno ℕ) (size offset : ℕ) : Except Errno Store :=
  readLoop f .enoexec chunk size 0 offset 0 size fun _ => 0

/-- `struct exec_image`; `table` is the memory that `phdrs` points to. -/
structure ExecImage where
  hdr : ElfHeader
  table : Store
  phdrAddr : ℕ

/-- The program headers of the table. -/
def ExecImage.phdrs (img : ExecImage) : List Phdr :=
  (List.range img.hdr.phnum).map fun i => readPhdr img.table (i * phdrSize)

/-- What the world decides while a program is loaded: how the two reads go, and whether there is
memory for the table and for the VMAs. -/
structure ExecEnv where
  ehdrChunk : ℕ → Except Errno ℕ
  phdrChunk : ℕ → Except Errno ℕ
  kmalloc : Bool
  ok : ℕ → Bool

/-- `load_exec` of the file with a given number. -/
def loadFile (cfg : MmConfig) (fpu : Bool) (rb : Rebalance Vma) (files : ℕ → File) (env : ExecEnv)
    (file : ℕ) : Except Errno (Mm × ExecImage) := do
  let buf ← readExact (files file) env.ehdrChunk ehdrSize 0
  let hdr := readEhdr buf
  elfCheckEhdr fpu hdr int64Max
  let phsize := hdr.phnum * phdrSize
  if env.kmalloc then
    let table ← readExact (files file) env.phdrChunk phsize hdr.phoff
    let phdrs := ExecImage.phdrs ⟨hdr, table, 0⟩
    elfCheckPhdrs hdr.ehdr phsize int64Max phdrs
    let phdrAddr ← checkLayout cfg hdr.ehdr phsize phdrs
    let mm ← loadSegments hdr.ehdr rb env.ok file 0 mmAlloc phdrs
    let mm ← setupStack cfg rb (env.ok phdrs.length) mm
    return (mm, ⟨hdr, table, phdrAddr⟩)
  else .error .enomem

/-! ### Page faults -/

/-- A page that is mapped: its contents, and the bytes that the program has stored since it was
mapped. -/
structure Frame where
  now : Store
  stored : ℕ → Bool

/-- What the world decides during a fault: whether the page is shared, whether there is memory for
a page and for page tables, and how the file is read. -/
structure FaultEnv where
  shared : Bool
  allocated : Bool
  chunk : ℕ → Except Errno ℕ
  mapped : Bool

/-- The part of `handle_page_fault` that fills a new page for address `addr`. -/
def fillPage (files : ℕ → File) (vma : Vma) (addr : ℕ) (chunk : ℕ → Except Errno ℕ) :
    Except Errno Store :=
  match vma.file with
  | none => .ok fun _ => 0
  | some f =>
    let first := max addr vma.fstart
    let last := min (addr + pageSize) vma.fend
    if first < last then
      readLoop (files f) .eio chunk (last - first) 0 (vma.offset + first - vma.start)
        (first - addr) (last - first) fun _ => 0
    else .ok fun _ => 0

/-- `handle_page_fault`. -/
def handlePageFault (files : ℕ → File) (s : MapState Frame) (addr : ℕ) (access : Access)
    (env : FaultEnv) : Except Errno (MapState Frame) :=
  match vmaFind s.mm.vmas addr with
  | none => .error .efault
  | some vma =>
    if ¬ access.allowedBy vma.flags then .error .eacces
    else
      let v := addr / pageSize
      match s.pte v with
      | some frame =>
        if access ≠ .write then .ok s
        -- the only user of the page gets its permissions back
        else if ¬ env.shared then .ok s
        else if ¬ env.allocated then .error .enomem
        -- the copy of the page has its contents
        else .ok { s with pte := update s.pte v (some ⟨frame.now, frame.stored⟩) }
      | none =>
        if ¬ env.allocated then .error .enomem
        else do
          let data ← fillPage files vma (alignDown addr pageSize) env.chunk
          if env.mapped then
            .ok { s with pte := update s.pte v (some ⟨data, fun _ => false⟩) }
          else .error .enomem

/-! ### Runs -/

/-- What happens to a program. -/
inductive Action
  | fault (addr : ℕ) (access : Access) (env : FaultEnv)
  | munmap (ok : ℕ → Bool) (start len : ℕ)
  | mprotect (ok : ℕ → Bool) (start len prot : ℕ)
  | store (addr : ℕ) (b : BitVec 8)

/-- The state after a call, unless a failed assertion has stopped the kernel. -/
def settle : Outcome Errno Unit × MapState Frame → Option (MapState Frame)
  | (.stop, _) => none
  | (_, s') => some s'

/-- One step. -/
def step (cfg : MmConfig) (rb : Rebalance Vma) (files : ℕ → File) (s : MapState Frame) :
    Action → Option (MapState Frame)
  | .fault addr access env =>
    settle (Prog.tryModify (handlePageFault files · addr access env) s)
  | .munmap ok start len => settle (MapState.sysMunmap cfg rb ok start len s)
  | .mprotect ok start len prot => settle (MapState.sysMprotect cfg rb ok start len prot s)
  | .store addr b =>
    (s.pte (addr / pageSize)).map fun frame =>
      let frame := ⟨update frame.now (addr % pageSize) b,
        update frame.stored (addr % pageSize) true⟩
      { s with pte := update s.pte (addr / pageSize) (some frame) }

/-! ### One page -/

section

variable {files : ℕ → File} {vma : Vma} {addr : ℕ} {data : Store}

/-- The byte at a place of a file; without a place it is zero. -/
def sourceByte (files : ℕ → File) : Option (ℕ × ℕ) → BitVec 8
  | none => 0
  | some (f, pos) => (files f).bytes pos

/-- Every byte of a new page comes from the place its address has in the VMA. -/
theorem fillPage_eq_ok (hstart : vma.start ≤ addr) (h : fillPage files vma addr chunk = .ok data)
    (hj : j < pageSize) : data j = sourceByte files (vma.filePos (addr + j)) := by
  unfold fillPage at h
  unfold Vma.filePos
  cases hfile : vma.file with
  | none =>
    rw [hfile] at h
    cases h
    rfl
  | some f =>
    rw [hfile] at h
    dsimp only at h ⊢
    split at h
    · rw [readLoop_eq_ok le_rfl h, copyIn]
      -- the part that is read is where the page meets the part of the VMA that has a file
      by_cases hin : vma.fstart ≤ addr + j ∧ addr + j < vma.fend
      · have hpos : vma.offset + max addr vma.fstart - vma.start +
            (j - (max addr vma.fstart - addr)) = vma.offset + (addr + j - vma.start) := by omega
        rw [if_pos (by omega), if_pos hin, hpos, sourceByte]
      · rw [if_neg (by omega), if_neg hin, sourceByte]
    · cases h
      rw [if_neg (by omega), sourceByte]

/-- A page whose part of the file exists can be filled. -/
theorem exists_fillPage_eq_ok (hchunk : ∀ n, ∃ m, 0 < m ∧ chunk n = .ok m)
    (hstart : vma.start ≤ addr)
    (hend : ∀ j < pageSize, ∀ f pos, vma.filePos (addr + j) = some (f, pos) →
      pos < (files f).size) :
    ∃ data, fillPage files vma addr chunk = .ok data := by
  unfold fillPage
  cases hfile : vma.file with
  | none => exact ⟨_, rfl⟩
  | some f =>
    dsimp only
    split
    next hlt =>
      refine exists_readLoop_eq_ok hchunk ?_
      -- the last byte to be read is in the file
      generalize hlast : min (addr + pageSize) vma.fend - 1 - addr = j
      have hj : j < pageSize := by
        rw [pageSize_eq] at *
        omega
      have hpos : vma.filePos (addr + j) = some (f, vma.offset + (addr + j - vma.start)) := by
        rw [Vma.filePos, hfile]
        exact if_pos (by omega)
      have hlt := hend j hj f _ hpos
      omega
    · exact ⟨_, rfl⟩

end

/-! ### The invariant -/

section

variable (ehdr : Ehdr) (phdrs : List Phdr) (files : ℕ → File) (file : ℕ)

/-- The place in the file that the byte at an address of a segment starts out from. -/
def SegmentSource (a : ℕ) (src : Option (ℕ × ℕ)) : Prop :=
  ∀ p ∈ phdrs, p.Loads → p.segStart ehdr ≤ a → a < p.segStop ehdr →
    src = (segmentVma ehdr file p).filePos a

/-- The byte at an address of a segment is the one that the file gives it. -/
def SegmentByte (a : ℕ) (b : BitVec 8) : Prop :=
  ∀ p ∈ phdrs, p.Loads → p.segStart ehdr ≤ a → a < p.segStop ehdr →
    b = sourceByte files ((segmentVma ehdr file p).filePos a)

/-- Every address of a segment that is still mapped has kept its place in the file, and the pages
that are mapped have their bytes from there, apart from those that were stored. -/
structure Inv (s : MapState Frame) : Prop where
  tree : TreeOk s.mm.vmas
  source : ∀ a b, attr s.mm.vmas a = some b → SegmentSource ehdr phdrs file a b.2
  bytes : ∀ v frame, s.pte v = some frame → ∀ j < pageSize, frame.stored j = false →
    SegmentByte ehdr phdrs files file (v * pageSize + j) (frame.now j)

end

variable {cfg : MmConfig} {rb : Rebalance Vma} {ok : ℕ → Bool} {ehdr : Ehdr} {phdrs : List Phdr}
  {files : ℕ → File} {file addr start len prot v : ℕ} {access : Access} {env : FaultEnv}
  {s s' : MapState Frame} {vma : Vma}

/-- The page of an address in a VMA lies in the VMA. -/
theorem covers_page (h : vma.Valid) (ha : vma.Covers addr) (hj : j < pageSize) :
    vma.Covers (addr / pageSize * pageSize + j) := by
  have hstart := h.start_aligned
  have hstop := h.stop_aligned
  obtain ⟨hle, hlt⟩ := ha
  unfold Vma.Covers
  rw [pageSize_eq] at *
  omega

namespace Inv

section

variable (h : Inv ehdr phdrs files file s)
include h

/-- A page is mapped, or gets other contents. -/
theorem setPage {frame : Frame} (hframe : ∀ j < pageSize, frame.stored j = false →
      SegmentByte ehdr phdrs files file (v * pageSize + j) (frame.now j)) :
    Inv ehdr phdrs files file { s with pte := update s.pte v (some frame) } := by
  refine ⟨h.tree, h.source, fun w fr hw => ?_⟩
  rcases eq_of_update hw with ⟨rfl, ⟨⟩⟩ | ⟨-, hw⟩
  · exact hframe
  · exact h.bytes w fr hw

theorem store {frame : Frame} {b : BitVec 8} (hframe : s.pte (addr / pageSize) = some frame) :
    Inv ehdr phdrs files file ⟨s.mm, update s.pte (addr / pageSize)
      (some ⟨update frame.now (addr % pageSize) b,
        update frame.stored (addr % pageSize) true⟩)⟩ := by
  refine h.setPage fun j hj hstored => ?_
  obtain ⟨hja, hold⟩ := (eq_of_update hstored).resolve_left nofun
  dsimp only
  rw [update_of_ne hja]
  exact h.bytes _ frame hframe j hj hold

theorem addPage {data : Store} (hfind : vmaFind s.mm.vmas addr = some vma)
    (hfill : fillPage files vma (alignDown addr pageSize) chunk = .ok data) :
    Inv ehdr phdrs files file
      { s with pte := update s.pte (addr / pageSize) (some ⟨data, fun _ => false⟩) } := by
  obtain ⟨hmem, hcov⟩ := vmaFind_eq_some hfind
  have hpage : ∀ j < pageSize, vma.Covers (addr / pageSize * pageSize + j) := fun j hj =>
    covers_page (h.tree.valid vma hmem) hcov hj
  have hstart : vma.start ≤ addr / pageSize * pageSize := by
    have hfirst := (hpage 0 (by decide)).1
    rwa [Nat.add_zero] at hfirst
  rw [alignDown] at hfill
  refine h.setPage fun j hj _ p hp hload hle hlt => ?_
  have hsrc := h.source _ _ (attr_of_mem h.tree hmem (hpage j hj)) p hp hload hle hlt
  exact (fillPage_eq_ok hstart hfill hj).trans (congrArg _ hsrc)

theorem fault (hs : handlePageFault files s addr access env = .ok s') :
    Inv ehdr phdrs files file s' := by
  unfold handlePageFault at hs
  cases hfind : vmaFind s.mm.vmas addr with
  | none =>
    rw [hfind] at hs
    cases hs
  | some vma =>
    rw [hfind] at hs
    dsimp only at hs
    split at hs
    · cases hs
    cases hpage : s.pte (addr / pageSize) with
    | some frame =>
      rw [hpage] at hs
      dsimp only at hs
      split at hs
      · cases hs
        exact h
      split at hs
      · cases hs
        exact h
      split at hs
      · cases hs
      · cases hs
        exact h.setPage (h.bytes _ frame hpage)
    | none =>
      rw [hpage] at hs
      dsimp only at hs
      split at hs
      · cases hs
      cases hfill : fillPage files vma (alignDown addr pageSize) env.chunk with
      | error e =>
        rw [hfill] at hs
        cases hs
      | ok data =>
        rw [hfill] at hs
        change (if env.mapped then _ else _) = _ at hs
        split_ifs at hs
        cases hs
        exact h.addPage hfind hfill

theorem unmapped {stop : ℕ} (hs : MapState.Unmapped start stop s s') :
    Inv ehdr phdrs files file s' := by
  refine ⟨hs.tree, fun a b hb => ?_, fun v frame hframe => h.bytes v frame (hs.entry hframe).1⟩
  rw [hs.attr] at hb
  split at hb
  · cases hb
  · exact h.source a b hb

/-- Other flags leave the addresses their places in the file. -/
theorem reprotected (hs : MapState.Reprotected start prot s s') : Inv ehdr phdrs files file s' := by
  obtain rfl | ⟨stop, t, hprot, rfl⟩ := hs
  · exact h
  refine ⟨hprot.tree, fun a b hb => ?_, h.bytes⟩
  change attr t a = some b at hb
  rw [hprot.attr] at hb
  split at hb
  · obtain ⟨b₀, hb₀, rfl⟩ := Option.map_eq_some_iff.mp hb
    exact h.source a b₀ hb₀
  · exact h.source a b hb

omit h in
/-- A call that keeps the invariant leaves a state in which it holds. -/
theorem settle {x : Prog (MapState Frame) Errno Unit}
    (hx : x.Runs s (fun _ => Inv ehdr phdrs files file) fun _ => Inv ehdr phdrs files file)
    (hs : Paging.settle (x s) = some s') : Inv ehdr phdrs files file s' := by
  unfold Prog.Runs at hx
  split at hx
  next heq =>
    rw [heq] at hs
    cases hs
    exact hx
  next heq =>
    rw [heq] at hs
    cases hs
    exact hx
  · exact hx.elim

theorem step {a : Action} (hs : Paging.step cfg rb files s a = some s') :
    Inv ehdr phdrs files file s' := by
  cases a with
  | fault addr access env => exact settle (.tryModify (fun s₁ hs₁ => h.fault hs₁) fun _ _ => h) hs
  | munmap ok start len =>
    refine settle ((MapState.runs_sysMunmap h.tree).mono ?_ ?_) hs
    · rintro _ s₁ ⟨stop, -, hs₁⟩
      exact h.unmapped hs₁
    · rintro e _ rfl
      exact h
  | mprotect ok start len prot =>
    exact settle ((MapState.runs_sysMprotect h.tree).mono (fun _ _ => h.reprotected)
      fun _ _ => h.reprotected) hs
  | store addr b =>
    obtain ⟨frame, hframe, rfl⟩ := Option.map_eq_some_iff.mp hs
    exact h.store hframe

end

end Inv

/-! ### The program -/

section

variable {fpu : Bool} {execEnv : ExecEnv} {mm : Mm} {img : ExecImage} {p : Phdr} {a : ℕ}

theorem length_phdrs (img : ExecImage) : img.phdrs.length = img.hdr.phnum := by
  rw [ExecImage.phdrs, List.length_map, List.length_range]

theorem loadExec_eq_setupStack {phdrAddr : ℕ}
    (hphdrs : elfCheckPhdrs ehdr (phdrs.length * phdrSize) int64Max phdrs = .ok ())
    (hlayout : checkLayout cfg ehdr (phdrs.length * phdrSize) phdrs = .ok phdrAddr)
    (hload : loadSegments ehdr rb ok file 0 mmAlloc phdrs = .ok mm) :
    loadExec cfg ehdr rb ok file phdrs = setupStack cfg rb (ok phdrs.length) mm := by
  unfold loadExec
  dsimp only
  rw [hphdrs, hlayout, hload]
  rfl

/-- A program that has been loaded has passed the checks, and its table is that of the file. -/
theorem loadFile_eq_ok (h : loadFile cfg fpu rb files execEnv file = .ok (mm, img)) :
    Accepted cfg fpu img.hdr img.phdrs img.phdrAddr ∧
      loadExec cfg img.hdr.ehdr rb execEnv.ok file img.phdrs = .ok mm ∧
      ∀ k < img.hdr.phnum * phdrSize, img.table k = (files file).bytes (img.hdr.phoff + k) := by
  unfold loadFile at h
  obtain ⟨buf, -, h⟩ := exists_of_bind_eq_ok h
  obtain ⟨_, hehdr, h⟩ := exists_of_bind_eq_ok h
  split at h
  swap
  · cases h
  obtain ⟨table, htable, h⟩ := exists_of_bind_eq_ok h
  obtain ⟨_, hphdrs, h⟩ := exists_of_bind_eq_ok h
  obtain ⟨phdrAddr, hlayout, h⟩ := exists_of_bind_eq_ok h
  obtain ⟨mm₁, hload, h⟩ := exists_of_bind_eq_ok h
  obtain ⟨mm₂, hstack, h⟩ := exists_of_bind_eq_ok h
  cases h
  -- the headers do not depend on where they are in memory
  have hlength := length_phdrs ⟨readEhdr buf, table, phdrAddr⟩
  have htable' : elfCheckPhdrs (readEhdr buf).ehdr
      ((ExecImage.phdrs ⟨readEhdr buf, table, phdrAddr⟩).length * phdrSize) int64Max
      (ExecImage.phdrs ⟨readEhdr buf, table, phdrAddr⟩) = .ok () := by
    rw [hlength]
    exact hphdrs
  have hlayout' : checkLayout cfg (readEhdr buf).ehdr
      ((ExecImage.phdrs ⟨readEhdr buf, table, phdrAddr⟩).length * phdrSize)
      (ExecImage.phdrs ⟨readEhdr buf, table, phdrAddr⟩) = .ok phdrAddr := by
    rw [hlength]
    exact hlayout
  refine ⟨⟨hehdr, hlength, htable', hlayout'⟩, ?_, fun k hk => ?_⟩
  · exact (loadExec_eq_setupStack htable' hlayout' hload).trans hstack
  · change table k = (files file).bytes ((readEhdr buf).phoff + k)
    dsimp only at hk
    rw [readLoop_eq_ok le_rfl htable, copyIn, if_pos (by omega), Nat.sub_zero]

/-- The address space when the program starts: apart from the stack, where the arguments are, and
the trampoline above it, no page is mapped. -/
def Started (cfg : MmConfig) (mm : Mm) (s : MapState Frame) : Prop :=
  s.mm = mm ∧ ∀ v, (s.pte v).isSome → cfg.ustackBottom ≤ v * pageSize

/-- The invariant holds of a program that has been loaded. -/
theorem inv_of_started (h : loadFile cfg fpu rb files execEnv file = .ok (mm, img))
    (hs : Started cfg mm s) : Inv img.hdr.ehdr img.phdrs files file s := by
  obtain ⟨haccepted, hload, -⟩ := loadFile_eq_ok h
  obtain ⟨hplaced, -, -⟩ := segments_of_checks haccepted.table haccepted.layout
  have hmm := fulfills_loadExec rb execEnv.ok file haccepted.table haccepted.layout
  rw [hload] at hmm
  obtain ⟨htree, hmem, -⟩ := hmm
  obtain ⟨rfl, hpages⟩ := hs
  refine ⟨htree, fun a b hb p hp hp' hle hlt => ?_, fun v frame hframe => ?_⟩
  · have hcov : (segmentVma img.hdr.ehdr file p).Covers a := by
      unfold Vma.Covers
      rw [segmentVma_bounds.1, segmentVma_bounds.2.1]
      exact ⟨hle, hlt⟩
    rw [attr_of_mem htree ((hmem _).mpr (.inr ⟨p, hp, hp', rfl⟩)) hcov] at hb
    cases hb
    rfl
  · -- the stack is above the segments
    intro j hj _ p hp hp' hle hlt
    have hbottom := hpages v (Option.isSome_of_eq_some hframe)
    have hstop := (hplaced p hp hp').bounds.2.2.2
    have hcfg := cfg.bottoms
    omega

/-- The page of an address is mapped, with this byte there, which the program has not stored. -/
def Shows (s : MapState Frame) (a : ℕ) (b : BitVec 8) : Prop :=
  ∃ frame, s.pte (a / pageSize) = some frame ∧ frame.stored (a % pageSize) = false ∧
    frame.now (a % pageSize) = b

/-- What the pages of a program hold until the program stores something else. -/
structure ContentsOk (files : ℕ → File) (file : ℕ) (img : ExecImage) (s : MapState Frame) :
    Prop where
  /-- The bytes of a segment that are in the file. -/
  image : ∀ p ∈ img.phdrs, p.Loads → ∀ i < p.filesz, ∀ b,
    Shows s (img.hdr.ehdr.loadOffset + p.vaddr + i) b → b = (files file).bytes (p.offset + i)
  /-- The other bytes of the pages of a segment. -/
  zero : ∀ p ∈ img.phdrs, p.Loads → ∀ a, p.segStart img.hdr.ehdr ≤ a →
    a < p.segStop img.hdr.ehdr →
    ¬ (img.hdr.ehdr.loadOffset + p.vaddr ≤ a ∧ a < img.hdr.ehdr.loadOffset + p.vaddr + p.filesz) →
    ∀ b, Shows s a b → b = 0
  /-- The program headers, if `AT_PHDR` is an address in a segment. -/
  phdrs : img.phdrAddr ≠ 0 → ∀ k < img.hdr.phnum * phdrSize, ∀ b,
    Shows s (img.phdrAddr + k) b → b = img.table k
  /-- A page of a segment that is still mapped is there after a fault, if there is memory and the
  file can be read; a byte of a page that was not there has not been stored. -/
  served : ∀ p ∈ img.phdrs, p.Loads → ∀ a, p.segStart img.hdr.ehdr ≤ a →
    a < p.segStop img.hdr.ehdr → ∀ attrs, attr s.mm.vmas a = some attrs → ∀ access : Access,
    access.allowedBy attrs.1 → ∀ env : FaultEnv, env.allocated → env.mapped →
    (∀ n, ∃ m, 0 < m ∧ env.chunk n = .ok m) →
    ∃ s', handlePageFault files s a access env = .ok s' ∧ (s'.pte (a / pageSize)).isSome ∧
      (s.pte (a / pageSize) = none → ∃ b, Shows s' a b)

/-- The place of an address of a segment in the file. -/
theorem segmentVma_filePos (h : p.Placed cfg ehdr) (ha : p.segStart ehdr ≤ a) :
    (segmentVma ehdr file p).filePos a =
      if ehdr.loadOffset + p.vaddr ≤ a ∧ a < ehdr.loadOffset + p.vaddr + p.filesz then
        some (file, p.offset + (a - (ehdr.loadOffset + p.vaddr))) else none := by
  have hbounds := h.bounds
  have hoffset := h.offset_eq.1
  unfold segmentVma Vma.backBy Vma.filePos
  by_cases hzero : p.filesz = 0
  · rw [if_neg (not_not_intro hzero), if_neg (by omega)]
  · rw [if_pos hzero]
    dsimp only
    split
    · have hpos : p.offset + p.segStart ehdr - (ehdr.loadOffset + p.vaddr) +
          (a - p.segStart ehdr) = p.offset + (a - (ehdr.loadOffset + p.vaddr)) := by omega
      rw [hpos]
    · rfl

/-- The byte at an address of a segment, if the program has stored none there. -/
theorem Inv.byte_at {b : BitVec 8} (h : Inv ehdr phdrs files file s) (hp : p ∈ phdrs)
    (hload : p.Loads) (hplaced : p.Placed cfg ehdr) (hle : p.segStart ehdr ≤ a)
    (hlt : a < p.segStop ehdr) (hb : Shows s a b) :
    b = if ehdr.loadOffset + p.vaddr ≤ a ∧ a < ehdr.loadOffset + p.vaddr + p.filesz then
        (files file).bytes (p.offset + (a - (ehdr.loadOffset + p.vaddr))) else 0 := by
  obtain ⟨frame, hframe, hstored, rfl⟩ := hb
  have hbyte := h.bytes _ frame hframe (a % pageSize) (Nat.mod_lt a (by decide)) hstored p hp hload
  rw [Nat.div_add_mod' a pageSize] at hbyte
  rw [hbyte hle hlt, segmentVma_filePos hplaced hle]
  split
  · rfl
  · rfl

/-- A fault at an address of a segment that is still mapped. -/
theorem Inv.served {b : VmFlags × Option (ℕ × ℕ)} (h : Inv ehdr phdrs files file s)
    (hp : p ∈ phdrs) (hload : p.Loads) (hplaced : p.Placed cfg ehdr)
    (hrange : p.offset + p.filesz ≤ (files file).size) (hle : p.segStart ehdr ≤ a)
    (hlt : a < p.segStop ehdr) (hb : attr s.mm.vmas a = some b) (haccess : access.allowedBy b.1)
    (hallocated : env.allocated) (hmapped : env.mapped)
    (hchunk : ∀ n, ∃ m, 0 < m ∧ env.chunk n = .ok m) :
    ∃ s', handlePageFault files s a access env = .ok s' ∧ (s'.pte (a / pageSize)).isSome ∧
      (s.pte (a / pageSize) = none → ∃ b, Shows s' a b) := by
  obtain ⟨vma, hfind, rfl⟩ := Option.map_eq_some_iff.mp hb
  obtain ⟨hmem, hcov⟩ := vmaFind_eq_some hfind
  unfold handlePageFault
  rw [hfind]
  dsimp only
  change access.allowedBy vma.flags at haccess
  rw [if_neg (not_not_intro haccess)]
  cases hpage : s.pte (a / pageSize) with
  | some frame =>
    dsimp only
    split
    · exact ⟨s, rfl, Option.isSome_of_eq_some hpage, nofun⟩
    split
    · exact ⟨s, rfl, Option.isSome_of_eq_some hpage, nofun⟩
    refine ⟨_, rfl, ?_, nofun⟩
    dsimp only
    rw [update_self]
    rfl
  | none =>
    dsimp only
    rw [if_neg (not_not_intro hallocated)]
    have hvalid := h.tree.valid vma hmem
    have hstart : vma.start ≤ alignDown a pageSize := by
      have hfirst := (covers_page hvalid hcov (by decide : 0 < pageSize)).1
      rwa [Nat.add_zero] at hfirst
    -- all of the page lies in the segment, so what is read of it lies in the file
    have hend : ∀ j < pageSize, ∀ f pos, vma.filePos (alignDown a pageSize + j) = some (f, pos) →
        pos < (files f).size := by
      intro j hj f pos hpos
      have hle' : p.segStart ehdr ≤ alignDown a pageSize + j := by
        have haligned : p.segStart ehdr % pageSize = 0 := alignDown_aligned _
        unfold alignDown
        rw [pageSize_eq] at *
        omega
      have hlt' : alignDown a pageSize + j < p.segStop ehdr := by
        have haligned : p.segStop ehdr % pageSize = 0 := alignUp_aligned _
        unfold alignDown
        rw [pageSize_eq] at *
        omega
      have hattr : attr s.mm.vmas (alignDown a pageSize + j) =
          some (vma.attr (alignDown a pageSize + j)) :=
        attr_of_mem h.tree hmem (covers_page hvalid hcov hj)
      have hsrc : vma.filePos (alignDown a pageSize + j) =
          (segmentVma ehdr file p).filePos (alignDown a pageSize + j) :=
        h.source _ _ hattr p hp hload hle' hlt'
      rw [hpos, segmentVma_filePos hplaced hle'] at hsrc
      split at hsrc
      · cases hsrc
        omega
      · cases hsrc
    obtain ⟨data, hfill⟩ := exists_fillPage_eq_ok hchunk hstart hend
    rw [hfill]
    change ∃ s', (if env.mapped then _ else _) = _ ∧ _
    rw [if_pos hmapped]
    have hnew : update s.pte (a / pageSize) (some ⟨data, fun _ => false⟩) (a / pageSize) =
        some ⟨data, fun _ => false⟩ := update_self ..
    exact ⟨_, rfl, Option.isSome_of_eq_some hnew, fun _ => ⟨_, _, hnew, rfl, rfl⟩⟩

/-- **The contents of a program.** For every file that is loaded, every way the loading, the
faults and the calls go, and every order of them. -/
theorem contentsOk_of_reachable (h : loadFile cfg fpu rb files execEnv file = .ok (mm, img))
    (hrange : ∀ p ∈ img.phdrs, p.Loads → p.offset + p.filesz ≤ (files file).size)
    (hs : Reachable (Started cfg mm) (Graph (step cfg rb files)) s) :
    ContentsOk files file img s := by
  have hinv : Inv img.hdr.ehdr img.phdrs files file s :=
    hs.invariant (fun _ hs => inv_of_started h hs) fun _ _ _ hs hstep => hs.step hstep
  obtain ⟨haccepted, -, htable⟩ := loadFile_eq_ok h
  obtain ⟨hplaced, -, hphdr⟩ := segments_of_checks haccepted.table haccepted.layout
  have himage : ∀ p ∈ img.phdrs, p.Loads → ∀ i < p.filesz, ∀ b,
      Shows s (img.hdr.ehdr.loadOffset + p.vaddr + i) b →
      b = (files file).bytes (p.offset + i) := by
    intro p hp hload i hi b hb
    have hpl := hplaced p hp hload
    have hbounds := hpl.bounds
    have hfilesz := hpl.filesz_le
    rw [hinv.byte_at hp hload hpl (by omega) (by omega) hb, if_pos (by omega),
      Nat.add_sub_cancel_left]
  refine ⟨himage, ?_, ?_, ?_⟩
  · intro p hp hload a hle hlt hout b hb
    rw [hinv.byte_at hp hload (hplaced p hp hload) hle hlt hb, if_neg hout]
  · intro hne k hk b hb
    obtain ⟨p, hp, hload, hholds, haddr⟩ := hphdr.resolve_left hne
    obtain ⟨hle, hsub, hsize⟩ := hholds
    have hphoff : img.hdr.ehdr.phoff = img.hdr.phoff := rfl
    rw [length_phdrs] at hsize
    have hsum : img.phdrAddr + k =
        img.hdr.ehdr.loadOffset + p.vaddr + (img.hdr.phoff - p.offset + k) := by
      rw [haddr, Phdr.phdrAddr]
      omega
    have hpos : p.offset + (img.hdr.phoff - p.offset + k) = img.hdr.phoff + k := by omega
    rw [hsum] at hb
    rw [himage p hp hload _ (by omega) b hb, htable k hk, hpos]
  · intro p hp hload a hle hlt b hb access haccess env hallocated hmapped hchunk
    exact hinv.served hp hload (hplaced p hp hload) (hrange p hp hload) hle hlt hb haccess
      hallocated hmapped hchunk

/-- The file of a position-independent program: the headers, and the byte 5 everywhere else. -/
def pieFile : File where
  size := 0x1900
  bytes i := [
    127, 69, 76, 70, 2, 1, 1, 0, 0, 0, 0, 0, 0, 0, 0, 0, 3, 0, 243, 0, 1, 0, 0, 0, 0, 16, 0, 0,
    0, 0, 0, 0, 64, 0, 0, 0, 0, 0, 0, 0, 0, 0, 0, 0, 0, 0, 0, 0, 5, 0, 0, 0, 64, 0, 56, 0, 2,
    0, 0, 0, 0, 0, 0, 0, 1, 0, 0, 0, 5, 0, 0, 0, 0, 0, 0, 0, 0, 0, 0, 0, 0, 0, 0, 0, 0, 0, 0,
    0, 0, 0, 0, 0, 0, 0, 0, 0, 0, 24, 0, 0, 0, 0, 0, 0, 0, 24, 0, 0, 0, 0, 0, 0, 0, 16, 0, 0,
    0, 0, 0, 0, 1, 0, 0, 0, 6, 0, 0, 0, 0, 24, 0, 0, 0, 0, 0, 0, 0, 40, 0, 0, 0, 0, 0, 0, 0, 0,
    0, 0, 0, 0, 0, 0, 0, 1, 0, 0, 0, 0, 0, 0, 0, 25, 0, 0, 0, 0, 0, 0, 0, 16, 0, 0, 0, 0, 0,
    0].getD i 5

/-- Reads succeed and are long enough. -/
def fullReads : ℕ → Except Errno ℕ := fun _ => .ok 4096

/-- There is memory. -/
def easyExec : ExecEnv := ⟨fullReads, fullReads, true, fun _ => true⟩

def easyFault : FaultEnv := ⟨false, true, fullReads, true⟩

/-- The middle page of the data is unmapped and the first one protected before the program writes
to it. -/
def dataRun : List Action :=
  [.munmap (fun _ => true) 0x13000 0x1000, .mprotect (fun _ => true) 0x12000 0x1000 3,
    .fault 0x12900 .write easyFault, .store 0x12900 9, .fault 0x13800 .read easyFault]

theorem contentsOk_dataRun : ∃ mm img s,
    loadFile ⟨16, by decide⟩ true .plain (fun _ => pieFile) easyExec 7 = .ok (mm, img) ∧
      Reachable (Started ⟨16, by decide⟩ mm)
        (Graph (step ⟨16, by decide⟩ .plain fun _ => pieFile)) s ∧
      Shows s 0x12800 5 ∧ s.pte 0x13 = none ∧ ContentsOk (fun _ => pieFile) 7 img s := by
  have hrun : ∃ r, (loadFile ⟨16, by decide⟩ true .plain (fun _ => pieFile) easyExec 7).toOption =
      some r ∧ ((exec (step ⟨16, by decide⟩ .plain fun _ => pieFile) ⟨r.1, fun _ => none⟩
        dataRun).map fun s => ((s.pte 0x12).map fun frame => (frame.stored 0x800, frame.now 0x800),
          (s.pte 0x13).isNone, r.2.phdrs.all fun p => p.offset + p.filesz ≤ pieFile.size)) =
            some (some (false, 5), true, true) :=
    Option.bind_eq_some_iff.mp (by decide +kernel)
  obtain ⟨⟨mm, img⟩, hload, hexec⟩ := hrun
  obtain ⟨s, hs, hpages⟩ := Option.map_eq_some_iff.mp hexec
  have hpage : ((s.pte 0x12).map fun frame => (frame.stored 0x800, frame.now 0x800)) =
      some (false, 5) := congrArg Prod.fst hpages
  obtain ⟨frame, hframe, hbyte⟩ := Option.map_eq_some_iff.mp hpage
  have hgone : (s.pte 0x13).isNone = true := congrArg (fun r => r.2.1) hpages
  have hall : (img.phdrs.all fun p => p.offset + p.filesz ≤ pieFile.size) = true :=
    congrArg (fun r => r.2.2) hpages
  have hload : loadFile ⟨16, by decide⟩ true .plain (fun _ => pieFile) easyExec 7 =
      .ok (mm, img) := by
    cases hr : loadFile ⟨16, by decide⟩ true .plain (fun _ => pieFile) easyExec 7 with
    | error e =>
      rw [hr] at hload
      cases hload
    | ok r =>
      rw [hr] at hload
      exact congrArg _ (Option.some.inj hload)
  have hreach : Reachable (Started ⟨16, by decide⟩ mm)
      (Graph (step ⟨16, by decide⟩ .plain fun _ => pieFile)) s :=
    Reachable.exec (.init ⟨rfl, fun _ hv => Bool.noConfusion hv⟩) hs
  have hrange : ∀ p ∈ img.phdrs, p.Loads → p.offset + p.filesz ≤ pieFile.size :=
    fun p hp _ => of_decide_eq_true (List.all_eq_true.mp hall p hp)
  exact ⟨mm, img, s, hload, hreach,
    ⟨frame, hframe, congrArg Prod.fst hbyte, congrArg Prod.snd hbyte⟩,
    Option.isNone_iff_eq_none.mp hgone, contentsOk_of_reachable hload hrange hreach⟩

end

end Nuvix.Paging
