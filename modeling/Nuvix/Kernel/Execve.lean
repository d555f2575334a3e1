import Nuvix.Mm.Mmap

/-!
# Loading a program: `kernel/execve.c` and the program headers of `lib/elf.c`

`load_exec` checks the program headers, checks that the segments fit the user half,
and maps them and the stack into a new address space. The file gives the headers, so
they are arbitrary; sums of 64-bit fields are reduced where the checks before them do
not exclude an overflow. The checks of the ELF header itself, the arguments on the
stack and the page that `arch_utask_init` maps do not concern the VMAs.
-/

namespace Nuvix

open SearchTree

/-- `struct elf64_ehdr`; `dyn` says that `e_type` is `ET_DYN`. -/
structure Ehdr where
  dyn : Bool
  entry : ℕ
  phoff : ℕ
  deriving DecidableEq, Repr

/-- `p_type`. -/
inductive PhdrType
  | load
  | dynamic
  | interp
  | shlib
  | phdr
  | tls
  | gnuStack
  | gnuRelro
  | other
  deriving DecidableEq, Repr

/-- `struct elf64_phdr`. -/
structure Phdr where
  type : PhdrType
  flags : ℕ
  offset : ℕ
  vaddr : ℕ
  filesz : ℕ
  memsz : ℕ
  align : ℕ
  deriving DecidableEq, Repr

def pfX : ℕ := 0x1

def pfW : ℕ := 0x2

def pfR : ℕ := 0x4

/-- `sizeof(struct elf64_phdr)`. -/
def phdrSize : ℕ := 56

/-- `INT64_MAX`, the limit of file offsets. -/
def int64Max : ℕ := 2 ^ 63 - 1

/-- `file_range_valid`. -/
def fileRangeValid (limit offset length : ℕ) : Prop := offset ≤ limit ∧ length ≤ limit - offset

instance (limit offset length : ℕ) : Decidable (fileRangeValid limit offset length) :=
  inferInstanceAs (Decidable (_ ∧ _))

/-- `segment_valid`. -/
def segmentValid (limit : ℕ) (p : Phdr) : Prop :=
  ¬ (p.filesz > p.memsz ∨ ¬ fileRangeValid limit p.offset p.filesz ∨
    p.memsz > uint64Max - p.vaddr ∨ bitsOutside p.flags (pfR ||| pfW ||| pfX)) ∧
  (p.align > 1 → ¬ (p.align &&& (p.align - 1) ≠ 0 ∨
    p.vaddr &&& (p.align - 1) ≠ p.offset &&& (p.align - 1)))

instance (limit : ℕ) (p : Phdr) : Decidable (segmentValid limit p) :=
  inferInstanceAs (Decidable (_ ∧ (_ → _)))

/-- The locals of the loop of `elf_check_phdrs`. -/
structure PhdrScan where
  loadEnd : ℕ := 0
  haveEntry : Bool := false
  haveLoad : Bool := false

/-- The segments `elf_check_phdrs` passes to `segment_valid`. -/
def PhdrType.checked : PhdrType → Bool
  | .dynamic | .load | .phdr | .tls | .gnuRelro => true
  | _ => false

section

variable (ehdr : Ehdr) (phsize limit : ℕ)

/-- One turn of the loop of `elf_check_phdrs`. -/
def scanPhdr (s : PhdrScan) (p : Phdr) : Except Errno PhdrScan :=
  if p.type.checked ∧ ¬ segmentValid limit p then .error .enoexec
  else
    match p.type with
    | .interp | .shlib => .error .enoexec
    | .load =>
      if s.haveLoad ∧ p.vaddr < s.loadEnd then .error .enoexec
      else
        .ok {
          loadEnd := (p.vaddr + p.memsz) % 2 ^ 64
          haveEntry := s.haveEntry || decide (p.flags &&& pfX ≠ 0 ∧ ehdr.entry ≥ p.vaddr ∧
            ehdr.entry - p.vaddr < p.memsz)
          haveLoad := true }
    | .phdr =>
      if s.haveLoad ∨ p.offset ≠ ehdr.phoff ∨ p.filesz ≠ phsize ∨ p.memsz ≠ phsize then
        .error .enoexec
      else .ok s
    | .gnuStack =>
      if p.flags &&& pfX ≠ 0 ∨ bitsOutside p.flags (pfR ||| pfW ||| pfX) then .error .enoexec
      else .ok s
    | _ => .ok s

/-- `elf_check_phdrs`. -/
def elfCheckPhdrs (phdrs : List Phdr) : Except Errno Unit := do
  let s ← phdrs.foldlM (scanPhdr ehdr phsize limit) {}
  if s.haveEntry then return () else .error .enoexec

end

/-- A header that `check_layout` and `load_segments` do not skip. -/
def Phdr.Loads (p : Phdr) : Prop := p.type = .load ∧ p.memsz ≠ 0

instance (p : Phdr) : Decidable p.Loads := inferInstanceAs (Decidable (_ ∧ _))

section

variable (cfg : MmConfig) (ehdr : Ehdr)

/-- `image->offset`. -/
def Ehdr.loadOffset : ℕ := if ehdr.dyn then uvaddrStart else 0

/-- One turn of the loop of `check_layout`: `load_end` and `phdr_addr`. -/
def checkSegment (phsize : ℕ) (s : ℕ × ℕ) (p : Phdr) : Except Errno (ℕ × ℕ) :=
  if ¬ p.Loads then .ok s
  else
    let sum := (p.vaddr + p.memsz) % 2 ^ 64
    if p.vaddr < uvaddrStart - ehdr.loadOffset ∨ sum > cfg.guardBottom - ehdr.loadOffset ∨
        p.vaddr % pageSize ≠ p.offset % pageSize then .error .enoexec
    else
      let start := alignDown (ehdr.loadOffset + p.vaddr) pageSize
      let stop := alignUp (ehdr.loadOffset + sum) pageSize
      if start < s.1 then .error .enoexec
      else
        .ok (stop,
          if p.flags &&& pfR ≠ 0 ∧ ehdr.phoff ≥ p.offset ∧ ehdr.phoff - p.offset ≤ p.filesz ∧
              phsize ≤ p.filesz - (ehdr.phoff - p.offset) then
            ehdr.loadOffset + p.vaddr + (ehdr.phoff - p.offset)
          else s.2)

/-- `check_layout`; the result is `image->phdr_addr`. -/
def checkLayout (phsize : ℕ) (phdrs : List Phdr) : Except Errno ℕ := do
  let s ← phdrs.foldlM (checkSegment cfg ehdr phsize) (uvaddrStart, 0)
  return s.2

variable (rb : Rebalance Vma) (ok : ℕ → Bool)

/-- The permissions of a segment. -/
def segmentFlags (p : Phdr) : VmFlags where
  read := p.flags &&& pfR ≠ 0 ∨ p.flags &&& pfW ≠ 0
  write := p.flags &&& pfW ≠ 0
  exec := p.flags &&& pfX ≠ 0

/-- The fields `load_segments` sets in a VMA it has mapped. -/
def Vma.backBy (v : Vma) (file vaddr : ℕ) (p : Phdr) : Vma :=
  if p.filesz ≠ 0 then
    { v with
      file := some file
      offset := p.offset + v.start - vaddr
      fstart := vaddr
      fend := vaddr + p.filesz }
  else v

/-- The loop of `load_segments`. -/
def loadSegments (file : ℕ) : ℕ → Mm → List Phdr → Except Errno Mm
  | _, mm, [] => .ok { mm with brk := mm.startBrk }
  | n, mm, p :: ps =>
    if ¬ p.Loads then loadSegments file n mm ps
    else do
      let vaddr := ehdr.loadOffset + p.vaddr
      let start := alignDown vaddr pageSize
      let stop := alignUp ((vaddr + p.memsz) % 2 ^ 64) pageSize
      let (t, v) ← mapRange rb (ok n) mm.vmas start stop (segmentFlags p)
      let t := t.map fun w => if w = v then v.backBy file vaddr p else w
      loadSegments file (n + 1) { mm with vmas := t, startBrk := max mm.startBrk stop } ps

/-- The VMA of `setup_stack`. -/
def setupStack (allocated : Bool) (mm : Mm) : Except Errno Mm := do
  let (t, _) ← mapRange rb allocated mm.vmas cfg.ustackBottom ustackTop
    { read := true, write := true }
  return { mm with vmas := t }

/-- `load_exec` into a new address space, with the headers read from `file`. -/
def loadExec (file : ℕ) (phdrs : List Phdr) : Except Errno Mm := do
  let phsize := phdrs.length * phdrSize
  elfCheckPhdrs ehdr phsize int64Max phdrs
  let _ ← checkLayout cfg ehdr phsize phdrs
  let mm ← loadSegments ehdr rb ok file 0 mmAlloc phdrs
  setupStack cfg rb (ok phdrs.length) mm

end

end Nuvix
