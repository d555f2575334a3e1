import Nuvix.Mm.Vma

/-!
# Changing the address space: `mm/mmap.c` and `mm_clone`

The system calls that map, unmap and protect ranges, the program break, and the copy
of the VMAs at a fork. A call first checks its arguments, which gives a request, and then
serves it under `mmap_lock`. Here a request is served in one piece, on an address space with
the entries of its page table; what a call has changed before an error stays changed. The
arguments are the values of registers; no sum of the source overflows, as its checks come
before it.
-/

namespace Nuvix

open SearchTree

/-- The layout of an address space. -/
structure Mm where
  vmas : Bst Vma
  startBrk : ℕ
  brk : ℕ

/-- `mm_alloc`. -/
def mmAlloc : Mm := ⟨.nil, 0, 0⟩

def protRead : ℕ := 0x1

def protWrite : ℕ := 0x2

def protExec : ℕ := 0x4

def mapPrivate : ℕ := 0x02

def mapFixed : ℕ := 0x10

def mapAnonymous : ℕ := 0x20

/-- `vm_prot`. -/
def vmProt (prot : ℕ) : VmFlags where
  read := prot &&& protRead ≠ 0 ∨ prot &&& protWrite ≠ 0
  write := prot &&& protWrite ≠ 0
  exec := prot &&& protExec ≠ 0

/-- What the caller of `unmap_range` does next. -/
inductive After
  | ret
  | insert (vma : Vma)
  | setBrk (addr : ℕ)

/-- What a system call changes, once its arguments are checked: nothing, a VMA in a free range,
a range without mappings, other permissions, a larger heap, or only `mm->brk`. -/
inductive Request
  | nothing
  | insert (vma : Vma)
  | unmap (start stop : ℕ) (after : After)
  | protect (start stop : ℕ) (flags : VmFlags)
  | grow (start stop addr : ℕ)
  | setBrk (addr : ℕ)

/-- Where the range begins that `sys_mmap` has asked for. -/
def Request.start : Request → ℕ
  | .insert vma => vma.start
  | .unmap start _ _ => start
  | _ => 0

section

variable (cfg : MmConfig)

/-- `range_allowed`. -/
def rangeAllowed (start stop : ℕ) : Prop :=
  ¬ (start < uvaddrStart ∨ stop > ustackTop) ∧ (stop ≤ cfg.guardBottom ∨ start ≥ cfg.ustackBottom)

instance (start stop : ℕ) : Decidable (rangeAllowed cfg start stop) :=
  inferInstanceAs (Decidable (_ ∧ _))

/-- `range_end`. -/
def rangeEnd (start len : ℕ) : Except Errno ℕ :=
  if start % pageSize ≠ 0 then .error .einval
  else if len = 0 then .error .einval
  else if len > uint64Max - (pageSize - 1) then .error .enomem
  else
    let len := alignUp len pageSize
    if start ≥ uvaddrEnd ∨ len > uvaddrEnd - start then .error .enomem
    else if ¬ rangeAllowed cfg start (start + len) then .error .einval
    else .ok (start + len)

/-- The loop of `find_unmapped` over the VMAs from the last to the first. -/
def findBelow (len : ℕ) : ℕ → List Vma → ℕ
  | top, [] => if len ≤ top - uvaddrStart then top - len else 0
  | top, v :: vs =>
    if v.start ≥ top then findBelow len top vs
    else if v.stop ≤ top ∧ len ≤ top - v.stop then top - len
    else findBelow len v.start vs

/-- `find_unmapped`. -/
def findUnmapped (t : Bst Vma) (hint len : ℕ) : ℕ :=
  let hint := alignDown hint pageSize
  if hint < uvaddrEnd ∧ len ≤ uvaddrEnd - hint ∧ rangeAllowed cfg hint (hint + len) ∧
      vmaFindIntersection t hint (hint + len) = none then hint
  else findBelow len cfg.guardBottom t.toList.reverse

/-- `sys_mmap` up to the first change; `ok 0` is the result of its own allocation. -/
def mmapRequest (mm : Mm) (ok : ℕ → Bool) (addr len prot flags offset : ℕ) :
    Except Errno Request := do
  if bitsOutside flags (mapPrivate ||| mapAnonymous ||| mapFixed) ∨
      flags &&& (mapPrivate ||| mapAnonymous) ≠ mapPrivate ||| mapAnonymous ∨
      bitsOutside prot (protRead ||| protWrite ||| protExec) ∨ offset % pageSize ≠ 0 ∨ len = 0 then
    .error .einval
  else if len > uvaddrSize then .error .enomem
  else if ok 0 = false then .error .enomem
  else
    let len := alignUp len pageSize
    if flags &&& mapFixed ≠ 0 then
      let stop ← rangeEnd cfg addr len
      return .unmap addr stop (.insert { start := addr, stop, flags := vmProt prot })
    else
      let addr := findUnmapped cfg mm.vmas addr len
      if addr = 0 then .error .enomem
      else return .insert { start := addr, stop := addr + len, flags := vmProt prot }

/-- `sys_munmap`. -/
def munmapRequest (start len : ℕ) : Except Errno Request := do
  let stop ← rangeEnd cfg start len
  return .unmap start stop .ret

/-- `sys_mprotect`. -/
def mprotectRequest (start len prot : ℕ) : Except Errno Request := do
  if start % pageSize ≠ 0 then .error .einval
  else if len = 0 then return .nothing
  else if bitsOutside prot (protRead ||| protWrite ||| protExec) then .error .einval
  else
    let stop ← rangeEnd cfg start len
    return .protect start stop (vmProt prot)

/-- `sys_brk`, which does not fail. -/
def brkRequest (mm : Mm) (addr : ℕ) : Request :=
  let start := alignUp mm.brk pageSize
  let stop := alignUp addr pageSize
  if addr < mm.startBrk ∨ addr > cfg.guardBottom then .nothing
  else if stop > start then
    if (vmaFindIntersection mm.vmas start stop).isSome then .nothing else .grow start stop addr
  else if stop < start then .unmap stop start (.setBrk addr)
  else .setBrk addr

variable (rb : Rebalance Vma) (ok : ℕ → Bool)

/-- The loop of `mm_clone` over the VMAs of the source. -/
def cloneVmas : ℕ → Bst Vma → List Vma → Except Errno (Bst Vma)
  | _, t, [] => .ok t
  | n, t, v :: vs => do
    if ok n then
      let t ← vmaInsert rb t v
      cloneVmas (n + 1) t vs
    else .error .enomem

/-- `mm_clone` into a new address space, up to the copy of the page table. -/
def mmClone (src : Mm) : Except Errno Mm := do
  let t ← cloneVmas rb ok 0 mmAlloc.vmas src.vmas.toList
  return { vmas := t, startBrk := src.startBrk, brk := src.brk }

end

/-- An address space, with the entries of its page table. -/
structure MapState (ε : Type) where
  mm : Mm
  pte : ℕ → Option ε

namespace MapState

variable {ε : Type}

def setVmas (s : MapState ε) (t : Bst Vma) : MapState ε := ⟨⟨t, s.mm.startBrk, s.mm.brk⟩, s.pte⟩

/-- `mm->brk = addr`. -/
def setBrk (addr : ℕ) (s : MapState ε) : MapState ε := ⟨⟨s.mm.vmas, s.mm.startBrk, addr⟩, s.pte⟩

/-- A program on the VMAs. -/
def onVmas (x : Prog (Bst Vma) Errno Unit) : Prog (MapState ε) Errno Unit :=
  Prog.focus (fun s => s.mm.vmas) setVmas x

section

variable (cfg : MmConfig) (rb : Rebalance Vma) (ok : ℕ → Bool)

/-- `unmap_range`. -/
def unmapRange (start stop : ℕ) : Prog (MapState ε) Errno Unit := do
  onVmas (splitRange rb ok start stop)
  Prog.modify fun s =>
    let r := unmapLoop rb start stop s.mm.vmas.toList.length s.mm.vmas s.pte
    ⟨⟨r.1, s.mm.startBrk, s.mm.brk⟩, r.2⟩

/-- `unmap_range` has returned. -/
def finishUnmap : After → Prog (MapState ε) Errno Unit
  | .ret => pure ()
  | .insert vma => onVmas (mustInsert rb vma)
  | .setBrk addr => Prog.modify (setBrk addr)

/-- What a call does after its checks. -/
def serve : Request → Prog (MapState ε) Errno Unit
  | .nothing => pure ()
  | .insert vma => onVmas (mustInsert rb vma)
  | .unmap start stop after => do
    unmapRange rb ok start stop
    finishUnmap rb after
  | .protect start stop flags => onVmas (protectRange rb ok start stop flags)
  | .grow start stop addr => do
    onVmas (Prog.tryModify fun t => do
      let r ← mapRange rb (ok 0) t start stop { read := true, write := true }
      return r.1)
    Prog.modify (setBrk addr)
  | .setBrk addr => Prog.modify (setBrk addr)

/-- `sys_mmap`. -/
def sysMmap (addr len prot flags offset : ℕ) : Prog (MapState ε) Errno ℕ := do
  let s ← Prog.get
  let r ← Prog.check (mmapRequest cfg s.mm ok addr len prot flags offset)
  serve rb ok r
  return r.start

/-- `sys_munmap`. -/
def sysMunmap (start len : ℕ) : Prog (MapState ε) Errno Unit := do
  let r ← Prog.check (munmapRequest cfg start len)
  serve rb ok r

/-- `sys_mprotect`. -/
def sysMprotect (start len prot : ℕ) : Prog (MapState ε) Errno Unit := do
  let r ← Prog.check (mprotectRequest cfg start len prot)
  serve rb ok r

/-- `sys_brk`: every way out before `mm->brk = addr` is an error of the request. -/
def sysBrk (addr : ℕ) : Prog (MapState ε) Errno ℕ := do
  let s ← Prog.get
  let _ ← (serve rb ok (brkRequest cfg s.mm addr)).attempt
  let s ← Prog.get
  return s.mm.brk

end

end MapState

end Nuvix
