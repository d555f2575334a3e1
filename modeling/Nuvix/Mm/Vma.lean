import Nuvix.Lib.Prog
import Nuvix.Lib.SearchTree
import Nuvix.Mm.Memblock

/-!
# The VMAs of an address space: `mm/vma.c`

The VMAs hang in a red-black tree. Lookups and insertion descend as the source does;
how the tree is rebalanced is a parameter. A VMA is a value: the address of a
`struct vm_struct` is used only to say which node is meant, and the VMAs of one tree
differ in their bounds. The flags of a VMA in a tree are the three permission bits, since
`vma_insert` takes no others.

A function stops the kernel when one of its assertions fails. What it has changed before
an error stays changed. The results of the calls of `vma_alloc` are given by `ok`; the
argument says which call it is.
-/

namespace Nuvix

open SearchTree

/-! ### The user half -/

def uvaddrStart : ℕ := 0x10000

def uvaddrEnd : ℕ := 0x4000000000

def uvaddrSize : ℕ := uvaddrEnd - uvaddrStart

def userTrampoline : ℕ := uvaddrEnd - pageSize

def ustackTop : ℕ := userTrampoline - pageSize

def alignDown (x align : ℕ) : ℕ := x / align * align

/-- `CONFIG_USTACK_PAGES` and its range. -/
structure MmConfig where
  ustackPages : ℕ
  range : 1 ≤ ustackPages ∧ ustackPages ≤ 256

def MmConfig.ustackBottom (cfg : MmConfig) : ℕ := ustackTop - cfg.ustackPages * pageSize

/-- `USTACK_BOTTOM - PAGE_SIZE`, where the guard page starts. -/
def MmConfig.guardBottom (cfg : MmConfig) : ℕ := cfg.ustackBottom - pageSize

/-! ### VMAs -/

/-- `VM_READ`, `VM_WRITE`, `VM_EXEC`. -/
structure VmFlags where
  read : Bool := false
  write : Bool := false
  exec : Bool := false
  deriving DecidableEq, Repr

/-- The flags as bits of `vm_flags`. -/
def VmFlags.word (f : VmFlags) : ℕ := f.read.toNat ||| f.write.toNat <<< 1 ||| f.exec.toNat <<< 2

/-- `VM_READ | VM_WRITE | VM_EXEC`. -/
def vmAccess : ℕ := 0x7

/-- Some bit of `x` is not in `mask`. -/
def bitsOutside (x mask : ℕ) : Prop := x &&& mask ≠ x

instance (x mask : ℕ) : Decidable (bitsOutside x mask) := inferInstanceAs (Decidable (_ ≠ _))

/-- `struct vm_struct`, for the range `[start, stop)`; a file is known by a number. -/
structure Vma where
  start : ℕ
  stop : ℕ
  flags : VmFlags
  file : Option ℕ := none
  offset : ℕ := 0
  fstart : ℕ := 0
  fend : ℕ := 0
  deriving DecidableEq, Repr

/-- `vma_find`. -/
def vmaFind (t : Bst Vma) (addr : ℕ) : Option Vma :=
  t.search fun v => if addr < v.start then .lt else if addr ≥ v.stop then .gt else .eq

/-- `vma_find_intersection`. -/
def vmaFindIntersection (t : Bst Vma) (start stop : ℕ) : Option Vma :=
  t.searchFirst (fun v => start ≥ v.stop) (fun v => v.start < stop) none

/-- The way `vma_insert` goes at a queued VMA. -/
def Vma.side (v queued : Vma) : Ordering :=
  if v.stop ≤ queued.start then .lt else if v.start ≥ queued.stop then .gt else .eq

section

variable (rb : Rebalance Vma)

/-- `vma_insert`, where `word` is `vma->vm_flags`. -/
def vmaInsertWord (t : Bst Vma) (v : Vma) (word : ℕ) : Except Errno (Bst Vma) :=
  if v.start < uvaddrStart ∨ v.stop > uvaddrEnd ∨ v.start ≥ v.stop ∨ v.start % pageSize ≠ 0 ∨
      v.stop % pageSize ≠ 0 ∨ bitsOutside word vmAccess then .error .einval
  else
    match t.link v.side v with
    | none => .error .eexist
    | some t => .ok (rb.insertColor v t)

/-- `vma_insert` of a VMA that has no other flags. -/
def vmaInsert (t : Bst Vma) (v : Vma) : Except Errno (Bst Vma) :=
  vmaInsertWord rb t v v.flags.word

/-- `map_range`. -/
def mapRange (ok : Bool) (t : Bst Vma) (start stop : ℕ) (flags : VmFlags) :
    Except Errno (Bst Vma × Vma) := do
  if ok then
    let v : Vma := { start, stop, flags }
    let t ← vmaInsert rb t v
    return (t, v)
  else .error .enomem

/-- The two parts `vma_split` makes. -/
def Vma.leftPart (v : Vma) (addr : ℕ) : Vma :=
  match v.file with
  | none => { v with stop := addr }
  | some _ => { v with stop := addr, fstart := min addr v.fstart, fend := min addr v.fend }

@[inherit_doc Vma.leftPart]
def Vma.rightPart (v : Vma) (addr : ℕ) : Vma :=
  match v.file with
  | none => { v with start := addr }
  | some _ =>
    { v with
      start := addr
      offset := v.offset + (addr - v.start)
      fstart := max addr v.fstart
      fend := max addr v.fend }

/-- `vma_insert`, and the assertion that it has not failed. -/
def mustInsert (v : Vma) : Prog (Bst Vma) Errno Unit := (Prog.tryModify (vmaInsert rb · v)).must

/-- `vma_split`. -/
def vmaSplit (v : Vma) (addr : ℕ) : Prog (Bst Vma) Errno Unit := do
  Prog.modify (rb.erase v)
  mustInsert rb (v.leftPart addr)
  mustInsert rb (v.rightPart addr)

/-- `first` in `split_range`, if it has to be split at `start`. -/
def splitFirst (t : Bst Vma) (start : ℕ) : Option Vma :=
  (vmaFind t start).filter fun v => v.start < start

/-- `last` in `split_range`, if it has to be split at `stop`. -/
def splitLast (t : Bst Vma) (stop : ℕ) : Option Vma :=
  (vmaFind t (stop - 1)).filter fun v => stop < v.stop

/-- `if (left) vma_split(first, start, left)`. -/
def splitIf (first : Option Vma) (addr : ℕ) : Prog (Bst Vma) Errno Unit :=
  match first with
  | none => pure ()
  | some v => vmaSplit rb v addr

/-- `if (right) vma_split(vma_find(mm, end - 1), end, right)`: the first split may have changed
the VMA, so it is looked up again. -/
def splitAgain (last : Option Vma) (stop : ℕ) : Prog (Bst Vma) Errno Unit :=
  match last with
  | none => pure ()
  | some _ => do
    let t ← Prog.get
    match vmaFind t (stop - 1) with
    | none => Prog.assert False
    | some v => vmaSplit rb v stop

/-- `split_range`; `ok 1` and `ok 2` are the results of the two allocations. -/
def splitRange (ok : ℕ → Bool) (start stop : ℕ) : Prog (Bst Vma) Errno Unit := do
  Prog.assert (start < stop ∧ start % pageSize = 0 ∧ stop % pageSize = 0)
  let t ← Prog.get
  let first := splitFirst t start
  let last := splitLast t stop
  if first.isSome ∧ ok 1 = false then Prog.throw .enomem
  else if last.isSome ∧ ok 2 = false then Prog.throw .enomem
  else
    splitIf rb first start
    splitAgain rb last stop

/-- The loop of `unmap_range` over the pages of a VMA: `pgtable_unmap_page` for each. -/
def clearPages {ε : Type} (stop : ℕ) : ℕ → ℕ → (ℕ → Option ε) → ℕ → Option ε
  | 0, _, pte => pte
  | turns + 1, addr, pte =>
    if addr < stop then
      clearPages stop turns (addr + pageSize) (Function.update pte (addr / pageSize) none)
    else pte

/-- The loop of `unmap_range`; every turn removes a VMA and the entries of its pages. -/
def unmapLoop {ε : Type} (start stop : ℕ) :
    ℕ → Bst Vma → (ℕ → Option ε) → Bst Vma × (ℕ → Option ε)
  | 0, t, pte => (t, pte)
  | fuel + 1, t, pte =>
    match vmaFindIntersection t start stop with
    | none => (t, pte)
    | some v =>
      unmapLoop start stop fuel (rb.erase v t) (clearPages v.stop (v.stop - v.start) v.start pte)

/-- `vma->vm_flags = vm_flags`. -/
def setFlags (v : Vma) (flags : VmFlags) (t : Bst Vma) : Bst Vma :=
  t.map fun w => if w = v then { w with flags } else w

/-- The loop of `protect_range`; every turn moves `start` to the end of a VMA. -/
def protectLoop (flags : VmFlags) (stop : ℕ) : ℕ → ℕ → Prog (Bst Vma) Errno Unit
  | 0, _ => pure ()
  | fuel + 1, start =>
    if start < stop then do
      let t ← Prog.get
      match vmaFind t start with
      | none => Prog.throw .enomem
      | some v =>
        Prog.modify (setFlags v flags)
        protectLoop flags stop fuel v.stop
    else pure ()

/-- `protect_range`, as far as the VMAs go. -/
def protectRange (ok : ℕ → Bool) (start stop : ℕ) (flags : VmFlags) :
    Prog (Bst Vma) Errno Unit := do
  splitRange rb ok start stop
  protectLoop flags stop (stop - start) start

end

end Nuvix
