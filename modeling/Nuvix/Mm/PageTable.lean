import Nuvix.Mm.AddressSpaceRun
import Nuvix.Refcount

/-!
# Page tables and page faults: `arch/riscv/pgtable.c`, `mm/page_fault.c`

All address spaces with their page tables, and the frames they share. An operation on
an address space runs under its `mmap_lock`, so it is alone in that address space; it
is cut into steps wherever it touches what it shares with the others, the allocator,
the counts and the contents of frames. The steps of different address spaces
interleave.

A page table maps page numbers to entries; of the tables between the root and the
entries only the existence of the last level is kept, as that decides whether a page
can be mapped without an allocation. Frames that serve as tables, and all other
frames of the kernel, are allocated and freed by the rest of the system. An access of
a user program uses the entry as it is: changed entries are visible at once. A file
has fixed contents.

The clone of a page table is a step sequence of the child, while its parent stands
still under its `mmap_lock`.
-/

namespace Nuvix.Vm

open SearchTree Function

/-! ### Entries -/

/-- The number of pages in the user half. -/
def uvpns : ℕ := uvaddrEnd / pageSize

def trampolineVpn : ℕ := userTrampoline / pageSize

/-- `PTE_V`, `PTE_R`, `PTE_W`, `PTE_X` and `PTE_NONE` of an entry that is present. -/
structure PteProt where
  valid : Bool
  read : Bool
  write : Bool
  exec : Bool
  noAccess : Bool
  present : valid = true ∨ noAccess = true
  deriving DecidableEq

/-- A present entry. -/
structure Pte where
  frame : ℕ
  prot : PteProt
  deriving DecidableEq

/-- `vma_to_pte`. -/
def vmaToPte (f : VmFlags) : PteProt :=
  if f.read = false ∧ f.write = false ∧ f.exec = false then
    ⟨false, false, false, false, true, .inr rfl⟩
  else ⟨true, f.read || f.write, f.write, f.exec, false, .inl rfl⟩

/-- The permissions without `PTE_W`. -/
def PteProt.dropWrite (p : PteProt) : PteProt :=
  ⟨p.valid, p.read, false, p.exec, p.noAccess, p.present⟩

/-- The access that has faulted. -/
inductive Access
  | read
  | write
  | exec
  deriving DecidableEq, Repr

/-- `vma->vm_flags & access`. -/
def Access.allowedBy (f : VmFlags) : Access → Bool
  | .read => f.read
  | .write => f.write
  | .exec => f.exec

/-! ### Operations -/

/-- What is written to a new page: zeros and the contents of the file behind a VMA, a
copy of the page that is mapped, or what a program starts with. -/
inductive Fill
  | image (vma : Vma)
  | copy
  | bytes (content : ℕ → ℕ)

/-- The caller of `pgtable_protect_page`: a fault, or `protect_range` at address `a` of
a VMA that ends at `e`. -/
inductive Caller
  | fault
  | range (a e stop : ℕ)

/-- `UNMAP_BATCH_PAGES`. -/
def unmapBatchPages : ℕ := 32

/-- Where the operation on an address space stands; `v` is a page number, `p` a frame. -/
inductive Op (N : ℕ)
  | idle
  /-- A write fault on a page that is mapped, before the count is read. -/
  | faultProbe (v : ℕ) (vma : Vma)
  /-- In `pgtable_protect_page`, before the count is read and before the entry is
  written. -/
  | protectRead (v : ℕ) (flags : VmFlags) (caller : Caller)
  | protectWrite (v : ℕ) (flags : VmFlags) (exclusive : Bool) (caller : Caller)
  /-- A new page: before the allocation, before it is filled, before the old page is
  unmapped, before the new one is mapped. -/
  | pageAlloc (v : ℕ) (flags : VmFlags) (fill : Fill)
  | pageFill (v : ℕ) (flags : VmFlags) (fill : Fill) (p : ℕ)
  | pageUnmap (v : ℕ) (flags : VmFlags) (p : ℕ)
  | pageMap (v : ℕ) (flags : VmFlags) (p : ℕ) (old : Option ℕ)
  /-- In `unmap_range`: before the search for a VMA, in the loop over the pages `[a, e)`
  of a VMA, and in `unmaps_flush`. -/
  | unmapFind (start stop : ℕ) (batch : List ℕ) (after : After)
  | unmapPages (start stop a e : ℕ) (batch : List ℕ) (after : After)
  | unmapFlush (start stop a e : ℕ) (batch : List ℕ) (last : Bool) (after : After)
  /-- In `protect_range`: before the search for a VMA, and in the loop over its pages. -/
  | protectFind (a stop : ℕ) (flags : VmFlags)
  | protectPages (a e stop : ℕ) (flags : VmFlags)
  /-- The parent of a clone. -/
  | forking
  /-- In `pgtable_clone` from `src`: at page `v`, before it is mapped, before its count
  is incremented. -/
  | cloneScan (src : Fin N) (v : ℕ)
  | cloneMap (src : Fin N) (v : ℕ)
  | cloneInc (src : Fin N) (v : ℕ)
  /-- In `pgtable_free`: at page `v`, and before the frame is freed. -/
  | freeScan (v : ℕ)
  | freePage (v p : ℕ)

/-- No operation is under way. -/
def Op.isIdle {N : ℕ} : Op N → Bool
  | .idle => true
  | _ => false

/-- The life of an address space: under construction, in use, and after the last
`mm_put`. -/
inductive Life
  | unused
  | building
  | live
  | zombie
  deriving DecidableEq, Repr

/-- `struct mm_struct`. The frames in `pending` have been unmapped or not been used by
an operation that has released `mmap_lock` and will free them. -/
structure Space (N : ℕ) where
  life : Life
  mm : Mm
  pte : ℕ → Option Pte
  table : ℕ → Bool
  op : Op N
  pending : List ℕ

/-- All address spaces; the counts and contents of the frames; the frames that the rest
of the kernel uses; whether a failed assertion has stopped the kernel. -/
structure State (N : ℕ) where
  space : Fin N → Space N
  refs : ℕ → ℕ
  byte : ℕ → ℕ → ℕ
  kernel : ℕ → Bool
  stopped : Bool

variable {N : ℕ}

/-- No address space. -/
def Space.empty (N : ℕ) : Space N := ⟨.unused, mmAlloc, fun _ => none, fun _ => false, .idle, []⟩

namespace Space

def setOp (sp : Space N) (op : Op N) : Space N :=
  ⟨sp.life, sp.mm, sp.pte, sp.table, op, sp.pending⟩

def setPte (sp : Space N) (v : ℕ) (e : Option Pte) : Space N :=
  ⟨sp.life, sp.mm, update sp.pte v e, sp.table, sp.op, sp.pending⟩

def setVmas (sp : Space N) (t : Bst Vma) : Space N :=
  ⟨sp.life, ⟨t, sp.mm.startBrk, sp.mm.brk⟩, sp.pte, sp.table, sp.op, sp.pending⟩

def setBrk (sp : Space N) (addr : ℕ) : Space N :=
  ⟨sp.life, ⟨sp.mm.vmas, sp.mm.startBrk, addr⟩, sp.pte, sp.table, sp.op, sp.pending⟩

def setLife (sp : Space N) (life : Life) : Space N :=
  ⟨life, sp.mm, sp.pte, sp.table, sp.op, sp.pending⟩

def setPending (sp : Space N) (pending : List ℕ) : Space N :=
  ⟨sp.life, sp.mm, sp.pte, sp.table, sp.op, pending⟩

/-- The last-level table that maps page `v` exists. -/
def addTable (sp : Space N) (v : ℕ) : Space N :=
  ⟨sp.life, sp.mm, sp.pte, update sp.table (v / 512) true, sp.op, sp.pending⟩

/-- Where the fault goes after the VMA and the entry have been looked up. -/
def faultStart (sp : Space N) (addr : ℕ) (access : Access) : Op N :=
  match vmaFind sp.mm.vmas addr with
  | none => .idle
  | some vma =>
    if access.allowedBy vma.flags then
      match (sp.pte (addr / pageSize)).filter fun e => e.prot.valid with
      | some _ => if access = .write then .faultProbe (addr / pageSize) vma else .idle
      | none => .pageAlloc (addr / pageSize) vma.flags (.image vma)
    else .idle

end Space

/-- `pgtable_protect_page` has returned. -/
def Caller.next (flags : VmFlags) : Caller → Op N
  | .fault => .idle
  | .range a e stop => .protectPages (a + pageSize) e stop flags

/-- The entry `pgtable_protect_page` writes. -/
def protectedPte (e : Pte) (flags : VmFlags) (exclusive : Bool) : Pte :=
  ⟨e.frame, if exclusive then vmaToPte flags else (vmaToPte flags).dropWrite⟩

namespace State

def setSpace (s : State N) (i : Fin N) (sp : Space N) : State N :=
  ⟨update s.space i sp, s.refs, s.byte, s.kernel, s.stopped⟩

def setRefs (s : State N) (p refs : ℕ) : State N :=
  ⟨s.space, update s.refs p refs, s.byte, s.kernel, s.stopped⟩

def setBytes (s : State N) (p : ℕ) (content : ℕ → ℕ) : State N :=
  ⟨s.space, s.refs, update s.byte p content, s.kernel, s.stopped⟩

def setKernel (s : State N) (p : ℕ) (used : Bool) : State N :=
  ⟨s.space, s.refs, s.byte, update s.kernel p used, s.stopped⟩

/-- A failed assertion. -/
def stop (s : State N) : State N := ⟨s.space, s.refs, s.byte, s.kernel, true⟩

/-- `free_page`. -/
def freePage (s : State N) (p : ℕ) : State N := s.setRefs p (refcountDecAndTest (s.refs p)).1

end State

/-! ### Steps -/

/-- What happens. The first group are calls and accesses of the program in address
space `i`, with the results of the allocations of VMAs; the second group is the life
of an address space; the third group are the steps inside an operation, with the
results of `alloc_page`, of reading a file, and of allocating a table; the last group
belongs to the rest of the kernel. -/
inductive Action (N : ℕ)
  | load (i : Fin N) (addr b : ℕ)
  | store (i : Fin N) (addr b : ℕ)
  | fault (i : Fin N) (addr : ℕ) (access : Access)
  | mmap (i : Fin N) (ok : ℕ → Bool) (addr len prot flags offset : ℕ)
  | munmap (i : Fin N) (ok : ℕ → Bool) (start len : ℕ)
  | mprotect (i : Fin N) (ok : ℕ → Bool) (start len prot : ℕ)
  | brk (i : Fin N) (ok : ℕ → Bool) (addr : ℕ)
  | fork (i child : Fin N) (ok : ℕ → Bool)
  | exec (i : Fin N) (ok : ℕ → Bool) (file : ℕ) (ehdr : Ehdr) (phdrs : List Phdr)
  | setup (i : Fin N) (v : ℕ) (content : ℕ → ℕ)
  | ready (i : Fin N)
  | exit (i : Fin N)
  | drop (i : Fin N)
  | run (i : Fin N)
  | alloc (i : Fin N) (p : Option ℕ)
  | filled (i : Fin N) (ok : Bool)
  | mapped (i : Fin N) (ok : Bool)
  | free (i : Fin N) (p : ℕ)
  | kernelAlloc (p : ℕ)
  | kernelFree (p : ℕ)

section

variable (cfg : MmConfig) (rb : Rebalance Vma) (file : ℕ → ℕ → ℕ)

/-- The byte a new page gets at `addr`: from the file behind the VMA, or zero. -/
def imageByte (vma : Vma) (addr : ℕ) : ℕ :=
  match vma.filePos addr with
  | none => 0
  | some (f, pos) => file f pos

/-- The start of a range operation that has split the VMAs at the ends. -/
def startRange (s : State N) (i : Fin N) (op : Op N) : Outcome Errno Unit × Bst Vma → State N
  | (.ok _, t) => s.setSpace i (((s.space i).setVmas t).setOp op)
  | (.err _, t) => s.setSpace i ((s.space i).setVmas t)
  | (.stop, _) => s.stop

/-- The insertion of a VMA that must succeed. -/
def insertVma (s : State N) (i : Fin N) (vma : Vma) : State N :=
  match vmaInsert rb (s.space i).mm.vmas vma with
  | .ok t => s.setSpace i (((s.space i).setVmas t).setOp .idle)
  | .error _ => s.stop

/-- The first step of what a call asks for, up to the loop of `unmap_range` or
`protect_range`. -/
def serve (s : State N) (i : Fin N) (ok : ℕ → Bool) : Request → State N
  | .nothing => s
  | .insert vma => insertVma rb s i vma
  | .unmap start stop after =>
    startRange s i (.unmapFind start stop [] after)
      (splitRange rb ok start stop (s.space i).mm.vmas)
  | .protect start stop flags =>
    startRange s i (.protectFind start stop flags) (splitRange rb ok start stop (s.space i).mm.vmas)
  | .grow start stop addr =>
    match mapRange rb (ok 0) (s.space i).mm.vmas start stop { read := true, write := true } with
    | .error _ => s
    | .ok (t, _) => s.setSpace i (((s.space i).setVmas t).setBrk addr)
  | .setBrk addr => s.setSpace i ((s.space i).setBrk addr)

/-- A system call on the address space `i`. -/
def call (s : State N) (i : Fin N) (ok : ℕ → Bool) : Except Errno Request → State N
  | .error _ => s
  | .ok r => serve rb s i ok r

/-- `unmap_range` has returned. -/
def finishUnmap (s : State N) (i : Fin N) : After → State N
  | .ret => s.setSpace i ((s.space i).setOp .idle)
  | .insert vma => insertVma rb s i vma
  | .setBrk addr => s.setSpace i (((s.space i).setBrk addr).setOp .idle)

/-- A step of the clone into `j`. -/
def runClone (s : State N) (j : Fin N) : Op N → Option (State N)
  | .cloneScan src v =>
    if v < uvpns then
      match (s.space src).pte v with
      | none => some (s.setSpace j ((s.space j).setOp (.cloneScan src (v + 1))))
      | some e =>
        some ((s.setSpace src ((s.space src).setPte v (some ⟨e.frame, e.prot.dropWrite⟩))).setSpace
          j ((s.space j).setOp (.cloneMap src v)))
    else
      some ((s.setSpace src ((s.space src).setOp .idle)).setSpace j
        (((s.space j).setOp .idle).setLife .live))
  | .cloneInc src v =>
    match (s.space j).pte v with
    | some e =>
      some ((s.setRefs e.frame (refcountInc (s.refs e.frame))).setSpace j
        ((s.space j).setOp (.cloneScan src (v + 1))))
    | none => none
  | _ => none

/-- The next step of an operation that depends on nothing but the state. -/
def runStep (s : State N) (i : Fin N) : Option (State N) :=
  let sp := s.space i
  match sp.op with
  | .faultProbe v vma =>
    (sp.pte v).map fun e =>
      s.setSpace i (sp.setOp (if s.refs e.frame = 1 then .protectRead v vma.flags .fault
        else .pageAlloc v vma.flags .copy))
  | .protectRead v flags caller =>
    match sp.pte v with
    | none => some (s.setSpace i (sp.setOp (caller.next flags)))
    | some e => some (s.setSpace i (sp.setOp (.protectWrite v flags (s.refs e.frame == 1) caller)))
  | .protectWrite v flags exclusive caller =>
    (sp.pte v).map fun e =>
      s.setSpace i ((sp.setPte v (some (protectedPte e flags exclusive))).setOp (caller.next flags))
  | .pageUnmap v flags p =>
    (sp.pte v).map fun e =>
      s.setSpace i ((sp.setPte v none).setOp (.pageMap v flags p (some e.frame)))
  | .unmapFind start stop batch after =>
    match vmaFindIntersection sp.mm.vmas start stop with
    | none => some (s.setSpace i (sp.setOp (.unmapFlush start stop stop stop batch true after)))
    | some vma =>
      some (s.setSpace i ((sp.setVmas (rb.erase vma sp.mm.vmas)).setOp
        (.unmapPages start stop vma.start vma.stop batch after)))
  | .unmapPages start stop a e batch after =>
    if a < e then
      match sp.pte (a / pageSize) with
      | none => some (s.setSpace i (sp.setOp (.unmapPages start stop (a + pageSize) e batch after)))
      | some en =>
        let batch := batch ++ [en.frame]
        some (s.setSpace i ((sp.setPte (a / pageSize) none).setOp
          (if batch.length = unmapBatchPages then
            .unmapFlush start stop (a + pageSize) e batch false after
          else .unmapPages start stop (a + pageSize) e batch after)))
    else some (s.setSpace i (sp.setOp (.unmapFind start stop batch after)))
  | .unmapFlush start stop a e (p :: batch) last after =>
    some ((s.freePage p).setSpace i (sp.setOp (.unmapFlush start stop a e batch last after)))
  | .unmapFlush start stop a e [] false after =>
    some (s.setSpace i (sp.setOp (.unmapPages start stop a e [] after)))
  | .unmapFlush _ _ _ _ [] true after => some (finishUnmap rb s i after)
  | .protectFind a stop flags =>
    if a < stop then
      match vmaFind sp.mm.vmas a with
      | none => some (s.setSpace i (sp.setOp .idle))
      | some vma =>
        some (s.setSpace i ((sp.setVmas (setFlags vma flags sp.mm.vmas)).setOp
          (.protectPages a vma.stop stop flags)))
    else some (s.setSpace i (sp.setOp .idle))
  | .protectPages a e stop flags =>
    some (s.setSpace i (sp.setOp (if a < e then .protectRead (a / pageSize) flags (.range a e stop)
      else .protectFind a stop flags)))
  | .cloneScan src v => runClone s i (.cloneScan src v)
  | .cloneInc src v => runClone s i (.cloneInc src v)
  | .freeScan v =>
    if v < uvpns then
      match sp.pte v with
      | none => some (s.setSpace i (sp.setOp (.freeScan (v + 1))))
      | some e => some (s.setSpace i ((sp.setPte v none).setOp (.freePage v e.frame)))
    else some (s.setSpace i ((Space.empty N).setPending sp.pending))
  | .freePage v p => some ((s.freePage p).setSpace i (sp.setOp (.freeScan (v + 1))))
  | _ => none

/-- `alloc_page` has returned. -/
def allocStep (s : State N) (i : Fin N) (r : Option ℕ) : Option (State N) :=
  let sp := s.space i
  match sp.op, r with
  | .pageAlloc _ _ _, none => some (s.setSpace i (sp.setOp .idle))
  | .pageAlloc v flags fill, some p =>
    if s.refs p = 0 then some ((s.setRefs p 1).setSpace i (sp.setOp (.pageFill v flags fill p)))
    else none
  | _, _ => none

/-- The new page has been filled, or the file could not be read. -/
def fillStep (s : State N) (i : Fin N) (ok : Bool) : Option (State N) :=
  let sp := s.space i
  match sp.op with
  | .pageFill v flags .copy p =>
    (sp.pte v).map fun e =>
      (s.setBytes p (s.byte e.frame)).setSpace i (sp.setOp (.pageUnmap v flags p))
  | .pageFill v flags (.image vma) p =>
    if ok then
      some ((s.setBytes p fun o => imageByte file vma (v * pageSize + o)).setSpace i
        (sp.setOp (.pageMap v flags p none)))
    else some (s.setSpace i ((sp.setPending (p :: sp.pending)).setOp .idle))
  | .pageFill v flags (.bytes content) p =>
    some ((s.setBytes p content).setSpace i (sp.setOp (.pageMap v flags p none)))
  | _ => none

/-- `map_page` would fail: a table cannot be allocated, or there is an entry. -/
def MapFails (sp : Space N) (v : ℕ) (ok : Bool) : Prop :=
  sp.table (v / 512) = false ∧ ok = false ∨ sp.pte v ≠ none

instance (sp : Space N) (v : ℕ) (ok : Bool) : Decidable (MapFails sp v ok) :=
  inferInstanceAs (Decidable (_ ∨ _))

/-- `pgtable_map_page`, or `map_page` in a clone, has returned. A clone that fails is
given up, and the `mm_put` of the child follows. -/
def mapStep (s : State N) (i : Fin N) (ok : Bool) : Option (State N) :=
  let sp := s.space i
  match sp.op with
  | .pageMap v flags p old =>
    if MapFails sp v ok then
      match old with
      | none => some (s.setSpace i ((sp.setPending (p :: sp.pending)).setOp .idle))
      | some _ => some s.stop
    else
      some (s.setSpace i ((((sp.addTable v).setPte v (some ⟨p, vmaToPte flags⟩)).setPending
        (old.toList ++ sp.pending)).setOp .idle))
  | .cloneMap src v =>
    if MapFails sp v ok then
      some ((s.setSpace src ((s.space src).setOp .idle)).setSpace i
        (((sp.setVmas .nil).setLife .zombie).setOp .idle))
    else
      ((s.space src).pte v).map fun e =>
        s.setSpace i (((sp.addTable v).setPte v (some e)).setOp (.cloneInc src v))
  | _ => none

/-- A program whose address space is in use and which is not in the kernel. -/
def Space.Running (sp : Space N) : Prop := sp.life = .live ∧ sp.op.isIdle = true

instance (sp : Space N) : Decidable sp.Running := inferInstanceAs (Decidable (_ ∧ _))

/-- An address space that is being set up by `execve`. -/
def Space.Building (sp : Space N) : Prop := sp.life = .building ∧ sp.op.isIdle = true

instance (sp : Space N) : Decidable sp.Building := inferInstanceAs (Decidable (_ ∧ _))

/-- The page that `stack_copy` or `arch_utask_init` maps, with its permissions. -/
def setupFlags (v : ℕ) : Option VmFlags :=
  if cfg.ustackBottom ≤ v * pageSize ∧ v * pageSize < ustackTop then
    some { read := true, write := true }
  else if v = trampolineVpn then some { read := true, exec := true }
  else none

/-- `stack_copy` into one page, or the page of `arch_utask_init`: a page that is missing
is allocated, and one of the stack that is mapped is written. -/
def setupStep (s : State N) (i : Fin N) (v : ℕ) (content : ℕ → ℕ) : Option (State N) :=
  (setupFlags cfg v).bind fun flags =>
    match (s.space i).pte v with
    | none => some (s.setSpace i ((s.space i).setOp (.pageAlloc v flags (.bytes content))))
    | some e => if flags.write then some (s.setBytes e.frame content) else none

/-- One step. Nothing happens after a failed assertion. -/
def step (s : State N) (a : Action N) : Option (State N) :=
  if s.stopped then none
  else
    match a with
    | .load i addr b =>
      if (s.space i).Running then
        match (s.space i).pte (addr / pageSize) with
        | some e =>
          if e.prot.valid ∧ e.prot.read ∧ s.byte e.frame (addr % pageSize) = b then some s else none
        | none => none
      else none
    | .store i addr b =>
      if (s.space i).Running then
        match (s.space i).pte (addr / pageSize) with
        | some e =>
          if e.prot.valid ∧ e.prot.write then
            some (s.setBytes e.frame (update (s.byte e.frame) (addr % pageSize) b))
          else none
        | none => none
      else none
    | .fault i addr access =>
      if (s.space i).Running then
        some (s.setSpace i ((s.space i).setOp ((s.space i).faultStart addr access)))
      else none
    | .mmap i ok addr len prot flags offset =>
      if (s.space i).Running then
        some (call rb s i ok (mmapRequest cfg (s.space i).mm ok addr len prot flags offset))
      else none
    | .munmap i ok start len =>
      if (s.space i).Running then some (call rb s i ok (munmapRequest cfg start len)) else none
    | .mprotect i ok start len prot =>
      if (s.space i).Running then some (call rb s i ok (mprotectRequest cfg start len prot))
      else none
    | .brk i ok addr =>
      if (s.space i).Running then some (call rb s i ok (.ok (brkRequest cfg (s.space i).mm addr)))
      else none
    | .fork i child ok =>
      if (s.space i).Running ∧ (s.space child).life = .unused ∧ (s.space child).pending = [] then
        match mmClone rb ok (s.space i).mm with
        | .error _ => some s
        | .ok mm =>
          some ((s.setSpace i ((s.space i).setOp .forking)).setSpace child
            ⟨.building, mm, fun _ => none, fun _ => false, .cloneScan i 0, []⟩)
      else none
    | .exec i ok f ehdr phdrs =>
      if (s.space i).life = .unused then
        match loadExec cfg ehdr rb ok f phdrs with
        | .error _ => some s
        | .ok mm =>
          some (s.setSpace i
            ⟨.building, mm, fun _ => none, fun _ => false, .idle, (s.space i).pending⟩)
      else none
    | .setup i v content =>
      if (s.space i).Building then setupStep cfg s i v content else none
    | .ready i =>
      if (s.space i).Building then some (s.setSpace i ((s.space i).setLife .live)) else none
    | .exit i =>
      if ((s.space i).Running ∨ (s.space i).Building) ∧ (s.space i).pending = [] then
        some (s.setSpace i (((s.space i).setVmas .nil).setLife .zombie))
      else none
    | .drop i =>
      match (s.space i).life, (s.space i).op with
      | .zombie, .idle => some (s.setSpace i ((s.space i).setOp (.freeScan 0)))
      | _, _ => none
    | .run i => runStep rb s i
    | .alloc i p => allocStep s i p
    | .filled i ok => fillStep file s i ok
    | .mapped i ok => mapStep s i ok
    | .free i p =>
      if p ∈ (s.space i).pending then
        some ((s.freePage p).setSpace i ((s.space i).setPending ((s.space i).pending.erase p)))
      else none
    | .kernelAlloc p => if s.refs p = 0 then some ((s.setRefs p 1).setKernel p true) else none
    | .kernelFree p =>
      if s.kernel p then some ((s.freePage p).setKernel p false) else none

end

/-- No address space and no frame in use. -/
def boot (N : ℕ) : State N :=
  ⟨fun _ => Space.empty N, fun _ => 0, fun _ _ => 0, fun _ => false, false⟩

end Nuvix.Vm
