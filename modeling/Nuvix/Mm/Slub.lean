import Nuvix.Lib.Bytes
import Nuvix.Mm.BuddyPartition

/-!
# The slab allocator: `mm/slub.c`

Small objects come from ten caches, one for each power of two from 8 bytes to a page. A cache
cuts pages into slots; the first word of a free slot is the link to the next one. A page with
free and used slots is on the list `partial` of its cache, one without free slots on `full`. When
`partial` is empty the lock of the cache is dropped to get a page from the buddy allocator, and a
page whose last object is freed leaves the lists under the lock and is given back after it. Large
objects are blocks of the buddy allocator.

Any number of CPUs call `kmalloc`, `kzalloc` and `kfree`; a step is one section of the lock of a
cache, one call of the buddy allocator, or what a CPU does between them to a page that is only its
own. Other code uses the buddy allocator as well, and whoever has an object writes to it at any
time. The code is modelled without `CONFIG_DEBUG_ALLOC`. What the pages are used for and which
objects there are is recorded; no step of the code reads the record.
-/

namespace Nuvix.Slub

open Buddy Bytes Function

/-- The memory map: the kernel sees physical memory at a fixed distance, without wrapping, and
neither it nor the array of descriptors at the null pointer. -/
structure Layout extends Mem where
  offset : ℕ
  offset_pos : 0 < offset
  fits : offset + maxPfn * pageSize ≤ 2 ^ 64
  memMap_pos : 0 < memMap

/-- `__va(page_to_phys(page))`. -/
def Layout.va (l : Layout) (pfn : ℕ) : ℕ := l.offset + pfn * pageSize

/-- The number of the page of a pointer; `phys_to_page(__pa(ptr))` is `NULL` if it is not valid. -/
def Layout.pfn (l : Layout) (ptr : ℕ) : ℕ := (ptr - l.offset) / pageSize

/-- `KMALLOC_SHIFT_LOW`. -/
def kmallocShiftLow : ℕ := 3

/-- `KMALLOC_SHIFT_HIGH`. -/
def kmallocShiftHigh : ℕ := 12

/-- `KMALLOC_MAX_SIZE`. -/
def kmallocMaxSize : ℕ := 2 ^ kmallocShiftHigh

/-- The number of caches. -/
def nrCaches : ℕ := kmallocShiftHigh - kmallocShiftLow + 1

/-- `cache->size`, as `slub_init` sets it for good. -/
def cacheSize (i : ℕ) : ℕ := 2 ^ (kmallocShiftLow + i)

/-- `cache->objects`. -/
def cacheObjects (i : ℕ) : ℕ := pageSize / cacheSize i

/-- The address of a slot. -/
def Layout.slot (l : Layout) (p i j : ℕ) : ℕ := l.va p + j * cacheSize i

/-- `page->slab`. -/
structure Slab where
  cache : Option ℕ
  freelist : ℕ
  inuse : ℕ
  deriving DecidableEq, Repr

/-- The lists of `struct kmem_cache`. -/
structure Cache where
  partialPages : List ℕ
  full : List ℕ
  deriving DecidableEq, Repr

/-- `list_del`. -/
def Cache.del (c : Cache) (p : ℕ) : Cache := ⟨c.partialPages.erase p, c.full.erase p⟩

/-- `list_move_tail` to `partial`. -/
def Cache.moveToPartial (c : Cache) (p : ℕ) : Cache :=
  { c.del p with partialPages := (c.del p).partialPages ++ [p] }

/-- `list_move_tail` to `full`. -/
def Cache.moveToFull (c : Cache) (p : ℕ) : Cache :=
  { c.del p with full := (c.del p).full ++ [p] }

/-- What is asked for: the size, and whether the memory is to be cleared. -/
structure Request where
  size : ℕ
  zero : Bool
  deriving DecidableEq, Repr

/-- Where a CPU is. -/
inductive Pc
  /-- Outside, after a call that returned this pointer. -/
  | back (ptr : ℕ)
  /-- At the first section of `cache_alloc`. -/
  | cacheAlloc (i : ℕ) (r : Request)
  /-- In `new_slab`: before `alloc_page`, and with the page. -/
  | newSlab (i : ℕ) (r : Request)
  | initSlab (i : ℕ) (r : Request) (p : ℕ)
  /-- At the second section of `cache_alloc`. -/
  | addSlab (i : ℕ) (r : Request) (p : ℕ)
  /-- At `alloc_pages` in `kmalloc`, and with the block. -/
  | allocPages (k : ℕ) (r : Request)
  | mark (k : ℕ) (r : Request) (p : ℕ)
  /-- At the `memset` of `kzalloc`. -/
  | clear (ptr size : ℕ)
  /-- At the beginning of `kfree`, at its section, and after one that left the page empty. -/
  | kfree (ptr : ℕ)
  | freeObject (i p ptr : ℕ)
  | freeSlab (p : ℕ)
  /-- At `free_pages`. -/
  | freePages (p k : ℕ)
  deriving DecidableEq, Repr

/-- What an allocated block is used for: a page of a cache with the slots that are free, in the
order of the list, and the CPU that is about to fill it for the first time or to give it back; a
large object; a block that only one CPU knows; and a block of other code. -/
inductive Use (τ : Type*)
  | slab (i : ℕ) (free : List ℕ) (busy : Option τ)
  | large (k : ℕ)
  | own (t : τ) (k : ℕ)
  | other (k : ℕ)

/-- An object: its size as it was asked for, and the CPU that has not yet returned it from
`kzalloc` or is already in `kfree` with it. -/
structure Object (τ : Type*) where
  size : ℕ
  holder : Option τ

/-- The system, with the record of what blocks are used for and of the objects. -/
structure State (τ : Type*) where
  buddy : Buddy.State
  slab : ℕ → Slab
  mem : Store
  cache : ℕ → Cache
  pc : τ → Pc
  /-- Whether `kfree` has rejected a pointer or found no cache. -/
  failed : Bool
  use : ℕ → Option (Use τ)
  object : ℕ → Option (Object τ)

/-- What CPUs, other users of the buddy allocator and owners of objects do. -/
inductive Action (τ : Type*)
  | kmalloc (t : τ) (size : ℕ)
  | kzalloc (t : τ) (size : ℕ)
  | kfree (t : τ) (ptr : ℕ)
  /-- A CPU goes on with its call. -/
  | go (t : τ)
  /-- A byte of an object is written. -/
  | write (ptr x : ℕ) (b : BitVec 8)
  /-- Other code gets, shares and frees blocks, and writes to them. -/
  | otherAlloc (order : ℤ)
  | otherGet (p : ℕ)
  | otherFree (p : ℕ)
  | otherWrite (p x : ℕ) (b : BitVec 8)
  deriving DecidableEq

/-- The loop of `kmalloc` over the caches. -/
def cacheIndex (size : ℕ) : ℕ → ℕ → ℕ
  | 0, index => index
  | turns + 1, index =>
    if size > 2 ^ (kmallocShiftLow + index) then cacheIndex size turns (index + 1) else index

/-- The loop of `kmalloc` over the orders. -/
def blockOrder (maxOrder size : ℕ) : ℕ → ℕ → ℕ → Option ℕ
  | 0, _, _ => none
  | turns + 1, order, bytes =>
    if bytes < size then
      if order + 1 ≥ maxOrder then none else blockOrder maxOrder size turns (order + 1) (2 * bytes)
    else some order

/-- `kmalloc` up to the first section or call. -/
def kmalloc (l : Layout) (r : Request) : Pc :=
  if r.size = 0 then .back 0
  else if r.size ≤ kmallocMaxSize then .cacheAlloc (cacheIndex r.size nrCaches 0) r
  else
    match blockOrder l.maxOrder r.size l.maxOrder 0 pageSize with
    | none => .back 0
    | some k => .allocPages k r

/-- The loop of `new_slab`: link every slot to the next one. -/
def linkSlots (l : Layout) (p i : ℕ) (mem : Store) : Store :=
  (List.range (cacheObjects i)).foldl (fun mem j =>
    store mem (l.slot p i j) 8 (if j + 1 < cacheObjects i then l.slot p i (j + 1) else 0)) mem

variable {τ : Type*} [DecidableEq τ]

namespace State

def setPc (s : State τ) (t : τ) (pc : Pc) : State τ := { s with pc := update s.pc t pc }

def setUse (s : State τ) (p : ℕ) (use : Option (Use τ)) : State τ :=
  { s with use := update s.use p use }

def setObject (s : State τ) (ptr : ℕ) (object : Option (Object τ)) : State τ :=
  { s with object := update s.object ptr object }

def setSlab (s : State τ) (p : ℕ) (slab : Slab) : State τ :=
  { s with slab := update s.slab p slab }

def setCache (s : State τ) (i : ℕ) (cache : Cache) : State τ :=
  { s with cache := update s.cache i cache }

/-- Change `page->flags`. -/
def setFlags (s : State τ) (p : ℕ) (f : PageFlags → PageFlags) : State τ :=
  { s with buddy := s.buddy.setPage p { s.buddy.page p with flags := f (s.buddy.page p).flags } }

/-- `kmalloc` returns an object, to the `memset` if the caller is `kzalloc`. -/
def give (s : State τ) (t : τ) (r : Request) (ptr : ℕ) : State τ :=
  if r.zero then (s.setObject ptr (some ⟨r.size, some t⟩)).setPc t (.clear ptr r.size)
  else (s.setObject ptr (some ⟨r.size, none⟩)).setPc t (.back ptr)

/-- The end of `cache_alloc`: take the first free slot of the first page of `partial`. -/
def takeObject (s : State τ) (t : τ) (i : ℕ) (r : Request) : State τ :=
  match (s.cache i).partialPages with
  | [] => s
  | p :: _ =>
    let ptr := (s.slab p).freelist
    let freelist := load s.mem ptr 8
    let s := s.setSlab p { s.slab p with freelist := freelist, inuse := (s.slab p).inuse + 1 }
    let s := if freelist = 0 then s.setCache i ((s.cache i).moveToFull p) else s
    let s := match s.use p with
      | some (.slab _ free _) => s.setUse p (some (.slab i free.tail none))
      | _ => s
    s.give t r ptr

/-- The first section of `cache_alloc`. -/
def cacheAlloc (s : State τ) (t : τ) (i : ℕ) (r : Request) : State τ :=
  if (s.cache i).partialPages = [] then s.setPc t (.newSlab i r) else s.takeObject t i r

/-- The second section of `cache_alloc`. -/
def addSlab (s : State τ) (t : τ) (i : ℕ) (r : Request) (p : ℕ) : State τ :=
  (s.setCache i { s.cache i with partialPages := p :: (s.cache i).partialPages }).takeObject t i r

/-- `alloc_pages`, and where to go with the block. -/
def getBlock (l : Layout) (s : State τ) (t : τ) (k : ℕ) (next : ℕ → Pc) : State τ :=
  match Buddy.allocPages l.toMem s.buddy k with
  | (buddy, none) => { s with buddy := buddy }.setPc t (.back 0)
  | (buddy, some p) => ({ s with buddy := buddy }.setUse p (some (.own t k))).setPc t (next p)

/-- `new_slab` after `alloc_page`. -/
def initSlab (l : Layout) (s : State τ) (t : τ) (i : ℕ) (r : Request) (p : ℕ) : State τ :=
  let s := s.setFlags p fun flags => { flags with slab := true }
  let s := s.setSlab p ⟨some i, l.va p, 0⟩
  let s := { s with mem := linkSlots l p i s.mem }
  (s.setUse p (some (.slab i (List.range (cacheObjects i)) (some t)))).setPc t (.addSlab i r p)

/-- `kmalloc` after `alloc_pages`. -/
def mark (l : Layout) (s : State τ) (t : τ) (k : ℕ) (r : Request) (p : ℕ) : State τ :=
  let s := s.setFlags p fun flags => { flags with kmalloc := true }
  (s.setUse p (some (.large k))).give t r (l.va p)

/-- The `memset` of `kzalloc`. -/
def clear (s : State τ) (t : τ) (ptr size : ℕ) : State τ :=
  ({ s with mem := fill s.mem ptr size 0 }.setObject ptr (some ⟨size, none⟩)).setPc t (.back ptr)

/-- `kfree` up to its section, or to `free_pages`. -/
def kfree (l : Layout) (s : State τ) (t : τ) (ptr : ℕ) : State τ :=
  let p := l.pfn ptr
  let pg := s.buddy.page p
  if ¬ l.PfnValid p ∨ (pg.flags.slab = false ∧ pg.flags.kmalloc = false) then
    { s with failed := true }.setPc t (.back 0)
  else if pg.flags.kmalloc = true then
    if ptr ≠ l.va p then { s with failed := true }.setPc t (.back 0)
    else
      let s := s.setFlags p fun flags => { flags with kmalloc := false }
      ((s.setUse p (some (.own t pg.order))).setObject ptr none).setPc t (.freePages p pg.order)
  else
    match (s.slab p).cache with
    | none => { s with failed := true }.setPc t (.back 0)
    | some i => s.setPc t (.freeObject i p ptr)

/-- The section of `kfree`. -/
def freeObject (l : Layout) (s : State τ) (t : τ) (i p ptr : ℕ) : State τ :=
  let slab := s.slab p
  let empty : Bool := slab.inuse - 1 = 0
  let s := if slab.inuse = cacheObjects i then s.setCache i ((s.cache i).moveToPartial p) else s
  let s := { s with mem := store s.mem ptr 8 slab.freelist }
  let s := s.setSlab p { slab with freelist := ptr, inuse := slab.inuse - 1 }
  let s := if empty then s.setCache i ((s.cache i).del p) else s
  let s := match s.use p with
    | some (.slab _ free _) => s.setUse p (some (.slab i ((ptr - l.va p) / cacheSize i :: free)
        (if empty then some t else none)))
    | _ => s
  (s.setObject ptr none).setPc t (if empty then .freeSlab p else .back 0)

/-- The end of `kfree` for a page without objects, up to `free_page`. -/
def freeSlab (s : State τ) (t : τ) (p : ℕ) : State τ :=
  let s := s.setFlags p fun flags => { flags with slab := false }
  let s := s.setSlab p { s.slab p with cache := none, freelist := 0 }
  (s.setUse p (some (.own t 0))).setPc t (.freePages p 0)

/-- `free_pages`. -/
def putBlock (l : Layout) (s : State τ) (t : τ) (p k : ℕ) : State τ :=
  ({ s with buddy := Buddy.freePages l.toMem s.buddy (pageAddr l.toMem p) k }.setUse p none).setPc t
    (.back 0)

/-- A CPU goes on with its call. -/
def go (l : Layout) (s : State τ) (t : τ) : Option (State τ) :=
  match s.pc t with
  | .back _ => none
  | .cacheAlloc i r => some (s.cacheAlloc t i r)
  | .newSlab i r => some (getBlock l s t 0 (.initSlab i r))
  | .initSlab i r p => some (initSlab l s t i r p)
  | .addSlab i r p => some (s.addSlab t i r p)
  | .allocPages k r => some (getBlock l s t k (.mark k r))
  | .mark k r p => some (mark l s t k r p)
  | .clear ptr size => some (s.clear t ptr size)
  | .kfree ptr => some (kfree l s t ptr)
  | .freeObject i p ptr => some (freeObject l s t i p ptr)
  | .freeSlab p => some (s.freeSlab t p)
  | .freePages p k => some (putBlock l s t p k)

/-- A call of `kfree` with `NULL` or the pointer of an object. -/
def callKfree (s : State τ) (t : τ) (ptr : ℕ) : Option (State τ) :=
  if ptr = 0 then some (s.setPc t (.back 0))
  else
    match s.object ptr with
    | some ⟨size, none⟩ => some ((s.setObject ptr (some ⟨size, some t⟩)).setPc t (.kfree ptr))
    | _ => none

end State

/-- One step. -/
def step (l : Layout) (s : State τ) : Action τ → Option (State τ)
  | .kmalloc t size =>
    match s.pc t with
    | .back _ => some (s.setPc t (kmalloc l ⟨size, false⟩))
    | _ => none
  | .kzalloc t size =>
    match s.pc t with
    | .back _ => some (s.setPc t (kmalloc l ⟨size, true⟩))
    | _ => none
  | .kfree t ptr =>
    match s.pc t with
    | .back _ => s.callKfree t ptr
    | _ => none
  | .go t => State.go l s t
  | .write ptr x b =>
    match s.object ptr with
    | some ⟨size, none⟩ =>
      if ptr ≤ x ∧ x < ptr + size then some { s with mem := update s.mem x b } else none
    | _ => none
  | .otherAlloc order =>
    match Buddy.allocPages l.toMem s.buddy order with
    | (buddy, none) => some { s with buddy := buddy }
    | (buddy, some p) => some ({ s with buddy := buddy }.setUse p (some (.other order.toNat)))
  | .otherGet p =>
    match s.use p with
    | some (.other _) => some { s with buddy := Buddy.getPage l.toMem s.buddy p }
    | _ => none
  | .otherFree p =>
    match s.use p with
    | some (.other k) =>
      let s' := { s with buddy := Buddy.freePages l.toMem s.buddy (pageAddr l.toMem p) k }
      some (if (s.buddy.page p).refcount = 1 then s'.setUse p none else s')
    | _ => none
  | .otherWrite p x b =>
    match s.use p with
    | some (.other k) =>
      if l.va p ≤ x ∧ x < l.va p + 2 ^ k * pageSize then
        some { s with mem := update s.mem x b }
      else none
    | _ => none

/-- After `buddy_init` and `slub_init`, with any contents of the memory. -/
def Booted (l : Layout) (s : State τ) : Prop :=
  ∃ (mb : Memblock) (mem : Store), s = {
    buddy := buddyInit l.toMem mb
    slab := fun _ => ⟨none, 0, 0⟩
    mem := mem
    cache := fun _ => ⟨[], []⟩
    pc := fun _ => .back 0
    failed := false
    use := fun _ => none
    object := fun _ => none }

end Nuvix.Slub
