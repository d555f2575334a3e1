import Nuvix.Lib.Dyadic
import Nuvix.Mm.Page

/-!
# The buddy allocator: `mm/buddy.c`

Free memory is kept in aligned blocks of `2 ^ k` pages, one list per order. Only
the first descriptor of a block carries data. An allocation splits the smallest
block that is large enough; the last free of a block merges it with its buddy as
long as that is a free block of the same order.

`buddy_lock` is held throughout each function, so every call is one step.
-/

namespace Nuvix.Buddy

/-- `struct free_area`: the heads on the list, first to last, and the counter. -/
structure FreeArea where
  list : List ℕ
  nrFree : ℕ
  deriving DecidableEq, Repr

/-- The descriptors by page frame number, `free_area` by order, and `managed_pages`. -/
structure State where
  page : ℕ → Page
  freeArea : ℕ → FreeArea
  managed : ℕ

/-- Replace the descriptor of one page. -/
def State.setPage (s : State) (pfn : ℕ) (pg : Page) : State where
  page := Function.update s.page pfn pg
  freeArea := s.freeArea
  managed := s.managed

/-- Replace the free list of one order. -/
def State.setArea (s : State) (order : ℕ) (area : FreeArea) : State where
  page := s.page
  freeArea := Function.update s.freeArea order area
  managed := s.managed

/-- `add_block`. -/
def addBlock (s : State) (pfn order : ℕ) : State :=
  let pg := s.page pfn
  let area := s.freeArea order
  (s.setPage pfn ⟨{ pg.flags with buddy := true }, pg.refcount, order⟩).setArea order
    ⟨pfn :: area.list, area.nrFree + 1⟩

/-- `del_block`. -/
def delBlock (s : State) (pfn : ℕ) : State :=
  let pg := s.page pfn
  let area := s.freeArea pg.order
  (s.setArea pg.order ⟨area.list.erase pfn, area.nrFree - 1⟩).setPage pfn
    ⟨{ pg.flags with buddy := false }, pg.refcount, pageOrderNone⟩

/-- The loop of `merge_block` with `turns` orders left below the largest. -/
def mergeLoop (m : Mem) : ℕ → State → ℕ → ℕ → State
  | 0, s, pfn, order => addBlock s pfn order
  | turns + 1, s, pfn, order =>
    let buddyPfn := Dyadic.buddy pfn order
    let buddy := s.page buddyPfn
    if ¬ m.PfnValid buddyPfn ∨ buddy.flags.buddy = false ∨ buddy.order ≠ order then
      addBlock s pfn order
    else mergeLoop m turns (delBlock s buddyPfn) (min pfn buddyPfn) (order + 1)

/-- `merge_block`: `order + 1 < CONFIG_MAX_ORDER` holds for as many turns. -/
def mergeBlock (m : Mem) (s : State) (pfn order : ℕ) : State :=
  mergeLoop m (m.maxOrder - 1 - order) s pfn order

/-- The inner loop of `release_range`: from `order` down to the first order whose
block starts at `start` and has at most `len` pages. -/
def fitOrder (start len : ℕ) : ℕ → ℕ
  | 0 => 0
  | order + 1 =>
    if start &&& (1 <<< (order + 1) - 1) ≠ 0 ∨ 1 <<< (order + 1) > len then fitOrder start len order
    else order + 1

/-- The outer loop of `release_range`; every turn passes at least one page. -/
def releaseLoop (m : Mem) : ℕ → State → ℕ → ℕ → State
  | 0, s, _, _ => s
  | turns + 1, s, start, stop =>
    if start < stop then
      let order := fitOrder start (stop - start) (m.maxOrder - 1)
      releaseLoop m turns (addBlock s start order) (start + 1 <<< order) stop
    else s

/-- The first loop of `release_range`, and the count. -/
def clearReserved (s : State) (start stop : ℕ) : State where
  page pfn :=
    let pg := s.page pfn
    if start ≤ pfn ∧ pfn < stop then
      ⟨{ pg.flags with reserved := false }, pg.refcount, pg.order⟩
    else pg
  freeArea := s.freeArea
  managed := s.managed + (stop - start)

/-- `release_range`. -/
def releaseRange (m : Mem) (s : State) (start stop : ℕ) : State :=
  releaseLoop m (stop - start) (clearReserved s start stop) start stop

/-- The loop of `buddy_init` over the reservations, with the first page not yet
passed. -/
def initLoop (m : Mem) : List Memblock.Region → State → ℕ → State × ℕ
  | [], s, start => (s, start)
  | r :: rs, s, start =>
    let first := r.base >>> pageShift
    let last := pfnUp r.stop
    if last ≤ start then initLoop m rs s start
    else if first ≥ m.maxPfn then (s, start)
    else
      let s := if start < first then releaseRange m s start first else s
      initLoop m rs s (min last m.maxPfn)

/-- A descriptor as `page_init` leaves it. -/
def initPage : Page := ⟨{ reserved := true }, 0, pageOrderNone⟩

/-- All descriptors reserved and all lists empty. -/
def initState : State := ⟨fun _ => initPage, fun _ => ⟨[], 0⟩, 0⟩

/-- `buddy_init`. -/
def buddyInit (m : Mem) (mb : Memblock) : State :=
  let (s, start) := initLoop m mb.reserved initState m.minPfn
  releaseRange m s start m.maxPfn

/-- The search of `alloc_pages`: the first order from `order` on, among `turns`
many, whose list is not empty, with the first block there. -/
def firstBlock (s : State) : ℕ → ℕ → Option (ℕ × ℕ)
  | 0, _ => none
  | turns + 1, order =>
    match (s.freeArea order).list with
    | [] => firstBlock s turns (order + 1)
    | pfn :: _ => some (pfn, order)

/-- The inner loop of `alloc_pages`: give back right halves down to `order`. -/
def splitBlock (s : State) (pfn order : ℕ) : ℕ → State
  | 0 => s
  | splitOrder + 1 =>
    if splitOrder + 1 > order then
      splitBlock (addBlock s (pfn + 1 <<< splitOrder) splitOrder) pfn order splitOrder
    else s

/-- Mark the head of an allocated block. -/
def markAllocated (s : State) (pfn order : ℕ) : State :=
  s.setPage pfn ⟨{ (s.page pfn).flags with allocated := true }, 1, order⟩

/-- `alloc_pages`: the new state and the first page of the block, `none` for `NULL`. -/
def allocPages (m : Mem) (s : State) (order : ℤ) : State × Option ℕ :=
  if order < 0 ∨ order ≥ m.maxOrder then (s, none)
  else
    let order := order.toNat
    match firstBlock s (m.maxOrder - order) order with
    | none => (s, none)
    | some (pfn, splitOrder) =>
      (markAllocated (splitBlock (delBlock s pfn) pfn order splitOrder) pfn order, some pfn)

/-- `allocated_block`: whether `page`, any address at all, is the head of an
allocated block of this order. -/
def allocatedBlock (m : Mem) (s : State) (page : ℕ) (order : ℤ) : Bool :=
  if order < 0 ∨ order ≥ m.maxOrder then false
  else if page < m.memMap ∨ page ≥ m.memMap + (m.maxPfn - m.minPfn) * sizeofPage ∨
      (page - m.memMap) % sizeofPage ≠ 0 then false
  else
    let pfn := m.pageToPfn page
    let nr := 1 <<< order.toNat
    let pg := s.page pfn
    if pfn &&& (nr - 1) ≠ 0 ∨ nr > m.maxPfn - pfn ∨ pg.flags ≠ { allocated := true } ∨
        pg.order ≠ order.toNat ∨ pg.refcount = 0 then false
    else (List.range nr).all fun i =>
      i == 0 || ((s.page (pfn + i)).flags == {} && (s.page (pfn + i)).order == pageOrderNone &&
        (s.page (pfn + i)).refcount == 0)

/-- `free_pages`; a rejected free only prints a warning. -/
def freePages (m : Mem) (s : State) (page : ℕ) (order : ℤ) : State :=
  if page = 0 then s
  else if allocatedBlock m s page order = false then s
  else
    let pfn := m.pageToPfn page
    let pg := s.page pfn
    let (refs, last) := refcountDecAndTest pg.refcount
    if last then
      mergeBlock m (s.setPage pfn ⟨{ pg.flags with allocated := false }, refs, pageOrderNone⟩)
        pfn order.toNat
    else s.setPage pfn ⟨pg.flags, refs, pg.order⟩

/-- `refcount_inc(&page->refcount)`, the way a client takes a further reference. -/
def getPage (m : Mem) (s : State) (pfn : ℕ) : State :=
  if m.PfnValid pfn then
    let pg := s.page pfn
    s.setPage pfn ⟨pg.flags, refcountInc pg.refcount, pg.order⟩
  else s

/-- The calls a client can make, with any arguments. -/
inductive Event
  | alloc (order : ℤ)
  | free (page : ℕ) (order : ℤ)
  | get (pfn : ℕ)
  deriving DecidableEq, Repr

/-- The state after one call. -/
def step (m : Mem) (s : State) : Event → State
  | .alloc order => (allocPages m s order).1
  | .free page order => freePages m s page order
  | .get pfn => getPage m s pfn

end Nuvix.Buddy
