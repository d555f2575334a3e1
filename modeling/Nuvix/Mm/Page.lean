import Nuvix.Mm.Memblock
import Nuvix.Refcount

/-!
# Page descriptors: `include/nuvix/page.h`, `mm/page.c`

`mem_map` is a flat array with one `struct page` for every complete RAM page in
`[min_pfn, max_pfn)`. The model indexes descriptors by page frame number; the
`node` link of a descriptor is represented by the list that contains it, and the
`slab` part belongs to another allocator and is left out.
-/

namespace Nuvix

/-- The bits of `page->flags`. -/
structure PageFlags where
  reserved : Bool := false
  buddy : Bool := false
  pgtable : Bool := false
  allocated : Bool := false
  slab : Bool := false
  kmalloc : Bool := false
  deriving DecidableEq, Repr

/-- `PAGE_ORDER_NONE`, the unsigned 32-bit `-1`. -/
def pageOrderNone : ℕ := 2 ^ 32 - 1

/-- `struct page`. -/
structure Page where
  flags : PageFlags
  refcount : ℕ
  order : ℕ
  deriving DecidableEq, Repr

/-- The size of `struct page` in bytes. -/
def sizeofPage : ℕ := 56

/-- What `page_init` fixes for good: the range of page frame numbers and the
address of the descriptor array, together with `CONFIG_MAX_ORDER`. -/
structure Mem where
  minPfn : ℕ
  maxPfn : ℕ
  memMap : ℕ
  maxOrder : ℕ
  pfn_lt : minPfn < maxPfn
  maxOrder_pos : 0 < maxOrder
  maxOrder_le : maxOrder ≤ 11

/-- `pfn_valid`; `pfn_to_page` is `NULL` exactly for the other numbers. -/
def Mem.PfnValid (m : Mem) (pfn : ℕ) : Prop := m.minPfn ≤ pfn ∧ pfn < m.maxPfn

instance (m : Mem) (pfn : ℕ) : Decidable (m.PfnValid pfn) :=
  inferInstanceAs (Decidable (_ ∧ _))

/-- `page_to_pfn`. -/
def Mem.pageToPfn (m : Mem) (page : ℕ) : ℕ := m.minPfn + (page - m.memMap) / sizeofPage

/-- The number of the first page that starts at or after `addr`. -/
def pfnUp (addr : ℕ) : ℕ := addr >>> pageShift + if addr &&& (pageSize - 1) = 0 then 0 else 1

end Nuvix
