import Nuvix.Errno

/-!
# Boot-time memory reservations: `mm/memblock.c`

Before the buddy allocator exists, memory is handed out by recording reserved
regions. The record is sorted by base, and each region is non-empty and ends
inside the 64-bit address space; these facts are fields of the types, so
`reserve` carries the proof that it keeps them.
-/

namespace Nuvix

def pageShift : ℕ := 12

def pageSize : ℕ := 2 ^ pageShift

def uint64Max : ℕ := 2 ^ 64 - 1

/-- `ALIGN_UP` for an alignment that is a power of two. -/
def alignUp (x align : ℕ) : ℕ := (x + (align - 1)) / align * align

namespace Memblock

def maxReserved : ℕ := 32

/-- A reserved `struct memblock_region`. -/
structure Region where
  base : ℕ
  size : ℕ
  noMap : Bool
  size_pos : 0 < size
  stop_le : base + size ≤ uint64Max
  deriving DecidableEq

/-- The first address past a region. -/
def Region.stop (r : Region) : ℕ := r.base + r.size

end Memblock

/-- `struct memblock`: the RAM range and the reserved regions, sorted by base. -/
structure Memblock where
  memBase : ℕ
  memSize : ℕ
  reserved : List Memblock.Region
  sorted : reserved.Pairwise fun r r' => r.base ≤ r'.base
  count : reserved.length ≤ Memblock.maxReserved

namespace Memblock

variable {noMap : Bool} {acc : Span × ℕ} {rs : List Region} {r : Region}

/-- The range `[base, end)` a reservation grows to while it absorbs others. -/
structure Span where
  base : ℕ
  stop : ℕ
  lt : base < stop
  stop_le : stop ≤ uint64Max

/-- Whether a region of the same kind overlaps or touches the span. -/
def Span.touches (sp : Span) (noMap : Bool) (r : Region) : Bool :=
  r.noMap == noMap && r.base ≤ sp.stop && sp.base ≤ r.stop

/-- The span extended by a region. -/
def Span.join (sp : Span) (r : Region) : Span where
  base := min sp.base r.base
  stop := max sp.stop r.stop
  lt := by have := sp.lt; omega
  stop_le := max_le sp.stop_le r.stop_le

/-- One turn of the merging loop: the span and the number of regions merged. -/
def absorb (noMap : Bool) (acc : Span × ℕ) (r : Region) : Span × ℕ :=
  if acc.1.touches noMap r then (acc.1.join r, acc.2 + 1) else acc

/-- The region a span stands for. -/
def Span.region (sp : Span) (noMap : Bool) : Region where
  base := sp.base
  size := sp.stop - sp.base
  noMap := noMap
  size_pos := by have := sp.lt; omega
  stop_le := by have := sp.lt; have := sp.stop_le; omega

/-- Put `r` in front of the first region whose base is not smaller. -/
def insertRegion (regions : List Region) (r : Region) : List Region :=
  regions.takeWhile (fun r' => r'.base < r.base) ++
    r :: regions.dropWhile (fun r' => r'.base < r.base)

theorem Span.touches_iff {sp : Span} :
    sp.touches noMap r ↔ r.noMap = noMap ∧ r.base ≤ sp.stop ∧ sp.base ≤ r.stop := by
  simp only [Span.touches, Bool.and_eq_true, beq_iff_eq, decide_eq_true_eq, and_assoc]

theorem touches_absorb {r' : Region} (h : acc.1.touches noMap r) :
    (absorb noMap acc r').1.touches noMap r := by
  unfold absorb
  split_ifs with h'
  · rw [Span.touches_iff] at h ⊢
    exact ⟨h.1, h.2.1.trans (Nat.le_max_left _ _), (Nat.min_le_left _ _).trans h.2.2⟩
  · exact h

/-- A span only grows, so what it touches once it touches at the end. -/
theorem touches_foldl (h : acc.1.touches noMap r) :
    (rs.foldl (absorb noMap) acc).1.touches noMap r := by
  induction rs generalizing acc with
  | nil => exact h
  | cons r' rs ih => exact ih (touches_absorb h)

/-- A region that was counted as merged touches the final span. -/
theorem exists_touches_of_merged (acc : Span × ℕ) (h : acc.2 < (rs.foldl (absorb noMap) acc).2) :
    ∃ r ∈ rs, (rs.foldl (absorb noMap) acc).1.touches noMap r := by
  induction rs generalizing acc with
  | nil => exact absurd h (lt_irrefl _)
  | cons r rs ih =>
    rw [List.foldl_cons] at h ⊢
    by_cases hr : acc.1.touches noMap r
    · exact ⟨r, by simp, touches_foldl (touches_absorb hr)⟩
    · have hacc : absorb noMap acc r = acc := if_neg hr
      rw [hacc] at h ⊢
      obtain ⟨r', hmem, htouch⟩ := ih acc h
      exact ⟨r', by simp [hmem], htouch⟩

theorem length_insertRegion (regions : List Region) (r : Region) :
    (insertRegion regions r).length = regions.length + 1 := by
  have h := congrArg List.length
    (List.takeWhile_append_dropWhile (p := fun r' : Region => r'.base < r.base) (l := regions))
  rw [List.length_append] at h
  rw [insertRegion, List.length_append, List.length_cons]
  omega

theorem sorted_insertRegion {regions : List Region} (r : Region)
    (h : regions.Pairwise fun r r' => r.base ≤ r'.base) :
    (insertRegion regions r).Pairwise fun r r' => r.base ≤ r'.base := by
  induction regions with
  | nil => simp [insertRegion]
  | cons r' regions ih =>
    obtain ⟨hhead, htail⟩ := List.pairwise_cons.mp h
    by_cases hlt : r'.base < r.base
    · have hins : insertRegion (r' :: regions) r = r' :: insertRegion regions r := by
        simp [insertRegion, hlt]
      rw [hins, List.pairwise_cons]
      refine ⟨fun x hx => ?_, ih htail⟩
      have hmem : x = r ∨ x ∈ regions := by
        rw [← List.takeWhile_append_dropWhile (p := fun r' : Region => r'.base < r.base)
          (l := regions)]
        simp only [insertRegion, List.mem_append, List.mem_cons] at hx ⊢
        tauto
      rcases hmem with rfl | hmem
      · exact hlt.le
      · exact hhead x hmem
    · have hins : insertRegion (r' :: regions) r = r :: r' :: regions := by
        simp [insertRegion, hlt]
      rw [hins, List.pairwise_cons]
      refine ⟨fun x hx => ?_, h⟩
      rcases List.mem_cons.mp hx with rfl | hx
      · omega
      · have := hhead x hx
        omega

/-- `memblock_reserve`. -/
def reserve (mb : Memblock) (base size : ℕ) (noMap : Bool) : Except Errno Memblock :=
  if hsize : size = 0 then .error .einval
  else if hover : size > uint64Max - base then .error .eoverflow
  else
    let sp : Span := ⟨base, base + size, by omega, by omega⟩
    let acc := mb.reserved.foldl (absorb noMap) (sp, 0)
    if hfull : mb.reserved.length - acc.2 = maxReserved then .error .enospc
    else
      let kept := mb.reserved.filter fun r => !acc.1.touches noMap r
      .ok { mb with
        reserved := insertRegion kept (acc.1.region noMap)
        sorted := sorted_insertRegion _ (mb.sorted.filter _)
        count := by
          rw [length_insertRegion]
          -- a full table loses at least the region that was merged
          rcases Nat.lt_or_ge mb.reserved.length maxReserved with hlt | hge
          · exact (List.length_filter_le _ _).trans_lt hlt
          · have hmerged : 0 < acc.2 := by have := mb.count; omega
            obtain ⟨r, hr, htouch⟩ := exists_touches_of_merged (sp, 0) hmerged
            have hkept : kept.length < mb.reserved.length :=
              List.length_filter_lt_length_iff_exists.mpr ⟨r, hr, by simpa [acc] using htouch⟩
            have := mb.count
            omega }

end Memblock

end Nuvix
