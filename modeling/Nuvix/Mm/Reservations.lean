import Nuvix.Lib.Transition
import Nuvix.Mm.Memblock

/-!
# Reserved memory

`memblock_reserve` looks at the table twice: the first pass grows the new range over every region of
its kind that it overlaps or touches, the second one drops what the range has grown over. A region
that the first pass leaves behind stays apart from the range however far it grows, because the table
is sorted and the regions of one kind are apart from each other. So both passes mean the same
regions, and no more than the range itself is added.

`early_alloc` makes one pass. Regions of two kinds may overlap, but those behind the candidate end
before it, and those that start after its end do not matter.
-/

namespace Nuvix.Memblock

open Transition

/-- Two regions do not overlap, and do not even touch, unless they are of different kinds. -/
def Region.Apart (r r' : Region) : Prop :=
  r.noMap = r'.noMap → r.stop < r'.base ∨ r'.stop < r.base

/-- The regions of each kind are apart from each other. -/
def Separated (rs : List Region) : Prop := rs.Pairwise Region.Apart

/-- The address `x` is reserved by a region of the given kind. -/
def Covers (mb : Memblock) (noMap : Bool) (x : ℕ) : Prop :=
  ∃ r ∈ mb.reserved, r.noMap = noMap ∧ r.base ≤ x ∧ x < r.stop

/-- The range of a reservation. -/
def Span.ofRange (base size : ℕ) (hsize : 0 < size) (hover : base + size ≤ uint64Max) : Span :=
  ⟨base, base + size, by omega, hover⟩

/-- The range that a reservation grows to. -/
def grown (mb : Memblock) (noMap : Bool) (sp : Span) : Span :=
  (mb.reserved.foldl (absorb noMap) (sp, 0)).1

/-- The regions that remain beside it. -/
def remaining (mb : Memblock) (noMap : Bool) (sp : Span) : List Region :=
  mb.reserved.filter fun r => !(mb.grown noMap sp).touches noMap r

/-- `memblock_reserve` with the table it leaves: nothing is written before the last check. -/
def reserveCall (mb : Memblock) (base size : ℕ) (noMap : Bool) : Memblock × Except Errno Unit :=
  match mb.reserve base size noMap with
  | .ok mb' => (mb', .ok ())
  | .error e => (mb, .error e)

/-- A sequence of calls of `memblock_reserve`. -/
def reserveStep (mb : Memblock) (call : ℕ × ℕ × Bool) : Option Memblock :=
  some (mb.reserveCall call.1 call.2.1 call.2.2).1

/-- The table of `memblock_init` before the first reservation. -/
def Empty (mb : Memblock) : Prop := mb.reserved = []

variable {mb mb' : Memblock} {noMap : Bool} {sp : Span} {rs : List Region} {r r' : Region}
  {acc : Span × ℕ}

theorem Region.lt_stop (r : Region) : r.base < r.stop := by
  have := r.size_pos
  unfold Region.stop
  omega

theorem Region.Apart.symm (h : r.Apart r') : r'.Apart r := fun heq => (h heq.symm).symm

/-- Of two regions of a kind, the one with the smaller base ends before the other begins. -/
theorem Region.Apart.stop_lt (h : r.Apart r') (hle : r.base ≤ r'.base)
    (hkind : r.noMap = r'.noMap) : r.stop < r'.base := by
  have := r'.lt_stop
  rcases h hkind with hlt | hlt
  · exact hlt
  · omega

/-! ### Both passes mean the same regions -/

/-- A range does not grow over regions that begin behind its end. -/
theorem foldl_absorb_of_lt (h : ∀ r ∈ rs, acc.1.stop < r.base) :
    rs.foldl (absorb noMap) acc = acc := by
  induction rs with
  | nil => rfl
  | cons r rs ih =>
    have hr := h r List.mem_cons_self
    have hnot : ¬ acc.1.touches noMap r := fun htouch => by
      have := (Span.touches_iff.mp htouch).2.1
      omega
    rw [List.foldl_cons, absorb, if_neg hnot]
    exact ih fun r' hr' => h r' (List.mem_cons_of_mem r hr')

/-- A range does not grow below an address that all regions of its kind are above. -/
theorem lt_base_foldl_absorb {x : ℕ} (hacc : x < acc.1.base)
    (h : ∀ r ∈ rs, r.noMap = noMap → x < r.base) : x < (rs.foldl (absorb noMap) acc).1.base := by
  induction rs generalizing acc with
  | nil => exact hacc
  | cons r rs ih =>
    refine ih ?_ fun r' hr' => h r' (List.mem_cons_of_mem r hr')
    unfold absorb
    split
    next htouch =>
      exact lt_min hacc (h r List.mem_cons_self (Span.touches_iff.mp htouch).1)
    · exact hacc

/-- Whether a region is merged is settled when the first pass comes to it. -/
theorem touches_foldl_iff (noMap : Bool) (hsorted : (r :: rs).Pairwise fun r r' => r.base ≤ r'.base)
    (hsep : Separated (r :: rs)) (acc : Span × ℕ) :
    ((r :: rs).foldl (absorb noMap) acc).1.touches noMap r ↔ acc.1.touches noMap r := by
  refine ⟨fun hfin => ?_, fun htouch => touches_foldl htouch⟩
  by_contra hnot
  rw [List.foldl_cons, absorb, if_neg hnot, Span.touches_iff] at hfin
  obtain ⟨hkind, hbase, hstop⟩ := hfin
  have hhead := (List.pairwise_cons.mp hsorted).1
  have hapart := (List.pairwise_cons.mp hsep).1
  rw [Span.touches_iff, not_and, not_and, not_le] at hnot
  rcases Nat.lt_or_ge acc.1.stop r.base with hlt | hle
  · -- The rest of the table begins behind the range as well.
    rw [foldl_absorb_of_lt fun r' hr' => hlt.trans_le (hhead r' hr')] at hbase
    omega
  · have hlow := lt_base_foldl_absorb (hnot hkind hle) fun r' hr' hkind' =>
      (hapart r' hr').stop_lt (hhead r' hr') (hkind.trans hkind'.symm)
    omega

/-- The first pass: it merges what touches the range in the end, and the range is what was asked for
and these regions. -/
theorem foldl_absorb_spec (noMap : Bool) (hsorted : rs.Pairwise fun r r' => r.base ≤ r'.base)
    (hsep : Separated rs) (acc fin : Span × ℕ) (hfin : rs.foldl (absorb noMap) acc = fin) :
    fin.2 = acc.2 + (rs.filter (fin.1.touches noMap)).length ∧
      ∀ x, fin.1.base ≤ x ∧ x < fin.1.stop ↔ (acc.1.base ≤ x ∧ x < acc.1.stop) ∨
        ∃ r ∈ rs, fin.1.touches noMap r ∧ r.base ≤ x ∧ x < r.stop := by
  induction rs generalizing acc with
  | nil =>
    subst hfin
    simp
  | cons r rs ih =>
    have htouch := touches_foldl_iff noMap hsorted hsep acc
    rw [hfin] at htouch
    obtain ⟨hcount, hcover⟩ := ih (List.pairwise_cons.mp hsorted).2 (List.pairwise_cons.mp hsep).2
      (absorb noMap acc r) hfin
    simp only [List.exists_mem_cons_iff]
    by_cases hr : acc.1.touches noMap r
    · have hacc : absorb noMap acc r = (acc.1.join r, acc.2 + 1) := if_pos hr
      rw [hacc] at hcount hcover
      rw [List.filter_cons_of_pos (htouch.mpr hr), List.length_cons]
      refine ⟨by omega, fun x => ?_⟩
      -- The range and the region overlap or touch, so nothing lies between them.
      have hjoin : (acc.1.join r).base ≤ x ∧ x < (acc.1.join r).stop ↔
          (acc.1.base ≤ x ∧ x < acc.1.stop) ∨ (r.base ≤ x ∧ x < r.stop) := by
        have hspan := Span.touches_iff.mp hr
        have := r.lt_stop
        have := acc.1.lt
        simp only [Span.join]
        omega
      rw [hcover, hjoin, or_assoc, and_iff_right (htouch.mpr hr)]
    · have hacc : absorb noMap acc r = acc := if_neg hr
      have hnot := mt htouch.mp hr
      rw [hacc] at hcount hcover
      rw [List.filter_cons_of_neg hnot]
      refine ⟨hcount, fun x => ?_⟩
      rw [hcover, iff_false_intro hnot, false_and, false_or]

/-! ### One reservation -/

theorem perm_insertRegion (rs : List Region) (r : Region) : (insertRegion rs r).Perm (r :: rs) := by
  have h := List.takeWhile_append_dropWhile (p := fun r' : Region => r'.base < r.base) (l := rs)
  conv_rhs => rw [← h]
  exact List.perm_middle

/-- The capacity check counts the regions that remain. -/
theorem reserve_eq (noMap : Bool) (hsep : Separated mb.reserved) {base size : ℕ} (hsize : 0 < size)
    (hover : base + size ≤ uint64Max) : mb.reserve base size noMap = .error .enospc ∧
        (mb.remaining noMap (.ofRange base size hsize hover)).length = maxReserved ∨
      ∃ mb', mb.reserve base size noMap = .ok mb' ∧
        (mb.remaining noMap (.ofRange base size hsize hover)).length ≠ maxReserved ∧
        mb'.reserved = insertRegion (mb.remaining noMap (.ofRange base size hsize hover))
          ((mb.grown noMap (.ofRange base size hsize hover)).region noMap) := by
  have hmerged := (foldl_absorb_spec noMap mb.sorted hsep
    (.ofRange base size hsize hover, 0) _ rfl).1
  have hlength : (mb.remaining noMap (.ofRange base size hsize hover)).length =
      mb.reserved.length - (mb.reserved.foldl (absorb noMap)
        (.ofRange base size hsize hover, 0)).2 := by
    have hsum := List.length_eq_length_filter_add
      (l := mb.reserved) ((mb.grown noMap (.ofRange base size hsize hover)).touches noMap)
    unfold remaining
    unfold grown at hsum ⊢
    omega
  unfold reserve
  rw [dif_neg (by omega), dif_neg (by omega)]
  dsimp only
  split
  next hfull =>
    exact .inl ⟨rfl, hlength.trans hfull⟩
  next hfree =>
    exact .inr ⟨_, rfl, fun heq => hfree (hlength.symm.trans heq), rfl⟩

/-- The table after a reservation, when `sp` is the range. -/
theorem separated_insert (hsep : Separated mb.reserved)
    (hmb' : mb'.reserved = insertRegion (mb.remaining noMap sp)
      ((mb.grown noMap sp).region noMap)) :
    Separated mb'.reserved := by
  have hperm := perm_insertRegion (mb.remaining noMap sp) ((mb.grown noMap sp).region noMap)
  rw [← hmb'] at hperm
  refine (hperm.pairwise_iff fun h => h.symm).mpr (List.pairwise_cons.mpr ⟨?_, hsep.filter _⟩)
  intro r hr hkind
  have hnot := (List.mem_filter.mp hr).2
  rw [Bool.not_eq_true', Bool.eq_false_iff, ne_eq, Span.touches_iff] at hnot
  have hlt := (mb.grown noMap sp).lt
  have hstop : ((mb.grown noMap sp).region noMap).stop = (mb.grown noMap sp).stop := by
    simp only [Region.stop, Span.region]
    omega
  have hkind' : r.noMap = noMap := hkind.symm
  rw [hstop]
  change (mb.grown noMap sp).stop < r.base ∨ r.stop < (mb.grown noMap sp).base
  simp only [hkind', true_and, not_and, not_le] at hnot
  rcases Nat.lt_or_ge (mb.grown noMap sp).stop r.base with h | h
  · exact .inl h
  · exact .inr (hnot h)

/-- What the regions cover after a reservation. -/
theorem covers_insert (hsep : Separated mb.reserved)
    (hmb' : mb'.reserved = insertRegion (mb.remaining noMap sp) ((mb.grown noMap sp).region noMap))
    (kind : Bool) (x : ℕ) :
    mb'.Covers kind x ↔ mb.Covers kind x ∨ kind = noMap ∧ sp.base ≤ x ∧ x < sp.stop := by
  have hgrown := (foldl_absorb_spec noMap mb.sorted hsep (sp, 0) _ rfl).2 x
  have hperm := perm_insertRegion (mb.remaining noMap sp) ((mb.grown noMap sp).region noMap)
  have hnew : ((mb.grown noMap sp).region noMap).base ≤ x ∧
      x < ((mb.grown noMap sp).region noMap).stop ↔
      (mb.grown noMap sp).base ≤ x ∧ x < (mb.grown noMap sp).stop := by
    have := (mb.grown noMap sp).lt
    simp only [Region.stop, Span.region]
    omega
  have hcovers : mb'.Covers kind x ↔
      noMap = kind ∧ ((mb.grown noMap sp).base ≤ x ∧ x < (mb.grown noMap sp).stop) ∨
        ∃ r ∈ mb.remaining noMap sp, r.noMap = kind ∧ r.base ≤ x ∧ x < r.stop := by
    unfold Covers
    simp only [hmb', hperm.mem_iff, List.exists_mem_cons_iff, hnew]
    rfl
  rw [hcovers, grown, hgrown]
  constructor
  · rintro (⟨rfl, hx | ⟨r, hr, htouch, hx⟩⟩ | ⟨r, hr, hx⟩)
    · exact .inr ⟨rfl, hx⟩
    · exact .inl ⟨r, hr, (Span.touches_iff.mp htouch).1, hx⟩
    · exact .inl ⟨r, (List.mem_filter.mp hr).1, hx⟩
  · rintro (⟨r, hr, rfl, hx⟩ | ⟨rfl, hx⟩)
    · by_cases htouch : (mb.grown noMap sp).touches noMap r
      · exact .inl ⟨(Span.touches_iff.mp htouch).1.symm, .inr ⟨r, hr, htouch, hx⟩⟩
      · exact .inr ⟨r, List.mem_filter.mpr ⟨hr, by simpa using htouch⟩, rfl, hx⟩
    · exact .inl ⟨rfl, .inl hx⟩

/-- A reservation that succeeds. -/
theorem reserve_ok (hsep : Separated mb.reserved) {base size : ℕ}
    (h : mb.reserve base size noMap = .ok mb') : Separated mb'.reserved ∧
      ∀ kind x, mb'.Covers kind x ↔ mb.Covers kind x ∨ kind = noMap ∧ base ≤ x ∧
        x < base + size := by
  have hrange : 0 < size ∧ base + size ≤ uint64Max := by
    unfold reserve at h
    split at h
    · cases h
    split at h
    · cases h
    omega
  rcases reserve_eq noMap hsep hrange.1 hrange.2 with ⟨herr, -⟩ | ⟨mb₁, hok, -, hmb'⟩
  · rw [herr] at h
    cases h
  · rw [hok] at h
    cases h
    exact ⟨separated_insert hsep hmb', covers_insert hsep hmb'⟩

/-- Every table that reservations lead to is separated. -/
theorem separated_of_reachable (h : Reachable Empty (Graph reserveStep) mb) :
    Separated mb.reserved := by
  induction h with
  | init hempty =>
    rw [hempty]
    exact List.Pairwise.nil
  | @step mb _ call _ hstep hsep =>
    cases hstep
    unfold reserveCall
    cases hres : mb.reserve call.1 call.2.1 call.2.2 with
    | ok mb₁ => exact (reserve_ok hsep hres).1
    | error e => exact hsep

/-- What `memblock_reserve` does to a table. -/
structure ReserveOk (mb : Memblock) (base size : ℕ) (noMap : Bool) (sp : Span) : Prop where
  sorted : ∀ mb', mb.reserve base size noMap = .ok mb' →
    mb'.reserved.Pairwise fun r r' => r.base ≤ r'.base
  separated : ∀ mb', mb.reserve base size noMap = .ok mb' → Separated mb'.reserved
  /-- Exactly the range is added, to its own kind. -/
  covers : ∀ mb', mb.reserve base size noMap = .ok mb' → ∀ kind x,
    mb'.Covers kind x ↔ mb.Covers kind x ∨ kind = noMap ∧ base ≤ x ∧ x < base + size
  full : mb.reserve base size noMap = .error .enospc ↔
    (mb.remaining noMap sp).length = maxReserved
  /-- There is no other error, and the table stays as it is. -/
  failed : ∀ e, (mb.reserveCall base size noMap).2 = .error e →
    e = .enospc ∧ (mb.reserveCall base size noMap).1 = mb

/-- **The reservation table.** -/
theorem reserveOk_of_reachable (h : Reachable Empty (Graph reserveStep) mb) (base size : ℕ)
    (noMap : Bool) (hsize : 0 < size) (hover : base + size ≤ uint64Max) :
    ReserveOk mb base size noMap (.ofRange base size hsize hover) := by
  have hsep := separated_of_reachable h
  refine ⟨fun mb' _ => mb'.sorted, fun mb' hok => (reserve_ok hsep hok).1,
    fun mb' hok => (reserve_ok hsep hok).2, ?_, fun e he => ?_⟩
  · rcases reserve_eq noMap hsep hsize hover with ⟨herr, hfull⟩ | ⟨mb', hok, hfree, -⟩
    · exact iff_of_true herr hfull
    · rw [hok]
      exact iff_of_false nofun hfree
  · unfold reserveCall at he ⊢
    rcases reserve_eq noMap hsep hsize hover with ⟨herr, -⟩ | ⟨mb', hok, -⟩
    · rw [herr] at he ⊢
      cases he
      exact ⟨rfl, rfl⟩
    · rw [hok] at he
      cases he

/-- An empty table for the given memory. -/
def empty (memBase memSize : ℕ) : Memblock := ⟨memBase, memSize, [], .nil, Nat.zero_le _⟩

/-- A range that closes the gap between two regions, below a region of the other kind. -/
theorem reserveOk_gap :
    let mb := ((((empty 0 0).reserveCall 0 4096 false).1.reserveCall 8192 4096 false).1.reserveCall
      2048 8192 true).1
    ReserveOk mb 4096 4096 false (.ofRange 4096 4096 (by decide) (by decide)) ∧
      (mb.reserveCall 4096 4096 false).1.reserved.map (fun r => (r.base, r.size, r.noMap)) =
        [(0, 12288, false), (2048, 8192, true)] := by
  intro mb
  refine ⟨reserveOk_of_reachable ?_ 4096 4096 false (by decide) (by decide), by decide +kernel⟩
  have hinit : Reachable Empty (Graph reserveStep) (empty 0 0) := .init rfl
  exact ((hinit.step (a := (0, 4096, false)) rfl).step (a := (8192, 4096, false)) rfl).step
    (a := (2048, 8192, true)) rfl

/-! ### Early allocation -/

/-- `ALIGN_UP` on 64-bit numbers, for an alignment that is a power of two. -/
def alignUp64 (x align : ℕ) : ℕ := (x + (align - 1)) % 2 ^ 64 / align * align

/-- The loop of `early_alloc`, with every sum reduced to 64 bits. -/
def findFree64 (limit size align : ℕ) : ℕ → List Region → Except Errno ℕ
  | base, rs =>
    if base ≥ limit ∨ align - 1 > uint64Max - base then .error .enomem
    else
      let base := alignUp64 base align
      if base ≥ limit ∨ size > limit - base then .error .enomem
      else
        match rs with
        | [] => .ok base
        | r :: rs =>
          if (r.base + r.size) % 2 ^ 64 ≤ base then findFree64 limit size align base rs
          else if r.base ≥ (base + size) % 2 ^ 64 then .ok base
          else findFree64 limit size align ((r.base + r.size) % 2 ^ 64) rs

/-- `early_alloc`, with every sum reduced to 64 bits: the table it leaves, and the address or the
error. -/
def earlyAlloc64 (mb : Memblock) (size align : ℕ) : Memblock × Except Errno ℕ :=
  if size > uint64Max - (pageSize - 1) then (mb, .error .eoverflow)
  else
    let size := alignUp64 size pageSize
    let align := max align pageSize
    let limit := (mb.memBase + mb.memSize) % 2 ^ 64
    match findFree64 limit size align mb.memBase mb.reserved with
    | .error e => (mb, .error e)
    | .ok base =>
      match mb.reserveCall base size false with
      | (mb, .error e) => (mb, .error e)
      | (mb, .ok ()) => (mb, .ok base)

/-- The range of `size` bytes at `a` is aligned, in memory and free. -/
structure Fits (limit size align base : ℕ) (rs : List Region) (a : ℕ) : Prop where
  aligned : align ∣ a
  lower : base ≤ a
  upper : a + size ≤ limit
  free : ∀ r ∈ rs, r.stop ≤ a ∨ a + size ≤ r.base

variable {limit size align base a x : ℕ}

theorem le_alignUp (halign : 0 < align) (x : ℕ) : x ≤ alignUp x align := by
  have := Nat.div_add_mod (x + (align - 1)) align
  have := Nat.mod_lt (x + (align - 1)) halign
  rw [alignUp, Nat.mul_comm]
  omega

/-- Nothing that is aligned lies between a number and what it is rounded up to. -/
theorem alignUp_le_of_dvd (halign : 0 < align) (hle : x ≤ a) (hdvd : align ∣ a) :
    alignUp x align ≤ a := by
  obtain ⟨k, rfl⟩ := hdvd
  have hlt : (x + (align - 1)) / align < k + 1 := by
    rw [Nat.div_lt_iff_lt_mul halign, Nat.succ_mul, Nat.mul_comm k]
    omega
  rw [alignUp, Nat.mul_comm align]
  exact Nat.mul_le_mul_right align (Nat.le_of_lt_succ hlt)

/-- One turn of the loop: no sum wraps, and the candidate is rounded up, unless nothing fits. -/
theorem findFree64_eq (hsize : 0 < size) (halign : 0 < align) (hdvd : align ∣ 2 ^ 64)
    (hlimit : limit ≤ uint64Max) (base : ℕ) (rs : List Region) :
    findFree64 limit size align base rs = .error .enomem ∧
        (∀ b, ¬ Fits limit size align base rs b) ∨
      alignUp base align + size ≤ limit ∧ findFree64 limit size align base rs =
        match rs with
        | [] => .ok (alignUp base align)
        | r :: rs =>
          if r.stop ≤ alignUp base align then findFree64 limit size align (alignUp base align) rs
          else if r.base ≥ alignUp base align + size then .ok (alignUp base align)
          else findFree64 limit size align r.stop rs := by
  have hup := fun b (h : Fits limit size align base rs b) =>
    alignUp_le_of_dvd halign h.lower h.aligned
  have hbase := le_alignUp halign base
  unfold uint64Max at hlimit
  by_cases hfirst : base ≥ limit ∨ align - 1 > uint64Max - base
  · refine .inl ⟨?_, fun b h => ?_⟩
    · unfold findFree64
      rw [if_pos hfirst]
    · -- Where rounding up would wrap, the next aligned number is `2 ^ 64`.
      have hlow := h.lower
      have hlast := h.upper
      have htop : base < limit → 2 ^ 64 ≤ b := fun hlt => by
        unfold uint64Max at hfirst
        exact Nat.le_of_lt_add_of_dvd (by omega) hdvd h.aligned
      omega
  have hround : alignUp64 base align = alignUp base align := by
    unfold uint64Max at hfirst
    rw [alignUp64, alignUp, Nat.mod_eq_of_lt (by omega)]
  by_cases hsecond : alignUp base align ≥ limit ∨ size > limit - alignUp base align
  · refine .inl ⟨?_, fun b h => ?_⟩
    · unfold findFree64
      rw [if_neg hfirst, hround, if_pos hsecond]
    · have := hup b h
      have := h.upper
      omega
  · refine .inr ⟨by omega, ?_⟩
    conv_lhs => unfold findFree64
    rw [if_neg hfirst, hround]
    dsimp only
    rw [if_neg hsecond]
    cases rs with
    | nil => rfl
    | cons r rs =>
      have hstop := r.stop_le
      unfold uint64Max at hstop
      dsimp only
      rw [Nat.mod_eq_of_lt (show r.base + r.size < 2 ^ 64 by omega),
        Nat.mod_eq_of_lt (show alignUp base align + size < 2 ^ 64 by omega)]
      rfl

/-- The pass finds the first address that fits. -/
theorem findFree64_spec (hsize : 0 < size) (halign : 0 < align) (hdvd : align ∣ 2 ^ 64)
    (hlimit : limit ≤ uint64Max) (hsorted : rs.Pairwise fun r r' => r.base ≤ r'.base) :
    findFree64 limit size align base rs = .error .enomem ∧
        (∀ b, ¬ Fits limit size align base rs b) ∨
      ∃ a, findFree64 limit size align base rs = .ok a ∧ Fits limit size align base rs a ∧
        ∀ b, Fits limit size align base rs b → a ≤ b := by
  induction rs generalizing base with
  | nil =>
    refine (findFree64_eq hsize halign hdvd hlimit base []).imp_right fun ⟨hupper, heq⟩ => ?_
    refine ⟨_, heq, ⟨Nat.dvd_mul_left _ _, le_alignUp halign base, hupper, nofun⟩, fun b h => ?_⟩
    exact alignUp_le_of_dvd halign h.lower h.aligned
  | cons r rs ih =>
    rcases findFree64_eq hsize halign hdvd hlimit base (r :: rs) with hnone | ⟨hupper, heq⟩
    · exact .inl hnone
    obtain ⟨hhead, htail⟩ := List.pairwise_cons.mp hsorted
    have hbase := le_alignUp halign base
    have hup := fun b (h : Fits limit size align base (r :: rs) b) =>
      alignUp_le_of_dvd halign h.lower h.aligned
    rw [heq]
    dsimp only
    -- Past the region, from `next` on, the rest of the table decides.
    have hskip : ∀ next, base ≤ next → r.stop ≤ next →
        (∀ b, Fits limit size align base (r :: rs) b → next ≤ b) →
        findFree64 limit size align next rs = .error .enomem ∧
            (∀ b, ¬ Fits limit size align base (r :: rs) b) ∨
          ∃ a, findFree64 limit size align next rs = .ok a ∧
            Fits limit size align base (r :: rs) a ∧
            ∀ b, Fits limit size align base (r :: rs) b → a ≤ b := by
      intro next hle hpast hnext
      have hrest : ∀ b, Fits limit size align base (r :: rs) b → Fits limit size align next rs b :=
        fun b h => ⟨h.aligned, hnext b h, h.upper, fun r' hr' => h.free r' (.tail r hr')⟩
      refine (@ih next htail).imp (fun ⟨herr, hnone⟩ => ⟨herr, fun b h => ?_⟩)
        fun ⟨a, hok, hfits, hfirst⟩ => ⟨a, hok, ?_, fun b h => hfirst b (hrest b h)⟩
      · exact hnone b (hrest b h)
      · refine ⟨hfits.aligned, hle.trans hfits.lower, hfits.upper, fun r' hr' => ?_⟩
        rcases List.mem_cons.mp hr' with rfl | hr'
        · exact .inl (hpast.trans hfits.lower)
        · exact hfits.free r' hr'
    split
    next hpast =>
      exact hskip _ hbase hpast hup
    next hover =>
      split
      next hbehind =>
        refine .inr ⟨_, rfl, ⟨Nat.dvd_mul_left _ _, hbase, hupper, fun r' hr' => .inr ?_⟩, hup⟩
        rcases List.mem_cons.mp hr' with rfl | hr'
        · exact hbehind
        · exact hbehind.trans (hhead r' hr')
      next hoverlap =>
        refine hskip _ (by omega) le_rfl fun b h => ?_
        have hb := hup b h
        rcases h.free r List.mem_cons_self with hpast | hbefore
        · exact hpast
        · omega

/-- The address `a` is one that `early_alloc` may return. -/
def Candidate (mb : Memblock) (size align a : ℕ) : Prop :=
  Fits (mb.memBase + mb.memSize) (alignUp size pageSize) (max align pageSize) mb.memBase
    mb.reserved a

/-- What `early_alloc` does. -/
structure EarlyAllocOk (mb : Memblock) (size align : ℕ) : Prop where
  /-- It returns the first candidate and reserves its range. -/
  first : ∀ mb' a, mb.earlyAlloc64 size align = (mb', .ok a) → mb.Candidate size align a ∧
    (∀ b, mb.Candidate size align b → a ≤ b) ∧
    ∀ kind x, mb'.Covers kind x ↔
      mb.Covers kind x ∨ kind = false ∧ a ≤ x ∧ x < a + alignUp size pageSize
  enomem : (mb.earlyAlloc64 size align).2 = .error .enomem ↔ ∀ a, ¬ mb.Candidate size align a
  /-- The only other error is a full table, and an error leaves the table as it is. -/
  failed : ∀ e, (mb.earlyAlloc64 size align).2 = .error e → (mb.earlyAlloc64 size align).1 = mb ∧
    (e = .enomem ∨ e = .enospc ∧ mb.reserved.length = maxReserved)

/-- **Early allocation is first fit.** -/
theorem earlyAllocOk_of_reachable (h : Reachable Empty (Graph reserveStep) mb)
    (hmem : mb.memBase + mb.memSize ≤ uint64Max) (size align : ℕ) (hsize : 0 < size)
    (hover : size ≤ uint64Max - (pageSize - 1)) (halign : ∃ k < 64, align = 2 ^ k) :
    EarlyAllocOk mb size align := by
  have hsep := separated_of_reachable h
  have hround : alignUp64 size pageSize = alignUp size pageSize := by
    unfold uint64Max at hover
    rw [alignUp64, alignUp, Nat.mod_eq_of_lt (by unfold pageSize pageShift at *; omega)]
  have hlimit : (mb.memBase + mb.memSize) % 2 ^ 64 = mb.memBase + mb.memSize := by
    unfold uint64Max at hmem
    exact Nat.mod_eq_of_lt (by omega)
  have hpos : 0 < alignUp size pageSize := hsize.trans_le (le_alignUp (by decide) size)
  have hdvd : max align pageSize ∣ 2 ^ 64 := by
    obtain ⟨k, hk, rfl⟩ := halign
    rcases max_choice (2 ^ k) pageSize with heq | heq <;> rw [heq]
    · exact Nat.pow_dvd_pow 2 hk.le
    · exact Nat.pow_dvd_pow 2 (by decide)
  have hcall : mb.earlyAlloc64 size align =
      match findFree64 (mb.memBase + mb.memSize) (alignUp size pageSize) (max align pageSize)
        mb.memBase mb.reserved with
      | .error e => (mb, .error e)
      | .ok base =>
        match mb.reserveCall base (alignUp size pageSize) false with
        | (mb, .error e) => (mb, .error e)
        | (mb, .ok ()) => (mb, .ok base) := by
    unfold earlyAlloc64
    rw [if_neg (by omega), hround, hlimit]
  rcases findFree64_spec hpos (lt_max_of_lt_right (by decide)) hdvd hmem mb.sorted with
    ⟨hfind, hnone⟩ | ⟨a, hfind, hfits, hfirst⟩
  · rw [hfind] at hcall
    refine ⟨?_, ?_, ?_⟩ <;> rw [hcall]
    · exact nofun
    · exact iff_of_true rfl hnone
    · rintro _ ⟨⟩
      exact ⟨rfl, .inl rfl⟩
  rw [hfind] at hcall
  dsimp only [reserveCall] at hcall
  have hupper := hfits.upper
  rcases reserve_eq false hsep hpos (hupper.trans hmem) with
    ⟨herr, hfull⟩ | ⟨mb₁, hok, -⟩
  · have hle : maxReserved ≤ mb.reserved.length := hfull ▸ List.length_filter_le _ _
    rw [herr] at hcall
    refine ⟨?_, ?_, ?_⟩ <;> rw [hcall]
    · exact nofun
    · exact iff_of_false nofun fun hnone => hnone a hfits
    · rintro _ ⟨⟩
      exact ⟨rfl, .inr ⟨rfl, mb.count.antisymm hle⟩⟩
  · rw [hok] at hcall
    refine ⟨fun mb' b heq => ?_, ?_, ?_⟩
    · rw [hcall] at heq
      cases heq
      exact ⟨hfits, hfirst, (reserve_ok hsep hok).2⟩
    · rw [hcall]
      exact iff_of_false nofun fun hnone => hnone a hfits
    · rw [hcall]
      exact nofun

/-- A page fits between the two regions, and three pages do not. -/
theorem earlyAllocOk_gap :
    let mb := (((empty 0 65536).reserveCall 0 5000 false).1.reserveCall 16384 4096 true).1
    EarlyAllocOk mb 8192 8192 ∧ (mb.earlyAlloc64 4096 1).2.toOption = some 8192 ∧
      (mb.earlyAlloc64 8193 8192).2.toOption = some 24576 := by
  intro mb
  have hinit : Reachable Empty (Graph reserveStep) (empty 0 65536) := .init rfl
  refine ⟨earlyAllocOk_of_reachable ?_ (by decide) 8192 8192 (by decide) (by decide)
    ⟨13, by decide⟩,
    by decide +kernel, by decide +kernel⟩
  exact (hinit.step (a := (0, 5000, false)) rfl).step (a := (16384, 4096, true)) rfl

end Nuvix.Memblock
