import Nuvix.Lib.Linked
import Nuvix.Mm.BuddyTags
import Nuvix.Mm.Slub

/-!
# The invariant of the slab allocator

The record of what blocks are used for ties everything together: the buddy allocator has exactly
these blocks allocated, their flags say what they are used for, the link words in a page of a
cache lead through its free slots, and every object has a slot or a block of its own. A CPU that
works on a page outside the lock is named by the record of the page.
-/

namespace Nuvix.Slub

open Buddy Bytes LinkedList Function

variable {τ : Type*} {l : Layout} {p q i j k x j' : ℕ}

/-! ### Addresses -/

theorem pageSize_eq : pageSize = 4096 := rfl

theorem cacheObjects_mul (hi : i < nrCaches) : cacheObjects i * cacheSize i = pageSize := by
  have hle : kmallocShiftLow + i ≤ pageShift := by
    unfold nrCaches kmallocShiftHigh kmallocShiftLow at *
    unfold pageShift
    omega
  exact Nat.div_mul_cancel (pow_dvd_pow 2 hle)

theorem eight_le_cacheSize (i : ℕ) : 8 ≤ cacheSize i := by
  have hpow : 2 ^ kmallocShiftLow ≤ cacheSize i := Nat.pow_le_pow_right two_pos (by omega)
  exact hpow

theorem cacheObjects_pos (hi : i < nrCaches) : 0 < cacheObjects i := by
  have hmul := cacheObjects_mul hi
  rw [pageSize_eq] at hmul
  exact Nat.pos_of_ne_zero fun h => by simp [h] at hmul

/-- Slots lie one after another. -/
theorem slot_add_le_slot (h : j < j') : l.slot p i j + cacheSize i ≤ l.slot p i j' := by
  have hmul : (j + 1) * cacheSize i ≤ j' * cacheSize i := Nat.mul_le_mul_right _ h
  rw [Nat.add_mul, one_mul] at hmul
  unfold Layout.slot
  omega

/-- Slots do not overlap. -/
theorem slot_unique (hle : l.slot p i j ≤ x) (hlt : x < l.slot p i j + cacheSize i)
    (hle' : l.slot p i j' ≤ x) (hlt' : x < l.slot p i j' + cacheSize i) : j = j' := by
  rcases lt_trichotomy j j' with h | heq | h
  · have := slot_add_le_slot (l := l) (p := p) (i := i) h
    omega
  · exact heq
  · have := slot_add_le_slot (l := l) (p := p) (i := i) h
    omega

theorem slot_inj (h : l.slot p i j = l.slot p i j') : j = j' := by
  have hpos := eight_le_cacheSize i
  exact slot_unique le_rfl (by omega) h.ge (by omega)

/-- Slots lie in their page. -/
theorem slot_add_le_va (hi : i < nrCaches) (hj : j < cacheObjects i) :
    l.slot p i j + cacheSize i ≤ l.va p + pageSize := by
  have hmul : (j + 1) * cacheSize i ≤ cacheObjects i * cacheSize i := Nat.mul_le_mul_right _ hj
  rw [cacheObjects_mul hi, Nat.add_mul, one_mul] at hmul
  unfold Layout.slot
  omega

theorem va_le_slot : l.va p ≤ l.slot p i j := Nat.le_add_right _ _

theorem slot_pos : 0 < l.slot p i j := by
  have := l.offset_pos
  unfold Layout.slot Layout.va
  omega

/-- The page of an address in a block is a page of the block. -/
theorem pfn_mem_block (hle : l.va p ≤ x) (hlt : x < l.va p + 2 ^ k * pageSize) :
    l.pfn x ∈ Dyadic.block p k := by
  unfold Layout.va at hle hlt
  unfold Layout.pfn
  constructor
  · rw [Nat.le_div_iff_mul_le (by rw [pageSize_eq]; omega)]
    omega
  · rw [Nat.div_lt_iff_lt_mul (by rw [pageSize_eq]; omega), Nat.add_mul]
    omega

theorem pfn_eq (hle : l.va p ≤ x) (hlt : x < l.va p + pageSize) : l.pfn x = p := by
  have hmem : l.pfn x ∈ Dyadic.block p 0 := pfn_mem_block hle (by simpa using hlt)
  have hmem' : p ≤ l.pfn x ∧ l.pfn x < p + 2 ^ 0 := hmem
  omega

/-! ### Blocks -/

/-- The order of a block. -/
def Use.order : Use τ → ℕ
  | slab _ _ _ => 0
  | large k | own _ k | other k => k

/-- `PG_SLAB` and `PG_KMALLOC` of the head of a block. -/
def Use.tags : Use τ → Bool × Bool
  | slab _ _ _ => (true, false)
  | large _ => (false, true)
  | own _ _ | other _ => (false, false)

/-- Other code may share its blocks. -/
def Use.shared : Use τ → Bool
  | other _ => true
  | _ => false

/-- The buddy allocator has these blocks allocated, and no other pages have the flags. -/
structure BuddyOk (l : Layout) (b : Buddy.State) (use : ℕ → Option (Use τ)) : Prop where
  wf : Wf l.toMem b.untagged ∅
  tags : ∀ p, b.tags p = ((use p).map Use.tags).getD (false, false)
  free : ∀ p, use p = none → liveBlocks l.toMem b p = none
  live : ∀ p u, use p = some u →
    ∃ n, liveBlocks l.toMem b p = some (u.order, n) ∧ (u.shared = false → n = 1)

variable {b b' : Buddy.State} {use : ℕ → Option (Use τ)} {u v : Use τ} {n : ℕ} {c : Buddy.State}
  {order : ℤ}

theorem liveBlocks_untagged (m : Mem) (b : Buddy.State) :
    liveBlocks m b.untagged = liveBlocks m b := rfl

section

variable (h : BuddyOk l b use)
include h

/-- Where a block is. -/
theorem BuddyOk.fits (hp : use p = some u) :
    l.PfnValid p ∧ u.order < l.maxOrder ∧ p + 2 ^ u.order ≤ l.maxPfn ∧
      Head l.toMem (b.untagged.page p) u.order := by
  obtain ⟨n, hlive, -⟩ := h.live p u hp
  obtain ⟨hvalid, hk, hn, hpage⟩ := (liveBlocks_eq_some h.wf).mp hlive
  have hhead : Head l.toMem (b.untagged.page p) u.order := hpage ▸ head_live hk hn
  exact ⟨hvalid, hk, (h.wf.tiled.fits p _ hvalid hhead).2, hhead⟩

/-- A page lies in one block only. -/
theorem BuddyOk.unique (hp : use p = some u) (hq : use q = some v)
    (hxp : x ∈ Dyadic.block p u.order) (hxq : x ∈ Dyadic.block q v.order) : p = q := by
  obtain ⟨hvalid, -, -, hhead⟩ := h.fits hp
  obtain ⟨hvalid', -, -, hhead'⟩ := h.fits hq
  exact h.wf.tiled.head_unique hvalid hhead hvalid' hhead' hxp hxq

/-- An address lies in one block only. -/
theorem BuddyOk.unique_va (hp : use p = some u) (hq : use q = some v) (hle : l.va p ≤ x)
    (hlt : x < l.va p + 2 ^ u.order * pageSize) (hle' : l.va q ≤ x)
    (hlt' : x < l.va q + 2 ^ v.order * pageSize) : p = q :=
  h.unique hp hq (pfn_mem_block hle hlt) (pfn_mem_block hle' hlt')

/-- One block changes: it is allocated, freed, used for something else or has other references. -/
theorem BuddyOk.of_update {g : ℕ → Bool × Bool} {w : Option (Use τ)} {e : Option (ℕ × ℕ)}
    (hwf : Wf l.toMem c ∅) (hb : b' = c.tag g) (hc : c.untagged = c) (hg : ∀ q ≠ p, g q = b.tags q)
    (htags : g p = (w.map Use.tags).getD (false, false))
    (hheap : liveBlocks l.toMem c = update (liveBlocks l.toMem b) p e) (hfree : w = none → e = none)
    (hlive : ∀ u, w = some u → ∃ n, e = some (u.order, n) ∧ (u.shared = false → n = 1)) :
    BuddyOk l b' (update use p w) := by
  subst hb
  refine ⟨by rw [untagged_tag, hc]; exact hwf, fun q => ?_, fun q => ?_, fun q v => ?_⟩ <;>
    by_cases hqp : q = p
  · rwa [hqp, update_self]
  · rw [update_of_ne hqp, ← h.tags]
    exact hg q hqp
  · change _ → liveBlocks l.toMem c q = none
    rwa [hheap, hqp, update_self, update_self]
  · change _ → liveBlocks l.toMem c q = none
    rw [hheap, update_of_ne hqp, update_of_ne hqp]
    exact h.free q
  · change _ → ∃ n, liveBlocks l.toMem c q = _ ∧ _
    rw [hheap, hqp, update_self, update_self]
    exact hlive v
  · change _ → ∃ n, liveBlocks l.toMem c q = _ ∧ _
    rw [hheap, update_of_ne hqp, update_of_ne hqp]
    exact h.live q v

/-- `alloc_pages` returned a block: it was not in use, and it has no flags. -/
theorem BuddyOk.alloc (halloc : Buddy.allocPages l.toMem b order = (b', some p)) :
    use p = none ∧ 0 ≤ order ∧ ∀ u : Use τ, u.order = order.toNat → u.tags = (false, false) →
        BuddyOk l b' (update use p (some u)) := by
  have htag : Buddy.allocPages l.toMem (b.untagged.tag b.tags) order = (b', some p) := halloc
  rw [allocPages_tag] at htag
  obtain ⟨hb', hp⟩ := Prod.mk.inj htag
  have hsame := congrArg Prod.fst
    (allocPages_tag (m := l.toMem) (s := b.untagged) (g := fun _ => (false, false)) order)
  generalize hc : Buddy.allocPages l.toMem b.untagged order = res at *
  obtain ⟨c, r⟩ := res
  obtain rfl : r = some p := hp
  obtain ⟨-, h0, hnone, hheap⟩ := h.wf.liveBlocks_allocPages hc
  have huse : use p = none := by
    by_contra hne
    obtain ⟨u, hu⟩ := Option.ne_none_iff_exists'.mp hne
    obtain ⟨n, hlive, -⟩ := h.live p u hu
    rw [liveBlocks_untagged] at hnone
    rw [hnone] at hlive
    cases hlive
  have hwf : Wf l.toMem c ∅ := by
    have := h.wf.allocPages order
    rwa [hc] at this
  have huntagged : c.untagged = c := by
    have hfst : (Buddy.allocPages l.toMem b.untagged order).1 = c.untagged := hsame
    rw [hc] at hfst
    exact hfst.symm
  refine ⟨huse, h0, fun u hu htags => h.of_update hwf hb'.symm huntagged (fun _ _ => rfl) ?_
    hheap nofun ?_⟩
  · rw [h.tags, huse]
    exact htags.symm
  · rintro v ⟨⟩
    exact ⟨1, by rw [hu], fun _ => rfl⟩

omit h in
/-- `alloc_pages` returned `NULL`. -/
theorem allocPages_none (halloc : Buddy.allocPages l.toMem b order = (b', none)) : b' = b := by
  rcases allocPages_cases l.toMem b order with ⟨heq, -⟩ | ⟨q, k, -, -, -, -, heq⟩ <;>
    obtain ⟨rfl, hnone⟩ := Prod.mk.inj (halloc.symm.trans heq)
  · rfl
  · cases hnone

/-- The owner of a block that is not shared uses it for something else, and sets the flags. -/
theorem BuddyOk.retag (hp : use p = some u) (hu : u.shared = false) (horder : v.order = u.order) :
    BuddyOk l (b.setPage p { b.page p with flags := tagFlags (b.page p).flags v.tags })
      (update use p (some v)) := by
  obtain ⟨n, hlive, hn⟩ := h.live p u hp
  refine h.of_update h.wf (setPage_tagFlags _) rfl (fun q hq => update_of_ne hq _ _)
    (update_self _ _ _) (update_eq_self p _).symm nofun ?_
  rintro w ⟨⟩
  exact ⟨n, horder ▸ hlive, fun _ => hn hu⟩

/-- The record of a block says something else of what the buddy allocator does not know. -/
theorem BuddyOk.relabel (hp : use p = some u) (hu : u.shared = false) (horder : v.order = u.order)
    (htags : v.tags = u.tags) : BuddyOk l b (update use p (some v)) := by
  have hsame : b.setPage p { b.page p with flags := tagFlags (b.page p).flags v.tags } = b := by
    have hold : b.tags p = v.tags := by
      rw [h.tags, hp, htags]
      rfl
    have hflags : tagFlags (b.page p).flags v.tags = (b.page p).flags := by
      rw [← hold]
      rfl
    rw [hflags]
    exact congrArg (fun page => { b with page := page }) (update_eq_self p b.page)
  exact hsame ▸ h.retag hp hu horder

omit h in
/-- A page that has none of the flags. -/
theorem page_untagged (h : b.tags q = (false, false)) : b.untagged.page q = b.page q := by
  change { b.page q with flags := tagFlags (b.page q).flags (false, false) } = b.page q
  rw [← h]
  rfl

/-- `free_pages` accepts a block without flags, and takes one reference. -/
theorem BuddyOk.accepted (hp : use p = some u) (htags : u.tags = (false, false)) :
    allocatedBlock l.toMem b (pageAddr l.toMem p) u.order = true ∧
      ∃ n c, liveBlocks l.toMem b p = some (u.order, n + 1) ∧ (u.shared = false → n = 0) ∧
        Buddy.freePages l.toMem b (pageAddr l.toMem p) u.order = c.tag b.tags ∧
        Wf l.toMem c ∅ ∧ c.untagged = c ∧ liveBlocks l.toMem c = update (liveBlocks l.toMem b) p
          (if n = 0 then none else some (u.order, n)) := by
  obtain ⟨hvalid, -, -, hhead⟩ := h.fits hp
  obtain ⟨n, hlive, hn⟩ := h.live p u hp
  have hpos : 0 < n := ((liveBlocks_eq_some h.wf).mp hlive).2.2.1
  obtain ⟨n, rfl⟩ := Nat.exists_eq_succ_of_ne_zero hpos.ne'
  have haddr : pageAddr l.toMem p ≠ 0 := by
    have := l.memMap_pos
    unfold pageAddr
    omega
  have hfrees : Frees l.toMem (liveBlocks l.toMem b.untagged) (pageAddr l.toMem p) u.order p
      u.order (n + 1) := ⟨haddr, hvalid, rfl, rfl, hlive⟩
  have hok : allocatedBlock l.toMem b.untagged (pageAddr l.toMem p) u.order = true :=
    h.wf.allocatedBlock_iff.mpr ⟨p, u.order, n + 1, hfrees.2⟩
  -- No page of the block has one of the flags: the others head no block.
  have hsame : ∀ q ∈ Dyadic.block p u.order, b.untagged.page q = b.page q := by
    intro q hq
    refine page_untagged ?_
    rw [h.tags]
    by_cases hqp : q = p
    · rwa [hqp, hp]
    · have hclean := (h.wf.tiled.interior p _ hvalid hhead q hq hqp).1
      have hnone : use q = none := by
        by_contra hne
        obtain ⟨v, hv⟩ := Option.ne_none_iff_exists'.mp hne
        have hhead' := (h.fits hv).2.2.2
        rw [hclean] at hhead'
        exact not_head_clean hhead'
      rw [hnone]
      rfl
  have hcongr : allocatedBlock l.toMem b (pageAddr l.toMem p) u.order =
      allocatedBlock l.toMem b.untagged (pageAddr l.toMem p) u.order := by
    refine allocatedBlock_congr fun q hq => (hsame q ?_).symm
    rwa [pageToPfn_pageAddr hvalid] at hq
  have htagged : Buddy.freePages l.toMem b (pageAddr l.toMem p) u.order =
      (Buddy.freePages l.toMem b.untagged (pageAddr l.toMem p) u.order).tag b.tags :=
    freePages_tag (s := b.untagged) (g := b.tags) hcongr
  have huntagged : (Buddy.freePages l.toMem b.untagged (pageAddr l.toMem p) u.order).untagged =
      Buddy.freePages l.toMem b.untagged (pageAddr l.toMem p) u.order :=
    (freePages_tag (s := b.untagged) (g := fun _ => (false, false)) rfl).symm
  refine ⟨hcongr.trans hok, n, _, hlive, fun hu => ?_, htagged, h.wf.freePages _ _, huntagged, ?_⟩
  · have := hn hu
    omega
  · have hstep := h.wf.heapStep (.free (pageAddr l.toMem p) u.order)
    rw [liveBlocks_untagged] at hstep hfrees
    generalize hlive' : liveBlocks l.toMem (Buddy.step l.toMem b.untagged
      (.free (pageAddr l.toMem p) u.order)) = live' at hstep
    change liveBlocks l.toMem (Buddy.step l.toMem b.untagged
      (.free (pageAddr l.toMem p) u.order)) = _
    rw [hlive']
    cases hstep with
    | @free _ q k n' _ hq =>
      have hpq : q = p := by
        rw [← pageToPfn_pageAddr hq.2.1, ← hq.2.2.1, pageToPfn_pageAddr hvalid]
      subst hpq
      have heq := hq.2.2.2.2.symm.trans hfrees.2.2.2.2
      obtain ⟨rfl, hn'⟩ := Prod.mk.inj (Option.some.inj heq)
      obtain rfl : n' = n := by omega
      rfl
    | freeReject hreject => exact absurd hfrees (hreject _ _ _)

/-- The owner of a block gives it back. -/
theorem BuddyOk.put (hp : use p = some u) (htags : u.tags = (false, false))
    (hu : u.shared = false ∨ (b.page p).refcount = 1) :
    BuddyOk l (Buddy.freePages l.toMem b (pageAddr l.toMem p) u.order) (update use p none) := by
  obtain ⟨-, n, c, hlive, hn, hb', hwf, hc, hheap⟩ := h.accepted hp htags
  have hn0 : n = 0 := by
    rcases hu with hu | hu
    · exact hn hu
    · have hpage := ((liveBlocks_eq_some h.wf).mp hlive).2.2.2
      have hrefs : (b.untagged.page p).refcount = 1 := hu
      rw [hpage] at hrefs
      exact Nat.succ_injective hrefs
  rw [hn0, if_pos rfl] at hheap
  refine h.of_update hwf hb' hc (fun _ _ => rfl) ?_ hheap (fun _ => rfl) nofun
  rwa [h.tags, hp]

/-- A block of other code has other references. -/
theorem BuddyOk.share (hp : use p = some (.other k)) (hwf : Wf l.toMem c ∅)
    (hb : b' = c.tag b.tags) (hc : c.untagged = c)
    (hheap : liveBlocks l.toMem c = update (liveBlocks l.toMem b) p (some (k, n))) :
    BuddyOk l b' use := by
  rw [← update_eq_self p use, hp]
  refine h.of_update hwf hb hc (fun _ _ => rfl) ?_ hheap nofun ?_
  · rw [h.tags, hp]
  · rintro u ⟨⟩
    exact ⟨n, rfl, nofun⟩

/-- Other code gives up one of several references. -/
theorem BuddyOk.putShared (hp : use p = some (.other k)) (hrefs : (b.page p).refcount ≠ 1) :
    BuddyOk l (Buddy.freePages l.toMem b (pageAddr l.toMem p) k) use := by
  obtain ⟨-, n, c, hlive, -, hb', hwf, hc, hheap⟩ := h.accepted hp rfl
  have hn : n ≠ 0 := by
    rintro rfl
    have hpage := ((liveBlocks_eq_some h.wf).mp hlive).2.2.2
    exact hrefs (congrArg Page.refcount hpage)
  rw [if_neg hn] at hheap
  exact h.share hp hwf hb' hc hheap

/-- Other code takes a further reference. -/
theorem BuddyOk.get (hp : use p = some (.other k)) : BuddyOk l (Buddy.getPage l.toMem b p) use := by
  obtain ⟨n, hlive, -⟩ := h.live p _ hp
  have hb' : Buddy.getPage l.toMem b p = (Buddy.getPage l.toMem b.untagged p).tag b.tags :=
    getPage_tag (s := b.untagged) (g := b.tags)
  have hc : (Buddy.getPage l.toMem b.untagged p).untagged = Buddy.getPage l.toMem b.untagged p :=
    (getPage_tag (s := b.untagged) (g := fun _ => (false, false))).symm
  have hheap : liveBlocks l.toMem (Buddy.getPage l.toMem b.untagged p) =
      update (liveBlocks l.toMem b) p (some (k, refcountInc n)) := by
    have hstep := h.wf.heapStep (.get p)
    rw [liveBlocks_untagged] at hstep
    generalize hlive' : liveBlocks l.toMem (Buddy.step l.toMem b.untagged (.get p)) = live' at hstep
    change liveBlocks l.toMem (Buddy.step l.toMem b.untagged (.get p)) = _
    rw [hlive']
    cases hstep with
    | get hget =>
      obtain ⟨rfl, rfl⟩ := Prod.mk.inj (Option.some.inj (hget.symm.trans hlive))
      rfl
    | getDead hdead => cases hdead.symm.trans hlive
  exact h.share hp (h.wf.getPage p) hb' hc hheap

end

/-! ### Pages of a cache -/

/-- The descriptor and the link words of a page of cache `i` whose slots `free` are free. -/
structure SlabOk (l : Layout) (mem : Store) (slab : Slab) (p i : ℕ) (free : List ℕ)
    (busy : Option τ) : Prop where
  index : i < nrCaches
  cache : slab.cache = some i
  chain : Linked (· = 0) (fun a => load mem a 8) slab.freelist (free.map (l.slot p i))
  nodup : free.Nodup
  lt : ∀ j ∈ free, j < cacheObjects i
  inuse : slab.inuse + free.length = cacheObjects i
  busy : busy = none ↔ 0 < slab.inuse

variable {mem mem' : Store} {slab : Slab} {free : List ℕ} {busy busy' : Option τ} {total : ℕ}

section

variable (h : SlabOk l mem slab p i free busy)
include h

/-- Only the link words of free slots matter. -/
theorem SlabOk.congr
    (hmem : ∀ j ∈ free, ∀ x, l.slot p i j ≤ x → x < l.slot p i j + cacheSize i → mem' x = mem x) :
    SlabOk l mem' slab p i free busy := by
  refine { h with chain := h.chain.congr fun a ha => load_congr fun x hle hlt => ?_ }
  obtain ⟨j, hj, rfl⟩ := List.mem_map.mp ha
  have := eight_le_cacheSize i
  exact hmem j hj x hle (by omega)

/-- Memory of other pages does not matter. -/
theorem SlabOk.congr_page (hmem : ∀ x, l.va p ≤ x → x < l.va p + pageSize → mem' x = mem x) :
    SlabOk l mem' slab p i free busy :=
  h.congr fun j hj x hle hlt =>
    hmem x (va_le_slot.trans hle) (hlt.trans_le (slot_add_le_va h.index (h.lt j hj)))

omit h in
/-- A list of slots that starts at the null pointer is empty. -/
theorem chain_eq_nil {next : ℕ → ℕ} {a : ℕ} (h : Linked (· = 0) next a (free.map (l.slot p i))) :
    a = 0 ↔ free = [] := by
  cases free with
  | nil => exact ⟨fun _ => rfl, fun _ => h⟩
  | cons j free =>
    refine ⟨fun h0 => ?_, nofun⟩
    have hpos : 0 < l.slot p i j := slot_pos
    have hfirst : a = l.slot p i j := h.1
    omega

omit h in
/-- The first free slot is taken. -/
theorem SlabOk.take (h : SlabOk l mem slab p i (j :: free) busy) :
    slab.freelist = l.slot p i j ∧
      (load mem slab.freelist 8 = 0 ↔ free = []) ∧
      SlabOk l mem { slab with
        freelist := load mem slab.freelist 8, inuse := slab.inuse + 1 } p i free
        (none : Option τ) := by
  obtain ⟨hfirst, hrest⟩ := h.chain
  rw [hfirst]
  have hinuse := h.inuse
  rw [List.length_cons] at hinuse
  refine ⟨rfl, chain_eq_nil hrest, h.index, h.cache, hrest, (List.nodup_cons.mp h.nodup).2,
    fun j' hj' => h.lt j' (List.mem_cons_of_mem _ hj'), ?_, ?_⟩
  · dsimp only
    omega
  · simp

omit h in
/-- Addresses of slots fit in a word. -/
theorem slot_lt (hi : i < nrCaches) (hp : p + 1 ≤ l.maxPfn) (hj : j < cacheObjects i) :
    l.slot p i j < 256 ^ 8 := by
  have hslot := slot_add_le_va (l := l) (p := p) hi hj
  have hpos := eight_le_cacheSize i
  have hmul : (p + 1) * pageSize ≤ l.maxPfn * pageSize := Nat.mul_le_mul_right _ hp
  have hfits := l.fits
  unfold Layout.va at hslot
  rw [Nat.add_mul, one_mul] at hmul
  calc l.slot p i j < 2 ^ 64 := by omega
    _ = 256 ^ 8 := by norm_num

theorem SlabOk.freelist_lt (hp : p + 1 ≤ l.maxPfn) : slab.freelist < 256 ^ 8 := by
  have hchain := h.chain
  cases hfree : free with
  | nil =>
    rw [hfree] at hchain
    rw [show slab.freelist = 0 from hchain]
    norm_num
  | cons j rest =>
    rw [hfree] at hchain
    rw [hchain.1]
    exact slot_lt h.index hp (h.lt j (hfree ▸ List.mem_cons_self))

/-- A slot that is not free is freed. -/
theorem SlabOk.put (hp : p + 1 ≤ l.maxPfn) (hj : j < cacheObjects i) (hfree : j ∉ free)
    (hbusy : busy' = none ↔ 0 < slab.inuse - 1) :
    SlabOk l (store mem (l.slot p i j) 8 slab.freelist)
      { slab with freelist := l.slot p i j, inuse := slab.inuse - 1 } p i (j :: free) busy' := by
  have hpos := eight_le_cacheSize i
  have hlen : (j :: free).length ≤ cacheObjects i := by
    have hnodup := List.nodup_cons.mpr ⟨hfree, h.nodup⟩
    have hsub : (j :: free) ⊆ List.range (cacheObjects i) := fun j' hj' => by
      rcases List.mem_cons.mp hj' with rfl | hj'
      · exact List.mem_range.mpr hj
      · exact List.mem_range.mpr (h.lt j' hj')
    simpa using (hnodup.subperm hsub).length_le
  have hinuse := h.inuse
  refine ⟨h.index, h.cache, ⟨rfl, ?_⟩, List.nodup_cons.mpr ⟨hfree, h.nodup⟩, ?_, ?_, hbusy⟩
  · -- The link of the new slot is the old list, and no other link has changed.
    change Linked _ _ (load (store mem (l.slot p i j) 8 slab.freelist) (l.slot p i j) 8) _
    rw [load_store (h.freelist_lt hp)]
    refine h.chain.congr fun a ha => load_congr fun x hle hlt => store_of_not_mem ?_
    obtain ⟨j', hj', rfl⟩ := List.mem_map.mp ha
    by_contra hx
    exact hfree (slot_unique (j := j) (by omega) (by omega) hle (by omega) ▸ hj')
  · intro j' hj'
    rcases List.mem_cons.mp hj' with rfl | hj'
    · exact hj
    · exact h.lt j' hj'
  · rw [List.length_cons] at hlen ⊢
    dsimp only
    omega

/-- In a page without objects every slot is free. -/
theorem SlabOk.mem_of_empty (hempty : slab.inuse = 0) (hj : j < cacheObjects i) : j ∈ free := by
  have hlen : free.length = cacheObjects i := by
    have := h.inuse
    omega
  have hsub : free ⊆ List.range (cacheObjects i) := fun j' hj' => List.mem_range.mpr (h.lt j' hj')
  have hperm : free.Perm (List.range (cacheObjects i)) :=
    (h.nodup.subperm hsub).perm_of_length_le (by simp [hlen])
  exact hperm.mem_iff.mpr (List.mem_range.mpr hj)

end

/-! ### A new page -/

/-- The first turns of the loop of `new_slab`. -/
def linkFirst (l : Layout) (p i n : ℕ) (mem : Store) : Store :=
  (List.range n).foldl (fun mem j =>
    store mem (l.slot p i j) 8 (if j + 1 < cacheObjects i then l.slot p i (j + 1) else 0)) mem

theorem linkFirst_succ (n : ℕ) : linkFirst l p i (n + 1) mem =
    store (linkFirst l p i n mem) (l.slot p i n) 8
      (if n + 1 < cacheObjects i then l.slot p i (n + 1) else 0) := by
  rw [linkFirst, List.range_succ, List.foldl_append]
  rfl

/-- The loop writes only to slots it has reached. -/
theorem linkFirst_of_not_mem (hx : x < l.va p ∨ l.slot p i n ≤ x) :
    linkFirst l p i n mem x = mem x := by
  induction n with
  | zero => rfl
  | succ n ih =>
    have hpos := eight_le_cacheSize i
    have hnext : l.slot p i n + cacheSize i ≤ l.slot p i (n + 1) :=
      slot_add_le_slot (Nat.lt_succ_self n)
    have hva : l.va p ≤ l.slot p i n := va_le_slot
    rw [linkFirst_succ, store_of_not_mem (by omega)]
    exact ih (by omega)

/-- Every slot the loop has reached is linked to the next one. -/
theorem load_linkFirst (hi : i < nrCaches) (hp : p + 1 ≤ l.maxPfn) (hn : n ≤ cacheObjects i)
    (hj : j < n) : load (linkFirst l p i n mem) (l.slot p i j) 8 =
      if j + 1 < cacheObjects i then l.slot p i (j + 1) else 0 := by
  induction n with
  | zero => omega
  | succ n ih =>
    have hpos := eight_le_cacheSize i
    rw [linkFirst_succ]
    rcases Nat.lt_succ_iff_lt_or_eq.mp hj with hlt | rfl
    · have hapart : l.slot p i j + cacheSize i ≤ l.slot p i n := slot_add_le_slot hlt
      rw [load_congr fun x _ hx => store_of_not_mem (by omega)]
      exact ih (by omega) hlt
    · refine load_store ?_
      split
      · exact slot_lt hi hp (by assumption)
      · norm_num

/-- From slot `n` on the links lead through all further slots. -/
theorem linked_range (next : ℕ → ℕ)
    (hnext : ∀ j < total, next (l.slot p i j) = if j + 1 < total then l.slot p i (j + 1) else 0)
    (turns n : ℕ) (hn : n + turns = total) :
    Linked (· = 0) next (if n < total then l.slot p i n else 0)
      ((List.range' n turns).map (l.slot p i)) := by
  induction turns generalizing n with
  | zero =>
    rw [if_neg (by omega)]
    rfl
  | succ turns ih =>
    rw [if_pos (by omega), List.range'_succ, List.map_cons]
    refine ⟨rfl, ?_⟩
    rw [hnext n (by omega)]
    exact ih (n + 1) (by omega)

/-- The links lead through all slots. -/
theorem linked_slots (hpos : 0 < total) (hnext : ∀ j < total,
      load mem (l.slot p i j) 8 = if j + 1 < total then l.slot p i (j + 1) else 0) :
    Linked (· = 0) (fun a => load mem a 8) (l.va p) ((List.range total).map (l.slot p i)) := by
  have hlinked := linked_range (fun a => load mem a 8) hnext total 0 (Nat.zero_add _)
  have hfirst : l.slot p i 0 = l.va p := by simp [Layout.slot]
  rwa [if_pos hpos, hfirst, ← List.range_eq_range'] at hlinked

/-- A new page: every slot is free. -/
theorem SlabOk.init (hi : i < nrCaches) (hp : p + 1 ≤ l.maxPfn) (t : τ) :
    SlabOk l (linkSlots l p i mem) ⟨some i, l.va p, 0⟩ p i (List.range (cacheObjects i))
      (some t) where
  index := hi
  cache := rfl
  chain := linked_slots (cacheObjects_pos hi) fun _ hj => load_linkFirst hi hp le_rfl hj
  nodup := List.nodup_range
  lt _ hj := List.mem_range.mp hj
  inuse := by rw [List.length_range, Nat.zero_add]
  busy := ⟨nofun, fun h => absurd h (lt_irrefl 0)⟩

/-! ### Lists and objects -/

/-- The lists of a cache hold its pages by whether they have free slots, and no page twice. -/
structure ListsOk (c : Cache) (use : ℕ → Option (Use τ)) (i : ℕ) : Prop where
  nodup_part : c.partialPages.Nodup
  nodup_full : c.full.Nodup
  mem_part : ∀ p, p ∈ c.partialPages ↔ ∃ free, use p = some (.slab i free none) ∧ free ≠ []
  mem_full : ∀ p, p ∈ c.full ↔ use p = some (.slab i [] none)

variable {c c' : Cache}

section

variable (h : ListsOk c use i)
include h

/-- One page is used for something else, and the lists change as far as this page goes. -/
theorem ListsOk.replace {v : Option (Use τ)} (hnp : c'.partialPages.Nodup) (hnf : c'.full.Nodup)
    (hother : ∀ q ≠ p, (q ∈ c'.partialPages ↔ q ∈ c.partialPages) ∧ (q ∈ c'.full ↔ q ∈ c.full))
    (hpart : p ∈ c'.partialPages ↔ ∃ free, v = some (.slab i free none) ∧ free ≠ [])
    (hfull : p ∈ c'.full ↔ v = some (.slab i [] none)) : ListsOk c' (update use p v) i where
  nodup_part := hnp
  nodup_full := hnf
  mem_part q := by
    by_cases hq : q = p
    · rwa [hq, update_self]
    · rw [update_of_ne hq, (hother q hq).1]
      exact h.mem_part q
  mem_full q := by
    by_cases hq : q = p
    · rwa [hq, update_self]
    · rw [update_of_ne hq, (hother q hq).2]
      exact h.mem_full q

/-- A page that is on no list is used for something else, and is still on none. -/
theorem ListsOk.update_off {v : Option (Use τ)} (hold : ∀ free, use p ≠ some (.slab i free none))
    (hnew : ∀ free, v ≠ some (.slab i free none)) : ListsOk c (update use p v) i := by
  refine h.replace h.nodup_part h.nodup_full (fun _ _ => ⟨.rfl, .rfl⟩) ?_ ?_
  · rw [h.mem_part]
    exact ⟨fun ⟨free, hu, _⟩ => absurd hu (hold free), fun ⟨free, hv, _⟩ => absurd hv (hnew free)⟩
  · rw [h.mem_full]
    exact ⟨fun hu => absurd hu (hold []), fun hv => absurd hv (hnew [])⟩

omit h in
theorem nodup_append_singleton {as : List ℕ} (h : as.Nodup) (hp : p ∉ as) : (as ++ [p]).Nodup :=
  List.nodup_append.mpr ⟨h, List.nodup_singleton _, fun _ ha _ hb heq =>
    hp (List.mem_singleton.mp hb ▸ heq ▸ ha)⟩

/-- `list_del` of a page. -/
theorem ListsOk.del :
    (c.del p).partialPages.Nodup ∧ (c.del p).full.Nodup ∧ p ∉ (c.del p).partialPages ∧
      p ∉ (c.del p).full ∧ ∀ q ≠ p, (q ∈ (c.del p).partialPages ↔ q ∈ c.partialPages) ∧
        (q ∈ (c.del p).full ↔ q ∈ c.full) :=
  ⟨h.nodup_part.erase p, h.nodup_full.erase p, h.nodup_part.not_mem_erase,
    h.nodup_full.not_mem_erase, fun _ hq => ⟨List.mem_erase_of_ne hq, List.mem_erase_of_ne hq⟩⟩

/-- The page leaves the lists. -/
theorem ListsOk.update_del {v : Option (Use τ)} (hnew : ∀ free, v ≠ some (.slab i free none)) :
    ListsOk (c.del p) (update use p v) i := by
  obtain ⟨hnp, hnf, hp, hf, hother⟩ := h.del (p := p)
  exact h.replace hnp hnf hother ⟨fun hmem => absurd hmem hp, fun ⟨free, hv, _⟩ =>
    absurd hv (hnew free)⟩ ⟨fun hmem => absurd hmem hf, fun hv => absurd hv (hnew [])⟩

/-- The page goes to the end of `partial`. -/
theorem ListsOk.update_moveToPartial (hfree : free ≠ []) :
    ListsOk (c.moveToPartial p) (update use p (some (.slab i free none))) i := by
  obtain ⟨hnp, hnf, hp, hf, hother⟩ := h.del (p := p)
  refine h.replace (nodup_append_singleton hnp hp) hnf (fun q hq => ⟨?_, (hother q hq).2⟩) ?_ ?_
  · rw [← (hother q hq).1]
    simp [Cache.moveToPartial, hq]
  · exact ⟨fun _ => ⟨free, rfl, hfree⟩, fun _ => List.mem_append_right _ List.mem_cons_self⟩
  · refine ⟨fun hmem => absurd hmem hf, fun hv => ?_⟩
    injection hv with hv
    injection hv with _ hv _
    exact absurd hv hfree

/-- The page goes to the end of `full`. -/
theorem ListsOk.update_moveToFull :
    ListsOk (c.moveToFull p) (update use p (some (.slab i [] none))) i := by
  obtain ⟨hnp, hnf, hp, hf, hother⟩ := h.del (p := p)
  refine h.replace hnp (nodup_append_singleton hnf hf) (fun q hq => ⟨(hother q hq).1, ?_⟩) ?_ ?_
  · rw [← (hother q hq).2]
    simp [Cache.moveToFull, hq]
  · refine ⟨fun hmem => absurd hmem hp, fun ⟨free, hv, hne⟩ => ?_⟩
    injection hv with hv
    injection hv with _ hv _
    exact absurd hv.symm hne
  · exact ⟨fun _ => rfl, fun _ => List.mem_append_right _ List.mem_cons_self⟩

end

/-- The address is a slot of a page of cache `i` that is not free. -/
def InSlot (l : Layout) (use : ℕ → Option (Use τ)) (p i a : ℕ) : Prop :=
  ∃ free j, use p = some (.slab i free none) ∧ j < cacheObjects i ∧ j ∉ free ∧ a = l.slot p i j

/-- The place of an object: a slot, or a block. -/
def Home (l : Layout) (use : ℕ → Option (Use τ)) (a size : ℕ) : Prop :=
  (∃ p i, InSlot l use p i a ∧ size ≤ cacheSize i) ∨
    ∃ p k, use p = some (.large k) ∧ a = l.va p ∧ size ≤ 2 ^ k * pageSize

end Nuvix.Slub
