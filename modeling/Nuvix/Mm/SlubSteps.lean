import Nuvix.Mm.SlubInvariant

/-!
# The slab allocator: pages and objects change hands

Each step is about one page or block and at most one object. What a CPU needs to know where it is
between two sections is said by `PcOk`, and is not touched by the others: they have other pages
and other objects.
-/

namespace Nuvix.Slub

open Buddy Bytes LinkedList Transition Function

variable {τ : Type*} {l : Layout}

/-- The CPU that works on a page or block outside the lock. -/
def Use.holder : Use τ → Option τ
  | slab _ _ busy => busy
  | own t _ => some t
  | _ => none

/-- What a CPU knows where it is. -/
def PcOk (l : Layout) (use : ℕ → Option (Use τ)) (object : ℕ → Option (Object τ)) (t : τ) :
    Pc → Prop
  | .back _ => True
  | .cacheAlloc i r | .newSlab i r => i < nrCaches ∧ r.size ≤ cacheSize i
  | .initSlab i r p => i < nrCaches ∧ r.size ≤ cacheSize i ∧ use p = some (.own t 0)
  | .addSlab i r p => r.size ≤ cacheSize i ∧
      use p = some (.slab i (List.range (cacheObjects i)) (some t))
  | .allocPages k r => r.size ≤ 2 ^ k * pageSize
  | .mark k r p => r.size ≤ 2 ^ k * pageSize ∧ use p = some (.own t k)
  | .clear a size => object a = some ⟨size, some t⟩
  | .kfree a => ∃ size, object a = some ⟨size, some t⟩
  | .freeObject i p a => (∃ size, object a = some ⟨size, some t⟩) ∧ InSlot l use p i a
  | .freeSlab p => ∃ i free, use p = some (.slab i free (some t))
  | .freePages p k => use p = some (.own t k)

/-- Nothing happens to the pages and objects that a CPU holds. -/
structure Keeps (l : Layout) (use use' : ℕ → Option (Use τ))
    (object object' : ℕ → Option (Object τ)) (u : τ) : Prop where
  page : ∀ p v, use p = some v → v.holder = some u → use' p = some v
  held : ∀ a size, object a = some ⟨size, some u⟩ → object' a = some ⟨size, some u⟩
  slot : ∀ a size p i, object a = some ⟨size, some u⟩ → InSlot l use p i a → InSlot l use' p i a

variable {use use' : ℕ → Option (Use τ)} {object object' : ℕ → Option (Object τ)} {t u : τ}
  {p q i j k : ℕ}

theorem PcOk.keeps {pc : Pc} (h : PcOk l use object u pc)
    (hkeeps : Keeps l use use' object object' u) : PcOk l use' object' u pc := by
  cases pc with
  | back ptr => trivial
  | cacheAlloc i r | newSlab i r | allocPages k r => exact h
  | initSlab i r p => exact ⟨h.1, h.2.1, hkeeps.page p _ h.2.2 rfl⟩
  | addSlab i r p | mark k r p => exact ⟨h.1, hkeeps.page p _ h.2 rfl⟩
  | clear a size => exact hkeeps.held a size h
  | kfree a =>
    obtain ⟨size, hsize⟩ := h
    exact ⟨size, hkeeps.held a size hsize⟩
  | freeObject i p a =>
    obtain ⟨⟨size, hsize⟩, hslot⟩ := h
    exact ⟨⟨size, hkeeps.held a size hsize⟩, hkeeps.slot a size p i hsize hslot⟩
  | freeSlab p =>
    obtain ⟨i, free, hp⟩ := h
    exact ⟨i, free, hkeeps.page p _ hp rfl⟩
  | freePages p k => exact hkeeps.page p _ h rfl

/-- The invariant. -/
structure Inv (l : Layout) (s : State τ) : Prop where
  buddy : BuddyOk l s.buddy s.use
  slab : ∀ p i free busy, s.use p = some (.slab i free busy) →
    SlabOk l s.mem (s.slab p) p i free busy
  lists : ∀ i, ListsOk (s.cache i) s.use i
  home : ∀ a o, s.object a = some o → Home l s.use a o.size
  held : ∀ p i free busy j, s.use p = some (.slab i free busy) → j < cacheObjects i → j ∉ free →
    (s.object (l.slot p i j)).isSome
  pc : ∀ t, PcOk l s.use s.object t (s.pc t)
  busy : ∀ p i free t, s.use p = some (.slab i free (some t)) →
    (∃ r, s.pc t = .addSlab i r p) ∨ s.pc t = .freeSlab p
  ok : s.failed = false

variable {s : State τ} {free free' : List ℕ} {busy busy' : Option τ} {a x i' j' : ℕ}
  {o : Object τ} {v : Option (Use τ)} {pc : Pc}

section

variable (hinv : Inv l s)
include hinv

theorem Inv.pcOk (hpc : s.pc t = pc) : PcOk l s.use s.object t pc :=
  hpc ▸ hinv.pc t

/-! ### Where objects are -/

section

variable (hp : s.use p = some (.slab i free busy))
include hp

section

variable (hj : j < cacheObjects i)
include hj

/-- Where a slot is. -/
theorem Inv.slot_span :
    l.va p ≤ l.slot p i j ∧ 8 ≤ cacheSize i ∧ l.slot p i j + cacheSize i ≤ l.va p + pageSize :=
  ⟨va_le_slot, eight_le_cacheSize i, slot_add_le_va (hinv.slab p i free busy hp).index hj⟩

/-- An address in a slot is in no other block. -/
theorem Inv.block_unique (hle : l.slot p i j ≤ x) (hlt : x < l.slot p i j + cacheSize i)
    {u : Use τ} (hq : s.use q = some u) (hle' : l.va q ≤ x)
    (hlt' : x < l.va q + 2 ^ u.order * pageSize) : p = q := by
  have hspan := hinv.slot_span hp hj
  refine hinv.buddy.unique_va (x := x) hp hq (by omega) ?_ hle' hlt'
  simp only [Use.order]
  omega

/-- An address in a slot is in no other slot. -/
theorem Inv.slot_unique (hle : l.slot p i j ≤ x) (hlt : x < l.slot p i j + cacheSize i)
    (hq : s.use q = some (.slab i' free' busy')) (hj' : j' < cacheObjects i')
    (hle' : l.slot q i' j' ≤ x) (hlt' : x < l.slot q i' j' + cacheSize i') :
    p = q ∧ i = i' ∧ free = free' ∧ busy = busy' ∧ j = j' := by
  have hspan := hinv.slot_span hq hj'
  obtain rfl : p = q := hinv.block_unique hp hj hle hlt hq (by omega) (by
    simp only [Use.order]
    omega)
  obtain ⟨rfl, rfl, rfl⟩ := Use.slab.inj (Option.some.inj (hp.symm.trans hq))
  exact ⟨rfl, rfl, rfl, rfl, Slub.slot_unique hle hlt hle' hlt'⟩

/-- A large object begins in no slot. -/
theorem Inv.slot_ne_va {u : Use τ} (hq : s.use q = some u) (hne : p ≠ q) :
    l.slot p i j ≠ l.va q := by
  intro heq
  have hspan := hinv.slot_span hp hj
  have hpos := Nat.two_pow_pos u.order
  refine hne (hinv.block_unique hp hj le_rfl (by omega) hq heq.ge ?_)
  rw [heq, pageSize_eq]
  omega

/-- An object at a slot is in that slot. -/
theorem Inv.object_slot (ho : s.object (l.slot p i j) = some o) :
    busy = none ∧ j ∉ free ∧ o.size ≤ cacheSize i := by
  rcases hinv.home _ o ho with ⟨q, i', ⟨free', j', hq, hj', hfree, ha⟩, hsize⟩ | ⟨q, k, hq, ha, -⟩
  · have hspan := hinv.slot_span hp hj
    have hspan' := hinv.slot_span hq hj'
    obtain ⟨rfl, rfl, rfl, rfl, rfl⟩ := hinv.slot_unique hp hj le_rfl (by omega) hq hj' ha.ge
      (by omega)
    exact ⟨rfl, hfree, hsize⟩
  · refine absurd ha (hinv.slot_ne_va hp hj hq ?_)
    rintro rfl
    cases hp.symm.trans hq

end

/-- A free slot has no object. -/
theorem Inv.object_free (hj : j ∈ free) : s.object (l.slot p i j) = none := by
  by_contra hne
  obtain ⟨o, ho⟩ := Option.ne_none_iff_exists'.mp hne
  exact (hinv.object_slot hp ((hinv.slab p i free busy hp).lt j hj) ho).2.1 hj

end

end

/-- The page of a slot. -/
theorem InSlot.update_of_ne (h : InSlot l use q i a) (hq : q ≠ p) :
    InSlot l (update use p v) q i a := by
  obtain ⟨free, j, hu, hrest⟩ := h
  exact ⟨free, j, by rwa [Function.update_of_ne hq], hrest⟩

/-- A use without objects: not a page of a cache that is on its lists, and not a large object. -/
def Idle (v : Option (Use τ)) : Prop :=
  (∀ i free, v ≠ some (.slab i free none)) ∧ ∀ k, v ≠ some (.large k)

theorem InSlot.update_of_idle (h : InSlot l use q i a) (hp : Idle (use p)) :
    InSlot l (update use p v) q i a := by
  refine h.update_of_ne ?_
  rintro rfl
  obtain ⟨free, j, hu, -⟩ := h
  exact hp.1 i free hu

theorem Home.update_of_idle {size : ℕ} (h : Home l use a size) (hp : Idle (use p)) :
    Home l (update use p v) a size := by
  rcases h with ⟨q, i, hq, hsize⟩ | ⟨q, k, hq, ha, hsize⟩
  · exact .inl ⟨q, i, hq.update_of_idle hp, hsize⟩
  · refine .inr ⟨q, k, ?_, ha, hsize⟩
    refine (update_of_ne ?_ _ _).trans hq
    rintro rfl
    exact hp.2 k hq

/-! ### Steps about a page without objects -/

variable [DecidableEq τ] {mem : Store} {b : Buddy.State} {slab : ℕ → Slab}

section

variable (hinv : Inv l s)
include hinv

omit [DecidableEq τ] in
/-- A page or block without objects is used for something else. -/
theorem Inv.replacePage
    {pc : τ → Pc} (hbuddy : BuddyOk l b (update s.use p v))
    (hold : Idle (s.use p)) (hnew : Idle v) (hslab : ∀ q ≠ p, slab q = s.slab q)
    (hmem : ∀ q ≠ p, ∀ x, l.va q ≤ x → x < l.va q + pageSize → mem x = s.mem x)
    (hpage : ∀ i free busy, v = some (.slab i free busy) → SlabOk l mem (slab p) p i free busy)
    (hpc : ∀ u, PcOk l (update s.use p v) s.object u (pc u))
    (hbusy : ∀ q i free u, update s.use p v q = some (.slab i free (some u)) →
      (∃ r, pc u = .addSlab i r q) ∨ pc u = .freeSlab q) :
    Inv l { s with
      buddy := b, slab := slab, mem := mem, use := update s.use p v, pc := pc } where
  buddy := hbuddy
  slab q i free busy hq := by
    rcases eq_of_update hq with ⟨rfl, hv⟩ | ⟨hqp, hq⟩
    · exact hpage i free busy hv
    · simp only [hslab q hqp]
      exact (hinv.slab q i free busy hq).congr_page (hmem q hqp)
  lists i := (hinv.lists i).update_off (hold.1 i) (hnew.1 i)
  home a o ho := (hinv.home a o ho).update_of_idle hold
  held q i free busy j hq hj hfree := by
    rcases eq_of_update hq with ⟨rfl, hv⟩ | ⟨-, hq⟩
    · have hok := hpage i free busy hv
      -- A page without objects is one whose slots are all free.
      have hempty : (slab q).inuse = 0 := by
        by_contra hne
        have hnone := hok.busy.mpr (Nat.pos_of_ne_zero hne)
        exact hnew.1 i free (hnone ▸ hv)
      exact absurd (hok.mem_of_empty hempty hj) hfree
    · exact hinv.held q i free busy j hq hj hfree
  pc := hpc
  busy := hbusy
  ok := hinv.ok

omit [DecidableEq τ] hinv in
/-- Nobody loses a page that only somebody else may know. -/
theorem PcOk.update_of_idle (h : PcOk l use object u pc) (hold : Idle (use p))
    (hholder : (use p).bind Use.holder ≠ some u) : PcOk l (update use p v) object u pc := by
  refine h.keeps ⟨fun q w hq hw => ?_, fun _ _ => id, fun _ _ _ _ _ h => h.update_of_idle hold⟩
  refine (update_of_ne ?_ _ _).trans hq
  rintro rfl
  rw [hq] at hholder
  exact hholder hw

/-- The CPU that holds a page, or that gets one, uses it for something else. -/
theorem Inv.movePage (t : τ) {w : Option (Use τ)}
    (hbuddy : BuddyOk l b (update s.use p v)) (hp : s.use p = w)
    (hold : Idle w) (hnew : Idle v) (hholder : ∀ u, w.bind Use.holder = some u → u = t)
    (hslab : ∀ q ≠ p, slab q = s.slab q)
    (hmem : ∀ q ≠ p, ∀ x, l.va q ≤ x → x < l.va q + pageSize → mem x = s.mem x)
    (hpage : ∀ i free busy, v = some (.slab i free busy) → SlabOk l mem (slab p) p i free busy)
    (hpc : PcOk l (update s.use p v) s.object t pc)
    (hbusy : ∀ i free u, v = some (.slab i free (some u)) →
      u = t ∧ ((∃ r, pc = .addSlab i r p) ∨ pc = .freeSlab p))
    (hother : ∀ q i free, q ≠ p → s.use q ≠ some (.slab i free (some t))) :
    Inv l { s with
      buddy := b, slab := slab, mem := mem, use := update s.use p v
      pc := update s.pc t pc } := by
  subst hp
  refine hinv.replacePage hbuddy hold hnew hslab hmem hpage ?_ fun q i free u hq => ?_
  · refine (forall_update_iff _ _).mpr ⟨hpc, fun u hut => ?_⟩
    exact (hinv.pc u).update_of_idle hold fun hw => hut (hholder u hw)
  · rcases eq_of_update hq with ⟨rfl, hv⟩ | ⟨hqp, hq⟩
    · obtain ⟨rfl, hat⟩ := hbusy i free u hv
      simpa using hat
    · by_cases hut : u = t
      · subst hut
        exact absurd hq (hother q i free hqp)
      · simp only [update_of_ne hut]
        exact hinv.busy q i free u hq

omit [DecidableEq τ] in
/-- Other code gets or gives back a block. -/
theorem Inv.moveOther (hbuddy : BuddyOk l b (update s.use p v))
    (hold : s.use p = none ∨ ∃ k, s.use p = some (.other k))
    (hnew : v = none ∨ ∃ k, v = some (.other k)) :
    Inv l { s with buddy := b, use := update s.use p v } := by
  have hidle : ∀ {w : Option (Use τ)}, (w = none ∨ ∃ k, w = some (.other k)) → Idle w := by
    rintro w (rfl | ⟨k, rfl⟩) <;> exact ⟨nofun, nofun⟩
  refine hinv.replacePage hbuddy (hidle hold) (hidle hnew) (fun _ _ => rfl)
    (fun _ _ _ _ _ => rfl) ?_ (fun u => ?_) fun q i free u hq => ?_
  · rintro i free busy rfl
    rcases hnew with h | ⟨k, h⟩ <;> cases h
  · refine (hinv.pc u).update_of_idle (hidle hold) ?_
    rcases hold with h | ⟨k, h⟩ <;> rw [h] <;> nofun
  · rcases eq_of_update hq with ⟨-, hq⟩ | ⟨-, hq⟩
    · rcases hnew with h | ⟨k, h⟩ <;> cases h.symm.trans hq
    · exact hinv.busy q i free u hq

omit [DecidableEq τ] in
/-- A CPU that is not about to fill or to give back a page holds no page of a cache. -/
theorem Inv.not_busy (hpc : s.pc t = pc) (hadd : ∀ i r p, pc ≠ .addSlab i r p)
    (hfree : ∀ p, pc ≠ .freeSlab p) (q i : ℕ) (free : List ℕ) :
    s.use q ≠ some (.slab i free (some t)) := by
  subst hpc
  intro hq
  rcases hinv.busy q i free t hq with ⟨r, h⟩ | h
  · exact hadd i r q h
  · exact hfree q h

/-- A CPU goes somewhere else, and nothing more. -/
theorem Inv.setPc (hpc : PcOk l s.use s.object t pc)
    (hbusy : ∀ q i free, s.use q ≠ some (.slab i free (some t))) : Inv l (s.setPc t pc) where
  buddy := hinv.buddy
  slab := hinv.slab
  lists := hinv.lists
  home := hinv.home
  held := hinv.held
  pc := (forall_update_iff _ _).mpr ⟨hpc, fun u _ => hinv.pc u⟩
  busy q i free u hq := by
    have hut : u ≠ t := by
      rintro rfl
      exact hbusy q i free hq
    simpa [State.setPc, update_of_ne hut] using hinv.busy q i free u hq
  ok := hinv.ok

/-- `alloc_pages` in `new_slab` and `kmalloc`. -/
theorem Inv.getBlock {next : ℕ → Pc} (hbusy : ∀ q i free, s.use q ≠ some (.slab i free (some t)))
    (hnext : ∀ use' p, use' p = some (.own t k) → PcOk l use' s.object t (next p)) :
    Inv l (State.getBlock l s t k next) := by
  unfold State.getBlock
  split
  next buddy halloc =>
    obtain rfl := allocPages_none halloc
    exact hinv.setPc trivial hbusy
  next buddy p halloc =>
    obtain ⟨hnone, -, hok⟩ := hinv.buddy.alloc halloc
    have hupdate := hnext (update s.use p (some (.own t k))) p (update_self _ _ _)
    exact hinv.movePage t (hok (.own t k) (by simp [Use.order]) rfl) hnone ⟨nofun, nofun⟩
      ⟨nofun, nofun⟩ nofun (fun _ _ => rfl) (fun _ _ _ _ _ => rfl) nofun hupdate nofun
      fun q i free _ => hbusy q i free

/-! ### Steps about an object in a slot -/

/-- Slot `j` of a page changes hands: it is taken, or it is freed. -/
theorem Inv.moveSlot (t : τ) {o : Option (Object τ)} {slab : Slab}
    {cache : Cache} (hp : s.use p = some (.slab i free busy)) (hj : j < cacheObjects i)
    (hfree : ∀ j' ≠ j, (j' ∈ free' ↔ j' ∈ free)) (hobject : j ∉ free' ↔ o.isSome)
    (hsize : ∀ ob ∈ o, ob.size ≤ cacheSize i) (hslab : SlabOk l mem slab p i free' busy')
    (hmem : ∀ q ≠ p, ∀ x, l.va q ≤ x → x < l.va q + pageSize → mem x = s.mem x)
    (hlists : ListsOk cache (update s.use p (some (.slab i free' busy'))) i)
    (hbusy : ∀ u ∈ busy, u = t) (hbusy' : ∀ u ∈ busy', u = t ∧ pc = .freeSlab p)
    (hholder : ∀ size u, s.object (l.slot p i j) = some ⟨size, some u⟩ → u = t)
    (hpc : PcOk l (update s.use p (some (.slab i free' busy')))
      (update s.object (l.slot p i j) o) t pc)
    (hother : ∀ q i free, q ≠ p → s.use q ≠ some (.slab i free (some t))) :
    Inv l { s with
      slab := update s.slab p slab, mem := mem, cache := update s.cache i cache
      use := update s.use p (some (.slab i free' busy'))
      object := update s.object (l.slot p i j) o, pc := update s.pc t pc } := by
  -- A page with an object is on the lists.
  have hnone : ∀ j' < cacheObjects i, j' ∉ free' → busy' = none := fun j' hj' hfree' =>
    hslab.busy.mpr (Nat.pos_of_ne_zero fun h0 => hfree' (hslab.mem_of_empty h0 hj'))
  -- An object elsewhere keeps its slot.
  have hslot : ∀ q i' a, a ≠ l.slot p i j → InSlot l s.use q i' a →
      InSlot l (update s.use p (some (.slab i free' busy'))) q i' a := by
    intro q i' a ha hq
    by_cases hqp : q = p
    · subst hqp
      obtain ⟨free₀, j', hq, hj', hfree₀, rfl⟩ := hq
      obtain ⟨rfl, rfl, rfl⟩ := Use.slab.inj (Option.some.inj (hp.symm.trans hq))
      have hj'' : j' ∉ free' := by
        rw [hfree j' fun h => ha (h ▸ rfl)]
        exact hfree₀
      exact ⟨free', j', by rw [update_self, hnone j' hj' hj''], hj', hj'', rfl⟩
    · exact hq.update_of_ne hqp
  have hblock : ∀ q k, s.use q = some (.large k) →
      update s.use p (some (.slab i free' busy')) q = some (.large k) := by
    intro q k hq
    refine (update_of_ne ?_ _ _).trans hq
    rintro rfl
    cases hp.symm.trans hq
  refine ⟨hinv.buddy.relabel hp rfl rfl rfl, fun q i' free₀ busy₀ hq => ?_, fun i' => ?_,
    fun a ob hob => ?_, fun q i' free₀ busy₀ j' hq hj' hfree₀ => ?_, ?_,
    fun q i' free₀ u hq => ?_, hinv.ok⟩
  · rcases eq_of_update hq with ⟨rfl, ⟨⟩⟩ | ⟨hqp, hq⟩
    · simpa only [update_self] using hslab
    · simp only [update_of_ne hqp]
      exact (hinv.slab q i' free₀ busy₀ hq).congr_page (hmem q hqp)
  · by_cases hi : i' = i
    · subst hi
      simpa only [update_self] using hlists
    · -- The page is on no list of another cache.
      simp only [update_of_ne hi]
      refine (hinv.lists i').update_off (fun free₀ h => ?_) fun free₀ h => ?_
      · exact hi (Use.slab.inj (Option.some.inj (hp.symm.trans h))).1.symm
      · exact hi (Use.slab.inj (Option.some.inj h)).1.symm
  · rcases eq_of_update hob with ⟨rfl, ho⟩ | ⟨ha, hob⟩
    · have hj' : j ∉ free' := hobject.mpr (ho ▸ rfl)
      exact .inl ⟨p, i, ⟨free', j, by simp [hnone j hj hj'], hj, hj', rfl⟩, hsize ob ho⟩
    · rcases hinv.home a ob hob with ⟨q, i', hq, hle⟩ | ⟨q, k, hq, hva, hle⟩
      · exact .inl ⟨q, i', hslot q i' a ha hq, hle⟩
      · exact .inr ⟨q, k, hblock q k hq, hva, hle⟩
  · by_cases ha : l.slot q i' j' = l.slot p i j
    · simp only [ha, update_self]
      refine hobject.mp fun hmem' => hfree₀ ?_
      rcases eq_of_update hq with ⟨rfl, ⟨⟩⟩ | ⟨hqp, hq⟩
      · rwa [slot_inj ha]
      · have hspan := hinv.slot_span hp hj
        have hspan' := hinv.slot_span hq hj'
        exact absurd (hinv.slot_unique hq hj' ha.le (by omega) hp hj le_rfl (by omega)).1 hqp
    · simp only [update_of_ne ha]
      rcases eq_of_update hq with ⟨rfl, ⟨⟩⟩ | ⟨-, hq⟩
      · refine hinv.held q i free busy j' hp hj' ?_
        rwa [← hfree j' fun h => ha (h ▸ rfl)]
      · exact hinv.held q i' free₀ busy₀ j' hq hj' hfree₀
  · refine (forall_update_iff _ _).mpr ⟨hpc, fun u hut => ?_⟩
    have helsewhere : ∀ a size, s.object a = some ⟨size, some u⟩ → a ≠ l.slot p i j := by
      rintro a size ha rfl
      exact hut (hholder size u ha)
    refine (hinv.pc u).keeps ⟨fun q w hq hw => ?_, fun a size ha => ?_, fun a size q i' ha hq =>
      hslot q i' a (helsewhere a size ha) hq⟩
    · refine (update_of_ne ?_ _ _).trans hq
      rintro rfl
      cases hp.symm.trans hq
      exact hut (hbusy u hw)
    · exact (update_of_ne (helsewhere a size ha) _ _).trans ha
  · rcases eq_of_update hq with ⟨rfl, ⟨⟩⟩ | ⟨hqp, hold⟩
    · obtain ⟨rfl, rfl⟩ := hbusy' u rfl
      right
      simp
    · have hut : u ≠ t := by
        rintro rfl
        exact hother q i' free₀ hqp hold
      simpa only [update_of_ne hut] using hinv.busy q i' free₀ u hold

end

/-! ### Steps about a large object -/

/-- A block is not a page of a cache. -/
def Plain (v : Option (Use τ)) : Prop := ∀ i free busy, v ≠ some (.slab i free busy)

/-- A block of a CPU becomes a large object, or the other way round. -/
theorem Inv.moveBlock (hinv : Inv l s) (t : τ) {v w : Use τ} {o : Option (Object τ)}
    (hbuddy : BuddyOk l b (update s.use p (some v))) (hp : s.use p = some w)
    (hold : Plain (some w)) (hnew : Plain (some v))
    (hhome : ∀ ob ∈ o, Home l (update s.use p (some v)) (l.va p) ob.size)
    (hw : ∀ u, w.holder = some u → u = t)
    (hholder : ∀ size u, s.object (l.va p) = some ⟨size, some u⟩ → u = t)
    (hpc : PcOk l (update s.use p (some v)) (update s.object (l.va p) o) t pc)
    (hbusy : ∀ q i free, s.use q ≠ some (.slab i free (some t))) :
    Inv l { s with
      buddy := b, use := update s.use p (some v)
      object := update s.object (l.va p) o, pc := update s.pc t pc } := by
  have hne : ∀ q i free busy, s.use q = some (.slab i free busy) → q ≠ p := by
    rintro q i free busy hq rfl
    exact hold i free busy (hp.symm.trans hq)
  have hne' : ∀ {q i free busy}, update s.use p (some v) q = some (.slab i free busy) →
      q ≠ p ∧ s.use q = some (.slab i free busy) := by
    intro q i free busy hq
    exact (eq_of_update hq).resolve_left fun h => hnew i free busy h.2
  have hslot : ∀ q i a, InSlot l s.use q i a → InSlot l (update s.use p (some v)) q i a := by
    intro q i a hq
    obtain ⟨free, j, hu, -⟩ := id hq
    exact hq.update_of_ne (hne q i free none hu)
  refine ⟨hbuddy, fun q i free busy hq => ?_, fun i => ?_, fun a ob hob => ?_,
    fun q i free busy j hq hj hfree => ?_, ?_, fun q i free u hq => ?_, hinv.ok⟩
  · exact hinv.slab q i free busy (hne' hq).2
  · exact (hinv.lists i).update_off (fun free h => hold i free none (hp.symm.trans h))
      fun free => hnew i free none
  · rcases eq_of_update hob with ⟨rfl, ho⟩ | ⟨ha, hob⟩
    · exact hhome ob ho
    · rcases hinv.home a ob hob with ⟨q, i, hq, hle⟩ | ⟨q, k, hq, hva, hle⟩
      · exact .inl ⟨q, i, hslot q i a hq, hle⟩
      · refine .inr ⟨q, k, ?_, hva, hle⟩
        have hqp : q ≠ p := fun h => ha (h ▸ hva)
        exact (update_of_ne hqp _ _).trans hq
  · obtain ⟨hqp, hq⟩ := hne' hq
    -- The block has an address of its own.
    simpa only [update_of_ne (hinv.slot_ne_va hq hj hp hqp)] using
      hinv.held q i free busy j hq hj hfree
  · refine (forall_update_iff _ _).mpr ⟨hpc, fun u hut => ?_⟩
    refine (hinv.pc u).keeps ⟨fun q x hq hx => ?_, fun a size ha => ?_, fun a _ q i _ hq =>
      hslot q i a hq⟩
    · refine (update_of_ne ?_ _ _).trans hq
      rintro rfl
      cases hp.symm.trans hq
      exact hut (hw u hx)
    · refine (update_of_ne ?_ _ _).trans ha
      rintro rfl
      exact hut (hholder size u ha)
  · have hold := (hne' hq).2
    have hut : u ≠ t := by
      rintro rfl
      exact hbusy q i free hold
    simpa only [update_of_ne hut] using hinv.busy q i free u hold

/-! ### Steps about the contents and the holder of an object -/

omit [DecidableEq τ] in
/-- A slot that is free and an object have no byte in common. -/
theorem Inv.object_apart (hinv : Inv l s) (hp : s.use p = some (.slab i free busy)) (hj : j ∈ free)
    (ho : s.object a = some o) (hle : l.slot p i j ≤ x) (hlt : x < l.slot p i j + cacheSize i) :
    ¬ (a ≤ x ∧ x < a + o.size) := by
  rintro ⟨hax, hxa⟩
  have hj' := (hinv.slab p i free busy hp).lt j hj
  rcases hinv.home a o ho with ⟨q, i', ⟨free', j', hq, hlt', hfree', rfl⟩, hs⟩ | ⟨q, k, hq, rfl, hs⟩
  · obtain ⟨-, -, rfl, -, rfl⟩ := hinv.slot_unique hp hj' hle hlt hq hlt' hax (by omega)
    exact hfree' hj
  · obtain rfl := hinv.block_unique hp hj' hle hlt hq hax (by simp only [Use.order]; omega)
    cases hp.symm.trans hq

omit [DecidableEq τ] in
/-- An object is written. -/
theorem Inv.slab_write (hinv : Inv l s) (ho : s.object a = some o)
    (hmem : ∀ x, ¬ (a ≤ x ∧ x < a + o.size) → mem x = s.mem x) (p i : ℕ) (free : List ℕ)
    (busy : Option τ) (hp : s.use p = some (.slab i free busy)) :
    SlabOk l mem (s.slab p) p i free busy :=
  (hinv.slab p i free busy hp).congr fun _ hj x hle hlt =>
    hmem x (hinv.object_apart hp hj ho hle hlt)

/-- An object passes to a CPU or from it, which may write it. -/
theorem Inv.moveHolder (hinv : Inv l s) (t : τ) {o' : Object τ} (ho : s.object a = some o)
    (hmem : ∀ x, ¬ (a ≤ x ∧ x < a + o.size) → mem x = s.mem x) (hsize : o'.size = o.size)
    (hholder : ∀ u, o.holder = some u → u = t)
    (hpc : PcOk l s.use (update s.object a (some o')) t pc)
    (hbusy : ∀ q i free, s.use q ≠ some (.slab i free (some t))) :
    Inv l { s with
      mem := mem, object := update s.object a (some o')
      pc := update s.pc t pc } where
  buddy := hinv.buddy
  slab := hinv.slab_write ho hmem
  lists := hinv.lists
  home a' ob hob := by
    rcases eq_of_update hob with ⟨rfl, ⟨⟩⟩ | ⟨-, hob⟩
    · rw [hsize]
      exact hinv.home a' o ho
    · exact hinv.home a' ob hob
  held q i free busy j hq hj hfree := by
    by_cases ha : l.slot q i j = a
    · simp only [ha, update_self, Option.isSome_some]
    · simpa only [update_of_ne ha] using hinv.held q i free busy j hq hj hfree
  pc := by
    refine (forall_update_iff _ _).mpr ⟨hpc, fun u hut => ?_⟩
    refine (hinv.pc u).keeps ⟨fun _ _ h _ => h, fun a' size ha' => ?_, fun _ _ _ _ _ => id⟩
    refine (update_of_ne ?_ _ _).trans ha'
    rintro rfl
    cases ho.symm.trans ha'
    exact hut (hholder u rfl)
  busy q i free u hq := by
    have hut : u ≠ t := by
      rintro rfl
      exact hbusy q i free hq
    simpa only [update_of_ne hut] using hinv.busy q i free u hq
  ok := hinv.ok

end Nuvix.Slub
