import Nuvix.Mm.SlubSteps
import Nuvix.Mm.Reservations

/-!
# The slab allocator: every interleaving

Every step keeps the invariant, so objects stay apart from each other and from the link words,
and a page goes back to the buddy allocator when its last object is freed.
-/

namespace Nuvix.Slub

open Buddy Bytes LinkedList Transition Function

variable {τ : Type*} [DecidableEq τ] {l : Layout} {s s' : State τ} {t : τ} {p q i j k a b x : ℕ}
  {r : Request} {free : List ℕ} {busy : Option τ} {o : Object τ} {c : Cache}
  {use : ℕ → Option (Use τ)} {object : ℕ → Option (Object τ)} {rest : List ℕ} {u : Use τ}

/-! ### Pages between the allocators -/

omit [DecidableEq τ] in
/-- The flags of a page that is used, as `kfree` reads them. -/
theorem Inv.flags (hinv : Inv l s) (hp : s.use p = some u) :
    ((s.buddy.page p).flags.slab, (s.buddy.page p).flags.kmalloc) = u.tags := by
  have htags := hinv.buddy.tags p
  rwa [hp] at htags

omit [DecidableEq τ] in
/-- The flags of a page that is not shared are set as its new use needs them. -/
theorem Inv.retag (hinv : Inv l s) {v : Use τ} {f : PageFlags → PageFlags} (hp : s.use p = some u)
    (hu : u.shared = false) (horder : v.order = u.order)
    (hf : ∀ flags, (flags.slab, flags.kmalloc) = u.tags → f flags = tagFlags flags v.tags) :
    BuddyOk l (s.setFlags p f).buddy (update s.use p (some v)) := by
  unfold State.setFlags
  rw [hf _ (hinv.flags hp)]
  exact hinv.buddy.retag hp hu horder

/-- Two pages have no address in common. -/
theorem va_apart (hne : q ≠ p) (hle : l.va q ≤ x) (hlt : x < l.va q + pageSize) :
    x < l.va p ∨ l.va p + pageSize ≤ x := by
  by_contra hcon
  exact hne ((pfn_eq hle hlt).symm.trans (pfn_eq (by omega) (by omega)))

theorem Inv.initSlab (hinv : Inv l s) (hpc : s.pc t = .initSlab i r p) :
    Inv l (State.initSlab l s t i r p) := by
  obtain ⟨hi, hsize, hp⟩ := hinv.pcOk hpc
  have hbusy := hinv.not_busy hpc nofun nofun
  have hbuddy := hinv.retag (v := .slab i (List.range (cacheObjects i)) (some t))
    (f := fun flags => { flags with slab := true }) hp rfl rfl
    (by rintro ⟨⟩ ⟨⟩; rfl)
  have hinit : SlabOk l (linkSlots l p i s.mem) (update s.slab p ⟨some i, l.va p, 0⟩ p) p i
      (List.range (cacheObjects i)) (some t) := by
    rw [update_self]
    exact SlabOk.init hi (hinv.buddy.fits hp).2.2.1 t
  refine hinv.movePage t hbuddy hp ⟨nofun, nofun⟩ ⟨nofun, nofun⟩ ?_
    (fun q hq => update_of_ne hq _ _) ?_ ?_ ⟨hsize, update_self _ _ _⟩ ?_
    fun q i free _ => hbusy q i free
  · rintro u ⟨⟩
    rfl
  · intro q hqp x hle hlt
    have hend : l.slot p i (cacheObjects i) = l.va p + pageSize := by
      rw [Layout.slot, cacheObjects_mul hi]
    exact linkFirst_of_not_mem (hend ▸ va_apart hqp hle hlt)
  · rintro i' free busy ⟨⟩
    exact hinit
  · rintro i' free u ⟨⟩
    exact ⟨rfl, .inl ⟨r, rfl⟩⟩

theorem Inv.freeSlab (hinv : Inv l s) (hpc : s.pc t = .freeSlab p) : Inv l (s.freeSlab t p) := by
  obtain ⟨i, free, hp⟩ := hinv.pcOk hpc
  have hbuddy := hinv.retag (v := .own t 0) (f := fun flags => { flags with slab := false }) hp rfl
    rfl (by rintro ⟨⟩ ⟨⟩; rfl)
  refine hinv.movePage t hbuddy hp ⟨nofun, nofun⟩ ⟨nofun, nofun⟩ ?_
    (fun q hq => update_of_ne hq _ _) (fun _ _ _ _ _ => rfl) nofun
    (update_self _ _ _) nofun fun q i free hqp hq => ?_
  · rintro u ⟨⟩
    rfl
  · rcases hinv.busy q i free t hq with ⟨r, h⟩ | h
    · cases hpc.symm.trans h
    · cases hpc.symm.trans h
      exact hqp rfl

theorem Inv.putBlock (hinv : Inv l s) (hpc : s.pc t = .freePages p k) :
    Inv l (State.putBlock l s t p k) := by
  have hp : s.use p = some (.own t k) := hinv.pcOk hpc
  have hbusy := hinv.not_busy hpc nofun nofun
  refine hinv.movePage t (hinv.buddy.put hp rfl (.inl rfl)) hp ⟨nofun, nofun⟩ ⟨nofun, nofun⟩ ?_
    (fun _ _ => rfl) (fun _ _ _ _ _ => rfl) nofun trivial nofun fun q i free _ => hbusy q i free
  rintro u ⟨⟩
  rfl

/-! ### Taking an object -/

omit [DecidableEq τ] in
/-- Taking a slot of a page on `partial`. -/
theorem ListsOk.take (h : ListsOk c use i) (hp : use p = some (.slab i (j :: free) none)) :
    ListsOk (if free = [] then c.moveToFull p else c)
      (update use p (some (.slab i free none))) i := by
  split
  next hfree =>
    subst hfree
    exact h.update_moveToFull
  next hfree =>
    refine h.replace h.nodup_part h.nodup_full (fun _ _ => ⟨.rfl, .rfl⟩) ?_ ?_
    · rw [h.mem_part]
      exact ⟨fun _ => ⟨free, rfl, hfree⟩, fun _ => ⟨_, hp, List.cons_ne_nil _ _⟩⟩
    · rw [h.mem_full, hp]
      refine ⟨nofun, fun hv => absurd ?_ hfree⟩
      exact (Use.slab.inj (Option.some.inj hv)).2.1

omit [DecidableEq τ] in
/-- A new page on `partial`. -/
theorem ListsOk.push (h : ListsOk c use i) (hp : ∀ free, use p ≠ some (.slab i free none))
    (hfree : free ≠ []) : ListsOk { c with partialPages := p :: c.partialPages }
      (update use p (some (.slab i free none))) i := by
  have hnot : p ∉ c.partialPages := fun hmem => by
    obtain ⟨free, hu, -⟩ := (h.mem_part p).mp hmem
    exact hp free hu
  refine h.replace (List.nodup_cons.mpr ⟨hnot, h.nodup_part⟩) h.nodup_full (fun q hq => ?_) ?_ ?_
  · exact ⟨by simp [hq], .rfl⟩
  · exact ⟨fun _ => ⟨free, rfl, hfree⟩, fun _ => List.mem_cons_self⟩
  · refine ⟨fun hmem => absurd ((h.mem_full p).mp hmem) (hp []), fun hv => absurd ?_ hfree⟩
    exact (Use.slab.inj (Option.some.inj hv)).2.1

/-- Where `kmalloc` returns to. -/
def givePc (r : Request) (a : ℕ) : Pc := if r.zero then .clear a r.size else .back a

/-- The object that `kmalloc` returns. -/
def givenObject (t : τ) (r : Request) : Object τ := ⟨r.size, if r.zero then some t else none⟩

theorem give_eq (a : ℕ) : s.give t r a = { s with
    object := update s.object a (some (givenObject t r))
    pc := update s.pc t (givePc r a) } := by
  unfold State.give givePc givenObject
  cases r.zero <;> rfl

omit [DecidableEq τ] in
theorem pcOk_givePc (h : object a = some (givenObject t r)) : PcOk l use object t (givePc r a) := by
  unfold givePc
  unfold givenObject at h
  cases hzero : r.zero with
  | false => trivial
  | true =>
    rwa [hzero] at h

/-- What taking an object does. -/
theorem takeObject_eq (hlist : (s.cache i).partialPages = p :: rest)
    (hp : s.use p = some (.slab i (j :: free) busy))
    (hok : SlabOk l s.mem (s.slab p) p i (j :: free) busy) :
    s.takeObject t i r = { s with
      slab := update s.slab p { s.slab p with
        freelist := load s.mem (s.slab p).freelist 8, inuse := (s.slab p).inuse + 1 }
      cache := update s.cache i
        (if free = [] then (s.cache i).moveToFull p else s.cache i)
      use := update s.use p (some (.slab i free none))
      object := update s.object (l.slot p i j) (some (givenObject t r))
      pc := update s.pc t (givePc r (l.slot p i j)) } := by
  obtain ⟨hfirst, hlast, -⟩ := hok.take
  rw [hfirst] at hlast
  unfold State.takeObject
  rw [hlist]
  simp only [give_eq, hlast, hfirst]
  by_cases hfree : free = []
  · simp only [hfree, if_true, State.setSlab, State.setCache, hp, State.setUse, List.tail_cons]
  · simp only [hfree, if_false, State.setSlab, hp, State.setUse, List.tail_cons,
      update_eq_self]

section

variable (hinv : Inv l s)
include hinv

/-- An object is taken from the first page of `partial`, which may just have been put there. -/
theorem Inv.take (hlist : c.partialPages = p :: rest)
    (hp : s.use p = some (.slab i (j :: free) busy)) (hsize : r.size ≤ cacheSize i)
    (hlists : ListsOk c (update s.use p (some (.slab i (j :: free) none))) i)
    (hbusy : ∀ u ∈ busy, u = t)
    (hother : ∀ q i free, q ≠ p → s.use q ≠ some (.slab i free (some t))) :
    Inv l ((s.setCache i c).takeObject t i r) := by
  have hok := hinv.slab p i _ busy hp
  obtain ⟨hnot, -⟩ := List.nodup_cons.mp hok.nodup
  have hcache : ((s.setCache i c).cache i) = c := update_self _ _ _
  rw [takeObject_eq (s := s.setCache i c) (by rw [hcache]; exact hlist) hp hok, hcache]
  have htaken := hlists.take (update_self _ _ _)
  rw [update_idem] at htaken
  simp only [State.setCache, update_idem]
  refine hinv.moveSlot t hp (hok.lt j List.mem_cons_self) (fun j' hj' => by simp [hj'])
    ⟨fun _ => rfl, fun _ => hnot⟩ ?_ hok.take.2.2 (fun _ _ _ _ _ => rfl) htaken hbusy nofun ?_
    (pcOk_givePc (update_self _ _ _)) hother
  · rintro ob ⟨⟩
    exact hsize
  · intro size u hu
    cases (hinv.object_free hp List.mem_cons_self).symm.trans hu

omit [DecidableEq τ] in
/-- The pages of `partial` have a free slot. -/
theorem Inv.use_of_partial (hlist : (s.cache i).partialPages = p :: rest) :
    ∃ j free, s.use p = some (.slab i (j :: free) none) := by
  have hmem : p ∈ (s.cache i).partialPages := hlist ▸ List.mem_cons_self
  obtain ⟨free, hp, hfree⟩ := ((hinv.lists i).mem_part p).mp hmem
  obtain ⟨j, free, rfl⟩ := List.exists_cons_of_ne_nil hfree
  exact ⟨j, free, hp⟩

omit [DecidableEq τ] in
/-- So has a new page. -/
theorem Inv.use_of_addSlab (hpc : s.pc t = .addSlab i r p) :
    ∃ j free, s.use p = some (.slab i (j :: free) (some t)) := by
  have hp := (hinv.pcOk hpc).2
  have hne : List.range (cacheObjects i) ≠ [] := by
    have := cacheObjects_pos (hinv.slab p i _ _ hp).index
    rw [Ne, List.range_eq_nil]
    omega
  obtain ⟨j, free, hrange⟩ := List.exists_cons_of_ne_nil hne
  exact ⟨j, free, hrange ▸ hp⟩

theorem Inv.cacheAlloc (hpc : s.pc t = .cacheAlloc i r) : Inv l (s.cacheAlloc t i r) := by
  have hok := hinv.pcOk hpc
  have hbusy := hinv.not_busy hpc nofun nofun
  unfold State.cacheAlloc
  split
  · exact hinv.setPc hok hbusy
  next hne =>
    obtain ⟨p, rest, hlist⟩ := List.exists_cons_of_ne_nil hne
    obtain ⟨j, free, hp⟩ := hinv.use_of_partial hlist
    have hsame : s.setCache i (s.cache i) = s :=
      congrArg (fun cache => { s with cache := cache }) (update_eq_self i s.cache)
    have htake := hinv.take (t := t) hlist hp hok.2
      (by rw [← hp, update_eq_self]; exact hinv.lists i) nofun fun q i free _ => hbusy q i free
    rwa [hsame] at htake

theorem Inv.addSlab (hpc : s.pc t = .addSlab i r p) : Inv l (s.addSlab t i r p) := by
  obtain ⟨j, free, hp⟩ := hinv.use_of_addSlab hpc
  refine hinv.take rfl hp (hinv.pcOk hpc).1 ((hinv.lists i).push ?_ (List.cons_ne_nil _ _)) ?_
    fun q i' free hqp hq => ?_
  · rw [hp]
    nofun
  · rintro u ⟨⟩
    rfl
  · rcases hinv.busy q i' free t hq with ⟨r', h⟩ | h
    · cases hpc.symm.trans h
      exact hqp rfl
    · cases hpc.symm.trans h

/-! ### Freeing an object -/

omit [DecidableEq τ] hinv in
/-- Freeing a slot: the page comes back to `partial` if it was full, and leaves the lists if it is
now empty. -/
theorem ListsOk.put (full empty : Bool) (h : ListsOk c use i)
    (hp : use p = some (.slab i free none)) (hfull : full = true ↔ free = []) :
    let c₁ := if full then c.moveToPartial p else c
    ListsOk (if empty then c₁.del p else c₁)
      (update use p (some (.slab i (j :: free) (if empty then some t else none)))) i := by
  intro c₁
  have hpart : ListsOk c₁ (update use p (some (.slab i (j :: free) none))) i := by
    cases hcase : full with
    | true =>
      simp only [c₁, hcase, if_true]
      exact h.update_moveToPartial (List.cons_ne_nil _ _)
    | false =>
      have hfree : free ≠ [] := fun h0 => by simp [hfull.mpr h0] at hcase
      simp only [c₁, hcase, Bool.false_eq_true, if_false]
      refine h.replace h.nodup_part h.nodup_full (fun _ _ => ⟨.rfl, .rfl⟩) ?_ ?_
      · rw [h.mem_part]
        exact ⟨fun _ => ⟨_, rfl, List.cons_ne_nil _ _⟩, fun _ => ⟨free, hp, hfree⟩⟩
      · rw [h.mem_full, hp]
        refine ⟨fun hu => absurd (Use.slab.inj (Option.some.inj hu)).2.1 hfree, fun hv => ?_⟩
        cases (Use.slab.inj (Option.some.inj hv)).2.1
  cases empty with
  | false => exact hpart
  | true =>
    have hdel := hpart.update_del (p := p) (v := some (.slab i (j :: free) (some t))) nofun
    rwa [update_idem] at hdel

omit hinv in
theorem slot_index : (l.slot p i j - l.va p) / cacheSize i = j := by
  have hpos := eight_le_cacheSize i
  rw [Layout.slot, Nat.add_sub_cancel_left, Nat.mul_div_cancel _ (by omega)]

omit hinv in
/-- What the section of `kfree` does. -/
theorem freeObject_eq {full empty : Bool} (hp : s.use p = some (.slab i free busy))
    (hfull : full = decide ((s.slab p).inuse = cacheObjects i))
    (hempty : empty = decide ((s.slab p).inuse - 1 = 0)) :
    State.freeObject l s t i p (l.slot p i j) = { s with
      slab := update s.slab p { s.slab p with
        freelist := l.slot p i j, inuse := (s.slab p).inuse - 1 }
      mem := store s.mem (l.slot p i j) 8 (s.slab p).freelist
      cache := update s.cache i
        (let c₁ := if full then (s.cache i).moveToPartial p else s.cache i
         if empty then c₁.del p else c₁)
      use := update s.use p
        (some (.slab i (j :: free) (if empty then some t else none)))
      object := update s.object (l.slot p i j) none
      pc := update s.pc t (if empty then .freeSlab p else .back 0) } := by
  unfold State.freeObject
  simp only [← hempty]
  by_cases hobjects : (s.slab p).inuse = cacheObjects i
  · rw [decide_eq_true hobjects] at hfull
    subst hfull
    cases empty <;> simp only [hobjects, if_true, Bool.false_eq_true, if_false, State.setCache,
      State.setSlab, hp, State.setUse, slot_index, State.setObject, State.setPc,
      update_self, update_idem]
  · rw [decide_eq_false hobjects] at hfull
    subst hfull
    cases empty <;> simp only [hobjects, if_true, Bool.false_eq_true, if_false, State.setCache,
      State.setSlab, hp, State.setUse, slot_index, State.setObject, State.setPc,
      update_eq_self]

theorem Inv.freeObject (hpc : s.pc t = .freeObject i p a) :
    Inv l (State.freeObject l s t i p a) := by
  obtain ⟨⟨size, ho⟩, free, j, hp, hj, hfree, rfl⟩ := hinv.pcOk hpc
  have hbusy := hinv.not_busy hpc nofun nofun
  have hok := hinv.slab p i free none hp
  have hfits : p + 1 ≤ l.maxPfn := (hinv.buddy.fits hp).2.2.1
  rw [freeObject_eq hp rfl rfl]
  have hinuse := hok.inuse
  have hlists := (hinv.lists i).put (t := t) (j := j) (decide ((s.slab p).inuse = cacheObjects i))
    (decide ((s.slab p).inuse - 1 = 0)) hp (by
      rw [decide_eq_true_iff, ← List.length_eq_zero_iff]
      omega)
  refine hinv.moveSlot t hp hj (fun j' hj' => by simp [hj'])
    ⟨fun h => absurd List.mem_cons_self h, nofun⟩ nofun (hok.put hfits hj hfree ?_) ?_ hlists nofun
    ?_ ?_ ?_ fun q i free _ => hbusy q i free
  · by_cases hempty : (s.slab p).inuse - 1 = 0
    · simp [hempty]
    · simp [hempty, Nat.pos_of_ne_zero hempty]
  · intro q hqp x hle hlt
    have hspan := hinv.slot_span hp hj
    have hapart := va_apart hqp hle hlt
    exact store_of_not_mem (by omega)
  · intro u hu
    by_cases hempty : (s.slab p).inuse - 1 = 0
    · simp only [hempty, decide_true, if_true, and_true] at hu ⊢
      cases hu
      rfl
    · simp [hempty] at hu
  · intro size' u hu
    cases ho.symm.trans hu
    rfl
  · by_cases hempty : (s.slab p).inuse - 1 = 0
    · simp only [hempty, decide_true, if_true]
      exact ⟨i, j :: free, update_self _ _ _⟩
    · simp only [hempty, decide_false, Bool.false_eq_true, if_false]
      trivial

/-! ### Large objects -/

omit [DecidableEq τ] in
/-- A block that only one CPU knows is no object. -/
theorem Inv.object_own (hp : s.use p = some (.own t k)) : s.object (l.va p) = none := by
  by_contra hne
  obtain ⟨o, ho⟩ := Option.ne_none_iff_exists'.mp hne
  rcases hinv.home _ _ ho with ⟨q, i, ⟨free, j, hq, hj, -, ha⟩, -⟩ | ⟨q, k', hq, ha, -⟩
  · refine absurd ha.symm (hinv.slot_ne_va hq hj hp ?_)
    rintro rfl
    cases hp.symm.trans hq
  · obtain rfl : q = p := by
      have : l.va q = l.va p := ha.symm
      unfold Layout.va at this
      rw [pageSize_eq] at this
      omega
    cases hp.symm.trans hq

theorem Inv.mark (hpc : s.pc t = .mark k r p) : Inv l (State.mark l s t k r p) := by
  obtain ⟨hsize, hp⟩ := hinv.pcOk hpc
  have hbuddy := hinv.retag (v := .large k) (f := fun flags => { flags with kmalloc := true }) hp
    rfl rfl (by rintro ⟨⟩ ⟨⟩; rfl)
  unfold State.mark
  rw [give_eq]
  refine hinv.moveBlock t hbuddy hp nofun nofun ?_ ?_ ?_ (pcOk_givePc (update_self _ _ _))
    (hinv.not_busy hpc nofun nofun)
  · rintro ob ⟨⟩
    exact .inr ⟨p, k, update_self _ _ _, rfl, hsize⟩
  · rintro u ⟨⟩
    rfl
  · intro size u hu
    cases (hinv.object_own hp).symm.trans hu

omit [DecidableEq τ] in
/-- The order in the descriptor of the head of a block. -/
theorem Inv.page_order (hp : s.use p = some u) : (s.buddy.page p).order = u.order := by
  obtain ⟨n, hlive, -⟩ := hinv.buddy.live p u hp
  have hpage := ((liveBlocks_eq_some hinv.buddy.wf).mp hlive).2.2.2
  exact congrArg Page.order hpage

/-- `kfree` of an object in a slot. -/
theorem Inv.kfree_slot (ha : InSlot l s.use p i a) :
    State.kfree l s t a = s.setPc t (.freeObject i p a) := by
  obtain ⟨free, j, hp, hj, -, rfl⟩ := ha
  have hok := hinv.slab p i free none hp
  have hspan := hinv.slot_span hp hj
  have hpfn : l.pfn (l.slot p i j) = p := pfn_eq va_le_slot (by omega)
  have hflags := hinv.flags hp
  have hslab : (s.buddy.page p).flags.slab = true := congrArg Prod.fst hflags
  have hkmalloc : (s.buddy.page p).flags.kmalloc = false := congrArg Prod.snd hflags
  have hvalid := (hinv.buddy.fits hp).1
  simp [State.kfree, hpfn, hvalid, hslab, hkmalloc, hok.cache]

/-- `kfree` of a large object. -/
theorem Inv.kfree_large (hp : s.use p = some (.large k)) : State.kfree l s t (l.va p) =
      ((s.setFlags p fun flags => { flags with kmalloc := false }).setUse p (some (.own t k))
        |>.setObject (l.va p) none).setPc t (.freePages p k) := by
  have hpfn : l.pfn (l.va p) = p := pfn_eq le_rfl (by rw [pageSize_eq]; omega)
  have hflags := hinv.flags hp
  have hslab : (s.buddy.page p).flags.slab = false := congrArg Prod.fst hflags
  have hkmalloc : (s.buddy.page p).flags.kmalloc = true := congrArg Prod.snd hflags
  have horder : (s.buddy.page p).order = k := hinv.page_order hp
  have hvalid := (hinv.buddy.fits hp).1
  simp [State.kfree, hpfn, hvalid, hslab, hkmalloc, horder]

theorem Inv.kfree (hpc : s.pc t = .kfree a) : Inv l (State.kfree l s t a) := by
  obtain ⟨size, ho⟩ := hinv.pcOk hpc
  have hbusy := hinv.not_busy hpc nofun nofun
  rcases hinv.home a _ ho with ⟨p, i, ha, -⟩ | ⟨p, k, hp, rfl, -⟩
  · rw [hinv.kfree_slot ha]
    exact hinv.setPc ⟨⟨size, ho⟩, ha⟩ hbusy
  · rw [hinv.kfree_large hp]
    have hbuddy := hinv.retag (v := .own t k) (f := fun flags => { flags with kmalloc := false }) hp
      rfl rfl (by rintro ⟨⟩ ⟨⟩; rfl)
    refine hinv.moveBlock t hbuddy hp nofun nofun nofun nofun ?_ (update_self _ _ _) hbusy
    intro size' u hu
    cases ho.symm.trans hu
    rfl

theorem Inv.clear {size : ℕ} (hpc : s.pc t = .clear a size) : Inv l (s.clear t a size) := by
  have ho : s.object a = some ⟨size, some t⟩ := hinv.pcOk hpc
  refine hinv.moveHolder t ho (fun x hx => if_neg hx) rfl ?_ trivial
    (hinv.not_busy hpc nofun nofun)
  rintro u ⟨⟩
  rfl

/-! ### Calls -/

omit hinv in
/-- The loop over the caches finds one that is large enough, if the last one is. -/
theorem cacheIndex_spec (size turns index : ℕ) (h : size ≤ cacheSize (index + turns)) :
    cacheIndex size (turns + 1) index ≤ index + turns ∧
      size ≤ cacheSize (cacheIndex size (turns + 1) index) := by
  induction turns generalizing index with
  | zero =>
    have hnot : ¬ size > 2 ^ (kmallocShiftLow + index) := not_lt.mpr h
    rw [cacheIndex, if_neg hnot]
    exact ⟨le_rfl, h⟩
  | succ turns ih =>
    rw [cacheIndex]
    split
    · obtain ⟨hle, hsize⟩ := ih (index + 1) (by rwa [Nat.add_right_comm, Nat.add_assoc])
      exact ⟨by omega, hsize⟩
    next hsize =>
      exact ⟨by omega, not_lt.mp hsize⟩

omit hinv in
/-- The loop over the orders finds one that is large enough. -/
theorem blockOrder_spec {maxOrder size turns : ℕ} (order : ℕ)
    (h : blockOrder maxOrder size turns order (2 ^ order * pageSize) = some k) :
    size ≤ 2 ^ k * pageSize := by
  induction turns generalizing order with
  | zero => cases h
  | succ turns ih =>
    rw [blockOrder] at h
    split_ifs at h with hsize hmax
    · refine ih (order + 1) ?_
      rwa [Nat.pow_succ', Nat.mul_assoc]
    · cases h
      exact not_lt.mp hsize

omit [DecidableEq τ] hinv in
theorem pcOk_kmalloc : PcOk l use object t (kmalloc l r) := by
  unfold kmalloc
  split
  · trivial
  · split
    next hsize =>
      obtain ⟨hle, hindex⟩ := cacheIndex_spec r.size (nrCaches - 1) 0 hsize
      exact ⟨Nat.lt_of_le_of_lt hle (by decide), hindex⟩
    · split
      · trivial
      next k hk =>
        have hk : blockOrder l.maxOrder r.size l.maxOrder 0 (2 ^ 0 * pageSize) = some k := by
          rwa [pow_zero, one_mul]
        exact blockOrder_spec 0 hk

theorem Inv.callKfree (hpc : s.pc t = .back b) (hstep : s.callKfree t a = some s') : Inv l s' := by
  have hbusy := hinv.not_busy hpc nofun nofun
  unfold State.callKfree at hstep
  split at hstep
  · cases hstep
    exact hinv.setPc trivial hbusy
  · split at hstep
    next size ho =>
      cases hstep
      exact hinv.moveHolder t ho (fun _ _ => rfl) rfl nofun ⟨size, update_self _ _ _⟩ hbusy
    · cases hstep

theorem Inv.go (hstep : State.go l s t = some s') : Inv l s' := by
  unfold State.go at hstep
  cases hpc : s.pc t <;> rw [hpc] at hstep <;> cases hstep
  case cacheAlloc => exact hinv.cacheAlloc hpc
  case newSlab =>
    exact hinv.getBlock (k := 0) (hinv.not_busy hpc nofun nofun) fun use' p hp =>
      ⟨(hinv.pcOk hpc).1, (hinv.pcOk hpc).2, hp⟩
  case initSlab => exact hinv.initSlab hpc
  case addSlab => exact hinv.addSlab hpc
  case allocPages =>
    exact hinv.getBlock (hinv.not_busy hpc nofun nofun) fun use' p hp => ⟨hinv.pcOk hpc, hp⟩
  case mark => exact hinv.mark hpc
  case clear => exact hinv.clear hpc
  case kfree => exact hinv.kfree hpc
  case freeObject => exact hinv.freeObject hpc
  case freeSlab => exact hinv.freeSlab hpc
  case freePages => exact hinv.putBlock hpc

/-- In the step from `s` to `s'`, `kmalloc` gives CPU `t` a pointer, or gives it to the `memset` of
its `kzalloc`. -/
def Gives (s s' : State τ) (t : τ) (a : ℕ) : Prop :=
  (∀ size, s.pc t ≠ .clear a size) ∧ a ≠ 0 ∧ (s'.pc t = .back a ∨ ∃ size, s'.pc t = .clear a size)

omit [DecidableEq τ] hinv in
theorem Gives.eq_of_givePc (h : Gives s s' t a) (hpc : s'.pc t = givePc r b) : a = b := by
  obtain ⟨-, -, hback⟩ := h
  rw [hpc, givePc] at hback
  split_ifs at hback <;> simpa [eq_comm] using hback

omit hinv in
/-- Taking an object gives the slot, and no other pointer. -/
theorem Gives.takeObject {s₁ : State τ} (h : Gives s ((s₁.takeObject t i r)) t a)
    (hlist : (s₁.cache i).partialPages = p :: rest)
    (hp : s₁.use p = some (.slab i (j :: free) busy))
    (hok : SlabOk l s₁.mem (s₁.slab p) p i (j :: free) busy) :
    a = l.slot p i j ∧ (s₁.takeObject t i r).object a = some (givenObject t r) := by
  rw [takeObject_eq hlist hp hok] at h ⊢
  obtain rfl := h.eq_of_givePc (update_self _ _ _)
  exact ⟨rfl, update_self _ _ _⟩

/-- A pointer that is given was no object before. -/
theorem Inv.given (hstep : State.go l s t = some s') (h : Gives s s' t a) :
    s.object a = none ∧ (s'.object a).isSome := by
  unfold State.go at hstep
  cases hpc : s.pc t <;> rw [hpc] at hstep <;> cases hstep
  case cacheAlloc i r =>
    unfold State.cacheAlloc at h ⊢
    split_ifs at h ⊢ with hnil
    · simp [Gives, State.setPc] at h
    · obtain ⟨p, rest, hlist⟩ := List.exists_cons_of_ne_nil hnil
      obtain ⟨j, free, hp⟩ := hinv.use_of_partial hlist
      obtain ⟨rfl, hnew⟩ := h.takeObject hlist hp (hinv.slab p i _ _ hp)
      exact ⟨hinv.object_free hp List.mem_cons_self, by rw [hnew]; rfl⟩
  case addSlab i r p =>
    obtain ⟨j, free, hp⟩ := hinv.use_of_addSlab hpc
    have hlist : ((s.setCache i { s.cache i with
        partialPages := p :: (s.cache i).partialPages }).cache i).partialPages =
          p :: (s.cache i).partialPages := by
      simp [State.setCache]
    obtain ⟨rfl, hnew⟩ := Gives.takeObject h hlist hp (hinv.slab p i _ _ hp)
    unfold State.addSlab
    exact ⟨hinv.object_free hp List.mem_cons_self, by rw [hnew]; rfl⟩
  case mark k r p =>
    unfold State.mark at h ⊢
    rw [give_eq] at h ⊢
    obtain rfl := h.eq_of_givePc (update_self _ _ _)
    exact ⟨hinv.object_own (hinv.pcOk hpc).2, by simp⟩
  all_goals
    obtain ⟨hclear, hne, hback⟩ := h
  case clear ptr size =>
    obtain rfl : ptr = a := by simpa [State.clear, State.setPc] using hback
    exact absurd hpc (hclear size)
  -- The other steps give nothing.
  case newSlab | allocPages =>
    unfold State.getBlock at hback
    split at hback <;> simp [State.setPc, hne.symm] at hback
  case kfree =>
    simp only [State.kfree] at hback
    split_ifs at hback
    · simp [State.setPc, hne.symm] at hback
    · simp [State.setPc, hne.symm] at hback
    · simp [State.setPc] at hback
    · split at hback <;> simp [State.setPc, hne.symm] at hback
  case freeObject =>
    simp only [State.freeObject, State.setPc, update_self] at hback
    split_ifs at hback <;> simp [hne.symm] at hback
  all_goals simp [State.initSlab, State.freeSlab, State.putBlock, State.setPc, hne.symm] at hback

/-! ### Other code -/

omit [DecidableEq τ] in
/-- Memory changes where no free slot is. -/
theorem Inv.setMem {mem : Store} (hslab : ∀ p i free busy,
    s.use p = some (.slab i free busy) → SlabOk l mem (s.slab p) p i free busy) :
    Inv l { s with mem := mem } :=
  { hinv with slab := hslab }

omit [DecidableEq τ] in
/-- The references of a block of other code change. -/
theorem Inv.setBuddy {b : Buddy.State} (hbuddy : BuddyOk l b s.use) : Inv l { s with buddy := b } :=
  { hinv with buddy := hbuddy }

omit [DecidableEq τ] in
/-- A byte of a block of other code is not in a free slot. -/
theorem Inv.otherWrite {y : BitVec 8} (hp : s.use p = some (.other k))
    (hx : l.va p ≤ x ∧ x < l.va p + 2 ^ k * pageSize) :
    Inv l { s with mem := update s.mem x y } := by
  refine hinv.setMem fun q i free busy hq => ?_
  have hok := hinv.slab q i free busy hq
  refine hok.congr fun j hj z hle hlt => update_of_ne ?_ _ _
  rintro rfl
  obtain rfl := hinv.block_unique hq (hok.lt j hj) hle hlt hp hx.1 hx.2
  cases hp.symm.trans hq

theorem Inv.step {e : Action τ} (hstep : Slub.step l s e = some s') : Inv l s' := by
  -- A CPU outside may call anything.
  have hcall : ∀ {t : τ} {b : ℕ} {zero : Bool} {size : ℕ}, s.pc t = .back b →
      Inv l (s.setPc t (kmalloc l ⟨size, zero⟩)) := fun hpc =>
    hinv.setPc pcOk_kmalloc (hinv.not_busy hpc nofun nofun)
  unfold Slub.step at hstep
  cases e <;> dsimp only at hstep
  case go t => exact hinv.go hstep
  case otherAlloc order =>
    split at hstep <;> cases hstep
    · exact hinv.setBuddy (allocPages_none ‹_› ▸ hinv.buddy)
    · obtain ⟨hnone, -, hok⟩ := hinv.buddy.alloc ‹_›
      exact hinv.moveOther (hok (.other order.toNat) rfl rfl) (.inl hnone) (.inr ⟨_, rfl⟩)
  -- There is nothing to show where the condition of an action fails.
  case kmalloc | kzalloc =>
    split at hstep <;> cases hstep
    exact hcall ‹_›
  case kfree =>
    split at hstep
    · exact hinv.callKfree ‹_› hstep
    · cases hstep
  case write =>
    split at hstep
    · split_ifs at hstep with hx
      cases hstep
      refine hinv.setMem (hinv.slab_write ‹_› fun z hz => update_of_ne ?_ _ _)
      rintro rfl
      exact hz hx
    · cases hstep
  case otherGet =>
    split at hstep <;> cases hstep
    exact hinv.setBuddy (hinv.buddy.get ‹_›)
  case otherFree =>
    split at hstep <;> cases hstep
    rename_i k hp
    split
    · exact hinv.moveOther (hinv.buddy.put hp rfl (.inr ‹_›)) (.inr ⟨k, hp⟩) (.inl rfl)
    · exact hinv.setBuddy (hinv.buddy.putShared hp ‹_›)
  case otherWrite =>
    split at hstep
    · split_ifs at hstep with hx
      cases hstep
      exact hinv.otherWrite ‹_› hx
    · cases hstep

end

omit [DecidableEq τ] in
theorem inv_booted (h : Booted l s) : Inv l s := by
  obtain ⟨mb, mem, rfl⟩ := h
  have hfresh := fresh_buddyInit l.toMem mb
  refine ⟨⟨?_, fun p => (hfresh p).2, fun p _ => ?_, nofun⟩, nofun, fun i => ?_, nofun, nofun,
    fun _ => trivial, nofun, rfl⟩
  · rw [hfresh.untagged]
    exact wf_buddyInit l.toMem mb
  · refine if_neg ?_
    rw [(hfresh p).1]
    exact fun h => Bool.false_ne_true h.2
  · exact ⟨List.nodup_nil, List.nodup_nil, fun p => ⟨nofun, nofun⟩, fun p => ⟨nofun, nofun⟩⟩

/-! ### What callers rely on -/

/-- The pages of a cache: those with the flag whose descriptor points to it. -/
def State.SlabPage (s : State τ) (p i : ℕ) : Prop :=
  (s.buddy.page p).flags.slab = true ∧ (s.slab p).cache = some i

/-- What callers of `kmalloc` and `kfree` rely on. No lock is held between two steps. -/
structure SlubOk (l : Layout) (s : State τ) : Prop where
  /-- Two objects have no byte in common. -/
  disjoint : ∀ a b o o', s.object a = some o → s.object b = some o' → a ≠ b →
    ∀ x, ¬ ((a ≤ x ∧ x < a + o.size) ∧ b ≤ x ∧ x < b + o'.size)
  /-- An object is as large as asked for, and lies in one slot or one block. -/
  place : ∀ a o, s.object a = some o →
    (∃ p i j, s.SlabPage p i ∧ j < cacheObjects i ∧ a = l.slot p i j ∧ o.size ≤ cacheSize i) ∨
      ∃ p k, liveBlocks l.toMem s.buddy p = some (k, 1) ∧ a = l.va p ∧ o.size ≤ 2 ^ k * pageSize
  /-- A pointer that `kmalloc` gives was no object before, and is one then. -/
  given : ∀ t s' a, step l s (.go t) = some s' → Gives s s' t a →
    s.object a = none ∧ (s'.object a).isSome
  /-- The list of a page leads through slots of the page, as many as are not in use, no slot twice,
  and none of them has a byte of an object. -/
  freelist : ∀ p i, s.SlabPage p i → ∃ free : List ℕ,
    Linked (· = 0) (fun a => load s.mem a 8) (s.slab p).freelist (free.map (l.slot p i)) ∧
      free.Nodup ∧ (∀ j ∈ free, j < cacheObjects i) ∧
      free.length = cacheObjects i - (s.slab p).inuse ∧ (s.slab p).inuse ≤ cacheObjects i ∧
      ∀ j ∈ free, ∀ a o x, s.object a = some o → l.slot p i j ≤ x →
        x < l.slot p i j + cacheSize i → ¬ (a ≤ x ∧ x < a + o.size)
  /-- The lists hold the pages of the cache, by how many of their slots are in use. -/
  onPartial : ∀ p i, s.SlabPage p i → (p ∈ (s.cache i).partialPages ↔
    0 < (s.slab p).inuse ∧ (s.slab p).inuse < cacheObjects i)
  onFull : ∀ p i, s.SlabPage p i → (p ∈ (s.cache i).full ↔ (s.slab p).inuse = cacheObjects i)
  onList : ∀ p i, p ∈ (s.cache i).partialPages ∨ p ∈ (s.cache i).full → s.SlabPage p i
  nodup : ∀ i, (s.cache i).partialPages.Nodup ∧ (s.cache i).full.Nodup
  /-- A page without objects is new, or on its way back to the buddy allocator. -/
  empty : ∀ p i, s.SlabPage p i → ((s.slab p).inuse = 0 ↔
    ∃ t, (∃ r, s.pc t = .addSlab i r p) ∨ s.pc t = .freeSlab p)
  /-- It is set out on this way when its last object is freed, and only then. -/
  last : ∀ t i p a, s.pc t = .freeObject i p a → l.pfn a = p ∧ (s.object a).isSome ∧
    ∃ s', step l s (.go t) = some s' ∧ s'.object a = none ∧
      (s'.pc t = .freeSlab p ↔ ∀ b, (s.object b).isSome → l.pfn b = p → b = a)
  /-- From there it goes to `free_pages`. -/
  returned : ∀ t p, s.pc t = .freeSlab p →
    ∃ s', step l s (.go t) = some s' ∧ s'.pc t = .freePages p 0
  /-- `free_pages` accepts every block, and the block is free then. -/
  accepted : ∀ t p k, s.pc t = .freePages p k →
    allocatedBlock l.toMem s.buddy (pageAddr l.toMem p) k = true ∧
      (∀ a, (s.object a).isSome → ¬ (l.va p ≤ a ∧ a < l.va p + 2 ^ k * pageSize)) ∧
      ∃ s', step l s (.go t) = some s' ∧ liveBlocks l.toMem s'.buddy p = none
  /-- `kfree` has accepted every pointer. -/
  ok : s.failed = false

section

variable (hinv : Inv l s)
include hinv

omit [DecidableEq τ] in
/-- The record of a page of a cache. -/
theorem Inv.slabPage_iff : s.SlabPage p i ↔ ∃ free busy, s.use p = some (.slab i free busy) := by
  constructor
  · rintro ⟨hflag, hcache⟩
    have htags := hinv.buddy.tags p
    have hfst : true = (((s.use p).map Use.tags).getD (false, false)).1 :=
      hflag.symm.trans (congrArg Prod.fst htags)
    cases hp : s.use p with
    | none =>
      rw [hp] at hfst
      cases hfst
    | some u =>
      rw [hp] at hfst
      cases u with
      | slab i' free busy =>
        have hcache' := (hinv.slab p i' free busy hp).cache
        cases hcache.symm.trans hcache'
        exact ⟨free, busy, rfl⟩
      | large k => cases hfst
      | own t k => cases hfst
      | other k => cases hfst
  · rintro ⟨free, busy, hp⟩
    exact ⟨congrArg Prod.fst (hinv.flags hp), (hinv.slab p i free busy hp).cache⟩

omit [DecidableEq τ] in
/-- The page and the cache of an object in a page of a cache. -/
theorem Inv.object_pfn (hp : s.use p = some (.slab i free busy)) (ho : s.object b = some o)
    (hb : l.pfn b = p) : busy = none ∧ ∃ j, j < cacheObjects i ∧ j ∉ free ∧ b = l.slot p i j := by
  rcases hinv.home b o ho with ⟨q, i', ⟨free', j, hq, hj, hfree, rfl⟩, -⟩ | ⟨q, k, hq, rfl, -⟩
  · have hspan := hinv.slot_span hq hj
    obtain rfl : q = p := (pfn_eq va_le_slot (by omega)).symm.trans hb
    obtain ⟨rfl, rfl, rfl⟩ := Use.slab.inj (Option.some.inj (hp.symm.trans hq))
    exact ⟨rfl, j, hj, hfree, rfl⟩
  · obtain rfl : q = p := (pfn_eq le_rfl (by rw [pageSize_eq]; omega)).symm.trans hb
    cases hp.symm.trans hq

omit [DecidableEq τ] in
/-- The block of an object, and that all of the object lies in it. -/
theorem Inv.object_block (ho : s.object a = some o) (hle : a ≤ x) (hlt : x ≤ a ∨ x < a + o.size) :
    ∃ q u, s.use q = some u ∧ l.va q ≤ x ∧
      x < l.va q + 2 ^ u.order * pageSize ∧ u.tags ≠ (false, false) := by
  rcases hinv.home a o ho with ⟨q, i, ⟨free, j, hq, hj, -, rfl⟩, hsize⟩ | ⟨q, k, hq, rfl, hsize⟩
  · have hspan := hinv.slot_span hq hj
    refine ⟨q, _, hq, by omega, ?_, by simp [Use.tags]⟩
    simp only [Use.order]
    omega
  · have hpos : pageSize ≤ 2 ^ k * pageSize := Nat.le_mul_of_pos_left _ (Nat.two_pow_pos k)
    rw [pageSize_eq] at *
    refine ⟨q, _, hq, hle, ?_, by simp [Use.tags]⟩
    simp only [Use.order]
    omega

omit [DecidableEq τ] in
theorem Inv.object_disjoint {o' : Object τ} (ha : s.object a = some o) (hb : s.object b = some o')
    (hax : a ≤ x) (hxa : x < a + o.size) (hbx : b ≤ x) (hxb : x < b + o'.size) : a = b := by
  rcases hinv.home a o ha with ⟨p, i, ⟨free, j, hp, hj, hfree, rfl⟩, hsize⟩ | ⟨p, k, hp, rfl, hsize⟩
    <;> rcases hinv.home b o' hb with
      ⟨q, i', ⟨free', j', hq, hj', hfree', rfl⟩, hsize'⟩ | ⟨q, k', hq, rfl, hsize'⟩
  · obtain ⟨rfl, rfl, -, -, rfl⟩ :=
      hinv.slot_unique hp hj hax (by omega) hq hj' hbx (by omega)
    rfl
  · obtain rfl := hinv.block_unique hp hj hax (by omega) hq hbx (by simp only [Use.order]; omega)
    cases hp.symm.trans hq
  · obtain rfl := hinv.block_unique hq hj' hbx (by omega) hp hax (by simp only [Use.order]; omega)
    cases hp.symm.trans hq
  · obtain rfl : p = q := hinv.buddy.unique_va (x := x) hp hq hax
      (by simp only [Use.order]; omega) hbx (by simp only [Use.order]; omega)
    rfl

omit [DecidableEq τ] in
/-- The object that is freed is the only one of its page just if no other slot is in use. -/
theorem Inv.last_iff (hp : s.use p = some (.slab i free none)) (hj : j < cacheObjects i)
    (hfree : j ∉ free) :
    (s.slab p).inuse - 1 = 0 ↔ ∀ b, (s.object b).isSome → l.pfn b = p → b = l.slot p i j := by
  have hok := hinv.slab p i free none hp
  have hinuse := hok.inuse
  constructor
  · intro hlast b hb hpfn
    obtain ⟨o, ho⟩ := Option.isSome_iff_exists.mp hb
    obtain ⟨-, j', hj', hfree', rfl⟩ := hinv.object_pfn hp ho hpfn
    by_contra hne
    -- Two slots in use and the free ones are more than there are.
    have hnodup : (j' :: j :: free).Nodup := by
      refine List.nodup_cons.mpr ⟨?_, List.nodup_cons.mpr ⟨hfree, hok.nodup⟩⟩
      rw [List.mem_cons, not_or]
      exact ⟨fun h => hne (h ▸ rfl), hfree'⟩
    have hsub : (j' :: j :: free) ⊆ List.range (cacheObjects i) := by
      intro y hy
      rw [List.mem_range]
      rcases List.mem_cons.mp hy with rfl | hy
      · exact hj'
      · rcases List.mem_cons.mp hy with rfl | hy
        · exact hj
        · exact hok.lt y hy
    have hlen := (hnodup.subperm hsub).length_le
    rw [List.length_cons, List.length_cons, List.length_range] at hlen
    omega
  · intro honly
    by_contra hne
    -- There is a slot in use besides this one.
    have hsub : ¬ List.range (cacheObjects i) ⊆ j :: free := fun hsub => by
      have hlen := (List.nodup_range.subperm hsub).length_le
      rw [List.length_range, List.length_cons] at hlen
      omega
    obtain ⟨j', hj', hmem⟩ : ∃ j' ∈ List.range (cacheObjects i), j' ∉ j :: free := by
      by_contra hcon
      push Not at hcon
      exact hsub hcon
    rw [List.mem_range] at hj'
    rw [List.mem_cons, not_or] at hmem
    have hheld := hinv.held p i free none j' hp hj' hmem.2
    have hspan := hinv.slot_span hp hj'
    exact hmem.1 (slot_inj (honly _ hheld (pfn_eq va_le_slot (by omega))))

omit [DecidableEq τ] in
theorem Inv.empty_iff (hp : s.use p = some (.slab i free busy)) :
    (s.slab p).inuse = 0 ↔
      ∃ t, (∃ r, s.pc t = .addSlab i r p) ∨ s.pc t = .freeSlab p := by
  have hok := hinv.slab p i free busy hp
  constructor
  · intro hempty
    cases busy with
    | none => exact absurd hempty (hok.busy.mp rfl).ne'
    | some t => exact ⟨t, hinv.busy p i free t hp⟩
  · rintro ⟨t, hpc⟩
    have hbusy : busy = some t := by
      rcases hpc with ⟨r, hpc⟩ | hpc
      · exact (Use.slab.inj (Option.some.inj (hp.symm.trans (hinv.pcOk hpc).2))).2.2
      · obtain ⟨i', free', hp'⟩ := hinv.pcOk hpc
        exact (Use.slab.inj (Option.some.inj (hp.symm.trans hp'))).2.2
    by_contra hne
    cases hbusy.symm.trans (hok.busy.mpr (Nat.pos_of_ne_zero hne))

omit [DecidableEq τ] in
/-- The lists say how many slots of a page are in use. -/
theorem Inv.lists_iff (hp : s.use p = some (.slab i free busy)) :
    (p ∈ (s.cache i).partialPages ↔ 0 < (s.slab p).inuse ∧ (s.slab p).inuse < cacheObjects i) ∧
      (p ∈ (s.cache i).full ↔ (s.slab p).inuse = cacheObjects i) := by
  have hok := hinv.slab p i free busy hp
  have hinuse := hok.inuse
  have hobjects := cacheObjects_pos hok.index
  rw [(hinv.lists i).mem_part, (hinv.lists i).mem_full, hp]
  constructor
  · constructor
    · rintro ⟨free', h, hne⟩
      obtain ⟨-, rfl, rfl⟩ := Use.slab.inj (Option.some.inj h)
      have := List.length_pos_iff.mpr hne
      exact ⟨hok.busy.mp rfl, by omega⟩
    · rintro ⟨hpos, hlt⟩
      refine ⟨free, by rw [hok.busy.mpr hpos], ?_⟩
      rw [← List.length_pos_iff]
      omega
  · constructor
    · intro h
      obtain ⟨-, rfl, rfl⟩ := Use.slab.inj (Option.some.inj h)
      exact hinuse
    · intro hfull
      have hnil : free = [] := List.length_eq_zero_iff.mp (by omega)
      rw [hnil, hok.busy.mpr (by omega)]

/-- `free_pages` accepts every block it is called with. -/
theorem Inv.accepted (hpc : s.pc t = .freePages p k) :
    allocatedBlock l.toMem s.buddy (pageAddr l.toMem p) k = true ∧
      (∀ a, (s.object a).isSome → ¬ (l.va p ≤ a ∧ a < l.va p + 2 ^ k * pageSize)) ∧
      ∃ s', Slub.step l s (.go t) = some s' ∧ liveBlocks l.toMem s'.buddy p = none := by
  have hp : s.use p = some (.own t k) := hinv.pcOk hpc
  refine ⟨(hinv.buddy.accepted hp rfl).1, ?_, State.putBlock l s t p k, ?_, ?_⟩
  · rintro a ha ⟨hle, hlt⟩
    obtain ⟨o, ho⟩ := Option.isSome_iff_exists.mp ha
    obtain ⟨q, u, hq, hle', hlt', htags⟩ := hinv.object_block ho le_rfl (.inl le_rfl)
    obtain rfl : p = q := hinv.buddy.unique_va hp hq hle hlt hle' hlt'
    cases hp.symm.trans hq
    exact htags rfl
  · rw [Slub.step, State.go, hpc]
  · exact (hinv.putBlock hpc).buddy.free p (update_self _ _ _)

theorem Inv.last (hpc : s.pc t = .freeObject i p a) : l.pfn a = p ∧ (s.object a).isSome ∧
      ∃ s', Slub.step l s (.go t) = some s' ∧ s'.object a = none ∧
        (s'.pc t = .freeSlab p ↔ ∀ b, (s.object b).isSome → l.pfn b = p → b = a) := by
  obtain ⟨⟨size, ho⟩, free, j, hp, hj, hfree, rfl⟩ := hinv.pcOk hpc
  have hspan := hinv.slot_span hp hj
  refine ⟨pfn_eq va_le_slot (by omega), ho ▸ rfl, State.freeObject l s t i p (l.slot p i j), ?_, ?_,
    ?_⟩
  · rw [Slub.step, State.go, hpc]
  · rw [freeObject_eq hp rfl rfl]
    exact update_self _ _ _
  · rw [freeObject_eq hp rfl rfl, ← hinv.last_iff hp hj hfree]
    simp only [update_self]
    by_cases hlast : (s.slab p).inuse - 1 = 0 <;> simp [hlast]

theorem Inv.slubOk : SlubOk l s where
  disjoint a b o o' ha hb hne x hx :=
    hne (hinv.object_disjoint ha hb hx.1.1 hx.1.2 hx.2.1 hx.2.2)
  place a o ho := by
    rcases hinv.home a o ho with ⟨p, i, ⟨free, j, hp, hj, -, ha⟩, hsize⟩ | ⟨p, k, hp, ha, hsize⟩
    · exact .inl ⟨p, i, j, hinv.slabPage_iff.mpr ⟨free, none, hp⟩, hj, ha, hsize⟩
    · obtain ⟨n, hlive, hn⟩ := hinv.buddy.live p _ hp
      exact .inr ⟨p, k, hn rfl ▸ hlive, ha, hsize⟩
  given t s' a hstep h := hinv.given hstep h
  freelist p i hpage := by
    obtain ⟨free, busy, hp⟩ := hinv.slabPage_iff.mp hpage
    have hok := hinv.slab p i free busy hp
    have hinuse := hok.inuse
    exact ⟨free, hok.chain, hok.nodup, hok.lt, by omega, by omega,
      fun j hj a o x ho hle hlt => hinv.object_apart hp hj ho hle hlt⟩
  onPartial p i hpage := by
    obtain ⟨free, busy, hp⟩ := hinv.slabPage_iff.mp hpage
    exact (hinv.lists_iff hp).1
  onFull p i hpage := by
    obtain ⟨free, busy, hp⟩ := hinv.slabPage_iff.mp hpage
    exact (hinv.lists_iff hp).2
  onList p i hmem := by
    rw [hinv.slabPage_iff]
    rcases hmem with hmem | hmem
    · obtain ⟨free, hp, -⟩ := ((hinv.lists i).mem_part p).mp hmem
      exact ⟨free, none, hp⟩
    · exact ⟨[], none, ((hinv.lists i).mem_full p).mp hmem⟩
  nodup i := ⟨(hinv.lists i).nodup_part, (hinv.lists i).nodup_full⟩
  empty p i hpage := by
    obtain ⟨free, busy, hp⟩ := hinv.slabPage_iff.mp hpage
    exact hinv.empty_iff hp
  last t i p a hpc := hinv.last hpc
  returned t p hpc := by
    refine ⟨s.freeSlab t p, ?_, update_self _ _ _⟩
    rw [Slub.step, State.go, hpc]
  accepted t p k hpc := hinv.accepted hpc
  ok := hinv.ok

end

/-- **The slab allocator.** Whatever CPUs call `kmalloc`, `kzalloc` and `kfree`, in every
interleaving of their sections and with any other use of the buddy allocator, objects are apart,
the free lists and the lists of pages are right, and a page goes back to the buddy allocator just
when its last object is freed. -/
theorem slubOk_of_reachable (h : Reachable (Booted l) (Graph (step l)) s) : SlubOk l s := by
  have hinv : Inv l s := h.invariant (fun _ h => inv_booted h) fun _ _ _ hinv hstep =>
    hinv.step hstep
  exact hinv.slubOk

/-- Eight pages. -/
def smallLayout : Layout where
  minPfn := 0
  maxPfn := 8
  memMap := 56
  maxOrder := 4
  pfn_lt := by decide
  maxOrder_pos := Buddy.smallMem.maxOrder_pos
  maxOrder_le := Buddy.smallMem.maxOrder_le
  offset := 65536
  offset_pos := by decide
  fits := by decide
  memMap_pos := by decide

/-- A memory map without reservations. -/
def smallMemblock : Memblock := .empty 0 32768

/-- Two CPUs find `partial` empty and both get a page. A third page holds one object only, which is
freed while another CPU gets a large object. -/
def raceRun : List (Action ℕ) :=
  [.kmalloc 0 2000, .kzalloc 1 1500, .go 0, .go 1, .go 0, .go 1, .go 0, .go 1, .go 0, .go 1, .go 1,
    .kmalloc 0 4096, .go 0, .go 0, .go 0, .go 0, .kfree 0 73728, .go 0, .go 0, .kmalloc 1 5000,
    .go 1, .go 1, .kfree 2 65536, .go 2]

/-- The page that held one object has left the lists and is about to go back. -/
theorem slubOk_raceRun : ∃ s : State ℕ,
    Reachable (Booted smallLayout) (Graph (step smallLayout)) s ∧ SlubOk smallLayout s ∧
      s.pc 0 = .freeSlab 2 ∧ s.pc 1 = .back 81920 ∧ s.pc 2 = .freeObject 8 0 65536 ∧
      s.cache 8 = ⟨[1, 0], []⟩ ∧ s.cache 9 = ⟨[], []⟩ ∧ (s.slab 2).inuse = 0 :=
  exists_of_exec raceRun ⟨smallMemblock, fun _ => 0, rfl⟩ (fun _ hs => slubOk_of_reachable hs)
    (by decide +kernel)

end Nuvix.Slub
