import Nuvix.Lib.SumUpdate

/-!
# Reference-counted frames that owners share

Each owner maps frames at places and holds references to further frames that are not
mapped. A frame is mapped at one place only, by any number of owners. An entry that is
marked as owned may be written, so nobody else may refer to its frame. When an entry
is copied from one owner to another, there is a moment at which the copy is not yet
counted: the new owner then owes a reference, and the one it copied from still maps
the frame.
-/

namespace Sharing

open Function (update_self update_of_ne update_apply forall_update_iff)

variable {ι κ φ : Type*}

/-- The entries of an owner, each with a mark that it may be written; the references
it holds to frames that it does not map; the place of an entry that is not counted
yet, with the owner it has been copied from; a frame it has just allocated. -/
@[ext]
structure Owner (ι κ φ : Type*) where
  ent : κ → Option (φ × Bool)
  held : Multiset φ
  owed : Option (ι × κ)
  fresh : Option φ

namespace Owner

variable [DecidableEq φ] {o o' : Owner ι κ φ} {v : κ} {p : φ} {e : Option (φ × Bool)} {b : Bool}
  {q : φ} {w : κ}

/-- The frame mapped at a place. -/
def frame (o : Owner ι κ φ) (v : κ) : Option φ := (o.ent v).map Prod.fst

/-- The owner maps or holds the frame. -/
def Refers (o : Owner ι κ φ) (p : φ) : Prop := p ∈ o.held ∨ ∃ v, o.frame v = some p

/-- The owner maps the frame at `v`, and the entry is counted. -/
def Counts (o : Owner ι κ φ) (p : φ) : Prop :=
  ∃ v, o.frame v = some p ∧ ∀ src, o.owed ≠ some (src, v)

open Classical in
/-- The counted references. -/
noncomputable def counted (o : Owner ι κ φ) (p : φ) : ℕ :=
  (if o.Counts p then 1 else 0) + o.held.count p

omit [DecidableEq φ] in
theorem frame_of_ent (h : o.ent v = some (p, b)) : o.frame v = some p := by
  rw [frame, h]
  rfl

omit [DecidableEq φ] in
theorem ent_of_frame (h : o.frame v = some p) : ∃ b, o.ent v = some (p, b) := by
  obtain ⟨⟨q, b⟩, hent, rfl⟩ := Option.map_eq_some_iff.mp h
  exact ⟨b, hent⟩

/-- The frame is allocated and held. -/
def alloc (o : Owner ι κ φ) (p : φ) : Owner ι κ φ := ⟨o.ent, p ::ₘ o.held, o.owed, some p⟩

/-- A held frame is mapped. -/
def map [DecidableEq κ] (o : Owner ι κ φ) (v : κ) (p : φ) (b : Bool) : Owner ι κ φ :=
  ⟨Function.update o.ent v (some (p, b)), o.held.erase p, o.owed, none⟩

/-- A frame that was mapped is held. -/
def unmap [DecidableEq κ] (o : Owner ι κ φ) (v : κ) (p : φ) : Owner ι κ φ :=
  ⟨Function.update o.ent v none, p ::ₘ o.held, o.owed, o.fresh⟩

/-- A held reference is dropped. -/
def free (o : Owner ι κ φ) (p : φ) : Owner ι κ φ := ⟨o.ent, o.held.erase p, o.owed, o.fresh⟩

/-- The mark of an entry changes. -/
def mark [DecidableEq κ] (o : Owner ι κ φ) (v : κ) (p : φ) (b : Bool) : Owner ι κ φ :=
  ⟨Function.update o.ent v (some (p, b)), o.held, o.owed, o.fresh⟩

/-- An entry is copied from another owner. -/
def share [DecidableEq κ] (o : Owner ι κ φ) (src : ι) (v : κ) (p : φ) : Owner ι κ φ :=
  ⟨Function.update o.ent v (some (p, false)), o.held, some (src, v), o.fresh⟩

/-- The copied entry is counted. -/
def settle (o : Owner ι κ φ) : Owner ι κ φ := ⟨o.ent, o.held, none, o.fresh⟩

/-- The allocated frame will not be mapped. -/
def giveUp (o : Owner ι κ φ) : Owner ι κ φ := ⟨o.ent, o.held, o.owed, none⟩

omit [DecidableEq φ] in
theorem frame_update [DecidableEq κ] (hent : o'.ent = Function.update o.ent v e) :
    o'.frame w = if w = v then e.map Prod.fst else o.frame w := by
  unfold frame
  rw [hent, update_apply]
  split_ifs <;> rfl

omit [DecidableEq φ] in
/-- The frames mapped after one more entry. -/
theorem frame_eq_some_of_update [DecidableEq κ]
    (hent : o'.ent = Function.update o.ent v (some (p, b))) (hw : o'.frame w = some q) :
    w = v ∧ q = p ∨ w ≠ v ∧ o.frame w = some q := by
  rw [frame_update hent] at hw
  split_ifs at hw with hwv
  · exact .inl ⟨hwv, (Option.some.inj hw).symm⟩
  · exact .inr ⟨hwv, hw⟩

omit [DecidableEq φ] in
/-- Another frame is mapped where it was. -/
theorem exists_frame_update [DecidableEq κ] (hent : o'.ent = Function.update o.ent v e)
    (hold : o.frame v ≠ some q) (hnew : e.map Prod.fst ≠ some q) (w : κ) :
    o'.frame w = some q ↔ o.frame w = some q := by
  rw [frame_update hent]
  split_ifs with hwv
  · subst hwv
    exact ⟨fun h => absurd h hnew, fun h => absurd h hold⟩
  · rfl

omit [DecidableEq φ] in
/-- A frame that was mapped nowhere has one place. -/
theorem frame_inj_of_update [DecidableEq κ] {x : κ}
    (hent : o'.ent = Function.update o.ent v (some (p, b))) (hmap : ∀ w, o.frame w ≠ some p)
    (hinj : o.frame w = some q → o.frame x = some q → w = x) (hw : o'.frame w = some q)
    (hx : o'.frame x = some q) : w = x := by
  rcases frame_eq_some_of_update hent hw with ⟨hwv, hq⟩ | ⟨-, hw⟩
  · rcases frame_eq_some_of_update hent hx with ⟨hxv, -⟩ | ⟨-, hx⟩
    · rw [hwv, hxv]
    · rw [hq] at hx
      exact absurd hx (hmap x)
  · rcases frame_eq_some_of_update hent hx with ⟨-, hq⟩ | ⟨-, hx⟩
    · rw [hq] at hw
      exact absurd hw (hmap w)
    · exact hinj hw hx

omit [DecidableEq φ] in
theorem counts_iff (howed : o.owed = none) : o.Counts p ↔ ∃ v, o.frame v = some p := by
  constructor
  · rintro ⟨v, hv, -⟩
    exact ⟨v, hv⟩
  · rintro ⟨v, hv⟩
    exact ⟨v, hv, fun src => by rw [howed]; exact nofun⟩

theorem counted_congr (hcounts : o'.Counts p ↔ o.Counts p)
    (hheld : o'.held.count p = o.held.count p) : o'.counted p = o.counted p := by
  by_cases hc : o.Counts p
  · rw [counted, counted, if_pos hc, if_pos (hcounts.mpr hc), hheld]
  · rw [counted, counted, if_neg hc, if_neg (fun h => hc (hcounts.mp h)), hheld]

theorem counted_of_not_refers (h : ¬ o.Refers p) : o.counted p = 0 := by
  have hcounts : ¬ o.Counts p := fun ⟨v, hv, _⟩ => h (.inr ⟨v, hv⟩)
  rw [counted, if_neg hcounts, Multiset.count_eq_zero.mpr fun hp => h (.inl hp)]

theorem counted_of_counts (h : o.Counts p) (hheld : p ∉ o.held) : o.counted p = 1 := by
  rw [counted, if_pos h, Multiset.count_eq_zero.mpr hheld]

theorem counted_of_held (hheld : p ∈ o.held) (hnodup : o.held.Nodup)
    (hmap : ∀ v, o.frame v ≠ some p) :
    o.counted p = 1 := by
  have hcounts : ¬ o.Counts p := fun ⟨v, hv, _⟩ => hmap v hv
  rw [counted, if_neg hcounts, Multiset.count_eq_one_of_mem hnodup hheld]

end Owner

end Sharing

open Sharing

/-- All owners, the counts, and the frames that are used for something else. -/
structure Sharing (ι κ φ : Type*) where
  owner : ι → Owner ι κ φ
  refs : φ → ℕ
  other : φ → Bool

namespace Sharing

open Function (update_self update_of_ne update_apply forall_update_iff)

variable {ι κ φ : Type*} [Fintype ι] [DecidableEq ι] [DecidableEq κ] [DecidableEq φ]
  {S : Sharing ι κ φ} {i j : ι} {v w : κ} {p q : φ} {b : Bool} {o' : Owner ι κ φ} {refs' : φ → ℕ}

/-- Each frame has one place; an owner refers to a frame once; the counts are right;
a frame with an owned entry, a frame that has just been allocated and a frame that is
used for something else are not shared; an entry that is owed is mapped by the owner
it has been copied from. -/
structure Inv (S : Sharing ι κ φ) : Prop where
  home : ∀ {i j v w p}, (S.owner i).frame v = some p → (S.owner j).frame w = some p → v = w
  nodup : ∀ i, (S.owner i).held.Nodup
  disjoint : ∀ {i v p}, (S.owner i).frame v = some p → p ∉ (S.owner i).held
  count : ∀ p, S.refs p = ∑ i, (S.owner i).counted p + (S.other p).toNat
  other : ∀ {p}, S.other p = true → ∀ i, ¬ (S.owner i).Refers p
  own : ∀ {i v p}, (S.owner i).ent v = some (p, true) → ∀ j ≠ i, ¬ (S.owner j).Refers p
  fresh : ∀ {i p}, (S.owner i).fresh = some p → p ∈ (S.owner i).held ∧
    ∀ j ≠ i, ¬ (S.owner j).Refers p
  owed : ∀ {j i v}, (S.owner j).owed = some (i, v) → i ≠ j ∧ (S.owner i).owed = none ∧
    ∃ p, (S.owner j).ent v = some (p, false) ∧ (S.owner i).frame v = some p

namespace Inv

/-! ### What the counts say -/

section

variable (h : S.Inv)
include h

/-- An owner that refers to a frame is counted, or the owner it has copied from is. -/
theorem exists_counted (hrefers : (S.owner j).Refers p) :
    (S.owner j).counted p = 1 ∨ ∃ i v, (S.owner j).owed = some (i, v) ∧
      (S.owner j).frame v = some p ∧ (S.owner i).counted p = 1 := by
  rcases hrefers with hheld | ⟨v, hv⟩
  · refine .inl (Owner.counted_of_held hheld (h.nodup j) fun v hv => h.disjoint hv hheld)
  · by_cases howed : ∀ src, (S.owner j).owed ≠ some (src, v)
    · exact .inl (Owner.counted_of_counts ⟨v, hv, howed⟩ (h.disjoint hv))
    · push Not at howed
      obtain ⟨i, howed⟩ := howed
      obtain ⟨-, hnone, q, hent, hframe⟩ := h.owed howed
      obtain rfl : q = p := Option.some.inj ((Owner.frame_of_ent hent).symm.trans hv)
      refine .inr ⟨i, v, howed, hv, Owner.counted_of_counts ⟨v, hframe, ?_⟩ (h.disjoint hframe)⟩
      rw [hnone]
      exact nofun

omit [DecidableEq ι] [DecidableEq κ] in
theorem counted_le_one (i : ι) (p : φ) : (S.owner i).counted p ≤ 1 := by
  by_cases hcounts : (S.owner i).Counts p
  · obtain ⟨v, hv, howed⟩ := hcounts
    exact (Owner.counted_of_counts ⟨v, hv, howed⟩ (h.disjoint hv)).le
  · unfold Owner.counted
    rw [if_neg hcounts, Nat.zero_add]
    exact Multiset.nodup_iff_count_le_one.mp (h.nodup i) p

omit [DecidableEq ι] [DecidableEq κ] h in
theorem counted_le_sum (S : Sharing ι κ φ) (i : ι) (p : φ) :
    (S.owner i).counted p ≤ ∑ j, (S.owner j).counted p :=
  Finset.single_le_sum (f := fun j => (S.owner j).counted p) (fun _ _ => Nat.zero_le _)
    (Finset.mem_univ i)

omit [DecidableEq κ] h in
theorem counted_add_le_sum (S : Sharing ι κ φ) (hij : i ≠ j) (p : φ) :
    (S.owner i).counted p + (S.owner j).counted p ≤ ∑ k, (S.owner k).counted p := by
  have hsub : ({i, j} : Finset ι) ⊆ Finset.univ := Finset.subset_univ _
  have hle := Finset.sum_le_sum_of_subset (f := fun k => (S.owner k).counted p) hsub
  rwa [Finset.sum_pair hij] at hle

/-- A frame that somebody refers to has a count. -/
theorem refs_pos (hrefers : (S.owner j).Refers p) : 0 < S.refs p := by
  have hcount := h.count p
  rcases h.exists_counted hrefers with hone | ⟨i, v, -, -, hone⟩
  · have hle := counted_le_sum S j p
    omega
  · have hle := counted_le_sum S i p
    omega

theorem not_refers (hp : S.refs p = 0) (j : ι) : ¬ (S.owner j).Refers p :=
  fun hrefers => (h.refs_pos hrefers).ne' hp

omit [DecidableEq ι] [DecidableEq κ] in
theorem other_of_refers (hrefers : (S.owner j).Refers p) : S.other p = false := by
  by_contra hother
  exact h.other (by simpa using hother) j hrefers

omit [DecidableEq ι] [DecidableEq κ] in
/-- No count exceeds the number of owners, for a frame that somebody refers to. -/
theorem refs_le_card (hrefers : (S.owner j).Refers p) : S.refs p ≤ Fintype.card ι := by
  rw [h.count p, h.other_of_refers hrefers]
  have hle : ∑ i, (S.owner i).counted p ≤ ∑ _i : ι, 1 :=
    Finset.sum_le_sum fun i _ => h.counted_le_one i p
  simpa using hle

/-- With a count of one, the owner of a counted entry is alone, unless somebody copies
from it. -/
theorem alone (hv : (S.owner i).frame v = some p) (howed : (S.owner i).owed = none)
    (hsrc : ∀ j w, (S.owner j).owed ≠ some (i, w)) (hone : S.refs p = 1) (j : ι) (hj : j ≠ i) :
    ¬ (S.owner j).Refers p := by
  intro hrefers
  have hi : (S.owner i).counted p = 1 := by
    refine Owner.counted_of_counts ⟨v, hv, ?_⟩ (h.disjoint hv)
    rw [howed]
    exact nofun
  have hcount := h.count p
  rcases h.exists_counted hrefers with hj1 | ⟨k, w, hkowed, -, hk1⟩
  · have hle := counted_add_le_sum S hj p
    omega
  · have hki : k ≠ i := by
      rintro rfl
      exact hsrc j w hkowed
    have hle := counted_add_le_sum S hki p
    omega

/-! ### Changing one owner -/

omit [DecidableEq κ] in
/-- The other owners see of a change only what the changed owner refers to. -/
theorem update (hrefers : ∀ p, o'.Refers p → (S.owner i).Refers p ∨ S.other p = false ∧
      ∀ j ≠ i, (∀ v, (S.owner j).ent v ≠ some (p, true)) ∧ (S.owner j).fresh ≠ some p)
    (hhome : ∀ v p, o'.frame v = some p → ∀ j w, j ≠ i → (S.owner j).frame w = some p → w = v)
    (hself : ∀ v w p, o'.frame v = some p → o'.frame w = some p → v = w)
    (hnodup : o'.held.Nodup) (hdisjoint : ∀ v p, o'.frame v = some p → p ∉ o'.held)
    (hcount : ∀ p, refs' p + (S.owner i).counted p = S.refs p + o'.counted p)
    (hown : ∀ v p, o'.ent v = some (p, true) → ∀ j ≠ i, ¬ (S.owner j).Refers p)
    (hfresh : ∀ p, o'.fresh = some p → p ∈ o'.held ∧ ∀ j ≠ i, ¬ (S.owner j).Refers p)
    (howed : ∀ src v, o'.owed = some (src, v) → src ≠ i ∧ (S.owner src).owed = none ∧
      ∃ p, o'.ent v = some (p, false) ∧ (S.owner src).frame v = some p)
    (hsrc : ∀ j v, (S.owner j).owed = some (i, v) → o'.owed = none ∧
      o'.frame v = (S.owner i).frame v) : Inv ⟨Function.update S.owner i o', refs', S.other⟩ := by
  have hi : Function.update S.owner i o' i = o' := update_self ..
  have hne : ∀ {j}, j ≠ i → Function.update S.owner i o' j = S.owner j :=
    fun hj => update_of_ne hj ..
  constructor <;> dsimp only
  · intro j k v w p hv hw
    by_cases hj : j = i
    · rw [hj, hi] at hv
      by_cases hk : k = i
      · rw [hk, hi] at hw
        exact hself v w p hv hw
      · rw [hne hk] at hw
        exact (hhome v p hv k w hk hw).symm
    · rw [hne hj] at hv
      by_cases hk : k = i
      · rw [hk, hi] at hw
        exact hhome w p hw j v hj hv
      · rw [hne hk] at hw
        exact h.home hv hw
  · exact (forall_update_iff S.owner fun _ o => o.held.Nodup).mpr ⟨hnodup, fun j _ => h.nodup j⟩
  · intro j
    exact (forall_update_iff S.owner fun _ o => ∀ {v p}, o.frame v = some p → p ∉ o.held).mpr
      ⟨fun {v p} => hdisjoint v p, fun j _ => h.disjoint⟩ j
  · intro p
    have hsum := SumUpdate.sum_update_add (fun o : Owner ι κ φ => o.counted p) S.owner i o'
    have hold := h.count p
    have hnew := hcount p
    omega
  · intro p hother
    refine (forall_update_iff S.owner fun _ o => ¬ o.Refers p).mpr
      ⟨fun hnew => ?_, fun j _ => h.other hother j⟩
    rcases hrefers p hnew with hold | ⟨hfalse, -⟩
    · exact h.other hother i hold
    · exact nomatch hfalse.symm.trans hother
  · intro j v p hent k hk
    rcases eq_or_ne j i with rfl | hj
    · rw [hi] at hent
      rw [hne hk]
      exact hown v p hent k hk
    · rw [hne hj] at hent
      rcases eq_or_ne k i with rfl | hki
      · rw [hi]
        intro hnew
        rcases hrefers p hnew with hold | ⟨-, hothers⟩
        · exact h.own hent k hk hold
        · exact (hothers j hj).1 v hent
      · rw [hne hki]
        exact h.own hent k hk
  · intro j p hfr
    rcases eq_or_ne j i with rfl | hj
    · rw [hi] at hfr ⊢
      refine ⟨(hfresh p hfr).1, fun k hk => ?_⟩
      rw [hne hk]
      exact (hfresh p hfr).2 k hk
    · rw [hne hj] at hfr ⊢
      refine ⟨(h.fresh hfr).1, fun k hk => ?_⟩
      rcases eq_or_ne k i with rfl | hki
      · rw [hi]
        intro hnew
        rcases hrefers p hnew with hold | ⟨-, hothers⟩
        · exact (h.fresh hfr).2 k hk hold
        · exact (hothers j hj).2 hfr
      · rw [hne hki]
        exact (h.fresh hfr).2 k hk
  · intro j src v how
    rcases eq_or_ne j i with rfl | hj
    · rw [hi] at how ⊢
      obtain ⟨hsrcj, hnone, p, hent, hframe⟩ := howed src v how
      rw [hne hsrcj]
      exact ⟨hsrcj, hnone, p, hent, hframe⟩
    · rw [hne hj] at how ⊢
      obtain ⟨hsrcj, hnone, p, hent, hframe⟩ := h.owed how
      rcases eq_or_ne src i with rfl | hsi
      · rw [hi]
        obtain ⟨hnone', hframe'⟩ := hsrc j v how
        exact ⟨hsrcj, hnone', p, hent, hframe'.trans hframe⟩
      · rw [hne hsi]
        exact ⟨hsrcj, hnone, p, hent, hframe⟩

/-! ### The operations -/

theorem alloc (hp : S.refs p = 0) :
    Inv ⟨Function.update S.owner i ((S.owner i).alloc p), Function.update S.refs p 1, S.other⟩ := by
  have hnot := h.not_refers hp
  have hother : S.other p = false := by
    have hcount := h.count p
    by_contra hne
    rw [Bool.not_eq_false] at hne
    rw [hne, Bool.toNat_true] at hcount
    omega
  have hnodup : (p ::ₘ (S.owner i).held).Nodup :=
    Multiset.nodup_cons.mpr ⟨fun hmem => hnot i (.inl hmem), h.nodup i⟩
  refine h.update ?_ (fun v q hv j w _ hw => h.home hw hv) (fun v w q => h.home) hnodup ?_ ?_
    (fun v q hent => h.own hent) ?_ (fun src v => h.owed) (fun j v how => ⟨(h.owed how).2.1, rfl⟩)
  · rintro q (hq | hq)
    · rcases Multiset.mem_cons.mp hq with rfl | hq
      · refine .inr ⟨hother, fun j _ => ⟨fun v hent => ?_, fun hfr => ?_⟩⟩
        · exact hnot j (.inr ⟨v, Owner.frame_of_ent hent⟩)
        · exact hnot j (.inl (h.fresh hfr).1)
      · exact .inl (.inl hq)
    · exact .inl (.inr hq)
  · intro v q hv hmem
    rcases Multiset.mem_cons.mp hmem with rfl | hmem
    · exact hnot i (.inr ⟨v, hv⟩)
    · exact h.disjoint hv hmem
  · intro q
    rcases eq_or_ne q p with rfl | hne
    · have hone : ((S.owner i).alloc q).counted q = 1 :=
        Owner.counted_of_held (Multiset.mem_cons_self q _) hnodup fun v hv => hnot i (.inr ⟨v, hv⟩)
      rw [update_self, Owner.counted_of_not_refers (hnot i), hp, hone]
    · have hsame : ((S.owner i).alloc p).counted q = (S.owner i).counted q :=
        Owner.counted_congr .rfl (Multiset.count_cons_of_ne hne _)
      rw [update_of_ne hne, hsame]
  · intro q hq
    cases hq
    exact ⟨Multiset.mem_cons_self _ _, fun j _ => hnot j⟩

theorem map (hfresh : (S.owner i).fresh = some p) (hv : (S.owner i).ent v = none)
    (howed : (S.owner i).owed = none) :
    Inv ⟨Function.update S.owner i ((S.owner i).map v p b), S.refs, S.other⟩ := by
  obtain ⟨hmem, hothers⟩ := h.fresh hfresh
  have hmap : ∀ w, (S.owner i).frame w ≠ some p := fun w hw => h.disjoint hw hmem
  have hnone : (S.owner i).frame v = none := by rw [Owner.frame, hv]; rfl
  have hnotmem : p ∉ (S.owner i).held.erase p := (h.nodup i).notMem_erase
  have hframe : ∀ {w q}, ((S.owner i).map v p b).frame w = some q →
      w = v ∧ q = p ∨ w ≠ v ∧ (S.owner i).frame w = some q := Owner.frame_eq_some_of_update rfl
  have hnew : ((S.owner i).map v p b).frame v = some p := by
    rw [Owner.frame_update rfl, if_pos rfl]
    rfl
  have howed' : ((S.owner i).map v p b).owed = none := howed
  refine h.update ?_ ?_ (fun w x q => Owner.frame_inj_of_update rfl hmap h.home)
    ((h.nodup i).erase p) ?_ ?_ ?_ nofun (fun src w how => nomatch howed.symm.trans how) ?_
  · rintro q (hq | ⟨w, hw⟩)
    · exact .inl (.inl (Multiset.mem_of_mem_erase hq))
    · rcases hframe hw with ⟨-, rfl⟩ | ⟨-, hw⟩
      · exact .inl (.inl hmem)
      · exact .inl (.inr ⟨w, hw⟩)
  · intro w q hw j x hj hx
    rcases hframe hw with ⟨-, rfl⟩ | ⟨-, hw⟩
    · exact absurd (.inr ⟨x, hx⟩) (hothers j hj)
    · exact h.home hx hw
  · intro w q hw hq
    rcases hframe hw with ⟨-, rfl⟩ | ⟨-, hw⟩
    · exact hnotmem hq
    · exact h.disjoint hw (Multiset.mem_of_mem_erase hq)
  · intro q
    congr 1
    rcases eq_or_ne q p with rfl | hne
    · rw [Owner.counted_of_held hmem (h.nodup i) hmap]
      refine (Owner.counted_of_counts ?_ hnotmem).symm
      exact (Owner.counts_iff howed').mpr ⟨v, hnew⟩
    · symm
      refine Owner.counted_congr ?_ (Multiset.count_erase_of_ne hne _)
      rw [Owner.counts_iff howed', Owner.counts_iff howed]
      refine exists_congr (Owner.exists_frame_update rfl ?_ ?_)
      · rw [hnone]
        exact nofun
      · exact fun heq => hne (Option.some.inj heq).symm
  · intro w q hent j hj
    rcases hframe (Owner.frame_of_ent hent) with ⟨-, rfl⟩ | ⟨hwv, -⟩
    · exact hothers j hj
    · exact h.own ((update_of_ne hwv _ _).symm.trans hent) j hj
  · intro j w how
    obtain ⟨-, -, q, hent, hframe'⟩ := h.owed how
    refine ⟨howed, (Owner.frame_update rfl).trans (if_neg ?_)⟩
    rintro rfl
    rw [hnone] at hframe'
    cases hframe'

/-- A mapped frame is taken out, and its reference is held. -/
theorem unmap (hent : (S.owner i).ent v = some (p, b)) (howed : (S.owner i).owed = none)
    (hsrc : ∀ j, (S.owner j).owed ≠ some (i, v)) :
    Inv ⟨Function.update S.owner i ((S.owner i).unmap v p), S.refs, S.other⟩ := by
  have hv := Owner.frame_of_ent hent
  have hnodup : (p ::ₘ (S.owner i).held).Nodup :=
    Multiset.nodup_cons.mpr ⟨h.disjoint hv, h.nodup i⟩
  have hframe : ∀ {w q}, ((S.owner i).unmap v p).frame w = some q →
      w ≠ v ∧ (S.owner i).frame w = some q := by
    intro w q hw
    rw [Owner.frame_update rfl] at hw
    split_ifs at hw with hwv
    · cases hw
    · exact ⟨hwv, hw⟩
  have hother : ∀ {w}, ((S.owner i).unmap v p).frame w ≠ some p :=
    fun hw => (hframe hw).1 (h.home (hframe hw).2 hv)
  have howed' : ((S.owner i).unmap v p).owed = none := howed
  refine h.update ?_ (fun w q hw j x _ hx => h.home hx (hframe hw).2)
    (fun w x q hw hx => h.home (hframe hw).2 (hframe hx).2) hnodup ?_ ?_ ?_ ?_
    (fun src w how => nomatch howed.symm.trans how) ?_
  · rintro q (hq | ⟨w, hw⟩)
    · rcases Multiset.mem_cons.mp hq with rfl | hq
      · exact .inl (.inr ⟨v, hv⟩)
      · exact .inl (.inl hq)
    · exact .inl (.inr ⟨w, (hframe hw).2⟩)
  · intro w q hw hq
    rcases Multiset.mem_cons.mp hq with rfl | hq
    · exact hother hw
    · exact h.disjoint (hframe hw).2 hq
  · intro q
    congr 1
    rcases eq_or_ne q p with rfl | hne
    · rw [Owner.counted_of_counts ((Owner.counts_iff howed).mpr ⟨v, hv⟩) (h.disjoint hv)]
      exact (Owner.counted_of_held (Multiset.mem_cons_self q _) hnodup fun w => hother).symm
    · symm
      refine Owner.counted_congr ?_ (Multiset.count_cons_of_ne hne _)
      rw [Owner.counts_iff howed', Owner.counts_iff howed]
      refine exists_congr (Owner.exists_frame_update rfl ?_ nofun)
      rw [hv]
      exact fun heq => hne (Option.some.inj heq).symm
  · intro w q hent' j hj
    have hwv := (hframe (Owner.frame_of_ent hent')).1
    exact h.own ((update_of_ne hwv _ _).symm.trans hent') j hj
  · intro q hq
    obtain ⟨hmem, hothers⟩ := h.fresh (i := i) hq
    exact ⟨Multiset.mem_cons_of_mem hmem, hothers⟩
  · intro j w how
    refine ⟨howed, ?_⟩
    rw [Owner.frame_update rfl, if_neg]
    rintro rfl
    exact hsrc j how

/-- A reference that is held is dropped. -/
theorem free (hmem : p ∈ (S.owner i).held) (hfresh : (S.owner i).fresh ≠ some p) :
    Inv ⟨Function.update S.owner i ((S.owner i).free p),
      Function.update S.refs p (S.refs p - 1), S.other⟩ := by
  have hmap : ∀ w, (S.owner i).frame w ≠ some p := fun w hw => h.disjoint hw hmem
  have hpos := h.refs_pos (.inl hmem)
  refine h.update ?_ (fun w q hw j x _ hx => h.home hx hw) (fun w x q => h.home)
    ((h.nodup i).erase p) (fun w q hw hq => h.disjoint hw (Multiset.mem_of_mem_erase hq)) ?_
    (fun w q hent => h.own hent) ?_ (fun src w => h.owed) (fun j w how => ⟨(h.owed how).2.1, rfl⟩)
  · rintro q (hq | hq)
    · exact .inl (.inl (Multiset.mem_of_mem_erase hq))
    · exact .inl (.inr hq)
  · intro q
    rcases eq_or_ne q p with rfl | hne
    · have hzero : ((S.owner i).free q).counted q = 0 := by
        refine Owner.counted_of_not_refers ?_
        rintro (hq | ⟨w, hw⟩)
        · exact (h.nodup i).notMem_erase hq
        · exact hmap w hw
      rw [update_self, Owner.counted_of_held hmem (h.nodup i) hmap, hzero]
      omega
    · have hsame : ((S.owner i).free p).counted q = (S.owner i).counted q :=
        Owner.counted_congr .rfl (Multiset.count_erase_of_ne hne _)
      rw [update_of_ne hne, hsame]
  · intro q hq
    obtain ⟨hq', hothers⟩ := h.fresh (i := i) hq
    refine ⟨(Multiset.mem_erase_of_ne ?_).mpr hq', hothers⟩
    rintro rfl
    exact hfresh hq

/-- The mark of an entry changes; it may be set only where nobody else refers to the
frame. -/
theorem mark {b' : Bool} (hent : (S.owner i).ent v = some (p, b)) (howed : (S.owner i).owed = none)
    (hown : b' = true → b = true ∨ ∀ j ≠ i, ¬ (S.owner j).Refers p) :
    Inv ⟨Function.update S.owner i ((S.owner i).mark v p b'), S.refs, S.other⟩ := by
  have hframe : ∀ w, ((S.owner i).mark v p b').frame w = (S.owner i).frame w := by
    intro w
    rw [Owner.frame_update rfl]
    split_ifs with hwv
    · rw [hwv, Owner.frame_of_ent hent]
      rfl
    · rfl
  have howed' : ((S.owner i).mark v p b').owed = none := howed
  refine h.update ?_ (fun w q hw j x _ hx => h.home hx ((hframe w).symm.trans hw))
    (fun w x q hw hx => h.home ((hframe w).symm.trans hw) ((hframe x).symm.trans hx)) (h.nodup i)
    (fun w q hw => h.disjoint ((hframe w).symm.trans hw)) ?_ ?_ (fun q => h.fresh)
    (fun src w how => nomatch howed.symm.trans how) (fun j w how => ⟨howed, hframe w⟩)
  · rintro q (hq | ⟨w, hw⟩)
    · exact .inl (.inl hq)
    · exact .inl (.inr ⟨w, (hframe w).symm.trans hw⟩)
  · intro q
    congr 1
    symm
    refine Owner.counted_congr ?_ rfl
    rw [Owner.counts_iff howed', Owner.counts_iff howed]
    exact exists_congr fun w => by rw [hframe]
  · intro w q hent' j hj
    rcases eq_or_ne w v with rfl | hwv
    · have hnew := (update_self ..).symm.trans hent'
      obtain ⟨rfl, rfl⟩ := Prod.mk.inj (Option.some.inj hnew)
      rcases hown rfl with rfl | halone
      · exact h.own hent j hj
      · exact halone j hj
    · exact h.own ((update_of_ne hwv _ _).symm.trans hent') j hj

/-- An entry that is not marked is copied to an owner that does not know the frame.
The copy is not counted yet. -/
theorem share (hij : i ≠ j) (hent : (S.owner i).ent v = some (p, false))
    (howed : (S.owner i).owed = none) (hj : (S.owner j).owed = none) (hnot : ¬ (S.owner j).Refers p)
    (hv : (S.owner j).ent v = none) (hsrc : ∀ k w, (S.owner k).owed ≠ some (j, w)) :
    Inv ⟨Function.update S.owner j ((S.owner j).share i v p), S.refs, S.other⟩ := by
  have hi := Owner.frame_of_ent hent
  have hrefers : (S.owner i).Refers p := .inr ⟨v, hi⟩
  have hframe : ∀ {w q}, ((S.owner j).share i v p).frame w = some q →
      w = v ∧ q = p ∨ w ≠ v ∧ (S.owner j).frame w = some q := Owner.frame_eq_some_of_update rfl
  refine h.update ?_ ?_
    (fun w x q => Owner.frame_inj_of_update rfl (fun w hw => hnot (.inr ⟨w, hw⟩))
    h.home) (h.nodup j) ?_ ?_ ?_ (fun q => h.fresh) ?_
    (fun k w how => absurd how (hsrc k w))
  · rintro q (hq | ⟨w, hw⟩)
    · exact .inl (.inl hq)
    · rcases hframe hw with ⟨-, rfl⟩ | ⟨-, hw⟩
      · refine .inr ⟨h.other_of_refers hrefers, fun k _ => ⟨fun x hx => ?_, fun hfr => ?_⟩⟩
        · -- only the owner copied from could have marked it, and it has not
          by_cases hki : k = i
          · subst hki
            obtain rfl := h.home (Owner.frame_of_ent hx) hi
            rw [hent] at hx
            cases hx
          · exact h.own hx i (Ne.symm hki) hrefers
        · by_cases hki : k = i
          · subst hki
            exact h.disjoint hi (h.fresh hfr).1
          · exact (h.fresh hfr).2 i (Ne.symm hki) hrefers
      · exact .inl (.inr ⟨w, hw⟩)
  · intro w q hw k x _ hx
    rcases hframe hw with ⟨rfl, rfl⟩ | ⟨-, hw⟩
    · exact h.home hx hi
    · exact h.home hx hw
  · intro w q hw hq
    rcases hframe hw with ⟨-, rfl⟩ | ⟨-, hw⟩
    · exact hnot (.inl hq)
    · exact h.disjoint hw hq
  · intro q
    congr 1
    symm
    refine Owner.counted_congr ⟨?_, ?_⟩ rfl
    · rintro ⟨w, hw, hwo⟩
      rcases hframe hw with ⟨rfl, -⟩ | ⟨-, hw⟩
      · exact absurd rfl (hwo i)
      · exact (Owner.counts_iff hj).mpr ⟨w, hw⟩
    · rintro ⟨w, hw, -⟩
      have hwv : w ≠ v := by
        rintro rfl
        rw [Owner.frame, hv] at hw
        cases hw
      refine ⟨w, ?_, fun src heq => ?_⟩
      · rw [Owner.frame_update rfl, if_neg hwv, hw]
      · exact hwv (Prod.mk.inj (Option.some.inj heq)).2.symm
  · intro w q hent' k hk
    rcases hframe (Owner.frame_of_ent hent') with ⟨rfl, -⟩ | ⟨hwv, -⟩
    · have hnew := (update_self ..).symm.trans hent'
      cases hnew
    · exact h.own ((update_of_ne hwv _ _).symm.trans hent') k hk
  · intro src w heq
    obtain ⟨rfl, rfl⟩ := Prod.mk.inj (Option.some.inj heq)
    exact ⟨hij, howed, p, update_self .., hi⟩

omit [DecidableEq κ] in
/-- The copied entry is counted. -/
theorem settle (howed : (S.owner j).owed = some (i, v)) (hv : (S.owner j).frame v = some p) :
    Inv ⟨Function.update S.owner j (S.owner j).settle,
      Function.update S.refs p (S.refs p + 1), S.other⟩ := by
  have hself : (S.owner j).settle.owed = none := rfl
  refine h.update (fun q hq => .inl hq) (fun w q hw k x _ hx => h.home hx hw)
    (fun w x q => h.home) (h.nodup j) (fun w q => h.disjoint) ?_ (fun w q hent => h.own hent)
    (fun q => h.fresh) nofun (fun k w how => ⟨rfl, rfl⟩)
  intro q
  rcases eq_or_ne q p with rfl | hne
  · have hone : (S.owner j).settle.counted q = 1 :=
      Owner.counted_of_counts ((Owner.counts_iff hself).mpr ⟨v, hv⟩) (h.disjoint hv)
    have hzero : (S.owner j).counted q = 0 := by
      have hcounts : ¬ (S.owner j).Counts q := by
        rintro ⟨w, hw, hwo⟩
        obtain rfl := h.home hw hv
        exact hwo i howed
      rw [Owner.counted, if_neg hcounts, Multiset.count_eq_zero.mpr (h.disjoint hv)]
    rw [update_self, hone, hzero]
  · have hsame : (S.owner j).settle.counted q = (S.owner j).counted q := by
      refine Owner.counted_congr ?_ rfl
      rw [Owner.counts_iff hself]
      refine exists_congr fun w => ⟨fun hw => ⟨hw, fun src heq => ?_⟩, fun hw => hw.1⟩
      rw [howed] at heq
      obtain ⟨-, rfl⟩ := Prod.mk.inj (Option.some.inj heq)
      exact hne (Option.some.inj (hw.symm.trans hv))
    rw [update_of_ne hne, hsame]

omit [DecidableEq κ] in
/-- An allocated frame that will not be mapped is held like any other. -/
theorem giveUp : Inv ⟨Function.update S.owner i (S.owner i).giveUp, S.refs, S.other⟩ := by
  refine h.update (fun q hq => .inl hq) (fun w q hw k x _ hx => h.home hx hw)
    (fun w x q => h.home) (h.nodup i) (fun w q => h.disjoint) (fun q => ?_)
    (fun w q hent => h.own hent) nofun (fun src w => h.owed)
    (fun k w how => ⟨(h.owed how).2.1, rfl⟩)
  rfl

end

end Inv

/-! ### Any operation -/

/-- What one owner does to its entries and references; `tau` is anything else. -/
inductive Act (ι κ φ : Type*)
  | tau
  | alloc (p : φ)
  | map (v : κ) (p : φ) (b : Bool)
  | unmap (v : κ) (p : φ)
  | free (p : φ)
  | mark (v : κ) (p : φ) (b : Bool)
  | share (src : ι) (v : κ) (p : φ)
  | settle (p : φ)
  | giveUp

/-- The owner after the operation. -/
def Owner.act (o : Owner ι κ φ) : Act ι κ φ → Owner ι κ φ
  | .tau => o
  | .alloc p => o.alloc p
  | .map v p b => o.map v p b
  | .unmap v p => o.unmap v p
  | .free p => o.free p
  | .mark v p b => o.mark v p b
  | .share src v p => o.share src v p
  | .settle _ => o.settle
  | .giveUp => o.giveUp

/-- The counts after the operation. -/
def Act.refs (refs : φ → ℕ) : Act ι κ φ → φ → ℕ
  | .alloc p => Function.update refs p 1
  | .free p => Function.update refs p (refs p - 1)
  | .settle p => Function.update refs p (refs p + 1)
  | _ => refs

/-- The owner `i` may do this. -/
def Allows (S : Sharing ι κ φ) (i : ι) : Act ι κ φ → Prop
  | .tau | .giveUp => True
  | .alloc p => S.refs p = 0
  | .map v p _ => (S.owner i).fresh = some p ∧ (S.owner i).ent v = none ∧ (S.owner i).owed = none
  | .unmap v p => (∃ b, (S.owner i).ent v = some (p, b)) ∧ (S.owner i).owed = none ∧
      ∀ j, (S.owner j).owed ≠ some (i, v)
  | .free p => p ∈ (S.owner i).held ∧ (S.owner i).fresh ≠ some p
  | .mark v p b' => ∃ b, (S.owner i).ent v = some (p, b) ∧ (S.owner i).owed = none ∧
      (b' = true → b = true ∨ S.refs p = 1 ∧ ∀ j w, (S.owner j).owed ≠ some (i, w))
  | .share src v p => src ≠ i ∧ (S.owner src).ent v = some (p, false) ∧
      (S.owner src).owed = none ∧ (S.owner i).owed = none ∧ p ∉ (S.owner i).held ∧
      (S.owner i).ent v = none ∧ ∀ k w, (S.owner k).owed ≠ some (i, w)
  | .settle p => ∃ src v, (S.owner i).owed = some (src, v) ∧ (S.owner i).frame v = some p

namespace Inv

/-- **Every operation keeps the invariant.** -/
theorem act (h : S.Inv) {a : Act ι κ φ} (ha : S.Allows i a) :
    Inv ⟨Function.update S.owner i ((S.owner i).act a), a.refs S.refs, S.other⟩ := by
  cases a with
  | tau =>
    simp only [Owner.act, Act.refs, Function.update_eq_self]
    exact h
  | alloc p => exact h.alloc ha
  | map v p b => exact h.map ha.1 ha.2.1 ha.2.2
  | unmap v p =>
    obtain ⟨⟨b, hent⟩, howed, hsrc⟩ := ha
    exact h.unmap hent howed hsrc
  | free p => exact h.free ha.1 ha.2
  | mark v p b' =>
    obtain ⟨b, hent, howed, hmark⟩ := ha
    refine h.mark hent howed fun hb => (hmark hb).imp_right fun ⟨hone, hsrc⟩ => ?_
    exact h.alone (Owner.frame_of_ent hent) howed hsrc hone
  | share src v p =>
    obtain ⟨hne, hent, howed, hself, hheld, hv, hsrc⟩ := ha
    refine h.share hne hent howed hself ?_ hv hsrc
    -- the frame has its place, which is empty here
    rintro (hmem | ⟨w, hw⟩)
    · exact hheld hmem
    · have hwv : w = v := h.home hw (Owner.frame_of_ent hent)
      rw [hwv, Owner.frame, hv] at hw
      cases hw
  | settle p =>
    obtain ⟨src, v, howed, hv⟩ := ha
    exact h.settle howed hv
  | giveUp => exact h.giveUp

omit [DecidableEq ι] [DecidableEq κ] in
/-- A frame to which no owner refers is used for something else, or no longer. -/
theorem setOther (h : S.Inv) (hp : ∀ i, ¬ (S.owner i).Refers p) (used : Bool) :
    Inv ⟨S.owner, Function.update S.refs p used.toNat, Function.update S.other p used⟩ := by
  refine { h with count := fun q => ?_, other := fun {q} hq i => ?_ }
  all_goals dsimp only at *
  all_goals rcases eq_or_ne q p with rfl | hne
  · rw [update_self, update_self, Finset.sum_eq_zero, Nat.zero_add]
    exact fun i _ => Owner.counted_of_not_refers (hp i)
  · rw [update_of_ne hne, update_of_ne hne, h.count q]
  · exact hp i
  · rw [update_of_ne hne] at hq
    exact h.other hq i

omit [DecidableEq ι] [DecidableEq κ] in
/-- What something else uses has one reference. -/
theorem refs_of_other (h : S.Inv) (hp : S.other p = true) : S.refs p = 1 := by
  rw [h.count p, hp, Finset.sum_eq_zero fun i _ => Owner.counted_of_not_refers (h.other hp i)]
  rfl

end Inv

end Sharing
