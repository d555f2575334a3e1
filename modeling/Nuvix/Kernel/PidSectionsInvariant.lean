import Nuvix.Kernel.Session
import Nuvix.Kernel.PidMoves

/-!
# The identifier tables between any two sections

`Wf` of `PidInvariant.lean` ties the counts and the lists to the tasks. This file adds
the hash table, the number bitmap and the objects in progress, and carries all of it
along every interleaving of the locked sections.
-/

namespace Nuvix.PidTable

open Transition Function

variable {s s' : State} {t p q : ℕ}

/-! ### The search for a number -/

/-- The number found is in range and its bit is clear. -/
theorem findNr_spec {nr : ℕ} (hnext : pidInit ≤ s.nextPid ∧ s.nextPid < pidMax)
    (h : findNr s = some nr) : pidInit ≤ nr ∧ nr < pidMax ∧ s.pidmap nr = false := by
  unfold findNr at h
  extract_lets first second at h
  have hfirst : first ≤ pidMax := Bitmap.findNextZero_le
  have hsecond : second ≤ s.nextPid := Bitmap.findNextZero_le
  split at h
  · split at h
    · cases h
    next hne =>
      obtain rfl := Option.some.inj h
      have hlt : second < s.nextPid := lt_of_le_of_ne hsecond hne
      exact ⟨Bitmap.le_findNextZero hlt, by omega, Bitmap.findNextZero_clear hlt⟩
  next hne =>
    obtain rfl := Option.some.inj h
    have hlt : first < pidMax := lt_of_le_of_ne hfirst hne
    exact ⟨hnext.1.trans (Bitmap.le_findNextZero hlt), hlt, Bitmap.findNextZero_clear hlt⟩

/-- The two searches together look at every number a process can have. -/
theorem findNr_eq_none_iff (hnext : pidInit ≤ s.nextPid ∧ s.nextPid < pidMax) :
    findNr s = none ↔ ∀ n, pidInit ≤ n → n < pidMax → s.pidmap n = true := by
  constructor
  · intro h n hlo hhi
    by_contra hclear
    rw [Bool.not_eq_true] at hclear
    unfold findNr at h
    extract_lets first second at h
    split at h
    next hfirst =>
      split at h
      next hsecond =>
        -- A clear bit lies in one of the two ranges.
        by_cases hn : n < s.nextPid
        · have := Bitmap.findNextZero_lt_iff.mpr ⟨n, hlo, hn, hclear⟩
          omega
        · have := Bitmap.findNextZero_lt_iff.mpr ⟨n, not_lt.mp hn, hhi, hclear⟩
          omega
      next => cases h
    next => cases h
  · intro hall
    cases h : findNr s with
    | none => rfl
    | some nr =>
      obtain ⟨hlo, hhi, hclear⟩ := findNr_spec hnext h
      rw [hall nr hlo hhi] at hclear
      cases hclear

/-! ### The invariant -/

namespace Sections

variable {x y : Sections} {child : ℕ}

/-- The invariant of the sections. -/
structure Inv (x : Sections) : Prop where
  wf : Wf x.s
  hashed : Hashed x.s
  nrInj : ∀ p q, x.Live p → x.Live q → (x.s.pid p).nr = (x.s.pid q).nr → p = q
  bit : ∀ n, x.s.pidmap n = true ↔ n = 0 ∨ x.InUse n
  range : ∀ p, x.Live p → pidInit ≤ (x.s.pid p).nr ∧ (x.s.pid p).nr < pidMax
  next : pidInit ≤ x.s.nextPid ∧ x.s.nextPid < pidMax
  dead : ∀ p ∈ x.dying, (x.s.pid p).refcount = 0
  nodup : x.dying.Nodup
  /-- A pending object is known to its allocator only. -/
  owned : ∀ p ∈ x.pending.map Prod.snd, p ∈ x.s.held ∧ ¬ Slotted x.s p
  owners : (x.pending.map Prod.snd).Nodup

/-- Which objects are live, and with which number, decides what the bitmap must say. -/
theorem Inv.of_live (h : x.Inv) (hwf : Wf y.s) (hhashed : Hashed y.s)
    (hmap : y.s.pidmap = x.s.pidmap) (hnextPid : y.s.nextPid = x.s.nextPid)
    (hnr : ∀ p, (y.s.pid p).nr = (x.s.pid p).nr) (hlive : ∀ p, y.Live p ↔ x.Live p)
    (hdead : ∀ p ∈ y.dying, (y.s.pid p).refcount = 0) (hnodup : y.dying.Nodup)
    (howned : ∀ p ∈ y.pending.map Prod.snd, p ∈ y.s.held ∧ ¬ Slotted y.s p)
    (howners : (y.pending.map Prod.snd).Nodup) : y.Inv where
  wf := hwf
  hashed := hhashed
  nrInj := by
    intro p q hp hq hpq
    rw [hnr, hnr] at hpq
    exact h.nrInj p q ((hlive p).mp hp) ((hlive q).mp hq) hpq
  bit := by
    intro n
    rw [hmap, h.bit]
    simp only [InUse, hlive, hnr]
  range := by
    intro p hp
    rw [hnr]
    exact h.range p ((hlive p).mp hp)
  next := by
    rw [hnextPid]
    exact h.next
  dead := hdead
  nodup := hnodup
  owned := howned
  owners := howners

/-- A function that is one section. -/
theorem Inv.whole (h : x.Inv) (hwf : Wf s') (hhashed : Hashed s') (hmoved : Moved x.s s') :
    Inv { x with s := s' } := by
  have hrefs : ∀ p, 0 < (s'.pid p).refcount ↔ 0 < (x.s.pid p).refcount := by
    intro p
    rw [hwf.refcount_pos_iff, h.wf.refcount_pos_iff]
    constructor
    · rintro (hp | hp)
      · exact hmoved.taken p hp
      · exact .inr (hmoved.slotted p hp)
    · rintro (hp | hp)
      · exact .inl (hmoved.held p hp)
      · exact (hmoved.kept p hp).symm
  refine h.of_live hwf hhashed hmoved.pidmap hmoved.nextPid hmoved.nr ?_ ?_ h.nodup ?_ h.owners
  · intro p
    unfold Live
    rw [hrefs]
  · intro p hp
    have hzero := h.dead p hp
    have := hrefs p
    change (s'.pid p).refcount = 0
    omega
  · intro p hp
    obtain ⟨hheld, hslot⟩ := h.owned p hp
    exact ⟨hmoved.held p hheld, fun hs => hslot (hmoved.slotted p hs)⟩

/-- `pid_alloc` takes an unused object and a number whose bit was clear. -/
theorem Inv.alloc (h : x.Inv) (hp : x.Unused p) (hok : pidAlloc x.s p = .ok s') (t : ℕ) :
    Inv { x with s := { s' with held := p :: s'.held }, pending := (t, p) :: x.pending } := by
  unfold pidAlloc at hok
  split at hok
  · cases hok
  next nr hfind =>
  obtain ⟨hlo, hhi, hclear⟩ := findNr_spec h.next hfind
  obtain rfl := Except.ok.inj hok
  have hpslot : p ∉ x.s.held ∧ ¬ Slotted x.s p := by
    rw [← not_or, ← h.wf.refcount_pos_iff, hp.1]
    exact Nat.lt_irrefl 0
  -- A live object has a number in use, and `nr` is not in use.
  have hnrlive : ∀ q, x.Live q → (x.s.pid q).nr ≠ nr := by
    rintro q hq rfl
    rw [(h.bit _).mpr (.inr ⟨q, hq, rfl⟩)] at hclear
    cases hclear
  have hpdead : ¬ x.Live p := by
    rintro (hpos | hdying)
    · rw [hp.1] at hpos
      exact Nat.lt_irrefl 0 hpos
    · exact hp.2 hdying
  set y : Sections := { x with
    s := { x.s with
      pidmap := update x.s.pidmap nr true
      nextPid := if nr + 1 = pidMax then pidInit else nr + 1
      pid := update x.s.pid p { refcount := 1, nr := nr, tasks := fun _ => [] }
      held := p :: x.s.held }
    pending := (t, p) :: x.pending } with hy
  have hat : ∀ q ≠ p, y.s.pid q = x.s.pid q := fun q hq => update_of_ne hq _ _
  have hself : y.s.pid p = { refcount := 1, nr := nr, tasks := fun _ => [] } :=
    update_self ..
  have hlive : ∀ q, y.Live q ↔ q = p ∨ x.Live q := by
    intro q
    by_cases hqp : q = p
    · subst hqp
      simp [Live, hself]
    · simp [Live, hqp, hy]
  have hnr : ∀ q, y.Live q → (q = p ∧ (y.s.pid q).nr = nr) ∨
      (q ≠ p ∧ x.Live q ∧ (y.s.pid q).nr = (x.s.pid q).nr) := by
    intro q hq
    rcases (hlive q).mp hq with rfl | hq
    · exact .inl ⟨rfl, by rw [hself]⟩
    · have hqp : q ≠ p := fun heq => hpdead (heq ▸ hq)
      exact .inr ⟨hqp, hq, by rw [hat q hqp]⟩
  refine ⟨h.wf.alloc_wf hp.1 hclear _, ?_, ?_, ?_, ?_, ?_, ?_, h.nodup, ?_, ?_⟩
  · -- The fresh object has no task on its lists, as before: its old lists were empty too.
    refine h.hashed.of_eq rfl fun q => ?_
    by_cases hqp : q = p
    · subst hqp
      rw [hself]
      funext ty
      by_contra hne
      have := h.wf.refcount_pos_of_listed ⟨ty, Ne.symm hne⟩
      exact hpdead (.inl this)
    · rw [hat q hqp]
  · intro a b ha hb hab
    rcases hnr a ha with ⟨hap, hna⟩ | ⟨-, hla, hna⟩ <;>
      rcases hnr b hb with ⟨hbp, hnb⟩ | ⟨-, hlb, hnb⟩ <;> rw [hna, hnb] at hab
    · rw [hap, hbp]
    · exact absurd hab.symm (hnrlive b hlb)
    · exact absurd hab (hnrlive a hla)
    · exact h.nrInj a b hla hlb hab
  · intro n
    change update x.s.pidmap nr true n = true ↔ _
    by_cases hn : n = nr
    · subst hn
      rw [update_self]
      exact iff_of_true rfl (.inr ⟨p, (hlive p).mpr (.inl rfl), by rw [hself]⟩)
    · rw [update_of_ne hn, h.bit]
      refine or_congr_right ⟨?_, ?_⟩
      · rintro ⟨q, hq, hqn⟩
        have hqp : q ≠ p := fun heq => hpdead (heq ▸ hq)
        exact ⟨q, (hlive q).mpr (.inr hq), by rw [hat q hqp, hqn]⟩
      · rintro ⟨q, hq, hqn⟩
        rcases hnr q hq with ⟨-, hq'⟩ | ⟨-, hq', hnq⟩
        · exact absurd (hqn.symm.trans hq') hn
        · exact ⟨q, hq', hnq.symm.trans hqn⟩
  · intro q hq
    rcases hnr q hq with ⟨-, hnq⟩ | ⟨-, hq', hnq⟩ <;> rw [hnq]
    · exact ⟨hlo, hhi⟩
    · exact h.range q hq'
  · change pidInit ≤ (if nr + 1 = pidMax then pidInit else nr + 1) ∧
      (if nr + 1 = pidMax then pidInit else nr + 1) < pidMax
    split
    · exact ⟨le_rfl, by decide⟩
    · omega
  · intro q hq
    have hqp : q ≠ p := fun heq => hp.2 (heq ▸ hq)
    rw [hat q hqp]
    exact h.dead q hq
  · intro q hq
    rcases List.mem_cons.mp hq with rfl | hq
    · exact ⟨List.mem_cons_self, hpslot.2⟩
    · exact ⟨List.mem_cons_of_mem _ (h.owned q hq).1, (h.owned q hq).2⟩
  · refine List.nodup_cons.mpr ⟨fun hmem => ?_, h.owners⟩
    exact hpslot.1 (h.owned p hmem).1

theorem sameNumbers_prepareSlots {parent : Option ℕ} :
    SameNumbers s (prepareSlots s child parent p) := by
  refine sameNumbers_modTask.trans (SameNumbers.foldl (fun s ty => ?_) _ _)
  exact ⟨rfl, rfl, fun _ => refcountInc_nr⟩

/-- The slots after the second section of `pid_prepare`: the child adds `p`, and shares
the rest with its parent. -/
theorem slotted_fork (ht : (s.task t).phase = .running) (hc : (s.task child).phase = .free)
    (htask : s'.task = forkTask s t child p) : Slotted s' q ↔ Slotted s q ∨ q = p := by
  have hct : child ≠ t := by
    rintro rfl
    rw [hc] at ht
    cases ht
  have htfree : (s.task t).phase ≠ .free := by simp [ht]
  have hat_c : s'.task child = Task.prepare (preparePids s (some t) p) child := by
    rw [htask]
    simp [forkTask, hct]
  have hat : ∀ u ≠ child, ((s'.task u).phase = .free ↔ (s.task u).phase = .free) ∧
      (s'.task u).pids = (s.task u).pids := by
    intro u huc
    rw [htask]
    by_cases hut : u = t
    · subst hut
      simp [forkTask, ht]
    · simp [forkTask, hut, huc]
  constructor
  · rintro ⟨u, ty, hu, heq⟩
    by_cases huc : u = child
    · subst huc
      rw [hat_c] at heq
      cases ty with
      | tid => exact .inr heq.symm
      | tgid => exact .inr heq.symm
      | pgid => exact .inl ⟨t, .pgid, htfree, heq⟩
      | sid => exact .inl ⟨t, .sid, htfree, heq⟩
    · rw [(hat u huc).2] at heq
      exact .inl ⟨u, ty, mt (hat u huc).1.mpr hu, heq⟩
  · rintro (⟨u, ty, hu, heq⟩ | rfl)
    · have huc : u ≠ child := fun h => hu (h ▸ hc)
      exact ⟨u, ty, mt (hat u huc).1.mp hu, (hat u huc).2 ▸ heq⟩
    · exact ⟨child, .tid, by rw [hat_c]; simp [Task.prepare], by rw [hat_c]; rfl⟩

/-- The second section of `pid_prepare`. -/
theorem Inv.prepare (h : x.Inv) (ht : (x.s.task t).phase = .running)
    (hc : (x.s.task child).phase = .free) (hp : (t, p) ∈ x.pending) :
    Inv { x with
      s := modTask (modTask (prepareSlots x.s child (some t) p) child fun k =>
        Task.prepare k.pids child) t fun k => k.setPhase (.forking child)
      pending := x.pending.erase (t, p) } := by
  obtain ⟨hheld, hslot⟩ := h.owned p (List.mem_map.mpr ⟨(t, p), hp, rfl⟩)
  obtain ⟨htask₁, hheld₁, hmap₁, hpid₁⟩ := foldl_refcountInc PidType.all
    (preparePids x.s (some t) p)
    (modTask x.s child fun k => { k with pids := preparePids x.s (some t) p })
  have hnum : SameNumbers x.s (prepareSlots x.s child (some t) p) := sameNumbers_prepareSlots
  set s₁ := prepareSlots x.s child (some t) p
  have hct : child ≠ t := by
    rintro rfl
    rw [hc] at ht
    cases ht
  set s₂ := modTask (modTask s₁ child fun k => Task.prepare k.pids child) t fun k =>
    k.setPhase (.forking child)
  have htask : s₂.task = forkTask x.s t child p := forkTask_eq hct htask₁
  have hheld₂ : s₂.held = x.s.held := hheld₁
  have hwf : Wf s₂ := by
    refine h.wf.prepare_wf ht hc (fun u ty hu heq => hslot ⟨u, ty, hu, heq⟩)
      (h.wf.held_pos hheld) hmap₁ hheld₂ htask (fun q => (hpid₁ q).1) (fun q => (hpid₁ q).2.1)
      fun q => (hpid₁ q).2.2
  have hrefs : ∀ q, 0 < (s₂.pid q).refcount ↔ 0 < (x.s.pid q).refcount := by
    intro q
    rw [hwf.refcount_pos_iff, h.wf.refcount_pos_iff, hheld₂, slotted_fork ht hc htask]
    constructor
    · rintro (hq | hq | rfl)
      · exact .inl hq
      · exact .inr hq
      · exact .inl hheld
    · rintro (hq | hq)
      · exact .inl hq
      · exact .inr (.inl hq)
  have hperm := (List.perm_cons_erase hp).map Prod.snd
  have hnodup : (p :: (x.pending.erase (t, p)).map Prod.snd).Nodup := hperm.nodup_iff.mp h.owners
  rw [List.nodup_cons] at hnodup
  refine h.of_live hwf ?_ hnum.pidmap hnum.nextPid hnum.nr ?_ ?_ h.nodup ?_ hnodup.2
  · exact h.hashed.of_eq rfl fun q => (hpid₁ q).2.2
  · intro q
    unfold Live
    rw [hrefs]
  · intro q hq
    have hzero := h.dead q hq
    have := hrefs q
    change (s₂.pid q).refcount = 0
    omega
  · intro q hq
    have hqp : q ≠ p := fun heq => hnodup.1 (heq ▸ hq)
    have hold := h.owned q (hperm.mem_iff.mpr (List.mem_cons_of_mem _ hq))
    refine ⟨hheld₂ ▸ hold.1, fun hs => ?_⟩
    rcases (slotted_fork ht hc htask).mp hs with hs | rfl
    · exact hold.2 hs
    · exact hqp rfl

/-- The decrement of `pid_put`: an object that loses its last reference is dying, with
its number still set. -/
theorem Inv.put (h : x.Inv) (hp : p ∈ x.s.held) (hown : p ∉ x.pending.map Prod.snd) :
    Inv { x with
      s := { refcountDec x.s p with held := x.s.held.erase p }
      dying := if (x.s.pid p).refcount = 1 then p :: x.dying else x.dying } := by
  have hpos := h.wf.held_pos hp
  have hcount : ∀ q, ((refcountDec x.s p).pid q).refcount =
      (x.s.pid q).refcount - if p = q then 1 else 0 := fun q => refcountDec_refcount
  have hdead : ∀ q ∈ x.dying, q ≠ p := by
    rintro q hq rfl
    have := h.dead q hq
    omega
  refine h.of_live (h.wf.drop_wf hp) ?_ rfl rfl (fun q => refcountDec_nr) ?_ ?_ ?_ ?_ h.owners
  · exact h.hashed.of_eq rfl fun q => refcountDec_tasks
  · intro q
    change (0 < ((refcountDec x.s p).pid q).refcount ∨
      q ∈ if (x.s.pid p).refcount = 1 then p :: x.dying else x.dying) ↔ _
    rw [hcount]
    unfold Live
    by_cases hqp : p = q
    · subst hqp
      by_cases hlast : (x.s.pid p).refcount = 1
      · simp [hlast]
      · simp only [hlast, if_true, if_false]
        exact or_congr_left (by omega)
    · rw [if_neg hqp, Nat.sub_zero]
      refine or_congr_right ?_
      split
      · rw [List.mem_cons, or_iff_right (Ne.symm hqp)]
      · rfl
  · intro q hq
    change ((refcountDec x.s p).pid q).refcount = 0
    rw [hcount]
    change q ∈ (if (x.s.pid p).refcount = 1 then p :: x.dying else x.dying) at hq
    split at hq
    next hlast =>
      rcases List.mem_cons.mp hq with rfl | hq
      · simp [hlast]
      · rw [h.dead q hq, Nat.zero_sub]
    next => rw [h.dead q hq, Nat.zero_sub]
  · change (if (x.s.pid p).refcount = 1 then p :: x.dying else x.dying).Nodup
    split
    · exact List.nodup_cons.mpr ⟨fun hmem => hdead p hmem rfl, h.nodup⟩
    · exact h.nodup
  · intro q hq
    have hqp : q ≠ p := fun heq => hown (heq ▸ hq)
    obtain ⟨hheld, hslot⟩ := h.owned q hq
    exact ⟨(List.mem_erase_of_ne hqp).mpr hheld, hslot⟩

/-- The section of `pid_put`: the number is given back and the object freed. -/
theorem Inv.clear (h : x.Inv) (hp : p ∈ x.dying) :
    Inv { x with
      s := { x.s with pidmap := update x.s.pidmap (x.s.pid p).nr false }
      dying := x.dying.erase p } := by
  set y : Sections := { x with
    s := { x.s with pidmap := update x.s.pidmap (x.s.pid p).nr false }
    dying := x.dying.erase p }
  have hzero := h.dead p hp
  have hlive : ∀ q, y.Live q ↔ x.Live q ∧ q ≠ p := by
    intro q
    change (0 < (x.s.pid q).refcount ∨ q ∈ x.dying.erase p) ↔ _
    rw [h.nodup.mem_erase_iff]
    unfold Live
    by_cases hqp : q = p
    · subst hqp
      simp [hzero]
    · simp [hqp]
  have hnr : ∀ q, y.Live q → (x.s.pid q).nr ≠ (x.s.pid p).nr := by
    intro q hq heq
    obtain ⟨hq, hqp⟩ := (hlive q).mp hq
    exact hqp (h.nrInj q p hq (.inr hp) heq)
  refine ⟨h.wf.clear_wf fun q hq => hnr q (.inl hq), h.hashed.of_eq rfl fun _ => rfl, ?_, ?_,
    ?_, h.next, ?_, h.nodup.erase p, h.owned, h.owners⟩
  · intro a b ha hb hab
    exact h.nrInj a b ((hlive a).mp ha).1 ((hlive b).mp hb).1 hab
  · intro n
    change update x.s.pidmap (x.s.pid p).nr false n = true ↔ n = 0 ∨ y.InUse n
    by_cases hn : n = (x.s.pid p).nr
    · -- Neither 0 nor the number of another live object.
      subst hn
      rw [update_self]
      refine iff_of_false (by simp) ?_
      rintro (h0 | ⟨q, hq, hqn⟩)
      · have := (h.range p (.inr hp)).1
        unfold pidInit at this
        omega
      · exact hnr q hq hqn
    · rw [update_of_ne hn, h.bit]
      refine or_congr_right ⟨?_, ?_⟩
      · rintro ⟨q, hq, hqn⟩
        refine ⟨q, (hlive q).mpr ⟨hq, ?_⟩, hqn⟩
        rintro rfl
        exact hn hqn.symm
      · rintro ⟨q, hq, hqn⟩
        exact ⟨q, ((hlive q).mp hq).1, hqn⟩
  · intro q hq
    exact h.range q ((hlive q).mp hq).1
  · intro q hq
    exact h.dead q (List.mem_of_mem_erase hq)

/-- Every section keeps the invariant. -/
theorem Inv.step {a : Section} (h : x.Inv) (hstep : x.step a = some y) : y.Inv := by
  cases a with
  | alloc t mem =>
    simp only [Sections.step] at hstep
    split at hstep
    next hen =>
      split at hstep
      next p s' hok =>
        cases hstep
        exact h.alloc (hen.2.2 p rfl) hok t
      next =>
        cases hstep
        exact h
    next => cases hstep
  | prepare t child p =>
    simp only [Sections.step] at hstep
    split at hstep
    next hen =>
      cases hstep
      exact h.prepare hen.1 hen.2.1 hen.2.2
    next => cases hstep
  | whole e =>
    simp only [Sections.step] at hstep
    split at hstep
    next hen =>
      obtain ⟨s', hs', rfl⟩ := Option.map_eq_some_iff.mp hstep
      obtain ⟨hmoved, hhashed⟩ := step_whole h.wf h.hashed hen.1 hs'
      exact h.whole (step_wf h.wf hs') hhashed hmoved
    next => cases hstep
  | reparent child parent =>
    cases hstep
    have hmoved : Moved x.s (modTask x.s child fun k => k.setParent parent) :=
      .modTask .rfl rfl
    exact h.whole (h.wf.modTask_wf rfl rfl) h.hashed.modTask hmoved
  | put p =>
    simp only [Sections.step] at hstep
    split at hstep
    next hen =>
      cases hstep
      exact h.put hen.1 hen.2
    next => cases hstep
  | clear p =>
    simp only [Sections.step] at hstep
    split at hstep
    next hp =>
      cases hstep
      exact h.clear hp
    next => cases hstep

/-! ### The initial state -/

/-- What `init_execve` leaves in the tables. -/
theorem boot_tables : boot.pidmap = update empty.pidmap 1 true ∧ boot.nextPid = 2 ∧
    boot.pidTable = [0] ∧ (boot.pid 0).nr = 1 := by
  have hnr : findNr empty = some 1 := by decide
  unfold boot pidPrepare pidAlloc
  rw [hnr]
  exact ⟨rfl, rfl, rfl, rfl⟩

theorem live_start : start.Live p ↔ p = 0 := by
  have hdying : p ∉ start.dying := List.not_mem_nil
  unfold Live
  rw [or_iff_left hdying]
  change 0 < (boot.pid p).refcount ↔ p = 0
  rw [boot_refcount]
  by_cases hp : p = 0
  · simp [hp]
  · simp [hp]

theorem inv_start : start.Inv := by
  obtain ⟨hmap, hnext, htable, hnr⟩ := boot_tables
  have hwf : Wf start.s := boot_sessionInv.wf
  have hpub : (boot.task 0).Published := by
    rw [boot_task, if_pos rfl]
    trivial
  have hslot : (boot.task 0).pids .tid = 0 := by
    rw [boot_task, if_pos rfl]
    exact preparePids_boot .tid
  have hhashed : Hashed start.s := by
    refine ⟨?_, fun q => ?_⟩
    · change boot.pidTable.Nodup
      rw [htable]
      exact List.nodup_singleton 0
    · change q ∈ boot.pidTable ↔ Listed boot q
      rw [htable, List.mem_singleton]
      constructor
      · rintro rfl
        exact hslot ▸ hwf.listed_slot hpub .tid
      · intro hq
        exact live_start.mp (.inl (hwf.refcount_pos_of_listed hq))
  refine ⟨hwf, hhashed, ?_, ?_, ?_, ?_, ?_, List.nodup_nil, ?_, List.nodup_nil⟩
  · intro p q hp hq _
    rw [live_start.mp hp, live_start.mp hq]
  · intro n
    change boot.pidmap n = true ↔ n = 0 ∨ ∃ p, start.Live p ∧ (boot.pid p).nr = n
    simp only [live_start, exists_eq_left, hnr, hmap]
    by_cases hn : n = 1
    · subst hn
      simp
    · rw [update_of_ne hn]
      simp [empty, Ne.symm hn]
  · intro p hp
    obtain rfl := live_start.mp hp
    change pidInit ≤ (boot.pid 0).nr ∧ (boot.pid 0).nr < pidMax
    rw [hnr]
    decide
  · change pidInit ≤ boot.nextPid ∧ boot.nextPid < pidMax
    rw [hnext]
    decide
  · exact fun p hp => absurd hp List.not_mem_nil
  · exact fun p hp => absurd hp List.not_mem_nil

theorem inv_of_reachable (h : Reachable (· = start) (Graph step) x) : x.Inv := by
  refine Reachable.invariant ?_ ?_ h
  · rintro x rfl
    exact inv_start
  · intro x a y hx hstep
    exact hx.step hstep

/-- All bits from `PID_INIT` on are set when all numbers are in use. -/
theorem Inv.full_iff (h : x.Inv) :
    x.Full ↔ ∀ n, pidInit ≤ n → n < pidMax → x.s.pidmap n = true := by
  refine forall_congr' fun n => imp_congr_right fun hlo => imp_congr_right fun _ => ?_
  rw [h.bit]
  refine ⟨.inr, fun hn => hn.resolve_left ?_⟩
  unfold pidInit at hlo
  omega

theorem Inv.findNr_eq_none (h : x.Inv) : findNr x.s = none ↔ x.Full := by
  rw [h.full_iff, findNr_eq_none_iff h.next]

theorem Inv.tableOk (h : x.Inv) : TableOk x where
  nrInj := h.nrInj
  hashed := fun p => (h.hashed.mem_iff p).trans h.wf.listed_iff
  nodup := h.hashed.nodup
  refs := h.wf.refs
  bit := h.bit
  find := by
    intro n p hfind
    have hmem := List.mem_of_find?_eq_some hfind
    have hnr : ((x.s.pid p).nr : ℤ) = n := by simpa using List.find?_some hfind
    have hlive : x.Live p := .inl (h.wf.refcount_pos_of_listed ((h.hashed.mem_iff p).mp hmem))
    refine ⟨hlive, hnr, fun q hq hqn => h.nrInj q p hq hlive ?_⟩
    exact Int.ofNat.inj (hqn.trans hnr.symm)
  findNone := by
    intro n hfind p hp
    simpa using List.find?_eq_none.mp hfind p hp
  unhashed := by
    intro p hp hmem
    have hpos := h.wf.refcount_pos_of_listed ((h.hashed.mem_iff p).mp hmem)
    rw [h.dead p hp] at hpos
    exact Nat.lt_irrefl 0 hpos
  eagain := by
    intro mem
    cases mem with
    | none => simp [pidAllocFrom]
    | some p =>
      rw [← h.findNr_eq_none]
      unfold pidAllocFrom pidAlloc
      cases findNr x.s <;> simp
  enomem := by
    intro mem
    cases mem with
    | none => simp [pidAllocFrom]
    | some p =>
      unfold pidAllocFrom pidAlloc
      cases findNr x.s <;> simp
  alloc := by
    intro p hfull
    rw [← h.findNr_eq_none] at hfull
    obtain ⟨nr, hnr⟩ := Option.ne_none_iff_exists'.mp hfull
    obtain ⟨hlo, hhi, hclear⟩ := findNr_spec h.next hnr
    have hfree : ¬ x.InUse nr := fun huse => by
      rw [(h.bit nr).mpr (.inr huse)] at hclear
      cases hclear
    exact ⟨_, by simp only [pidAllocFrom, pidAlloc, hnr]; rfl, by simpa using ⟨hlo, hhi, hfree⟩⟩

end Sections

/-- In every state that any interleaving of the sections reaches, the identifier tables
are right. -/
theorem tableOk_of_reachable (x : Sections)
    (h : Reachable (· = Sections.start) (Graph Sections.step) x) : TableOk x :=
  (Sections.inv_of_reachable h).tableOk

/-- A run in which a child is prepared in two sections, with the reference of `pid_alloc`
dropped last, is published, founds a session, exits and is reaped, and its number is
given back in a section of its own. -/
def reapRun : List Section :=
  [.alloc 0 (some 1), .prepare 0 1 1, .whole (.publish 0), .put 1, .whole (.setsid 1),
   .whole (.exit 1), .whole (.reap 0 1), .whole (.taskPut 1), .put 1, .put 1, .put 1, .put 0,
   .put 0, .put 1, .clear 1]

theorem tableOk_reapRun : ∃ x, Reachable (· = Sections.start) (Graph Sections.step) x ∧
    TableOk x ∧ x.s.pidTable = [0] ∧ x.s.pidmap 2 = false ∧ (x.s.pid 0).refcount = 4 :=
  exists_of_exec reapRun rfl tableOk_of_reachable (by decide +kernel)

/-! ### A full table -/

namespace Sections

variable {x y : Sections}

/-- `init` is about to call `sys_clone`, and nothing else is in progress. -/
structure Ready (x : Sections) : Prop where
  reach : Reachable (· = start) (Graph step) x
  running : (x.s.task 0).phase = .running
  idle : x.pending = []

theorem exists_free_task (h : Wf s) : ∃ c, (s.task c).phase = .free := by
  obtain ⟨D, hD, -⟩ := h.refs
  obtain ⟨c, hc⟩ := Infinite.exists_notMem_finset D
  exact ⟨c, hD c hc⟩

theorem exists_unused (h : Wf x.s) : ∃ p, x.Unused p := by
  obtain ⟨D, hD, -⟩ := h.refs
  -- Every object with a reference is held or in a slot of one of finitely many tasks.
  obtain ⟨p, hp⟩ := Infinite.exists_notMem_finset
    (x.s.held.toFinset ∪ x.dying.toFinset ∪
      D.biUnion fun t => (PidType.all.map (x.s.task t).pids).toFinset)
  simp only [Finset.mem_union, List.mem_toFinset, Finset.mem_biUnion, not_or, not_exists,
    not_and] at hp
  refine ⟨p, ?_, hp.1.2⟩
  by_contra hne
  rcases h.refcount_pos_iff.mp (Nat.pos_of_ne_zero hne) with hheld | ⟨t, ty, hfree, heq⟩
  · exact hp.1.1 hheld
  · have ht : t ∈ D := by
      by_contra hn
      exact hfree (hD t hn)
    exact hp.2 t ht (List.mem_map.mpr ⟨ty, PidType.mem_all ty, heq⟩)

/-- `sys_clone` by `init` sets one more bit as long as one is clear. -/
theorem Ready.clone (h : Ready x) (hclear : ¬ x.Full) :
    ∃ (y : Sections) (nr : ℕ), Ready y ∧ pidInit ≤ nr ∧ nr < pidMax ∧ x.s.pidmap nr = false ∧
      y.s.pidmap = update x.s.pidmap nr true := by
  have hinv := inv_of_reachable h.reach
  obtain ⟨p, hp⟩ := exists_unused hinv.wf
  obtain ⟨c, hc⟩ := exists_free_task hinv.wf
  rw [← hinv.findNr_eq_none] at hclear
  obtain ⟨nr, hnr⟩ := Option.ne_none_iff_exists'.mp hclear
  obtain ⟨hlo, hhi, hbit⟩ := findNr_spec hinv.next hnr
  have hidle : x.Idle 0 := by simp [Idle, h.idle]
  have hen : (x.s.task 0).phase = .running ∧ x.Idle 0 ∧ ∀ q ∈ some p, x.Unused q := by
    refine ⟨h.running, hidle, fun q hq => ?_⟩
    obtain rfl := Option.mem_some.mp hq
    exact hp
  -- `pid_alloc`
  obtain ⟨x₁, hstep₁, hmap₁, htask₁, hpend₁⟩ : ∃ x₁, x.step (.alloc 0 (some p)) = some x₁ ∧
      x₁.s.pidmap = update x.s.pidmap nr true ∧ x₁.s.task = x.s.task ∧
      x₁.pending = [(0, p)] := by
    simp only [step]
    rw [if_pos hen]
    simp [pidAllocFrom, pidAlloc, hnr, h.idle]
  -- the rest of `pid_prepare`
  obtain ⟨x₂, hstep₂, hmap₂, htask₂, hpend₂⟩ : ∃ x₂, x₁.step (.prepare 0 c p) = some x₂ ∧
      x₂.s.pidmap = x₁.s.pidmap ∧ (x₂.s.task 0).phase = .forking c ∧ x₂.pending = [] := by
    simp only [step]
    rw [if_pos ⟨by rw [htask₁]; exact h.running, by rw [htask₁]; exact hc, by simp [hpend₁]⟩]
    refine ⟨_, rfl, ?_, ?_, by simp [hpend₁]⟩
    · have hnum : SameNumbers x₁.s (prepareSlots x₁.s c (some 0) p) := sameNumbers_prepareSlots
      exact hnum.pidmap
    · simp [modTask_task]
  have hreach₂ : Reachable (· = start) (Graph step) x₂ := .step (.step h.reach hstep₁) hstep₂
  -- `pid_publish`
  have hstep₃ : x₂.step (.whole (.publish 0)) =
      some { x₂ with s := publishChild x₂.s 0 c } := by
    simp [step, Event.isWhole, Event.caller, Idle, hpend₂, PidTable.step, htask₂]
  refine ⟨_, nr, ⟨.step hreach₂ hstep₃, ?_, hpend₂⟩, hlo, hhi, hbit, ?_⟩
  · simp [publishChild, modTask_task]
  · rw [← hmap₁, ← hmap₂]
    exact (moved_publish (inv_of_reachable hreach₂).wf htask₂).pidmap

/-- The numbers whose bit is clear. -/
def clearNumbers (x : Sections) : Finset ℕ :=
  (Finset.Ico pidInit pidMax).filter fun n => x.s.pidmap n = false

/-- `init` can fork until every number is in use. -/
theorem Ready.exists_full (h : Ready x) : ∃ y, Ready y ∧ y.Full := by
  -- Each fork leaves one clear bit fewer.
  induction hk : (clearNumbers x).card using Nat.strong_induction_on generalizing x with
  | _ k ih =>
    by_cases hfull : x.Full
    · exact ⟨x, h, hfull⟩
    · obtain ⟨y, nr, hy, hlo, hhi, hbit, hmap⟩ := h.clone hfull
      have hmem : nr ∈ clearNumbers x := by
        simp [clearNumbers, hlo, hhi, hbit]
      have hnot : nr ∉ clearNumbers y := by
        simp [clearNumbers, hmap]
      have hsub : clearNumbers y ⊆ clearNumbers x := by
        intro n hn
        by_cases hnr : n = nr
        · exact hnr ▸ hmem
        · simpa [clearNumbers, hmap, update_of_ne hnr] using hn
      have hlt : (clearNumbers y).card < k := by
        rw [← hk]
        exact Finset.card_lt_card ((Finset.ssubset_iff_of_subset hsub).mpr ⟨nr, hmem, hnot⟩)
      exact ih _ hlt hy rfl

end Sections

/-- With every number in use and no memory left, `pid_alloc` reports the memory: the
allocation comes before the search. -/
theorem enomem_when_full : ∃ x, Reachable (· = Sections.start) (Graph Sections.step) x ∧
    x.Full ∧ pidAllocFrom x.s none = .error .enomem := by
  have hready : Sections.Ready Sections.start := by
    refine ⟨.init rfl, ?_, rfl⟩
    change (boot.task 0).phase = .running
    rw [boot_task, if_pos rfl]
    rfl
  obtain ⟨x, hx, hfull⟩ := hready.exists_full
  exact ⟨x, hx.reach, hfull, rfl⟩

end Nuvix.PidTable
