import Nuvix.Mm.SharedPages

/-!
# Every step keeps the invariant of all address spaces

The steps in turn, from the system calls through the loops of an operation to the life
of an address space and its clone.
-/

namespace Nuvix.Vm

open SearchTree Function
open Sharing (Owner Act)

variable {N : ℕ} {cfg : MmConfig} {rb : Rebalance Vma} {file byte : ℕ → ℕ → ℕ} {s s' : State N}
  {i j : Fin N} {sp : Space N} {t : Bst Vma} {vma : Vma} {f : VmFlags} {ok : ℕ → Bool}
  {v p a start stop : ℕ} {e : Pte} {mm : Mm} {o op : Op N} {after : After} {r : Request}
    {addr e' len : ℕ}
  {caller : Caller}

/-! ### Free ranges -/

/-- A page that no VMA covers has no entry. -/
theorem SpaceOk.pte_of_free (h : SpaceOk cfg sp) (hlive : sp.life = .live) (hop : sp.op = o)
    (hsettled : ∀ w, ¬ o.Unsettled w) (htop : a < ustackTop)
    (hfree : ∀ w ∈ sp.mm.vmas.toList, ¬ w.Covers a) : sp.pte (a / pageSize) = none := by
  cases hpte : sp.pte (a / pageSize) with
  | none => rfl
  | some e =>
    exfalso
    have hne : a / pageSize ≠ trampolineVpn := by
      rw [ustackTop_eq] at htop
      rw [pageSize_eq, trampolineVpn_eq]
      omega
    obtain ⟨f, ⟨vma, hmem, hcov, -⟩, -⟩ := h.allowed hlive hop hpte hne (hsettled _)
    -- a VMA that covers the page covers the address
    have haligned := (h.mm.layout.tree.valid vma hmem).stop_aligned
    obtain ⟨hle, hlt⟩ := hcov
    refine hfree vma hmem ⟨?_, ?_⟩ <;> rw [pageSize_eq] at * <;> omega

theorem SpaceOk.cell_of_free (h : SpaceOk cfg sp) (hlive : sp.life = .live) (hop : sp.op = o)
    (hsettled : ∀ w, ¬ o.Unsettled w) (hreplaces : ∀ w, o.replaces w = none) (htop : a < ustackTop)
    (hfree : ∀ w ∈ sp.mm.vmas.toList, ¬ w.Covers a) : sp.cell file byte a = none := by
  subst hop
  by_cases hgone : sp.op.Gone a
  · exact cell_of_gone hgone
  · rw [cell_of_none hgone, image_eq_none hfree]
    rw [frameAt_of_pte (hreplaces _), h.pte_of_free hlive rfl hsettled htop hfree]
    rfl

theorem not_covers_of_free {w : Vma} (h : w.stop ≤ start ∨ stop ≤ w.start) (hstart : start ≤ a)
    (hstop : a < stop) : ¬ w.Covers a := by
  rintro ⟨hle, hlt⟩
  omega

/-- A VMA that is inserted into a free range maps zeros there. -/
theorem SpaceOk.effect_insert (h : SpaceOk cfg sp) (hlive : sp.life = .live) (hop : sp.op = o)
    (hsettled : ∀ w, ¬ o.Unsettled w) (hreplaces : ∀ w, o.replaces w = none)
    (hgone : ∀ a, o.Gone a → vma.start ≤ a ∧ a < vma.stop)
    (hok : vmaInsert rb sp.mm.vmas vma = .ok t) (hfile : vma.file = none)
    (htop : vma.stop ≤ ustackTop)
    (hfree : ∀ w ∈ sp.mm.vmas.toList, w.stop ≤ vma.start ∨ vma.stop ≤ w.start) (brk : ℕ) :
    Effect (sp.memory file byte) (.map vma.start vma.stop)
      ((((sp.setVmas t).setBrk brk).setOp .idle).memory file byte) := by
  subst hop
  have hcell : ∀ a, vma.start ≤ a → a < vma.stop → sp.cell file byte a = none := fun a hle hlt =>
    h.cell_of_free hlive rfl hsettled hreplaces (hlt.trans_le htop)
      fun w hw => not_covers_of_free (hfree w hw) hle hlt
  have hnew : (((sp.setVmas t).setBrk brk).setOp .idle).cell file byte =
      fun a => if vma.start ≤ a ∧ a < vma.stop then some 0 else sp.cell file byte a := by
    funext a
    have himage : image file t a = _ := image_insert h.mm.layout.tree hok hfile
    have hframe : (((sp.setVmas t).setBrk brk).setOp .idle).frameAt (a / pageSize) =
        sp.frameAt (a / pageSize) := by
      rw [frameAt_of_pte (hreplaces _), frameAt_of_pte rfl]
      rfl
    split_ifs with ha
    · rw [cell_of_none id]
      · exact himage.trans (if_pos ha)
      · rw [hframe, frameAt_of_pte (hreplaces _), h.pte_of_free hlive rfl hsettled
          (ha.2.trans_le htop)
          fun w hw => not_covers_of_free (hfree w hw) ha.1 ha.2]
        rfl
    · refine cell_congr (iff_of_false id fun hg => ha (hgone a hg)) hframe ?_
      exact himage.trans (if_neg ha)
  have hlive' : (((sp.setVmas t).setBrk brk).setOp .idle).life = .live := hlive
  rw [memory_of_live hlive, memory_of_live hlive', hnew]
  exact .map hcell

/-- The range shows nothing as soon as its removal begins. -/
theorem SpaceOk.effect_unmap (h : SpaceOk cfg sp) (hlive : sp.life = .live) (hop : sp.op = .idle)
    (hsplit : RangeSplit start stop sp.mm.vmas t) : Effect (sp.memory file byte) (.unmap start stop)
      (((sp.setVmas t).setOp (.unmapFind start stop [] after)).memory file byte) := by
  have hlive' : ((sp.setVmas t).setOp (.unmapFind start stop [] after)).life = .live := hlive
  have hnew : ((sp.setVmas t).setOp (.unmapFind start stop [] after)).cell file byte =
      fun a => if start ≤ a ∧ a < stop then none else sp.cell file byte a := by
    funext a
    split_ifs with ha
    · exact cell_of_gone ha
    · have hreplaces : sp.op.replaces (a / pageSize) = none := by
        rw [hop]
        rfl
      refine cell_congr (iff_of_false ha ?_) ?_ ?_
      · rw [hop]
        exact id
      · rw [frameAt_of_pte hreplaces, frameAt_of_pte rfl]
        rfl
      · exact image_refines h.mm.layout.tree hsplit.tree hsplit.refines
  rw [memory_of_live hlive, memory_of_live hlive', hnew]
  exact .unmap

namespace Inv

/-! ### System calls -/

/-- `split_range` splits, or fails before its first change. -/
theorem splitRange_cases (h : TreeOk t) (hrange : RangeOk start stop) :
    (∃ e, splitRange rb ok start stop t = (.err e, t)) ∨
      ∃ t', splitRange rb ok start stop t = (.ok (), t') ∧ RangeSplit start stop t t' := by
  have hruns : (splitRange rb ok start stop).Runs t _ _ :=
    runs_splitRange h hrange.lt hrange.start_aligned hrange.stop_aligned
  unfold Prog.Runs at hruns
  split at hruns
  next t' heq => exact .inr ⟨t', heq, hruns⟩
  next e t' heq =>
    obtain ⟨rfl, -⟩ := hruns
    exact .inl ⟨e, heq⟩
  · exact hruns.elim

theorem startRange_err {err : Errno} : startRange s i op (.err err, (s.space i).mm.vmas) = s := by
  have hsame : (s.space i).setVmas (s.space i).mm.vmas = s.space i := rfl
  rw [startRange, hsame, State.setSpace, update_eq_self]

section

variable (h : Inv cfg file s)
include h

section

variable (hrun : (s.space i).Running)
include hrun

theorem callInsert (hr : (Request.insert vma).Ok cfg (s.space i).mm) :
    Keeps cfg file s (some (.on i (.map vma.start vma.stop))) (insertVma rb s i vma) := by
  have hidle := Op.isIdle_iff.mp hrun.2
  obtain ⟨hvalid, hfree, -, -, hfile, hreadable, hallowed⟩ := hr
  obtain ⟨t, hok⟩ := vmaInsert_ok rb (h.space i).mm.layout.tree hvalid hfree
  rw [insertVma, hok]
  refine h.quiet (e := some _) hidle nofun rfl
    ((h.space i).insert hrun.1 hidle (fun _ => id) hok hallowed hreadable (h.space i).mm.brk)
    (owner_eq hidle rfl) trivial ?_
  refine (h.space i).effect_insert hrun.1 hidle (fun _ => id) (fun _ => rfl) nofun hok hfile ?_
    hfree _
  have hrange := hallowed.1
  omega

/-- The start of `unmap_range`. -/
theorem callUnmap (hr : (Request.unmap start stop after).Ok cfg (s.space i).mm) :
    Keeps cfg file s ((callEvent rb s i ok (.ok (.unmap start stop after))).map (.on i))
      (serve rb s i ok (.unmap start stop after)) := by
  have hidle := Op.isIdle_iff.mp hrun.2
  obtain ⟨hrange, hafter⟩ := hr
  simp only [serve, callEvent]
  rcases splitRange_cases (h.space i).mm.layout.tree hrange with ⟨e, hsplit⟩ | ⟨t, hsplit, ht⟩
  · rw [hsplit, startRange_err]
    exact .stay h
  · rw [hsplit]
    have hspace : SpaceOk cfg (((s.space i).setVmas t).setOp (.unmapFind start stop [] after)) :=
      (h.space i).split hrun ht ⟨hrun.1, hrange, ht.first, ht.last, hafter⟩
    exact h.quiet (e := some _) hidle nofun rfl hspace
      (owner_eq hidle rfl) trivial
      ((h.space i).effect_unmap hrun.1 hidle ht)

/-- The start of `protect_range`. -/
theorem callProtect (hr : (Request.protect start stop f).Ok cfg (s.space i).mm) :
    Keeps cfg file s none (serve rb s i ok (.protect start stop f)) := by
  have hidle := Op.isIdle_iff.mp hrun.2
  obtain ⟨hrange, hreadable⟩ := hr
  simp only [serve]
  rcases splitRange_cases (h.space i).mm.layout.tree hrange with ⟨e, hsplit⟩ | ⟨t, hsplit, ht⟩
  · rw [hsplit, startRange_err]
    exact .stay h
  · rw [hsplit]
    have hspace : SpaceOk cfg (((s.space i).setVmas t).setOp (.protectFind start stop f)) :=
      (h.space i).split hrun ht ⟨hrun.1, hrange.start_aligned, ht.first, hreadable⟩
    refine h.quiet (e := none) hidle nofun rfl hspace
      (owner_eq hidle rfl) trivial ?_
    refine memory_same hidle rfl (fun _ => rfl) (funext fun a => ?_) (fun _ => .rfl) fun _ => rfl
    exact image_refines (h.space i).mm.layout.tree ht.tree ht.refines

/-- A larger heap. -/
theorem callGrow (hr : (Request.grow start stop addr).Ok cfg (s.space i).mm) :
    Keeps cfg file s ((callEvent rb s i ok (.ok (.grow start stop addr))).map (.on i))
      (serve rb s i ok (.grow start stop addr)) := by
  have hidle := Op.isIdle_iff.mp hrun.2
  obtain ⟨hfree, hstop, haddr⟩ := hr
  simp only [serve, callEvent]
  cases hmap : mapRange rb (ok 0) (s.space i).mm.vmas start stop { read := true, write := true }
    with
  | error _ => exact .stay h
  | ok r =>
    obtain ⟨t, vma⟩ := r
    obtain ⟨rfl, hins⟩ := mapRange_eq_ok hmap
    have hlower := (of_vmaInsert_eq_ok (h.space i).mm.layout.tree hins).1.lower
    have hcfg := cfg.bottoms
    have htop : stop ≤ ustackTop := by
      rw [ustackTop_eq]
      omega
    have hallowed : rangeAllowed cfg start stop := ⟨by dsimp only at hlower; omega, .inl hstop⟩
    have hspace := (h.space i).insert hrun.1 hidle (fun _ => id) hins hallowed (fun _ => rfl) haddr
    change Keeps cfg file s _ (s.setSpace i (((s.space i).setVmas t).setBrk addr))
    rw [← setOp_self (((s.space i).setVmas t).setBrk addr) hidle]
    refine h.quiet (e := some _) hidle nofun rfl hspace
      (owner_eq hidle rfl) trivial ?_
    exact (h.space i).effect_insert hrun.1 hidle (fun _ => id) (fun _ => rfl) nofun hins rfl htop
      hfree _

theorem callSetBrk (haddr : addr ≤ cfg.guardBottom) :
    Keeps cfg file s none (s.setSpace i ((s.space i).setBrk addr)) := by
  have hidle := Op.isIdle_iff.mp hrun.2
  have hspace := (h.space i).setBrk hrun.1 hidle (fun _ => id) haddr
  rw [← setOp_self ((s.space i).setBrk addr) hidle]
  exact h.quiet (e := none) hidle nofun rfl hspace
    (owner_eq hidle rfl) trivial
    (memory_eq hidle rfl)

/-- A system call. -/
theorem call {r : Except Errno Request} (hr : ∀ r', r = .ok r' → r'.Ok cfg (s.space i).mm) :
    Keeps cfg file s ((callEvent rb s i ok r).map (.on i)) (call rb s i ok r) := by
  cases r with
  | error _ => exact .stay h
  | ok r =>
    have hr := hr r rfl
    cases r with
    | nothing => exact .stay h
    | insert vma => exact h.callInsert hrun hr
    | unmap start stop after => exact h.callUnmap hrun hr
    | protect start stop f => exact h.callProtect hrun hr
    | grow start stop addr => exact h.callGrow hrun hr
    | setBrk addr => exact h.callSetBrk hrun hr

end

/-! ### Faults and permissions -/

theorem faultProbe (hop : (s.space i).op = .faultProbe v vma) (hs : runStep rb s i = some s') :
    Keeps cfg file s none s' := by
  simp only [runStep, hop, Option.map_eq_some_iff] at hs
  obtain ⟨e, -, rfl⟩ := hs
  have hspace := (h.space i).probe hop (s.refs e.frame = 1)
  split_ifs at hspace ⊢
  · exact h.silent hop nofun rfl hspace rfl trivial rfl
  · exact h.silent hop nofun rfl hspace rfl trivial rfl

omit h in
theorem setPte_self (hv : sp.pte v = some e) : sp.setPte v (some e) = sp := by
  unfold Space.setPte
  rw [← hv, update_eq_self]

/-- `pgtable_protect_page` reads the count. An entry whose frame has a count of one is
not shared, and nobody is about to share it. -/
theorem protectRead (hop : (s.space i).op = .protectRead v f caller)
    (hs : runStep rb s i = some s') : Keeps cfg file s none s' := by
  simp only [runStep, hop] at hs
  cases hv : (s.space i).pte v with
  | none =>
    rw [hv] at hs
    cases hs
    have hspace := (h.space i).protectSkip hop hv
    cases caller <;> exact h.silent hop nofun rfl hspace rfl trivial rfl
  | some e =>
    rw [hv] at hs
    cases hs
    have hspace := (h.space i).protectRead hop (s.refs e.frame == 1)
    have hmark : (((s.space i).setPte v (some e)).setOp
        (.protectWrite v f (s.refs e.frame == 1) caller)).owner =
        (s.space i).owner.act (.mark v e.frame (e.prot.write || (s.refs e.frame == 1))) := by
      refine owner_mark hop (fun w hne => ?_) ?_ rfl rfl rfl
      · cases s.refs e.frame == 1 <;> simp [Op.sole, hne.symm]
      · cases s.refs e.frame == 1 <;> simp [Op.sole]
    rw [setPte_self hv] at hmark
    refine h.advance (a := .mark v e.frame _) (e := none) hop nofun rfl hspace hmark ?_
      (fun _ _ _ _ => rfl) trivial
      (memory_eq hop rfl)
    refine ⟨_, ent_of_pte hv, congrArg Op.owed hop, fun hb => ?_⟩
    · rcases Bool.or_eq_true_iff.mp hb with hw | hone
      · exact .inl (by rw [hw]; rfl)
      · exact .inr ⟨of_decide_eq_true hone, h.not_owed (hop.trans_ne nofun)⟩

omit h in
theorem frame_setPte {e' : Pte} (hv : sp.pte v = some e) (he : e'.frame = e.frame) (w : ℕ) :
    ((sp.setPte v (some e')).pte w).map Pte.frame = (sp.pte w).map Pte.frame := by
  change (update sp.pte v (some e') w).map _ = _
  rcases eq_or_ne w v with rfl | hne
  · rw [update_self, hv]
    exact congrArg some he
  · rw [update_of_ne hne]

/-- `pgtable_protect_page` writes the entry. -/
theorem protectWrite {exclusive : Bool} (hop : (s.space i).op = .protectWrite v f exclusive caller)
    (hs : runStep rb s i = some s') : Keeps cfg file s none s' := by
  simp only [runStep, hop, Option.map_eq_some_iff] at hs
  obtain ⟨e, hv, rfl⟩ := hs
  have hspace := (h.space i).protectWrite hop hv
  have hmark : (((s.space i).setPte v (some (protectedPte e f exclusive))).setOp
      (caller.next f)).owner =
      (s.space i).owner.act (.mark v e.frame (protectedPte e f exclusive).prot.write) := by
    refine owner_mark hop (e := protectedPte e f exclusive) (fun w hne => ?_) ?_ ?_ ?_ ?_
    · cases caller <;> cases exclusive <;> simp [Op.sole, Caller.next, hne.symm]
    · cases caller <;> exact (Bool.or_false _).symm
    all_goals cases caller <;> rfl
  refine h.advance (a := .mark v e.frame _) (e := none) hop nofun ?_ hspace hmark ?_
    (fun _ _ _ _ => rfl) ?_ ?_
  · cases caller <;> rfl
  · refine ⟨_, ent_of_pte hv, congrArg Op.owed hop, fun hb => .inl ?_⟩
    cases exclusive with
    | true => simp [hop, Op.sole]
    | false => cases hb
  · cases caller <;> trivial
  · refine memory_same hop rfl (frame_setPte hv rfl) rfl ?_ ?_
    · cases caller <;> exact fun _ => .rfl
    · cases caller <;> exact fun _ => rfl

/-! ### New pages -/

/-- The old entry is removed; the copy shows in its place. -/
theorem pageUnmap (hop : (s.space i).op = .pageUnmap v f p) (hs : runStep rb s i = some s') :
    Keeps cfg file s none s' := by
  simp only [runStep, hop, Option.map_eq_some_iff] at hs
  obtain ⟨e, hv, rfl⟩ := hs
  have hspace := (h.space i).pageUnmap hop hv
  have hbytes : s.byte p = s.byte e.frame := by
    have hcontent := h.content i
    rw [hop] at hcontent
    exact hcontent e hv
  refine h.advance (a := .unmap v e.frame) (e := none) hop nofun rfl hspace
    (owner_unmap hop rfl (List.Perm.swap ..) rfl rfl) (h.allows_unmap hop nofun rfl hv)
    (fun _ _ _ _ => rfl) trivial (memory_of_cells rfl fun _ a => ?_)
  have hgone : ¬ (s.space i).op.Gone a := by rw [hop]; exact id
  have hold : ∀ w, (s.space i).frameAt w = ((s.space i).pte w).map Pte.frame :=
    fun w => frameAt_of_pte (by rw [hop]; rfl)
  by_cases ha : a / pageSize = v
  · -- the copy has the contents of the page it replaces
    rw [cell_of_frame hgone (p := e.frame) (by rw [hold, ha, hv]; rfl), ← hbytes]
    refine cell_of_frame id ?_
    change (if a / pageSize = v then some p else none).or _ = _
    rw [if_pos ha]
    rfl
  · refine cell_congr (iff_of_false id hgone) ?_ rfl
    rw [hold]
    change (if a / pageSize = v then some p else none).or
      ((update (s.space i).pte v none (a / pageSize)).map Pte.frame) = _
    rw [if_neg ha, update_of_ne ha]
    rfl

/-- `alloc_page` has returned. -/
theorem allocStep {r : Option ℕ} (hs : allocStep s i r = some s') : Keeps cfg file s none s' := by
  unfold Vm.allocStep at hs
  dsimp only at hs
  split at hs
  · next v f fill hop =>
    cases hs
    refine h.silent hop nofun rfl ?_ rfl trivial rfl
    exact (h.space i).setOp_of_settled hop rfl (fun _ => id) trivial
  · next v f fill p hop =>
    split_ifs at hs with hzero
    cases hs
    have hfill := (h.space i).opOk hop
    have hspace : SpaceOk cfg ((s.space i).setOp (.pageFill v f fill p)) :=
      (h.space i).setOp_of_settled hop rfl (fun _ => id) hfill
    exact h.advance (a := .alloc p) (e := none) hop nofun rfl hspace
      (owner_alloc hop) hzero (fun _ _ _ _ => rfl) trivial
      (memory_eq hop rfl)
  · cases hs

/-- A frame an operation has allocated is not mapped anywhere and held by nobody else. -/
theorem fresh_spec (hp : (s.space i).op.fresh = some p) :
    (∀ v, (s.space i).owner.frame v ≠ some p) ∧ ∀ j ≠ i, ¬ (s.space j).owner.Refers p := by
  obtain ⟨hmem, hothers⟩ := h.sharing.fresh (i := i) (p := p) hp
  exact ⟨fun v hv => h.sharing.disjoint (i := i) hv hmem, hothers⟩

/-- The new page is filled. -/
theorem filled {fill : Fill} {content : ℕ → ℕ} (hop : (s.space i).op = .pageFill v f fill p)
    (hcl : op.cloning = none) (hspace : SpaceOk cfg ((s.space i).setOp op))
    (hheld : op.held = [p]) (howed : op.owed = none) (hfresh : op.fresh = some p)
    (hsole : op.sole = none) (hcontent : ContentOk file (update s.byte p content) (s.space i) op)
    (hgone : ∀ a, ¬ op.Gone a) (hreplaces : ∀ w, op.replaces w = none) :
    Keeps cfg file s none ((s.setBytes p content).setSpace i ((s.space i).setOp op)) := by
  obtain ⟨hmap, hothers⟩ := h.fresh_spec (i := i) (p := p) (by rw [hop]; rfl)
  refine h.advance (a := .tau) (e := none) hop nofun hcl hspace
    (owner_congr hop rfl rfl hheld howed hfresh hsole) trivial ?_ ?_ ?_
  · intro j hj q hq
    refine update_of_ne ?_ ..
    rintro rfl
    exact hothers j hj hq
  · cases op <;> exact hcontent
  · refine memory_of_cells rfl fun _ a => ?_
    have hold : (s.space i).frameAt (a / pageSize) =
        ((s.space i).pte (a / pageSize)).map Pte.frame :=
      frameAt_of_pte (by rw [hop]; rfl)
    have hnew : ((s.space i).setOp op).frameAt (a / pageSize) =
        ((s.space i).pte (a / pageSize)).map Pte.frame :=
      frameAt_of_pte (hreplaces _)
    have hngone : ¬ (s.space i).op.Gone a := by rw [hop]; exact id
    cases hv : (s.space i).pte (a / pageSize) with
    | none =>
      rw [hv] at hold hnew
      rw [cell_of_none hngone hold, cell_of_none (hgone a) hnew]
      rfl
    | some e =>
      rw [hv] at hold hnew
      have hne : e.frame ≠ p := by
        rintro rfl
        exact hmap _ (frame_of_pte hv)
      have hbyte : (s.setBytes p content).byte e.frame = s.byte e.frame :=
        update_of_ne hne ..
      rw [cell_of_frame hngone hold, cell_of_frame (hgone a) hnew, hbyte]

/-- The operation gives up, and its page is to be freed. -/
theorem giveUp (hop : (s.space i).op = o) (hlock : o ≠ .forking) (hcl : o.cloning = none)
    (hsettled : ∀ w, ¬ o.Unsettled w) (hsole : o.sole = none) (hheld : o.held = [p])
    (howed : o.owed = none) (hgone : ∀ a, ¬ o.Gone a) (hreplaces : ∀ w, o.replaces w = none) :
    Keeps cfg file s none
      (s.setSpace i (((s.space i).setPending (p :: (s.space i).pending)).setOp .idle)) :=
  h.advance (a := .giveUp) (e := none) hop hlock rfl
    (((h.space i).setPending _).setOp_of_settled hop hcl hsettled trivial)
    (owner_giveUp hop hsole hheld howed) trivial (fun _ _ _ _ => rfl) trivial
    (memory_same hop rfl (fun _ => rfl) rfl (fun a => iff_of_false id (hgone a))
      fun w => (hreplaces w).symm)

/-- The new page has been filled, or the file could not be read. -/
theorem fillStep {ok : Bool} (hs : fillStep file s i ok = some s') : Keeps cfg file s none s' := by
  unfold Vm.fillStep at hs
  dsimp only at hs
  split at hs
  · next v f p hop =>
    obtain ⟨e, hv, rfl⟩ := Option.map_eq_some_iff.mp hs
    obtain ⟨hmap, -⟩ := h.fresh_spec (i := i) (p := p) (by rw [hop]; rfl)
    have hfill := (h.space i).opOk hop
    refine h.filled hop rfl ?_ rfl rfl rfl rfl ?_ (fun _ => id) fun _ => rfl
    · exact (h.space i).setOp_of_settled hop rfl (fun _ => id) hfill
    · intro e' hv'
      obtain rfl : e = e' := Option.some.inj (hv.symm.trans hv')
      rw [update_self, update_of_ne]
      rintro rfl
      exact hmap v (frame_of_pte hv)
  · next v f vma p hop =>
    split_ifs at hs
    · cases hs
      obtain ⟨-, hmem, hcov, -, -⟩ := (h.space i).opOk hop
      refine h.filled hop rfl ((h.space i).filled hop nofun) rfl rfl rfl rfl ?_ (fun _ => id)
        fun _ => rfl
      intro _ o ho
      -- the whole page lies in the VMA
      have htree := (h.space i).mm.layout.tree
      have hcov' := covers_of_page (htree.valid vma hmem) hcov ho
      have hfind : vmaFind (s.space i).mm.vmas (v * pageSize + o) = some vma :=
        (vmaFind_eq_some_iff htree).mpr ⟨hmem, hcov'⟩
      have hbyte : update s.byte p (fun o => imageByte file vma (v * pageSize + o)) p o =
          imageByte file vma (v * pageSize + o) := congrFun (update_self p _ s.byte) o
      rw [image, hfind, hbyte]
      rfl
    · cases hs
      exact h.giveUp hop nofun rfl (fun _ => id) rfl rfl rfl (fun _ => id) fun _ => rfl
  · next v f content p hop =>
    cases hs
    obtain ⟨hbuilding, -, -⟩ := (h.space i).opOk hop
    refine h.filled hop rfl ((h.space i).filled hop nofun) rfl rfl rfl rfl ?_ (fun _ => id)
      fun _ => rfl
    intro hlive
    rw [hbuilding] at hlive
    cases hlive
  · cases hs

/-- The new page is mapped: it shows what the address has shown before. -/
theorem pageMapped {old : Option ℕ} (hop : (s.space i).op = .pageMap v f p old)
    (hpte : (s.space i).pte v = none) :
    Keeps cfg file s none (s.setSpace i (((((s.space i).addTable v).setPte v
      (some ⟨p, vmaToPte f⟩)).setPending (old.toList ++ (s.space i).pending)).setOp .idle)) := by
  refine h.advance (a := .map v p (vmaToPte f).write) (e := none) hop nofun rfl
    ((h.space i).mapped hop _) (owner_map hop)
    ⟨congrArg Op.fresh hop, ent_of_pte_none hpte, congrArg Op.owed hop⟩
    (fun _ _ _ _ => rfl) trivial (memory_of_cells rfl fun hlive a => ?_)
  · have hgone : ¬ (s.space i).op.Gone a := by rw [hop]; exact id
    by_cases ha : a / pageSize = v
    · refine (cell_of_frame (p := p) id ?_).trans ?_
      · change (update (s.space i).pte v (some ⟨p, vmaToPte f⟩) (a / pageSize)).map _ = _
        rw [ha, update_self]
        rfl
      · cases old with
        | some q =>
          refine (cell_of_frame hgone ?_).symm
          unfold Space.frameAt
          rw [hop]
          change (if a / pageSize = v then some p else none).or _ = _
          rw [if_pos ha]
          rfl
        | none =>
          have hcontent := h.content i
          rw [hop] at hcontent
          have himage := hcontent hlive (a % pageSize) (Nat.mod_lt _ (by decide))
          rw [← ha, Nat.div_add_mod'] at himage
          rw [← himage, cell_of_none hgone]
          rw [frameAt_of_pte (by rw [hop]; rfl), ha, hpte]
          rfl
    · refine cell_congr (iff_of_false id hgone) ?_ rfl
      change (update (s.space i).pte v (some ⟨p, vmaToPte f⟩) (a / pageSize)).map _ = _
      rw [update_of_ne ha, frameAt_of_pte]
      rw [hop]
      cases old with
      | none => rfl
      | some q => exact if_neg ha

/-- The new page cannot be mapped. -/
theorem pageMapFails (hop : (s.space i).op = .pageMap v f p none) : Keeps cfg file s none
      (s.setSpace i (((s.space i).setPending (p :: (s.space i).pending)).setOp .idle)) :=
  h.giveUp hop nofun rfl (fun _ => id) rfl rfl rfl (fun _ => id) fun _ => rfl

end

/-! ### Removing mappings -/

section

variable {e' : ℕ} {batch : List ℕ} {after : After}

theorem unmapFind (h : Inv cfg file s) (hop : (s.space i).op = .unmapFind start stop batch after)
    (hs : runStep rb s i = some s') : Keeps cfg file s none s' := by
  simp only [runStep, hop] at hs
  cases hfind : vmaFindIntersection (s.space i).mm.vmas start stop with
  | none =>
    rw [hfind] at hs
    cases hs
    exact h.silent hop nofun rfl ((h.space i).unmapNone hop hfind) rfl trivial rfl
  | some vma =>
    rw [hfind] at hs
    cases hs
    have hspace : SpaceOk cfg (((s.space i).setVmas (rb.erase vma (s.space i).mm.vmas)).setOp
      (.unmapPages start stop vma.start vma.stop batch after)) := (h.space i).unmapVma hop hfind
    have hrest := (hspace.op : _ ∧ RestOk start stop vma.start vma.stop).2
    refine h.quiet (e := none) hop nofun rfl hspace (owner_eq hop rfl)
      trivial (memory_of_cells rfl fun _ a => ?_)
    · have hgone : (s.space i).op.Gone a ↔ start ≤ a ∧ a < stop := by rw [hop]; exact .rfl
      by_cases ha : start ≤ a ∧ a < stop
      · rw [cell_of_gone (hgone.mpr ha)]
        exact cell_of_gone ha
      · refine cell_congr hgone.symm ?_ (image_erase (h.space i).mm.layout.tree fun hcov => ha ?_)
        · unfold Space.frameAt
          rw [hop]
          rfl
        · exact ⟨hrest.lower.trans hcov.1, hcov.2.trans_le hrest.upper⟩

/-- A page of the range is unmapped. -/
theorem unmapPage (h : Inv cfg file s)
    (hop : (s.space i).op = .unmapPages start stop a e' batch after) (hlt : a < e')
    (hv : (s.space i).pte (a / pageSize) = some e) :
    Keeps cfg file s none (s.setSpace i (((s.space i).setPte (a / pageSize) none).setOp
      (if (batch ++ [e.frame]).length = unmapBatchPages then
        .unmapFlush start stop (a + pageSize) e' (batch ++ [e.frame]) false after
      else .unmapPages start stop (a + pageSize) e' (batch ++ [e.frame]) after))) := by
  have hspace := (h.space i).unmapPage hop ((batch ++ [e.frame]).length = unmapBatchPages)
    (batch ++ [e.frame])
  have hrest := ((h.space i).opOk hop).2
  have hheld : (batch ++ [e.frame]).Perm (e.frame :: batch) :=
    List.perm_append_singleton e.frame batch
  -- the page lies in the range that shows nothing
  have hmem : ∀ op : Op N, (∀ b, op.Gone b ↔ start ≤ b ∧ b < stop) → (∀ w, op.replaces w = none) →
      (((s.space i).setPte (a / pageSize) none).setOp op).memory file s.byte =
        (s.space i).memory file s.byte := by
    intro op hgone hreplaces
    have hold : ∀ b, (s.space i).op.Gone b ↔ start ≤ b ∧ b < stop := by
      intro b
      rw [hop]
      exact .rfl
    refine memory_of_cells rfl fun _ b => ?_
    by_cases hb : start ≤ b ∧ b < stop
    · rw [cell_of_gone ((hold b).mpr hb)]
      exact cell_of_gone ((hgone b).mpr hb)
    · refine cell_congr ((hgone b).trans (hold b).symm) ?_ rfl
      have hne : b / pageSize ≠ a / pageSize := by
        intro hpage
        have haligned := hrest.a_aligned
        have halign' := hrest.e_aligned
        have hlower := hrest.lower
        have hupper := hrest.upper
        refine hb ?_
        rw [pageSize_eq] at *
        omega
      rw [frameAt_of_pte (hreplaces _), frameAt_of_pte (by rw [hop]; rfl)]
      change (update (s.space i).pte _ none _).map _ = _
      rw [update_of_ne hne]
  split_ifs at hspace ⊢
  · exact h.advance (a := .unmap (a / pageSize) e.frame) (e := none) hop nofun rfl hspace
      (owner_unmap hop rfl hheld rfl rfl) (h.allows_unmap hop nofun rfl hv)
      (fun _ _ _ _ => rfl) trivial (hmem _ (fun _ => .rfl) fun _ => rfl)
  · exact h.advance (a := .unmap (a / pageSize) e.frame) (e := none) hop nofun rfl hspace
      (owner_unmap hop rfl hheld rfl rfl) (h.allows_unmap hop nofun rfl hv)
      (fun _ _ _ _ => rfl) trivial (hmem _ (fun _ => .rfl) fun _ => rfl)

theorem unmapPages (h : Inv cfg file s)
    (hop : (s.space i).op = .unmapPages start stop a e' batch after)
    (hs : runStep rb s i = some s') : Keeps cfg file s none s' := by
  simp only [runStep, hop] at hs
  split_ifs at hs with hlt
  · cases hv : (s.space i).pte (a / pageSize) with
    | none =>
      rw [hv] at hs
      cases hs
      exact h.silent hop nofun rfl ((h.space i).unmapSkip hop hv) rfl trivial rfl
    | some e =>
      rw [hv] at hs
      cases hs
      exact h.unmapPage hop hlt hv
  · cases hs
    exact h.silent hop nofun rfl ((h.space i).unmapNext hop hlt) rfl trivial rfl

end

theorem freePage_eq : s.freePage p = s.setRefs p (s.refs p - 1) := by
  rw [State.freePage, refcountDecAndTest_fst]

section

variable (h : Inv cfg file s)
include h

/-- The first frame an operation holds is freed. -/
theorem freed (hop : (s.space i).op = o) (hlock : o ≠ .forking) (hcl : op.cloning = none)
    (hspace : SpaceOk cfg ((s.space i).setOp op)) (hheld : o.held = p :: op.held)
    (howed : op.owed = o.owed) (hfresh : op.fresh = none) (hfresh' : o.fresh = none)
    (hsole : op.sole = o.sole) (hcontent : ContentOk file s.byte (s.space i) op)
    (hgone : ∀ a, op.Gone a ↔ o.Gone a) (hreplaces : ∀ v, op.replaces v = o.replaces v) :
    Keeps cfg file s none ((s.freePage p).setSpace i ((s.space i).setOp op)) := by
  subst hop
  rw [freePage_eq]
  refine h.advance (a := .free p) (e := none) rfl hlock hcl hspace
    (owner_free hsole hheld howed (hfresh.trans hfresh'.symm)) ⟨?_, ?_⟩ (fun _ _ _ _ => rfl) ?_
    (memory_same rfl rfl (fun _ => rfl) rfl hgone hreplaces)
  · refine Multiset.mem_coe.mpr (List.mem_append_right _ ?_)
    rw [hheld]
    exact List.mem_cons_self
  · change (s.space i).op.fresh ≠ some p
    rw [hfresh']
    exact nofun
  · cases op <;> exact hcontent

/-- `unmap_range` has returned. -/
theorem finishUnmap (hop : (s.space i).op = .unmapFlush start stop a e' [] true after) :
    Keeps cfg file s (runEvent s i) (finishUnmap rb s i after) := by
  obtain ⟨hok, hsettled, hfree⟩ := (h.space i).unmapped hop
  have hgone : ∀ b, (s.space i).op.Gone b ↔ start ≤ b ∧ b < stop := fun b => by
    rw [hop]; exact .rfl
  have howner : ∀ sp : Space N, sp.pte = (s.space i).pte → sp.pending = (s.space i).pending →
      sp.op = .idle → sp.owner = (s.space i).owner := by
    intro sp hpte hpending hidle
    refine owner_congr hop hpte hpending ?_ ?_ ?_ ?_ <;> rw [hidle] <;> rfl
  -- the range is free, so that it still shows nothing
  have hmem : ∀ sp : Space N, sp.life = (s.space i).life → sp.pte = (s.space i).pte →
      sp.mm.vmas = (s.space i).mm.vmas → sp.op = .idle → SpaceOk cfg sp →
        sp.memory file s.byte = (s.space i).memory file s.byte := by
    intro sp hlife hpte hvmas hidle hspace
    refine memory_of_cells hlife fun _ b => ?_
    by_cases hb : start ≤ b ∧ b < stop
    · rw [cell_of_gone ((hgone b).mpr hb)]
      refine hspace.cell_of_free (hlife.trans hok.live) hidle (fun _ => id) (fun _ => rfl)
        (hb.2.trans_le hok.range.top) fun w hw => ?_
      rw [hvmas] at hw
      exact not_covers_of_free (hfree w hw) hb.1 hb.2
    · refine cell_congr (iff_of_false (by rw [hidle]; exact id) fun hg => hb ((hgone b).mp hg)) ?_
        ?_
      · rw [frameAt_of_pte (by rw [hidle]; rfl), frameAt_of_pte (by rw [hop]; rfl), hpte]
      · rw [hvmas]
  unfold runEvent
  rw [hop]
  cases after with
  | ret =>
    have hspace : SpaceOk cfg ((s.space i).setOp .idle) :=
      (h.space i).setOp_of_settled hop rfl hsettled trivial
    exact h.quiet (e := none) hop nofun rfl hspace (howner _ rfl rfl rfl) trivial
      (hmem _ rfl rfl rfl rfl hspace)
  | setBrk addr =>
    have hspace := (h.space i).setBrk hok.live hop hsettled hok.after
    exact h.quiet (e := none) hop nofun rfl hspace (howner _ rfl rfl rfl) trivial
      (hmem _ rfl rfl rfl rfl hspace)
  | insert vma =>
    obtain ⟨rfl, rfl, hfile, hreadable, hallowed⟩ := hok.after
    have hrange := hok.range
    have hvalid : vma.Valid := by
      refine ⟨?_, ?_, hrange.lt, hrange.start_aligned, hrange.stop_aligned⟩
      · have hlower := hallowed.1
        omega
      · have htop := hrange.top
        rw [ustackTop_eq] at htop
        rw [uvaddrEnd_eq]
        omega
    obtain ⟨t, hins⟩ := vmaInsert_ok rb (h.space i).mm.layout.tree hvalid hfree
    have hspace := (h.space i).insert hok.live hop hsettled hins hallowed hreadable
      (h.space i).mm.brk
    change Keeps cfg file s _ (insertVma rb s i vma)
    rw [insertVma, hins]
    exact h.quiet (e := some _) hop nofun rfl hspace (howner _ rfl rfl rfl) trivial
      ((h.space i).effect_insert hok.live hop hsettled (fun _ => rfl) (fun _ hb => hb) hins hfile
        hrange.top hfree _)

theorem unmapFlush {batch : List ℕ} {last : Bool}
    (hop : (s.space i).op = .unmapFlush start stop a e' batch last after)
    (hs : runStep rb s i = some s') : Keeps cfg file s (runEvent s i) s' := by
  cases batch with
  | cons p batch =>
    simp only [runStep, hop] at hs
    cases hs
    have hev : runEvent s i = none := by rw [runEvent, hop]
    rw [hev]
    exact h.freed hop nofun rfl ((h.space i).unmapFlush hop batch) rfl rfl rfl rfl rfl trivial
      (fun _ => .rfl) fun _ => rfl
  | nil =>
    cases last with
    | false =>
      simp only [runStep, hop] at hs
      cases hs
      have hev : runEvent s i = none := by rw [runEvent, hop]
      rw [hev]
      exact h.silent hop nofun rfl ((h.space i).unmapGoOn hop) rfl trivial rfl
    | true =>
      simp only [runStep, hop] at hs
      cases hs
      exact h.finishUnmap hop

/-! ### Other permissions for a range -/

theorem protectFind (hop : (s.space i).op = .protectFind a stop f) (hs : runStep rb s i = some s') :
    Keeps cfg file s none s' := by
  simp only [runStep, hop] at hs
  have hidle : Keeps cfg file s none (s.setSpace i ((s.space i).setOp .idle)) :=
    h.silent hop nofun rfl ((h.space i).protectDone hop) rfl trivial rfl
  split_ifs at hs
  · cases hfind : vmaFind (s.space i).mm.vmas a with
    | none =>
      rw [hfind] at hs
      cases hs
      exact hidle
    | some vma =>
      rw [hfind] at hs
      cases hs
      have hspace := (h.space i).protectVma hop hfind
      refine h.quiet (e := none) hop nofun rfl hspace (owner_eq hop rfl)
        trivial (memory_same hop rfl (fun _ => rfl) (funext fun a => ?_) (fun _ => .rfl) fun _ =>
          rfl)
      exact image_setFlags (h.space i).mm.layout.tree
  · cases hs
    exact hidle

theorem protectPages (hop : (s.space i).op = .protectPages a e' stop f)
    (hs : runStep rb s i = some s') : Keeps cfg file s none s' := by
  simp only [runStep, hop] at hs
  cases hs
  have hspace := (h.space i).protectPage hop
  split_ifs at hspace ⊢
  · exact h.silent hop nofun rfl hspace rfl trivial rfl
  · exact h.silent hop nofun rfl hspace rfl trivial rfl

/-! ### The end of an address space -/

theorem freeScan (hop : (s.space i).op = .freeScan v) (hs : runStep rb s i = some s') :
    Keeps cfg file s none s' := by
  simp only [runStep, hop] at hs
  have hlife : (s.space i).life = .zombie := ((h.space i).opOk hop).1
  have hold : (s.space i).memory file s.byte = none :=
    memory_of_ne (by rw [hlife]; exact nofun)
  split_ifs at hs with hlt
  · cases hv : (s.space i).pte v with
    | none =>
      rw [hv] at hs
      cases hs
      exact h.silent hop nofun rfl ((h.space i).freeSkip hop hv) rfl trivial rfl
    | some e =>
      rw [hv] at hs
      cases hs
      refine h.advance (a := .unmap v e.frame) (e := none) hop nofun
        rfl ((h.space i).freeScan hop _)
        (owner_unmap hop rfl (.refl _) rfl rfl) (h.allows_unmap hop nofun rfl hv)
        (fun _ _ _ _ => rfl) trivial ?_
      rw [hold]
      exact memory_of_ne (by change (s.space i).life ≠ _; rw [hlife]; exact nofun)
  · cases hs
    refine h.quiet (e := none) hop nofun rfl (SpaceOk.empty' cfg _)
      (owner_congr hop ?_ rfl rfl rfl rfl rfl) trivial ?_
    · funext w
      exact ((h.space i).pte_of_freeScan hop hlt w).symm
    · rw [hold]
      exact memory_of_ne nofun

theorem freePage (hop : (s.space i).op = .freePage v p) (hs : runStep rb s i = some s') :
    Keeps cfg file s none s' := by
  simp only [runStep, hop] at hs
  cases hs
  exact h.freed hop nofun rfl ((h.space i).freePage hop) rfl rfl rfl rfl rfl trivial
    (fun _ => .rfl) fun _ => rfl

/-- A frame is freed after the operation has released `mmap_lock`. -/
theorem freePending (hp : p ∈ (s.space i).pending) :
    Keeps cfg file s none ((s.freePage p).setSpace i
      ((s.space i).setPending ((s.space i).pending.erase p))) := by
  have hcl : (s.space i).op.cloning = none := by
    cases hcl : (s.space i).op.cloning with
    | none => rfl
    | some x =>
      rw [(h.clone i x.1 x.2 hcl).2.pending] at hp
      cases hp
  rw [freePage_eq]
  refine h.stepOne (a := .free p) (e := none)
    (fun _ _ hc => ⟨hc.lock, hc.pending, hc.vmas, hc.copied, hc.rest, hc.next⟩) hcl
    ((h.space i).setPending _) (owner_freePending hp)
    ⟨Multiset.mem_coe.mpr (List.mem_append_left _ hp), fun hfresh => ?_⟩
    (fun _ _ _ _ => rfl) ?_ (memory_eq rfl rfl)
  · -- an allocated frame is held by the operation, and nothing is held twice
    have hnodup : ((s.space i).pending ++ (s.space i).op.held).Nodup := h.sharing.nodup i
    refine List.disjoint_of_nodup_append hnodup hp ?_
    change (s.space i).op.fresh = some p at hfresh
    cases hop : (s.space i).op <;> rw [hop] at hfresh <;> cases hfresh <;> exact List.mem_cons_self
  · have hcontent := h.content i
    change ContentOk file s.byte _ (s.space i).op
    cases hop : (s.space i).op <;> rw [hop] at hcontent <;> exact hcontent

end

end Inv

end Nuvix.Vm
