import Nuvix.Mm.SharedPagesStep

/-!
# Clones of page tables, and any step

A clone takes the permission to write from an entry of the parent before it copies the
entry, and counts the copy after it: between the two the count is one too small, but
the parent cannot remove its entry, and no other address space has one. When all
entries are copied, the child shows what the parent shows.
-/

namespace Nuvix.Vm

open SearchTree Function
open Sharing (Owner Act)
open Transition (ite_eq_some)

variable {N : ℕ} {cfg : MmConfig} {rb : Rebalance Vma} {file : ℕ → ℕ → ℕ} {s s' : State N}
  {i j src : Fin N} {v p c : ℕ} {e : Pte} {ok : ℕ → Bool} {o : Op N} {parent child : Space N}
  {refs' content : ℕ → ℕ} {a : ℕ} {mm : Mm}

namespace Inv

/-! ### Clones -/

section

variable (h : Inv cfg file s)
include h

/-- The only clone of the parent. -/
theorem only_clone (hcl : (s.space j).op.cloning = some (src, c)) (k : Fin N) (d : ℕ) (hk : k ≠ j) :
    (s.space k).op.cloning ≠ some (src, d) :=
  fun hk' => hk (h.only k j src d c hk' hcl)

/-- What is known of the child of a clone and its parent. -/
theorem clone_of (hop : (s.space j).op = o) (hcl : o.cloning = some (src, c)) :
    (s.space j).op.cloning = some (src, c) ∧ src ≠ j ∧ CloneOk (s.space j) (s.space src) c ∧
      (s.space j).life = .building ∧ (s.space j).op ≠ .forking := by
  subst hop
  have hok := (h.space j).op
  obtain ⟨hne, hclone⟩ := h.clone j src c hcl
  refine ⟨hcl, hne, hclone, ?_⟩
  cases hop : (s.space j).op <;> rw [hop] at hcl hok <;> first | exact ⟨hok, nofun⟩ | cases hcl

omit h in
/-- The memories while the child is not a process yet, or no longer. -/
theorem memory_unborn {l m : Life} (hne : src ≠ j) (hold : (s.space j).life = l) (hl : l ≠ .live)
    (hnew : child.life = m) (hm : m ≠ .live)
    (hparent : parent.memory file s.byte = (s.space src).memory file s.byte) :
    State.memory file ⟨update (update s.space src parent) j child, refs', s.byte, s.kernel,
      s.stopped⟩ = s.memory file := by
  have hmem : State.memory file ⟨update (update s.space src parent) j child, refs', s.byte,
      s.kernel, s.stopped⟩ = _ := memory_pair hne hparent
  refine hmem.trans (update_eq_self_iff.mpr ?_)
  subst hold hnew
  exact (memory_of_ne hm).trans (memory_of_ne hl).symm

/-- A step of a clone that changes the child only. -/
theorem childStep (hcl : (s.space j).op.cloning = some (src, c)) (hchild : SpaceOk cfg child)
    (hlife : child.life = .building)
    (hclone : ∀ x d, child.op.cloning = some (x, d) → x = src ∧ CloneOk child (s.space src) d)
    (hsharing : Sharing.Inv ⟨update s.sharing.owner j child.owner, refs', s.kernel⟩)
    (hcontent : ContentOk file s.byte child child.op) :
    Keeps cfg file s none ⟨update s.space j child, refs', s.byte, s.kernel, s.stopped⟩ := by
  obtain ⟨-, hne, hok, hbuilding, hj⟩ := h.clone_of rfl hcl
  have hself : update s.space src (s.space src) = s.space := update_eq_self ..
  have hown : update s.sharing.owner src (s.space src).owner = s.sharing.owner :=
    update_eq_self (f := s.sharing.owner) src
  have hinv := h.pair hne hj (h.only_clone hcl) (h.space src) hchild
    (by rw [hok.lock]; rfl) hclone (hown.symm ▸ hsharing) (h.content src) hcontent
  have hmem : State.memory file ⟨update (update s.space src (s.space src)) j child, refs', s.byte,
      s.kernel, s.stopped⟩ = s.memory file := memory_unborn hne hbuilding nofun hlife nofun rfl
  rw [hself] at hinv hmem
  exact ⟨hinv, hmem⟩

section

variable (hop : (s.space j).op = .cloneScan src v)
include hop

theorem cloneSkip (hv : (s.space src).pte v = none) :
    Keeps cfg file s none (s.setSpace j ((s.space j).setOp (.cloneScan src (v + 1)))) := by
  obtain ⟨hcl, -, hok, hbuilding, -⟩ := h.clone_of hop rfl
  have howner : ((s.space j).setOp (.cloneScan src (v + 1))).owner = (s.space j).owner :=
    owner_eq hop rfl
  refine h.childStep hcl ((h.space j).cloneStep (by rw [hcl]; exact nofun) nofun)
    hbuilding (fun x d hd => ?_) ?_ trivial
  · cases hd
    refine ⟨rfl, hok.lock, hok.pending, hok.vmas, fun w hw => ?_, fun w hw => ?_, nofun⟩
    · rcases Nat.lt_succ_iff_lt_or_eq.mp hw with hw | rfl
      · exact hok.copied w hw
      · exact (hok.rest w le_rfl).trans hv.symm
    · exact hok.rest w (Nat.le_of_succ_le hw)
  · rw [howner]
    have hself : update s.sharing.owner j (s.space j).owner = s.sharing.owner :=
      update_eq_self (f := s.sharing.owner) j
    rw [hself]
    exact h.sharing

/-- The entry of the parent loses the permission to write. -/
theorem cloneProtect (hv : (s.space src).pte v = some e) : Keeps cfg file s none
      ((s.setSpace src ((s.space src).setPte v (some ⟨e.frame, e.prot.dropWrite⟩))).setSpace j
        ((s.space j).setOp (.cloneMap src v))) := by
  obtain ⟨hcl, hne, hok, hbuilding, hj⟩ := h.clone_of hop rfl
  have hchildOwner : ((s.space j).setOp (.cloneMap src v)).owner = (s.space j).owner :=
    owner_eq hop rfl
  have hparentOwner : ((s.space src).setPte v (some ⟨e.frame, e.prot.dropWrite⟩)).owner =
      (s.space src).owner.act (.mark v e.frame false) := by
    have hmark : (((s.space src).setPte v (some ⟨e.frame, e.prot.dropWrite⟩)).setOp
        (s.space src).op).owner = (s.space src).owner.act (.mark v e.frame false) := by
      refine owner_mark rfl (e := ⟨e.frame, e.prot.dropWrite⟩) (fun _ _ => .rfl) ?_ rfl rfl rfl
      rw [hok.lock]
      rfl
    exact hmark
  have hcopied : ∀ w, w ≠ v →
      ((s.space src).setPte v (some ⟨e.frame, e.prot.dropWrite⟩)).pte w = (s.space src).pte w :=
    fun w hw => update_of_ne hw ..
  refine ⟨h.pair hne hj (h.only_clone hcl) ((h.space src).dropWrite hok.lock hv)
    ((h.space j).cloneStep (by rw [hcl]; exact nofun) nofun) (by
      change (s.space src).op.cloning = none
      rw [hok.lock]
      rfl) (fun x d hd => ?_) ?_ ?_ trivial, ?_⟩
  · cases hd
    refine ⟨rfl, hok.lock, hok.pending, hok.vmas, fun w hw => ?_, hok.rest, fun src' v' hnext => ?_⟩
    · rw [hcopied w hw.ne]
      exact hok.copied w hw
    · cases hnext
      exact ⟨_, update_self .., rfl⟩
  · rw [hchildOwner, hparentOwner]
    have hact := h.sharing.act (i := src) (a := .mark v e.frame false) ⟨_, ent_of_pte hv, ?_, nofun⟩
    · have hself : (s.space j).owner =
          update s.sharing.owner src ((s.space src).owner.act (.mark v e.frame false)) j :=
        (update_of_ne hne.symm _ s.sharing.owner).symm
      rwa [hself, update_eq_self]
    · change (s.space src).op.owed = none
      rw [hok.lock]
      rfl
  · change ContentOk file s.byte _ (s.space src).op
    rw [hok.lock]
    trivial
  · refine memory_unborn hne hbuilding nofun hbuilding nofun ?_
    exact memory_same rfl rfl (frame_setPte hv rfl) rfl (fun _ => .rfl) fun _ => rfl

omit hop in
/-- The owners after a step of a clone that neither of the two shows. -/
theorem sharing_pair (hparent : parent.owner = (s.space src).owner)
    (hchild : child.owner = (s.space j).owner) :
    Sharing.Inv ⟨update (update s.sharing.owner src parent.owner) j child.owner,
      s.refs, s.kernel⟩ := by
  have hsrc : update s.sharing.owner src (s.space src).owner = s.sharing.owner :=
    update_eq_self (f := s.sharing.owner) src
  have hj : update s.sharing.owner j (s.space j).owner = s.sharing.owner :=
    update_eq_self (f := s.sharing.owner) j
  rw [hparent, hchild, hsrc, hj]
  exact h.sharing

/-- The clone is complete: the child shows what the parent shows. -/
theorem cloneDone (hv : ¬ v < uvpns) : Keeps cfg file s (some (.fork src j))
      ((s.setSpace src ((s.space src).setOp .idle)).setSpace j
        (((s.space j).setOp .idle).setLife .live)) := by
  obtain ⟨hcl, hne, hok, hbuilding, hj⟩ := h.clone_of hop rfl
  have hlive : (s.space src).life = .live := (h.space src).opOk hok.lock
  have hparentMem : ((s.space src).setOp .idle).memory file s.byte =
      (s.space src).memory file s.byte :=
    memory_eq hok.lock rfl
  -- every entry has been copied: there are none beyond the last page
  have hpte : ∀ w, (s.space j).pte w = (s.space src).pte w := by
    intro w
    by_cases hw : w < v
    · exact hok.copied w hw
    · rw [hok.rest w (Nat.le_of_not_lt hw)]
      cases hsrc : (s.space src).pte w with
      | none => rfl
      | some e =>
        have hlt := ((h.space src).table w e hsrc).lt
        omega
  have hcell : (((s.space j).setOp .idle).setLife .live).cell file s.byte =
      (s.space src).cell file s.byte := by
    funext a
    refine cell_congr (iff_of_false id ?_) ?_ ?_
    · rw [hok.lock]
      exact id
    · rw [frameAt_of_pte rfl, frameAt_of_pte (by rw [hok.lock]; rfl)]
      exact congrArg _ (hpte _)
    · exact image_same (h.space src).mm.layout.tree (h.space j).mm.layout.tree hok.vmas
  refine ⟨h.pair hne hj (h.only_clone hcl) ((h.space src).forked hok.lock)
    ((h.space j).cloned hop) rfl nofun (h.sharing_pair (owner_eq hok.lock rfl)
      (owner_eq hop rfl)) trivial trivial, ?_⟩
  have hmem : State.memory file ⟨update (update s.space src
      ((s.space src).setOp .idle)) j (((s.space j).setOp .idle).setLife .live), s.refs, s.byte,
      s.kernel, s.stopped⟩ = _ := memory_pair hne hparentMem
  have hlive' : (((s.space j).setOp .idle).setLife .live).life = .live := rfl
  rw [memory_of_live hlive', hcell] at hmem
  change Spec.Step (s.memory file) _ (State.memory file _)
  refine hmem ▸ Spec.Step.fork ?_ ?_
  · exact memory_of_live hlive
  · exact memory_of_ne (by rw [hbuilding]; exact nofun)

theorem cloneScan (hs : runStep rb s j = some s') : Keeps cfg file s (runEvent s j) s' := by
  simp only [runStep, hop, runClone] at hs
  unfold runEvent
  rw [hop]
  dsimp only
  split_ifs at hs ⊢ with hv
  · cases hpte : (s.space src).pte v with
    | none =>
      rw [hpte] at hs
      cases hs
      exact h.cloneSkip hop hpte
    | some e =>
      rw [hpte] at hs
      cases hs
      exact h.cloneProtect hop hpte
  · cases hs
    exact h.cloneDone hop hv

end

/-- The copy is counted. The count does not reach its bound, as there are not that many
address spaces. -/
theorem cloneInc (hN : N < refcountMax) (hop : (s.space j).op = .cloneInc src v)
    (hs : runStep rb s j = some s') : Keeps cfg file s none s' := by
  obtain ⟨hcl, -, hok, hbuilding, -⟩ := h.clone_of hop rfl
  simp only [runStep, hop, runClone] at hs
  cases hpte : (s.space j).pte v with
  | none =>
    rw [hpte] at hs
    cases hs
  | some e =>
    rw [hpte] at hs
    cases hs
    have hframe : (s.sharing.owner j).frame v = some e.frame := frame_of_pte hpte
    have hrefers : (s.sharing.owner j).Refers e.frame := .inr ⟨v, hframe⟩
    have hinc : refcountInc (s.refs e.frame) = s.refs e.frame + 1 := by
      have hpos : 0 < s.refs e.frame := h.sharing.refs_pos hrefers
      have hle : s.refs e.frame ≤ N := by
        have hle := h.sharing.refs_le_card hrefers
        rwa [Fintype.card_fin] at hle
      rw [refcountInc, if_neg (by omega)]
    have howed : (s.sharing.owner j).owed = some (src, v) := by
      change (s.space j).op.owed = _
      rw [hop]
      rfl
    have hact := h.sharing.act (i := j) (a := .settle e.frame) ⟨src, v, howed, hframe⟩
    have hspace : SpaceOk cfg ((s.space j).setOp (.cloneScan src (v + 1))) :=
      (h.space j).cloneStep (by simp [hcl]) (by simp [Op.cloning])
    refine h.childStep hcl hspace hbuilding (fun x d hd => ?_) ?_ trivial
    · cases hd
      exact ⟨rfl, hok.lock, hok.pending, hok.vmas, hok.copied, hok.rest, fun _ _ h => by cases h⟩
    · rw [owner_settle (p := e.frame) hop]
      change Sharing.Inv ⟨_, update s.refs e.frame (refcountInc (s.refs e.frame)), _⟩
      rwa [hinc]

/-- The entry is copied to the child. -/
theorem cloneMapped (hop : (s.space j).op = .cloneMap src v) (hv : (s.space j).pte v = none)
    (hsrc : (s.space src).pte v = some e) : Keeps cfg file s none (s.setSpace j
      ((((s.space j).addTable v).setPte v (some e)).setOp (.cloneInc src v))) := by
  obtain ⟨hcl, hne, hok, hbuilding, hj⟩ := h.clone_of hop rfl
  obtain ⟨e', hsrc', hwrite⟩ := hok.next src v hop
  obtain rfl : e = e' := Option.some.inj (hsrc.symm.trans hsrc')
  have hlive : (s.space src).life = .live := (h.space src).opOk hok.lock
  -- the entry agrees with the VMAs of the parent, which are those of the child
  have hfits : v ≠ trampolineVpn → Allowed (s.space j).mm.vmas v e.prot := by
    intro hne'
    obtain ⟨f, hflags, hfits⟩ := (h.space src).allowed hlive hok.lock hsrc hne' id
    exact ⟨f, hflags.of_subset fun w hw _ => (hok.vmas w).mpr hw, hfits⟩
  refine h.childStep hcl ((h.space j).cloneMapped hop ((h.space src).table v e hsrc) hfits)
    hbuilding (fun x d hd => ?_) ?_ trivial
  · cases hd
    refine ⟨rfl, hok.lock, hok.pending, hok.vmas, fun w hw => ?_, fun w hw => ?_, nofun⟩
    · change update (s.space j).pte v (some e) w = _
      rcases Nat.lt_succ_iff_lt_or_eq.mp hw with hw | rfl
      · rw [update_of_ne hw.ne]
        exact hok.copied w hw
      · rw [update_self, hsrc]
    · change update (s.space j).pte v (some e) w = _
      rw [update_of_ne (Nat.lt_of_succ_le hw).ne']
      exact hok.rest w (Nat.le_of_succ_le hw)
  · rw [owner_share hop hwrite]
    refine h.sharing.act (i := j) (a := .share src v e.frame)
      ⟨hne, ?_, ?_, ?_, ?_, ent_of_pte_none hv, fun k w => h.not_owed hj k w⟩
    · refine (ent_of_pte hsrc).trans ?_
      rw [hwrite, hok.lock]
      rfl
    · exact congrArg Op.owed hok.lock
    · exact congrArg Op.owed hop
    · change e.frame ∉ (((s.space j).pending ++ (s.space j).op.held : List ℕ) : Multiset ℕ)
      rw [hok.pending, hop]
      exact Multiset.notMem_zero _

/-- The clone is given up. -/
theorem cloneFails (hop : (s.space j).op = .cloneMap src v) :
    Keeps cfg file s none ((s.setSpace src ((s.space src).setOp .idle)).setSpace j
      ((((s.space j).setVmas .nil).setLife .zombie).setOp .idle)) := by
  obtain ⟨hcl, hne, hok, hbuilding, hj⟩ := h.clone_of hop rfl
  refine ⟨h.pair hne hj (h.only_clone hcl) ((h.space src).forked hok.lock) (h.space j).exit rfl
    nofun
    (h.sharing_pair (owner_eq hok.lock rfl)
      (owner_eq hop rfl)) trivial trivial, ?_⟩
  exact memory_unborn hne hbuilding nofun (m := .zombie) rfl nofun
    (memory_eq hok.lock rfl)

/-- `map_page` has returned. -/
theorem mapStep {ok : Bool} (hs : mapStep s i ok = some s') : Keeps cfg file s none s' := by
  unfold Vm.mapStep at hs
  dsimp only at hs
  split at hs
  · next v f p old hop =>
    split_ifs at hs with hfails
    · cases old with
      | none =>
        cases hs
        exact h.pageMapFails hop
      | some q => exact absurd hfails ((h.space i).not_mapFails hop)
    · cases hs
      exact h.pageMapped hop (by_contra fun hne => hfails (.inr hne))
  · next src v hop =>
    split_ifs at hs with hfails
    · cases hs
      exact h.cloneFails hop
    · obtain ⟨e, hsrc, rfl⟩ := Option.map_eq_some_iff.mp hs
      exact h.cloneMapped hop (by_contra fun hne => hfails (.inr hne)) hsrc
  · cases hs

/-- `mm_clone` has copied the VMAs. -/
theorem fork (hrun : (s.space i).Running) (hunused : (s.space j).life = .unused)
    (hpending : (s.space j).pending = []) (hclone : mmClone rb ok (s.space i).mm = .ok mm) :
    Keeps cfg file s none ((s.setSpace i ((s.space i).setOp .forking)).setSpace j
      ⟨.building, mm, fun _ => none, fun _ => false, .cloneScan i 0, []⟩) := by
  have hidle := Op.isIdle_iff.mp hrun.2
  have hidle' : (s.space j).op = .idle := by
    by_contra hne
    exact (h.space j).op.life hne hunused
  have hne : i ≠ j := by
    rintro rfl
    have hlive := hrun.1
    rw [hunused] at hlive
    cases hlive
  obtain ⟨hmm, hvmas⟩ := mmOk_mmClone (h.space i).mm hclone
  -- nobody copies from the parent yet
  have honly : ∀ k c, k ≠ j → (s.space k).op.cloning ≠ some (i, c) := by
    intro k c _ hk
    have hlock := (h.clone k i c hk).2.lock
    rw [hidle] at hlock
    cases hlock
  have hchildOwner : (⟨.building, mm, fun _ => none, fun _ => false, .cloneScan i 0, []⟩ :
      Space N).owner = (s.space j).owner :=
    owner_congr hidle' (funext ((h.space j).empty hunused)).symm hpending.symm rfl rfl rfl rfl
  refine ⟨h.pair hne (by rw [hidle']; exact nofun) honly ((h.space i).forking hrun)
    (SpaceOk.clone hmm i) rfl (fun x d hd => ?_) (h.sharing_pair
      (owner_eq hidle rfl) hchildOwner) trivial trivial, ?_⟩
  · cases hd
    exact ⟨rfl, rfl, rfl, hvmas, nofun, fun _ _ => rfl, nofun⟩
  · exact memory_unborn hne hunused nofun (m := .building) rfl nofun
      (memory_eq hidle rfl)

/-! ### Any step -/

theorem runStep (hN : N < refcountMax) (hs : runStep rb s i = some s') :
    Keeps cfg file s (runEvent s i) s' := by
  cases hop : (s.space i).op
  case unmapFlush start stop a e batch last after => exact h.unmapFlush hop hs
  case cloneScan src v => exact h.cloneScan hop hs
  all_goals
    have hev : runEvent s i = none := by rw [runEvent, hop]
    rw [hev]
  case faultProbe v vma => exact h.faultProbe hop hs
  case protectRead v f caller => exact h.protectRead hop hs
  case protectWrite v f exclusive caller => exact h.protectWrite hop hs
  case pageUnmap v f p => exact h.pageUnmap hop hs
  case unmapFind start stop batch after => exact h.unmapFind hop hs
  case unmapPages start stop a e batch after => exact h.unmapPages hop hs
  case protectFind a stop f => exact h.protectFind hop hs
  case protectPages a e stop f => exact h.protectPages hop hs
  case cloneInc src v => exact h.cloneInc hN hop hs
  case freeScan v => exact h.freeScan hop hs
  case freePage v p => exact h.freePage hop hs
  all_goals
    simp only [Vm.runStep, hop] at hs
    cases hs

theorem fault {addr : ℕ} {access : Access} (hrun : (s.space i).Running) : Keeps cfg file s none
      (s.setSpace i ((s.space i).setOp ((s.space i).faultStart addr access))) := by
  have hidle := Op.isIdle_iff.mp hrun.2
  have hspace := (h.space i).fault hrun addr access
  -- the fault ends at once, or goes on with a page that it has not touched yet
  have hcases : (s.space i).faultStart addr access = .idle ∨
      (∃ v vma, (s.space i).faultStart addr access = .faultProbe v vma) ∨
      ∃ v f fill, (s.space i).faultStart addr access = .pageAlloc v f fill := by
    unfold Space.faultStart
    split
    · exact .inl rfl
    · split
      · split
        · split
          · exact .inr (.inl ⟨_, _, rfl⟩)
          · exact .inl rfl
        · exact .inr (.inr ⟨_, _, _, rfl⟩)
      · exact .inl rfl
  rcases hcases with hop | ⟨v, vma, hop⟩ | ⟨v, f, fill, hop⟩ <;> rw [hop] at hspace ⊢ <;>
    exact h.silent hidle nofun rfl hspace rfl trivial rfl

omit h in
/-- The byte a load returns is the one the memory shows. -/
theorem cell_of_pte (file : ℕ → ℕ → ℕ) (hrun : (s.space i).Running)
    (hv : (s.space i).pte (a / pageSize) = some e) :
    (s.space i).memory file s.byte = some ((s.space i).cell file s.byte) ∧
      (s.space i).cell file s.byte a = some (s.byte e.frame (a % pageSize)) := by
  have hidle := Op.isIdle_iff.mp hrun.2
  refine ⟨memory_of_live hrun.1, cell_of_frame (by rw [hidle]; exact id) ?_⟩
  rw [frameAt_of_pte (by rw [hidle]; rfl), hv]
  rfl

theorem load (hrun : (s.space i).Running) (hv : (s.space i).pte (a / pageSize) = some e) :
    Keeps cfg file s (some (.on i (.load a (s.byte e.frame (a % pageSize))))) s := by
  obtain ⟨hmem, hcell⟩ := cell_of_pte file hrun hv
  refine ⟨h, ?_⟩
  have heffect : Effect (s.memory file i) (.load a (s.byte e.frame (a % pageSize)))
      (s.memory file i) := by
    rw [State.memory, hmem]
    exact .load hcell
  have hstep := Spec.Step.on heffect
  rwa [update_eq_self] at hstep

/-- A page that can be written is written. No other address space refers to its frame. -/
theorem written {x : Option LocalEvent}
    (hidle : (s.space i).op = .idle) (hv : (s.space i).pte v = some e)
    (hwrite : e.prot.write = true) (hmem : LocalShows ((s.space i).memory file s.byte) x
      ((s.space i).memory file (update s.byte e.frame content))) :
    Keeps cfg file s (x.map (.on i)) (s.setBytes e.frame content) := by
  have hown : s.sharing.owner i = (s.space i).owner := rfl
  have hent : (s.sharing.owner i).ent v = some (e.frame, true) := by
    rw [hown, ent_of_pte hv, hwrite]
    rfl
  have hself : update s.space i (s.space i) = s.space := update_eq_self ..
  have hstep : Keeps cfg file s (x.map (.on i)) ⟨update s.space i (s.space i), s.refs,
      update s.byte e.frame content, s.kernel, s.stopped⟩ := by
    refine h.advance (a := .tau) hidle nofun (by rw [hidle]; rfl) (h.space i) rfl
      trivial (fun j hj p hp => ?_) (by rw [hidle]; trivial) hmem
    refine update_of_ne ?_ ..
    rintro rfl
    exact h.sharing.own hent j hj hp
  rwa [hself] at hstep

theorem store {b : ℕ} (hrun : (s.space i).Running) (hv : (s.space i).pte (a / pageSize) = some e)
    (hwrite : e.prot.write = true) : Keeps cfg file s (some (.on i (.store a b)))
      (s.setBytes e.frame (update (s.byte e.frame) (a % pageSize) b)) := by
  have hidle := Op.isIdle_iff.mp hrun.2
  obtain ⟨hmem, hcell⟩ := cell_of_pte file hrun hv
  refine h.written (x := some _) hidle hv hwrite ?_
  have hframe : ∀ w, (s.space i).frameAt w = ((s.space i).pte w).map Pte.frame :=
    fun w => frameAt_of_pte (by rw [hidle]; rfl)
  have hgone : ∀ a', ¬ (s.space i).op.Gone a' := fun a' => by rw [hidle]; exact id
  have hnew : (s.space i).cell file (update s.byte e.frame
      (update (s.byte e.frame) (a % pageSize) b)) =
      update ((s.space i).cell file s.byte) a (some b) := by
    funext a'
    cases hv' : (s.space i).pte (a' / pageSize) with
    | none =>
      have hne : a' ≠ a := by
        rintro rfl
        rw [hv] at hv'
        cases hv'
      have hnone : (s.space i).frameAt (a' / pageSize) = none := by rw [hframe, hv']; rfl
      rw [update_of_ne hne, cell_of_none (hgone a') hnone, cell_of_none (hgone a') hnone]
    | some e' =>
      have hsome : (s.space i).frameAt (a' / pageSize) = some e'.frame := by rw [hframe, hv']; rfl
      rw [cell_of_frame (hgone a') hsome]
      by_cases he : e'.frame = e.frame
      · -- the frame is mapped at this page only
        have hpage : a' / pageSize = a / pageSize :=
          h.sharing.home (i := i) (j := i) (frame_of_pte hv') (by rw [he]; exact frame_of_pte hv)
        rw [he, update_self]
        by_cases ho : a' % pageSize = a % pageSize
        · have haa : a' = a := by
            rw [← Nat.div_add_mod a' pageSize, ← Nat.div_add_mod a pageSize, hpage, ho]
          rw [ho, haa, update_self, update_self]
        · have haa : a' ≠ a := by
            rintro rfl
            exact ho rfl
          rw [update_of_ne ho, update_of_ne haa, cell_of_frame (hgone a') hsome, he]
      · have haa : a' ≠ a := by
          rintro rfl
          rw [hv] at hv'
          cases hv'
          exact he rfl
        rw [update_of_ne he, update_of_ne haa, cell_of_frame (hgone a') hsome]
  rw [hmem, memory_of_live hrun.1, hnew]
  exact .store (by rw [hcell]; exact nofun)

/-- A page of the program that is being set up. -/
theorem setup (hbuild : (s.space i).Building) (hs : setupStep cfg s i v content = some s') :
    Keeps cfg file s none s' := by
  have hidle := Op.isIdle_iff.mp hbuild.2
  obtain ⟨f, hf, hs⟩ := Option.bind_eq_some_iff.mp hs
  cases hv : (s.space i).pte v with
  | none =>
    rw [hv] at hs
    cases hs
    exact h.silent hidle nofun rfl ((h.space i).setup hbuild hf hv content) rfl trivial rfl
  | some e =>
    rw [hv] at hs
    dsimp only at hs
    split_ifs at hs with hwrite
    cases hs
    refine h.written (x := none) hidle hv ((h.space i).write_of_setup hbuild hf hwrite hv) ?_
    have hne : (s.space i).life ≠ .live := by rw [hbuild.1]; exact nofun
    exact (memory_of_ne hne).trans (memory_of_ne hne).symm

/-- The program starts. -/
theorem ready (hbuild : (s.space i).Building) :
    Keeps cfg file s (some (.on i (.spawn ((s.space i).cell file s.byte))))
      (s.setSpace i ((s.space i).setLife .live)) := by
  have hidle := Op.isIdle_iff.mp hbuild.2
  refine h.quiet (e := some _) hidle nofun ?_ ((h.space i).ready hbuild) rfl ?_ ?_
  · change (s.space i).op.cloning = none
    rw [hidle]
    rfl
  · change ContentOk file s.byte _ (s.space i).op
    rw [hidle]
    trivial
  · have hlive : ((s.space i).setLife .live).life = .live := rfl
    rw [memory_of_ne (by rw [hbuild.1]; exact nofun), memory_of_live hlive]
    exact .spawn

/-- The last `mm_put`. -/
theorem exit (hidle : (s.space i).op = .idle) :
    Keeps cfg file s (if (s.space i).life = .live then some (.on i .exit) else none)
      (s.setSpace i (((s.space i).setVmas .nil).setLife .zombie)) := by
  rw [← setOp_self (((s.space i).setVmas .nil).setLife .zombie) hidle]
  have howner : ((((s.space i).setVmas .nil).setLife .zombie).setOp .idle).owner =
      (s.space i).owner := owner_eq hidle rfl
  have hnew : ((((s.space i).setVmas .nil).setLife .zombie).setOp .idle).memory file s.byte
    = none :=
    memory_of_ne (nofun : Life.zombie ≠ .live)
  split_ifs with hlive
  · refine h.quiet (e := some _) hidle nofun rfl (h.space i).exit howner trivial ?_
    rw [memory_of_live hlive, hnew]
    exact .exit
  · exact h.quiet (e := none) hidle nofun rfl (h.space i).exit howner trivial
      (hnew.trans (memory_of_ne hlive).symm)

/-- `pgtable_free` begins. -/
theorem drop (hlife : (s.space i).life = .zombie) (hidle : (s.space i).op = .idle) :
    Keeps cfg file s none (s.setSpace i ((s.space i).setOp (.freeScan 0))) :=
  h.silent hidle nofun rfl ((h.space i).drop hlife) rfl trivial rfl

/-- `load_exec` has mapped a program. -/
theorem exec {f : ℕ} {ehdr : Ehdr} {phdrs : List Phdr} (hunused : (s.space i).life = .unused)
    (hload : loadExec cfg ehdr rb ok f phdrs = .ok mm) : Keeps cfg file s none (s.setSpace i
      ⟨.building, mm, fun _ => none, fun _ => false, .idle, (s.space i).pending⟩) := by
  have hidle : (s.space i).op = .idle := by
    by_contra hne
    exact (h.space i).op.life hne hunused
  obtain ⟨hmm, hstack⟩ := mmOk_loadExec hload
  refine h.quiet (e := none) hidle nofun rfl (SpaceOk.exec hmm hstack _)
    (owner_congr hidle ?_ rfl rfl rfl rfl rfl) trivial ?_
  · exact (funext ((h.space i).empty hunused)).symm
  · exact (memory_of_ne (nofun : Life.building ≠ .live)).trans
      (memory_of_ne (by rw [hunused]; exact nofun)).symm

/-- A frame for the rest of the kernel. -/
theorem kernelAlloc (hp : s.refs p = 0) :
    Keeps cfg file s none ((s.setRefs p 1).setKernel p true) :=
  ⟨{ h with sharing := h.sharing.setOther (h.sharing.not_refers hp) true }, rfl⟩

theorem kernelFree (hp : s.kernel p = true) :
    Keeps cfg file s none ((s.freePage p).setKernel p false) := by
  rw [freePage_eq, show s.refs p = 1 from h.sharing.refs_of_other hp]
  exact ⟨{ h with sharing := h.sharing.setOther (h.sharing.other hp) false }, rfl⟩

/-- **Any step keeps the invariant, and the memories show its event.** -/
theorem step {act : Action N} (hN : N < refcountMax) (hs : step cfg rb file s act = some s') :
    Keeps cfg file s (event cfg rb file s act) s' := by
  unfold Vm.step at hs
  rw [if_neg (by rw [h.running]; exact nofun)] at hs
  cases act with
  | load i addr b =>
    dsimp only at hs
    split_ifs at hs with hrun
    cases hv : (s.space i).pte (addr / pageSize) with
    | none =>
      rw [hv] at hs
      cases hs
    | some e =>
      rw [hv] at hs
      dsimp only at hs
      split_ifs at hs with hbyte
      cases hs
      obtain ⟨-, -, rfl⟩ := hbyte
      exact h.load hrun hv
  | store i addr b =>
    dsimp only at hs
    split_ifs at hs with hrun
    cases hv : (s.space i).pte (addr / pageSize) with
    | none =>
      rw [hv] at hs
      cases hs
    | some e =>
      rw [hv] at hs
      dsimp only at hs
      split_ifs at hs with hwrite
      cases hs
      exact h.store hrun hv hwrite.2
  | fault i addr access =>
    obtain ⟨hrun, rfl⟩ := ite_eq_some.mp hs
    exact h.fault hrun
  | mmap i ok addr len prot flags offset =>
    obtain ⟨hrun, rfl⟩ := ite_eq_some.mp hs
    exact h.call hrun fun r hr => (mmapRequest_eq_ok (h.space i).mm hr).1
  | munmap i ok start len =>
    obtain ⟨hrun, rfl⟩ := ite_eq_some.mp hs
    exact h.call hrun fun r hr => munmapRequest_ok hr
  | mprotect i ok start len prot =>
    obtain ⟨hrun, rfl⟩ := ite_eq_some.mp hs
    have hkeeps : Keeps cfg file s
        ((callEvent rb s i ok (mprotectRequest cfg start len prot)).map (.on i))
        (Vm.call rb s i ok (mprotectRequest cfg start len prot)) :=
      h.call hrun fun r hr => mprotectRequest_ok hr
    have hnone : callEvent rb s i ok (mprotectRequest cfg start len prot) = none := by
      cases hr : mprotectRequest cfg start len prot with
      | error e => rfl
      | ok r => obtain rfl | ⟨stop, -, rfl⟩ := mprotectRequest_eq_ok hr <;> rfl
    rwa [hnone] at hkeeps
  | brk i ok addr =>
    obtain ⟨hrun, rfl⟩ := ite_eq_some.mp hs
    refine h.call hrun fun r hr => ?_
    cases hr
    exact brkRequest_ok (h.space i).mm addr
  | fork i child ok =>
    dsimp only at hs
    split_ifs at hs with hrun
    cases hclone : mmClone rb ok (s.space i).mm with
    | error e =>
      rw [hclone] at hs
      cases hs
      exact .stay h
    | ok mm =>
      rw [hclone] at hs
      cases hs
      exact h.fork hrun.1 hrun.2.1 hrun.2.2 hclone
  | exec i ok f ehdr phdrs =>
    dsimp only at hs
    split_ifs at hs with hunused
    cases hload : loadExec cfg ehdr rb ok f phdrs with
    | error e =>
      rw [hload] at hs
      cases hs
      exact .stay h
    | ok mm =>
      rw [hload] at hs
      cases hs
      exact h.exec hunused hload
  | setup i v content =>
    obtain ⟨hbuild, hs⟩ := Option.ite_none_right_eq_some.mp hs
    exact h.setup hbuild hs
  | ready i =>
    obtain ⟨hbuild, rfl⟩ := ite_eq_some.mp hs
    exact h.ready hbuild
  | exit i =>
    obtain ⟨hexit, rfl⟩ := ite_eq_some.mp hs
    exact h.exit (Op.isIdle_iff.mp (hexit.1.elim (fun hrun => hrun.2) fun hbuild => hbuild.2))
  | drop i =>
    dsimp only at hs
    split at hs
    · next hlife hidle =>
      cases hs
      exact h.drop hlife hidle
    · cases hs
  | run i => exact h.runStep hN hs
  | alloc i p => exact h.allocStep hs
  | filled i ok => exact h.fillStep hs
  | mapped i ok => exact h.mapStep hs
  | free i p =>
    obtain ⟨hp, rfl⟩ := ite_eq_some.mp hs
    exact h.freePending hp
  | kernelAlloc p =>
    obtain ⟨hp, rfl⟩ := ite_eq_some.mp hs
    exact h.kernelAlloc hp
  | kernelFree p =>
    obtain ⟨hp, rfl⟩ := ite_eq_some.mp hs
    exact h.kernelFree hp

end

end Inv

end Nuvix.Vm
