import Nuvix.Lib.Sharing
import Nuvix.Mm.ForkSpec
import Nuvix.Mm.SpaceInvariant

/-!
# Two views of an address space

An address space is an owner of frames: it maps those in its page table, and holds
those that an operation has taken out of it or is about to put into it. And it is a
memory: an address shows the byte of the frame that is mapped there, or the byte a
fault would find. A range that is being unmapped shows nothing.
-/

namespace Nuvix.Vm

open SearchTree Function
open Sharing (Owner)

variable {N : ℕ} {sp sp' : Space N} {v w p : ℕ} {e : Pte} {f : VmFlags} {o op : Op N} {src : Fin N}
  {b : Bool}

/-! ### The owner -/

/-- The frames an operation has in its hands. -/
def Op.held : Op N → List ℕ
  | .pageFill _ _ _ p => [p]
  | .pageUnmap _ _ p => [p]
  | .pageMap _ _ p old => p :: old.toList
  | .unmapFind _ _ batch _ => batch
  | .unmapPages _ _ _ _ batch _ => batch
  | .unmapFlush _ _ _ _ batch _ _ => batch
  | .freePage _ p => [p]
  | _ => []

/-- The entry a clone has copied and not yet counted. -/
def Op.owed : Op N → Option (Fin N × ℕ)
  | .cloneInc src v => some (src, v)
  | _ => none

/-- The frame an operation has allocated. -/
def Op.fresh : Op N → Option ℕ
  | .pageFill _ _ _ p => some p
  | .pageUnmap _ _ p => some p
  | .pageMap _ _ p _ => some p
  | _ => none

/-- The entry that `pgtable_protect_page` has found not to be shared. -/
def Op.sole : Op N → Option ℕ
  | .protectWrite v _ true _ => some v
  | _ => none

/-- The address space as an owner of frames. An entry is marked when it can be written
or is about to be. -/
def Space.owner (sp : Space N) : Owner (Fin N) ℕ ℕ where
  ent v := (sp.pte v).map fun e => (e.frame, e.prot.write || decide (sp.op.sole = some v))
  held := ↑(sp.pending ++ sp.op.held)
  owed := sp.op.owed
  fresh := sp.op.fresh

theorem ent_of_pte (hv : sp.pte v = some e) :
    sp.owner.ent v = some (e.frame, e.prot.write || decide (sp.op.sole = some v)) := by
  change (sp.pte v).map _ = _
  rw [hv]
  rfl

theorem ent_of_pte_none (hv : sp.pte v = none) : sp.owner.ent v = none := by
  change (sp.pte v).map _ = _
  rw [hv]
  rfl

theorem frame_of_pte (hv : sp.pte v = some e) : sp.owner.frame v = some e.frame :=
  Owner.frame_of_ent (ent_of_pte hv)

theorem pte_of_frame (hv : sp.owner.frame v = some p) : ∃ e, sp.pte v = some e ∧ e.frame = p := by
  obtain ⟨b, hent⟩ := Owner.ent_of_frame hv
  cases hpte : sp.pte v with
  | none =>
    rw [ent_of_pte_none hpte] at hent
    cases hent
  | some e =>
    rw [ent_of_pte hpte] at hent
    cases hent
    exact ⟨e, rfl, rfl⟩

theorem owner_eq (hop : sp.op = o) (h : sp'.owner = (sp.setOp o).owner) : sp'.owner = sp.owner := by
  rwa [setOp_self sp hop] at h

/-- A step that the owner does not see. -/
theorem owner_congr (hop : sp.op = o) (hpte : sp'.pte = sp.pte)
    (hpending : sp'.pending = sp.pending) (hheld : sp'.op.held = o.held)
    (howed : sp'.op.owed = o.owed) (hfresh : sp'.op.fresh = o.fresh)
    (hsole : sp'.op.sole = o.sole) : sp'.owner = sp.owner := by
  subst hop
  unfold Space.owner
  rw [hpte, hpending, hheld, howed, hfresh, hsole]

theorem held_append_cons {l l' : List ℕ} : ((l ++ p :: l' : List ℕ) : Multiset ℕ) =
    p ::ₘ ((l ++ l' : List ℕ) : Multiset ℕ) := by
  rw [Multiset.cons_coe, Multiset.coe_eq_coe]
  exact List.perm_middle

theorem owner_alloc {fill : Fill} (hop : sp.op = .pageAlloc v f fill) :
    (sp.setOp (.pageFill v f fill p)).owner = sp.owner.act (.alloc p) := by
  refine Owner.ext ?_ ?_ ?_ rfl
  · funext w
    change (sp.pte w).map _ = (sp.pte w).map _
    rw [hop]
    rfl
  · change ((sp.pending ++ [p] : List ℕ) : Multiset ℕ) =
      p ::ₘ ((sp.pending ++ sp.op.held : List ℕ) : Multiset ℕ)
    rw [hop, held_append_cons]
    rfl
  · change none = sp.op.owed
    rw [hop]
    rfl

/-- The entries after one has been written. -/
theorem ent_setPte (hsole : ∀ w ≠ v, (op.sole = some w ↔ sp.op.sole = some w))
    (hb : b = (e.prot.write || decide (op.sole = some v))) :
    ((sp.setPte v (some e)).setOp op).owner.ent = update sp.owner.ent v (some (e.frame, b)) := by
  funext w
  change (update sp.pte v (some e) w).map _ = _
  rcases eq_or_ne w v with rfl | hne
  · rw [update_self, update_self, hb]
    rfl
  · rw [update_of_ne hne, update_of_ne hne]
    change _ = (sp.pte w).map _
    congr 1
    funext e'
    change (e'.frame, e'.prot.write || decide (op.sole = some w)) = _
    rw [decide_eq_decide.mpr (hsole w hne)]

/-- The entries after one has been removed. -/
theorem ent_setPte_none (hsole : op.sole = sp.op.sole) :
    ((sp.setPte v none).setOp op).owner.ent = update sp.owner.ent v none := by
  funext w
  change (update sp.pte v none w).map _ = _
  rcases eq_or_ne w v with rfl | hne
  · rw [update_self, update_self]
    rfl
  · rw [update_of_ne hne, update_of_ne hne]
    change (sp.pte w).map (fun e => (e.frame, e.prot.write || decide (op.sole = some w))) = _
    rw [hsole]
    rfl

theorem owner_map {old : Option ℕ} (hop : sp.op = .pageMap v f p old) :
    ((((sp.addTable v).setPte v (some ⟨p, vmaToPte f⟩)).setPending
      (old.toList ++ sp.pending)).setOp .idle).owner =
      sp.owner.act (.map v p (vmaToPte f).write) := by
  refine Owner.ext ?_ ?_ ?_ rfl
  · exact ent_setPte (fun w _ => by
      change _ ↔ sp.op.sole = _
      rw [hop]
      exact .rfl) (Bool.or_false _).symm
  · change ((old.toList ++ sp.pending ++ [] : List ℕ) : Multiset ℕ) =
      Multiset.erase ((sp.pending ++ sp.op.held : List ℕ) : Multiset ℕ) p
    rw [hop]
    change _ = Multiset.erase ((sp.pending ++ p :: old.toList : List ℕ) : Multiset ℕ) p
    rw [held_append_cons, Multiset.erase_cons_head, List.append_nil, Multiset.coe_eq_coe]
    exact List.perm_append_comm
  · change none = sp.op.owed
    rw [hop]
    rfl

/-- An entry is removed and its frame held. -/
theorem owner_unmap {q : ℕ} (hop : sp.op = o) (hsole : op.sole = o.sole)
    (hheld : op.held.Perm (q :: o.held)) (howed : op.owed = o.owed) (hfresh : op.fresh = o.fresh) :
    ((sp.setPte v none).setOp op).owner = sp.owner.act (.unmap v q) := by
  subst hop
  refine Owner.ext (ent_setPte_none hsole) ?_ howed hfresh
  change ((sp.pending ++ op.held : List ℕ) : Multiset ℕ) =
    q ::ₘ ((sp.pending ++ sp.op.held : List ℕ) : Multiset ℕ)
  rw [← held_append_cons, Multiset.coe_eq_coe]
  exact hheld.append_left sp.pending

/-- The first frame an operation holds is freed. -/
theorem owner_free (hsole : op.sole = sp.op.sole) (hheld : sp.op.held = p :: op.held)
    (howed : op.owed = sp.op.owed) (hfresh : op.fresh = sp.op.fresh) :
    (sp.setOp op).owner = sp.owner.act (.free p) := by
  refine Owner.ext ?_ ?_ howed hfresh
  · funext w
    change (sp.pte w).map (fun e => (e.frame, e.prot.write || decide (op.sole = some w))) = _
    rw [hsole]
    rfl
  · change ((sp.pending ++ op.held : List ℕ) : Multiset ℕ) =
      Multiset.erase ((sp.pending ++ sp.op.held : List ℕ) : Multiset ℕ) p
    rw [hheld, held_append_cons, Multiset.erase_cons_head]

/-- A frame is freed after the operation has released `mmap_lock`. -/
theorem owner_freePending (hp : p ∈ sp.pending) :
    (sp.setPending (sp.pending.erase p)).owner = sp.owner.act (.free p) := by
  refine Owner.ext rfl ?_ rfl rfl
  change ((sp.pending.erase p ++ sp.op.held : List ℕ) : Multiset ℕ) =
    Multiset.erase ((sp.pending ++ sp.op.held : List ℕ) : Multiset ℕ) p
  rw [Multiset.coe_erase, List.erase_append_left _ hp]

/-- An entry is written. -/
theorem owner_mark (hop : sp.op = o) (hsole : ∀ w ≠ v, (op.sole = some w ↔ o.sole = some w))
    (hb : b = (e.prot.write || decide (op.sole = some v))) (hheld : op.held = o.held)
    (howed : op.owed = o.owed) (hfresh : op.fresh = o.fresh) :
    ((sp.setPte v (some e)).setOp op).owner = sp.owner.act (.mark v e.frame b) := by
  subst hop
  refine Owner.ext (ent_setPte hsole hb) ?_ howed hfresh
  change ((sp.pending ++ op.held : List ℕ) : Multiset ℕ) =
    ((sp.pending ++ sp.op.held : List ℕ) : Multiset ℕ)
  rw [hheld]

/-- A frame that was allocated is not used. -/
theorem owner_giveUp (hop : sp.op = o) (hsole : o.sole = none) (hheld : o.held = [p])
    (howed : o.owed = none) :
    ((sp.setPending (p :: sp.pending)).setOp .idle).owner = sp.owner.act .giveUp := by
  subst hop
  refine Owner.ext ?_ ?_ howed.symm rfl
  · funext w
    change (sp.pte w).map _ = (sp.pte w).map _
    rw [hsole]
    rfl
  · change ((p :: sp.pending ++ [] : List ℕ) : Multiset ℕ) =
      ((sp.pending ++ sp.op.held : List ℕ) : Multiset ℕ)
    rw [hheld, held_append_cons]
    rfl

/-- A clone copies an entry. -/
theorem owner_share (hop : sp.op = .cloneMap src v) (he : e.prot.write = false) :
    (((sp.addTable v).setPte v (some e)).setOp (.cloneInc src v)).owner =
      sp.owner.act (.share src v e.frame) := by
  refine Owner.ext ?_ ?_ rfl ?_
  · exact ent_setPte (fun w _ => by
      change _ ↔ sp.op.sole = _
      rw [hop]
      exact .rfl) (by rw [he]; rfl)
  · change ((sp.pending ++ [] : List ℕ) : Multiset ℕ) =
      ((sp.pending ++ sp.op.held : List ℕ) : Multiset ℕ)
    rw [hop]
    rfl
  · change none = sp.op.fresh
    rw [hop]
    rfl

/-- A clone has counted the entry it has copied. -/
theorem owner_settle (hop : sp.op = .cloneInc src v) :
    (sp.setOp (.cloneScan src w)).owner = sp.owner.act (.settle p) := by
  refine Owner.ext ?_ ?_ rfl ?_
  · funext w
    change (sp.pte w).map _ = (sp.pte w).map _
    rw [hop]
    rfl
  · change ((sp.pending ++ [] : List ℕ) : Multiset ℕ) =
      ((sp.pending ++ sp.op.held : List ℕ) : Multiset ℕ)
    rw [hop]
    rfl
  · change none = sp.op.fresh
    rw [hop]
    rfl

/-! ### The memory -/

/-- The address lies in a range that is being unmapped. -/
def Op.Gone : Op N → ℕ → Prop
  | .unmapFind start stop _ _ => fun a => start ≤ a ∧ a < stop
  | .unmapPages start stop _ _ _ _ => fun a => start ≤ a ∧ a < stop
  | .unmapFlush start stop _ _ _ _ _ => fun a => start ≤ a ∧ a < stop
  | _ => fun _ => False

instance (op : Op N) (a : ℕ) : Decidable (op.Gone a) := by
  unfold Op.Gone
  cases op <;> infer_instance

/-- The copy that takes the place of the page `v`, between the removal of the old entry
and the new one. -/
def Op.replaces : Op N → ℕ → Option ℕ
  | .pageMap w _ p (some _) => fun v => if v = w then some p else none
  | _ => fun _ => none

/-- The frame that page `v` shows. -/
def Space.frameAt (sp : Space N) (v : ℕ) : Option ℕ :=
  (sp.op.replaces v).or ((sp.pte v).map Pte.frame)

section

variable (file : ℕ → ℕ → ℕ) (byte : ℕ → ℕ → ℕ)

/-- The byte a fault at `a` would find in a page that is missing. -/
def image (t : Bst Vma) (a : ℕ) : Option ℕ := (vmaFind t a).map fun vma => imageByte file vma a

/-- What an address shows. -/
def Space.cell (sp : Space N) (a : ℕ) : Option ℕ :=
  if sp.op.Gone a then none
  else
    match sp.frameAt (a / pageSize) with
    | some p => some (byte p (a % pageSize))
    | none => image file sp.mm.vmas a

/-- The memory of a process. -/
def Space.memory (sp : Space N) : Option Memory :=
  if sp.life = .live then some (sp.cell file byte) else none

/-- What an operation knows of the contents of the frame it is about to map. -/
def ContentOk (sp : Space N) : Op N → Prop
  | .pageUnmap v _ p => ∀ e, sp.pte v = some e → byte p = byte e.frame
  | .pageMap v _ p none => sp.life = .live → ∀ o < pageSize,
      image file sp.mm.vmas (v * pageSize + o) = some (byte p o)
  | _ => True

end

variable {file : ℕ → ℕ → ℕ} {byte byte' : ℕ → ℕ → ℕ} {a : ℕ} {t : Bst Vma}

theorem memory_of_live (h : sp.life = .live) : sp.memory file byte = some (sp.cell file byte) :=
  if_pos h

theorem memory_of_ne (h : sp.life ≠ .live) : sp.memory file byte = none := if_neg h

theorem cell_of_gone (h : sp.op.Gone a) : sp.cell file byte a = none := if_pos h

theorem cell_of_frame (h : ¬ sp.op.Gone a) (hp : sp.frameAt (a / pageSize) = some p) :
    sp.cell file byte a = some (byte p (a % pageSize)) := by
  rw [Space.cell, if_neg h, hp]

theorem cell_of_none (h : ¬ sp.op.Gone a) (hp : sp.frameAt (a / pageSize) = none) :
    sp.cell file byte a = image file sp.mm.vmas a := by
  rw [Space.cell, if_neg h, hp]

/-- A cell after a step that changes nothing at its page. -/
theorem cell_congr (hgone : sp'.op.Gone a ↔ sp.op.Gone a)
    (hframe : sp'.frameAt (a / pageSize) = sp.frameAt (a / pageSize))
    (himage : image file sp'.mm.vmas a = image file sp.mm.vmas a) :
    sp'.cell file byte a = sp.cell file byte a := by
  unfold Space.cell
  rw [hframe, himage]
  by_cases h : sp.op.Gone a
  · rw [if_pos h, if_pos (hgone.mpr h)]
  · rw [if_neg h, if_neg fun h' => h (hgone.mp h')]

theorem memory_of_cells (hlife : sp'.life = sp.life)
    (h : sp.life = .live → ∀ a, sp'.cell file byte' a = sp.cell file byte a) :
    sp'.memory file byte' = sp.memory file byte := by
  by_cases hlive : sp.life = .live
  · rw [memory_of_live hlive, memory_of_live (hlife.trans hlive)]
    exact congrArg some (funext (h hlive))
  · rw [memory_of_ne hlive, memory_of_ne fun h' => hlive (hlife.symm.trans h')]

/-- A step that leaves the frames of all pages and the contents of the VMAs. -/
theorem memory_same (hop : sp.op = o) (hlife : sp'.life = sp.life)
    (hframe : ∀ v, (sp'.pte v).map Pte.frame = (sp.pte v).map Pte.frame)
    (himage : image file sp'.mm.vmas = image file sp.mm.vmas)
      (hgone : ∀ a, sp'.op.Gone a ↔ o.Gone a)
    (hreplaces : ∀ v, sp'.op.replaces v = o.replaces v) :
    sp'.memory file byte = sp.memory file byte := by
  subst hop
  refine memory_of_cells hlife fun _ a => cell_congr (hgone a) ?_ (congrFun himage a)
  rw [Space.frameAt, Space.frameAt, hreplaces, hframe]

theorem memory_eq (hop : sp.op = o) (h : sp'.memory file byte = (sp.setOp o).memory file byte) :
    sp'.memory file byte = sp.memory file byte := by
  rwa [setOp_self sp hop] at h

theorem frameAt_of_pte (hr : sp.op.replaces v = none) :
    sp.frameAt v = (sp.pte v).map Pte.frame := by
  rw [Space.frameAt, hr]
  rfl

/-- The frames a memory shows are those of the owner. -/
theorem refers_of_frameAt (h : sp.frameAt v = some p) : sp.owner.Refers p := by
  unfold Space.frameAt at h
  cases hr : sp.op.replaces v with
  | none =>
    rw [hr] at h
    obtain ⟨e, hv, rfl⟩ := Option.map_eq_some_iff.mp h
    exact .inr ⟨v, frame_of_pte hv⟩
  | some q =>
    rw [hr] at h
    obtain rfl : q = p := Option.some.inj h
    refine .inl (Multiset.mem_coe.mpr (List.mem_append_right _ ?_))
    cases hop : sp.op <;> rw [hop] at hr <;> try cases hr
    next w f p' old =>
      cases old with
      | none => cases hr
      | some q' =>
        change (if v = w then some p' else none) = some q at hr
        split_ifs at hr
        cases hr
        exact List.mem_cons_self

/-- Contents of frames that the owner does not refer to do not show. -/
theorem memory_bytes (h : ∀ p, sp.owner.Refers p → byte' p = byte p) :
    sp.memory file byte' = sp.memory file byte := by
  unfold Space.memory
  congr 2
  funext a
  unfold Space.cell
  cases hp : sp.frameAt (a / pageSize) with
  | none => rfl
  | some p =>
    dsimp only
    rw [h p (refers_of_frameAt hp)]

theorem contentOk_bytes (h : ∀ p, sp.owner.Refers p → byte' p = byte p)
    (hc : ContentOk file byte sp sp.op) : ContentOk file byte' sp sp.op := by
  have hheld : ∀ p ∈ sp.op.held, byte' p = byte p :=
    fun p hp => h p (.inl (Multiset.mem_coe.mpr (List.mem_append_right _ hp)))
  cases hop : sp.op <;> rw [hop] at hc hheld <;> try trivial
  case pageUnmap v f p =>
    intro e hv
    rw [hheld p List.mem_cons_self, h e.frame (.inr ⟨v, frame_of_pte hv⟩)]
    exact hc e hv
  case pageMap v f p old =>
    cases old with
    | some q => trivial
    | none =>
      intro hlive o ho
      rw [hheld p List.mem_cons_self]
      exact hc hlive o ho

/-! ### Missing pages under changes of the VMAs -/

variable {t' : Bst Vma} {vma : Vma} {rb : Rebalance Vma}

section

variable (ht : TreeOk t)
include ht

/-- A fault finds the same byte if it reads the same place. -/
theorem image_congr (ht' : TreeOk t')
    (h : ∀ w ∈ t'.toList, w.Covers a → ∃ u ∈ t.toList, u.Covers a ∧ w.filePos a = u.filePos a)
    (h' : ∀ u ∈ t.toList, u.Covers a → ∃ w ∈ t'.toList, w.Covers a) :
    image file t' a = image file t a := by
  unfold image
  cases hfind' : vmaFind t' a with
  | none =>
    cases hfind : vmaFind t a with
    | none => rfl
    | some u =>
      obtain ⟨hu, hua⟩ := vmaFind_eq_some hfind
      obtain ⟨w, hw, hwa⟩ := h' u hu hua
      exact absurd hwa (vmaFind_eq_none ht'.inOrder hfind' w hw)
  | some w =>
    obtain ⟨hw, hwa⟩ := vmaFind_eq_some hfind'
    obtain ⟨u, hu, hua, hpos⟩ := h w hw hwa
    rw [(vmaFind_eq_some_iff ht).mpr ⟨hu, hua⟩]
    simp only [Option.map_some, imageByte, hpos]

theorem image_refines (ht' : TreeOk t') (h : Refines t' t) : image file t' a = image file t a := by
  refine image_congr ht ht' (fun w hw hwa => ?_) fun u hu hua => h.cover u hu a hua
  obtain ⟨u, hu, hstart, hstop, -, hpos⟩ := h.part w hw
  exact ⟨u, hu, ⟨hstart.trans hwa.1, hwa.2.trans_le hstop⟩, hpos a hwa⟩

theorem image_erase (ha : ¬ vma.Covers a) : image file (rb.erase vma t) a = image file t a := by
  refine image_congr ht ht.erase (fun w hw hwa => ⟨w, (ht.mem_erase.mp hw).2, hwa, rfl⟩)
    fun u hu hua => ⟨u, ht.mem_erase.mpr ⟨?_, hu⟩, hua⟩
  rintro rfl
  exact ha hua

theorem image_setFlags : image file (setFlags vma f t) a = image file t a := by
  refine image_congr ht (ht.setFlags vma f) (fun w hw hwa => ?_) fun u hu hua => ?_
  · rcases mem_setFlags hw with ⟨hw, -⟩ | ⟨hvma, rfl⟩
    · exact ⟨w, hw, hwa, rfl⟩
    · exact ⟨vma, hvma, hwa, rfl⟩
  · rcases eq_or_ne u vma with rfl | hne
    · exact ⟨_, mem_setFlags_self hu, hua⟩
    · exact ⟨u, mem_setFlags_of_ne hu hne, hua⟩

theorem image_same (ht' : TreeOk t') (h : ∀ w, w ∈ t'.toList ↔ w ∈ t.toList) :
    image file t' a = image file t a :=
  image_congr ht ht' (fun w hw hwa => ⟨w, (h w).mp hw, hwa, rfl⟩)
    fun u hu hua => ⟨u, (h u).mpr hu, hua⟩

/-- A new VMA without a file shows zeros. -/
theorem image_insert (hok : vmaInsert rb t vma = .ok t') (hfile : vma.file = none) :
    image file t' a = if vma.start ≤ a ∧ a < vma.stop then some 0 else image file t a := by
  obtain ⟨-, ht', hmem⟩ := of_vmaInsert_eq_ok ht hok
  split_ifs with ha
  · unfold image
    rw [(vmaFind_eq_some_iff ht').mpr ⟨(hmem vma).mpr (.inl rfl), ha⟩]
    simp only [Option.map_some, imageByte, Vma.filePos, hfile]
  · refine image_congr ht ht' (fun w hw hwa => ?_) fun u hu hua => ⟨u, (hmem u).mpr (.inr hu), hua⟩
    rcases (hmem w).mp hw with rfl | hw
    · exact absurd hwa ha
    · exact ⟨w, hw, hwa, rfl⟩

omit ht in
theorem image_eq_none (h : ∀ w ∈ t.toList, ¬ w.Covers a) : image file t a = none := by
  unfold image
  cases hfind : vmaFind t a with
  | none => rfl
  | some w => exact absurd (vmaFind_eq_some hfind).2 (h w (vmaFind_eq_some hfind).1)

end

end Nuvix.Vm
