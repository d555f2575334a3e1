import Nuvix.Mm.PageTable

/-!
# The invariant of one address space

The VMAs and the page table of an address space are changed by one operation at a
time, the VMAs first and the entries after them, page by page. Where the operation has
not been yet, an entry may lack its VMA or have permissions its VMA no longer gives.
Everywhere else an entry lies in a VMA and agrees with its permissions, except that it
may lack the permission to write, and except for the page of the signal trampoline,
which has no VMA.
-/

namespace Nuvix.Vm

open SearchTree Transition Function

/-! ### Permissions -/

/-- The entry has the permissions of the VMA, up to the permission to write. -/
structure Fits (f : VmFlags) (p : PteProt) : Prop where
  same : p.dropWrite = (vmaToPte f).dropWrite
  write : p.write = true → f.write = true

variable {f : VmFlags} {p : PteProt}

theorem write_of_vmaToPte (h : (vmaToPte f).write = true) : f.write = true := by
  unfold vmaToPte at h
  split_ifs at h
  exact h

theorem fits_vmaToPte (f : VmFlags) : Fits f (vmaToPte f) := ⟨rfl, write_of_vmaToPte⟩

theorem Fits.dropWrite (h : Fits f p) : Fits f p.dropWrite := ⟨h.same, nofun⟩

theorem fits_protectedPte (e : Pte) (f : VmFlags) (exclusive : Bool) :
    Fits f (protectedPte e f exclusive).prot := by
  cases exclusive with
  | true => exact fits_vmaToPte f
  | false => exact (fits_vmaToPte f).dropWrite

/-- An entry without access is one of a VMA without permissions. -/
theorem Fits.noAccess (h : Fits f p) :
    p.noAccess = true ↔ f.read = false ∧ f.write = false ∧ f.exec = false := by
  have hsame : p.noAccess = (vmaToPte f).noAccess :=
    (congrArg PteProt.noAccess h.same :)
  rw [hsame]
  unfold vmaToPte
  split_ifs with hnone
  · exact iff_of_true rfl hnone
  · exact iff_of_false nofun hnone

theorem Fits.valid (h : Fits f p) :
    p.valid = true ↔ ¬ (f.read = false ∧ f.write = false ∧ f.exec = false) := by
  have hsame : p.valid = (vmaToPte f).valid :=
    (congrArg PteProt.valid h.same :)
  rw [hsame]
  unfold vmaToPte
  split_ifs with hnone
  · exact iff_of_false nofun (not_not_intro hnone)
  · exact iff_of_true rfl hnone

/-- Every permission of the entry is one of the VMA. -/
theorem Fits.allows (h : Fits f p) (hf : f.Readable) :
    (p.read = true → f.read = true) ∧ (p.write = true → f.write = true) ∧
      (p.exec = true → f.exec = true) := by
  have hread : p.read = (vmaToPte f).read :=
    (congrArg PteProt.read h.same :)
  have hexec : p.exec = (vmaToPte f).exec :=
    (congrArg PteProt.exec h.same :)
  refine ⟨fun hp => ?_, h.write, fun hp => ?_⟩
  · rw [hread, vmaToPte] at hp
    split_ifs at hp
    rcases Bool.or_eq_true_iff.mp hp with hr | hw
    · exact hr
    · exact hf hw
  · rw [hexec, vmaToPte] at hp
    split_ifs at hp
    exact hp

/-- Some VMA covers page `v` and has these permissions. -/
def HasFlags (t : Bst Vma) (v : ℕ) (f : VmFlags) : Prop :=
  ∃ vma ∈ t.toList, vma.Covers (v * pageSize) ∧ vma.flags = f

/-- An entry at page `v` that agrees with the VMA there. -/
def Allowed (t : Bst Vma) (v : ℕ) (p : PteProt) : Prop := ∃ f, HasFlags t v f ∧ Fits f p

/-! ### Operations -/

variable {N : ℕ}

/-- The address space a clone copies from, and the number of pages it has copied. -/
def Op.cloning : Op N → Option (Fin N × ℕ)
  | .cloneScan src v => some (src, v)
  | .cloneMap src v => some (src, v)
  | .cloneInc src v => some (src, v + 1)
  | _ => none

/-- The page lies in `[a, e)`. -/
def PageIn (a e v : ℕ) : Prop := a ≤ v * pageSize ∧ v * pageSize < e

/-- The pages of a VMA that has been removed or changed which the operation still has
to visit. -/
def Op.Unsettled : Op N → ℕ → Prop
  | .unmapPages _ _ a e _ _ => PageIn a e
  | .unmapFlush _ _ a e _ _ _ => PageIn a e
  | .protectPages a e _ _ => PageIn a e
  | .protectRead _ _ (.range a e _) => PageIn a e
  | .protectWrite _ _ _ (.range a e _) => PageIn a e
  | _ => fun _ => False

section

variable (cfg : MmConfig)

/-- During an `unmap_range` no VMA extends over an end of the range. -/
structure UnmapOk (life : Life) (t : Bst Vma) (start stop : ℕ) (after : After) : Prop where
  live : life = .live
  range : RangeOk start stop
  first : NoCross start t
  last : NoCross stop t
  after : AfterOk cfg start stop after

/-- The loop of `unmap_range` over the rest `[a, e)` of a VMA. -/
structure RestOk (start stop a e : ℕ) : Prop where
  a_aligned : a % pageSize = 0
  e_aligned : e % pageSize = 0
  lower : start ≤ a
  upper : e ≤ stop

/-- The loop of `protect_range` over the rest `[a, e)` of a VMA. -/
structure ProtectOk (t : Bst Vma) (f : VmFlags) (a e : ℕ) : Prop where
  aligned : a % pageSize = 0
  readable : f.Readable
  vma : ∃ vma ∈ t.toList, vma.flags = f ∧ vma.stop = e ∧ vma.start ≤ a ∧ a ≤ e

def CallerOk (t : Bst Vma) (v : ℕ) (f : VmFlags) : Caller → Prop
  | .fault => True
  | .range a e _ => v = a / pageSize ∧ a < e ∧ ProtectOk t f a e

/-- The page that is to be filled: one that is missing in a VMA, a copy of one that is
there, or one that the program starts with. -/
def FillOk (sp : Space N) (v : ℕ) (f : VmFlags) : Fill → Prop
  | .image vma => sp.life = .live ∧ vma ∈ sp.mm.vmas.toList ∧ vma.Covers (v * pageSize) ∧
      vma.flags = f ∧ sp.pte v = none
  | .copy => sp.life = .live ∧ HasFlags sp.mm.vmas v f ∧ ∃ e, sp.pte v = some e
  | .bytes _ => sp.life = .building ∧ setupFlags cfg v = some f ∧ sp.pte v = none

/-- What an operation knows of the address space. -/
def OpOk (sp : Space N) : Op N → Prop
  | .idle => True
  | .faultProbe v vma => sp.life = .live ∧ HasFlags sp.mm.vmas v vma.flags ∧
      ∃ e, sp.pte v = some e
  | .protectRead v f caller => sp.life = .live ∧ HasFlags sp.mm.vmas v f ∧
      CallerOk sp.mm.vmas v f caller
  | .protectWrite v f _ caller => sp.life = .live ∧ HasFlags sp.mm.vmas v f ∧
      CallerOk sp.mm.vmas v f caller
  | .pageAlloc v f fill => FillOk cfg sp v f fill
  | .pageFill v f fill _ => FillOk cfg sp v f fill
  | .pageUnmap v f _ => FillOk cfg sp v f .copy
  | .pageMap v f _ old => v < uvpns ∧ sp.pte v = none ∧
      (sp.life = .live ∧ HasFlags sp.mm.vmas v f ∧ (old ≠ none → sp.table (v / 512) = true) ∨
        sp.life = .building ∧ setupFlags cfg v = some f ∧ old = none)
  | .unmapFind start stop _ after => UnmapOk cfg sp.life sp.mm.vmas start stop after
  | .unmapPages start stop a e _ after => UnmapOk cfg sp.life sp.mm.vmas start stop after ∧
      RestOk start stop a e
  | .unmapFlush start stop a e _ last after => UnmapOk cfg sp.life sp.mm.vmas start stop after ∧
      RestOk start stop a e ∧ (last = true → e ≤ a ∧
        ∀ w ∈ sp.mm.vmas.toList, w.stop ≤ start ∨ stop ≤ w.start)
  | .protectFind a _ f => sp.life = .live ∧ a % pageSize = 0 ∧ NoCross a sp.mm.vmas ∧ f.Readable
  | .protectPages a e _ f => sp.life = .live ∧ ProtectOk sp.mm.vmas f a e
  | .forking => sp.life = .live
  | .cloneScan _ _ => sp.life = .building
  | .cloneMap _ _ => sp.life = .building
  | .cloneInc _ _ => sp.life = .building
  | .freeScan v => sp.life = .zombie ∧ ∀ w < v, sp.pte w = none
  | .freePage v _ => sp.life = .zombie ∧ ∀ w ≤ v, sp.pte w = none

/-- A present entry lies in the user half, in a table that exists, and the trampoline
cannot be written. -/
structure EntryOk (table : ℕ → Bool) (v : ℕ) (e : Pte) : Prop where
  lt : v < uvpns
  table : table (v / 512) = true
  trampoline : v = trampolineVpn → e.prot.write = false

/-- The VMA of the stack. -/
def stackVma : Vma :=
  { start := cfg.ustackBottom, stop := ustackTop, flags := { read := true, write := true } }

/-- **The invariant of one address space.** -/
structure SpaceOk (sp : Space N) : Prop where
  mm : MmOk cfg sp.mm
  table : ∀ v e, sp.pte v = some e → EntryOk sp.table v e
  fits : sp.life ≠ .zombie → ∀ v e, sp.pte v = some e → v ≠ trampolineVpn → ¬ sp.op.Unsettled v →
    Allowed sp.mm.vmas v e.prot
  empty : sp.life = .unused → ∀ v, sp.pte v = none
  stack : sp.life = .building → sp.op.cloning = none → stackVma cfg ∈ sp.mm.vmas.toList
  built : sp.life = .building → sp.op.cloning = none → ∀ v e, sp.pte v = some e →
    ∃ f, setupFlags cfg v = some f ∧ e.prot = vmaToPte f
  op : OpOk cfg sp sp.op

end

variable {cfg : MmConfig} {rb : Rebalance Vma} {sp : Space N} {t : Bst Vma}
  {v w q a e' start stop : ℕ} {vma : Vma} {e : Pte} {op old : Op N} {caller : Caller} {src : Fin N}
  {table : ℕ → Bool} {mm : Mm} {t' : Bst Vma} {brk : ℕ}

theorem uvpns_eq : uvpns = 67108864 := rfl

theorem trampolineVpn_eq : trampolineVpn = 67108863 := rfl

theorem Op.isIdle_iff : op.isIdle = true ↔ op = .idle := by
  cases op <;> simp [Op.isIdle]

theorem setOp_self (sp : Space N) (h : sp.op = op) : sp.setOp op = sp := by
  subst h
  rfl

/-- Only an address space that is in use has an operation. -/
theorem OpOk.life (h : OpOk cfg sp op) (hne : op ≠ .idle) : sp.life ≠ .unused := by
  have hcases : sp.life = .live ∨ sp.life = .building ∨ sp.life = .zombie := by
    cases op with
    | idle => exact absurd rfl hne
    | faultProbe v vma | protectRead v f caller | protectWrite v f exclusive caller
    | pageUnmap v f p | protectFind a stop f | protectPages a e stop f => exact .inl h.1
    | pageAlloc v f fill | pageFill v f fill p =>
      cases fill with
      | image vma => exact .inl h.1
      | copy => exact .inl h.1
      | bytes content => exact .inr (.inl h.1)
    | pageMap v f p old => exact h.2.2.imp (fun h => h.1) fun h => .inl h.1
    | unmapFind start stop batch after => exact .inl h.live
    | unmapPages start stop a e batch after | unmapFlush start stop a e batch last after =>
      exact .inl h.1.live
    | forking => exact .inl h
    | cloneScan src v | cloneMap src v | cloneInc src v => exact .inr (.inl h)
    | freeScan v | freePage v p => exact .inr (.inr h.1)
  rcases hcases with hlife | hlife | hlife <;> rw [hlife] <;> exact nofun

/-! ### Changing the VMAs -/

/-- Splitting VMAs leaves the permissions of every page. -/
theorem HasFlags.of_refines (h : HasFlags t v f) (htree : TreeOk t) (hrefines : Refines t' t) :
    HasFlags t' v f := by
  obtain ⟨vma, hvma, hcov, hflags⟩ := h
  obtain ⟨w, hw, hwcov⟩ := hrefines.cover vma hvma _ hcov
  obtain ⟨u, hu, hstart, hstop, hwflags, -⟩ := hrefines.part w hw
  have huvma : u = vma :=
    htree.eq_of_covers hu hvma ⟨hstart.trans hwcov.1, hwcov.2.trans_le hstop⟩ hcov
  exact ⟨w, hw, hwcov, by rw [hwflags, huvma, hflags]⟩

theorem HasFlags.of_subset (h : HasFlags t v f)
    (hsub : ∀ w ∈ t.toList, w.Covers (v * pageSize) → w ∈ t'.toList) : HasFlags t' v f := by
  obtain ⟨vma, hvma, hcov, hflags⟩ := h
  exact ⟨vma, hsub vma hvma hcov, hcov, hflags⟩

/-- The trampoline lies above all VMAs. -/
theorem HasFlags.ne_trampoline (h : HasFlags mm.vmas v f) (hmm : MmOk cfg mm) :
    v < uvpns ∧ v ≠ trampolineVpn := by
  obtain ⟨vma, hvma, hcov, -⟩ := h
  have htop := hmm.layout.top vma hvma
  have hlt := hcov.2
  rw [ustackTop_eq] at htop
  rw [pageSize_eq] at hlt
  rw [uvpns_eq, trampolineVpn_eq]
  omega

theorem covers_page {addr : ℕ} (h : vma.Valid) (hcov : vma.Covers addr) :
    vma.Covers (addr / pageSize * pageSize) := by
  have haligned := h.start_aligned
  obtain ⟨hle, hlt⟩ := hcov
  constructor
  · rw [pageSize_eq] at *
    omega
  · exact (Nat.div_mul_le_self addr pageSize).trans_lt hlt

/-- A VMA that covers the start of a page covers all of it. -/
theorem covers_of_page {o : ℕ} (h : vma.Valid) (hcov : vma.Covers (v * pageSize))
    (ho : o < pageSize) : vma.Covers (v * pageSize + o) := by
  obtain ⟨k, hk⟩ := Nat.dvd_of_mod_eq_zero h.stop_aligned
  obtain ⟨hle, hlt⟩ := hcov
  refine ⟨hle.trans (Nat.le_add_right _ _), ?_⟩
  rw [hk, Nat.mul_comm] at hlt ⊢
  have hnext : pageSize * (v + 1) ≤ pageSize * k :=
    Nat.mul_le_mul_left _ (Nat.lt_of_mul_lt_mul_left hlt)
  rw [Nat.mul_add] at hnext
  omega

/-- Pages of an aligned range. -/
theorem pageIn_succ (ha : a % pageSize = 0) (hw : PageIn a e' w)
    (hnot : ¬ PageIn (a + pageSize) e' w) : w = a / pageSize := by
  unfold PageIn at *
  rw [pageSize_eq] at *
  omega

theorem not_pageIn_of_le (h : e' ≤ a) : ¬ PageIn a e' w :=
  fun hw => absurd (hw.1.trans_lt hw.2) (Nat.not_lt.mpr h)

/-- The pages a program is set up with. -/
theorem setupFlags_eq_some (h : setupFlags cfg v = some f) :
    v < uvpns ∧ (v ≠ trampolineVpn → (stackVma cfg).Covers (v * pageSize) ∧
      f = { read := true, write := true }) ∧ (v = trampolineVpn → f.write = false) := by
  unfold setupFlags at h
  split_ifs at h with hstack htramp
  · cases h
    have hlt := hstack.2
    rw [ustackTop_eq, pageSize_eq] at hlt
    refine ⟨?_, fun _ => ⟨hstack, rfl⟩, fun hv => ?_⟩
    · rw [uvpns_eq]
      omega
    · rw [hv, trampolineVpn_eq] at hlt
      omega
  · cases h
    refine ⟨?_, fun hne => absurd htramp hne, fun _ => rfl⟩
    rw [htramp, uvpns_eq, trampolineVpn_eq]
    omega

theorem EntryOk.addTable (h : EntryOk table w e) : EntryOk (update table v true) w e := by
  refine ⟨h.lt, ?_, h.trampoline⟩
  rw [update_apply]
  split_ifs
  · rfl
  · exact h.table

/-- The entries after one has been removed. -/
theorem pte_of_setPte_none (h : (sp.setPte v none).pte w = some e) : w ≠ v ∧ sp.pte w = some e :=
  (eq_of_update h).resolve_left nofun

/-- The entries after one has been written. -/
theorem pte_of_setPte_some {e' : Pte} (h : (sp.setPte v (some e)).pte w = some e') :
    w = v ∧ e' = e ∨ w ≠ v ∧ sp.pte w = some e' :=
  (eq_of_update h).imp_left (And.imp_right fun heq => (Option.some.inj heq).symm)

namespace SpaceOk

/-! ### Ways to show the invariant -/

theorem of_live (hlive : sp.life = .live) (hmm : MmOk cfg sp.mm)
    (htable : ∀ v e, sp.pte v = some e → EntryOk sp.table v e)
    (hfits : ∀ v e, sp.pte v = some e → v ≠ trampolineVpn → ¬ sp.op.Unsettled v →
      Allowed sp.mm.vmas v e.prot) (hop : OpOk cfg sp sp.op) : SpaceOk cfg sp := by
  refine ⟨hmm, htable, fun _ => hfits, ?_, ?_, ?_, hop⟩ <;> rw [hlive] <;> exact nofun

theorem of_zombie (hzombie : sp.life = .zombie) (hmm : MmOk cfg sp.mm)
    (htable : ∀ v e, sp.pte v = some e → EntryOk sp.table v e)
    (hop : OpOk cfg sp sp.op) : SpaceOk cfg sp := by
  refine ⟨hmm, htable, fun h => absurd hzombie h, ?_, ?_, ?_, hop⟩ <;> rw [hzombie] <;> exact nofun

section

variable (h : SpaceOk cfg sp)
include h

/-- A step that only moves the operation on. -/
theorem setOp (hold : sp.op = old) (hcl : old.cloning = none)
    (hsettled : ∀ v e, sp.pte v = some e → old.Unsettled v → op.Unsettled v)
    (hop : OpOk cfg sp op) : SpaceOk cfg (sp.setOp op) := by
  subst hold
  refine ⟨h.mm, h.table, fun hz v e hv hne hu => h.fits hz v e hv hne fun hold => ?_, h.empty,
    fun hb _ => h.stack hb hcl, fun hb _ => h.built hb hcl, by cases op <;> exact hop⟩
  exact hu (hsettled v e hv hold)

/-- An operation that stops, or goes on with a page. -/
theorem setOp_of_settled (hold : sp.op = old) (hcl : old.cloning = none)
    (hsettled : ∀ w, ¬ old.Unsettled w) (hop : OpOk cfg sp op) : SpaceOk cfg (sp.setOp op) :=
  h.setOp hold hcl (fun w _ _ hu => absurd hu (hsettled w)) hop

/-- Where the operation has been, an entry agrees with its VMA. -/
theorem allowed (hlive : sp.life = .live) (hold : sp.op = old) (hw : sp.pte w = some e)
    (hne : w ≠ trampolineVpn) (hu : ¬ old.Unsettled w) : Allowed sp.mm.vmas w e.prot :=
  h.fits (by rw [hlive]; exact nofun) w e hw hne (hold ▸ hu)

theorem opOk (hop : sp.op = op) : OpOk cfg sp op := hop ▸ h.op

/-! ### Faults -/

theorem fault (hrun : sp.Running) (addr : ℕ) (access : Access) :
    SpaceOk cfg (sp.setOp (sp.faultStart addr access)) := by
  refine h.setOp_of_settled (Op.isIdle_iff.mp hrun.2) rfl (fun _ => id) ?_
  unfold Space.faultStart
  cases hfind : vmaFind sp.mm.vmas addr with
  | none => trivial
  | some vma =>
    obtain ⟨hmem, hcov⟩ := vmaFind_eq_some hfind
    have hpage := covers_page (h.mm.layout.tree.valid vma hmem) hcov
    have hflags : HasFlags sp.mm.vmas (addr / pageSize) vma.flags := ⟨vma, hmem, hpage, rfl⟩
    dsimp only
    by_cases hallowed : access.allowedBy vma.flags = true
    swap
    · rw [if_neg hallowed]
      trivial
    rw [if_pos hallowed]
    cases hpte : sp.pte (addr / pageSize) with
    | none => exact ⟨hrun.1, hmem, hpage, rfl, hpte⟩
    | some e =>
      cases hvalid : e.prot.valid with
      | true =>
        simp only [Option.filter, hvalid, if_true]
        split_ifs
        · exact ⟨hrun.1, hflags, e, hpte⟩
        · trivial
      | false =>
        exfalso
        -- a VMA that allows the access has no entries without access
        obtain ⟨f, ⟨vma', hmem', hpage', rfl⟩, hfits⟩ := h.allowed hrun.1
          (Op.isIdle_iff.mp hrun.2) hpte (hflags.ne_trampoline h.mm).2 id
        have hvma : vma' = vma := h.mm.layout.tree.eq_of_covers hmem' hmem hpage' hpage
        have hnone := hfits.valid.not.mp (by rw [hvalid]; exact nofun)
        rw [not_not, hvma] at hnone
        cases access <;> simp only [Access.allowedBy] at hallowed <;> simp_all

theorem probe (hop : sp.op = .faultProbe v vma) (exclusive : Prop) [Decidable exclusive] :
    SpaceOk cfg (sp.setOp (if exclusive then .protectRead v vma.flags .fault
      else .pageAlloc v vma.flags .copy)) := by
  obtain ⟨hlive, hflags, hpte⟩ := h.opOk hop
  refine h.setOp_of_settled hop rfl (fun _ => id) ?_
  split_ifs
  · exact ⟨hlive, hflags, trivial⟩
  · exact ⟨hlive, hflags, hpte⟩

/-! ### Entries that get other permissions -/

theorem opOk_next (hlive : sp.life = .live) (hcaller : CallerOk sp.mm.vmas v f caller) :
    OpOk cfg sp (caller.next f) := by
  cases caller with
  | fault => trivial
  | range a e stop =>
    obtain ⟨-, hlt, haligned, hreadable, vma, hmem, hflags, hstop, hstart, hle⟩ := hcaller
    have hvalid := (h.mm.layout.tree.valid vma hmem).stop_aligned
    refine ⟨hlive, ?_, hreadable, vma, hmem, hflags, hstop, hstart.trans (Nat.le_add_right _ _), ?_⟩
    · rw [Nat.add_mod_right, haligned]
    · rw [hstop] at hvalid
      rw [pageSize_eq] at *
      omega

omit h in
/-- The only page that is settled is the one that has been visited. -/
theorem unsettled_next (exclusive : Bool) (hcaller : CallerOk t v f caller) (hne : w ≠ v)
    (hw : (Op.protectWrite (N := N) v f exclusive caller).Unsettled w) :
    (caller.next (N := N) f).Unsettled w := by
  cases caller with
  | fault => exact hw.elim
  | range a e stop =>
    by_contra hnot
    exact hne ((pageIn_succ hcaller.2.2.aligned hw hnot).trans hcaller.1.symm)

theorem protectSkip (hop : sp.op = .protectRead v f caller) (hv : sp.pte v = none) :
    SpaceOk cfg (sp.setOp (caller.next f)) := by
  obtain ⟨hlive, -, hcaller⟩ := h.opOk hop
  refine h.setOp hop rfl (fun w e hw hu => ?_) (h.opOk_next hlive hcaller)
  have hne : w ≠ v := by
    rintro rfl
    rw [hv] at hw
    cases hw
  refine unsettled_next true hcaller hne ?_
  cases caller <;> exact hu

theorem protectRead (hop : sp.op = .protectRead v f caller) (exclusive : Bool) :
    SpaceOk cfg (sp.setOp (.protectWrite v f exclusive caller)) := by
  have hok := h.opOk hop
  refine h.setOp hop rfl (fun w e _ hu => ?_) hok
  cases caller <;> exact hu

theorem protectWrite {exclusive : Bool} (hop : sp.op = .protectWrite v f exclusive caller)
    (hv : sp.pte v = some e) :
    SpaceOk cfg ((sp.setPte v (some (protectedPte e f exclusive))).setOp (caller.next f)) := by
  obtain ⟨hlive, hflags, hcaller⟩ := h.opOk hop
  refine of_live hlive h.mm (fun w e' hw => ?_) (fun w e' hw hne hu => ?_) ?_
  · rcases pte_of_setPte_some hw with ⟨rfl, -⟩ | ⟨-, hw⟩
    · have hentry := h.table w e hv
      exact ⟨hentry.lt, hentry.table, fun ht => absurd ht (hflags.ne_trampoline h.mm).2⟩
    · exact h.table w e' hw
  · rcases pte_of_setPte_some hw with ⟨rfl, rfl⟩ | ⟨hwv, hw⟩
    · exact ⟨f, hflags, fits_protectedPte e f exclusive⟩
    · exact h.allowed hlive hop hw hne fun hold => hu (unsettled_next exclusive hcaller hwv hold)
  · have hnext := h.opOk_next hlive hcaller
    cases caller <;> exact hnext

/-! ### New pages -/

theorem setPending (pending : List ℕ) : SpaceOk cfg (sp.setPending pending) := by
  refine ⟨h.mm, h.table, h.fits, h.empty, h.stack, h.built, ?_⟩
  have hop := h.op
  change OpOk cfg (sp.setPending pending) sp.op
  cases hsp : sp.op <;> rw [hsp] at hop <;> exact hop

theorem filled {fill : Fill} (hop : sp.op = .pageFill v f fill q) (hfill : fill ≠ .copy) :
    SpaceOk cfg (sp.setOp (.pageMap v f q none)) := by
  have hok := h.opOk hop
  refine h.setOp_of_settled hop rfl (fun _ => id) ?_
  cases fill with
  | image vma =>
    obtain ⟨hlive, hmem, hcov, hflags, hpte⟩ := hok
    have hhas : HasFlags sp.mm.vmas v f := ⟨vma, hmem, hcov, hflags⟩
    exact ⟨(hhas.ne_trampoline h.mm).1, hpte, .inl ⟨hlive, hhas, fun hne => absurd rfl hne⟩⟩
  | copy => exact absurd rfl hfill
  | bytes content =>
    obtain ⟨hbuilding, hflags, hpte⟩ := hok
    exact ⟨(setupFlags_eq_some hflags).1, hpte, .inr ⟨hbuilding, hflags, rfl⟩⟩

theorem pageUnmap (hop : sp.op = .pageUnmap v f q) (hv : sp.pte v = some e) :
    SpaceOk cfg ((sp.setPte v none).setOp (.pageMap v f q (some e.frame))) := by
  obtain ⟨hlive, hflags, -⟩ := h.opOk hop
  refine of_live hlive h.mm (fun w e' hw => ?_) (fun w e' hw hne _ => ?_) ?_
  · exact h.table w e' (pte_of_setPte_none hw).2
  · exact h.allowed hlive hop (pte_of_setPte_none hw).2 hne id
  · refine ⟨(h.table v e hv).lt, ?_, .inl ⟨hlive, hflags, fun _ => (h.table v e hv).table⟩⟩
    exact update_self ..

/-- The page is mapped in its VMA, or where the program starts. -/
theorem mapped {old : Option ℕ} (hop : sp.op = .pageMap v f q old) (pending : List ℕ) :
    SpaceOk cfg ((((sp.addTable v).setPte v (some ⟨q, vmaToPte f⟩)).setPending pending).setOp
      .idle) := by
  obtain ⟨hlt, -, hcase⟩ := h.opOk hop
  have htramp : v = trampolineVpn → (vmaToPte f).write = false := by
    intro ht
    rw [Bool.eq_false_iff]
    intro hwrite
    rcases hcase with ⟨-, hflags, -⟩ | ⟨-, hflags, -⟩
    · exact (hflags.ne_trampoline h.mm).2 ht
    · exact Bool.eq_false_iff.mp ((setupFlags_eq_some hflags).2.2 ht) (write_of_vmaToPte hwrite)
  have htable : ∀ w e', (sp.setPte v (some ⟨q, vmaToPte f⟩)).pte w = some e' →
      EntryOk (update sp.table (v / 512) true) w e' := by
    intro w e' hw
    rcases pte_of_setPte_some hw with ⟨rfl, rfl⟩ | ⟨-, hw⟩
    · exact ⟨hlt, update_self .., htramp⟩
    · exact (h.table w e' hw).addTable
  have hfits : sp.life ≠ .zombie → (v ≠ trampolineVpn → HasFlags sp.mm.vmas v f) →
      ∀ w e', (sp.setPte v (some ⟨q, vmaToPte f⟩)).pte w = some e' → w ≠ trampolineVpn →
        Allowed sp.mm.vmas w e'.prot := by
    intro hz hhas w e' hw hne
    rcases pte_of_setPte_some hw with ⟨rfl, rfl⟩ | ⟨-, hw⟩
    · exact ⟨f, hhas hne, fits_vmaToPte f⟩
    · refine h.fits hz w e' hw hne ?_
      rw [hop]
      exact id
  rcases hcase with ⟨hlive, hflags, -⟩ | ⟨hbuilding, hflags, -⟩
  · refine of_live hlive h.mm htable (fun w e' hw hne _ => ?_) trivial
    exact hfits (by rw [hlive]; exact nofun) (fun _ => hflags) w e' hw hne
  · have hstack := h.stack hbuilding (by rw [hop]; rfl)
    refine ⟨h.mm, htable, fun hz w e' hw hne _ => hfits hz (fun hv => ?_) w e' hw hne,
      fun hunused => ?_, fun _ _ => hstack, fun _ _ w e' hw => ?_, trivial⟩
    · obtain ⟨hcov, rfl⟩ := (setupFlags_eq_some hflags).2.1 hv
      exact ⟨stackVma cfg, hstack, hcov, rfl⟩
    · change sp.life = .unused at hunused
      rw [hbuilding] at hunused
      cases hunused
    · rcases pte_of_setPte_some hw with ⟨rfl, rfl⟩ | ⟨-, hw⟩
      · exact ⟨f, hflags, rfl⟩
      · exact h.built hbuilding (by rw [hop]; rfl) w e' hw

/-- A page that replaces another one can be mapped. -/
theorem not_mapFails {old : ℕ} {ok : Bool} (hop : sp.op = .pageMap v f q (some old)) :
    ¬ MapFails sp v ok := by
  obtain ⟨-, hpte, ⟨-, -, htable⟩ | ⟨-, -, hnone⟩⟩ := h.opOk hop
  · rintro (⟨hfalse, -⟩ | hne)
    · rw [htable nofun] at hfalse
      cases hfalse
    · exact hne hpte
  · cases hnone

end

/-! ### Removing mappings -/

section

variable {batch : List ℕ} {after : After} {last : Bool}

section

variable (h : SpaceOk cfg sp)
include h

theorem unmapNone (hop : sp.op = .unmapFind start stop batch after)
    (hnone : vmaFindIntersection sp.mm.vmas start stop = none) :
    SpaceOk cfg (sp.setOp (.unmapFlush start stop stop stop batch true after)) := by
  have hok := h.opOk hop
  refine h.setOp_of_settled hop rfl (fun _ => id) ?_
  refine ⟨hok, ⟨hok.range.stop_aligned, hok.range.stop_aligned, hok.range.lt.le, le_rfl⟩,
    fun _ => ?_⟩
  exact ⟨le_rfl, vmaFindIntersection_eq_none h.mm.layout.tree hnone⟩

theorem unmapVma (hop : sp.op = .unmapFind start stop batch after)
    (hfound : vmaFindIntersection sp.mm.vmas start stop = some vma) :
    SpaceOk cfg ((sp.setVmas (rb.erase vma sp.mm.vmas)).setOp
      (.unmapPages start stop vma.start vma.stop batch after)) := by
  have hok := h.opOk hop
  obtain ⟨hmem, hstart, hstop⟩ := vmaFindIntersection_eq_some hfound
  have htree := h.mm.layout.tree
  have hvalid := htree.valid vma hmem
  have hsub : Parts (fun _ => False) (rb.erase vma sp.mm.vmas) sp.mm.vmas :=
    .of_subset fun w hw => (htree.mem_erase.mp hw).2
  refine of_live hok.live (h.mm.of_old htree.erase hsub) h.table (fun w e hw hne hu => ?_) ?_
  · -- the pages of the VMA are exactly those still to be visited
    obtain ⟨f, hflags, hfits⟩ := h.allowed hok.live hop hw hne id
    refine ⟨f, hflags.of_subset fun u hu' hcov => htree.mem_erase.mpr ⟨?_, hu'⟩, hfits⟩
    rintro rfl
    exact hu hcov
  · have hfirst := hok.first vma hmem
    have hlast := hok.last vma hmem
    refine ⟨⟨hok.live, hok.range, ?_, ?_, hok.after⟩,
      ⟨hvalid.start_aligned, hvalid.stop_aligned, by omega, by omega⟩⟩
    · exact fun u hu => hok.first u (htree.mem_erase.mp hu).2
    · exact fun u hu => hok.last u (htree.mem_erase.mp hu).2

omit h in
theorem restOk_succ (h : RestOk start stop a e') : RestOk start stop (a + pageSize) e' :=
  ⟨by rw [Nat.add_mod_right, h.a_aligned], h.e_aligned, h.lower.trans (Nat.le_add_right _ _),
    h.upper⟩

section

variable (hop : sp.op = .unmapPages start stop a e' batch after)
include hop

theorem unmapSkip (hv : sp.pte (a / pageSize) = none) :
    SpaceOk cfg (sp.setOp (.unmapPages start stop (a + pageSize) e' batch after)) := by
  obtain ⟨hok, hrest⟩ := h.opOk hop
  refine h.setOp hop rfl (fun w e hw hu => ?_) ⟨hok, restOk_succ hrest⟩
  by_contra hnot
  rw [pageIn_succ hrest.a_aligned hu hnot, hv] at hw
  cases hw

theorem unmapPage (full : Prop) [Decidable full] (batch' : List ℕ) :
    SpaceOk cfg ((sp.setPte (a / pageSize) none).setOp
      (if full then .unmapFlush start stop (a + pageSize) e' batch' false after
        else .unmapPages start stop (a + pageSize) e' batch' after)) := by
  obtain ⟨hok, hrest⟩ := h.opOk hop
  refine of_live hok.live h.mm (fun w e hw => h.table w e (pte_of_setPte_none hw).2)
    (fun w e hw hne hu => ?_) ?_
  · obtain ⟨hwv, hw⟩ := pte_of_setPte_none hw
    refine h.allowed hok.live hop hw hne fun hold => hwv ?_
    refine pageIn_succ hrest.a_aligned hold fun hnew => hu ?_
    change (if full then _ else _ : Op N).Unsettled w
    split_ifs
    · exact hnew
    · exact hnew
  · change OpOk cfg _ (if full then _ else _)
    split_ifs
    · exact ⟨hok, restOk_succ hrest, nofun⟩
    · exact ⟨hok, restOk_succ hrest⟩

theorem unmapNext (hle : ¬ a < e') :
    SpaceOk cfg (sp.setOp (.unmapFind start stop batch after)) := by
  obtain ⟨hok, -⟩ := h.opOk hop
  exact h.setOp_of_settled hop rfl (fun _ => not_pageIn_of_le (Nat.le_of_not_lt hle)) hok

end

theorem unmapFlush (hop : sp.op = .unmapFlush start stop a e' batch last after) (batch' : List ℕ) :
    SpaceOk cfg (sp.setOp (.unmapFlush start stop a e' batch' last after)) := by
  have hok := h.opOk hop
  exact h.setOp hop rfl (fun _ _ _ hu => hu) hok

theorem unmapGoOn (hop : sp.op = .unmapFlush start stop a e' [] false after) :
    SpaceOk cfg (sp.setOp (.unmapPages start stop a e' [] after)) := by
  obtain ⟨hok, hrest, -⟩ := h.opOk hop
  exact h.setOp hop rfl (fun _ _ _ hu => hu) ⟨hok, hrest⟩

/-- At the end of `unmap_range` the range is free. -/
theorem unmapped (hop : sp.op = .unmapFlush start stop a e' batch true after) :
    UnmapOk cfg sp.life sp.mm.vmas start stop after ∧ (∀ w, ¬ PageIn a e' w) ∧
      ∀ w ∈ sp.mm.vmas.toList, w.stop ≤ start ∨ stop ≤ w.start := by
  obtain ⟨hok, -, hlast⟩ := h.opOk hop
  obtain ⟨hle, hfree⟩ := hlast rfl
  exact ⟨hok, fun w => not_pageIn_of_le hle, hfree⟩

end

end

/-! ### Changing VMAs -/

section

variable (h : SpaceOk cfg sp)
include h

/-- The VMAs have been split at the ends of a range. -/
theorem split (hrun : sp.Running) (hsplit : RangeSplit start stop sp.mm.vmas t)
    (hop : OpOk cfg (sp.setVmas t) op) : SpaceOk cfg ((sp.setVmas t).setOp op) := by
  refine of_live hrun.1 (h.mm.of_old hsplit.tree hsplit.refines.parts) h.table
    (fun v e hv hne _ => ?_) (by cases op <;> exact hop)
  obtain ⟨f, hflags, hfits⟩ := h.allowed hrun.1 (Op.isIdle_iff.mp hrun.2) hv hne id
  exact ⟨f, hflags.of_refines h.mm.layout.tree hsplit.refines, hfits⟩

/-- A VMA has been inserted, and `mm->brk` may have changed. -/
theorem insert (hlive : sp.life = .live) (hold : sp.op = old) (hsettled : ∀ w, ¬ old.Unsettled w)
    (hok : vmaInsert rb sp.mm.vmas vma = .ok t) (hallowed : rangeAllowed cfg vma.start vma.stop)
    (hreadable : vma.flags.Readable) (hbrk : brk ≤ cfg.guardBottom) :
    SpaceOk cfg (((sp.setVmas t).setBrk brk).setOp .idle) := by
  obtain ⟨-, htree, hmem⟩ := of_vmaInsert_eq_ok h.mm.layout.tree hok
  refine of_live hlive (h.mm.insert htree hmem hallowed hreadable hbrk) h.table
    (fun v e hv hne _ => ?_) trivial
  obtain ⟨f, hflags, hfits⟩ := h.allowed hlive hold hv hne (hsettled v)
  exact ⟨f, hflags.of_subset fun w hw _ => (hmem w).mpr (.inr hw), hfits⟩

theorem setBrk (hlive : sp.life = .live) (hold : sp.op = old) (hsettled : ∀ w, ¬ old.Unsettled w)
    (hbrk : brk ≤ cfg.guardBottom) : SpaceOk cfg ((sp.setBrk brk).setOp .idle) := by
  refine of_live hlive (h.mm.setBrk hbrk) h.table (fun v e hv hne _ => ?_) trivial
  exact h.allowed hlive hold hv hne (hsettled v)

theorem protectVma (hop : sp.op = .protectFind a stop f)
    (hfound : vmaFind sp.mm.vmas a = some vma) :
    SpaceOk cfg ((sp.setVmas (setFlags vma f sp.mm.vmas)).setOp
      (.protectPages a vma.stop stop f)) := by
  obtain ⟨hlive, haligned, hcross, hreadable⟩ := h.opOk hop
  obtain ⟨hmem, hcov⟩ := vmaFind_eq_some hfound
  have hstart : vma.start = a := by
    have hnot := hcross vma hmem
    have hle := hcov.1
    have hlt := hcov.2
    omega
  refine of_live hlive (h.mm.setFlags hreadable) h.table (fun w e hw hne hu => ?_) ?_
  · -- all pages of the VMA are still to be visited
    obtain ⟨f', hflags, hfits⟩ := h.allowed hlive hop hw hne id
    refine ⟨f', hflags.of_subset fun u hu' hucov => mem_setFlags_of_ne hu' ?_, hfits⟩
    rintro rfl
    exact hu ⟨hstart ▸ hucov.1, hucov.2⟩
  · exact ⟨hlive, haligned, hreadable, _, mem_setFlags_self hmem, rfl, rfl, hcov.1, hcov.2.le⟩

theorem protectDone (hop : sp.op = .protectFind a stop f) : SpaceOk cfg (sp.setOp .idle) :=
  h.setOp_of_settled hop rfl (fun _ => id) trivial

theorem protectPage (hop : sp.op = .protectPages a e' stop f) :
    SpaceOk cfg (sp.setOp (if a < e' then .protectRead (a / pageSize) f (.range a e' stop)
      else .protectFind a stop f)) := by
  obtain ⟨hlive, hok⟩ := h.opOk hop
  obtain ⟨vma, hmem, hflags, hstop, hstart, hle⟩ := hok.vma
  split_ifs with hlt
  · refine h.setOp hop rfl (fun _ _ _ hu => hu) ⟨hlive, ⟨vma, hmem, ?_, hflags⟩, rfl, hlt, hok⟩
    rw [Nat.div_mul_cancel (Nat.dvd_of_mod_eq_zero hok.aligned)]
    exact ⟨hstart, hstop ▸ hlt⟩
  · have hae : a = vma.stop := by omega
    refine h.setOp_of_settled hop rfl (fun _ => not_pageIn_of_le (Nat.le_of_not_lt hlt))
      ⟨hlive, hok.aligned, ?_, hok.readable⟩
    -- a VMA over the end of this one would meet it
    rintro u hu ⟨hbelow, habove⟩
    have hne := (h.mm.layout.tree.valid vma hmem).nonempty
    have huv : u = vma := h.mm.layout.tree.eq_of_meets hu hmem (by omega) (by omega)
    rw [huv] at habove
    omega

/-! ### The life of an address space -/

omit h in
theorem empty' (cfg : MmConfig) (pending : List ℕ) :
    SpaceOk cfg ((Space.empty N).setPending pending) :=
  ⟨⟨layoutOk_mmAlloc, nofun, Nat.zero_le _⟩, nofun, nofun, fun _ _ => rfl, nofun, nofun, trivial⟩

omit h in
/-- `load_exec` has mapped the segments and the stack. -/
theorem exec (hmm : MmOk cfg mm) (hstack : stackVma cfg ∈ mm.vmas.toList) (pending : List ℕ) :
    SpaceOk cfg (⟨.building, mm, fun _ => none, fun _ => false, .idle, pending⟩ : Space N) :=
  ⟨hmm, nofun, nofun, nofun, fun _ _ => hstack, nofun, trivial⟩

theorem setup (hbuild : sp.Building) (hf : setupFlags cfg v = some f) (hv : sp.pte v = none)
    (content : ℕ → ℕ) : SpaceOk cfg (sp.setOp (.pageAlloc v f (.bytes content))) :=
  h.setOp_of_settled (Op.isIdle_iff.mp hbuild.2) rfl (fun _ => id) ⟨hbuild.1, hf, hv⟩

/-- The pages of the stack can be written while a program is set up. -/
theorem write_of_setup (hbuild : sp.Building) (hf : setupFlags cfg v = some f)
    (hwrite : f.write = true) (hv : sp.pte v = some e) : e.prot.write = true := by
  have hidle := Op.isIdle_iff.mp hbuild.2
  obtain ⟨f', hf', hprot⟩ := h.built hbuild.1 (by rw [hidle]; rfl) v e hv
  obtain rfl : f' = f := Option.some.inj (hf'.symm.trans hf)
  rw [hprot, vmaToPte, if_neg (by simp [hwrite])]
  exact hwrite

theorem ready (hbuild : sp.Building) : SpaceOk cfg (sp.setLife .live) := by
  have hidle := Op.isIdle_iff.mp hbuild.2
  refine of_live rfl h.mm h.table (h.fits (by rw [hbuild.1]; exact nofun)) ?_
  change OpOk cfg _ sp.op
  rw [hidle]
  trivial

/-- `mm_put` has removed all VMAs. -/
theorem exit : SpaceOk cfg (((sp.setVmas .nil).setLife .zombie).setOp .idle) :=
  of_zombie rfl ⟨⟨.nil, nofun, nofun⟩, nofun, h.mm.brk⟩ h.table trivial

theorem drop (hlife : sp.life = .zombie) : SpaceOk cfg (sp.setOp (.freeScan 0)) :=
  of_zombie hlife h.mm h.table ⟨hlife, nofun⟩

theorem freeSkip (hop : sp.op = .freeScan v) (hv : sp.pte v = none) :
    SpaceOk cfg (sp.setOp (.freeScan (v + 1))) := by
  obtain ⟨hlife, hnone⟩ := h.opOk hop
  refine of_zombie hlife h.mm h.table ⟨hlife, fun w hw => ?_⟩
  rcases Nat.lt_succ_iff_lt_or_eq.mp hw with hw | rfl
  · exact hnone w hw
  · exact hv

theorem freeScan (hop : sp.op = .freeScan v) (q : ℕ) :
    SpaceOk cfg ((sp.setPte v none).setOp (.freePage v q)) := by
  obtain ⟨hlife, hnone⟩ := h.opOk hop
  refine of_zombie hlife h.mm (fun w e hw => h.table w e (pte_of_setPte_none hw).2)
    ⟨hlife, fun w hw => ?_⟩
  change update sp.pte v none w = none
  rw [update_apply]
  split_ifs with hwv
  · rfl
  · exact hnone w (Nat.lt_of_le_of_ne hw hwv)

theorem freePage (hop : sp.op = .freePage v q) : SpaceOk cfg (sp.setOp (.freeScan (v + 1))) := by
  obtain ⟨hlife, hnone⟩ := h.opOk hop
  exact of_zombie hlife h.mm h.table ⟨hlife, fun w hw => hnone w (Nat.lt_succ_iff.mp hw)⟩

/-- All entries are gone at the end of `pgtable_free`. -/
theorem pte_of_freeScan (hop : sp.op = .freeScan v) (hv : ¬ v < uvpns) (w : ℕ) :
    sp.pte w = none := by
  cases hw : sp.pte w with
  | none => rfl
  | some e =>
    have hlt := (h.table w e hw).lt
    have hnone := (h.opOk hop).2 w (by omega)
    rw [hnone] at hw
    cases hw

/-! ### Clones -/

theorem forking (hrun : sp.Running) : SpaceOk cfg (sp.setOp .forking) :=
  h.setOp_of_settled (Op.isIdle_iff.mp hrun.2) rfl (fun _ => id) hrun.1

omit h in
/-- `mm_clone` has copied the VMAs. -/
theorem clone (hmm : MmOk cfg mm) (src : Fin N) :
    SpaceOk cfg (⟨.building, mm, fun _ => none, fun _ => false, .cloneScan src 0, []⟩ : Space N) :=
  ⟨hmm, nofun, nofun, nofun, nofun, nofun, rfl⟩

/-- The parent of a clone: an entry loses the permission to write. -/
theorem dropWrite (hop : sp.op = .forking) (hv : sp.pte v = some e) :
    SpaceOk cfg (sp.setPte v (some ⟨e.frame, e.prot.dropWrite⟩)) := by
  have hlive : sp.life = .live := h.opOk hop
  refine of_live hlive h.mm (fun w e' hw => ?_) (fun w e' hw hne _ => ?_) ?_
  · rcases pte_of_setPte_some hw with ⟨rfl, rfl⟩ | ⟨-, hw⟩
    · exact ⟨(h.table w e hv).lt, (h.table w e hv).table, fun _ => rfl⟩
    · exact h.table w e' hw
  · rcases pte_of_setPte_some hw with ⟨rfl, rfl⟩ | ⟨-, hw⟩
    · obtain ⟨f, hflags, hfits⟩ := h.allowed hlive hop hv hne id
      exact ⟨f, hflags, hfits.dropWrite⟩
    · exact h.allowed hlive hop hw hne id
  · change OpOk cfg _ sp.op
    rwa [hop]

/-- The parent after the clone. -/
theorem forked (hop : sp.op = .forking) : SpaceOk cfg (sp.setOp .idle) :=
  h.setOp_of_settled hop rfl (fun _ => id) trivial

/-- A step of the clone that changes no entry of the child. -/
theorem cloneStep (hcl : sp.op.cloning ≠ none) (hcl' : op.cloning ≠ none) :
    SpaceOk cfg (sp.setOp op) := by
  have hlife : sp.life = .building := by
    have hok := h.op
    cases hop : sp.op <;> rw [hop] at hcl hok <;> first | exact hok | exact absurd rfl hcl
  have hsettled : ∀ w, ¬ sp.op.Unsettled w := by
    intro w
    cases hop : sp.op <;> rw [hop] at hcl <;> first | exact id | exact absurd rfl hcl
  refine ⟨h.mm, h.table, fun hz v e hv hne _ => h.fits hz v e hv hne (hsettled v), ?_,
    fun _ hnone => absurd hnone hcl', fun _ hnone => absurd hnone hcl', ?_⟩
  · change sp.life = .unused → _
    rw [hlife]
    exact nofun
  · cases op <;> first | exact hlife | exact absurd rfl hcl'

/-- The child gets an entry that agrees with its VMAs. -/
theorem cloneMapped (hop : sp.op = .cloneMap src v) (hentry : EntryOk table v e)
    (hfits : v ≠ trampolineVpn → Allowed sp.mm.vmas v e.prot) :
    SpaceOk cfg (((sp.addTable v).setPte v (some e)).setOp (.cloneInc src v)) := by
  have hlife : sp.life = .building := h.opOk hop
  refine ⟨h.mm, fun w e' hw => ?_, fun hz w e' hw hne _ => ?_, ?_, nofun, nofun, hlife⟩
  · rcases pte_of_setPte_some hw with ⟨rfl, rfl⟩ | ⟨-, hw⟩
    · exact ⟨hentry.lt, update_self .., hentry.trampoline⟩
    · exact (h.table w e' hw).addTable
  · rcases pte_of_setPte_some hw with ⟨rfl, rfl⟩ | ⟨-, hw⟩
    · exact hfits hne
    · refine h.fits hz w e' hw hne ?_
      rw [hop]
      exact id
  · change sp.life = .unused → _
    rw [hlife]
    exact nofun

/-- The child after the clone. -/
theorem cloned (hop : sp.op = .cloneScan src v) : SpaceOk cfg ((sp.setOp .idle).setLife .live) := by
  have hlife : sp.life = .building := h.opOk hop
  refine of_live rfl h.mm h.table (fun w e hw hne _ => ?_) trivial
  refine h.fits (by rw [hlife]; exact nofun) w e hw hne ?_
  rw [hop]
  exact id

end

end SpaceOk

end Nuvix.Vm
