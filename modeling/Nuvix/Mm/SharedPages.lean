import Nuvix.Mm.PageView

/-!
# The invariant of all address spaces

All address spaces together keep the counts of the frames, and each of them shows a
memory of its own. A step changes the memories as the event that belongs to it says,
or not at all.
-/

namespace Nuvix.Vm

open SearchTree Function
open Sharing (Owner Act)

variable {N : ℕ}

/-! ### Events -/

section

variable (cfg : MmConfig) (rb : Rebalance Vma) (file : ℕ → ℕ → ℕ)

/-- The event of a system call on the address space `i`: a range is mapped, or begins
to be unmapped. -/
def callEvent (s : State N) (i : Fin N) (ok : ℕ → Bool) :
    Except Errno Request → Option LocalEvent
  | .ok (.insert vma) => some (.map vma.start vma.stop)
  | .ok (.unmap start stop _) =>
    match (splitRange rb ok start stop (s.space i).mm.vmas).1 with
    | .ok _ => some (.unmap start stop)
    | _ => none
  | .ok (.grow start stop _) =>
    match mapRange rb (ok 0) (s.space i).mm.vmas start stop { read := true, write := true } with
    | .ok _ => some (.map start stop)
    | .error _ => none
  | _ => none

/-- The event of a step inside an operation: the range of a fixed mapping is mapped
after it has been unmapped, and a clone is complete. -/
def runEvent (s : State N) (i : Fin N) : Option (Event (Fin N)) :=
  match (s.space i).op with
  | .unmapFlush _ _ _ _ [] true (.insert vma) => some (.on i (.map vma.start vma.stop))
  | .cloneScan src v => if v < uvpns then none else some (.fork src i)
  | _ => none

/-- The event a step stands for. -/
def event (s : State N) : Action N → Option (Event (Fin N))
  | .load i addr b => some (.on i (.load addr b))
  | .store i addr b => some (.on i (.store addr b))
  | .mmap i ok addr len prot flags offset =>
    (callEvent rb s i ok (mmapRequest cfg (s.space i).mm ok addr len prot flags offset)).map (.on i)
  | .munmap i ok start len => (callEvent rb s i ok (munmapRequest cfg start len)).map (.on i)
  | .brk i ok addr => (callEvent rb s i ok (.ok (brkRequest cfg (s.space i).mm addr))).map (.on i)
  | .ready i => some (.on i (.spawn ((s.space i).cell file s.byte)))
  | .exit i => if (s.space i).life = .live then some (.on i .exit) else none
  | .run i => runEvent s i
  | _ => none

end

/-! ### The invariant -/

/-- The address spaces as owners of frames. -/
def State.sharing (s : State N) : Sharing (Fin N) ℕ ℕ :=
  ⟨fun i => (s.space i).owner, s.refs, s.kernel⟩

/-- The memories of all processes. -/
def State.memory (file : ℕ → ℕ → ℕ) (s : State N) (i : Fin N) : Option Memory :=
  (s.space i).memory file s.byte

/-- A clone under way. The first `c` entries have been copied, and the one that is
being copied can no longer be written. -/
structure CloneOk (child parent : Space N) (c : ℕ) : Prop where
  lock : parent.op = .forking
  pending : child.pending = []
  vmas : ∀ w, w ∈ child.mm.vmas.toList ↔ w ∈ parent.mm.vmas.toList
  copied : ∀ w < c, child.pte w = parent.pte w
  rest : ∀ w, c ≤ w → child.pte w = none
  next : ∀ src v, child.op = .cloneMap src v → ∃ e, parent.pte v = some e ∧ e.prot.write = false

/-- **The invariant of all address spaces.** -/
structure Inv (cfg : MmConfig) (file : ℕ → ℕ → ℕ) (s : State N) : Prop where
  running : s.stopped = false
  space : ∀ i, SpaceOk cfg (s.space i)
  clone : ∀ j src c, (s.space j).op.cloning = some (src, c) →
    src ≠ j ∧ CloneOk (s.space j) (s.space src) c
  only : ∀ j k src c d, (s.space j).op.cloning = some (src, c) →
    (s.space k).op.cloning = some (src, d) → j = k
  sharing : s.sharing.Inv
  content : ∀ i, ContentOk file s.byte (s.space i) (s.space i).op

/-- The memory of one process shows the event. -/
def LocalShows (m : Option Memory) : Option LocalEvent → Option Memory → Prop
  | none => fun m' => m' = m
  | some e => Effect m e

/-- The memories of all processes show the event. -/
def Shows (m : Fin N → Option Memory) : Option (Event (Fin N)) → (Fin N → Option Memory) → Prop
  | none => fun m' => m' = m
  | some e => Spec.Step m e

/-- A step keeps the invariant, and the memories show its event. -/
structure Keeps (cfg : MmConfig) (file : ℕ → ℕ → ℕ) (s : State N) (ev : Option (Event (Fin N)))
    (s' : State N) : Prop where
  inv : Inv cfg file s'
  shows : Shows (s.memory file) ev (s'.memory file)

variable {cfg : MmConfig} {rb : Rebalance Vma} {file : ℕ → ℕ → ℕ} {s : State N} {i j : Fin N}
  {sp sp' : Space N} {o op : Op N} {v : ℕ} {e : Pte} {byte' : ℕ → ℕ → ℕ} {src : Fin N}
  {a : Act (Fin N) ℕ ℕ} {refs' : ℕ → ℕ}

theorem inv_boot : Inv cfg file (boot N) := by
  refine ⟨rfl, fun i => SpaceOk.empty' cfg [], nofun, nofun, ?_, fun i => trivial⟩
  have hcounted : ∀ p, ((Space.empty N).owner).counted p = 0 := by
    intro p
    refine Owner.counted_of_not_refers ?_
    rintro (hp | ⟨v, hv⟩)
    · exact absurd hp (Multiset.notMem_zero p)
    · cases hv
  refine ⟨nofun, fun i => Multiset.nodup_zero, nofun, fun p => ?_, nofun, nofun, nofun, nofun⟩
  change 0 = ∑ _i : Fin N, ((Space.empty N).owner).counted p + 0
  simp [hcounted]

theorem Keeps.stay (h : Inv cfg file s) : Keeps cfg file s none s := ⟨h, rfl⟩

theorem cloning_of_owed (h : (s.space j).owner.owed = some (src, v)) :
    (s.space j).op.cloning = some (src, v + 1) := by
  change (s.space j).op.owed = _ at h
  cases hop : (s.space j).op <;> rw [hop] at h <;> cases h
  rfl

namespace Inv

section

variable (h : Inv cfg file s)
include h

/-- Nobody copies from an address space that is not the parent of a clone. -/
theorem not_owed (hlock : (s.space i).op ≠ .forking) (j : Fin N) (w : ℕ) :
    (s.sharing.owner j).owed ≠ some (i, w) :=
  fun howed => hlock (h.clone j i _ (cloning_of_owed howed)).2.lock

/-- An entry may be removed where nothing is copied. -/
theorem allows_unmap (hop : (s.space i).op = o) (hlock : o ≠ .forking) (howed : o.owed = none)
    (hv : (s.space i).pte v = some e) : s.sharing.Allows i (.unmap v e.frame) := by
  subst hop
  exact ⟨⟨_, ent_of_pte hv⟩, howed, fun j => h.not_owed hlock j v⟩

/-! ### Steps of one address space -/

omit h in
theorem owner_update (s : State N) (i : Fin N) (sp' : Space N) :
    (fun j => (update s.space i sp' j).owner) = update s.sharing.owner i sp'.owner :=
  comp_update Space.owner s.space i sp'

/-- **A step of one address space** that is not the child of a clone: an act of the
owner with its effect on the counts, and contents that no other address space sees. -/
theorem stepOne {e : Option LocalEvent}
    (hparent : ∀ child c, CloneOk child (s.space i) c → CloneOk child sp' c)
    (hcl : sp'.op.cloning = none) (hok : SpaceOk cfg sp')
    (howner : sp'.owner = (s.space i).owner.act a) (hallows : s.sharing.Allows i a)
    (hbyte : ∀ j ≠ i, ∀ p, (s.space j).owner.Refers p → byte' p = s.byte p)
    (hcontent : ContentOk file byte' sp' sp'.op)
    (hmem : LocalShows ((s.space i).memory file s.byte) e (sp'.memory file byte')) :
    Keeps cfg file s (e.map (.on i))
      ⟨update s.space i sp', a.refs s.refs, byte', s.kernel, s.stopped⟩ := by
  have hi : update s.space i sp' i = sp' := update_self ..
  have hne : ∀ {j}, j ≠ i → update s.space i sp' j = s.space j :=
    fun hj => update_of_ne hj ..
  -- the clones that are under way are those of before
  have hold : ∀ {j src c}, (update s.space i sp' j).op.cloning = some (src, c) →
      j ≠ i ∧ (s.space j).op.cloning = some (src, c) := by
    intro j src c hj
    rcases eq_or_ne j i with rfl | hji
    · rw [hi, hcl] at hj
      cases hj
    · rw [hne hji] at hj
      exact ⟨hji, hj⟩
  refine ⟨⟨h.running, fun j => ?_, fun j src c hj => ?_, fun j k src c d hj hk => ?_, ?_,
    fun j => ?_⟩, ?_⟩
  · dsimp only
    rcases eq_or_ne j i with rfl | hj
    · rwa [hi]
    · rw [hne hj]
      exact h.space j
  · obtain ⟨hji, hj⟩ := hold hj
    obtain ⟨hsrc, hclone⟩ := h.clone j src c hj
    dsimp only
    rw [hne hji]
    rcases eq_or_ne src i with rfl | hsi
    · rw [hi]
      exact ⟨hsrc, hparent _ c hclone⟩
    · rw [hne hsi]
      exact ⟨hsrc, hclone⟩
  · exact h.only j k src c d (hold hj).2 (hold hk).2
  · have hact := h.sharing.act hallows
    change Sharing.Inv ⟨fun j => (update s.space i sp' j).owner, _, _⟩
    rwa [owner_update, howner]
  · dsimp only
    rcases eq_or_ne j i with rfl | hj
    · rwa [hi]
    · rw [hne hj]
      exact contentOk_bytes (hbyte j hj) (h.content j)
  · have hmemory : State.memory file
        ⟨update s.space i sp', a.refs s.refs, byte', s.kernel, s.stopped⟩ =
        update (s.memory file) i (sp'.memory file byte') := by
      funext j
      unfold State.memory
      dsimp only
      rcases eq_or_ne j i with rfl | hj
      · rw [hi, update_self]
      · rw [hne hj, update_of_ne hj]
        exact memory_bytes (hbyte j hj)
    rw [hmemory]
    cases e with
    | none =>
      have hsame : sp'.memory file byte' = s.memory file i := hmem
      rw [hsame]
      exact update_eq_self ..
    | some e => exact .on hmem

/-- The same for an address space that is not part of a clone. -/
theorem advance {e : Option LocalEvent} (hop : (s.space i).op = o) (hlock : o ≠ .forking)
    (hcl : sp'.op.cloning = none) (hok : SpaceOk cfg sp')
    (howner : sp'.owner = (s.space i).owner.act a) (hallows : s.sharing.Allows i a)
    (hbyte : ∀ j ≠ i, ∀ p, (s.space j).owner.Refers p → byte' p = s.byte p)
    (hcontent : ContentOk file byte' sp' sp'.op)
    (hmem : LocalShows ((s.space i).memory file s.byte) e (sp'.memory file byte')) :
    Keeps cfg file s (e.map (.on i))
      ⟨update s.space i sp', a.refs s.refs, byte', s.kernel, s.stopped⟩ :=
  h.stepOne (fun _ _ hclone => absurd hclone.lock (hop.trans_ne hlock)) hcl hok howner hallows hbyte
    hcontent hmem

/-- A step that the counts and contents do not show. -/
theorem quiet {e : Option LocalEvent} (hop : (s.space i).op = o) (hlock : o ≠ .forking)
    (hcl : sp'.op.cloning = none) (hok : SpaceOk cfg sp') (howner : sp'.owner = (s.space i).owner)
    (hcontent : ContentOk file s.byte sp' sp'.op)
    (hmem : LocalShows ((s.space i).memory file s.byte) e (sp'.memory file s.byte)) :
    Keeps cfg file s (e.map (.on i)) (s.setSpace i sp') :=
  h.advance (a := .tau) hop hlock hcl hok howner trivial (fun _ _ _ _ => rfl) hcontent hmem

/-- A step from one point of an operation to another that nothing shows. -/
theorem silent (hop : (s.space i).op = o) (hlock : o ≠ .forking) (hcl : op.cloning = none)
    (hok : SpaceOk cfg ((s.space i).setOp op))
    (howner : ((s.space i).setOp op).owner = ((s.space i).setOp o).owner)
    (hcontent : ContentOk file s.byte (s.space i) op)
    (hmem : ((s.space i).setOp op).memory file s.byte = ((s.space i).setOp o).memory file s.byte) :
    Keeps cfg file s none (s.setSpace i ((s.space i).setOp op)) := by
  refine h.quiet (e := none) hop hlock hcl hok (owner_eq hop howner) ?_ (memory_eq hop hmem)
  cases op <;> exact hcontent

/-! ### Steps of a clone -/

/-- **A step of a clone** from `src` into `j`, which may change both. -/
theorem pair {parent child : Space N} (hne : src ≠ j) (hj : (s.space j).op ≠ .forking)
    (honly : ∀ k c, k ≠ j → (s.space k).op.cloning ≠ some (src, c))
    (hparent : SpaceOk cfg parent) (hchild : SpaceOk cfg child) (hcl : parent.op.cloning = none)
    (hclone : ∀ x c, child.op.cloning = some (x, c) → x = src ∧ CloneOk child parent c)
    (hsharing : Sharing.Inv ⟨update (update s.sharing.owner src parent.owner) j child.owner, refs',
        s.kernel⟩) (hcontent : ContentOk file s.byte parent parent.op)
    (hcontent' : ContentOk file s.byte child child.op) :
    Inv cfg file ⟨update (update s.space src parent) j child, refs', s.byte,
      s.kernel, s.stopped⟩ := by
  have hatj : update (update s.space src parent) j child j = child :=
    update_self ..
  have hatsrc : update (update s.space src parent) j child src = parent := by
    rw [update_of_ne hne, update_self]
  have hat : ∀ {k}, k ≠ j → k ≠ src →
      update (update s.space src parent) j child k = s.space k := by
    intro k hkj hks
    rw [update_of_ne hkj, update_of_ne hks]
  -- any other clone has another parent
  have hold : ∀ {k x c}, k ≠ j →
      (update (update s.space src parent) j child k).op.cloning = some (x, c) →
      k ≠ src ∧ x ≠ src ∧ x ≠ j ∧ (s.space k).op.cloning = some (x, c) := by
    intro k x c hkj hk
    rcases eq_or_ne k src with rfl | hks
    · rw [hatsrc, hcl] at hk
      cases hk
    · rw [hat hkj hks] at hk
      refine ⟨hks, ?_, ?_, hk⟩
      · rintro rfl
        exact honly k c hkj hk
      · rintro rfl
        exact hj (h.clone k x c hk).2.lock
  refine ⟨h.running, fun k => ?_, fun k x c hk => ?_, fun k l x c d hk hl => ?_, ?_, fun k => ?_⟩
  · dsimp only
    by_cases hkj : k = j
    · rwa [hkj, hatj]
    · by_cases hks : k = src
      · rwa [hks, hatsrc]
      · rw [hat hkj hks]
        exact h.space k
  · dsimp only at hk ⊢
    by_cases hkj : k = j
    · rw [hkj, hatj] at hk
      obtain ⟨rfl, hok⟩ := hclone x c hk
      rw [hkj, hatj, hatsrc]
      exact ⟨hne, hok⟩
    · obtain ⟨hks, hxs, hxj, hk⟩ := hold hkj hk
      rw [hat hkj hks, hat hxj hxs]
      exact h.clone k x c hk
  · dsimp only at hk hl
    by_cases hkj : k = j <;> by_cases hlj : l = j
    · rw [hkj, hlj]
    · rw [hkj, hatj] at hk
      exact absurd (hclone x c hk).1 (hold hlj hl).2.1
    · rw [hlj, hatj] at hl
      exact absurd (hclone x d hl).1 (hold hkj hk).2.1
    · exact h.only k l x c d (hold hkj hk).2.2.2 (hold hlj hl).2.2.2
  · have howner : (fun k => (update (update s.space src parent) j child k).owner) =
        update (update s.sharing.owner src parent.owner) j child.owner := by
      rw [← owner_update s src parent]
      exact comp_update Space.owner _ j child
    unfold State.sharing
    dsimp only
    rwa [howner]
  · dsimp only
    by_cases hkj : k = j
    · rwa [hkj, hatj]
    · by_cases hks : k = src
      · rwa [hks, hatsrc]
      · rw [hat hkj hks]
        exact h.content k

end

/-- The memories after a step of a clone. -/
theorem memory_pair {parent child : Space N} (hne : src ≠ j)
    (hparent : parent.memory file s.byte = (s.space src).memory file s.byte) :
    State.memory file ⟨update (update s.space src parent) j child, refs', s.byte,
      s.kernel, s.stopped⟩ = update (s.memory file) j (child.memory file s.byte) := by
  funext k
  unfold State.memory
  dsimp only
  rcases eq_or_ne k j with rfl | hkj
  · rw [update_self, update_self]
  · rw [update_of_ne hkj, update_of_ne hkj]
    rcases eq_or_ne k src with rfl | hks
    · rw [update_self, hparent]
    · rw [update_of_ne hks]

end Inv

end Nuvix.Vm
