import Nuvix.Mm.PageTableClone

/-!
# Page tables, VMAs and counts

In every state that faults, clones, system calls, program starts and exits can reach,
in any interleaving, the count of a frame that is mapped agrees with the entries and
with what the operations hold, once the entry that a clone is about to count is taken
off. An entry that can be written is the only one of its frame. And in an address
space that has its VMAs, an entry other than that of the trampoline agrees with a VMA,
unless the operation under way has removed or changed the VMA and still has to visit
the page.
-/

namespace Nuvix.Vm

open SearchTree Transition
open Sharing (Owner)

variable {N : ℕ}

/-! ### Counting entries -/

/-- The pages of an address space at which the frame is mapped. -/
def pagesOf (sp : Space N) (p : ℕ) : Finset ℕ :=
  (Finset.range uvpns).filter fun v => (sp.pte v).map Pte.frame = some p

/-- The number of entries that refer to the frame, over all address spaces. -/
def pteCount (s : State N) (p : ℕ) : ℕ := ∑ i, (pagesOf (s.space i) p).card

/-- The references that operations hold. -/
def heldCount (s : State N) (p : ℕ) : ℕ :=
  ∑ i, ((s.space i).pending ++ (s.space i).op.held).count p

/-- The entries that `pgtable_clone` has written and not counted yet. -/
def uncounted (s : State N) (p : ℕ) : ℕ :=
  ∑ i, ((pagesOf (s.space i) p).filter fun v =>
    (s.space i).op.owed.map Prod.snd = some v).card

/-- The invariant. An address space whose last user is gone has no VMAs any more. -/
structure PageTablesOk (s : State N) : Prop where
  count : ∀ p, pteCount s p ≠ 0 → s.refs p + uncounted s p = pteCount s p + heldCount s p
  sole : ∀ i v e, (s.space i).pte v = some e → e.prot.write = true → pteCount s e.frame = 1
  write : ∀ i v e, (s.space i).life ≠ .zombie → (s.space i).pte v = some e →
    e.prot.write = true → ¬ (s.space i).op.Unsettled v →
      ∃ vma ∈ (s.space i).mm.vmas.toList, vma.Covers (v * pageSize) ∧ vma.flags.write = true
  allowed : ∀ i v e, (s.space i).life ≠ .zombie → (s.space i).pte v = some e →
    v ≠ trampolineVpn → ¬ (s.space i).op.Unsettled v →
      ∃ vma ∈ (s.space i).mm.vmas.toList, vma.Covers (v * pageSize) ∧
        ((e.prot.read = true → vma.flags.read = true) ∧
          (e.prot.write = true → vma.flags.write = true) ∧
          (e.prot.exec = true → vma.flags.exec = true)) ∧
        (e.prot.noAccess = true ↔
          vma.flags.read = false ∧ vma.flags.write = false ∧ vma.flags.exec = false)

variable {cfg : MmConfig} {rb : Rebalance Vma} {file : ℕ → ℕ → ℕ} {s : State N} {i : Fin N}
  {v p : ℕ} {e : Pte} {sp : Space N}

theorem mem_pagesOf (hok : SpaceOk cfg sp) : v ∈ pagesOf sp p ↔ sp.owner.frame v = some p := by
  unfold pagesOf
  rw [Finset.mem_filter, Finset.mem_range]
  constructor
  · rintro ⟨-, hv⟩
    obtain ⟨e, hpte, rfl⟩ := Option.map_eq_some_iff.mp hv
    exact frame_of_pte hpte
  · intro hv
    obtain ⟨e, hpte, rfl⟩ := pte_of_frame hv
    exact ⟨(hok.table v e hpte).lt, by rw [hpte]; rfl⟩

/-- In one address space, the entries are those counted and that of a clone. -/
theorem card_pagesOf (h : Inv cfg file s) (i : Fin N) (p : ℕ) :
    (pagesOf (s.space i) p).card + ((s.space i).pending ++ (s.space i).op.held).count p =
      (s.space i).owner.counted p + ((pagesOf (s.space i) p).filter fun v =>
        (s.space i).op.owed.map Prod.snd = some v).card := by
  have hcounted : (s.space i).owner.counted p = (open Classical in
      if (s.space i).owner.Counts p then 1 else 0) +
        ((s.space i).pending ++ (s.space i).op.held).count p := by
    unfold Owner.counted
    change _ + Multiset.count p (((s.space i).pending ++ (s.space i).op.held : List ℕ) :
      Multiset ℕ) = _
    rw [Multiset.coe_count]
  rw [hcounted]
  rcases Finset.eq_empty_or_nonempty (pagesOf (s.space i) p) with hempty | ⟨v, hv⟩
  · have hnot : ¬ (s.space i).owner.Counts p := by
      rintro ⟨v, hv, -⟩
      have hmem := (mem_pagesOf (h.space i)).mpr hv
      rw [hempty] at hmem
      exact absurd hmem (Finset.notMem_empty v)
    rw [hempty, if_neg hnot]
    simp
  · -- the frame has one place
    have hframe := (mem_pagesOf (h.space i)).mp hv
    have hsingle : pagesOf (s.space i) p = {v} := by
      refine Finset.eq_singleton_iff_unique_mem.mpr ⟨hv, fun w hw => ?_⟩
      exact h.sharing.home (i := i) (j := i) ((mem_pagesOf (h.space i)).mp hw) hframe
    rw [hsingle, Finset.filter_singleton, Finset.card_singleton]
    by_cases howed : (s.space i).op.owed.map Prod.snd = some v
    · have hnot : ¬ (s.space i).owner.Counts p := by
        rintro ⟨w, hw, hfree⟩
        obtain rfl : w = v := h.sharing.home (i := i) (j := i) hw hframe
        obtain ⟨⟨src, w'⟩, ho, rfl⟩ := Option.map_eq_some_iff.mp howed
        exact hfree src ho
      rw [if_neg hnot, if_pos howed, Finset.card_singleton]
      omega
    · have hcounts : (s.space i).owner.Counts p := by
        refine ⟨v, hframe, fun src ho => howed ?_⟩
        change (s.space i).op.owed = some (src, v) at ho
        rw [ho]
        rfl
      rw [if_pos hcounts, if_neg howed, Finset.card_empty]
      omega

/-- The count of any frame. -/
theorem refs_add_uncounted (h : Inv cfg file s) (p : ℕ) :
    s.refs p + uncounted s p = pteCount s p + heldCount s p + (s.kernel p).toNat := by
  have hcount : s.refs p = ∑ i, (s.space i).owner.counted p + (s.kernel p).toNat :=
    h.sharing.count p
  have hsum : pteCount s p + heldCount s p =
      ∑ i, (s.space i).owner.counted p + uncounted s p := by
    unfold pteCount heldCount uncounted
    rw [← Finset.sum_add_distrib, ← Finset.sum_add_distrib]
    exact Finset.sum_congr rfl fun i _ => card_pagesOf h i p
  omega

/-- An entry that can be written is the only one of its frame. -/
theorem pteCount_eq_one (h : Inv cfg file s) (hv : (s.space i).pte v = some e)
    (hwrite : e.prot.write = true) : pteCount s e.frame = 1 := by
  have hframe : (s.space i).owner.frame v = some e.frame := frame_of_pte hv
  have hent : (s.sharing.owner i).ent v = some (e.frame, true) := by
    refine (ent_of_pte hv).trans ?_
    rw [hwrite]
    rfl
  have hself : pagesOf (s.space i) e.frame = {v} := by
    refine Finset.eq_singleton_iff_unique_mem.mpr ⟨(mem_pagesOf (h.space i)).mpr hframe, ?_⟩
    exact fun w hw => h.sharing.home (i := i) (j := i) ((mem_pagesOf (h.space i)).mp hw) hframe
  have hother : ∀ j ≠ i, (pagesOf (s.space j) e.frame).card = 0 := by
    intro j hj
    rw [Finset.card_eq_zero, Finset.eq_empty_iff_forall_notMem]
    intro w hw
    exact h.sharing.own hent j hj (.inr ⟨w, (mem_pagesOf (h.space j)).mp hw⟩)
  unfold pteCount
  rw [Finset.sum_eq_single i (fun j _ hj => hother j hj) (fun hi => absurd (Finset.mem_univ i) hi),
    hself, Finset.card_singleton]

theorem pageTablesOk_of_inv (h : Inv cfg file s) : PageTablesOk s := by
  have hallowed : ∀ i v e, (s.space i).life ≠ .zombie → (s.space i).pte v = some e →
      v ≠ trampolineVpn → ¬ (s.space i).op.Unsettled v →
        ∃ vma ∈ (s.space i).mm.vmas.toList, vma.Covers (v * pageSize) ∧
          Fits vma.flags e.prot ∧ vma.flags.Readable := by
    intro i v e hlife hv hne hsettled
    obtain ⟨f, ⟨vma, hmem, hcov, rfl⟩, hfits⟩ := (h.space i).fits hlife v e hv hne hsettled
    exact ⟨vma, hmem, hcov, hfits, (h.space i).mm.readable vma hmem⟩
  refine ⟨fun p hp => ?_, fun i v e hv hwrite => pteCount_eq_one h hv hwrite, ?_, ?_⟩
  · -- a frame that is mapped is not one of the kernel
    have hcount := refs_add_uncounted h p
    have hkernel : s.kernel p = false := by
      obtain ⟨i, -, hi⟩ := Finset.exists_ne_zero_of_sum_ne_zero hp
      obtain ⟨v, hv⟩ := Finset.card_pos.mp (Nat.pos_of_ne_zero hi)
      have hframe := (mem_pagesOf (h.space i)).mp hv
      exact h.sharing.other_of_refers (j := i) (.inr ⟨v, hframe⟩)
    rwa [hkernel] at hcount
  · intro i v e hlife hv hwrite hsettled
    have hne : v ≠ trampolineVpn := by
      intro ht
      rw [((h.space i).table v e hv).trampoline ht] at hwrite
      cases hwrite
    obtain ⟨vma, hmem, hcov, hfits, -⟩ := hallowed i v e hlife hv hne hsettled
    exact ⟨vma, hmem, hcov, hfits.write hwrite⟩
  · intro i v e hlife hv hne hsettled
    obtain ⟨vma, hmem, hcov, hfits, hreadable⟩ := hallowed i v e hlife hv hne hsettled
    exact ⟨vma, hmem, hcov, hfits.allows hreadable, hfits.noAccess⟩

theorem inv_of_reachable (hN : N < refcountMax)
    (h : Reachable (· = boot N) (Graph (step cfg rb file)) s) : Inv cfg file s := by
  have hinit : ∀ s, s = boot N → Inv cfg file s := by
    rintro s rfl
    exact inv_boot
  exact h.invariant hinit fun s a s' hs hstep => (hs.step hN hstep).inv

/-- **Page tables, VMAs and counts agree in every reachable state.** -/
theorem pageTablesOk_of_reachable (hN : N < refcountMax)
    (h : Reachable (· = boot N) (Graph (step cfg rb file)) s) :
    s.stopped = false ∧ PageTablesOk s :=
  ⟨(inv_of_reachable hN h).running, pageTablesOk_of_inv (inv_of_reachable hN h)⟩

/-! ### Runs -/

/-- A program with one segment that can be written writes to its first page. -/
def writeRun : List (Action 2) :=
  let data : Phdr := ⟨.load, pfR ||| pfW ||| pfX, 0, 0x10000, 0x1000, 0x2000, 0x1000⟩
  [.exec 0 (fun _ => true) 7 ⟨false, 0x10000, 64⟩ [data], .ready 0, .fault 0 0x10000 .write,
    .alloc 0 (some 5), .filled 0 true, .mapped 0 true]

/-- It forks, and the clone has copied the entry of that page. -/
def cloneRun : List (Action 2) :=
  writeRun ++ .fork 0 1 (fun _ => true) :: List.replicate 17 (.run 1) ++ [.mapped 1 true]

/-- It exits instead. -/
def exitRun : List (Action 2) := writeRun ++ [.exit 0]

/-- The states of these runs are reached. -/
theorem exists_of_run {α : Type} (run : List (Action 2)) (f : State 2 → α) (x : α)
    (h : (exec (step ⟨16, by decide⟩ .plain fun _ _ => 0) (boot 2) run).map f = some x) :
    ∃ s, Reachable (· = boot 2) (Graph (step ⟨16, by decide⟩ .plain fun _ _ => 0)) s ∧ f s = x := by
  obtain ⟨s, hs, hf⟩ := Option.map_eq_some_iff.mp h
  exact ⟨s, Reachable.exec (.init rfl) hs, hf⟩

theorem one_le_card_pagesOf (hv : v < uvpns) (hframe : (sp.pte v).map Pte.frame = some p) :
    1 ≤ (pagesOf sp p).card :=
  Finset.card_pos.mpr ⟨v, Finset.mem_filter.mpr ⟨Finset.mem_range.mpr hv, hframe⟩⟩

/-- Two states in which the agreement without exceptions fails: a clone has mapped a
page in the child and not counted it, so that its count is one with two entries and
nothing held; and after the last `mm_put` a page is mapped that no VMA covers. -/
theorem clone_and_exit_break_agreement :
    (∃ s : State 2, Reachable (· = boot 2) (Graph (step ⟨16, by decide⟩ .plain fun _ _ => 0)) s ∧
      pteCount s 5 ≠ 0 ∧ s.refs 5 ≠ pteCount s 5 + heldCount s 5) ∧
    ∃ s : State 2, Reachable (· = boot 2) (Graph (step ⟨16, by decide⟩ .plain fun _ _ => 0)) s ∧
      ∃ e, (s.space 0).pte 16 = some e ∧ e.prot.write = true ∧ 16 ≠ trampolineVpn ∧
        ∀ vma ∈ (s.space 0).mm.vmas.toList, ¬ vma.Covers (16 * pageSize) := by
  constructor
  · obtain ⟨s, hs, hf⟩ := exists_of_run cloneRun
      (fun s => (s.refs 5, ((s.space 0).pte 16).map Pte.frame, ((s.space 1).pte 16).map Pte.frame))
      (1, some 5, some 5) (by decide +kernel)
    obtain ⟨hrefs, h0, h1⟩ := Prod.mk.inj hf |>.imp_right Prod.mk.inj
    have hcard0 := one_le_card_pagesOf (by decide) h0
    have hcard1 := one_le_card_pagesOf (by decide) h1
    have hcount : pteCount s 5 = _ := Fin.sum_univ_two _
    exact ⟨s, hs, by omega, by omega⟩
  · obtain ⟨s, hs, hf⟩ := exists_of_run exitRun
      (fun s => ((s.space 0).mm.vmas.toList, ((s.space 0).pte 16).map fun e => e.prot.write))
      ([], some true) (by decide +kernel)
    obtain ⟨hvmas, hpte⟩ := Prod.mk.inj hf
    obtain ⟨e, he, hwrite⟩ := Option.map_eq_some_iff.mp hpte
    exact ⟨s, hs, e, he, hwrite, by decide, by rw [hvmas]; exact nofun⟩

/-- In the state in which the clone has not counted its entry, the count and that entry
together are the two entries. -/
theorem pageTablesOk_cloneRun :
    ∃ s : State 2, exec (step ⟨16, by decide⟩ .plain fun _ _ => 0) (boot 2) cloneRun = some s ∧
      s.refs 5 = 1 ∧ s.stopped = false ∧ PageTablesOk s := by
  have hrun : ((exec (step ⟨16, by decide⟩ .plain fun _ _ => 0) (boot 2) cloneRun).map
      fun s => s.refs 5) = some 1 := by decide +kernel
  obtain ⟨s, hs, hrefs⟩ := Option.map_eq_some_iff.mp hrun
  exact ⟨s, hs, hrefs, pageTablesOk_of_reachable (by decide) (Reachable.exec (.init rfl) hs)⟩

end Nuvix.Vm
