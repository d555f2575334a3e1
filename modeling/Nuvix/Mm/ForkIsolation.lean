import Nuvix.Mm.PageTableInvariant

/-!
# Fork isolation

Frames are shared between address spaces and copied only when one of them is written.
Programs cannot see this: whatever the interleaving of faults, clones, system calls and
exits, each byte a program loads is the one it would load if every process had a memory
of its own that a fork copies at once.
-/

namespace Nuvix.Vm

open SearchTree Transition

variable {N : ℕ}

/-- A load or store of one byte. -/
inductive ByteAccess (N : ℕ)
  | load (i : Fin N) (addr b : ℕ)
  | store (i : Fin N) (addr b : ℕ)

def Action.access : Action N → Option (ByteAccess N)
  | .load i addr b => some (.load i addr b)
  | .store i addr b => some (.store i addr b)
  | _ => none

def Event.access : Event (Fin N) → Option (ByteAccess N)
  | .on i (.load addr b) => some (.load i addr b)
  | .on i (.store addr b) => some (.store i addr b)
  | _ => none

section

variable (cfg : MmConfig) (rb : Rebalance Vma) (file : ℕ → ℕ → ℕ)

/-- The events a run from `s` stands for, in order. -/
def events : State N → List (Action N) → List (Event (Fin N))
  | _, [] => []
  | s, a :: as =>
    match step cfg rb file s a with
    | none => []
    | some s' => (event cfg rb file s a).toList ++ events s' as

end

variable {cfg : MmConfig} {rb : Rebalance Vma} {file : ℕ → ℕ → ℕ} {s s' : State N}

theorem access_map_callEvent {i : Fin N} {ok : ℕ → Bool}
    (r : Except Errno Request) :
    ((callEvent rb s i ok r).map (Event.on i)).bind Event.access = none := by
  cases r with
  | error e => rfl
  | ok r =>
    cases r with
    | nothing => rfl
    | insert vma => rfl
    | unmap start stop after =>
      simp only [callEvent]
      cases (splitRange rb ok start stop (s.space i).mm.vmas).1 <;> rfl
    | protect start stop f => rfl
    | grow start stop addr =>
      simp only [callEvent]
      split <;> rfl
    | setBrk addr => rfl

/-- The loads and stores of a step are those of its event. -/
theorem access_event (s : State N) (a : Action N) :
    (event cfg rb file s a).bind Event.access = a.access := by
  cases a with
  | mmap i ok addr len prot flags offset | munmap i ok start len | brk i ok addr =>
    exact access_map_callEvent _
  | exit i =>
    simp only [event]
    split_ifs <;> rfl
  | run i =>
    simp only [event, runEvent]
    split
    · rfl
    · split_ifs <;> rfl
    · rfl
  | _ => rfl

theorem access_events (as : List (Action N)) (h : exec (step cfg rb file) s as = some s') :
    (events cfg rb file s as).filterMap Event.access = as.filterMap Action.access := by
  induction as generalizing s with
  | nil => rfl
  | cons a as ih =>
    obtain ⟨t, hstep, hrest⟩ := Option.bind_eq_some_iff.mp h
    simp only [events, hstep]
    rw [List.filterMap_append, ih hrest]
    have hhead : (event cfg rb file s a).bind Event.access = a.access := access_event s a
    cases hev : event cfg rb file s a with
    | none =>
      rw [hev] at hhead
      rw [List.filterMap_cons_none hhead.symm]
      rfl
    | some e =>
      rw [hev] at hhead
      change e.access = a.access at hhead
      cases hacc : a.access with
      | none =>
        rw [hacc] at hhead
        rw [List.filterMap_cons_none hacc, Option.toList_some, List.filterMap_cons_none hhead]
        rfl
      | some x =>
        rw [hacc] at hhead
        rw [List.filterMap_cons_some hacc, Option.toList_some, List.filterMap_cons_some hhead]
        rfl

/-- A run from a state that keeps the invariant. -/
theorem spec_run_of_inv (hN : N < refcountMax) (h : Inv cfg file s) (as : List (Action N))
    (hexec : exec (step cfg rb file) s as = some s') :
    Spec.Run (s.memory file) (events cfg rb file s as) (s'.memory file) := by
  induction as generalizing s with
  | nil =>
    cases hexec
    exact .nil
  | cons a as ih =>
    obtain ⟨t, hstep, hrest⟩ := Option.bind_eq_some_iff.mp hexec
    have hkeeps := h.step hN hstep
    have hrun := ih hkeeps.inv hrest
    simp only [events, hstep]
    cases hev : event cfg rb file s a with
    | none =>
      have hshows := hkeeps.shows
      rw [hev] at hshows
      have hsame : t.memory file = s.memory file := hshows
      rwa [hsame] at hrun
    | some e =>
      have hshows := hkeeps.shows
      rw [hev] at hshows
      exact .cons hshows hrun

/-- **Fork isolation.** Every run of all processes is a run of separate memories, with
the same loads and stores in the same order: a load returns the byte of the memory of
its process, a fork copies the memory of the parent as a whole, and a store changes the
memory of its process alone.

`N` bounds the address spaces that exist at a time. There are at most two for each of
the `PID_MAX` = 32768 tasks, one in use and one that `execve` builds, so the bound, which
keeps the counts of frames from saturating, always holds. -/
theorem run_refines_separate_memories (hN : N < refcountMax) (as : List (Action N))
    (hexec : exec (step cfg rb file) (boot N) as = some s') :
    Spec.Run (fun _ => none) (events cfg rb file (boot N) as) (s'.memory file) ∧
      (events cfg rb file (boot N) as).filterMap Event.access = as.filterMap Action.access :=
  ⟨spec_run_of_inv hN inv_boot as hexec, access_events as hexec⟩

/-! ### A fork from its beginning to its end -/

/-- A clone passes over pages that the parent has not mapped. -/
theorem exec_cloneScan {i j : Fin N} {v k : ℕ} (hij : i ≠ j) (hrunning : s.stopped = false)
    (hop : (s.space j).op = .cloneScan i v) (hend : v + k ≤ uvpns)
    (hpte : ∀ w, v ≤ w → w < v + k → (s.space i).pte w = none) :
    exec (step cfg rb file) s (List.replicate k (.run j)) =
      some (s.setSpace j ((s.space j).setOp (.cloneScan i (v + k)))) := by
  induction k generalizing s v with
  | zero =>
    rw [Nat.add_zero, setOp_self _ hop, State.setSpace, Function.update_eq_self]
    rfl
  | succ k ih =>
    have hstep : step cfg rb file s (.run j) =
        some (s.setSpace j ((s.space j).setOp (.cloneScan i (v + 1)))) := by
      simp only [step, hrunning, runStep, hop, runClone, if_pos (show v < uvpns by omega),
        hpte v le_rfl (by omega), Bool.false_eq_true, if_false]
    generalize hs' : s.setSpace j ((s.space j).setOp (.cloneScan i (v + 1))) = s' at hstep
    have hself : s'.space j = (s.space j).setOp (.cloneScan i (v + 1)) := by
      rw [← hs']
      exact Function.update_self _ _ _
    have hparent : s'.space i = s.space i := by
      rw [← hs']
      exact Function.update_of_ne hij _ _
    rw [List.replicate_succ, exec, hstep, Option.bind_some,
      ih (v := v + 1) (hs' ▸ hrunning) (hself ▸ rfl) (by omega)
        fun w hle hlt => hparent ▸ hpte w (by omega) (by omega), hself, ← hs']
    simp [State.setSpace, Space.setOp, Nat.add_assoc, Nat.add_comm 1 k]

/-- A program writes to its page and forks, and the clone has copied the entry of that page. -/
def forkRun : List (Action 2) :=
  writeRun ++ .store 0 0x10004 42 :: .fork 0 1 (fun _ => true) :: List.replicate 17 (.run 1) ++
    [.mapped 1 true, .run 1, .run 1]

/-- The clone ends. The parent gets a copy of the page and stores to it; the child loads the byte
it has inherited, and stores to the page that is now its own. -/
def bothStore : List (Action 2) :=
  [.run 1, .fault 0 0x10004 .write, .run 0, .alloc 0 (some 6), .filled 0 true, .run 0,
    .mapped 0 true, .free 0 5, .store 0 0x10004 43, .load 1 0x10004 42, .fault 1 0x10004 .write,
    .run 1, .run 1, .run 1, .store 1 0x10004 44, .load 0 0x10004 43]

/-- The whole run. -/
def storeRun : List (Action 2) :=
  forkRun ++ (List.replicate (uvpns - 18) (.run 1) ++ bothStore)

/-- The clone is at a page behind which the parent has mapped nothing. -/
theorem exec_forkRun {s : State 2}
    (hs : exec (step ⟨16, by decide⟩ .plain fun _ _ => 0) (boot 2) forkRun = some s) :
    s.stopped = false ∧ (s.space 1).op = .cloneScan 0 18 ∧
      ∀ w, 18 ≤ w → w < uvpns → (s.space 0).pte w = none := by
  have hinv := inv_of_reachable (by decide) (Reachable.exec (.init rfl) hs)
  have hrun : ((exec (step ⟨16, by decide⟩ .plain fun _ _ => 0) (boot 2) forkRun).map fun s =>
      (match (s.space 1).op with
        | .cloneScan 0 18 => true
        | _ => false) &&
      decide ((∀ k < 18, (s.space 0).pte (67108846 + k) = none) ∧
        ∀ vma ∈ (s.space 0).mm.vmas.toList, vma.stop ≤ 18 * pageSize ∨
          67108846 * pageSize ≤ vma.start)) = some true := by
    decide +kernel
  rw [hs, Option.map_some, Option.some_inj, Bool.and_eq_true] at hrun
  have hop : (s.space 1).op = .cloneScan 0 18 := by
    have hmatch := hrun.1
    split at hmatch
    next h => exact h
    next => cases hmatch
  obtain ⟨htop, hvmas⟩ := of_decide_eq_true hrun.2
  refine ⟨hinv.running, hop, fun w hle hlt => ?_⟩
  rw [uvpns_eq] at hlt
  by_cases hw : 67108846 ≤ w
  · have := htop (w - 67108846) (by omega)
    rwa [Nat.add_sub_cancel' hw] at this
  -- No VMA covers the page.
  have hlock := (hinv.clone 1 0 18 (by rw [hop]; rfl)).2.lock
  have hlive : (s.space 0).life = .live := by
    have hok := (hinv.space 0).op
    rw [hlock] at hok
    exact hok
  have hfree := (hinv.space 0).pte_of_free (a := w * pageSize) hlive hlock (fun _ => id)
    (by rw [ustackTop_eq, pageSize_eq]; omega) fun vma hmem hcov => by
      have := hvmas vma hmem
      have := hcov.1
      have := hcov.2
      rw [pageSize_eq] at *
      omega
  rwa [Nat.mul_div_cancel _ (by decide)] at hfree

theorem storeRun_refines_separate_memories :
    ∃ s : State 2, exec (step ⟨16, by decide⟩ .plain fun _ _ => 0) (boot 2) storeRun = some s ∧
      Spec.Run (fun _ => none) (events ⟨16, by decide⟩ .plain (fun _ _ => 0) (boot 2) storeRun)
        (s.memory fun _ _ => 0) ∧
      (events ⟨16, by decide⟩ .plain (fun _ _ => 0) (boot 2) storeRun).filterMap Event.access =
        [.store 0 0x10004 42, .store 0 0x10004 43, .load 1 0x10004 42, .store 1 0x10004 44,
          .load 0 0x10004 43] := by
  have hrun : ((exec (step ⟨16, by decide⟩ .plain fun _ _ => 0) (boot 2) forkRun).bind fun s =>
      exec (step ⟨16, by decide⟩ .plain fun _ _ => 0)
        (s.setSpace 1 ((s.space 1).setOp (.cloneScan 0 uvpns))) bothStore).isSome = true := by
    decide +kernel
  obtain ⟨s', hrun⟩ := Option.isSome_iff_exists.mp hrun
  obtain ⟨s, hs, hrest⟩ := Option.bind_eq_some_iff.mp hrun
  obtain ⟨hrunning, hop, hpte⟩ := exec_forkRun hs
  have hscan : exec (step ⟨16, by decide⟩ .plain fun _ _ => 0) s
      (List.replicate (uvpns - 18) (.run 1)) = some _ :=
    exec_cloneScan (by decide) hrunning hop (by rw [uvpns_eq]) fun w hle hlt =>
      hpte w hle (by rw [uvpns_eq] at *; omega)
  have hexec : exec (step ⟨16, by decide⟩ .plain fun _ _ => 0) (boot 2) storeRun = some s' := by
    rw [storeRun, exec_append, hs, Option.bind_some, exec_append, hscan, Option.bind_some]
    exact hrest
  obtain ⟨hspec, haccess⟩ := run_refines_separate_memories (by decide) storeRun hexec
  refine ⟨s', hexec, hspec, haccess.trans ?_⟩
  rw [storeRun, List.filterMap_append, List.filterMap_append, List.filterMap_replicate_of_none rfl]
  rfl

end Nuvix.Vm
