import Nuvix.Kernel.ImageLoad
import Nuvix.Lib.Transition
import Nuvix.Mm.MapCalls

/-!
# The layout of every address space

Programs are loaded, forked, and change their address spaces in any order. In every
state that can be reached the VMAs of an address space are valid, disjoint and in the
order of the tree, none of them meets the guard page below the stack or the range
above it, and no assertion on the insertion of a VMA has failed.
-/

namespace Nuvix

open SearchTree Transition

variable {cfg : MmConfig} {rb : Rebalance Vma} {ok : ℕ → Bool} {ehdr : Ehdr} {phdrs : List Phdr}
  {mm : Mm} {file : ℕ}

theorem readable_segmentFlags (p : Phdr) : (segmentFlags p).Readable := by
  intro hwrite
  simp only [segmentFlags, decide_eq_true_eq] at hwrite ⊢
  exact .inr hwrite

/-- Whatever the headers are, a program that has been loaded has a good layout. -/
theorem mmOk_loadExec (hok : loadExec cfg ehdr rb ok file phdrs = .ok mm) :
    MmOk cfg mm ∧ stackVma cfg ∈ mm.vmas.toList := by
  obtain ⟨_, htable, hrest⟩ := exists_of_bind_eq_ok hok
  obtain ⟨phdrAddr, hlayout, -⟩ := exists_of_bind_eq_ok hrest
  obtain ⟨hplaced, -, -⟩ := segments_of_checks htable hlayout
  have hmm := fulfills_loadExec rb ok file htable hlayout
  rw [hok] at hmm
  obtain ⟨htree, hmem, hbrk⟩ := hmm
  have hcfg := cfg.bottoms
  refine ⟨⟨⟨htree, fun v hv => ?_, fun v hv => ?_⟩, fun v hv => ?_, hbrk⟩, (hmem _).mpr (.inl rfl)⟩
  · rcases (hmem v).mp hv with rfl | ⟨p, hp, hload, rfl⟩
    · exact .inr le_rfl
    · rw [segmentVma_bounds.2.1]
      exact .inl (hplaced p hp hload).bounds.2.2.2
  · rcases (hmem v).mp hv with rfl | ⟨p, hp, hload, rfl⟩
    · exact le_rfl
    · rw [segmentVma_bounds.2.1, ustackTop_eq]
      exact (hplaced p hp hload).bounds.2.2.2.trans (by omega)
  · rcases (hmem v).mp hv with rfl | ⟨p, hp, hload, rfl⟩
    · exact fun _ => rfl
    · rw [segmentVma_bounds.2.2]
      exact readable_segmentFlags p

namespace Layout

/-- All address spaces, and whether a failed assertion has stopped the kernel. -/
structure State where
  mm : ℕ → Option Mm
  stopped : Bool

/-- What happens to the address space `i`. A program is loaded into a new address
space, and a fork copies into a new one; a page fault only reads the VMAs; the last
user of an address space removes its VMAs. -/
inductive Action
  | exec (i file : ℕ) (ehdr : Ehdr) (phdrs : List Phdr)
  | fork (i child : ℕ)
  | mmap (i addr len prot flags offset : ℕ)
  | munmap (i start len : ℕ)
  | mprotect (i start len prot : ℕ)
  | brk (i addr : ℕ)
  | fault (i addr : ℕ)
  | exit (i : ℕ)

/-- The address space `i` has changed. -/
def State.set (s : State) (i : ℕ) (mm : Option Mm) : State :=
  { s with mm := Function.update s.mm i mm }

/-- A call on the address space `i`. What it does to the VMAs does not depend on the page table,
which is left out. -/
def State.call {α : Type} (s : State) (i : ℕ) (x : Prog (MapState Unit) Errno α) : Option State :=
  (s.mm i).map fun mm =>
    match x ⟨mm, fun _ => none⟩ with
    | (.stop, _) => { s with stopped := true }
    | (_, s') => s.set i (some s'.mm)

/-- The end of a call that makes a new address space. -/
def State.create (s : State) (i : ℕ) : Except Errno Mm → State
  | .ok mm => s.set i (some mm)
  | .error _ => s

section

variable (cfg : MmConfig) (rb : Rebalance Vma)

/-- One call, with the results of its allocations. -/
def step (s : State) (a : (ℕ → Bool) × Action) : Option State :=
  let ok := a.1
  if s.stopped then none
  else
    match a.2 with
    | .exec i file ehdr phdrs =>
      if s.mm i = none then some (s.create i (loadExec cfg ehdr rb ok file phdrs)) else none
    | .fork i child =>
      if s.mm child = none then (s.mm i).map fun mm => s.create child (mmClone rb ok mm) else none
    | .mmap i addr len prot flags offset =>
      s.call i (MapState.sysMmap cfg rb ok addr len prot flags offset)
    | .munmap i start len => s.call i (MapState.sysMunmap cfg rb ok start len)
    | .mprotect i start len prot => s.call i (MapState.sysMprotect cfg rb ok start len prot)
    | .brk i addr => s.call i (MapState.sysBrk cfg rb ok addr)
    | .fault i _ => (s.mm i).map fun _ => s
    | .exit i => (s.mm i).map fun _ => s.set i none

end

/-- No address space yet. -/
def boot : State := ⟨fun _ => none, false⟩

/-- Every address space has a good layout, and the kernel has not stopped. -/
structure Inv (cfg : MmConfig) (s : State) : Prop where
  running : s.stopped = false
  mm : ∀ i mm, s.mm i = some mm → MmOk cfg mm

variable {s s' : State} {i : ℕ}

theorem Inv.set (h : Inv cfg s) {o : Option Mm} (ho : ∀ mm, o = some mm → MmOk cfg mm) :
    Inv cfg (s.set i o) := by
  refine ⟨h.running, fun j mm hmm => ?_⟩
  change Function.update s.mm i o j = some mm at hmm
  rw [Function.update_apply] at hmm
  split_ifs at hmm
  · exact ho mm hmm
  · exact h.mm j mm hmm

theorem ok_of_mmOk (h : MmOk cfg mm) : MapState.Ok cfg (⟨mm, fun _ => none⟩ : MapState Unit) :=
  ⟨h, fun _ _ hpage => absurd hpage Bool.false_ne_true⟩

/-- A call that keeps an address space good, also when it fails. -/
theorem Inv.call {α : Type} {x : Prog (MapState Unit) Errno α} (h : Inv cfg s)
    (hx : ∀ mm, MmOk cfg mm → x.Runs ⟨mm, fun _ => none⟩ (fun _ s' => MmOk cfg s'.mm)
      fun _ s' => MmOk cfg s'.mm) (hs : s.call i x = some s') : Inv cfg s' := by
  obtain ⟨mm, hmm, rfl⟩ := Option.map_eq_some_iff.mp hs
  have hruns := hx mm (h.mm i mm hmm)
  unfold Prog.Runs at hruns
  have hset : ∀ s' : MapState Unit, MmOk cfg s'.mm → Inv cfg (s.set i (some s'.mm)) := by
    refine fun s' hs' => h.set fun mm' hmm' => ?_
    cases hmm'
    exact hs'
  split at hruns
  next heq =>
    rw [heq]
    exact hset _ hruns
  next heq =>
    rw [heq]
    exact hset _ hruns
  · exact hruns.elim

theorem Inv.create (h : Inv cfg s) {r : Except Errno Mm} (hr : ∀ mm, r = .ok mm → MmOk cfg mm) :
    Inv cfg (s.create i r) := by
  cases r with
  | ok mm =>
    refine h.set fun mm' hmm => ?_
    cases hmm
    exact hr mm rfl
  | error e => exact h

theorem Inv.step {a : (ℕ → Bool) × Action} (h : Inv cfg s)
    (hstep : Layout.step cfg rb s a = some s') : Inv cfg s' := by
  obtain ⟨ok, act⟩ := a
  unfold Layout.step at hstep
  rw [h.running, if_neg Bool.false_ne_true] at hstep
  cases act with
  | exec i file ehdr phdrs =>
    obtain ⟨-, rfl⟩ := ite_eq_some.mp hstep
    exact h.create fun mm hmm => (mmOk_loadExec hmm).1
  | fork i child =>
    dsimp only at hstep
    split_ifs at hstep
    obtain ⟨mm, hmm, rfl⟩ := Option.map_eq_some_iff.mp hstep
    exact h.create fun mm' hmm' => (mmOk_mmClone (h.mm i mm hmm) hmm').1
  | mmap i addr len prot flags offset =>
    refine h.call (fun mm hmm => ?_) hstep
    refine (MapState.runs_sysMmap (ok_of_mmOk hmm)).mono (fun _ s' hs' => hs'.1.mm) ?_
    rintro e _ rfl
    exact hmm
  | munmap i start len =>
    refine h.call (fun mm hmm => ?_) hstep
    refine (MapState.runs_sysMunmap hmm.layout.tree).mono ?_ ?_
    · rintro _ s' ⟨stop, -, hs'⟩
      exact ((ok_of_mmOk hmm).unmapped hs').1.mm
    · rintro e _ rfl
      exact hmm
  | mprotect i start len prot =>
    exact h.call (fun mm hmm => (MapState.runs_sysMprotect hmm.layout.tree).mono
      (fun _ s' hs' => hs'.mmOk hmm) fun _ s' hs' => hs'.mmOk hmm) hstep
  | brk i addr =>
    exact h.call (fun mm hmm => (MapState.runs_sysBrk (ok_of_mmOk hmm)).mono
      (fun _ s' hs' => hs'.1.mm) fun _ _ => False.elim) hstep
  | fault i addr =>
    obtain ⟨mm, hmm, rfl⟩ := Option.map_eq_some_iff.mp hstep
    exact h
  | exit i =>
    obtain ⟨mm, hmm, rfl⟩ := Option.map_eq_some_iff.mp hstep
    exact h.set nofun

/-- In every reachable state no assertion has failed, the VMAs of every address space
are valid, disjoint and in the order of the tree, and they leave the guard page and
the range above the stack free. -/
theorem layoutOk_of_reachable (h : Reachable (· = boot) (Graph (Layout.step cfg rb)) s) :
    s.stopped = false ∧ ∀ i mm, s.mm i = some mm → LayoutOk cfg mm := by
  have hinit : ∀ s, s = boot → Inv cfg s := by
    rintro s rfl
    exact ⟨rfl, nofun⟩
  have hinv : Inv cfg s := h.invariant hinit fun s a s' hs hstep => hs.step hstep
  exact ⟨hinv.running, fun i mm hmm => (hinv.mm i mm hmm).layout⟩

/-- A program with one segment, which loses its second page and forks. -/
def sampleRun : List ((ℕ → Bool) × Action) :=
  let text : Phdr := ⟨.load, pfR ||| pfX, 0, 0x10000, 0x1000, 0x3000, 0x1000⟩
  [(fun _ => true, .exec 0 7 ⟨false, 0x10000, 64⟩ [text]),
    (fun _ => true, .munmap 0 0x11000 0x1000), (fun _ => true, .fork 0 1)]

/-- The child has both parts of the segment, and the stack. -/
theorem layoutOk_sampleRun : ∃ s mm,
    exec (Layout.step ⟨16, by decide⟩ .plain) boot sampleRun = some s ∧ s.mm 1 = some mm ∧
      mm.vmas.toList.map (fun v => (v.start, v.stop)) =
        [(0x10000, 0x11000), (0x12000, 0x13000), (0x3ffffee000, 0x3fffffe000)] ∧
      s.stopped = false ∧ LayoutOk ⟨16, by decide⟩ mm := by
  have hexec : ((exec (Layout.step ⟨16, by decide⟩ .plain) boot sampleRun).bind fun s =>
      (s.mm 1).map fun mm => mm.vmas.toList.map fun v => (v.start, v.stop)) =
      some [(0x10000, 0x11000), (0x12000, 0x13000), (0x3ffffee000, 0x3fffffe000)] := by
    decide +kernel
  obtain ⟨s, hs, h⟩ := Option.bind_eq_some_iff.mp hexec
  obtain ⟨mm, hmm, hlist⟩ := Option.map_eq_some_iff.mp h
  obtain ⟨hrun, hlayout⟩ := layoutOk_of_reachable (Reachable.exec (.init rfl) hs)
  exact ⟨s, mm, hs, hmm, hlist, hrun, hlayout 1 mm hmm⟩

end Layout

end Nuvix
