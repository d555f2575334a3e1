import Nuvix.Mm.MmStruct
import Nuvix.Lib.SumUpdate

/-!
# The counts of address spaces

Each field and each local variable that refers to an `mm_struct` is a token; a step moves
tokens between the tasks and CPUs, or changes one count together with one token. So the counts
are those of the tokens in every reachable state, and the page table is freed once, after the
last token is gone.
-/

namespace Nuvix.MmStruct

open Lifetime (Ref Counts Pool Tally)
open Transition Function

variable {C T : ℕ} {r : Ref ℕ} {t : Task C} {m : ℕ} {q : Cpu T} {rest : List (Ref ℕ)} {i : Fin T}
  {c : Fin C}

/-! ### Tokens -/

def Phase.refs : Phase → Multiset (Ref ℕ)
  | .exec m | .alloc m => users (some m)
  | .clone mm | .cloned mm => users mm
  | _ => 0

def Task.refs (t : Task C) : Multiset (Ref ℕ) := users t.mm + t.phase.refs + t.todo

def CpuPhase.refs : CpuPhase T → Multiset (Ref ℕ)
  | .swapLoad m old _ | .swapSet m old _ => roots (some m) + users old
  | .load _ mm | .set _ mm => roots mm
  | .finish todo => todo
  | _ => 0

def Cpu.refs (q : Cpu T) : Multiset (Ref ℕ) := roots q.active + roots q.prev + q.phase.refs

def taskRefs (t : Option (Task C)) : Multiset (Ref ℕ) := t.elim 0 Task.refs

/-- All tokens. -/
def State.refs (s : State C T) : Multiset (Ref ℕ) :=
  ∑ i, taskRefs (s.task i) + ∑ c, (s.cpu c).refs

def State.pool (s : State C T) : Pool ℕ :=
  ⟨fun m => ⟨decide (m < s.next), (s.mm m).urefs, (s.mm m).refs, (s.mm m).frees⟩, s.refs⟩

/-! ### The invariant -/

structure Task.Ok (t : Task C) : Prop where
  todo : t.todo.length ≤ 2
  exit : t.phase = .exit ∨ t.phase = .dead → t.mm = none
  dead : t.phase = .dead → t.todo = []

theorem Task.ok_of_alive (htodo : t.todo.length ≤ 2) (hexit : t.phase ≠ .exit)
    (hdead : t.phase ≠ .dead) : t.Ok where
  todo := htodo
  exit := by
    rintro (heq | heq)
    · exact absurd heq hexit
    · exact absurd heq hdead
  dead := fun heq => absurd heq hdead

/-- The page table that is loaded is the one of `active_mm`, except between the two updates of
a switch. -/
def Cpu.LoadedOk (q : Cpu T) : Prop :=
  match q.phase with
  | .swapLoad _ _ active => q.loaded = q.active ∧ q.active = active
  | .swapSet m _ active => q.loaded = some m ∧ q.active = active
  | .set _ mm => q.loaded = mm
  | _ => q.loaded = q.active

/-- `prev_mm` is used during a context switch only. -/
structure Cpu.Ok (q : Cpu T) : Prop where
  loaded : q.LoadedOk
  prev : q.prev ≠ none → q.phase = .switched
  todo : ∀ todo, q.phase = .finish todo → todo.length ≤ 1

structure Inv (s : State C T) : Prop where
  ok : s.failed = false
  pool : s.pool.Inv
  task : ∀ i t, s.task i = some t → t.Ok
  cpu : ∀ c, (s.cpu c).Ok

/-! ### How many tokens there are -/

@[simp] theorem users_none : users none = [] := rfl

@[simp] theorem users_some (m : ℕ) : users (some m) = [Ref.user m] := rfl

@[simp] theorem roots_none : roots none = [] := rfl

@[simp] theorem roots_some (m : ℕ) : roots (some m) = [Ref.root m] := rfl

theorem length_users (mm : Option ℕ) : (users mm).length ≤ 1 := by
  cases mm <;> simp

theorem length_roots (mm : Option ℕ) : (roots mm).length ≤ 1 := by
  cases mm <;> simp

theorem Task.Ok.card_refs (h : t.Ok) : t.refs.card ≤ 4 := by
  have hmm := length_users t.mm
  have htodo := h.todo
  have hphase : t.phase.refs.card ≤ 1 := by
    cases hp : t.phase with
    | clone mm | cloned mm => simpa [Phase.refs] using length_users mm
    | _ => simp [Phase.refs]
  simp only [Task.refs, Multiset.card_add, Multiset.coe_card]
  omega

theorem Cpu.Ok.card_refs (h : q.Ok) : q.refs.card ≤ 4 := by
  have hactive := length_roots q.active
  have hprev := length_roots q.prev
  have hphase : q.phase.refs.card ≤ 2 := by
    cases hp : q.phase with
    | swapLoad m old active | swapSet m old active =>
      have := length_users old
      simp only [CpuPhase.refs, Multiset.card_add, Multiset.coe_card, roots_some,
        List.length_singleton]
      omega
    | load next mm | set next mm =>
      have := length_roots mm
      simp only [CpuPhase.refs, Multiset.coe_card]
      omega
    | finish todo =>
      have := h.todo todo hp
      simp only [CpuPhase.refs, Multiset.coe_card]
      omega
    | _ => simp [CpuPhase.refs]
  simp only [Cpu.refs, Multiset.card_add, Multiset.coe_card]
  omega

/-- The counts stay below the bound of `refcount_t`. -/
theorem Inv.card_refs {s : State C T} (h : Inv s) : s.refs.card ≤ 4 * T + 4 * C := by
  unfold State.refs
  rw [Multiset.card_add, Multiset.card_sum, Multiset.card_sum]
  have htasks : ∑ i, (taskRefs (s.task i)).card ≤ ∑ _i : Fin T, 4 := by
    apply Finset.sum_le_sum
    intro i _
    cases hi : s.task i with
    | none => simp [taskRefs]
    | some t => exact (h.task i t hi).card_refs
  have hcpus : ∑ c, (s.cpu c).refs.card ≤ ∑ _c : Fin C, 4 :=
    Finset.sum_le_sum fun c _ => (h.cpu c).card_refs
  rw [Finset.sum_const, Finset.card_univ, Fintype.card_fin, smul_eq_mul] at htasks hcpus
  omega

/-! ### How the tokens change -/

section Refs

variable {s s' : State C T}

theorem refs_setTask (s : State C T) (i : Fin T) (t : Option (Task C)) :
    (s.setTask i t).refs + taskRefs (s.task i) = s.refs + taskRefs t := by
  have hsum := SumUpdate.sum_update_add taskRefs s.task i t
  unfold State.refs State.setTask
  dsimp only
  rw [add_right_comm, hsum, add_right_comm]

theorem refs_setCpu (s : State C T) (c : Fin C) (q : Cpu T) :
    (s.setCpu c q).refs + (s.cpu c).refs = s.refs + q.refs := by
  have hsum := SumUpdate.sum_update_add Cpu.refs s.cpu c q
  unfold State.refs State.setCpu
  dsimp only
  rw [add_assoc, hsum, ← add_assoc]

theorem mem_refs_of_task (hi : s.task i = some t) (hr : r ∈ t.refs) : r ∈ s.refs := by
  unfold State.refs
  apply Multiset.mem_add.mpr
  left
  apply Multiset.mem_sum.mpr
  refine ⟨i, Finset.mem_univ i, ?_⟩
  rwa [hi]

theorem mem_refs_of_cpu (hr : r ∈ (s.cpu c).refs) : r ∈ s.refs := by
  unfold State.refs
  apply Multiset.mem_add.mpr
  right
  exact Multiset.mem_sum.mpr ⟨c, Finset.mem_univ c, hr⟩

/-- The counts after one `mm_struct` has changed. -/
theorem pool_count {mm : Mm} (hmm : s'.mm = update s.mm m mm) (hnext : s'.next = s.next) :
    s'.pool.count = update s.pool.count m ⟨decide (m < s.next), mm.urefs, mm.refs, mm.frees⟩ := by
  funext k
  unfold State.pool
  dsimp only
  rw [hmm, hnext, update_apply, update_apply]
  split_ifs with heq
  · rw [heq]
  · rfl

theorem pool_move (h : s.pool.Inv) (hmm : s'.mm = s.mm) (hnext : s'.next = s.next)
    (hrefs : s'.refs = s.refs) : s'.pool.Inv := by
  apply h.move
  · unfold State.pool
    rw [hmm, hnext]
  · exact hrefs

theorem pool_alloc (h : s.pool.Inv) (hmm : s'.mm = (mmAlloc s).mm) (hnext : s'.next = s.next + 1)
    (hrefs : s'.refs = s.refs + {.user s.next}) : s'.pool.Inv := by
  have hborn : (s.pool.count s.next).born = false := by simp [State.pool]
  apply h.alloc hborn _ hrefs
  funext k
  unfold State.pool
  dsimp only
  rw [hmm, hnext]
  change Counts.mk _ (update s.mm s.next ⟨1, 1, 0⟩ k).urefs _ _ = _
  rw [mmAlloc, State.setMm, update_apply, update_apply]
  split_ifs with heq
  · simp [heq]
  · have hiff : (k < s.next + 1) ↔ (k < s.next) := by omega
    simp [hiff, update_of_ne heq]

/-- No count is larger than all tokens together, twice, and one. -/
theorem counts_le (h : s.pool.Inv) (m : ℕ) :
    (s.mm m).urefs ≤ s.refs.card ∧ (s.mm m).refs ≤ 2 * s.refs.card + 1 := by
  obtain ⟨hurefs, hrefs, -, -⟩ := h m
  have huser := Multiset.count_le_card (Ref.user m) s.refs
  have hroot := Multiset.count_le_card (Ref.root m) s.refs
  have hlast := Multiset.count_le_card (Ref.last m) s.refs
  constructor
  · exact hurefs.le.trans huser
  · have heq : (s.mm m).refs = _ := hrefs
    rw [heq]
    change _ + s.refs.count (.root m) + s.refs.count (.last m) ≤ _
    split_ifs <;> omega

theorem pool_get (h : s.pool.Inv) (hm : .user m ∈ s.refs)
    (hlt : 2 * s.refs.card + 1 < refcountMax) (hmm : s'.mm = (mmGet s m).mm)
    (hnext : s'.next = s.next) (hrefs : s'.refs = s.refs + {.user m}) : s'.pool.Inv := by
  have hpos : 0 < (s.mm m).urefs := by
    have hurefs : (s.mm m).urefs = _ := (h m).urefs
    rw [hurefs]
    exact Multiset.count_pos.mpr hm
  have hle := (counts_le h m).1
  have hinc := refcountInc_of_lt hpos (by omega)
  apply h.get hm _ hrefs
  rw [pool_count hmm hnext, hinc]
  rfl

theorem pool_grab (h : s.pool.Inv) (hm : .user m ∈ s.refs)
    (hlt : 2 * s.refs.card + 1 < refcountMax) (hmm : s'.mm = (mmGrab s m).mm)
    (hnext : s'.next = s.next) (hrefs : s'.refs = s.refs + {.root m}) : s'.pool.Inv := by
  have huser : 0 < s.refs.count (.user m) := Multiset.count_pos.mpr hm
  have hpos : 0 < (s.mm m).refs := ((h m).refs_pos (Nat.lt_of_lt_of_le huser (by
    rw [add_assoc]
    exact Nat.le_add_right _ _))).1
  have hle := (counts_le h m).2
  have hinc := refcountInc_of_lt hpos (by omega)
  apply h.grab hm _ hrefs
  rw [pool_count hmm hnext, hinc]
  rfl

theorem mmPut_eq (s : State C T) (m : ℕ) :
    mmPut s m = (s.setMm m { s.mm m with urefs := (s.mm m).urefs - 1 },
      if (s.mm m).urefs = 1 then [.last m] else []) := by
  simp [mmPut, refcountDecAndTest_fst, refcountDecAndTest_snd]

theorem mmDrop_eq (s : State C T) (m : ℕ) :
    mmDrop s m = (s.setMm m { s.mm m with refs := (s.mm m).refs - 1 },
      if (s.mm m).refs = 1 then [.free m] else []) := by
  simp [mmDrop, refcountDecAndTest_fst, refcountDecAndTest_snd]

/-- One reference goes a step further on its way out. -/
theorem pool_release (h : s.pool.Inv) (hr : r ∈ s.refs) (hmm : s'.mm = (release s r).1.mm)
    (hnext : s'.next = s.next) (hrefs : s'.refs + {r} = s.refs + (release s r).2) :
    s'.pool.Inv := by
  have hdrop : ∀ m, r = .root m ∨ r = .last m → release s r = mmDrop s m → s'.pool.Inv := by
    intro m hkind hrelease
    rw [hrelease, mmDrop_eq] at hmm hrefs
    apply h.drop hkind
    · rw [pool_count hmm hnext]
      rfl
    · change s'.refs + {r} = s.refs + if (s.mm m).refs = 1 then {.free m} else 0
      rw [hrefs]
      split_ifs <;> rfl
  cases r with
  | user m =>
    rw [release, mmPut_eq] at hmm hrefs
    apply h.put
    · rw [pool_count hmm hnext]
      rfl
    · change s'.refs + {.user m} = s.refs + if (s.mm m).urefs = 1 then {.last m} else 0
      rw [hrefs]
      split_ifs <;> rfl
  | root m => exact hdrop m (.inl rfl) rfl
  | last m => exact hdrop m (.inr rfl) rfl
  | free m =>
    apply h.free
    · rw [pool_count hmm hnext]
      rfl
    · change s'.refs + {.free m} = s.refs
      rw [hrefs]
      exact add_zero _

theorem release_task (s : State C T) (r : Ref ℕ) : (release s r).1.task = s.task := by
  cases r <;> rfl

theorem release_cpu (s : State C T) (r : Ref ℕ) : (release s r).1.cpu = s.cpu := by
  cases r <;> rfl

theorem release_next (s : State C T) (r : Ref ℕ) : (release s r).1.next = s.next := by
  cases r <;> rfl

theorem release_refs (s : State C T) (r : Ref ℕ) : (release s r).1.refs = s.refs := by
  cases r <;> rfl

theorem length_release (s : State C T) (r : Ref ℕ) : (release s r).2.length ≤ 1 := by
  cases r with
  | user m =>
    rw [release, mmPut_eq]
    split_ifs <;> simp
  | root m | last m =>
    rw [release, mmDrop_eq]
    split_ifs <;> simp
  | free m => exact Nat.zero_le 1

/-- The assertion of `mm_drop` holds. -/
theorem failed_release (h : s.pool.Inv) (hr : r ∈ s.refs) (hok : s.failed = false) :
    (release s r).1.failed = false := by
  cases r with
  | user m => exact hok
  | root m => exact hok
  | last m => exact hok
  | free m =>
    have hfree : 0 < s.refs.count (.free m) := Multiset.count_pos.mpr hr
    have hunused := ((h m).unused (Nat.lt_of_lt_of_le hfree (Nat.le_add_left _ _))).1
    have hurefs : (s.mm m).urefs = 0 := (h m).urefs.trans hunused
    change (s.failed || decide ((s.mm m).urefs ≠ 0)) = false
    rw [hok, hurefs]
    rfl

end Refs

/-! ### Steps of a task -/

section Task

variable {s : State C T} {c : Fin C} {i : Fin T} {t t' : Task C} {a b : Multiset (Ref ℕ)}

theorem refs_of_task (hi : s.task i = some t) (hrefs : t'.refs + a = t.refs + b) :
    (s.setTask i (some t')).refs + a = s.refs + b := by
  have hsum := refs_setTask s i (some t')
  rw [hi] at hsum
  change _ + t.refs = s.refs + t'.refs at hsum
  apply add_right_cancel (b := t.refs)
  rw [add_right_comm, hsum, add_assoc, hrefs, add_left_comm, add_comm]

theorem refs_of_cpu (hrefs : q.refs + a = (s.cpu c).refs + b) :
    (s.setCpu c q).refs + a = s.refs + b := by
  have hsum := refs_setCpu s c q
  apply add_right_cancel (b := (s.cpu c).refs)
  rw [add_right_comm, hsum, add_assoc, hrefs, add_left_comm, add_comm]

theorem gain_of_task (hi : s.task i = some t) (hrefs : t'.refs = t.refs + b) :
    (s.setTask i (some t')).refs = s.refs + b := by
  rw [← refs_of_task (a := 0) hi (by rw [add_zero, hrefs]), add_zero]

theorem gain_of_cpu {q : Cpu T} (hrefs : q.refs = (s.cpu c).refs + b) :
    (s.setCpu c q).refs = s.refs + b := by
  rw [← refs_of_cpu (a := 0) (by rw [add_zero, hrefs]), add_zero]

section

variable (h : Inv s)
include h

/-- What is loaded in a phase, and that `prev_mm` is empty outside of a switch. -/
theorem Inv.at_phase {phase : CpuPhase T} (hphase : (s.cpu c).phase = phase) :
    Cpu.LoadedOk { s.cpu c with phase := phase } ∧ (phase ≠ .switched → (s.cpu c).prev = none) := by
  subst hphase
  exact ⟨(h.cpu c).loaded, fun hne => by_contra fun hprev => hne ((h.cpu c).prev hprev)⟩

theorem Inv.task_update (hok : t'.Ok) : ∀ j u, update s.task i (some t') j = some u → u.Ok := by
  apply (forall_update_iff s.task fun _ t => ∀ u, t = some u → u.Ok).mpr
  refine ⟨?_, fun j _ => h.task j⟩
  rintro u hu
  rwa [← Option.some.inj hu]

theorem Inv.cpu_update (hok : q.Ok) : ∀ d, (update s.cpu c q d).Ok :=
  (forall_update_iff s.cpu fun _ q => q.Ok).mpr ⟨hok, fun d _ => h.cpu d⟩

/-- A task moves on, and the tokens stay. -/
theorem Inv.moveTask (hi : s.task i = some t) (hok : t'.Ok) (hrefs : t'.refs = t.refs) :
    Inv (s.setTask i (some t')) where
  ok := h.ok
  pool := by
    refine pool_move h.pool rfl rfl ?_
    rw [gain_of_task (b := 0) hi (by rw [hrefs, add_zero]), add_zero]
  task := h.task_update hok
  cpu := h.cpu

theorem Inv.allocTask (hi : s.task i = some t) (hok : t'.Ok)
    (hrefs : t'.refs = t.refs + {.user s.next}) : Inv ((mmAlloc s).setTask i (some t')) where
  ok := h.ok
  pool := by
    exact pool_alloc h.pool rfl rfl (gain_of_task (s := mmAlloc s) hi hrefs)
  task := h.task_update hok
  cpu := h.cpu

theorem Inv.todo (hi : s.task i = some t) (htodo : t.todo = r :: rest) :
    Inv ((release s r).1.setTask i (some { t with todo := (release s r).2 ++ rest })) := by
  have hmem : r ∈ s.refs := by
    apply mem_refs_of_task hi
    simp [Task.refs, htodo]
  obtain ⟨hlen, hexit, hdead⟩ := h.task i t hi
  refine ⟨failed_release h.pool hmem h.ok, ?_, ?_, fun d => ?_⟩
  · refine pool_release h.pool hmem rfl (release_next s r) ?_
    rw [← release_refs s r]
    apply refs_of_task (t := t) (by rw [release_task]; exact hi)
    simp only [Task.refs, htodo, ← Multiset.coe_add, ← Multiset.cons_coe,
      ← Multiset.singleton_add]
    abel
  · change ∀ j u, update (release s r).1.task i _ j = some u → u.Ok
    rw [release_task]
    refine h.task_update ⟨?_, hexit, fun hphase => ?_⟩
    · have hmore := length_release s r
      rw [htodo, List.length_cons] at hlen
      rw [List.length_append]
      omega
    · rw [hdead hphase] at htodo
      exact nomatch htodo
  · change ((release s r).1.cpu d).Ok
    rw [release_cpu]
    exact h.cpu d

/-- `CLONE_VM`: the child uses the address space of its parent. -/
theorem Inv.share (hbound : T + C < 2 ^ 28) (hi : s.task i = some t) (htodo : t.todo = [])
    {child : Option ℕ} (hphase : t.phase = .clone child) (hmm : t.mm = some m) :
    Inv ((mmGet s m).setTask i
      (some { t with phase := .cloned (some m), todo := users child })) where
  ok := h.ok
  pool := by
    have hmem : Ref.user m ∈ s.refs := by
      apply mem_refs_of_task hi
      simp [Task.refs, hmm]
    have hcard := h.card_refs
    refine pool_get h.pool hmem (by simp only [refcountMax]; omega) rfl rfl ?_
    apply gain_of_task (s := mmGet s m) hi
    simp only [Task.refs, hphase, Phase.refs, htodo, users_some, Multiset.coe_nil,
      Multiset.coe_singleton]
    abel
  task := h.task_update (Task.ok_of_alive ((length_users child).trans (by omega)) nofun nofun)
  cpu := h.cpu

/-- `switch_mm` takes the lock and gives the task its new address space. -/
theorem Inv.switchMm (hbound : T + C < 2 ^ 28) (hi : s.task i = some t)
    (hphase : t.phase = .exec m) (hcpu : (s.cpu c).phase = .run) :
    Inv (((mmGrab s m).setTask i (some { t with mm := some m, phase := .run })).setCpu c
      { s.cpu c with phase := .swapLoad m t.mm (s.cpu c).active }) where
  ok := h.ok
  pool := by
    have hmem : Ref.user m ∈ s.refs := by
      apply mem_refs_of_task hi
      simp [Task.refs, hphase, Phase.refs]
    have hcard := h.card_refs
    refine pool_grab h.pool hmem (by simp only [refcountMax]; omega) rfl rfl ?_
    have htask : ((mmGrab s m).setTask i (some { t with mm := some m, phase := .run })).refs +
        users t.mm = s.refs + 0 := by
      apply refs_of_task (s := mmGrab s m) hi
      simp only [Task.refs, hphase, Phase.refs]
      abel
    have hq : (((mmGrab s m).setTask i (some { t with mm := some m, phase := .run })).setCpu c
        { s.cpu c with phase := .swapLoad m t.mm (s.cpu c).active }).refs =
          ((mmGrab s m).setTask i (some { t with mm := some m, phase := .run })).refs +
            (users t.mm + {.root m}) := by
      apply gain_of_cpu
      change _ = (s.cpu c).refs + _
      simp only [Cpu.refs, hcpu, CpuPhase.refs, roots_some, Multiset.coe_singleton]
      abel
    rwa [← add_assoc, htask, add_zero] at hq
  task := h.task_update (Task.ok_of_alive (h.task i t hi).todo nofun nofun)
  cpu := by
    obtain ⟨hloaded, hprev⟩ := h.at_phase hcpu
    exact h.cpu_update ⟨⟨hloaded, rfl⟩, fun hne => absurd (hprev nofun) hne, nofun⟩

theorem Inv.publish (hi : s.task i = some t) {mm : Option ℕ}
    (hphase : t.phase = .cloned mm) {child : Fin T} (hchild : s.task child = none) (cpu : Fin C) :
    Inv ((s.setTask i (some { t with phase := .run })).setTask child
      (some ⟨mm, .run, [], cpu⟩)) := by
  have hne : child ≠ i := by
    rintro rfl
    exact nomatch hchild.symm.trans hi
  have hparent : Task.Ok { t with phase := .run } :=
    Task.ok_of_alive (h.task i t hi).todo nofun nofun
  refine ⟨h.ok, ?_, ?_, h.cpu⟩
  · refine pool_move h.pool rfl rfl ?_
    have htask : (s.setTask i (some { t with phase := .run })).refs + users mm = s.refs + 0 := by
      apply refs_of_task hi
      simp only [Task.refs, hphase, Phase.refs]
      abel
    have hnew := refs_setTask (s.setTask i (some { t with phase := .run })) child
      (some ⟨mm, .run, [], cpu⟩)
    have hold : (s.setTask i (some { t with phase := .run })).task child = none :=
      (update_of_ne hne _ _).trans hchild
    have hrefs : taskRefs (some (⟨mm, .run, [], cpu⟩ : Task C)) = users mm := by
      change (users mm : Multiset (Ref ℕ)) + 0 + 0 = users mm
      rw [add_zero, add_zero]
    rw [hold, hrefs, htask] at hnew
    change _ + (0 : Multiset (Ref ℕ)) = _ at hnew
    rwa [add_zero, add_zero] at hnew
  · apply (forall_update_iff _ fun _ t => ∀ u, t = some u → Task.Ok u).mpr
    refine ⟨?_, fun j _ => h.task_update hparent j⟩
    intro u hu
    rw [← Option.some.inj hu]
    exact Task.ok_of_alive (Nat.zero_le 2) nofun nofun

theorem Inv.taskStep (hbound : T + C < 2 ^ 28) (hi : s.task i = some t)
    (hcpu : (s.cpu c).phase = .run) {op : Op C T} {s' : State C T}
    (hstep : taskStep s c i t op = some s') : Inv s' := by
  have hone : ∀ mm, (users mm).length ≤ 2 := fun mm => (length_users mm).trans (by omega)
  have hlen : t.todo.length ≤ 2 := (h.task i t hi).todo
  unfold MmStruct.taskStep at hstep
  cases op with
  | todo =>
    dsimp only at hstep
    split at hstep <;> cases hstep
    next r rest htodo =>
      exact h.todo hi htodo
  | execve | taskAlloc =>
    dsimp only at hstep
    split at hstep <;> cases hstep
    next htodo hphase =>
      refine h.allocTask hi (Task.ok_of_alive hlen nofun nofun) ?_
      simp only [Task.refs, hphase, Phase.refs, users_some, Multiset.coe_singleton]
      abel
  | execveError | taskAllocError =>
    dsimp only at hstep
    split at hstep <;> cases hstep
    next m htodo hphase =>
      refine h.moveTask hi (Task.ok_of_alive (hone (some m)) nofun nofun) ?_
      simp only [Task.refs, hphase, Phase.refs, htodo, Multiset.coe_nil]
      abel
  | switchMm =>
    dsimp only at hstep
    split at hstep <;> cases hstep
    next m htodo hphase =>
      exact h.switchMm hbound hi hphase hcpu
  | taskAllocDone | mmClone =>
    dsimp only at hstep
    split at hstep <;> cases hstep
    next child htodo hphase =>
      refine h.moveTask hi (Task.ok_of_alive hlen nofun nofun) ?_
      simp only [Task.refs, hphase, Phase.refs]
  | share =>
    dsimp only at hstep
    split at hstep <;> cases hstep
    next child m htodo hphase hmm =>
      exact h.share hbound hi htodo hphase hmm
  | cloneError =>
    dsimp only at hstep
    split at hstep <;> cases hstep
    all_goals
      rename_i htodo hphase
      refine h.moveTask hi (Task.ok_of_alive (hone _) nofun nofun) ?_
      simp only [Task.refs, hphase, Phase.refs, htodo, Multiset.coe_nil]
      abel
  | publish child cpu =>
    dsimp only at hstep
    split at hstep <;> cases hstep
    next mm htodo hphase hchild =>
      exact h.publish hi hphase hchild cpu
  | exit =>
    dsimp only at hstep
    split at hstep <;> cases hstep
    next htodo hphase =>
      refine h.moveTask hi ⟨hone _, fun _ => rfl, nofun⟩ ?_
      simp only [Task.refs, hphase, Phase.refs, htodo, users_none, Multiset.coe_nil]
      abel
  | schedExit =>
    dsimp only at hstep
    split at hstep <;> cases hstep
    next htodo hphase =>
      have hmm : t.mm = none := (h.task i t hi).exit (.inl hphase)
      have hmove : Inv (s.setTask i (some { t with phase := .dead })) := by
        refine h.moveTask hi ⟨hlen, fun _ => hmm, fun _ => htodo⟩ ?_
        simp only [Task.refs, hphase, Phase.refs]
      refine ⟨?_, hmove.pool, hmove.task, hmove.cpu⟩
      change (s.failed || t.mm.isSome) = false
      rw [h.ok, hmm]
      rfl

end

end Task

/-! ### Steps of a CPU -/

section Cpu

variable {s s' : State C T} {c : Fin C} {next : Fin T}

/-- A CPU moves on, and the tokens stay. -/
theorem Inv.moveCpu (h : Inv s) (hok : q.Ok) (hrefs : q.refs = (s.cpu c).refs) :
    Inv (s.setCpu c q) where
  ok := h.ok
  pool := by
    refine pool_move h.pool rfl rfl ?_
    rw [gain_of_cpu (b := 0) (by rw [hrefs, add_zero]), add_zero]
  task := h.task
  cpu := h.cpu_update hok

/-- The end of `switch_mm`. -/
theorem Inv.swapSet (h : Inv s) {old active : Option ℕ}
    (hphase : (s.cpu c).phase = .swapSet m old active) (hi : s.task (s.cpu c).curr = some t)
    (htodo : t.todo = []) (hrun : t.phase = .run) :
    Inv ((s.setTask (s.cpu c).curr (some { t with todo := roots active ++ users old })).setCpu
      c { s.cpu c with active := some m, phase := .run }) := by
  obtain ⟨⟨hload, hactive⟩, hprev⟩ := h.at_phase hphase
  change (s.cpu c).active = active at hactive
  refine ⟨h.ok, ?_, ?_, ?_⟩
  · refine pool_move h.pool rfl rfl ?_
    have hmove : (s.setTask (s.cpu c).curr
        (some { t with todo := roots active ++ users old })).refs =
          s.refs + (roots active + users old) := by
      apply gain_of_task hi
      simp only [Task.refs, htodo, Multiset.coe_nil, ← Multiset.coe_add]
      abel
    have hq : ((s.setTask (s.cpu c).curr (some { t with todo := roots active ++ users old })).setCpu
        c { s.cpu c with active := some m, phase := .run }).refs + (roots active + users old) =
          (s.setTask (s.cpu c).curr (some { t with todo := roots active ++ users old })).refs
            + 0 := by
      apply refs_of_cpu
      change _ = (s.cpu c).refs + 0
      simp only [Cpu.refs, hphase, CpuPhase.refs, hactive]
      abel
    rw [add_zero, hmove] at hq
    exact add_right_cancel hq
  · refine h.task_update (Task.ok_of_alive ?_ ?_ ?_)
    · have hroots := length_roots active
      have husers := length_users old
      rw [List.length_append]
      omega
    · rw [hrun]
      exact nofun
    · rw [hrun]
      exact nofun
  · exact h.cpu_update ⟨hload, fun hne => absurd (hprev nofun) hne, nofun⟩

theorem Inv.swapStep (h : Inv s) (hstep : swapStep s c = some s') : Inv s' := by
  unfold MmStruct.swapStep at hstep
  cases hphase : (s.cpu c).phase with
  | swapLoad m old active =>
    rw [hphase] at hstep
    cases hstep
    obtain ⟨⟨-, hactive⟩, hprev⟩ := h.at_phase hphase
    refine h.moveCpu ⟨⟨rfl, hactive⟩, fun hne => absurd (hprev nofun) hne, nofun⟩ ?_
    simp only [Cpu.refs, hphase, CpuPhase.refs]
  | swapSet m old active =>
    rw [hphase] at hstep
    obtain ⟨t, hi, ht⟩ := Option.bind_eq_some_iff.mp hstep
    split at ht
    next htodo hrun =>
      cases ht
      exact h.swapSet hphase hi htodo hrun
    · exact nomatch ht
  | _ =>
    rw [hphase] at hstep
    exact nomatch hstep

/-- The next task is chosen, and its address space is not the one that is active. -/
theorem Inv.grabNext (h : Inv s) (hbound : T + C < 2 ^ 28) (hphase : (s.cpu c).phase = .run)
    (hnext : s.task next = some t) :
    Inv ((grabSome s t.mm).setCpu c { s.cpu c with phase := .load next t.mm }) := by
  obtain ⟨hloaded, hprev⟩ := h.at_phase hphase
  have hq : Cpu.Ok { s.cpu c with phase := .load next t.mm } :=
    ⟨hloaded, fun hne => absurd (hprev nofun) hne, nofun⟩
  cases hmm : t.mm with
  | none =>
    rw [hmm] at hq
    refine h.moveCpu hq ?_
    simp [Cpu.refs, hphase, CpuPhase.refs]
  | some m =>
    rw [hmm] at hq
    refine ⟨h.ok, ?_, h.task, h.cpu_update hq⟩
    have hmem : Ref.user m ∈ s.refs := by
      apply mem_refs_of_task hnext
      simp [Task.refs, hmm]
    have hcard := h.card_refs
    refine pool_grab h.pool hmem (by simp only [refcountMax]; omega) rfl rfl ?_
    apply gain_of_cpu (s := mmGrab s m)
    change _ = (s.cpu c).refs + _
    simp only [Cpu.refs, hphase, CpuPhase.refs, roots_some, Multiset.coe_singleton]
    abel

theorem Inv.prepareStep (h : Inv s) (hbound : T + C < 2 ^ 28)
    (hstep : prepareStep s c next = some s') : Inv s' := by
  unfold MmStruct.prepareStep at hstep
  split at hstep
  next t hphase hnext =>
    by_cases hother : next = (s.cpu c).curr ∨ t.cpu ≠ c
    · rw [if_pos hother] at hstep
      exact nomatch hstep
    rw [if_neg hother] at hstep
    split at hstep
    · exact nomatch hstep
    · split_ifs at hstep with hsame
      · cases hstep
        refine h.moveCpu ⟨(h.at_phase hphase).1, fun _ => rfl, nofun⟩ ?_
        simp only [Cpu.refs, hphase, CpuPhase.refs]
      · cases hstep
        exact h.grabNext hbound hphase hnext
  · exact nomatch hstep

/-- The next task drops the reference to the old address space. -/
theorem Inv.finish (h : Inv s) (hphase : (s.cpu c).phase = .finish (r :: rest)) :
    Inv ((release s r).1.setCpu c { s.cpu c with phase := .finish ((release s r).2 ++ rest) }) := by
  obtain ⟨hloaded, hprev⟩ := h.at_phase hphase
  have hlen := (h.cpu c).todo _ hphase
  have hmem : r ∈ s.refs := by
    apply mem_refs_of_cpu (c := c)
    simp [Cpu.refs, hphase, CpuPhase.refs]
  refine ⟨failed_release h.pool hmem h.ok, ?_, ?_, ?_⟩
  · refine pool_release h.pool hmem rfl (release_next s r) ?_
    rw [← release_refs s r]
    apply refs_of_cpu
    rw [release_cpu]
    simp only [Cpu.refs, hphase, CpuPhase.refs, ← Multiset.coe_add, ← Multiset.cons_coe,
      ← Multiset.singleton_add]
    abel
  · change ∀ i t, (release s r).1.task i = some t → t.Ok
    rw [release_task]
    exact h.task
  · have hq : Cpu.Ok { s.cpu c with phase := .finish ((release s r).2 ++ rest) } := by
      refine ⟨hloaded, fun hne => absurd (hprev nofun) hne, fun todo htodo => ?_⟩
      obtain rfl := CpuPhase.finish.inj htodo
      have hmore := length_release s r
      rw [List.length_cons] at hlen
      rw [List.length_append]
      omega
    intro d
    change (update (release s r).1.cpu c _ d).Ok
    rw [release_cpu]
    exact h.cpu_update hq d

theorem Inv.switchStep (h : Inv s) (hstep : switchStep s c = some s') : Inv s' := by
  unfold MmStruct.switchStep at hstep
  cases hphase : (s.cpu c).phase with
  | load next mm =>
    rw [hphase] at hstep
    cases hstep
    refine h.moveCpu ⟨rfl, fun hne => absurd ((h.at_phase hphase).2 nofun) hne, nofun⟩ ?_
    simp only [Cpu.refs, hphase, CpuPhase.refs]
  | set next mm =>
    rw [hphase] at hstep
    cases hstep
    obtain ⟨hloaded, hprev⟩ := h.at_phase hphase
    refine h.moveCpu ⟨hloaded, fun _ => rfl, nofun⟩ ?_
    simp only [Cpu.refs, hphase, CpuPhase.refs, hprev nofun, roots_none, Multiset.coe_nil]
    abel
  | switched =>
    rw [hphase] at hstep
    cases hstep
    refine h.moveCpu ⟨(h.at_phase hphase).1, fun hne => absurd rfl hne, fun todo htodo => ?_⟩ ?_
    · obtain rfl := CpuPhase.finish.inj htodo
      exact length_roots _
    · simp only [Cpu.refs, hphase, CpuPhase.refs, roots_none, Multiset.coe_nil]
      abel
  | finish todo =>
    rw [hphase] at hstep
    cases todo with
    | nil =>
      cases hstep
      obtain ⟨hloaded, hprev⟩ := h.at_phase hphase
      refine h.moveCpu ⟨hloaded, fun hne => absurd (hprev nofun) hne, nofun⟩ ?_
      simp only [Cpu.refs, hphase, CpuPhase.refs, Multiset.coe_nil]
    | cons r rest =>
      cases hstep
      exact h.finish hphase
  | _ =>
    rw [hphase] at hstep
    exact nomatch hstep

end Cpu

/-! ### Whole runs -/

section Run

variable {s s' : State C T}

/-- A dead task has no reference left. -/
theorem Inv.reap (h : Inv s) (hi : s.task i = some t) (hdead : t.phase = .dead) :
    Inv (s.setTask i none) := by
  have hok := h.task i t hi
  refine ⟨h.ok, ?_, ?_, h.cpu⟩
  · refine pool_move h.pool rfl rfl ?_
    have hsum := refs_setTask s i none
    have hrefs : taskRefs (s.task i) = 0 := by
      rw [hi]
      change (users t.mm + t.phase.refs + t.todo : Multiset (Ref ℕ)) = 0
      rw [hok.exit (.inr hdead), hok.dead hdead, hdead]
      rfl
    rw [hrefs, add_zero] at hsum
    exact hsum.trans (add_zero _)
  · apply (forall_update_iff s.task fun _ t => ∀ u, t = some u → u.Ok).mpr
    exact ⟨nofun, fun j _ => h.task j⟩

theorem Inv.step (h : Inv s) (hbound : T + C < 2 ^ 28) {a : Action C T}
    (hstep : step s a = some s') : Inv s' := by
  cases a with
  | task c op =>
    simp only [MmStruct.step] at hstep
    split at hstep
    next t hphase hi =>
      exact h.taskStep hbound hi hphase hstep
    · exact nomatch hstep
  | swap c => exact h.swapStep hstep
  | prepare c next => exact h.prepareStep hbound hstep
  | switch c => exact h.switchStep hstep
  | reap i =>
    simp only [MmStruct.step] at hstep
    split at hstep
    next t hi =>
      split at hstep
      next hdead =>
        split_ifs at hstep
        cases hstep
        exact h.reap hi hdead
      · exact nomatch hstep
    · exact nomatch hstep

theorem inv_boot (idle : Fin C → Fin T) : Inv (boot idle) := by
  have htask : ∀ i t, (boot idle).task i = some t → t.refs = 0 ∧ t.Ok := by
    intro i t hi
    obtain ⟨c, -, rfl⟩ := Option.map_eq_some_iff.mp hi
    exact ⟨rfl, Task.ok_of_alive (Nat.zero_le 2) nofun nofun⟩
  have hrefs : (boot idle).refs = 0 := by
    unfold State.refs
    have htasks : ∀ i, taskRefs ((boot idle).task i) = 0 := by
      intro i
      cases hi : (boot idle).task i with
      | none => rfl
      | some t => exact (htask i t hi).1
    rw [Finset.sum_eq_zero fun i _ => htasks i]
    exact (zero_add _).trans (Finset.sum_eq_zero fun c _ => rfl)
  refine ⟨rfl, fun m => ?_, fun i t hi => (htask i t hi).2, fun c => ⟨rfl, nofun, nofun⟩⟩
  change Tally ⟨decide (m < 0), 0, 0, 0⟩ ((boot idle).refs.count _) ((boot idle).refs.count _)
    ((boot idle).refs.count _) ((boot idle).refs.count _)
  rw [hrefs]
  simp only [Multiset.count_zero]
  exact ⟨rfl, rfl, rfl, fun _ => rfl⟩

/-- The references of the operations in progress. -/
def State.held (s : State C T) : Multiset (Ref ℕ) :=
  ∑ i, (s.task i).elim 0 (fun t => t.phase.refs + t.todo) + ∑ c, (s.cpu c).phase.refs

/-- The counts of one `mm_struct`, in terms of the fields and the operations that refer to
it, and when its page table is freed. -/
structure LifetimeOk (s : State C T) (m : ℕ) : Prop where
  urefs : (s.mm m).urefs =
    (Finset.univ.filter fun i => (s.task i).bind Task.mm = some m).card +
      s.held.count (.user m)
  refs : (s.mm m).refs = (if 0 < (s.mm m).urefs then 1 else 0) +
    (Finset.univ.filter fun c => (s.cpu c).active = some m).card +
    (Finset.univ.filter fun c => (s.cpu c).prev = some m).card +
      (s.held.count (.root m) + s.held.count (.last m))
  frees_le_one : (s.mm m).frees ≤ 1
  /-- A page table that is freed, or about to be, is neither used nor loaded. -/
  unused : 0 < (s.mm m).frees + s.held.count (.free m) →
    (∀ i, (s.task i).bind Task.mm ≠ some m) ∧ ∀ c, (s.cpu c).loaded ≠ some m
  /-- Without a reference to it, it has been freed. -/
  freed : m < s.next → (s.mm m).refs = 0 → s.held.count (.free m) = 0 → (s.mm m).frees = 1

theorem count_users (mm : Option ℕ) (m : ℕ) :
    (users mm : Multiset (Ref ℕ)).count (.user m) = if mm = some m then 1 else 0 := by
  cases mm with
  | none => simp
  | some k => simp [Multiset.count_singleton, eq_comm]

theorem count_roots (mm : Option ℕ) (m : ℕ) :
    (roots mm : Multiset (Ref ℕ)).count (.root m) = if mm = some m then 1 else 0 := by
  cases mm with
  | none => simp
  | some k => simp [Multiset.count_singleton, eq_comm]

theorem count_users_of_ne (hr : ∀ m, r ≠ .user m) (mm : Option ℕ) :
    (users mm : Multiset (Ref ℕ)).count r = 0 := by
  cases mm <;> simp [hr]

theorem count_roots_of_ne (hr : ∀ m, r ≠ .root m) (mm : Option ℕ) :
    (roots mm : Multiset (Ref ℕ)).count r = 0 := by
  cases mm <;> simp [hr]

/-- The tokens are those of the fields and those of the operations. -/
theorem count_refs (s : State C T) (r : Ref ℕ) :
    s.refs.count r = ∑ i, (users ((s.task i).bind Task.mm) : Multiset (Ref ℕ)).count r +
      ∑ c, ((roots (s.cpu c).active : Multiset (Ref ℕ)).count r +
        (roots (s.cpu c).prev : Multiset (Ref ℕ)).count r) + s.held.count r := by
  have htask : ∀ i, taskRefs (s.task i) = (users ((s.task i).bind Task.mm) : Multiset (Ref ℕ)) +
      (s.task i).elim 0 (fun t => t.phase.refs + t.todo) := by
    intro i
    cases s.task i with
    | none => rfl
    | some t => exact add_assoc _ _ _
  unfold State.refs State.held Cpu.refs
  rw [Finset.sum_congr rfl fun i _ => htask i]
  simp only [Multiset.count_add, Multiset.count_sum', Finset.sum_add_distrib]
  omega

theorem count_user (s : State C T) (m : ℕ) : s.refs.count (.user m) =
      (Finset.univ.filter fun i => (s.task i).bind Task.mm = some m).card +
        s.held.count (.user m) := by
  have hroots := count_roots_of_ne (r := .user m) nofun
  simp only [count_refs, count_users, hroots, Finset.card_filter, Finset.sum_const_zero, add_zero]

theorem count_root (s : State C T) (m : ℕ) : s.refs.count (.root m) =
      (Finset.univ.filter fun c => (s.cpu c).active = some m).card +
        (Finset.univ.filter fun c => (s.cpu c).prev = some m).card + s.held.count (.root m) := by
  have husers := count_users_of_ne (r := .root m) nofun
  simp only [count_refs, husers, count_roots, Finset.card_filter, Finset.sum_const_zero, zero_add,
    Finset.sum_add_distrib]

/-- The fields hold neither the common reference of the users nor the duty to free. -/
theorem count_held (s : State C T) (m : ℕ) : s.refs.count (.last m) = s.held.count (.last m) ∧
      s.refs.count (.free m) = s.held.count (.free m) := by
  have hcount : ∀ r : Ref ℕ, (∀ k, r ≠ .user k) → (∀ k, r ≠ .root k) →
      s.refs.count r = s.held.count r := by
    intro r huser hroot
    simp only [count_refs, count_users_of_ne huser, count_roots_of_ne hroot,
      Finset.sum_const_zero, zero_add]
  exact ⟨hcount _ nofun nofun, hcount _ nofun nofun⟩

/-- A CPU refers to the address space it has loaded. -/
theorem Inv.mem_of_loaded (h : Inv s) (hm : (s.cpu c).loaded = some m) : Ref.root m ∈ s.refs := by
  apply mem_refs_of_cpu (c := c)
  have hloaded := (h.cpu c).loaded
  unfold Cpu.LoadedOk at hloaded
  have hactive : (s.cpu c).active = some m → Ref.root m ∈ (s.cpu c).refs := by
    intro heq
    simp [Cpu.refs, heq]
  cases hphase : (s.cpu c).phase with
  | swapLoad k old active =>
    rw [hphase] at hloaded
    exact hactive (hloaded.1.symm.trans hm)
  | swapSet k old active =>
    rw [hphase] at hloaded
    have heq := Option.some.inj (hloaded.1.symm.trans hm)
    simp [Cpu.refs, hphase, CpuPhase.refs, heq]
  | set next mm =>
    rw [hphase] at hloaded
    have heq : mm = some m := hloaded.symm.trans hm
    simp [Cpu.refs, hphase, CpuPhase.refs, heq]
  | _ =>
    rw [hphase] at hloaded
    exact hactive (hloaded.symm.trans hm)

theorem Inv.lifetimeOk (h : Inv s) (m : ℕ) : LifetimeOk s m := by
  have htally := h.pool m
  obtain ⟨hlast, hfree⟩ := count_held s m
  have hurefs : (s.mm m).urefs = s.refs.count (.user m) := htally.urefs
  constructor
  · rw [hurefs, count_user]
  · have hrefs : (s.mm m).refs = (if s.refs.count (.user m) = 0 then 0 else 1) +
        s.refs.count (.root m) + s.refs.count (.last m) := htally.refs
    rw [hrefs, ← hurefs, count_root, hlast]
    split_ifs <;> omega
  · exact htally.frees_le_one
  · intro hpos
    rw [← hfree] at hpos
    obtain ⟨huser, hroot, -⟩ := htally.unused hpos
    constructor
    · intro i hi
      have hmem : i ∈ Finset.univ.filter fun i => (s.task i).bind Task.mm = some m := by
        simpa using hi
      have hcard := Finset.card_pos.mpr ⟨i, hmem⟩
      have hcount : s.refs.count (.user m) = 0 := huser
      rw [count_user] at hcount
      omega
    · intro c hc
      have hcount : 0 < s.refs.count (.root m) := Multiset.count_pos.mpr (h.mem_of_loaded hc)
      have hzero : s.refs.count (.root m) = 0 := hroot
      omega
  · intro hborn hzero hnone
    have hfrees : (s.mm m).frees + s.refs.count (.free m) =
        if decide (m < s.next) = true ∧ (s.mm m).refs = 0 then 1 else 0 := htally.frees
    rwa [if_pos ⟨decide_eq_true hborn, hzero⟩, hfree, hnone] at hfrees

/-- In every reachable state the counts of every `mm_struct` are right, its page table was freed
at most once and only without a user and a CPU that has it loaded, and no assertion has
failed. -/
theorem lifetimeOk_of_reachable (hbound : T + C < 2 ^ 28) {idle : Fin C → Fin T}
    (h : Reachable (· = boot idle) (Graph step) s) : s.failed = false ∧ ∀ m, LifetimeOk s m := by
  have hinv : Inv s := by
    apply h.invariant
    · rintro s rfl
      exact inv_boot idle
    · exact fun s a t hs hstep => hs.step hbound hstep
  exact ⟨hinv.ok, hinv.lifetimeOk⟩

/-- The first user task is created and scheduled, and its `execve` has just left the section of
`switch_mm`. -/
def execRun : List (Action 1 2) :=
  [.task 0 .taskAlloc, .task 0 .taskAllocDone, .task 0 .mmClone, .task 0 (.publish 1 0),
    .prepare 0 1, .switch 0, .switch 0, .switch 0, .switch 0, .task 0 .execve, .task 0 .switchMm,
    .swap 0, .swap 0]

/-- The CPU no longer has the old address space in a field, but its reference is still
there. -/
theorem switchMm_holds_active : ∃ s : State 1 2, Reachable (· = boot fun _ => 0) (Graph step) s ∧
    (s.mm 0).refs ≠ (if 0 < (s.mm 0).urefs then 1 else 0) +
      (Finset.univ.filter fun c => (s.cpu c).active = some 0 ∨ (s.cpu c).prev = some 0).card := by
  have hrun : ((exec step (boot fun _ => 0) execRun).map fun s : State 1 2 =>
      (s.mm 0, (s.cpu 0).active, (s.cpu 0).prev)) = some (⟨1, 2, 0⟩, some 1, none) := by
    decide +kernel
  obtain ⟨s, hs, heq⟩ := Option.map_eq_some_iff.mp hrun
  obtain ⟨hmm, hfields⟩ := Prod.mk.inj heq
  obtain ⟨hactive, hprev⟩ := Prod.mk.inj hfields
  refine ⟨s, Reachable.exec (.init rfl) hs, ?_⟩
  have hnone : (Finset.univ.filter fun c =>
      (s.cpu c).active = some 0 ∨ (s.cpu c).prev = some 0) = ∅ := by
    apply Finset.filter_eq_empty_iff.mpr
    intro c _
    rw [Subsingleton.elim c 0, hactive, hprev]
    simp
  rw [hnone, hmm]
  decide

/-- After the two cleanups of `switch_mm` the old page table is freed. -/
theorem lifetimeOk_execRun : ∃ s : State 1 2,
      exec step (boot fun _ => 0) (execRun ++ List.replicate 4 (.task 0 .todo)) = some s ∧
      s.mm 0 = ⟨0, 0, 1⟩ ∧ s.failed = false ∧ ∀ m, LifetimeOk s m := by
  have hrun : ((exec step (boot fun _ => 0) (execRun ++ List.replicate 4 (.task 0 .todo))).map
      fun s : State 1 2 => s.mm 0) = some ⟨0, 0, 1⟩ := by decide +kernel
  obtain ⟨s, hs, hmm⟩ := Option.map_eq_some_iff.mp hrun
  have hreach : Reachable (· = boot fun _ => 0) (Graph step) s := Reachable.exec (.init rfl) hs
  exact ⟨s, hs, hmm, lifetimeOk_of_reachable (by decide) hreach⟩

end Run

end Nuvix.MmStruct
