import Nuvix.Fs.PipeStep

/-!
# What a pipe promises

The bytes that reads deliver are a prefix of those that writes append, and a write that
fits into the ring is not torn. A write tells its caller how many bytes it has appended,
with one exception: if it has appended some, has waited for room and is interrupted while
it waits for the mutex, it returns `-EINTR` as if it had done nothing.
-/

namespace Nuvix.Pipe

open Transition RingBuffer Function

variable {N : ℕ} {s s' : State N} {i : Fin N} {buffer : ℕ → UInt8} {w : WriteCall} {pc : WritePc}
  {ret : Except Errno ℕ} {k : ℕ} {v : WriteCall}

/-- In every state the counters are at most a buffer apart, what was delivered is a
prefix of what was written, a write has appended the first bytes of its caller's buffer, the
bytes of a write that fits are next to each other, and a read has returned zero only if the
pipe is empty and its writing end is closed. -/
theorem stream_of_reachable (h : Reachable (· = boot N buffer) (Graph step) s) :
    s.pipe.used ≤ bufSize ∧ s.log.delivered <+: s.log.written.map Prod.snd ∧
    (∀ c, bytesOf c s.log.written <+: s.log.source c) ∧
    (∀ c, s.log.size c ≤ bufSize → Contiguous c s.log.written) ∧
    ∀ i, s.task i = .readDone (.ok 0) → s.pipe.head = s.pipe.tail ∧ s.pipe.writers = 0 := by
  have hinv := inv_of_reachable h
  refine ⟨hinv.ring.used_le, ?_, fun c => (hinv.stream c).1, fun c => (hinv.stream c).2, ?_⟩
  · obtain ⟨popped, -, -, hdelivered⟩ := hinv.ring
    rw [hdelivered]
    exact List.take_prefix _ _
  · intro i hi
    have hphase := hinv.phase i
    rw [hi] at hphase
    exact hphase rfl

/-! ### Accounting -/

/-- A result `n` says that the first `n` bytes of the buffer were appended, an error that
none was. -/
def Accounted (s : State N) (w : WriteCall) : Except Errno ℕ → Prop
  | .ok n => n ≤ w.buf.length ∧ bytesOf w.id s.log.written = (w.buf.map w.data).take n
  | .error _ => bytesOf w.id s.log.written = []

/-- The call is at the second lock of the mutex and has appended something. -/
def RelocksAfterAppend (s : State N) (i : Fin N) : Prop :=
  ∃ w, s.task i = .write w .relock ∧ w.done ≠ 0

theorem WriteCall.Ok.accounted (h : w.Ok s.log.written k) : Accounted s w (.ok w.done) :=
  ⟨by have := h.done; omega, h.appended⟩

theorem WriteCall.Ok.accounted_error_iff (h : w.Ok s.log.written k) (e : Errno) :
    Accounted s w (.error e) ↔ w.done = 0 := by
  have hdone := h.done
  change bytesOf w.id s.log.written = [] ↔ _
  rw [h.appended, ← List.length_eq_zero_iff, List.length_take, List.length_map]
  omega

theorem WriteCall.Ok.accounted_doneOr (h : w.Ok s.log.written k) (e : Errno) :
    Accounted s w (doneOr w.done (.error e)) := by
  unfold doneOr
  split_ifs with hdone
  · exact h.accounted
  · exact (h.accounted_error_iff e).mpr (not_not.mp hdone)

theorem not_relocks (htask : s.task i = .write w pc) (hpc : pc ≠ .relock) :
    ¬ RelocksAfterAppend s i := by
  rintro ⟨v, hv, -⟩
  rw [htask] at hv
  exact hpc (Phase.write.inj hv).2

/-- The steps of a call that return. -/
theorem accounted_writeStep {miss : ℕ → ℕ → ℕ} (h : Inv s) (htask : s.task i = .write w pc)
    (hs : writeStep s i miss w pc = some s') (hret : s'.task i = .writeDone v ret) :
    Accounted s' v ret ↔ ¬ RelocksAfterAppend s i := by
  have hphase := h.phase i
  rw [htask] at hphase
  obtain ⟨hw, -⟩ := hphase
  -- A step that goes on with the call, or sleeps, has not returned.
  have hgo : ∀ (t : State N) ph, t.task i = ph → t = s' → (∀ v ret, ph ≠ .writeDone v ret) →
      False := by
    rintro t ph rfl rfl hne
    exact hne v ret hret
  have hacquire : s.acquire i (.write w .test) = some s' → False := by
    intro hs
    simp only [State.acquire, Option.ite_none_right_eq_some, Option.some_inj] at hs
    exact hgo _ (.write w .test) (update_self ..) hs.2 (by simp)
  have hdone : ∀ r, s.unlock i (.writeDone w r) = s' → Accounted s w r → pc ≠ .relock →
      (Accounted s' v ret ↔ ¬ RelocksAfterAppend s i) := by
    rintro r rfl hacc hpc
    have heq : Phase.writeDone w r = .writeDone v ret :=
      (update_self i _ s.task).symm.trans hret
    obtain ⟨rfl, rfl⟩ := Phase.writeDone.inj heq
    exact ⟨fun _ => not_relocks htask hpc, fun _ => hacc⟩
  cases pc with
  | lock | relock => exact (hacquire hs).elim
  | test =>
    simp only [writeStep] at hs
    split_ifs at hs <;>
      exact (hgo _ _ (update_self ..) (Option.some.inj hs) (by simp)).elim
  | unlockWait | copy offset count | commit count copied =>
    exact (hgo _ _ (update_self ..) (Option.some.inj hs) (by simp)).elim
  | wait =>
    simp only [writeStep, Option.ite_none_right_eq_some, Option.some_inj] at hs
    exact (hgo _ _ (update_self ..) hs.2 (by simp)).elim
  | unlockPipe | unlockAgain | unlockFault =>
    exact hdone _ (Option.some.inj hs) (hw.accounted_doneOr _) (by simp)
  | unlock => exact hdone _ (Option.some.inj hs) hw.accounted (by simp)

/-- Interrupted calls return. Only at the second lock the bytes appended are forgotten. -/
theorem accounted_writeInterrupt (h : Inv s) (htask : s.task i = .write w pc)
    (hs : writeInterrupt s i w pc = some s') (hret : s'.task i = .writeDone v ret) :
    Accounted s' v ret ↔ ¬ RelocksAfterAppend s i := by
  have hphase := h.phase i
  rw [htask] at hphase
  obtain ⟨hw, hpc⟩ := hphase
  have hdone : ∀ r, s.setTask i (.writeDone w r) = s' →
      (Accounted s w r ↔ ¬ RelocksAfterAppend s i) →
      (Accounted s' v ret ↔ ¬ RelocksAfterAppend s i) := by
    rintro r rfl hacc
    have heq : Phase.writeDone w r = .writeDone v ret :=
      (update_self i _ s.task).symm.trans hret
    obtain ⟨rfl, rfl⟩ := Phase.writeDone.inj heq
    exact hacc
  cases pc with
  | lock =>
    simp only [writeInterrupt, State.interruptLock, Option.ite_none_left_eq_some,
      Option.some_inj] at hs
    apply hdone _ hs.2
    exact ⟨fun _ => not_relocks htask (by simp), fun _ => (hw.accounted_error_iff _).mpr hpc⟩
  | wait =>
    simp only [writeInterrupt, Option.ite_none_left_eq_some, Option.some_inj] at hs
    apply hdone _ hs.2
    exact ⟨fun _ => not_relocks htask (by simp), fun _ => hw.accounted_doneOr _⟩
  | relock =>
    simp only [writeInterrupt, State.interruptLock, Option.ite_none_left_eq_some,
      Option.some_inj] at hs
    apply hdone _ hs.2
    rw [hw.accounted_error_iff]
    constructor
    · rintro h0 ⟨u, hu, hne⟩
      rw [htask] at hu
      obtain ⟨rfl, -⟩ := Phase.write.inj hu
      exact hne h0
    · intro hnot
      by_contra hne
      exact hnot ⟨w, htask, hne⟩
  | _ => cases hs

/-! ### A step changes the phase of its task alone -/

section Local

variable {miss : ℕ → ℕ → ℕ} {r : ReadCall} {w : WriteCall} {ph : Phase}

theorem task_of_acquire (hs : s.acquire i ph = some s') : s'.task = update s.task i ph := by
  simp only [State.acquire, Option.ite_none_right_eq_some, Option.some_inj] at hs
  rw [← hs.2]
  rfl

theorem task_of_interruptLock (hs : s.interruptLock i ph = some s') :
    s'.task = update s.task i ph := by
  simp only [State.interruptLock, Option.ite_none_left_eq_some, Option.some_inj] at hs
  rw [← hs.2]
  rfl

theorem readStep_task {pc : ReadPc} (hs : readStep s i miss r pc = some s') :
    ∃ ph, s'.task = update s.task i ph ∧ ∀ v e, ph ≠ .writeDone v e := by
  cases pc with
  | lock | relock => exact ⟨_, task_of_acquire hs, by simp⟩
  | check | copy =>
    simp only [readStep] at hs
    split_ifs at hs <;> exact ⟨_, congrArg State.task (Option.some.inj hs).symm, by simp⟩
  | wait =>
    simp only [readStep, Option.ite_none_right_eq_some, Option.some_inj] at hs
    exact ⟨_, congrArg State.task hs.2.symm, by simp⟩
  | _ => exact ⟨_, congrArg State.task (Option.some.inj hs).symm, by simp⟩

theorem readInterrupt_task {pc : ReadPc} (hs : readInterrupt s i pc = some s') :
    ∃ ph, s'.task = update s.task i ph ∧ ∀ v e, ph ≠ .writeDone v e := by
  cases pc with
  | lock | relock => exact ⟨_, task_of_interruptLock hs, by simp⟩
  | wait =>
    simp only [readInterrupt, Option.ite_none_left_eq_some, Option.some_inj] at hs
    exact ⟨_, congrArg State.task hs.2.symm, by simp⟩
  | _ => cases hs

theorem writeStep_task (hs : writeStep s i miss w pc = some s') :
    ∃ ph, s'.task = update s.task i ph := by
  cases pc with
  | lock => exact ⟨_, task_of_acquire hs⟩
  | relock => exact ⟨_, task_of_acquire hs⟩
  | test =>
    simp only [writeStep] at hs
    split_ifs at hs <;> exact ⟨_, congrArg State.task (Option.some.inj hs).symm⟩
  | wait =>
    simp only [writeStep, Option.ite_none_right_eq_some, Option.some_inj] at hs
    exact ⟨_, congrArg State.task hs.2.symm⟩
  | _ => exact ⟨_, congrArg State.task (Option.some.inj hs).symm⟩

theorem writeInterrupt_task (hs : writeInterrupt s i w pc = some s') :
    ∃ ph, s'.task = update s.task i ph := by
  cases pc with
  | lock | relock => exact ⟨_, task_of_interruptLock hs⟩
  | wait =>
    simp only [writeInterrupt, Option.ite_none_left_eq_some, Option.some_inj] at hs
    exact ⟨_, congrArg State.task hs.2.symm⟩
  | _ => cases hs

end Local

/-- A call on the wrong file returns at once. -/
theorem accounted_begin {file : End} {nonblock : Bool} {data : ℕ → UInt8} {vec : List Iovec}
    (h : Inv s) (heq : beginWrite s.log.calls file nonblock data vec = .writeDone w ret)
    (hlog : s'.log.written = s.log.written) : Accounted s' w ret := by
  simp only [beginWrite] at heq
  split_ifs at heq
  obtain ⟨rfl, rfl⟩ := Phase.writeDone.inj heq
  change bytesOf _ s'.log.written = []
  rw [hlog]
  exact bytesOf_eq_nil fun e he => (h.fresh e he).ne

/-- **Write accounting.** Whatever the interleaving, the result with which a call of
`pipe_write` returns tells what it has appended, if and only if it does not return from
the second lock of the mutex after it has appended something. -/
theorem accounted_iff_not_relock {a : Action N} {w : WriteCall} {ret : Except Errno ℕ}
    (h : Reachable (· = boot N buffer) (Graph step) s) (hs : step s a = some s')
    (hret : s'.task i = .writeDone w ret) (hnew : ∀ v r, s.task i ≠ .writeDone v r) :
    Accounted s' w ret ↔ ¬ RelocksAfterAppend s i := by
  have hinv := inv_of_reachable h
  -- The step is one of task `i`: another one leaves the phase of `i` alone.
  have hother : ∀ j ph, (update s.task j ph) i = .writeDone w ret → j = i ∧
      ph = .writeDone w ret := by
    intro j ph heq
    rcases eq_of_update heq with ⟨hj, hph⟩ | ⟨-, hold⟩
    · exact ⟨hj.symm, hph⟩
    · exact absurd hold (hnew w ret)
  have hidle : s.task i = .idle → ¬ RelocksAfterAppend s i := by
    rintro hi ⟨v, hv, -⟩
    rw [hi] at hv
    cases hv
  cases a with
  | read j file nonblock vec =>
    cases htask : s.task j with
    | idle =>
      simp only [step, htask, Option.ite_none_right_eq_some, Option.some_inj] at hs
      obtain ⟨-, rfl⟩ := hs
      obtain ⟨-, heq⟩ := hother j _ hret
      simp only [beginRead] at heq
      split_ifs at heq
    | _ => simp [step, htask] at hs
  | write j file nonblock data vec =>
    cases htask : s.task j with
    | idle =>
      simp only [step, htask, Option.ite_none_right_eq_some, Option.some_inj] at hs
      obtain ⟨-, rfl⟩ := hs
      obtain ⟨rfl, heq⟩ := hother j _ hret
      exact ⟨fun _ => hidle htask, fun _ => accounted_begin hinv heq rfl⟩
    | _ => simp [step, htask] at hs
  | run j miss =>
    cases htask : s.task j with
    | read r pc =>
      simp only [step, htask] at hs
      obtain ⟨ph, htasks, hne⟩ := readStep_task hs
      exact absurd (hother j ph (htasks ▸ hret)).2 (hne w ret)
    | write v pc =>
      simp only [step, htask] at hs
      obtain ⟨ph, htasks⟩ := writeStep_task hs
      obtain ⟨rfl, -⟩ := hother j ph (htasks ▸ hret)
      exact accounted_writeStep hinv htask hs hret
    | _ => simp [step, htask] at hs
  | interrupt j =>
    cases htask : s.task j with
    | read r pc =>
      simp only [step, htask] at hs
      obtain ⟨ph, htasks, hne⟩ := readInterrupt_task hs
      exact absurd (hother j ph (htasks ▸ hret)).2 (hne w ret)
    | write v pc =>
      simp only [step, htask] at hs
      obtain ⟨ph, htasks⟩ := writeInterrupt_task hs
      obtain ⟨rfl, -⟩ := hother j ph (htasks ▸ hret)
      exact accounted_writeInterrupt hinv htask hs hret
    | _ => simp [step, htask] at hs
  | leave j =>
    cases htask : s.task j with
    | readDone r | writeDone v r =>
      simp only [step, htask] at hs
      cases hs
      cases (hother j _ hret).2
    | _ => simp [step, htask] at hs
  | release file =>
    obtain ⟨-, rfl⟩ := ite_eq_some.mp hs
    exact absurd hret (hnew w ret)

/-! ### Runs -/

/-- A task writes two buffers in one call, and waits when the first is in. A reader takes
one byte and still holds the mutex when the writer wants it back. -/
def fullRun : List (Action 2) :=
  .write 0 .writer false (fun _ => 7) [⟨0, 8192⟩] :: List.replicate 6 (.run 0 fun _ _ => 0) ++
    .read 1 .reader false [⟨0, 1⟩] :: List.replicate 4 (.run 1 fun _ _ => 0) ++
    [.run 0 fun _ _ => 0]

/-- How much a call at the second lock of the mutex has appended. -/
def Phase.relocked : Phase → Option ℕ
  | .write w .relock => some w.done
  | _ => none

theorem fullRun_relocks : ∃ s : State 2, Reachable (· = boot 2 fun _ => 0) (Graph step) s ∧
    s.owner = some 1 ∧ ∃ w, s.task 0 = .write w .relock ∧ w.done = 4096 := by
  have hrun : ((exec step (boot 2 fun _ => 0) fullRun).map fun s =>
      (s.owner, (s.task 0).relocked)) = some (some 1, some 4096) := by decide +kernel
  obtain ⟨s, hs, heq⟩ := Option.map_eq_some_iff.mp hrun
  obtain ⟨howner, hdone⟩ := Prod.mk.inj heq
  refine ⟨s, Reachable.exec (.init rfl) hs, howner, ?_⟩
  unfold Phase.relocked at hdone
  split at hdone
  · exact ⟨_, by assumption, Option.some.inj hdone⟩
  · cases hdone

/-- A signal at that point makes the call return `-EINTR`, with a full buffer appended. -/
theorem interrupted_write_loses_count : ∃ (s s' : State 2) (w : WriteCall),
    Reachable (· = boot 2 fun _ => 0) (Graph step) s ∧ step s (.interrupt 0) = some s' ∧
    s'.task 0 = .writeDone w (.error .eintr) ∧ (bytesOf w.id s'.log.written).length = 4096 := by
  obtain ⟨s, hs, howner, w, htask, hdone⟩ := fullRun_relocks
  have hphase := (inv_of_reachable hs).phase 0
  rw [htask] at hphase
  have hw := hphase.1
  refine ⟨s, s.setTask 0 (.writeDone w (.error .eintr)), w, hs, ?_, rfl, ?_⟩
  · simp [step, htask, writeInterrupt, State.interruptLock, howner]
  · have hle := hw.done
    change (bytesOf w.id s.log.written).length = 4096
    rw [hw.appended, List.length_take, List.length_map]
    omega

/-- A task writes three bytes that another task reads. -/
def shortRun : List (Action 2) :=
  .write 0 .writer false (fun a => if a = 0 then 7 else 8) [⟨0, 1⟩, ⟨16, 2⟩] ::
    List.replicate 6 (.run 0 fun _ _ => 0) ++
    .read 1 .reader false [⟨0, 8⟩] :: List.replicate 5 (.run 1 fun _ _ => 0)

theorem stream_of_shortRun : ∃ s : State 2, exec step (boot 2 fun _ => 0) shortRun = some s ∧
      s.log.delivered = [7, 8, 8] ∧ s.pipe.used ≤ bufSize ∧
      s.log.delivered <+: s.log.written.map Prod.snd ∧
      (∀ c, bytesOf c s.log.written <+: s.log.source c) ∧
      (∀ c, s.log.size c ≤ bufSize → Contiguous c s.log.written) ∧
      ∀ i, s.task i = .readDone (.ok 0) → s.pipe.head = s.pipe.tail ∧ s.pipe.writers = 0 := by
  have hrun : ((exec step (boot 2 fun _ => 0) shortRun).map fun s => s.log.delivered) =
      some [7, 8, 8] := by decide +kernel
  obtain ⟨s, hs, hdelivered⟩ := Option.map_eq_some_iff.mp hrun
  exact ⟨s, hs, hdelivered, stream_of_reachable (Reachable.exec (.init rfl) hs)⟩

/-- The interrupted call of `fullRun` has appended bytes, so its result is wrong. -/
theorem not_accounted_fullRun : ∃ (s s' : State 2) (w : WriteCall),
    Reachable (· = boot 2 fun _ => 0) (Graph step) s ∧ step s (.interrupt 0) = some s' ∧
    s'.task 0 = .writeDone w (.error .eintr) ∧
    (Accounted s' w (.error .eintr) ↔ ¬ RelocksAfterAppend s 0) := by
  obtain ⟨s, hs, howner, w, htask, hdone⟩ := fullRun_relocks
  have hstep : step s (.interrupt 0) = some (s.setTask 0 (.writeDone w (.error .eintr))) := by
    simp [step, htask, writeInterrupt, State.interruptLock, howner]
  refine ⟨s, _, w, hs, hstep, rfl, accounted_iff_not_relock hs hstep rfl ?_⟩
  intro v r heq
  rw [htask] at heq
  cases heq

end Nuvix.Pipe
