import Nuvix.Fs.Pipe
import Nuvix.Lib.Transition

/-!
# The invariant of a pipe

The ring is in step with the history, the mutex belongs to the one call that stands
between its lock and its unlock, and each call knows how much of its buffer it has
appended. A write that fits into the ring is only begun when there is room for all of
it, so that its bytes are the last ones appended for as long as it holds the mutex.
-/

namespace Nuvix.Pipe

open Transition RingBuffer Function

variable {N : ℕ} {p : Pipe}

/-! ### The bytes of one call -/

/-- The bytes call `c` has appended, in order. -/
def bytesOf (c : ℕ) (written : List (ℕ × UInt8)) : List UInt8 :=
  (written.filter fun e => e.1 = c).map Prod.snd

/-- The bytes of call `c` are the last ones. -/
def AtEnd (c : ℕ) (written : List (ℕ × UInt8)) : Prop :=
  ∃ before own, written = before ++ own ∧ (∀ e ∈ before, e.1 ≠ c) ∧ ∀ e ∈ own, e.1 = c

/-- No byte of another call lies between two bytes of call `c`. -/
def Contiguous (c : ℕ) (written : List (ℕ × UInt8)) : Prop :=
  ∃ before own after, written = before ++ own ++ after ∧ (∀ e ∈ before, e.1 ≠ c) ∧
    (∀ e ∈ own, e.1 = c) ∧ ∀ e ∈ after, e.1 ≠ c

section Bytes

variable {c d : ℕ} {written : List (ℕ × UInt8)}

theorem bytesOf_append_self (bytes : List UInt8) :
    bytesOf c (written ++ bytes.map fun b => (c, b)) = bytesOf c written ++ bytes := by
  simp [bytesOf, List.filter_append, List.filter_map, Function.comp_def]

theorem bytesOf_append_of_ne (h : c ≠ d) (bytes : List UInt8) :
    bytesOf c (written ++ bytes.map fun b => (d, b)) = bytesOf c written := by
  simp [bytesOf, List.filter_append, List.filter_map, Function.comp_def, h.symm]

theorem bytesOf_eq_nil (h : ∀ e ∈ written, e.1 ≠ c) : bytesOf c written = [] := by
  simpa [bytesOf] using h

theorem atEnd_of_bytesOf_eq_nil (h : bytesOf c written = []) : AtEnd c written :=
  ⟨written, [], by simp, by simpa [bytesOf] using h, by simp⟩

theorem AtEnd.append (h : AtEnd c written) (bytes : List UInt8) :
    AtEnd c (written ++ bytes.map fun b => (c, b)) := by
  obtain ⟨before, own, rfl, hbefore, hown⟩ := h
  refine ⟨before, own ++ bytes.map fun b => (c, b), by simp, hbefore, fun e he => ?_⟩
  rcases List.mem_append.mp he with he | he
  · exact hown e he
  · obtain ⟨b, -, rfl⟩ := List.mem_map.mp he
    rfl

theorem AtEnd.contiguous (h : AtEnd c written) : Contiguous c written := by
  obtain ⟨before, own, rfl, hbefore, hown⟩ := h
  exact ⟨before, own, [], by simp, hbefore, hown, by simp⟩

theorem Contiguous.append_of_ne (h : Contiguous c written) (hne : c ≠ d) (bytes : List UInt8) :
    Contiguous c (written ++ bytes.map fun b => (d, b)) := by
  obtain ⟨before, own, after, rfl, hbefore, hown, hafter⟩ := h
  refine ⟨before, own, after ++ bytes.map fun b => (d, b), by simp, hbefore, hown,
    fun e he => ?_⟩
  rcases List.mem_append.mp he with he | he
  · exact hafter e he
  · obtain ⟨b, -, rfl⟩ := List.mem_map.mp he
    exact hne.symm

end Bytes

/-! ### What a task knows -/

def ReadPc.locked : ReadPc → Bool
  | .lock | .wait | .relock => false
  | _ => true

def WritePc.locked : WritePc → Bool
  | .lock | .wait | .relock => false
  | _ => true

/-- Whether a task that stands here holds the mutex. -/
def Phase.locked : Phase → Bool
  | .read _ pc => pc.locked
  | .write _ pc => pc.locked
  | _ => false

/-- The call of `pipe_write` in progress. -/
def Phase.writing : Phase → Option WriteCall
  | .write w _ => some w
  | _ => none

/-- The bytes that are delivered and not yet given up. -/
def Phase.inflight : Phase → ℕ
  | .read _ (.commit _ copied) => copied
  | _ => 0

/-- The bytes that are copied and not yet appended. -/
def WritePc.pending : WritePc → ℕ
  | .commit _ copied => copied
  | _ => 0

/-- The pipe is empty and will stay so. -/
def Pipe.Drained (p : Pipe) : Prop := p.head = p.tail ∧ p.writers = 0

def ReadOk (p : Pipe) (r : ReadCall) : ReadPc → Prop
  | .copy => r.done = 0 → r.iov.count ≠ 0 ∧ p.readable
  | .commit count copied => copied ≤ count ∧ count ≠ 0 ∧ count ≤ p.used
  | .unlock => r.done = 0 → r.fault = false → p.Drained
  | _ => r.done = 0 ∧ r.iov.count ≠ 0

/-- What a call has appended, and what is left of its buffer. -/
structure WriteCall.Ok (written : List (ℕ × UInt8)) (pending : ℕ) (w : WriteCall) : Prop where
  iov : w.iov.Ok
  rest : w.iov.addrs = w.buf.drop (w.done + pending)
  total : w.total = w.buf.length
  done : w.done + pending ≤ w.buf.length
  appended : bytesOf w.id written = (w.buf.map w.data).take w.done

def WritePcOk (p : Pipe) (written : List (ℕ × UInt8)) (w : WriteCall) : WritePc → Prop
  | .lock => w.done = 0
  | .test => w.atomic → AtEnd w.id written ∧ (w.done ≠ 0 → w.iov.count ≤ p.space)
  | .copy offset count => offset = p.head % bufSize ∧ count ≤ p.space ∧
      offset + count ≤ bufSize ∧ (w.atomic → AtEnd w.id written ∧ w.iov.count ≤ p.space)
  | .commit _ copied => copied ≤ p.space ∧ p.head % bufSize + copied ≤ bufSize ∧
      load p.buffer (p.head % bufSize) copied = ((w.buf.drop w.done).take copied).map w.data ∧
      (w.atomic → AtEnd w.id written ∧ w.iov.count + copied ≤ p.space)
  | .unlockPipe | .unlockFault | .unlock => True
  | _ => w.atomic → w.done = 0

def PhaseOk (p : Pipe) (written : List (ℕ × UInt8)) : Phase → Prop
  | .idle => True
  | .read r pc => r.iov.Ok ∧ ReadOk p r pc
  | .write w pc => w.Ok written pc.pending ∧ WritePcOk p written w pc
  | .readDone ret => ret = .ok 0 → p.Drained
  | .writeDone _ _ => True

/-- The ring holds what was written and not given up; `inflight` of these bytes are
delivered already. -/
def RingOk (p : Pipe) (log : Log) (inflight : ℕ) : Prop :=
  ∃ popped, Holds bufSize uintSize p.buffer p.head p.tail (log.written.map Prod.snd) popped ∧
    popped + inflight ≤ log.written.length ∧
    log.delivered = (log.written.map Prod.snd).take (popped + inflight)

/-- The bytes the owner of the mutex has delivered and not given up. -/
def State.inflight (s : State N) : ℕ := s.owner.elim 0 fun i => (s.task i).inflight

/-- A call has appended the first bytes of its buffer, and they are next to each other if it
fits. -/
def StreamOk (log : Log) : Prop := ∀ c, bytesOf c log.written <+: log.source c ∧
  (log.size c ≤ bufSize → Contiguous c log.written)

structure Inv (s : State N) : Prop where
  readers : s.pipe.readers = if s.isOpen .reader then 1 else 0
  writers : s.pipe.writers = if s.isOpen .writer then 1 else 0
  file : ∀ i f, (s.task i).file = some f → s.isOpen f = true
  owner : ∀ i, (s.task i).locked = true ↔ s.owner = some i
  ring : RingOk s.pipe s.log s.inflight
  id : ∀ i w, (s.task i).writing = some w →
    w.id < s.log.calls ∧ s.log.source w.id = w.buf.map w.data
  unique : ∀ i j w w', (s.task i).writing = some w → (s.task j).writing = some w' →
    w.id = w'.id → i = j
  fresh : ∀ e ∈ s.log.written, e.1 < s.log.calls
  phase : ∀ i, PhaseOk s.pipe s.log.written (s.task i)
  stream : StreamOk s.log

/-! ### Arithmetic of the counters -/

theorem bufSize_dvd : bufSize ∣ uintSize := by decide

theorem bufSize_lt : bufSize < uintSize := by decide

section Counters

variable {p : Pipe} {log : Log} {k popped : ℕ}

theorem used_eq {written : List (ℕ × UInt8)}
    (h : Holds bufSize uintSize p.buffer p.head p.tail (written.map Prod.snd) popped) :
    p.used = written.length - popped := by
  rw [Pipe.used, h.sub_eq bufSize_lt, List.length_map]

theorem RingOk.used_le (h : RingOk p log k) : p.used ≤ bufSize := by
  obtain ⟨popped, hring, -, -⟩ := h
  exact hring.sub_le bufSize_lt

theorem RingOk.space_eq (h : RingOk p log k) : p.space = bufSize - p.used := by
  rw [Pipe.space, sub, if_pos h.used_le]

theorem RingOk.used_eq_zero_iff (h : RingOk p log k) : p.used = 0 ↔ p.head = p.tail := by
  obtain ⟨popped, hring, -, -⟩ := h
  have hle := hring.le
  rw [hring.head_eq_tail_iff bufSize_lt, used_eq hring, List.length_map]
  rw [List.length_map] at hle
  omega

end Counters

theorem ok_init (vec : List Iovec) : (Kiov.init vec (total vec)).Ok := by
  change (vec.map Iovec.len).sum = (Kiov.addrsOf vec 0).length
  induction vec with
  | nil => rfl
  | cons seg vec ih => simp [Kiov.addrsOf, ih]

/-! ### Frame -/

/-- What a task without the mutex knows is not touched by the task that has it. -/
theorem PhaseOk.frame {p' : Pipe} {written written' : List (ℕ × UInt8)} {ph : Phase}
    (h : PhaseOk p written ph) (hunlocked : ph.locked = false)
    (hid : ∀ w, ph.writing = some w → bytesOf w.id written' = bytesOf w.id written)
    (hdrained : p.Drained → p'.Drained) : PhaseOk p' written' ph := by
  cases ph with
  | idle => trivial
  | read r pc => cases pc <;> first | exact h | exact nomatch hunlocked
  | write w pc =>
    obtain ⟨hok, hpc⟩ := h
    have happended := (hid w rfl).trans hok.appended
    refine ⟨⟨hok.iov, hok.rest, hok.total, hok.done, happended⟩, ?_⟩
    cases pc <;> first | exact hpc | exact nomatch hunlocked
  | readDone ret => exact fun hret => hdrained (h hret)
  | writeDone w ret => trivial

section Moves

variable {s : State N} {i : Fin N} {old ph : Phase} {o : Option (Fin N)} {log : Log}

/-- The bytes a call writes stay the ones they are. -/
def SameWrite (old new : Phase) : Prop :=
  ∀ w', new.writing = some w' → ∃ w, old.writing = some w ∧ w'.id = w.id ∧
    w'.buf.map w'.data = w.buf.map w.data

/-- A call goes on, on the file it is on, or is over. -/
structure SameCall (old new : Phase) : Prop where
  file : ∀ f, new.file = some f → old.file = some f
  write : SameWrite old new

theorem SameCall.read {r r' : ReadCall} {pc pc' : ReadPc} :
    SameCall (.read r pc) (.read r' pc') :=
  ⟨fun _ => id, nofun⟩

theorem SameCall.of_write {w w' : WriteCall} {pc pc' : WritePc} (hid : w'.id = w.id)
    (hbuf : w'.buf.map w'.data = w.buf.map w.data) :
    SameCall (.write w pc) (.write w' pc') := by
  refine ⟨fun _ => id, ?_⟩
  rintro _ ⟨⟩
  exact ⟨w, rfl, hid, hbuf⟩

theorem SameCall.over (h : ph.file = none) : SameCall old ph := by
  cases ph with
  | read | write => exact nomatch h
  | _ => exact ⟨nofun, nofun⟩

/-- A step of task `i` that may touch everything but the files. -/
theorem Inv.move (h : Inv s) (hreaders : p.readers = s.pipe.readers)
    (hwriters : p.writers = s.pipe.writers) (hfile : ∀ f, ph.file = some f → s.isOpen f = true)
    (hself : ph.locked = true ↔ o = some i) (howner : ∀ j ≠ i, s.owner = some j ↔ o = some j)
    (hring : RingOk p log (o.elim 0 fun j => (update s.task i ph j).inflight))
    (hcalls : log.calls = s.log.calls) (hsource : log.source = s.log.source)
    (hcall : SameWrite (s.task i) ph) (hfresh : ∀ e ∈ log.written, e.1 < log.calls)
    (hphase : PhaseOk p log.written ph) (hother : ∀ j ≠ i, PhaseOk p log.written (s.task j))
    (hstream : StreamOk log) :
    Inv { s with pipe := p, owner := o, task := update s.task i ph, log := log } where
  readers := hreaders.trans h.readers
  writers := hwriters.trans h.writers
  file := (forall_update_iff s.task
    (fun _ ph => ∀ f, ph.file = some f → s.isOpen f = true)).mpr ⟨hfile, fun j _ => h.file j⟩
  owner := (forall_update_iff s.task
    (fun j ph => ph.locked = true ↔ o = some j)).mpr
      ⟨hself, fun j hne => (h.owner j).trans (howner j hne)⟩
  ring := hring
  id := by
    apply (forall_update_iff s.task
      (fun _ ph => ∀ w, ph.writing = some w →
        w.id < log.calls ∧ log.source w.id = w.buf.map w.data)).mpr
    rw [hcalls, hsource]
    refine ⟨fun w hw => ?_, fun j _ => h.id j⟩
    obtain ⟨v, hv, hid, hbuf⟩ := hcall w hw
    rw [hid, hbuf]
    exact h.id i v hv
  unique := by
    -- A call of task `i` was there before the step, with the same number.
    have hold : ∀ j w, (update s.task i ph j).writing = some w →
        ∃ v, (s.task j).writing = some v ∧ w.id = v.id := by
      intro j w hw
      rcases eq_or_ne j i with rfl | hne
      · rw [update_self] at hw
        obtain ⟨v, hv, hid, -⟩ := hcall w hw
        exact ⟨v, hv, hid⟩
      · rw [update_of_ne hne] at hw
        exact ⟨w, hw, rfl⟩
    intro j k w w' hw hw' hid
    obtain ⟨v, hv, hvid⟩ := hold j w hw
    obtain ⟨v', hv', hvid'⟩ := hold k w' hw'
    exact h.unique j k v v' hv hv' (by rw [← hvid, ← hvid', hid])
  fresh := hfresh
  phase := (forall_update_iff s.task
    (fun _ ph => PhaseOk p log.written ph)).mpr ⟨hphase, hother⟩
  stream := hstream

/-- A step that touches neither the ring nor the history. -/
theorem Inv.moveLock (h : Inv s) (hfile : ∀ f, ph.file = some f → s.isOpen f = true)
    (hself : ph.locked = true ↔ o = some i) (howner : ∀ j ≠ i, s.owner = some j ↔ o = some j)
    (hinflight : (o.elim 0 fun j => (update s.task i ph j).inflight) = s.inflight)
    (hcall : SameWrite (s.task i) ph) (hphase : PhaseOk s.pipe s.log.written ph) :
    Inv { s with owner := o, task := update s.task i ph } :=
  h.move rfl rfl hfile hself howner (hinflight ▸ h.ring) rfl rfl hcall h.fresh hphase
    (fun j _ => h.phase j) h.stream

theorem Inv.file_of (h : Inv s) (htask : s.task i = old) (hcall : SameCall old ph) :
    ∀ f, ph.file = some f → s.isOpen f = true :=
  fun f hf => h.file i f (htask ▸ hcall.file f hf)

theorem Inv.phaseOk (h : Inv s) (htask : s.task i = old) : PhaseOk s.pipe s.log.written old :=
  htask ▸ h.phase i

theorem Inv.owner_eq (h : Inv s) (htask : s.task i = old) (hlocked : old.locked = true) :
    s.owner = some i :=
  (h.owner i).mp (htask ▸ hlocked)

theorem Inv.inflight_eq (h : Inv s) (htask : s.task i = old) (hlocked : old.locked = true) :
    s.inflight = old.inflight := by
  rw [State.inflight, h.owner_eq htask hlocked, Option.elim_some, htask]

theorem inflight_update (h : ph.inflight = (s.task i).inflight) :
    (s.owner.elim 0 fun j => (update s.task i ph j).inflight) = s.inflight := by
  cases howner : s.owner with
  | none => rw [State.inflight, howner]; rfl
  | some j =>
    rw [State.inflight, howner]
    change (update s.task i ph j).inflight = (s.task j).inflight
    rcases eq_or_ne j i with rfl | hne
    · rw [update_self, h]
    · rw [update_of_ne hne]

/-- A step within a call that keeps what it has of the mutex. -/
theorem Inv.setTask (h : Inv s) (htask : s.task i = old) (hcall : SameCall old ph)
    (hsame : (ph.locked, ph.inflight) = (old.locked, old.inflight))
    (hphase : PhaseOk s.pipe s.log.written ph) : Inv (s.setTask i ph) := by
  obtain ⟨hlocked, hinflight⟩ := Prod.mk.inj hsame
  exact h.moveLock (h.file_of htask hcall) (by rw [hlocked, ← htask]; exact h.owner i)
    (fun _ _ => .rfl) (inflight_update (htask ▸ hinflight)) (htask ▸ hcall.write) hphase

theorem Inv.acquire (h : Inv s) {s' : State N} (hs : s.acquire i ph = some s')
    (htask : s.task i = old) (hcall : SameCall old ph)
    (hnew : (ph.locked, ph.inflight) = (true, 0)) (hphase : PhaseOk s.pipe s.log.written ph) :
    Inv s' := by
  obtain ⟨howner, rfl⟩ := ite_eq_some.mp hs
  obtain ⟨hlocked, hinflight⟩ := Prod.mk.inj hnew
  apply h.moveLock (h.file_of htask hcall) (by simp [hlocked]) ?_ ?_ (htask ▸ hcall.write) hphase
  · intro j hne
    simp [howner, hne.symm]
  · simp [State.inflight, howner, hinflight]

theorem Inv.unlock (h : Inv s) (htask : s.task i = old) (hcall : SameCall old ph)
    (hold : (old.locked, old.inflight) = (true, 0)) (hlocked : ph.locked = false)
    (hphase : PhaseOk s.pipe s.log.written ph) : Inv (s.unlock i ph) := by
  obtain ⟨hold, hinflight⟩ := Prod.mk.inj hold
  have howner := h.owner_eq htask hold
  apply h.moveLock (h.file_of htask hcall) (by simp [hlocked]) ?_ ?_ (htask ▸ hcall.write) hphase
  · intro j hne
    simp [howner, hne.symm]
  · simp [h.inflight_eq htask hold, hinflight]

/-- A step of the owner of the mutex that touches the ring or the history. -/
theorem Inv.moveOwner (h : Inv s) (htask : s.task i = old) (hcall : SameCall old ph)
    (hlocked : (old.locked, ph.locked) = (true, true))
    (hsame : (p.readers, p.writers, log.calls, log.source) =
      (s.pipe.readers, s.pipe.writers, s.log.calls, s.log.source))
    (hring : RingOk p log ph.inflight) (hfresh : ∀ e ∈ log.written, e.1 < log.calls)
    (hphase : PhaseOk p log.written ph) (hstream : StreamOk log)
    (hdrained : s.pipe.Drained → p.Drained)
    (hid : ∀ j ≠ i, ∀ w, (s.task j).writing = some w →
      bytesOf w.id log.written = bytesOf w.id s.log.written) :
    Inv { s with pipe := p, task := update s.task i ph, log := log } := by
  obtain ⟨hold, hlocked⟩ := Prod.mk.inj hlocked
  simp only [Prod.mk.injEq] at hsame
  obtain ⟨hreaders, hwriters, hcalls, hsource⟩ := hsame
  have howner := h.owner_eq htask hold
  apply h.move hreaders hwriters (h.file_of htask hcall) (by rw [hlocked]; simp [howner])
    (fun _ _ => .rfl) ?_ hcalls hsource (htask ▸ hcall.write) hfresh hphase ?_ hstream
  · rw [howner]
    simpa using hring
  · intro j hne
    apply (h.phase j).frame ?_ (hid j hne) hdrained
    -- The mutex has one owner.
    by_contra hlock
    have hj := (h.owner j).mp (by simpa using hlock)
    rw [howner] at hj
    exact hne (Option.some.inj hj).symm

end Moves

end Nuvix.Pipe
