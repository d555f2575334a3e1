import Nuvix.Drivers.Tty

/-!
# The terminal refines the editor of lines

The ring holds what the editor holds: from `tail` to `canon` the rest of the completed lines, from
`canon` to `head` the line that is being typed. A reader that copies without the spin lock reads
bytes of completed lines, which are not edited any more, and no byte is put in their place before
`tail` has passed them. So whatever is typed and however the mode changes meanwhile, the readers
together get the completed lines, and each of them at most one line.
-/

namespace Nuvix.Tty

open RingBuffer (sub Holds)
open Transition Function

variable {tr : List Action} {e e' : Editor} {s s' : State} {i : ℕ} {c : Byte} {t : Termios}
  {tty : Tty} {chunk : Chunk} {got : List Byte} {k room : ℕ} {pc : Pc}

namespace Editor

/-- What may be read. -/
def done (e : Editor) : List Byte := e.lines.flatten

/-- What has been typed. -/
def typed (e : Editor) : List Byte := e.done ++ e.line

theorem buffered_eq (e : Editor) : e.buffered = e.typed.length - e.consumed := by
  rw [buffered, typed, done, List.length_append]

theorem done_setMode (e : Editor) (t : Termios) :
    (e.setMode t).done = if t.icanon then e.done else e.typed := by
  unfold setMode done typed done
  split_ifs
  · rfl
  · simp

/-- A character is added to the completed lines or changes none of them. -/
theorem done_prefix_input (e : Editor) (c : Byte) :
    e.done <+: (e.input c).done ∧ (e.input c).consumed = e.consumed := by
  unfold input done
  dsimp only
  split_ifs
  · exact ⟨List.prefix_refl _, rfl⟩
  · exact ⟨List.prefix_refl _, rfl⟩
  · exact ⟨by rw [List.flatten_append]; exact List.prefix_append _ _, rfl⟩
  · exact ⟨List.prefix_refl _, rfl⟩

theorem typed_setMode (e : Editor) (t : Termios) : (e.setMode t).typed = e.typed := by
  unfold setMode typed done
  split_ifs
  · rfl
  · simp

end Editor

/-- The terminal in step with the editor. -/
structure InStep (e : Editor) (tty : Tty) : Prop where
  termios : tty.termios = e.termios
  holds : Holds bufSize uintSize tty.buffer tty.head tty.tail e.typed e.consumed
  canon : tty.canon = e.done.length % uintSize
  le : e.consumed ≤ e.done.length
  raw : e.termios.icanon = false → e.line = []

theorem bufSize_dvd : bufSize ∣ uintSize := by decide

theorem bufSize_lt : bufSize < uintSize := by decide

namespace InStep

variable {tty : Tty}

section

variable (h : InStep e tty)
include h

/-- The number of bytes that may be read. -/
theorem sub_canon : sub uintSize tty.canon tty.tail = e.done.length - e.consumed := by
  have hfits := h.holds.fits
  have hlt := bufSize_lt
  rw [h.canon, h.holds.tail]
  refine RingBuffer.sub_mod_mod h.le ?_
  rw [Editor.typed, List.length_append] at hfits
  omega

theorem head_eq_canon_iff : tty.head = tty.canon ↔ e.line = [] := by
  have hfits := h.holds.fits
  have hlt := bufSize_lt
  have hle := h.le
  have hsub : sub uintSize tty.head tty.canon = e.line.length := by
    rw [h.canon, h.holds.head, RingBuffer.sub_mod_mod, Editor.typed, List.length_append]
    · omega
    · rw [Editor.typed, List.length_append]
      omega
    · rw [Editor.typed, List.length_append] at hfits ⊢
      omega
  constructor
  · intro heq
    rw [heq, sub, if_pos le_rfl, Nat.sub_self] at hsub
    exact List.length_eq_zero_iff.mp hsub.symm
  · intro hnil
    rw [h.canon, h.holds.head, Editor.typed, hnil, List.append_nil]

theorem setMode (t : Termios) : InStep (e.setMode t) (ttyIoctl tty t) := by
  have hconsumed : (e.setMode t).consumed = e.consumed := by
    unfold Editor.setMode
    split_ifs <;> rfl
  have hterm : (e.setMode t).termios = t := by
    unfold Editor.setMode
    split_ifs <;> rfl
  refine ⟨hterm.symm, ?_, ?_, ?_, ?_⟩
  · rw [Editor.typed_setMode, hconsumed]
    exact h.holds
  · rw [Editor.done_setMode]
    change (if ¬ t.icanon then tty.head else tty.canon) = _
    split_ifs
    · exact h.canon
    · exact h.holds.head
  · rw [Editor.done_setMode, hconsumed]
    split_ifs
    · exact h.le
    · exact h.holds.le
  · intro hraw
    rw [hterm] at hraw
    rw [Editor.setMode, if_neg (by rw [hraw]; exact Bool.false_ne_true)]

/-- The erase character takes back the last byte of the line. -/
theorem erase (hcanon : e.termios.icanon = true) (hline : e.line ≠ []) :
    InStep { e with line := e.line.dropLast }
      { tty with head := RingBuffer.pred uintSize tty.head, termios := e.termios } := by
  refine ⟨rfl, ?_, h.canon, h.le, fun hraw => ?_⟩
  · have hle := h.le
    have htyped : e.typed = e.done ++ e.line.dropLast ++ [e.line.getLast hline] := by
      rw [List.append_assoc, List.dropLast_append_getLast]
      rfl
    have hholds := h.holds
    rw [htyped] at hholds
    refine hholds.unpush (by decide) ?_
    rw [List.length_append]
    omega
  · rw [hcanon] at hraw
    cases hraw

/-- A byte is stored, and completes a line or not. -/
theorem accept (hroom : e.buffered < bufSize) (c : Byte) (complete : Bool)
    (hraw : e.termios.icanon = false → complete = true) :
    InStep (if complete then { e with lines := e.lines ++ [e.line ++ [c]], line := [] }
        else { e with line := e.line ++ [c] })
      { tty with
        termios := e.termios
        buffer := update tty.buffer (tty.head % bufSize) c
        head := (tty.head + 1) % uintSize
        canon := if complete then (tty.head + 1) % uintSize else tty.canon } := by
  have hle := h.holds.le
  have hpush := h.holds.push_one bufSize_dvd (by rw [Editor.buffered_eq] at hroom; omega) c
  cases complete with
  | false =>
    refine ⟨rfl, ?_, h.canon, h.le, fun hr => nomatch hraw hr⟩
    rwa [Editor.typed, List.append_assoc] at hpush
  | true =>
    have hdone : (e.lines ++ [e.line ++ [c]]).flatten = e.typed ++ [c] := by
      simp [Editor.typed, Editor.done]
    refine ⟨rfl, ?_, ?_, ?_, fun _ => rfl⟩
    · change Holds _ _ _ _ _ ((e.lines ++ [e.line ++ [c]]).flatten ++ []) _
      rwa [hdone, List.append_nil]
    · change _ = (e.lines ++ [e.line ++ [c]]).flatten.length % uintSize
      rw [hdone]
      exact hpush.head
    · change _ ≤ (e.lines ++ [e.line ++ [c]]).flatten.length
      rw [hdone]
      exact hpush.le

theorem input (c : Byte) : InStep (e.input c) (ttyReceive tty c).1 := by
  have hterm := h.termios
  have hused : sub uintSize tty.head tty.tail = e.buffered := by
    rw [h.holds.sub_eq bufSize_lt, Editor.buffered_eq]
  have hfull : e.buffered ≤ bufSize := by
    rw [← hused]
    exact h.holds.sub_le bufSize_lt
  unfold ttyReceive Editor.input
  dsimp only
  rw [hterm, hused]
  generalize e.termios.mapInput c = c
  split
  next herase =>
    split
    next hne =>
      exact h.erase herase.1 fun hnil => hne (h.head_eq_canon_iff.mpr hnil)
    next heq =>
      have hnil := h.head_eq_canon_iff.mp (not_not.mp heq)
      have hsame : { e with line := e.line.dropLast } = e := by
        rw [hnil, List.dropLast_nil, ← hnil]
      rw [hsame]
      exact h
  next hplain =>
    by_cases hdrop : e.Drops c
    · have hno : ¬ (e.buffered < bufSize ∧ (e.buffered < bufSize - 1 ∨ c = newline)) := by
        rintro ⟨hlt, hor⟩
        rcases hdrop with ⟨heq, hne⟩ | heq
        · exact hor.elim (fun hlt => by omega) hne
        · omega
      rwa [if_neg hno, if_pos hdrop]
    · have hyes : e.buffered < bufSize ∧ (e.buffered < bufSize - 1 ∨ c = newline) := by
        unfold Editor.Drops at hdrop
        push Not at hdrop
        refine ⟨by omega, ?_⟩
        by_cases hnl : c = newline
        · exact .inr hnl
        · have := mt hdrop.1 hnl
          exact .inl (by omega)
      rw [if_pos hyes, if_neg hdrop]
      have haccept := h.accept hyes.1 c (decide (¬ e.termios.icanon ∨ c = newline)) fun hr => by
        simp [hr]
      simpa only [decide_eq_true_eq] using haccept

/-- Bytes of completed lines are given up. -/
theorem consume {n : ℕ} (hn : e.consumed + n ≤ e.done.length) :
    InStep { e with consumed := e.consumed + n }
      { tty with tail := (tty.tail + n) % uintSize } := by
  refine ⟨h.termios, h.holds.pop ?_, h.canon, hn, h.raw⟩
  rw [Editor.typed, List.length_append]
  omega

/-- A byte of the completed lines is in its slot. -/
theorem slot (hk : e.consumed + k < e.done.length) (hend : tty.tail % bufSize + k < bufSize) :
    tty.buffer (tty.tail % bufSize + k) = e.done[e.consumed + k] := by
  have htyped : e.consumed + k < e.typed.length := by
    rw [Editor.typed, List.length_append]
    omega
  have hslot := h.holds.slot (e.consumed + k) htyped (Nat.le_add_right _ _)
  have hmod : (e.consumed + k) % bufSize = tty.tail % bufSize + k := by
    rw [← Nat.mod_add_mod, ← h.holds.tail_mod bufSize_dvd, Nat.mod_eq_of_lt hend]
  rw [hmod] at hslot
  rw [hslot]
  exact List.getElem_append_left hk

end

end InStep

/-! ### Readers -/

/-- The next `n` bytes of the completed lines. -/
def Editor.ahead (e : Editor) (n : ℕ) : List Byte := (e.done.drop e.consumed).take n

/-- What the call of a reader has copied belongs to one line, and the chunk it copies consists of
the next bytes of completed lines. -/
def Pc.Ok (e : Editor) (tty : Tty) (got : List Byte) : Pc → Prop
  | .copying _ chunk copied => chunk.offset = tty.tail % bufSize ∧
      chunk.offset + chunk.count ≤ bufSize ∧ copied ≤ chunk.count ∧
      e.consumed + chunk.count ≤ e.done.length ∧
      newline ∉ (e.ahead chunk.count).dropLast ∧
      (chunk.newline = false → newline ∉ e.ahead chunk.count) ∧
      ∃ before, got = before ++ e.ahead copied ∧ newline ∉ before
  | .unlocking _ => newline ∉ got.dropLast
  | _ => got = []

/-- The task holds the mutex. -/
def Pc.owns : Pc → Bool
  | .locked _ | .copying .. | .unlocking _ => true
  | _ => false

/-- The bytes of the chunk that have been copied. -/
def Pc.copied : Pc → ℕ
  | .copying _ _ copied => copied
  | _ => 0

/-- Before the first newline of a list there is none. -/
theorem newline_not_mem_dropLast {xs : List Byte} (h : xs.idxOf? newline = some k) :
    k < xs.length ∧ newline ∉ (xs.take (k + 1)).dropLast := by
  obtain ⟨hlt, -, hfirst⟩ := List.findIdx?_eq_some_iff_getElem.mp h
  refine ⟨hlt, fun hmem => ?_⟩
  rw [List.dropLast_eq_take, List.take_take] at hmem
  obtain ⟨j, hj, heq⟩ := List.mem_take_iff_getElem.mp hmem
  rw [List.length_take] at hj
  exact hfirst j (by omega) (beq_iff_eq.mpr heq)

theorem dropLast_subset {xs ys : List Byte} (h : xs <+: ys) : xs.dropLast ⊆ ys.dropLast := by
  obtain ⟨rest, rfl⟩ := h
  rw [List.dropLast_append]
  split_ifs
  · exact List.Subset.refl _
  · exact fun c hc => List.mem_append_left _ (List.mem_of_mem_dropLast hc)

/-- A chunk consists of the next bytes of the completed lines, up to a newline. -/
theorem nextChunk_eq_some (h : InStep e tty) (hchunk : nextChunk tty room = some chunk) :
    chunk.offset = tty.tail % bufSize ∧ chunk.offset + chunk.count ≤ bufSize ∧
      e.consumed + chunk.count ≤ e.done.length ∧ newline ∉ (e.ahead chunk.count).dropLast ∧
      (chunk.newline = false → newline ∉ e.ahead chunk.count) := by
  unfold nextChunk at hchunk
  dsimp only at hchunk
  have hmod : tty.tail % bufSize < bufSize := Nat.mod_lt _ (by decide)
  have hle := h.le
  rw [h.sub_canon] at hchunk
  generalize hcount : min (min (e.done.length - e.consumed) (bufSize - tty.tail % bufSize)) room =
    count at hchunk
  have hload : RingBuffer.load tty.buffer (tty.tail % bufSize) count = e.ahead count := by
    have hlength : e.typed.length = e.done.length + e.line.length := List.length_append
    rw [h.holds.read bufSize_dvd (by omega) (by omega), Editor.typed, Editor.ahead,
      List.drop_append_of_le_length hle,
      List.take_append_of_le_length (by rw [List.length_drop]; omega)]
  have hlength : (e.ahead count).length = count := by
    rw [Editor.ahead, List.length_take, List.length_drop]
    omega
  rw [hload] at hchunk
  split at hchunk
  · cases hchunk
  split at hchunk
  · cases hchunk
  split at hchunk
  next k hk =>
    cases hchunk
    obtain ⟨hlt, hnone⟩ := newline_not_mem_dropLast hk
    have htake : (e.ahead count).take (k + 1) = e.ahead (k + 1) := by
      rw [Editor.ahead, List.take_take, min_eq_left (by omega), Editor.ahead]
    rw [htake] at hnone
    exact ⟨rfl, by dsimp only; omega, by dsimp only; omega, hnone, nofun⟩
  next hk =>
    cases hchunk
    have hnone := List.idxOf?_eq_none_iff.mp hk
    exact ⟨rfl, by dsimp only; omega, by dsimp only; omega,
      fun hmem => hnone (List.mem_of_mem_dropLast hmem), fun _ => hnone⟩

/-- The head of the loop finds a chunk, or the loop is left. -/
theorem loopHead_ok (h : InStep e tty) (hgot : newline ∉ got)
    (room : ℕ) : (loopHead tty room).Ok e tty got ∧ (loopHead tty room).owns = true ∧
      (loopHead tty room).copied = 0 := by
  unfold loopHead
  cases hchunk : nextChunk tty room with
  | none => exact ⟨fun hmem => hgot (List.mem_of_mem_dropLast hmem), rfl, rfl⟩
  | some chunk =>
    obtain ⟨hoffset, hend, hcount, hlast, hnone⟩ := nextChunk_eq_some h hchunk
    exact ⟨⟨hoffset, hend, Nat.zero_le _, hcount, hlast, hnone, got,
      by rw [Editor.ahead, List.take_zero, List.append_nil], hgot⟩, rfl, rfl⟩

/-! ### The invariant -/

/-- The readers together have copied the first bytes of the completed lines, and the calls that
have returned have read at most one line each. -/
structure Inv (e : Editor) (s : State) : Prop where
  inStep : InStep e s.tty
  lock : ∀ i, (s.reader i).pc.owns = true ↔ s.rlock = some i
  call : ∀ i, (s.reader i).pc.Ok e s.tty (s.reader i).got
  read : s.read = e.done.take (e.consumed + s.rlock.elim 0 fun i => (s.reader i).pc.copied)
  returned : ∀ r ∈ s.returned, newline ∉ r.1.dropLast

namespace Inv

/-- What the holder of the mutex copies is complete. -/
theorem copied_le (h : Inv e s) :
    e.consumed + s.rlock.elim 0 (fun i => (s.reader i).pc.copied) ≤ e.done.length := by
  have hle := h.inStep.le
  cases s.rlock with
  | none => exact hle
  | some i =>
    have hcall := h.call i
    change e.consumed + (s.reader i).pc.copied ≤ _
    cases hpc : (s.reader i).pc with
    | copying room chunk copied =>
      rw [hpc] at hcall
      obtain ⟨-, -, hcopied, hcount, -⟩ := hcall
      exact (Nat.add_le_add_left hcopied _).trans hcount
    | idle | waiting room | locking room | locked room | unlocking fault => exact hle

/-- The lines grow, and the readers are left alone. -/
theorem grow (h : Inv e s) (hstep : InStep e' tty) (hdone : e.done <+: e'.done)
    (hconsumed : e'.consumed = e.consumed) (htail : tty.tail = s.tty.tail) :
    Inv e' { s with tty } := by
  obtain ⟨more, hmore⟩ := hdone
  have hle := h.inStep.le
  have hahead : ∀ n, e.consumed + n ≤ e.done.length → e'.ahead n = e.ahead n := by
    intro n hn
    rw [Editor.ahead, Editor.ahead, hconsumed, ← hmore, List.drop_append_of_le_length hle,
      List.take_append_of_le_length (by rw [List.length_drop]; omega)]
  have hlength : e'.done.length = e.done.length + more.length := by
    rw [← hmore, List.length_append]
  refine ⟨hstep, h.lock, fun i => ?_, ?_, h.returned⟩
  · have hcall := h.call i
    change (s.reader i).pc.Ok e' tty (s.reader i).got
    cases hpc : (s.reader i).pc with
    | copying room chunk copied =>
      rw [hpc] at hcall
      obtain ⟨hoffset, hend, hcopied, hcount, hlast, hnone, before, hgot, hbefore⟩ := hcall
      refine ⟨htail ▸ hoffset, hend, hcopied, by omega, ?_, ?_, before, ?_, hbefore⟩
      · rwa [hahead _ hcount]
      · rwa [hahead _ hcount]
      · rwa [hahead _ (by omega)]
    | idle | waiting room | locking room | locked room | unlocking fault =>
      rwa [hpc] at hcall
  · change s.read = _
    rw [h.read, hconsumed, ← hmore, List.take_append_of_le_length h.copied_le]

theorem ok_iff_of_not_owns (h : pc.owns = false) :
    pc.Ok e tty got ↔ got = [] := by
  cases pc with
  | idle | waiting room | locking room => exact Iff.rfl
  | locked room | copying room chunk copied | unlocking fault => cases h

/-- A task that does not hold the mutex moves on without it. -/
theorem setFree (h : Inv e s) (hold : (s.reader i).pc.owns = false)
    (hnew : pc.owns = false) : Inv e (s.setReader i ⟨pc, []⟩) := by
  have hne : s.rlock ≠ some i := fun heq => by
    rw [(h.lock i).mpr heq] at hold
    cases hold
  refine ⟨h.inStep, ?_, ?_, ?_, h.returned⟩
  · refine (forall_update_iff s.reader fun j r => r.pc.owns = true ↔ s.rlock = some j).mpr
      ⟨?_, fun j _ => h.lock j⟩
    rw [hnew]
    exact iff_of_false Bool.false_ne_true hne
  · exact (forall_update_iff s.reader fun j r => r.pc.Ok e s.tty r.got).mpr
      ⟨(ok_iff_of_not_owns hnew).mpr rfl, fun j _ => h.call j⟩
  · have hread := h.read
    unfold State.read at hread ⊢
    change (s.returned.map Prod.fst).flatten ++ s.rlock.elim [] _ =
      e.done.take (_ + s.rlock.elim 0 _)
    cases hlock : s.rlock with
    | none =>
      rwa [hlock] at hread
    | some j =>
      have hji : j ≠ i := fun heq => hne (hlock.trans (congrArg some heq))
      rw [hlock] at hread
      simpa only [Option.elim_some, State.setReader, update_of_ne hji] using hread

/-- The task that holds the mutex, or takes it, moves on. -/
theorem setOwner {e' : Editor} {r : Reader} {rlock : Option ℕ}
    {returned : List (List Byte × Except Errno ℕ)} (h : Inv e s)
    (hfree : s.rlock = none ∨ s.rlock = some i) (hstep : InStep e' tty)
    (hlock : rlock = if r.pc.owns then some i else none) (hok : r.pc.Ok e' tty r.got)
    (hread : (returned.map Prod.fst).flatten ++ r.got = e'.done.take (e'.consumed + r.pc.copied))
    (hreturned : ∀ r ∈ returned, newline ∉ r.1.dropLast) :
    Inv e' ⟨tty, rlock, update s.reader i r, returned⟩ := by
  have hothers : ∀ j ≠ i, (s.reader j).pc.owns = false := by
    intro j hj
    rw [← Bool.not_eq_true, h.lock j]
    intro heq
    rcases hfree with hnone | hi
    · rw [hnone] at heq
      cases heq
    · exact hj (Option.some_inj.mp (heq.symm.trans hi))
  refine ⟨hstep, ?_, ?_, ?_, hreturned⟩
  · refine (forall_update_iff s.reader fun j r => r.pc.owns = true ↔ rlock = some j).mpr
      ⟨?_, fun j hj => ?_⟩
    · rw [hlock]
      cases r.pc.owns <;> simp
    · rw [hothers j hj, hlock]
      refine iff_of_false Bool.false_ne_true ?_
      split
      · exact fun heq => hj (Option.some_inj.mp heq).symm
      · nofun
  · exact (forall_update_iff s.reader fun j r => r.pc.Ok e' tty r.got).mpr ⟨hok,
      fun j hj => (ok_iff_of_not_owns (hothers j hj)).mpr
        ((ok_iff_of_not_owns (hothers j hj)).mp (h.call j))⟩
  · unfold State.read
    dsimp only
    cases howns : r.pc.owns with
    | false =>
      have hgot := (ok_iff_of_not_owns howns).mp hok
      have hcopied : r.pc.copied = 0 := by
        cases hpc : r.pc with
        | copying room chunk copied =>
          rw [hpc] at howns
          cases howns
        | idle | waiting room | locking room | locked room | unlocking fault => rfl
      rw [hgot, hcopied] at hread
      rwa [hlock, howns]
    | true =>
      rw [hlock, howns]
      simpa using hread

theorem copy {copied : ℕ} (h : Inv e s)
    (hpc : (s.reader i).pc = .copying room chunk copied) (hlt : copied < chunk.count) :
    Inv e (s.setReader i ⟨.copying room chunk (copied + 1),
      (s.reader i).got ++ [s.tty.buffer (chunk.offset + copied)]⟩) := by
  have hlock : s.rlock = some i := (h.lock i).mp (by rw [hpc]; rfl)
  have hcall := h.call i
  rw [hpc] at hcall
  obtain ⟨hoffset, hend, -, hcount, hlast, hnone, before, hgot, hbefore⟩ := hcall
  have hk : e.consumed + copied < e.done.length := by omega
  have hbyte : s.tty.buffer (chunk.offset + copied) = e.done[e.consumed + copied] := by
    rw [hoffset]
    exact h.inStep.slot hk (by omega)
  have hread := h.read
  rw [State.read, hlock] at hread
  simp only [Option.elim_some, hpc, Pc.copied] at hread
  refine h.setOwner (.inr hlock) h.inStep hlock
    ⟨hoffset, hend, hlt, hcount, hlast, hnone, before, ?_, hbefore⟩ ?_ h.returned
  · dsimp only
    rw [hgot, hbyte, List.append_assoc, Editor.ahead, Editor.ahead, List.take_add_one,
      List.getElem?_drop, List.getElem?_eq_getElem hk]
    rfl
  · dsimp only
    rw [← List.append_assoc, hread, hbyte, Pc.copied, ← Nat.add_assoc, List.take_add_one,
      List.getElem?_eq_getElem hk]
    rfl

/-- The copy ends after some bytes, which are given up. -/
theorem copied {copied : ℕ} (h : Inv e s)
    (hpc : (s.reader i).pc = .copying room chunk copied) :
    Inv { e with consumed := e.consumed + copied }
      { s.setReader i ⟨if copied ≠ chunk.count then .unlocking true
          else if chunk.newline then .unlocking false
          else loopHead { s.tty with tail := (s.tty.tail + copied) % uintSize } (room - copied),
          (s.reader i).got⟩ with
        tty := { s.tty with tail := (s.tty.tail + copied) % uintSize } } := by
  have hlock : s.rlock = some i := (h.lock i).mp (by rw [hpc]; rfl)
  have hcall := h.call i
  rw [hpc] at hcall
  obtain ⟨-, -, hcopied, hcount, hlast, hnone, before, hgot, hbefore⟩ := hcall
  have hread := h.read
  rw [State.read, hlock] at hread
  simp only [Option.elim_some, hpc, Pc.copied] at hread
  have hconsume : InStep { e with consumed := e.consumed + copied }
      { s.tty with tail := (s.tty.tail + copied) % uintSize } :=
    h.inStep.consume ((Nat.add_le_add_left hcopied _).trans hcount)
  have hpre : e.ahead copied <+: e.ahead chunk.count := List.take_prefix_take_left hcopied
  have hdrop : newline ∉ (s.reader i).got.dropLast := by
    rw [hgot, List.dropLast_append]
    split_ifs
    · exact fun hmem => hbefore (List.mem_of_mem_dropLast hmem)
    · rw [List.mem_append, not_or]
      exact ⟨hbefore, fun hmem => hlast (dropLast_subset hpre hmem)⟩
  by_cases hall : copied ≠ chunk.count
  · rw [if_pos hall]
    exact h.setOwner (.inr hlock) hconsume hlock hdrop hread h.returned
  rw [if_neg hall]
  by_cases hnl : chunk.newline = true
  · rw [if_pos hnl]
    exact h.setOwner (.inr hlock) hconsume hlock hdrop hread h.returned
  · rw [if_neg hnl]
    have hgot' : newline ∉ (s.reader i).got := by
      rw [hgot, List.mem_append, not_or]
      refine ⟨hbefore, ?_⟩
      rw [not_not.mp hall]
      exact hnone (Bool.eq_false_iff.mpr hnl)
    obtain ⟨hok, howns, hzero⟩ := loopHead_ok hconsume hgot' (room - copied)
    exact h.setOwner (.inr hlock) hconsume (by rw [howns]; exact hlock) hok
      (by rw [hzero]; exact hread) h.returned

/-- Every step of the system is a step of the editor. -/
protected theorem step {a : Action} (h : Inv e s) (hstep : step s a = some s') :
    Inv (e.next a) s' := by
  cases a with
  | receive c =>
    cases hstep
    have hinput := e.done_prefix_input c
    refine h.grow (h.inStep.input c) hinput.1 hinput.2 ?_
    unfold ttyReceive
    dsimp only
    split_ifs <;> rfl
  | setTermios t =>
    cases hstep
    refine h.grow (h.inStep.setMode t) ?_ ?_ rfl
    · change e.done <+: (e.setMode t).done
      rw [Editor.done_setMode]
      split_ifs
      · exact List.prefix_refl _
      · exact List.prefix_append _ _
    · change (e.setMode t).consumed = e.consumed
      unfold Editor.setMode
      split_ifs <;> rfl
  | call i room =>
    dsimp only [Tty.step] at hstep
    split at hstep <;> cases hstep
    rename_i hpc
    exact h.setFree (by rw [hpc]; rfl) rfl
  | wake i =>
    dsimp only [Tty.step] at hstep
    split at hstep
    next room hpc =>
      split at hstep <;> cases hstep
      exact h.setFree (by rw [hpc]; rfl) rfl
    · cases hstep
  | interrupt i =>
    dsimp only [Tty.step] at hstep
    split at hstep <;> cases hstep
    all_goals
      rename_i hpc
      exact h.setFree (by rw [hpc]; rfl) rfl
  | lock i =>
    dsimp only [Tty.step] at hstep
    split at hstep <;> cases hstep
    rename_i room hpc hnone
    have hread := h.read
    rw [State.read, hnone] at hread
    exact h.setOwner (.inl hnone) h.inStep rfl rfl hread h.returned
  | begin i =>
    dsimp only [Tty.step] at hstep
    split at hstep
    next room hpc =>
      have hlock : s.rlock = some i := (h.lock i).mp (by rw [hpc]; rfl)
      have hgot := h.call i
      rw [hpc] at hgot
      change (s.reader i).got = [] at hgot
      have hread := h.read
      rw [State.read, hlock] at hread
      simp only [Option.elim_some, hpc, Pc.copied, hgot] at hread
      split at hstep <;> cases hstep
      · obtain ⟨hok, howns, hzero⟩ := loopHead_ok h.inStep List.not_mem_nil room
        exact h.setOwner (.inr hlock) h.inStep (by rw [howns]; exact hlock) hok
          (by rw [hzero]; exact hread) h.returned
      · exact h.setOwner (.inr hlock) h.inStep rfl rfl hread h.returned
    · cases hstep
  | copy i =>
    dsimp only [Tty.step] at hstep
    split at hstep
    next room chunk copied hpc =>
      split at hstep <;> cases hstep
      rename_i hlt
      exact h.copy hpc hlt
    · cases hstep
  | copied i n =>
    dsimp only [Tty.step] at hstep
    split at hstep
    next room chunk copied hpc =>
      split at hstep <;> cases hstep
      rename_i heq
      subst heq
      exact h.copied hpc
    · cases hstep
  | unlock i =>
    dsimp only [Tty.step] at hstep
    split at hstep <;> cases hstep
    rename_i fault hpc
    have hlock : s.rlock = some i := (h.lock i).mp (by rw [hpc]; rfl)
    have hgot := h.call i
    rw [hpc] at hgot
    have hread := h.read
    rw [State.read, hlock] at hread
    simp only [Option.elim_some, hpc, Pc.copied] at hread
    refine h.setOwner (.inr hlock) h.inStep rfl rfl ?_ ?_
    · simpa [Pc.copied, Editor.next] using hread
    · intro r hr
      rcases List.mem_append.mp hr with hr | hr
      · exact h.returned r hr
      · rwa [List.mem_singleton.mp hr]

end Inv

theorem inv_boot : Inv (Editor.after []) boot where
  inStep := ⟨rfl, RingBuffer.Holds.empty, rfl, le_rfl, fun _ => rfl⟩
  lock _ := ⟨nofun, nofun⟩
  call _ := rfl
  read := rfl
  returned _ hr := nomatch hr

/-- The terminal is in step with the editor in every run. -/
theorem inv_of_run (h : Run (Graph step) boot tr s) : Inv (Editor.after tr) s := by
  refine h.history (H := fun tr s => Inv (Editor.after tr) s) inv_boot fun tr t a u hinv hstep => ?_
  rw [Editor.after, List.foldl_append]
  exact hinv.step hstep

/-! ### Canonical mode -/

/-- The newlines are the ends of the completed lines. -/
structure Editor.Canonical (e : Editor) : Prop where
  icanon : e.termios.icanon = true
  line : newline ∉ e.line
  lines : ∀ l ∈ e.lines, ∃ x, l = x ++ [newline] ∧ newline ∉ x

/-- A step keeps the editor canonical unless it turns `ICANON` off. -/
theorem Editor.Canonical.next {a : Action} (h : e.Canonical)
    (ha : ∀ t, a = .setTermios t → t.icanon = true) : (e.next a).Canonical := by
  cases a with
  | receive c =>
    change (e.input c).Canonical
    unfold Editor.input
    dsimp only
    generalize e.termios.mapInput c = c
    split_ifs with herase hdrop hdone
    · exact ⟨h.icanon, fun hmem => h.line (List.mem_of_mem_dropLast hmem), h.lines⟩
    · exact h
    · refine ⟨h.icanon, List.not_mem_nil, fun l hl => ?_⟩
      rcases List.mem_append.mp hl with hl | hl
      · exact h.lines l hl
      · rw [List.mem_singleton.mp hl, hdone.resolve_left (not_not.mpr h.icanon)]
        exact ⟨e.line, rfl, h.line⟩
    · refine ⟨h.icanon, fun hmem => ?_, h.lines⟩
      rcases List.mem_append.mp hmem with hmem | hmem
      · exact h.line hmem
      · exact hdone (.inr (List.mem_singleton.mp hmem).symm)
  | setTermios t =>
    change (e.setMode t).Canonical
    rw [Editor.setMode, if_pos (ha t rfl)]
    exact ⟨ha t rfl, h.line, h.lines⟩
  | copied i n => exact ⟨h.icanon, h.line, h.lines⟩
  | call i room | wake i | interrupt i | lock i | begin i | copy i | unlock i => exact h

theorem Editor.canonical_after (h : ∀ t, .setTermios t ∈ tr → t.icanon = true) :
    (Editor.after tr).Canonical := by
  induction tr using List.reverseRecOn with
  | nil => exact ⟨rfl, List.not_mem_nil, nofun⟩
  | append_singleton tr a ih =>
    rw [Editor.after, List.foldl_append]
    exact (ih fun t ht => h t (List.mem_append_left _ ht)).next fun t ht => h t (by simp [ht])

/-- The bytes `r` that are read after the bytes `pre` are a part of one line. -/
def OneLine (lines : List (List Byte)) (pre r : List Byte) : Prop :=
  ∃ before line after a b, lines = before ++ line :: after ∧ pre = before.flatten ++ a ∧
    line = a ++ r ++ b

/-- Bytes of the lines with no newline before the last of them are a part of one line. -/
theorem oneLine_of_flatten {lines : List (List Byte)} {pre r post : List Byte} (hr : r ≠ [])
    (hnl : newline ∉ r.dropLast) (hlines : ∀ l ∈ lines, ∃ x, l = x ++ [newline] ∧ newline ∉ x)
    (h : pre ++ (r ++ post) = lines.flatten) : OneLine lines pre r := by
  induction lines generalizing pre with
  | nil =>
    have hnil := (List.append_eq_nil_iff.mp h).2
    exact absurd (List.append_eq_nil_iff.mp hnil).1 hr
  | cons l lines ih =>
    have hrest := fun l hl => hlines l (List.mem_cons_of_mem _ hl)
    -- the line `l` lies before what is read
    have hskip : ∀ pre', pre = l ++ pre' → pre' ++ (r ++ post) = lines.flatten →
        OneLine (l :: lines) pre r := by
      rintro pre' rfl h
      obtain ⟨before, line, after, a, b, rfl, rfl, rfl⟩ := ih hrest h
      exact ⟨l :: before, _, after, a, b, rfl, by simp, rfl⟩
    rw [List.flatten_cons] at h
    rcases List.append_eq_append_iff.mp h with ⟨rest, rfl, hend⟩ | ⟨pre', hpre, hend⟩
    · rcases List.append_eq_append_iff.mp hend with ⟨b, rfl, -⟩ | ⟨more, hmore, hend⟩
      · exact ⟨[], _, lines, pre, b, rfl, rfl, (List.append_assoc ..).symm⟩
      · rcases List.eq_nil_or_concat' rest with rfl | ⟨x, c, rfl⟩
        · exact hskip [] (by simp) hend
        · -- the line ends inside of what is read
          obtain ⟨y, hy, -⟩ := hlines _ List.mem_cons_self
          have hc : c = newline := by
            rw [← List.append_assoc] at hy
            exact (List.append_inj' hy rfl).2 |> List.singleton_inj.mp
          rcases List.eq_nil_or_concat' more with rfl | ⟨z, d, rfl⟩
          · exact ⟨[], _, lines, pre, [], rfl, rfl, by simp [hmore]⟩
          · refine absurd ?_ hnl
            rw [hmore, ← List.append_assoc, List.dropLast_concat, hc]
            simp
    · exact hskip pre' hpre hend.symm

/-! ### The terminal -/

/-- The terminal after the steps `tr`. -/
structure TtyOk (tr : List Action) (s : State) : Prop where
  canon_le : sub uintSize s.tty.canon s.tty.tail ≤ sub uintSize s.tty.head s.tty.tail
  head_le : sub uintSize s.tty.head s.tty.tail ≤ bufSize
  /-- The ring holds the bytes that have been typed and neither erased nor read. -/
  unread : (List.range (sub uintSize s.tty.head s.tty.tail)).map
      (fun k => s.tty.buffer ((s.tty.tail + k) % bufSize)) =
    ((Editor.after tr).lines.flatten ++ (Editor.after tr).line).drop (Editor.after tr).consumed
  raw : s.tty.termios.icanon = false → s.tty.canon = s.tty.head
  read : s.read <+: (Editor.after tr).lines.flatten
  oneLine : (∀ t, .setTermios t ∈ tr → t.icanon = true) → ∀ before r after,
    s.returned = before ++ r :: after → r.1 ≠ [] →
    OneLine (Editor.after tr).lines (before.map Prod.fst).flatten r.1

/-- In every run the terminal gives its readers the completed lines in order, and each of them a
part of one line. -/
theorem ttyOk_of_run (h : Run (Graph step) boot tr s) : TtyOk tr s := by
  have hinv := inv_of_run h
  have hstep := hinv.inStep
  have hread : s.read <+: (Editor.after tr).lines.flatten := by
    rw [hinv.read]
    exact List.take_prefix _ _
  refine ⟨?_, hstep.holds.sub_le bufSize_lt, hstep.holds.contents bufSize_dvd bufSize_lt, ?_,
    hread, ?_⟩
  · rw [hstep.sub_canon, hstep.holds.sub_eq bufSize_lt, Editor.typed, List.length_append]
    omega
  · intro hraw
    rw [hstep.termios] at hraw
    exact (hstep.head_eq_canon_iff.mpr (hstep.raw hraw)).symm
  · intro hcanon before r after hreturned hr
    have hmem : r ∈ s.returned := by
      rw [hreturned]
      simp
    obtain ⟨post, hpost⟩ := hread
    have hflatten : (before.map Prod.fst).flatten ++ (r.1 ++ ((after.map Prod.fst).flatten ++
        (s.rlock.elim [] fun i => (s.reader i).got) ++ post)) =
        (Editor.after tr).lines.flatten := by
      rw [← hpost, State.read, hreturned]
      simp
    exact oneLine_of_flatten hr (hinv.returned r hmem) (Editor.canonical_after hcanon).lines
      hflatten

/-- Two characters are typed, the first of them erased, and the line is read. -/
def readRun : List Action :=
  [.receive 97, .receive 127, .receive 98, .call 0 8, .receive 13, .wake 0, .lock 0, .begin 0,
    .copy 0, .receive 99, .copy 0, .copied 0 2, .unlock 0]

theorem ttyOk_readRun : ∃ s, Run (Graph step) boot readRun s ∧ TtyOk readRun s ∧
    s.returned = [([98, newline], .ok 2)] := by
  have hsome : (exec step boot readRun).isSome := by decide +kernel
  obtain ⟨s, hs⟩ := Option.isSome_iff_exists.mp hsome
  have hreturned : (exec step boot readRun).map State.returned =
      some [([98, newline], .ok 2)] := by decide +kernel
  have hrun : Run (Graph step) boot readRun s := Run.exec (fun _ _ _ _ h => h) (.nil boot) hs
  rw [hs] at hreturned
  exact ⟨s, hrun, ttyOk_of_run hrun, Option.some_inj.mp hreturned⟩

end Nuvix.Tty
