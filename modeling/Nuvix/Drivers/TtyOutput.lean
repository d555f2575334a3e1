import Nuvix.Drivers.Tty

/-!
# Output to the terminal: `tty_write` and `ns16550a_write`

`tty_write` expands its input chunk by chunk and hands each chunk to the serial port, which may
stop after any byte. It then counts the characters whose whole expansion was sent. A newline
whose carriage return was sent but not its line feed is not counted, and a caller that retries
sends it again from the beginning. So what was sent is the processed form of what was counted
just when no turn stops between the carriage return and the line feed of a newline.
-/

namespace Nuvix.Tty

variable {t : Termios} {input chunk sent : List Byte} {n written : ℕ} {c : Byte} {k : ℕ}

/-! ### The code -/

/-- `TTY_WRITE_CHUNK`. -/
def writeChunk : ℕ := bufSize / 2

/-- What one turn of `tty_write` meets: a fault of the copy, a signal while it waits for
`tx_lock`, or a signal after so many bytes while it waits for the transmitter. -/
structure Turn where
  faults : Bool
  interrupted : Bool
  sends : ℕ

/-- `ns16550a_write`, with what it has transmitted. -/
def ns16550aWrite (turn : Turn) (bytes : List Byte) : List Byte × Except Errno ℕ :=
  if bytes.length = 0 then ([], .ok 0)
  else if turn.interrupted then ([], .error .eintr)
  else
    let written := min turn.sends bytes.length
    (bytes.take written, if written ≠ 0 then .ok written else .error .eintr)

/-- The loop that expands the characters of a chunk. -/
def opost (t : Termios) (input : List Byte) : List Byte := input.flatMap (ttyOpost t)

/-- The loop that counts the characters whose expansion was sent. -/
def countConsumed (t : Termios) (written : ℕ) : ℕ → List Byte → ℕ
  | _, [] => 0
  | sent, c :: cs =>
    if sent + (ttyOpost t c).length > written then 0
    else countConsumed t written (sent + (ttyOpost t c).length) cs + 1

/-- What the loop of `tty_write` leaves: the bytes transmitted, `done` and `ret`. -/
structure Written where
  sent : List Byte
  done : ℕ
  ret : Option Errno

/-- The loop of `tty_write` from turn `n` on. Every turn but the last one consumes a chunk, so
that there are at most as many as characters. -/
def writeLoop (t : Termios) (turns : ℕ → Turn) : ℕ → ℕ → List Byte → Written
  | 0, _, _ => ⟨[], 0, none⟩
  | fuel + 1, n, input =>
    if input.length = 0 then ⟨[], 0, none⟩
    else if (turns n).faults then ⟨[], 0, some .efault⟩
    else
      let chunk := input.take (min input.length writeChunk)
      let r := ns16550aWrite (turns n) (opost t chunk)
      match r.2 with
      | .error e => ⟨r.1, 0, some e⟩
      | .ok written =>
        let consumed := countConsumed t written 0 chunk
        if consumed ≠ chunk.length then ⟨r.1, consumed, some .eintr⟩
        else
          let rest := writeLoop t turns fuel (n + 1) (input.drop consumed)
          ⟨r.1 ++ rest.sent, consumed + rest.done, rest.ret⟩

/-- What one call of `tty_write` meets: whether there is memory for its buffers, and its turns. -/
structure Call where
  memory : Bool
  turns : ℕ → Turn

/-- `tty_write`, with what it has transmitted. -/
def ttyWrite (t : Termios) (call : Call) (input : List Byte) : List Byte × Except Errno ℕ :=
  if call.memory = false then ([], .error .enomem)
  else
    let w := writeLoop t call.turns input.length 0 input
    (w.sent, if w.done ≠ 0 then .ok w.done else w.ret.elim (.ok 0) .error)

/-! ### Counting -/

theorem opost_append (input rest : List Byte) :
    opost t (input ++ rest) = opost t input ++ opost t rest := List.flatMap_append

theorem opost_take_add (k n : ℕ) :
    opost t (input.take (k + n)) = opost t (input.take k) ++ opost t ((input.drop k).take n) := by
  rw [List.take_add, opost_append]

/-- The processed form of a longer prefix is longer. -/
theorem length_opost_take_mono {m : ℕ} (h : n ≤ m) :
    (opost t (input.take n)).length ≤ (opost t (input.take m)).length := by
  obtain ⟨k, rfl⟩ := Nat.exists_eq_add_of_le h
  rw [opost_take_add, List.length_append]
  exact Nat.le_add_right _ _

/-- The character at `n` is the next one to be expanded. -/
theorem opost_take_succ (hc : input[n]? = some c) :
    opost t (input.take (n + 1)) = opost t (input.take n) ++ ttyOpost t c := by
  obtain ⟨hn, rfl⟩ := List.getElem?_eq_some_iff.mp hc
  rw [List.take_succ_eq_append_getElem hn, opost_append]
  simp [opost]

/-- What was counted was sent, and the expansion of the next character was not. -/
theorem countConsumed_spec (t : Termios) (chunk : List Byte) (s : ℕ) (hs : s ≤ written) :
    s + (opost t (chunk.take (countConsumed t written s chunk))).length ≤ written ∧
      countConsumed t written s chunk ≤ chunk.length ∧
      ∀ c, chunk[countConsumed t written s chunk]? = some c → written <
        s + (opost t (chunk.take (countConsumed t written s chunk))).length +
          (ttyOpost t c).length := by
  induction chunk generalizing s with
  | nil => simpa [countConsumed, opost] using hs
  | cons c cs ih =>
    rw [countConsumed]
    split_ifs with hlong
    · refine ⟨by simpa [opost] using hs, Nat.zero_le _, fun d hd => ?_⟩
      obtain rfl : c = d := by simpa using hd
      simpa [opost] using hlong
    · obtain ⟨hsent, hle, hnext⟩ := ih (s + (ttyOpost t c).length) (not_lt.mp hlong)
      have hcons : ∀ m, opost t ((c :: cs).take (m + 1)) = ttyOpost t c ++ opost t (cs.take m) :=
        fun m => by simp [opost]
      rw [hcons, List.length_append]
      refine ⟨by omega, Nat.succ_le_succ hle, fun d hd => ?_⟩
      have := hnext d (by simpa using hd)
      omega

/-- The bytes sent are the processed form of the first `n` characters, or this and the carriage
return of a newline that comes next. -/
def Accounted (t : Termios) (input sent : List Byte) (n : ℕ) : Prop :=
  sent = opost t (input.take n) ∨
    ttyOpost t newline = [carriageReturn, newline] ∧ input[n]? = some newline ∧
      sent = opost t (input.take n) ++ [carriageReturn]

/-- The part of an expansion that can be sent alone. -/
theorem take_ttyOpost (hk : k < (ttyOpost t c).length) : (ttyOpost t c).take k = [] ∨
      c = newline ∧ ttyOpost t c = [carriageReturn, c] ∧
        (ttyOpost t c).take k = [carriageReturn] := by
  by_cases hc : t.opost ∧ t.onlcr ∧ c = newline
  · rw [ttyOpost, if_pos hc] at hk ⊢
    have hcases : k = 0 ∨ k = 1 := by
      simp only [List.length_cons, List.length_nil] at hk
      omega
    rcases hcases with rfl | rfl
    · exact .inl rfl
    · exact .inr ⟨hc.2.2, rfl, rfl⟩
  · rw [ttyOpost, if_neg hc] at hk ⊢
    have hzero : k = 0 := by simpa using hk
    rw [hzero]
    exact .inl rfl

/-- What the port has sent of a chunk, and what `tty_write` counts. -/
theorem accounted_chunk (t : Termios) (chunk : List Byte) (written : ℕ) :
    Accounted t chunk ((opost t chunk).take written) (countConsumed t written 0 chunk) := by
  obtain ⟨hsent, hcount, hnext⟩ := countConsumed_spec t chunk 0 (Nat.zero_le written)
  set n := countConsumed t written 0 chunk
  have hsplit : opost t chunk = opost t (chunk.take n) ++ opost t (chunk.drop n) := by
    rw [← opost_append, List.take_append_drop]
  have htake : (opost t chunk).take written = opost t (chunk.take n) ++
      (opost t (chunk.drop n)).take (written - (opost t (chunk.take n)).length) := by
    rw [hsplit, List.take_append, List.take_of_length_le (by omega)]
  rw [htake]
  cases hdrop : chunk.drop n with
  | nil => exact .inl (by simp [opost])
  | cons c rest =>
    have hc : chunk[n]? = some c := by
      rw [← List.head?_drop, hdrop]
      rfl
    have hlt := hnext c hc
    -- Less is left than the expansion of the next character.
    generalize hk : written - (opost t (chunk.take n)).length = k
    have hshort : k < (ttyOpost t c).length := by omega
    have hfirst : (opost t (c :: rest)).take k = (ttyOpost t c).take k := by
      rw [opost, List.flatMap_cons, List.take_append_of_le_length hshort.le]
    rw [hfirst]
    rcases take_ttyOpost hshort with hnil | ⟨rfl, hexp, hcr⟩
    · exact .inl (by rw [hnil, List.append_nil])
    · exact .inr ⟨hexp, hc, by rw [hcr]⟩

/-- Where everything was sent, everything is counted. -/
theorem countConsumed_all (t : Termios) (chunk : List Byte) :
    countConsumed t (opost t chunk).length 0 chunk = chunk.length := by
  obtain ⟨-, hcount, hnext⟩ := countConsumed_spec t chunk 0 (Nat.zero_le (opost t chunk).length)
  refine hcount.antisymm (not_lt.mp fun hlt => ?_)
  set n := countConsumed t (opost t chunk).length 0 chunk
  have hc := List.getElem?_eq_getElem hlt
  have hlong := hnext _ hc
  have hsucc := congrArg List.length (opost_take_succ (t := t) hc)
  have hmono : (opost t (chunk.take (n + 1))).length ≤ (opost t chunk).length := by
    have hle : (opost t (chunk.take (n + 1))).length ≤ (opost t (chunk.take chunk.length)).length :=
      length_opost_take_mono hlt
    rwa [List.take_length] at hle
  rw [List.length_append] at hsucc
  omega

/-! ### Turns that stop inside a newline -/

/-- How many bytes the characters become. -/
def expandedLength (t : Termios) (input : List Byte) : ℕ :=
  input.length + if t.opost ∧ t.onlcr then input.count newline else 0

theorem length_opost (t : Termios) (input : List Byte) :
    (opost t input).length = expandedLength t input := by
  unfold expandedLength
  induction input with
  | nil => simp [opost]
  | cons c cs ih =>
    have hcons : opost t (c :: cs) = ttyOpost t c ++ opost t cs := List.flatMap_cons
    rw [hcons, List.length_append, ih, List.length_cons, List.count_cons, ttyOpost]
    by_cases hflags : t.opost ∧ t.onlcr
    · by_cases hc : c = newline
      · simp [hflags, hc]
        omega
      · simp [hflags, hc]
        omega
    · rw [if_neg hflags, if_neg hflags, if_neg fun h => hflags ⟨h.1, h.2.1⟩, List.length_singleton]
      omega

/-- The characters of turn `n`, if all turns before it have sent theirs. -/
def chunkAt (input : List Byte) (n : ℕ) : List Byte := (input.drop (n * writeChunk)).take writeChunk

/-- The turn sends all its characters. -/
def Turn.Full (t : Termios) (turn : Turn) (chunk : List Byte) : Prop :=
  turn.faults = false ∧ turn.interrupted = false ∧ expandedLength t chunk ≤ turn.sends

/-- The turn stops after the carriage return of a newline. -/
def Turn.Cuts (t : Termios) (turn : Turn) (chunk : List Byte) : Prop :=
  turn.faults = false ∧ turn.interrupted = false ∧ t.opost ∧ t.onlcr ∧
    ∃ i, chunk[i]? = some newline ∧ turn.sends = expandedLength t (chunk.take i) + 1

/-- From turn `n` on, the first turn that does not send all its characters stops after the carriage
return of a newline. -/
def CutsFrom (t : Termios) (turns : ℕ → Turn) (n : ℕ) (input : List Byte) : Prop :=
  ∃ k, (∀ m < k, (turns (n + m)).Full t (chunkAt input m)) ∧
    (turns (n + k)).Cuts t (chunkAt input k)

theorem chunkAt_drop (m : ℕ) : chunkAt (input.drop writeChunk) m = chunkAt input (m + 1) := by
  rw [chunkAt, chunkAt, List.drop_drop, Nat.add_comm writeChunk, Nat.succ_mul]

/-- The first turn stops in a newline, or it sends all and a later one does. -/
theorem cutsFrom_iff (turns : ℕ → Turn) : CutsFrom t turns n input ↔
    (turns n).Cuts t (chunkAt input 0) ∨
      (turns n).Full t (chunkAt input 0) ∧ CutsFrom t turns (n + 1) (input.drop writeChunk) := by
  have hturn : ∀ m, n + 1 + m = n + (m + 1) := fun m => by omega
  constructor
  · rintro ⟨k, hfull, hcuts⟩
    cases k with
    | zero => exact .inl hcuts
    | succ k =>
      refine .inr ⟨hfull 0 k.succ_pos, k, fun m hm => ?_, ?_⟩ <;> rw [hturn, chunkAt_drop]
      · exact hfull (m + 1) (Nat.succ_lt_succ hm)
      · exact hcuts
  · rintro (hcuts | ⟨hfirst, k, hfull, hcuts⟩)
    · exact ⟨0, nofun, hcuts⟩
    · simp only [hturn, chunkAt_drop] at hfull hcuts
      refine ⟨k + 1, fun m hm => ?_, hcuts⟩
      cases m with
      | zero => exact hfirst
      | succ m => exact hfull m (Nat.lt_of_succ_lt_succ hm)

/-- A turn that stops in a newline has sent more than the characters before it and less than these
and the newline. -/
theorem Turn.Cuts.between {turn : Turn} (h : turn.Cuts t chunk) :
    ∃ i < chunk.length, (opost t (chunk.take i)).length + 1 = turn.sends ∧
      turn.sends < (opost t (chunk.take (i + 1))).length := by
  obtain ⟨-, -, hopost, honlcr, i, hnext, hsends⟩ := h
  have hexp : ttyOpost t newline = [carriageReturn, newline] := if_pos ⟨hopost, honlcr, rfl⟩
  rw [← length_opost] at hsends
  refine ⟨i, (List.getElem?_eq_some_iff.mp hnext).1, hsends.symm, ?_⟩
  rw [opost_take_succ hnext, hexp, List.length_append, hsends]
  simp

/-- A turn that has not sent all its characters: what it has sent is the processed form of the
characters it counts, unless it has stopped in a newline. -/
theorem exact_chunk_iff {turn : Turn} (hfaults : turn.faults = false)
    (hlock : turn.interrupted = false) (hshort : turn.sends < (opost t chunk).length) :
    (opost t chunk).take turn.sends = opost t (chunk.take (countConsumed t turn.sends 0 chunk)) ↔
      ¬ turn.Cuts t chunk := by
  constructor
  · rintro heq hcuts
    obtain ⟨i, hi, hlow, hhigh⟩ := hcuts.between
    have hlen := congrArg List.length heq
    rw [List.length_take, min_eq_left hshort.le] at hlen
    rcases Nat.lt_or_ge i (countConsumed t turn.sends 0 chunk) with hlt | hge
    · have hmono : (opost t (chunk.take (i + 1))).length ≤ _ := length_opost_take_mono hlt
      omega
    · have hmono : _ ≤ (opost t (chunk.take i)).length := length_opost_take_mono hge
      omega
  · intro hcuts
    rcases accounted_chunk t chunk turn.sends with heq | ⟨hexp, hnext, heq⟩
    · exact heq
    · refine absurd ⟨hfaults, hlock, ?_⟩ hcuts
      have hflags : t.opost ∧ t.onlcr := by
        by_contra hnot
        rw [ttyOpost, if_neg fun h => hnot ⟨h.1, h.2.1⟩] at hexp
        cases hexp
      have hlen := congrArg List.length heq
      rw [List.length_take, min_eq_left hshort.le, List.length_append, length_opost,
        List.length_singleton] at hlen
      exact ⟨hflags.1, hflags.2, _, hnext, hlen⟩

theorem not_cutsFrom_nil (turns : ℕ → Turn) : ¬ CutsFrom t turns n [] := by
  rintro ⟨k, -, hcuts⟩
  obtain ⟨i, hi, -⟩ := hcuts.between
  simp [chunkAt] at hi

/-- A whole run of the loop, by induction on its turns. -/
theorem writeLoop_exact_iff (turns : ℕ → Turn) (fuel n : ℕ) (hfuel : input.length ≤ fuel) :
    (writeLoop t turns fuel n input).sent =
        opost t (input.take (writeLoop t turns fuel n input).done) ↔
      ¬ CutsFrom t turns n input := by
  induction fuel generalizing n input with
  | zero =>
    obtain rfl : input = [] := List.length_eq_zero_iff.mp (Nat.le_zero.mp hfuel)
    exact iff_of_true rfl (not_cutsFrom_nil turns)
  | succ fuel ih =>
    by_cases hempty : input.length = 0
    · obtain rfl : input = [] := List.length_eq_zero_iff.mp hempty
      exact iff_of_true rfl (not_cutsFrom_nil turns)
    have htake : input.take (min input.length writeChunk) = chunkAt input 0 := by
      rw [chunkAt, Nat.zero_mul, List.drop_zero, List.take_eq_take_iff]
      omega
    have hlength : (chunkAt input 0).length = min input.length writeChunk := by
      rw [← htake, List.length_take]
      omega
    have hpos : 0 < (opost t (chunkAt input 0)).length := by
      have hunit : 0 < writeChunk := by decide
      rw [length_opost, expandedLength, hlength]
      omega
    rw [cutsFrom_iff, writeLoop, if_neg hempty]
    by_cases hfaults : (turns n).faults
    · rw [if_pos hfaults]
      refine iff_of_true rfl ?_
      rintro (hcuts | ⟨hfull, -⟩)
      · exact Bool.eq_false_iff.mp hcuts.1 hfaults
      · exact Bool.eq_false_iff.mp hfull.1 hfaults
    rw [if_neg hfaults]
    dsimp only
    rw [htake, ns16550aWrite, if_neg hpos.ne']
    by_cases hlock : (turns n).interrupted
    · rw [if_pos hlock]
      refine iff_of_true rfl ?_
      rintro (hcuts | ⟨hfull, -⟩)
      · exact Bool.eq_false_iff.mp hcuts.2.1 hlock
      · exact Bool.eq_false_iff.mp hfull.2.1 hlock
    rw [if_neg hlock]
    dsimp only
    rcases Nat.lt_or_ge (turns n).sends (opost t (chunkAt input 0)).length with hshort | hall
    · -- the turn is the last one
      have hnotfull : ¬ (turns n).Full t (chunkAt input 0) := fun hfull =>
        absurd hfull.2.2 (by rw [← length_opost]; omega)
      rw [min_eq_left hshort.le, or_iff_left fun h => hnotfull h.1,
        ← exact_chunk_iff (Bool.eq_false_iff.mpr hfaults) (Bool.eq_false_iff.mpr hlock) hshort]
      obtain ⟨hsent, hcount, -⟩ := countConsumed_spec t (chunkAt input 0) 0
        (Nat.zero_le (turns n).sends)
      by_cases hzero : (turns n).sends = 0
      · rw [hzero] at hsent
        rw [if_neg (not_not_intro hzero), hzero]
        refine iff_of_true rfl ?_
        rw [List.take_zero, eq_comm, ← List.length_eq_zero_iff]
        omega
      · rw [if_pos hzero]
        dsimp only
        have hne : countConsumed t (turns n).sends 0 (chunkAt input 0) ≠
            (chunkAt input 0).length := by
          intro heq
          rw [heq, List.take_length] at hsent
          omega
        rw [if_pos hne]
        have hpart : input.take (countConsumed t (turns n).sends 0 (chunkAt input 0)) =
            (chunkAt input 0).take (countConsumed t (turns n).sends 0 (chunkAt input 0)) := by
          rw [← htake] at hcount ⊢
          rw [List.take_take, List.take_eq_take_iff]
          rw [List.length_take] at hcount
          omega
        dsimp only
        rw [hpart]
    · -- the turn has sent its characters
      have hfull : (turns n).Full t (chunkAt input 0) :=
        ⟨Bool.eq_false_iff.mpr hfaults, Bool.eq_false_iff.mpr hlock,
          by rw [← length_opost]; exact hall⟩
      have hnotcuts : ¬ (turns n).Cuts t (chunkAt input 0) := by
        intro hcuts
        obtain ⟨i, hi, -, hhigh⟩ := hcuts.between
        have hmono : (opost t ((chunkAt input 0).take (i + 1))).length ≤
            (opost t ((chunkAt input 0).take (chunkAt input 0).length)).length :=
          length_opost_take_mono hi
        rw [List.take_length] at hmono
        omega
      have hdrop : input.drop (chunkAt input 0).length = input.drop writeChunk := by
        rw [hlength]
        rcases Nat.le_total input.length writeChunk with hle | hle
        · rw [min_eq_left hle, List.drop_length, List.drop_eq_nil_of_le hle]
        · rw [min_eq_right hle]
      rw [min_eq_right hall, if_pos hpos.ne', or_iff_right hnotcuts, and_iff_right hfull]
      dsimp only
      rw [countConsumed_all, if_neg (not_not_intro rfl), List.take_length]
      dsimp only
      have hpart : input.take (chunkAt input 0).length = chunkAt input 0 := by
        rw [hlength, htake]
      rw [opost_take_add, hpart, List.append_cancel_left_eq, hdrop]
      refine ih (n + 1) ?_
      rw [List.length_drop]
      have hunit : 0 < writeChunk := by decide
      omega

/-! ### What callers rely on -/

/-- A call that returns `n` has transmitted the processed form of the first `n` characters, and
one that fails has transmitted nothing. -/
def Exact (t : Termios) (input : List Byte) (r : List Byte × Except Errno ℕ) : Prop :=
  (∀ n, r.2 = .ok n → r.1 = opost t (input.take n)) ∧ ∀ e, r.2 = .error e → r.1 = []

/-- A turn of the call stops after the carriage return of a newline. -/
def Call.Cuts (t : Termios) (call : Call) (input : List Byte) : Prop :=
  call.memory = true ∧ CutsFrom t call.turns 0 input

/-- The number of characters that a caller takes for written. -/
def count (r : List Byte × Except Errno ℕ) : ℕ :=
  match r.2 with
  | .ok n => n
  | .error _ => 0

theorem exact_iff_count (r : List Byte × Except Errno ℕ) :
    Exact t input r ↔ r.1 = opost t (input.take (count r)) := by
  obtain ⟨sent, ret⟩ := r
  cases ret with
  | ok n => simp [Exact, count]
  | error e => simp [Exact, count, opost]

theorem exact_iff_not_cuts (t : Termios) (call : Call) (input : List Byte) :
    Exact t input (ttyWrite t call input) ↔ ¬ call.Cuts t input := by
  rw [exact_iff_count]
  unfold ttyWrite Call.Cuts
  split_ifs with hmem
  · refine iff_of_true rfl fun h => ?_
    cases hmem.symm.trans h.1
  · rw [and_iff_right (Bool.not_eq_false _ ▸ hmem), ← writeLoop_exact_iff _ input.length 0 le_rfl]
    have hcount : count ((writeLoop t call.turns input.length 0 input).sent,
        if (writeLoop t call.turns input.length 0 input).done ≠ 0 then
          .ok (writeLoop t call.turns input.length 0 input).done
        else (writeLoop t call.turns input.length 0 input).ret.elim (.ok 0) .error) =
        (writeLoop t call.turns input.length 0 input).done := by
      dsimp only [count]
      split_ifs with hdone
      · rfl
      · rw [not_not.mp hdone]
        cases (writeLoop t call.turns input.length 0 input).ret <;> rfl
    dsimp only at hcount ⊢
    rw [hcount]

/-- A caller that tries again with the rest: what was transmitted in all, and how many
characters it takes for written. -/
def retry (t : Termios) : List Call → List Byte → List Byte × ℕ
  | [], _ => ([], 0)
  | call :: calls, input =>
    let r := ttyWrite t call input
    let rest := retry t calls (input.drop (count r))
    (r.1 ++ rest.1, count r + rest.2)

/-- No turn of the calls, each with the rest that the one before has left, stops after the carriage
return of a newline. -/
def NoneCuts (t : Termios) : List Call → List Byte → Prop
  | [], _ => True
  | call :: calls, input =>
    ¬ call.Cuts t input ∧ NoneCuts t calls (input.drop (count (ttyWrite t call input)))

theorem retry_exact (calls : List Call) (h : NoneCuts t calls input) :
    (retry t calls input).1 = opost t (input.take (retry t calls input).2) := by
  induction calls generalizing input with
  | nil => rfl
  | cons call calls ih =>
    have hcall := (exact_iff_count _).mp ((exact_iff_not_cuts t call input).mpr h.1)
    change (ttyWrite t call input).1 ++ _ = _
    rw [ih h.2]
    nth_rewrite 1 [hcall]
    exact (opost_take_add _ _).symm

/-- **Output accounting.** One call is accounted for exactly when no turn of it stops between the
carriage return and the line feed of a newline; where this holds of every call, retrying sends each
expansion once. -/
theorem ttyWrite_exact (t : Termios) (calls : List Call) (call : Call) (input : List Byte) :
    (Exact t input (ttyWrite t call input) ↔ ¬ call.Cuts t input) ∧ (NoneCuts t calls input →
        (retry t calls input).1 = opost t (input.take (retry t calls input).2)) :=
  ⟨exact_iff_not_cuts t call input, retry_exact calls⟩

/-- The flags that the terminal starts with. -/
def cooked : Termios :=
  { icrnl := true, icanon := true, echo := true, opost := true, onlcr := true, erase := 127 }

/-- A call that a signal ends after `n` bytes. -/
def signalAfter (n : ℕ) : Call := ⟨true, fun _ => ⟨false, false, n⟩⟩

/-- The port stops after the first character; the second call sends the newline. -/
theorem ttyWrite_exact_retried : NoneCuts cooked [signalAfter 1, signalAfter 9] [97, newline] ∧
      (retry cooked [signalAfter 1, signalAfter 9] [97, newline]).1 =
        opost cooked ([97, newline].take
          (retry cooked [signalAfter 1, signalAfter 9] [97, newline]).2) ∧
      (retry cooked [signalAfter 1, signalAfter 9] [97, newline]).1 =
        [97, carriageReturn, newline] := by
  have hkept : ∀ n input, Exact cooked input (ttyWrite cooked (signalAfter n) input) →
      ¬ (signalAfter n).Cuts cooked input :=
    fun n input => (ttyWrite_exact cooked [] (signalAfter n) input).1.mp
  have hnone : NoneCuts cooked [signalAfter 1, signalAfter 9] [97, newline] :=
    ⟨hkept _ _ ((exact_iff_count _).mpr (by rfl)), hkept _ _ ((exact_iff_count _).mpr (by rfl)),
      trivial⟩
  exact ⟨hnone, (ttyWrite_exact cooked _ (signalAfter 1) _).2 hnone, by rfl⟩

/-- The port stops after the carriage return of a newline: the call fails with `EINTR` although a
byte was transmitted, and a second call sends the carriage return again. -/
theorem ttyWrite_splits_newline :
    ttyWrite cooked (signalAfter 1) [newline] = ([carriageReturn], .error .eintr) ∧
      ¬ Exact cooked [newline] (ttyWrite cooked (signalAfter 1) [newline]) ∧
      retry cooked [signalAfter 1, signalAfter 9] [newline] =
        ([carriageReturn, carriageReturn, newline], 1) := by
  have hfails : ttyWrite cooked (signalAfter 1) [newline] = ([carriageReturn], .error .eintr) := by
    rfl
  refine ⟨hfails, fun hexact => ?_, by rfl⟩
  have hnone := hexact.2 .eintr (by rw [hfails])
  rw [hfails] at hnone
  cases hnone

end Nuvix.Tty
