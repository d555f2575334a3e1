import Nuvix.Errno
import Nuvix.Lib.RingBuffer
import Nuvix.Lib.Transition

/-!
# The terminal: `drivers/tty/tty.c`

Characters from the serial line go into a ring of one page with three 32-bit counters: `head`, up to
which bytes have been typed, `canon`, up to which they may be read, and `tail`, up to which they
have been read. In canonical mode a line can be edited until it is completed by a newline. A reader
holds the mutex `rlock` for the whole of its copying, but drops the spin lock for each copy, so that
characters arrive and the mode changes in between.

There is one step for each section under the spin lock, for each byte that is copied, and for each
operation of the mutex. A signal is an input, as is a fault of the copy. Waking sleepers is left
out; a sleeping call may look at its condition again at any time.

Beside the model of the code stands an editor of lines, which says what the terminal is for. It
knows nothing of counters and of the ring.
-/

namespace Nuvix.Tty

open RingBuffer (sub)

/-- `PAGE_SIZE`, the size of the ring. -/
def bufSize : ℕ := 4096

/-- The number of values of `unsigned int`. -/
def uintSize : ℕ := 2 ^ 32

abbrev Byte := UInt8

/-- The character `\n`. -/
def newline : Byte := 10

/-- The character `\r`. -/
def carriageReturn : Byte := 13

/-- The flags `ICRNL`, `ICANON`, `ECHO`, `OPOST` and `ONLCR`, and `c_cc[VERASE]`. -/
structure Termios where
  icrnl : Bool
  icanon : Bool
  echo : Bool
  opost : Bool
  onlcr : Bool
  erase : Byte
  deriving DecidableEq, Repr

/-- `struct tty` without the locks and the size of the window. -/
structure Tty where
  head : ℕ
  tail : ℕ
  canon : ℕ
  termios : Termios
  buffer : ℕ → Byte

/-- `tty_opost`. -/
def ttyOpost (t : Termios) (c : Byte) : List Byte :=
  if t.opost ∧ t.onlcr ∧ c = newline then [carriageReturn, c] else [c]

/-- The character under `ICRNL`. -/
def Termios.mapInput (t : Termios) (c : Byte) : Byte :=
  if t.icrnl ∧ c = carriageReturn then newline else c

/-- `tty_receive`, with what is echoed. -/
def ttyReceive (tty : Tty) (c : Byte) : Tty × List Byte :=
  let c := tty.termios.mapInput c
  if tty.termios.icanon ∧ c = tty.termios.erase then
    if tty.head ≠ tty.canon then
      ({ tty with head := RingBuffer.pred uintSize tty.head },
        if tty.termios.echo then [8, 32, 8] else [])
    else (tty, [])
  else
    let used := sub uintSize tty.head tty.tail
    if used < bufSize ∧ (used < bufSize - 1 ∨ c = newline) then
      let buffer := Function.update tty.buffer (tty.head % bufSize) c
      let head := (tty.head + 1) % uintSize
      let canon := if ¬ tty.termios.icanon ∨ c = newline then head else tty.canon
      let echo := if c = newline then ttyOpost tty.termios c else [c]
      ({ tty with buffer, head, canon }, if tty.termios.echo then echo else [])
    else (tty, [])

/-- `tty_ioctl` for `TCSETS`, `TCSETSW` and `TCSETSF`. -/
def ttyIoctl (tty : Tty) (termios : Termios) : Tty :=
  { tty with termios, canon := if ¬ termios.icanon then tty.head else tty.canon }

/-! ### Readers -/

/-- A piece that `tty_read` copies at once; `newline` is that it ends a line. -/
structure Chunk where
  offset : ℕ
  count : ℕ
  newline : Bool
  deriving DecidableEq, Repr

/-- The head of the loop of `tty_read`, with `room` bytes left in the buffers of the call. -/
def nextChunk (tty : Tty) (room : ℕ) : Option Chunk :=
  if room = 0 then none
  else
    let offset := tty.tail % bufSize
    let count := min (sub uintSize tty.canon tty.tail) (bufSize - offset)
    let count := min count room
    if count = 0 then none
    else
      -- `memchr`
      match (RingBuffer.load tty.buffer offset count).idxOf? newline with
      | some i => some ⟨offset, i + 1, true⟩
      | none => some ⟨offset, count, false⟩

/-- Where a task stands in `tty_read`. -/
inductive Pc
  | idle
  | waiting (room : ℕ)
  | locking (room : ℕ)
  | locked (room : ℕ)
  /-- `copied` bytes of the chunk have been copied. -/
  | copying (room : ℕ) (chunk : Chunk) (copied : ℕ)
  /-- The loop has been left; `fault` is that `ret` is `-EFAULT`. -/
  | unlocking (fault : Bool)
  deriving DecidableEq, Repr

/-- A task, and the bytes that its call has copied. -/
structure Reader where
  pc : Pc
  got : List Byte

/-- The value `tty_read` returns when it has left the loop. -/
def readResult (got : List Byte) (fault : Bool) : Except Errno ℕ :=
  if got ≠ [] then .ok got.length else if fault then .error .efault else .ok 0

/-- The terminal and its readers. `returned` records the calls that have given back the mutex: their
bytes and their results. -/
structure State where
  tty : Tty
  rlock : Option ℕ
  reader : ℕ → Reader
  returned : List (List Byte × Except Errno ℕ)

/-- A task moves on. -/
def State.setReader (s : State) (i : ℕ) (r : Reader) : State :=
  { s with reader := Function.update s.reader i r }

/-- The head of the loop: a chunk to copy, or the end. -/
def loopHead (tty : Tty) (room : ℕ) : Pc :=
  match nextChunk tty room with
  | some chunk => .copying room chunk 0
  | none => .unlocking false

/-- What happens. A task is known by a number. -/
inductive Action
  | receive (c : Byte)
  | setTermios (t : Termios)
  | call (i room : ℕ)
  | wake (i : ℕ)
  | interrupt (i : ℕ)
  | lock (i : ℕ)
  | begin (i : ℕ)
  | copy (i : ℕ)
  /-- The copy has ended after `n` bytes. -/
  | copied (i n : ℕ)
  | unlock (i : ℕ)
  deriving DecidableEq

/-- One step. -/
def step (s : State) : Action → Option State
  | .receive c => some { s with tty := (ttyReceive s.tty c).1 }
  | .setTermios t => some { s with tty := ttyIoctl s.tty t }
  | .call i room =>
    match (s.reader i).pc with
    | .idle => some (s.setReader i ⟨.waiting room, []⟩)
    | _ => none
  | .wake i =>
    match (s.reader i).pc with
    | .waiting room =>
      if s.tty.tail ≠ s.tty.canon then some (s.setReader i ⟨.locking room, []⟩) else none
    | _ => none
  | .interrupt i =>
    match (s.reader i).pc with
    | .waiting _ => some (s.setReader i ⟨.idle, []⟩)
    | .locking _ => some (s.setReader i ⟨.idle, []⟩)
    | _ => none
  | .lock i =>
    match (s.reader i).pc, s.rlock with
    | .locking room, none => some { s.setReader i ⟨.locked room, []⟩ with rlock := some i }
    | _, _ => none
  | .begin i =>
    match (s.reader i).pc with
    | .locked room =>
      if s.tty.tail ≠ s.tty.canon then some (s.setReader i ⟨loopHead s.tty room, []⟩)
      else some { s.setReader i ⟨.waiting room, []⟩ with rlock := none }
    | _ => none
  | .copy i =>
    match (s.reader i).pc with
    | .copying room chunk copied =>
      if copied < chunk.count then
        some (s.setReader i ⟨.copying room chunk (copied + 1),
          (s.reader i).got ++ [s.tty.buffer (chunk.offset + copied)]⟩)
      else none
    | _ => none
  | .copied i n =>
    match (s.reader i).pc with
    | .copying room chunk copied =>
      if n = copied then
        let tty := { s.tty with tail := (s.tty.tail + copied) % uintSize }
        let pc :=
          if copied ≠ chunk.count then .unlocking true
          else if chunk.newline then .unlocking false
          else loopHead tty (room - copied)
        some { s.setReader i ⟨pc, (s.reader i).got⟩ with tty }
      else none
    | _ => none
  | .unlock i =>
    match (s.reader i).pc with
    | .unlocking fault =>
      some { s.setReader i ⟨.idle, []⟩ with
        rlock := none
        returned := s.returned ++ [((s.reader i).got, readResult (s.reader i).got fault)] }
    | _ => none

/-- The terminal after `tty_init`. -/
def bootTermios : Termios := ⟨true, true, true, true, true, 127⟩

def boot : State where
  tty := ⟨0, 0, 0, bootTermios, fun _ => 0⟩
  rlock := none
  reader := fun _ => ⟨.idle, []⟩
  returned := []

/-- The bytes that have been read, in order: those of the calls that have returned, and those the
holder of the mutex has copied. -/
def State.read (s : State) : List Byte :=
  (s.returned.map Prod.fst).flatten ++ (s.rlock.elim [] fun i => (s.reader i).got)

/-! ### The editor of lines -/

/-- An editor: the lines that have been completed, the line that is being typed, and the number of
bytes that have been taken from the lines. -/
structure Editor where
  termios : Termios
  lines : List (List Byte)
  line : List Byte
  consumed : ℕ

namespace Editor

/-- The bytes that have been typed and not taken. -/
def buffered (e : Editor) : ℕ := e.lines.flatten.length + e.line.length - e.consumed

/-- A byte is dropped when the last place is left and it does not complete a line, or when no place
is left. -/
def Drops (e : Editor) (c : Byte) : Prop :=
  e.buffered = bufSize - 1 ∧ c ≠ newline ∨ e.buffered = bufSize

instance (e : Editor) (c : Byte) : Decidable (e.Drops c) := inferInstanceAs (Decidable (_ ∨ _))

/-- A character is typed. -/
def input (e : Editor) (c : Byte) : Editor :=
  let c := e.termios.mapInput c
  if e.termios.icanon ∧ c = e.termios.erase then { e with line := e.line.dropLast }
  else if e.Drops c then e
  else if ¬ e.termios.icanon ∨ c = newline then
    { e with lines := e.lines ++ [e.line ++ [c]], line := [] }
  else { e with line := e.line ++ [c] }

/-- The mode is changed. Without `ICANON` what has been typed is complete. -/
def setMode (e : Editor) (t : Termios) : Editor :=
  if t.icanon then { e with termios := t }
  else { e with termios := t, lines := e.lines ++ [e.line], line := [] }

/-- What a step of the system is for the editor. -/
def next (e : Editor) : Action → Editor
  | .receive c => e.input c
  | .setTermios t => e.setMode t
  | .copied _ n => { e with consumed := e.consumed + n }
  | _ => e

/-- The editor after a sequence of steps. -/
def after (tr : List Action) : Editor := tr.foldl next ⟨bootTermios, [], [], 0⟩

end Editor

end Nuvix.Tty
