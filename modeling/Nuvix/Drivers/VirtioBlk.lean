import Nuvix.Drivers.Virtqueue

/-!
# Block requests: `drivers/block/virtio-blk.c`

A caller of `submit_request` takes one of sixteen slots, fills in its wire header, puts a
chain of two or three descriptors into the queue and waits for the completion of the slot.
The interrupt handler `virtio_blk_done` collects what the device has handed back, writes the
result into each slot, and signals the completions after it has given up the lock: by then the
first of the slots may already be in use again.

`available.lock` is taken by single steps of the callers and by the handler, which keeps it
while it collects; the device goes on in the meantime. A caller that waits for a slot or for
its completion tries again whenever it likes, which covers every way of being woken. The
device meets every deadline, so that the timed wait returns only after it has consumed a
completion. What the device reads and writes of the data pages is left out.
-/

namespace Nuvix.VirtioBlk

open Virtio Function

/-- `VIRTIO_BLK_SLOTS`, `VIRTIO_BLK_QUEUE_SIZE`. -/
def blkSlots : ℕ := 16
def blkQueueSize : ℕ := 64

/-- `UINT8_MAX`, `UINT32_MAX`. -/
def uint8Max : ℕ := 255
def uint32Max : ℕ := 4294967295

/-- The request types: `VIRTIO_BLK_T_IN`, `VIRTIO_BLK_T_OUT`, `VIRTIO_BLK_T_FLUSH`. -/
inductive BlkType
  | read
  | write
  | flush
  deriving DecidableEq, Repr

/-- The arguments of `submit_request`; the page is known by its DMA address. -/
structure Call where
  type : BlkType
  sector : ℕ
  length : ℕ
  deriving DecidableEq, Repr

/-- `struct virtio_blk_header`. -/
structure Header where
  type : BlkType
  sector : ℕ
  deriving DecidableEq, Repr

/-- The header of a call. -/
def Call.header (c : Call) : Header := ⟨c.type, c.sector⟩

/-- What the device writes for a call, if all goes well. -/
def Call.expectedWritten (c : Call) : ℕ :=
  if c.type = .read then (c.length + 1) % 4294967296 else 1

/-- The number of descriptors that the device reads. -/
def Call.numOut (c : Call) : ℕ := if c.length ≠ 0 ∧ c.type ≠ .read then 2 else 1

/-- `wire_dma` of a slot, and where its status byte is. -/
def wireDma (base slot : ℕ) : ℕ := base + slot * 24
def statusDma (base slot : ℕ) : ℕ := wireDma base slot + 16

/-- `bufs`, for data at the address `data`; `len` of a `struct vq_sg` has 32 bits. -/
def Call.bufs (c : Call) (base slot data : ℕ) : List Sg :=
  ⟨wireDma base slot, 16⟩ ::
    ((if c.length ≠ 0 then [⟨data, c.length % 4294967296⟩] else []) ++ [⟨statusDma base slot, 1⟩])

/-- `enum request_state`. -/
inductive RequestState
  | free
  | preparing
  | submitted
  deriving DecidableEq, Repr

/-- `struct virtio_blk_request`; a result is `none` where it is zero. -/
structure Slot where
  state : RequestState
  done : ℕ
  expectedWritten : ℕ
  result : Option Errno
  deriving DecidableEq, Repr

/-- How far a call of `submit_request` is. A call that was submitted has a number. -/
inductive Pc
  | idle
  | reserve (c : Call)
  | mapPage (c : Call) (slot : ℕ)
  | prepare (c : Call) (slot data : ℕ)
  | deadline (c : Call) (slot data : ℕ)
  | submit (c : Call) (slot data : ℕ)
  | wait (c : Call) (slot n : ℕ)
  | collect (c : Call) (slot n : ℕ)
  | release (c : Call) (slot : ℕ) (n : Option ℕ) (ret : Option Errno)
  | returned (c : Call) (n : Option ℕ) (ret : Option Errno)
  deriving DecidableEq, Repr

/-- How far a run of `virtio_blk_done` is, with the slots in `completed`. -/
inductive Handler
  | idle
  | collecting (completed : List ℕ)
  | signalling (completed : List ℕ)
  deriving DecidableEq, Repr

/-- What the device did for a request: the header it read, how much it wrote, and the status. -/
structure Answer where
  header : Header
  written : ℕ
  status : ℕ
  deriving DecidableEq, Repr

/-- Failed assertions, and the panic about a status that there is not. -/
inductive Fault
  | noCapacity
  | notSubmitted
  | tooMany
  | queue
  | invalidStatus
  deriving DecidableEq, Repr

/-- The system: the queue with its device, the slots, the wire page, the lock, the callers and
the handlers; then a record: the submissions, the number of the one that each head was
published for, and the answers. -/
structure State where
  q : System
  slot : ℕ → Slot
  header : ℕ → Header
  status : ℕ → ℕ
  holder : Option ℕ
  task : ℕ → Pc
  handler : ℕ → Handler
  fault : Option Fault
  subs : List (ℕ × Call)
  number : ℕ → ℕ
  answers : List (ℕ × Answer)

/-- The result of a request; `none` is the panic. -/
def outcome (expected written status : ℕ) : Option (Option Errno) :=
  if written ≠ expected then some (some .eio)
  else
    match status with
    | 0 => some none
    | 1 => some (some .eio)
    | 2 => some (some .eopnotsupp)
    | _ => none

/-- `reserve_request`. -/
def reserveRequest (slot : ℕ → Slot) : Option ℕ :=
  (List.range blkSlots).find? fun i => (slot i).state = .free

/-- The steps of a caller. -/
inductive TaskOp
  | call (c : Call)
  | run
  /-- A call out of the driver succeeds, with a DMA address where there is one. -/
  | ok (data : ℕ)
  | fail (e : Errno)
  deriving DecidableEq, Repr

/-- What the device does. -/
inductive DeviceOp
  | fetch
  | complete (head written status : ℕ)
  | publish
  deriving DecidableEq, Repr

namespace State

def setTask (s : State) (t : ℕ) (pc : Pc) : State := { s with task := update s.task t pc }

def setSlot (s : State) (i : ℕ) (x : Slot) : State := { s with slot := update s.slot i x }

def setHandler (s : State) (h : ℕ) (x : Handler) : State :=
  { s with handler := update s.handler h x }

/-- The section of `submit_request` that hands the request to the device. -/
def submit (s : State) (base t : ℕ) (c : Call) (i data : ℕ) : State :=
  let s := s.setSlot i { s.slot i with state := .submitted }
  match vqAdd s.q.vq (c.bufs base i data) c.numOut i with
  | .error _ => { s with fault := some .noCapacity }
  | .ok _ => { s with
      q := s.q.add (c.bufs base i data) c.numOut i
      subs := s.subs ++ [(t, c)]
      number := update s.number s.q.vq.freeHead s.subs.length
      task := update s.task t (.wait c i s.subs.length) }

/-- One step of a caller. -/
def taskStep (s : State) (base t : ℕ) (op : TaskOp) : Option State :=
  match s.task t, op with
  | .idle, .call c => some (s.setTask t (.reserve c))
  | .returned _ _ _, .call c => some (s.setTask t (.reserve c))
  | .reserve c, .run =>
    if s.holder ≠ none then none
    else
      match reserveRequest s.slot with
      | none => some s
      | some i =>
        some ((s.setSlot i { s.slot i with state := .preparing }).setTask t (.mapPage c i))
  | .mapPage c i, .ok data => some (s.setTask t (.prepare c i data))
  | .mapPage c i, .fail e =>
    if c.length ≠ 0 then some (s.setTask t (.release c i none (some e))) else none
  | .prepare c i data, .run =>
    some ({ s.setSlot i { s.slot i with expectedWritten := c.expectedWritten } with
      header := update s.header (wireDma base i) c.header
      status := update s.status (statusDma base i) uint8Max }.setTask t
        (.deadline c i data))
  | .deadline c i data, .ok _ => some (s.setTask t (.submit c i data))
  | .deadline c i _, .fail e => some (s.setTask t (.release c i none (some e)))
  | .submit c i data, .run => if s.holder ≠ none then none else some (s.submit base t c i data)
  | .wait c i n, .run =>
    -- The completion is consumed; it is for good when the count is at its maximum.
    if (s.slot i).done = 0 then none
    else if (s.slot i).done ≠ uint32Max then
      some ((s.setSlot i { s.slot i with done := (s.slot i).done - 1 }).setTask t (.collect c i n))
    else some (s.setTask t (.collect c i n))
  | .collect c i n, .run => some (s.setTask t (.release c i (some n) (s.slot i).result))
  | .release c i n ret, .run =>
    if s.holder ≠ none then none
    else some ((s.setSlot i { s.slot i with state := .free }).setTask t (.returned c n ret))
  | _, _ => none

/-- The body of the loop of `virtio_blk_done` for the slot `i`. -/
def collect (s : State) (base h i written : ℕ) (completed : List ℕ) : State :=
  if (s.slot i).state ≠ .submitted then { s with fault := some .notSubmitted }
  else
    match outcome (s.slot i).expectedWritten written (s.status (statusDma base i)) with
    | none => { s with fault := some .invalidStatus }
    | some result =>
      if completed.length ≥ blkSlots then { s with fault := some .tooMany }
      else
        (s.setSlot i { s.slot i with result := result }).setHandler h
          (.collecting (completed ++ [i]))

/-- One step of a run of `virtio_blk_done`. -/
def handlerStep (s : State) (base h : ℕ) : Option State :=
  match s.handler h with
  | .idle =>
    if s.holder ≠ none then none
    else some ({ s with holder := some h }.setHandler h (.collecting []))
  | .collecting completed =>
    match vqGetBuf s.q.vq with
    | .error _ => some { s with fault := some .queue }
    | .ok (none, _) =>
      some ({ s with q := s.q.getBuf, holder := none }.setHandler h (.signalling completed))
    | .ok (some (i, written), _) =>
      some ({ s with q := s.q.getBuf }.collect base h i written completed)
  | .signalling [] => some (s.setHandler h .idle)
  | .signalling (i :: completed) =>
    -- `complete`
    let done := (s.slot i).done
    let slot := { s.slot i with done := if done ≠ uint32Max then done + 1 else done }
    some ((s.setSlot i slot).setHandler h (.signalling completed))

/-- One step of the device. It completes a chain by writing the status where the last
descriptor says; the answer is recorded under the number of the chain. -/
def deviceStep (s : State) : DeviceOp → Option State
  | .fetch => (Virtio.step s.q .fetch).map fun q => { s with q := q }
  | .publish => (Virtio.step s.q .publish).map fun q => { s with q := q }
  | .complete head written status =>
    (Virtio.step s.q (.complete head written)).bind fun q =>
      (walk s.q.vq.desc s.q.vq.num head 0).map fun last =>
        { s with
          q := q
          status := update s.status (s.q.vq.desc last.1).addr status
          answers := s.answers ++
            [(s.number head, ⟨s.header (s.q.vq.desc head).addr, written, status⟩)] }

end State

/-- What callers, handlers and the device do. -/
inductive Action
  | task (t : ℕ) (op : TaskOp)
  | handler (h : ℕ)
  | device (op : DeviceOp)
  deriving DecidableEq, Repr

/-- One step; after a failed assertion there is none. -/
def step (base : ℕ) (s : State) (a : Action) : Option State :=
  if s.fault ≠ none then none
  else
    match a with
    | .task t op => s.taskStep base t op
    | .handler h => s.handlerStep base h
    | .device op => s.deviceStep op

/-- The driver after `virtio_blk_probe`. -/
def boot : State where
  q := Virtio.boot blkQueueSize
  slot _ := ⟨.free, 0, 0, none⟩
  header _ := ⟨.read, 0⟩
  status _ := 0
  holder := none
  task _ := .idle
  handler _ := .idle
  fault := none
  subs := []
  number _ := 0
  answers := []

end Nuvix.VirtioBlk
