import Nuvix.Errno
import Nuvix.Lib.RingBuffer
import Nuvix.Lib.Transition

/-!
# Virtqueues: `drivers/virtio/virtqueue.c`

A queue of `num` descriptors is shared with a device. Free descriptors are linked through
`next` from `free_head`; `vq_add` takes the first ones of them for a request, fills them in
and publishes the first one in the `avail` ring; the device hands it back in the `used` ring,
and `vq_get_buf` returns the chain to the front of the free list. The field `next` is written
when a chain is returned and at no other time.

Both functions run under `vq->lock` and are one step each. The device takes published heads
in order and hands them back in any order; it makes what it has put into the `used` ring
visible whenever it likes. Indices are sixteen bits wide and wrap.
-/

namespace Nuvix.Virtio

open Function

/-- `VRING_DESC_F_NEXT`, `VRING_DESC_F_WRITE`. -/
def descNext : ℕ := 1
def descWrite : ℕ := 2

/-- The number of values of an index. -/
def idxRange : ℕ := 65536

/-- `struct vq_sg`. -/
structure Sg where
  addr : ℕ
  len : ℕ
  deriving DecidableEq, Repr

/-- `struct vring_desc`. -/
structure Desc where
  addr : ℕ
  len : ℕ
  flags : ℕ
  next : ℕ
  deriving DecidableEq, Repr

/-- `struct vring_used_elem`. -/
structure UsedElem where
  id : ℕ
  len : ℕ
  deriving DecidableEq, Repr

/-- `struct virtqueue` with its rings; a cookie is `none` where it is `NULL`. -/
structure Virtqueue where
  num : ℕ
  desc : ℕ → Desc
  availRing : ℕ → ℕ
  availRingIdx : ℕ
  usedRing : ℕ → UsedElem
  usedRingIdx : ℕ
  freeHead : ℕ
  numFree : ℕ
  availIdx : ℕ
  lastUsedIdx : ℕ
  cookies : ℕ → Option ℕ

/-- `virtqueue_create`, on memory that is zero. -/
def virtqueueCreate (num : ℕ) : Virtqueue where
  num := num
  desc i := ⟨0, 0, 0, if i < num then i + 1 else 0⟩
  availRing _ := 0
  availRingIdx := 0
  usedRing _ := ⟨0, 0⟩
  usedRingIdx := 0
  freeHead := 0
  numFree := num
  availIdx := 0
  lastUsedIdx := 0
  cookies _ := none

/-- The flags of descriptor `i` of `count`, of which the first `nOut` are read. -/
def sgFlags (nOut count i : ℕ) : ℕ :=
  (if i < nOut then 0 else descWrite) ||| (if i + 1 < count then descNext else 0)

/-- The loop of `vq_add` from entry `i` on: the descriptors, and the first one left. -/
def fill (nOut count : ℕ) : ℕ → List Sg → (ℕ → Desc) → ℕ → (ℕ → Desc) × ℕ
  | _, [], desc, next => (desc, next)
  | i, g :: sg, desc, next =>
    fill nOut count (i + 1) sg
      (update desc next ⟨g.addr, g.len, sgFlags nOut count i, (desc next).next⟩)
      (desc next).next

/-- `vq_add` with the entries `sg`, of which the first `nOut` are read by the device. -/
def vqAdd (vq : Virtqueue) (sg : List Sg) (nOut cookie : ℕ) : Except Errno Virtqueue :=
  let count := sg.length
  if count > vq.numFree then .error .enospc
  else
    let head := vq.freeHead
    let (desc, next) := fill nOut count 0 sg vq.desc head
    let availIdx := (vq.availIdx + 1) % idxRange
    .ok { vq with
      desc := desc
      freeHead := next
      numFree := vq.numFree - count
      cookies := update vq.cookies head (some cookie)
      availRing := update vq.availRing (vq.availIdx &&& (vq.num - 1)) head
      availRingIdx := availIdx
      availIdx := availIdx }

/-- The assertions of `vq_get_buf`, and a walk along a chain that does not end. -/
inductive Fault
  | overrun
  | invalidHead
  | endlessChain
  deriving DecidableEq, Repr

/-- The loop of `vq_get_buf` along a chain: its last descriptor and the number of free
descriptors after it. A walk of more steps than there are descriptors never ends. -/
def walk (desc : ℕ → Desc) : ℕ → ℕ → ℕ → Option (ℕ × ℕ)
  | 0, _, _ => none
  | fuel + 1, tail, numFree =>
    if (desc tail).flags &&& descNext ≠ 0 then walk desc fuel (desc tail).next (numFree + 1)
    else some (tail, numFree + 1)

/-- `(uint16_t)(a - b)`. -/
def idxSub (a b : ℕ) : ℕ := RingBuffer.sub idxRange a b

/-- `vq_get_buf`: a cookie and a length, if the device has handed something back. -/
def vqGetBuf (vq : Virtqueue) : Except Fault (Option (ℕ × ℕ) × Virtqueue) :=
  let pending := idxSub vq.usedRingIdx vq.lastUsedIdx
  if pending = 0 then .ok (none, vq)
  else if pending > idxSub vq.availIdx vq.lastUsedIdx then .error .overrun
  else
    let elem := vq.usedRing (vq.lastUsedIdx &&& (vq.num - 1))
    let head := elem.id
    if head ≥ vq.num then .error .invalidHead
    else
      match vq.cookies head with
      | none => .error .invalidHead
      | some cookie =>
        match walk vq.desc vq.num head vq.numFree with
        | none => .error .endlessChain
        | some (tail, numFree) =>
          .ok (some (cookie, elem.len), { vq with
            cookies := update vq.cookies head none
            numFree := numFree
            desc := update vq.desc tail { vq.desc tail with next := vq.freeHead }
            freeHead := head
            lastUsedIdx := (vq.lastUsedIdx + 1) % idxRange })

/-! ### The queue and its device -/

/-- A request in flight: its entries, its cookie, and the descriptors that carry it. -/
structure Request where
  sg : List Sg
  nOut : ℕ
  cookie : ℕ
  head : ℕ
  rest : List ℕ
  deriving DecidableEq, Repr

/-- The descriptors of a request. -/
def Request.chain (r : Request) : List ℕ := r.head :: r.rest

/-- The queue, the device (its indices and the heads it works on), the first assertion that
failed, and a record: the requests in flight and the cookies added and returned so far. -/
structure System where
  vq : Virtqueue
  devAvail : ℕ
  devHeads : List ℕ
  devUsed : ℕ
  fault : Option Fault
  flight : List Request
  added : List ℕ
  returned : List ℕ

/-- What the driver and the device do. -/
inductive Action
  | add (sg : List Sg) (nOut cookie : ℕ)
  | getBuf
  | fetch
  | complete (head len : ℕ)
  | publish
  deriving DecidableEq, Repr

/-- The descriptors that follow each other from `a` on. -/
def follow (desc : ℕ → Desc) : ℕ → ℕ → List ℕ
  | 0, _ => []
  | n + 1, a => a :: follow desc n (desc a).next

/-- `vq_add`, recorded. -/
def System.add (s : System) (sg : List Sg) (nOut cookie : ℕ) : System :=
  match vqAdd s.vq sg nOut cookie with
  | .error _ => s
  | .ok vq => { s with
      vq := vq
      flight := ⟨sg, nOut, cookie, s.vq.freeHead,
        follow s.vq.desc (sg.length - 1) (s.vq.desc s.vq.freeHead).next⟩ :: s.flight
      added := s.added ++ [cookie] }

/-- `vq_get_buf`, recorded. -/
def System.getBuf (s : System) : System :=
  match vqGetBuf s.vq with
  | .error f => { s with fault := some f }
  | .ok (none, vq) => { s with vq := vq }
  | .ok (some (cookie, _), vq) => { s with
      vq := vq
      flight := s.flight.eraseP fun r => r.head = vq.freeHead
      returned := s.returned ++ [cookie] }

/-- One step. The device looks at `avail->idx` and takes the next head; it completes a head
it has taken; it makes `used->idx` known. -/
def step (s : System) (a : Action) : Option System :=
  if s.fault ≠ none then none
  else
    match a with
    | .add sg nOut cookie =>
      if sg ≠ [] ∧ nOut ≤ sg.length then some (s.add sg nOut cookie) else none
    | .getBuf => some s.getBuf
    | .fetch =>
      if s.devAvail ≠ s.vq.availRingIdx then
        some { s with
          devHeads := s.vq.availRing (s.devAvail % s.vq.num) :: s.devHeads
          devAvail := (s.devAvail + 1) % idxRange }
      else none
    | .complete head len =>
      if head ∈ s.devHeads then
        some { s with
          vq := { s.vq with
            usedRing := update s.vq.usedRing (s.devUsed % s.vq.num) ⟨head, len⟩ }
          devHeads := s.devHeads.erase head
          devUsed := (s.devUsed + 1) % idxRange }
      else none
    | .publish => some { s with vq := { s.vq with usedRingIdx := s.devUsed } }

/-- A new queue, with a device that has not seen it yet. -/
def boot (num : ℕ) : System where
  vq := virtqueueCreate num
  devAvail := 0
  devHeads := []
  devUsed := 0
  fault := none
  flight := []
  added := []
  returned := []

end Nuvix.Virtio
