import Nuvix.Errno
import Nuvix.Lib.Transition

/-!
# The page cache: `mm/mapping.c`

A cached page is hashed under its mapping and index; a page with nothing to write
and no user is on the `lru` list, a page with something to write on the `dirty`
list. `cache.mutex` protects the table, the lists, the counts and the states of
the pages, but it is dropped between the sections of an operation: while a page is
read or written only its own mutex is held. Each section is one step here, and so
is each acquisition or release of another mutex and each call of a backend.

Tasks are numbered, and a `struct cache_page` is named by the order of its
allocation, so that a name is never used twice. Reference counts are natural
numbers: the references to one page stay far below `REFCOUNT_MAX`. The hash table
is the list of the hashed pages; which of several matching pages
`mapping_purge` meets first depends on the addresses, so the choice is a part of
the step. The references `mapping_hold` takes on the host object are left out.
-/

namespace Nuvix.Mapping

open Function

/-- `MAPPING_CACHE_PAGES`. -/
def cachePages : ℕ := 256

/-- `cp->state`: `CACHE_PAGE_DIRTY` and `CACHE_PAGE_WRITEBACK`. -/
structure PageState where
  dirty : Bool := false
  writeback : Bool := false
  deriving DecidableEq, Repr

/-- `cp->state == 0`. -/
def PageState.clean : PageState := {}

/-- `struct cache_page`; `holder` is the task inside `cp->mutex`. -/
structure CachePage (N : ℕ) where
  mapping : ℕ
  index : ℕ
  refs : ℕ
  state : PageState
  error : ℤ
  holder : Option (Fin N)
  deriving DecidableEq

/-- A page that has not been allocated yet. -/
def CachePage.blank (N : ℕ) : CachePage N := ⟨0, 0, 0, .clean, 0, none⟩

/-- What the caller does when `mapping_writeback` and then `mapping_put` have
returned: `mapping_flush` with its result so far, or the flusher, each with the
pages still to go; the next turn of `mapping_purge`; or the return to the client. -/
inductive Cont
  | client
  | flush (m : ℕ) (ret : ℤ) (rest : List ℕ)
  | flusher (m : ℕ) (rest : List ℕ)
  | purge (m start stop : ℕ)
  deriving DecidableEq, Repr

/-- Where a task stands. -/
inductive Pc
  | idle
  /-- In `mapping_get`, after the first lookup found nothing. -/
  | getAlloc (m index : ℕ)
  /-- With a new page, before the second lookup. -/
  | getInsert (c : ℕ)
  /-- Inside `read_page`. -/
  | getRead (c : ℕ)
  /-- After a failed `read_page`, before the section that unhashes the page. -/
  | getFail (c : ℕ)
  | getUnlock (c : ℕ)
  /-- At the label `ready`, before and inside `cp->mutex`. -/
  | readyLock (c : ℕ)
  | readyUnlock (c : ℕ)
  /-- At the start of `mapping_put`. -/
  | put (c : ℕ) (k : Cont)
  /-- In `mapping_writeback`: before `cp->mutex`, before the first section, inside
  `write_page`, before the second section, before the release of `cp->mutex`. -/
  | wbLock (c : ℕ) (k : Cont)
  | wbTest (c : ℕ) (k : Cont)
  | wbWrite (c : ℕ) (k : Cont)
  | wbDone (c : ℕ) (ret : ℤ) (k : Cont)
  | wbUnlock (c : ℕ) (ret : ℤ) (k : Cont)
  /-- In `mapping_flush`: before the allocation, the collection, the sample of
  `m_error`, and at the head of the loop. -/
  | flushAlloc (m : ℕ)
  | flushCollect (m : ℕ)
  | flushSample (m : ℕ) (pages : List ℕ)
  | flushNext (m : ℕ) (ret : ℤ) (pages : List ℕ)
  /-- In `mapping_flusher`: before the collection, at the head of the loop, and with
  `m->mutex` still held after `mapping_writeback`. -/
  | flusherCollect
  | flusherNext (pages : List ℕ)
  | flusherUnlock (c m : ℕ) (rest : List ℕ)
  /-- In `mapping_purge`: before the search, before `victim->mutex`, before the
  section that removes the victim, before the release. -/
  | purgeSelect (m start stop : ℕ)
  | purgeLock (v m start stop : ℕ)
  | purgeRemove (v m start stop : ℕ)
  | purgeUnlock (v m start stop : ℕ)
  deriving DecidableEq, Repr

/-- A task: the references its code above this file holds, apart from one that it
has passed to the operation it is in, and where it stands. -/
structure Thread where
  held : List ℕ
  pc : Pc
  deriving DecidableEq, Repr

/-- The assertions of `mm/mapping.c` that can stop the kernel. -/
inductive Panic
  | busyVictim
  | dirtyDetached
  | putWithoutRef
  | putCacheRef
  | purgeWriteback
  deriving DecidableEq, Repr

/-- The calls on each page: what `read_page` has returned, and how often `cache_page_destroy` was
called. They are recorded and never looked at. -/
structure Calls where
  read : ℕ → Option ℤ
  destroyed : ℕ → ℕ

/-- The state under `cache.mutex`, and `m_error` of every mapping. -/
structure Cache (N : ℕ) where
  page : ℕ → CachePage N
  next : ℕ
  table : List ℕ
  lru : List ℕ
  dirty : List ℕ
  nr : ℕ
  mError : ℕ → ℤ
  calls : Calls

/-- The whole state: the cache, the owner of every `m->mutex`, the tasks. -/
structure State (N : ℕ) where
  cache : Cache N
  owner : ℕ → Option (Fin N)
  task : Fin N → Thread
  panic : Option Panic

variable {N : ℕ}

/-! ### Sections of the cache -/

namespace Cache

def setPage (k : Cache N) (c : ℕ) (pg : CachePage N) : Cache N :=
  { k with page := update k.page c pg }

def setRefs (k : Cache N) (c refs : ℕ) : Cache N :=
  k.setPage c { k.page c with refs := refs }

def setState (k : Cache N) (c : ℕ) (st : PageState) : Cache N :=
  k.setPage c { k.page c with state := st }

def setHolder (k : Cache N) (c : ℕ) (holder : Option (Fin N)) : Cache N :=
  k.setPage c { k.page c with holder := holder }

/-- `mapping_find`. -/
def find (k : Cache N) (m index : ℕ) : Option ℕ :=
  k.table.find? fun c => (k.page c).mapping == m && (k.page c).index == index

/-- `mapping_link`. -/
def link (k : Cache N) (c : ℕ) : Cache N :=
  let lru := k.lru.erase c
  let dirty := k.dirty.erase c
  if c ∈ k.table then
    if (k.page c).state ≠ .clean then { k with lru := lru, dirty := dirty ++ [c] }
    else if (k.page c).refs = 1 then { k with lru := lru ++ [c], dirty := dirty }
    else { k with lru := lru, dirty := dirty }
  else { k with lru := lru, dirty := dirty }

/-- `refcount_inc` and `mapping_link`, the way a lookup takes a page. -/
def hold (k : Cache N) (c : ℕ) : Cache N :=
  (k.setRefs c ((k.page c).refs + 1)).link c

/-- `read_page` has returned. -/
def setRead (k : Cache N) (c : ℕ) (ret : ℤ) : Cache N :=
  { k.setPage c { k.page c with error := ret } with
    calls.read := update k.calls.read c (some ret) }

/-- `cache_page_destroy`. The name of the page is not used again, so it keeps the
mapping and the index it stood for. -/
def destroy (k : Cache N) (c : ℕ) : Cache N :=
  { k.setPage c ⟨(k.page c).mapping, (k.page c).index, 0, .clean, 0, none⟩ with
    calls.destroyed := update k.calls.destroyed c (k.calls.destroyed c + 1) }

/-- `hash_del`, `cache.nr--` and `refcount_dec`, which leaves a last reference. -/
def unhash (k : Cache N) (c : ℕ) : Cache N :=
  let refs := (k.page c).refs
  { k.setRefs c (if refs ≤ 1 then refs else refs - 1) with
    table := k.table.erase c
    nr := k.nr - 1 }

/-- What `mapping_make_room` can come to. -/
inductive Room (N : ℕ)
  | panic
  | full
  | room (k : Cache N)

/-- `mapping_make_room`. -/
def makeRoom (k : Cache N) : Room N :=
  if k.nr < cachePages then .room k
  else
    match k.lru with
    | [] => .full
    | victim :: _ =>
      let pg := k.page victim
      if pg.refs ≠ 1 ∨ pg.state ≠ .clean then .panic
      else
        -- the last reference goes, so the page is destroyed
        .room (destroy { k with
          lru := k.lru.erase victim
          table := k.table.erase victim
          nr := k.nr - 1 } victim)

/-- The allocation in `mapping_get`, with the mutex of the new page taken. -/
def create (k : Cache N) (t : Fin N) (m index : ℕ) : Cache N :=
  { k.setPage k.next ⟨m, index, 1, .clean, 0, some t⟩ with next := k.next + 1 }

/-- The end of the second section of `mapping_get`. -/
def insert (k : Cache N) (c : ℕ) : Cache N :=
  { k.setRefs c ((k.page c).refs + 1) with table := c :: k.table, nr := k.nr + 1 }

/-- `mapping_collect`: the dirty pages of one mapping, or of all. -/
def collect (k : Cache N) (m : Option ℕ) : List ℕ :=
  k.dirty.filter fun c => m == none || m == some (k.page c).mapping

/-- The references `mapping_collect` takes. -/
def holdAll (k : Cache N) (pages : List ℕ) : Cache N :=
  { k with page := fun c => { k.page c with refs := (k.page c).refs + pages.count c } }

/-- The second section of `mapping_writeback`. -/
def finish (k : Cache N) (c : ℕ) (ret : ℤ) : Cache N :=
  let m := (k.page c).mapping
  let refs := (k.page c).refs
  let k := if ret ≠ 0 then { k with mError := update k.mError m ret } else k
  ((k.setState c .clean).setRefs c (if refs ≤ 1 then refs else refs - 1)).link c

/-- The section of `mapping_purge` on a hashed victim. -/
def remove (k : Cache N) (v : ℕ) : Cache N :=
  let k := (k.setState v .clean).unhash v
  { k with lru := k.lru.erase v, dirty := k.dirty.erase v }

end Cache

/-! ### Steps -/

/-- What a task does in one step. Client calls name their arguments, backend calls
their result, and `run` is the next step inside an operation. -/
inductive Action
  | lockMapping (m : ℕ)
  | unlockMapping (m : ℕ)
  | get (m index : ℕ)
  | put (c : ℕ)
  | lock (c : ℕ)
  | unlock (c : ℕ)
  | dirty (c : ℕ)
  | writeback (c : ℕ)
  | flush (m : ℕ)
  | flusher
  | purge (m start stop : ℕ)
  | alloc (ok : Bool)
  | readPage (ret : ℤ)
  | writePage (c : ℕ) (ret : ℤ)
  | select (victim : Option ℕ)
  | remove (c : ℕ)
  | flushReturn (ret : ℤ)
  | run
  deriving DecidableEq, Repr

namespace State

def setPc (s : State N) (t : Fin N) (pc : Pc) : State N :=
  { s with task := update s.task t ⟨(s.task t).held, pc⟩ }

def setThread (s : State N) (t : Fin N) (th : Thread) : State N :=
  { s with task := update s.task t th }

def setCache (s : State N) (k : Cache N) : State N := { s with cache := k }

def setOwner (s : State N) (m : ℕ) (o : Option (Fin N)) : State N :=
  { s with owner := update s.owner m o }

/-- A failed assertion. -/
def fail (s : State N) (p : Panic) : State N := { s with panic := some p }

end State

/-- Where a task goes when `mapping_put` has returned. -/
def Cont.afterPut : Cont → Pc
  | .client => .idle
  | .flush m ret rest => .flushNext m ret rest
  | .flusher _ rest => .flusherNext rest
  | .purge m start stop => .purgeSelect m start stop

/-- A task whose `mapping_writeback(cp)` has returned `err`; a client has its
reference back. -/
def Cont.afterWriteback (c : ℕ) (err : ℤ) (held : List ℕ) : Cont → Thread
  | .client => ⟨c :: held, .idle⟩
  | .flush m ret rest => ⟨held, .put c (.flush m (if err ≠ 0 ∧ ret = 0 then err else ret) rest)⟩
  | .flusher m rest => ⟨held, .flusherUnlock c m rest⟩
  | .purge m start stop => ⟨held, .put c (.purge m start stop)⟩

section

variable (hasMutex : ℕ → Bool)

/-- `mapping_assert_locked`. -/
def AssertLocked (s : State N) (t : Fin N) (m : ℕ) : Prop :=
  hasMutex m = true → s.owner m = some t

instance (s : State N) (t : Fin N) (m : ℕ) : Decidable (AssertLocked hasMutex s t m) :=
  inferInstanceAs (Decidable (_ → _))

/-- The start of an operation by a task that is outside `mm/mapping.c`. -/
def start (s : State N) (t : Fin N) : Action → Option (State N)
  | .lockMapping m =>
    if hasMutex m ∧ s.owner m = none then some (s.setOwner m (some t)) else none
  | .unlockMapping m => if s.owner m = some t then some (s.setOwner m none) else none
  | .get m index =>
    if AssertLocked hasMutex s t m then
      match s.cache.find m index with
      | some c => some ((s.setCache (s.cache.hold c)).setPc t (.readyLock c))
      | none => some (s.setPc t (.getAlloc m index))
    else none
  | .put c =>
    if c ∈ (s.task t).held then
      some (s.setThread t ⟨(s.task t).held.erase c, .put c .client⟩)
    else none
  | .lock c =>
    if c ∈ (s.task t).held ∧ (s.cache.page c).holder = none then
      some (s.setCache (s.cache.setHolder c (some t)))
    else none
  | .unlock c =>
    if c ∈ (s.task t).held ∧ (s.cache.page c).holder = some t then
      some (s.setCache (s.cache.setHolder c none))
    else none
  | .dirty c =>
    if c ∈ (s.task t).held ∧ (s.cache.page c).holder = some t ∧
        AssertLocked hasMutex s t (s.cache.page c).mapping then
      if c ∈ s.cache.table then
        let st := (s.cache.page c).state
        some (s.setCache ((s.cache.setState c ⟨true, st.writeback⟩).link c))
      else some (s.fail .dirtyDetached)
    else none
  | .writeback c =>
    if c ∈ (s.task t).held ∧ AssertLocked hasMutex s t (s.cache.page c).mapping then
      some (s.setThread t ⟨(s.task t).held.erase c, .wbLock c .client⟩)
    else none
  | .flush m =>
    if AssertLocked hasMutex s t m then some (s.setPc t (.flushAlloc m)) else none
  | .flusher => if s.cache.dirty ≠ [] then some (s.setPc t .flusherCollect) else none
  | .purge m start stop =>
    if AssertLocked hasMutex s t m then some (s.setPc t (.purgeSelect m start stop)) else none
  | _ => none

/-- The next step inside `mapping_get`. -/
def stepGet (s : State N) (t : Fin N) : Pc → Action → Option (State N)
  | .getAlloc m index, .alloc ok =>
    if ok then some ((s.setCache (s.cache.create t m index)).setPc t (.getInsert s.cache.next))
    else some (s.setPc t .idle)
  | .getInsert c, .run =>
    let pg := s.cache.page c
    match s.cache.find pg.mapping pg.index with
    | some cached =>
      some ((s.setCache ((s.cache.hold cached).destroy c)).setPc t (.readyLock cached))
    | none =>
      match s.cache.makeRoom with
      | .panic => some (s.fail .busyVictim)
      | .full => some ((s.setCache (s.cache.destroy c)).setPc t .idle)
      | .room k => some ((s.setCache (k.insert c)).setPc t (.getRead c))
  | .getRead c, .readPage ret =>
    some ((s.setCache (s.cache.setRead c ret)).setPc t
      (if ret = 0 then .getUnlock c else .getFail c))
  | .getFail c, .run => some ((s.setCache (s.cache.unhash c)).setPc t (.getUnlock c))
  | .getUnlock c, .run =>
    let s' := s.setCache (s.cache.setHolder c none)
    if (s.cache.page c).error = 0 then some (s'.setThread t ⟨c :: (s.task t).held, .idle⟩)
    else some (s'.setPc t (.put c .client))
  | .readyLock c, .run =>
    if (s.cache.page c).holder = none then
      some ((s.setCache (s.cache.setHolder c (some t))).setPc t (.readyUnlock c))
    else none
  | .readyUnlock c, .run =>
    let s' := s.setCache (s.cache.setHolder c none)
    if (s.cache.page c).error = 0 then some (s'.setThread t ⟨c :: (s.task t).held, .idle⟩)
    else some (s'.setPc t (.put c .client))
  | _, _ => none

/-- `mapping_put`. -/
def stepPut (s : State N) (t : Fin N) : Pc → Action → Option (State N)
  | .put c k, .run =>
    let refs := (s.cache.page c).refs
    if refs = 0 then some (s.fail .putWithoutRef)
    else if refs = 1 then
      if c ∈ s.cache.table then some (s.fail .putCacheRef)
      else some ((s.setCache (s.cache.destroy c)).setPc t k.afterPut)
    else some ((s.setCache ((s.cache.setRefs c (refs - 1)).link c)).setPc t k.afterPut)
  | _, _ => none

/-- The next step inside `mapping_writeback`. -/
def stepWriteback (s : State N) (t : Fin N) : Pc → Action → Option (State N)
  | .wbLock c k, .run =>
    if (s.cache.page c).holder = none then
      some ((s.setCache (s.cache.setHolder c (some t))).setPc t (.wbTest c k))
    else none
  | .wbTest c k, .run =>
    let pg := s.cache.page c
    if pg.state.dirty = false then some (s.setPc t (.wbUnlock c 0 k))
    else some ((s.setCache
      (((s.cache.setState c ⟨false, true⟩).setRefs c (pg.refs + 1)).link c)).setPc
      t (.wbWrite c k))
  | .wbWrite c k, .writePage c' ret =>
    if c' = c then some (s.setPc t (.wbDone c ret k)) else none
  | .wbDone c ret k, .run =>
    some ((s.setCache (s.cache.finish c ret)).setPc t (.wbUnlock c ret k))
  | .wbUnlock c ret k, .run =>
    some ((s.setCache (s.cache.setHolder c none)).setThread t
      (k.afterWriteback c ret (s.task t).held))
  | _, _ => none

/-- The next step of the loops of `mapping_flush` and `mapping_flusher`. -/
def stepFlush (s : State N) (t : Fin N) : Pc → Action → Option (State N)
  | .flushAlloc m, .alloc ok =>
    if ok then some (s.setPc t (.flushCollect m))
    else some (s.setPc t (.flushNext m (-Errno.enomem.code) []))
  | .flushCollect m, .run =>
    let pages := s.cache.collect (some m)
    some ((s.setCache (s.cache.holdAll pages)).setPc t (.flushSample m pages))
  | .flushSample m pages, .run => some (s.setPc t (.flushNext m (s.cache.mError m) pages))
  | .flushNext m ret (c :: rest), .run => some (s.setPc t (.wbLock c (.flush m ret rest)))
  | .flushNext _ ret [], .flushReturn ret' => if ret' = ret then some (s.setPc t .idle) else none
  | .flusherCollect, .run =>
    let pages := s.cache.collect none
    some ((s.setCache (s.cache.holdAll pages)).setPc t (.flusherNext pages))
  | .flusherNext (c :: rest), .run =>
    let m := (s.cache.page c).mapping
    if hasMutex m then
      if s.owner m = none then
        some ((s.setOwner m (some t)).setPc t (.wbLock c (.flusher m rest)))
      else none
    else some (s.setPc t (.wbLock c (.flusher m rest)))
  | .flusherNext [], .run => some (s.setPc t .idle)
  | .flusherUnlock c m rest, .run =>
    if hasMutex m then some ((s.setOwner m none).setPc t (.put c (.flusher m rest)))
    else some (s.setPc t (.put c (.flusher m rest)))
  | _, _ => none

/-- A page `mapping_purge` looks for. -/
def Purges (s : State N) (m start stop c : ℕ) : Prop :=
  c ∈ s.cache.table ∧ (s.cache.page c).mapping = m ∧ start ≤ (s.cache.page c).index ∧
    (s.cache.page c).index < stop

instance (s : State N) (m start stop c : ℕ) : Decidable (Purges s m start stop c) :=
  inferInstanceAs (Decidable (_ ∧ _))

/-- The next step inside `mapping_purge`. -/
def stepPurge (s : State N) (t : Fin N) : Pc → Action → Option (State N)
  | .purgeSelect m start stop, .select (some v) =>
    if Purges s m start stop v then
      some ((s.setCache (s.cache.setRefs v ((s.cache.page v).refs + 1))).setPc t
        (.purgeLock v m start stop))
    else none
  | .purgeSelect m start stop, .select none =>
    if ∀ c ∈ s.cache.table, ¬ Purges s m start stop c then some (s.setPc t .idle) else none
  | .purgeLock v m start stop, .run =>
    if (s.cache.page v).holder = none then
      some ((s.setCache (s.cache.setHolder v (some t))).setPc t (.purgeRemove v m start stop))
    else none
  | .purgeRemove v m start stop, .remove v' =>
    if v' = v ∧ v ∈ s.cache.table then
      if (s.cache.page v).state.writeback then some (s.fail .purgeWriteback)
      else some ((s.setCache (s.cache.remove v)).setPc t (.purgeUnlock v m start stop))
    else none
  | .purgeRemove v m start stop, .run =>
    if v ∈ s.cache.table then none else some (s.setPc t (.purgeUnlock v m start stop))
  | .purgeUnlock v m start stop, .run =>
    some ((s.setCache (s.cache.setHolder v none)).setPc t (.put v (.purge m start stop)))
  | _, _ => none

/-- One step of task `t`. Nothing happens after a failed assertion. -/
def step (s : State N) (a : Fin N × Action) : Option (State N) :=
  let t := a.1
  if s.panic ≠ none then none
  else
    match (s.task t).pc with
    | .idle => start hasMutex s t a.2
    | .getAlloc .. | .getInsert .. | .getRead .. | .getFail .. | .getUnlock .. | .readyLock ..
    | .readyUnlock .. => stepGet s t (s.task t).pc a.2
    | .put .. => stepPut s t (s.task t).pc a.2
    | .wbLock .. | .wbTest .. | .wbWrite .. | .wbDone .. | .wbUnlock .. =>
      stepWriteback s t (s.task t).pc a.2
    | .flushAlloc .. | .flushCollect .. | .flushSample .. | .flushNext .. | .flusherCollect
    | .flusherNext .. | .flusherUnlock .. => stepFlush hasMutex s t (s.task t).pc a.2
    | .purgeSelect .. | .purgeLock .. | .purgeRemove .. | .purgeUnlock .. =>
      stepPurge s t (s.task t).pc a.2

end

/-- `mapping_init`: an empty cache, and all tasks outside `mm/mapping.c`. -/
def boot (N : ℕ) : State N where
  cache := ⟨fun _ => CachePage.blank N, 0, [], [], [], 0, fun _ => 0, ⟨fun _ => none, fun _ => 0⟩⟩
  owner _ := none
  task _ := ⟨[], .idle⟩
  panic := none

end Nuvix.Mapping
