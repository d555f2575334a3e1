import Nuvix.Lib.Transition

/-!
# The inode cache: `fs/vfs/inode.c` and `ext2_iget`

An inode in use is hashed under its file system and number. One that is being read is
`I_NEW`, one that is being evicted is `I_FREEING`, and a lookup that meets either sleeps on
`icache_wait` and starts over. `icache_lock` protects the table, the states and the drop of a
reference; it is free while an inode is read or evicted and while a lookup sleeps.

A section of `icache_lock` is one step, but a section that ends with `wake_up_all` is two,
with the lock held in between, so that a waker can be pending. A task in `sched_park` goes on
when it is not asleep; nobody but `wake_up_all` wakes a task in an uninterruptible sleep.
Inodes are named by the order of their allocation, and a name is not used twice. Reference
counts are natural numbers: they stay far below `REFCOUNT_MAX`. The number of an inode is
chosen with its allocation; it is not looked at before the inode is hashed.
-/

namespace Nuvix.Icache

open Function

/-- `i_state`: zero, `I_NEW`, `I_FREEING`. -/
inductive IState
  | ready
  | new
  | freeing
  deriving DecidableEq, Repr

/-- `struct inode`; an inode of a pipe or a terminal has no `i_sb`. -/
structure Inode where
  sb : Option ℕ
  ino : ℕ
  count : ℕ
  state : IState
  deriving DecidableEq, Repr

/-- The functions with a lookup loop. `icache_find` is called for itself or by `ext2_iget`,
`icache_insert` by `ext2_iget`, `icache_inserts` by `ext2_alloc_inode`. -/
inductive Loop
  | find (sb ino : ℕ) (iget : Bool)
  | insert (c : ℕ)
  | inserts (c : ℕ)
  deriving DecidableEq, Repr

/-- Where a task stands. `iput` goes on with the inode that `icache_insert` has found. -/
inductive Pc
  | idle
  /-- Before `icache_lock`, in `sched_park`, and before `finish_wait_locked`. -/
  | lookup (l : Loop)
  | parked (l : Loop)
  | unparked (l : Loop)
  /-- In `ext2_iget`: before `i_alloc`; after `icache_insert`, which has returned the inode
  given to it or another one; in `ext2_read_inode`. -/
  | igetAlloc (sb ino : ℕ)
  | check (c : ℕ) (own : Bool)
  | load (c : ℕ)
  /-- In `icache_ready` and `icache_abort`: before the section and before `wake_up_all`. -/
  | ready (c : ℕ)
  | readyWake (c : ℕ)
  | abort (c : ℕ)
  | abortWake (c : ℕ)
  /-- In `ext2_alloc_inode`: before `i_alloc`, and before `icache_inserts`. -/
  | newAlloc (sb ino : ℕ)
  | newInode (c : ℕ)
  /-- In `iput`: before the first section, `evict_inode`, the second section, its
  `wake_up_all`, and `destroy_inode`. -/
  | put (c : ℕ) (k : Option ℕ)
  | evict (c : ℕ) (k : Option ℕ)
  | unhash (c : ℕ) (k : Option ℕ)
  | unhashWake (c : ℕ) (k : Option ℕ)
  | destroy (c : ℕ) (k : Option ℕ)
  deriving DecidableEq, Repr

/-- A task: the references its code above this file holds, and where it stands. -/
structure Thread where
  held : List ℕ
  pc : Pc
  deriving DecidableEq, Repr

/-- The whole state. `lock` is the holder of `icache_lock` before a `wake_up_all`; `evicts`
and `destroys` count the calls of `evict_inode` and `destroy_inode` and are never read. -/
structure State (N : ℕ) where
  inode : ℕ → Inode
  next : ℕ
  table : List ℕ
  lock : Option (Fin N)
  waiters : List (Fin N)
  asleep : Fin N → Bool
  task : Fin N → Thread
  evicts : ℕ → ℕ
  destroys : ℕ → ℕ

variable {N : ℕ}

namespace State

def setInode (s : State N) (c : ℕ) (i : Inode) : State N :=
  { s with inode := update s.inode c i }

def setPc (s : State N) (t : Fin N) (pc : Pc) : State N :=
  { s with task := update s.task t ⟨(s.task t).held, pc⟩ }

/-- A function returns an inode to the code above. -/
def give (s : State N) (t : Fin N) (c : ℕ) : State N :=
  { s with task := update s.task t ⟨c :: (s.task t).held, .idle⟩ }

def setCount (s : State N) (c n : ℕ) : State N := s.setInode c { s.inode c with count := n }

def setState (s : State N) (c : ℕ) (st : IState) : State N :=
  s.setInode c { s.inode c with state := st }

/-- `ihold`. -/
def ihold (s : State N) (c : ℕ) : State N := s.setCount c ((s.inode c).count + 1)

/-- `i_alloc`. -/
def iAlloc (s : State N) (sb : Option ℕ) (ino : ℕ) : State N :=
  { s.setInode s.next ⟨sb, ino, 1, .ready⟩ with next := s.next + 1 }

/-- `hash_add`. -/
def hash (s : State N) (c : ℕ) : State N := { s with table := c :: s.table }

/-- `hash_del`, in a section that goes on with `wake_up_all`. -/
def unhash (s : State N) (t : Fin N) (c : ℕ) : State N :=
  { s with table := s.table.erase c, lock := some t }

/-- `wake_up_all`, and the end of the section. -/
def wakeAll (s : State N) : State N :=
  { s with asleep := fun t => if t ∈ s.waiters then false else s.asleep t, lock := none }

/-- `icache_find_locked`. -/
def findLocked (s : State N) (sb : Option ℕ) (ino : ℕ) : Option ℕ :=
  s.table.find? fun c => (s.inode c).sb == sb && (s.inode c).ino == ino

/-- The first half of `icache_wait_locked`. -/
def park (s : State N) (t : Fin N) (l : Loop) : State N :=
  { s with
    waiters := s.waiters ++ [t]
    asleep := update s.asleep t true }.setPc t (.parked l)

/-- `finish_wait_locked`, before the lock is taken again. -/
def finishWait (s : State N) (t : Fin N) (l : Loop) : State N :=
  { s with
    waiters := s.waiters.erase t
    asleep := update s.asleep t false }.setPc t (.lookup l)

end State

/-- Where a task goes when `iput` has returned. -/
def afterPut : Option ℕ → Pc
  | none => .idle
  | some n => .check n false

/-- What a lookup looks for. -/
def Loop.key (s : State N) : Loop → Option ℕ × ℕ
  | .find sb ino _ => (some sb, ino)
  | .insert c | .inserts c => ((s.inode c).sb, (s.inode c).ino)

/-- The section of a lookup. -/
def lookup (s : State N) (t : Fin N) (l : Loop) : State N :=
  let node := s.findLocked (l.key s).1 (l.key s).2
  match l with
  | .find sb ino iget =>
    match node with
    | none => s.setPc t (if iget then .igetAlloc sb ino else .idle)
    | some n => if (s.inode n).state = .ready then (s.ihold n).give t n else s.park t l
  | .insert c =>
    match node with
    | none => ((s.setState c .new).hash c).setPc t (.check c true)
    | some n =>
      if (s.inode n).state = .ready then (s.ihold n).setPc t (.put c (some n)) else s.park t l
  | .inserts c =>
    match node with
    | none => (s.hash c).give t c
    | some n =>
      -- `-EUCLEAN`, and `ext2_alloc_inode` drops the inode
      if (s.inode n).state ≠ .freeing then s.setPc t (.put c none) else s.park t l

/-- The first section of `iput`. -/
def dropRef (s : State N) (t : Fin N) (c : ℕ) (k : Option ℕ) : State N :=
  let n := (s.inode c).count - 1
  let s' := s.setCount c n
  if n ≠ 0 then s'.setPc t (afterPut k)
  else if c ∈ s.table then (s'.setState c .freeing).setPc t (.evict c k)
  else s'.setPc t (.destroy c k)

/-- What a task does in one step. Client calls name their arguments, `result` is the
outcome of an allocation or of the file system, and `run` is the next step. -/
inductive Action
  | find (sb ino : ℕ)
  | iget (sb ino : ℕ)
  | allocInode (sb ino : ℕ)
  | anonymous
  | hold (c : ℕ)
  | put (c : ℕ)
  | result (ok : Bool)
  | run
  deriving DecidableEq, Repr

section

variable (inodes : ℕ → ℕ)

/-- The start of an operation; `inodes` are the `s_inodes_count` of the file systems. -/
def start (s : State N) (t : Fin N) : Action → Option (State N)
  | .find sb ino => some (s.setPc t (.lookup (.find sb ino false)))
  | .iget sb ino =>
    -- `-EINVAL`
    if ino = 0 ∨ inodes sb < ino then some s
    else some (s.setPc t (.lookup (.find sb ino true)))
  | .allocInode sb ino => some (s.setPc t (.newAlloc sb ino))
  | .anonymous => some ((s.iAlloc none 0).give t s.next)
  | .hold c => if c ∈ (s.task t).held then some ((s.ihold c).give t c) else none
  | .put c =>
    if c ∈ (s.task t).held then
      some { s with task := update s.task t ⟨(s.task t).held.erase c, .put c none⟩ }
    else none
  | _ => none

/-- One step of task `t`. -/
def step (s : State N) (a : Fin N × Action) : Option (State N) :=
  let t := a.1
  match (s.task t).pc, a.2 with
  | .idle, a => start inodes s t a
  | .lookup l, .run => if s.lock = none then some (lookup s t l) else none
  | .parked l, .run => if s.asleep t then none else some (s.setPc t (.unparked l))
  | .unparked l, .run => some (s.finishWait t l)
  | .igetAlloc sb ino, .result ok =>
    if ok then some ((s.iAlloc (some sb) ino).setPc t (.lookup (.insert s.next)))
    else some (s.setPc t .idle)
  | .check c _, .run =>
    if (s.inode c).state = .new then some (s.setPc t (.load c)) else some (s.give t c)
  | .load c, .result ok => some (s.setPc t (if ok then .ready c else .abort c))
  | .ready c, .run =>
    if s.lock = none then
      some ({ s.setState c .ready with lock := some t }.setPc t (.readyWake c))
    else none
  | .readyWake c, .run => some (s.wakeAll.give t c)
  | .abort c, .run =>
    if s.lock = none then some (((s.setState c .ready).unhash t c).setPc t (.abortWake c)) else none
  | .abortWake c, .run => some (s.wakeAll.setPc t (.put c none))
  | .newAlloc sb ino, .result ok =>
    if ok then some ((s.iAlloc (some sb) ino).setPc t (.newInode s.next))
    else some (s.setPc t .idle)
  | .newInode c, .result ok =>
    some (s.setPc t (if ok then .lookup (.inserts c) else .put c none))
  | .put c k, .run => if s.lock = none then some (dropRef s t c k) else none
  | .evict c k, .run =>
    some ({ s with evicts := update s.evicts c (s.evicts c + 1) }.setPc t (.unhash c k))
  | .unhash c k, .run =>
    if s.lock = none then some ((s.unhash t c).setPc t (.unhashWake c k)) else none
  | .unhashWake c k, .run => some (s.wakeAll.setPc t (.destroy c k))
  | .destroy c k, .run =>
    some ({ s with destroys := update s.destroys c (s.destroys c + 1) }.setPc t
      (afterPut k))
  | _, _ => none

end

/-- An empty cache, and no task in it. -/
def boot (N : ℕ) : State N where
  inode _ := ⟨none, 0, 0, .ready⟩
  next := 0
  table := []
  lock := none
  waiters := []
  asleep _ := false
  task _ := ⟨[], .idle⟩
  evicts _ := 0
  destroys _ := 0

end Nuvix.Icache
