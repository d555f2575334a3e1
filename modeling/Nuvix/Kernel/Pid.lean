import Nuvix.Errno
import Nuvix.Lib.Bitmap
import Nuvix.Lib.Transition

/-!
# Process identifiers: `kernel/pid.c`

A `struct pid` is a reference-counted number with four lists of tasks, one for
each role a number can play: thread, process, process group, session. A task
points at four such objects. All lists and the hash table are protected by
`pid_lock`, so each function below is one atomic step; `sys_clone` is two, since
`pid_prepare` and `pid_publish` take the lock separately.

Objects live in a store indexed by address. An address whose count is zero is
free memory. Counts are natural numbers: at most `PID_MAX` tasks exist, far
below the saturation bound of `refcount_t`.
-/

namespace Nuvix.PidTable

open Transition Function

/-- `enum pid_type`. -/
inductive PidType
  | tid
  | tgid
  | pgid
  | sid
  deriving DecidableEq, Repr

/-- The order in which the loops over `PIDTYPE_MAX` visit the roles. -/
def PidType.all : List PidType := [.tid, .tgid, .pgid, .sid]

@[simp] theorem PidType.mem_all (ty : PidType) : ty ∈ PidType.all := by
  cases ty <;> simp [PidType.all]

def pidInit : ℕ := 1

def pidMax : ℕ := 32768

/-- `struct pid`: `tasks ty` is the list of tasks using this number as `ty`. -/
structure Pid where
  refcount : ℕ
  nr : ℕ
  tasks : PidType → List ℕ

/-- Where a task stands between `task_alloc` and `task_put`. Only a `running`
task makes system calls; a `forking` one is inside `sys_clone`, between the two
locked sections. -/
inductive Phase
  | free
  | prepared
  | running
  | forking (child : ℕ)
  | zombie
  | reaped
  deriving DecidableEq, Repr

/-- The fields of `struct task` that the identifier code reads. -/
structure Task where
  phase : Phase
  pids : PidType → ℕ
  parent : ℕ
  forkNoExec : Bool

/-- The same task in another phase. -/
def Task.setPhase (k : Task) (phase : Phase) : Task := { k with phase := phase }

/-- The same task under another parent. -/
def Task.setParent (k : Task) (parent : ℕ) : Task := { k with parent := parent }

/-- A task is published from `pid_publish` to `pid_unpublish`. -/
def Task.Published (t : Task) : Prop :=
  match t.phase with
  | .running | .forking _ | .zombie => True
  | _ => False

instance (t : Task) : Decidable t.Published := by
  unfold Task.Published
  cases t.phase <;> infer_instance

/-- The shared state: everything `pid_lock` protects, the task structures, and
the references that callers still have to drop. -/
structure State where
  pidmap : Bitmap
  nextPid : ℕ
  pid : ℕ → Pid
  pidTable : List ℕ
  task : ℕ → Task
  held : List ℕ

variable (s : State)

/-! ### Field updates -/

def modPid (p : ℕ) (f : Pid → Pid) : State :=
  { s with pid := update s.pid p (f (s.pid p)) }

def modTask (t : ℕ) (f : Task → Task) : State :=
  { s with task := update s.task t (f (s.task t)) }

/-- `refcount_inc(&pid->refcount)`. -/
def refcountInc (p : ℕ) : State := modPid s p fun q => { q with refcount := q.refcount + 1 }

/-- `refcount_dec(&pid->refcount)`. -/
def refcountDec (p : ℕ) : State := modPid s p fun q => { q with refcount := q.refcount - 1 }

/-- `hlist_add_head(&task->pid_links[type], &pid->tasks[type])`. -/
def hlistAdd (t : ℕ) (ty : PidType) (p : ℕ) : State :=
  modPid s p fun q => { q with tasks := update q.tasks ty (t :: q.tasks ty) }

/-- `hlist_del(&task->pid_links[type])`: the link is on the list of `p`. -/
def hlistDel (t : ℕ) (ty : PidType) (p : ℕ) : State :=
  modPid s p fun q => { q with tasks := update q.tasks ty ((q.tasks ty).filter (· ≠ t)) }

/-! ### Allocation and release of numbers -/

/-- The search of `pid_alloc`: from `next_pid` to the end, then from `PID_INIT`. -/
def findNr : Option ℕ :=
  let nr := Bitmap.findNextZero s.pidmap pidMax s.nextPid
  if nr = pidMax then
    let nr := Bitmap.findNextZero s.pidmap s.nextPid pidInit
    if nr = s.nextPid then none else some nr
  else some nr

/-- `pid_alloc`, with `p` the address `kzalloc` returned. -/
def pidAlloc (p : ℕ) : Except Errno State :=
  match findNr s with
  | none => .error .eagain
  | some nr =>
    .ok { s with
      pidmap := update s.pidmap nr true
      nextPid := if nr + 1 = pidMax then pidInit else nr + 1
      pid := update s.pid p { refcount := 1, nr := nr, tasks := fun _ => [] } }

/-- `pid_put`: the last reference gives the number back. -/
def pidPut (p : ℕ) : State :=
  if (s.pid p).refcount = 1 then
    { refcountDec s p with pidmap := update s.pidmap (s.pid p).nr false }
  else refcountDec s p

/-! ### Lookup -/

/-- `find_pid_locked`. -/
def findPidLocked (nr : ℤ) : Option ℕ :=
  s.pidTable.find? fun p => ((s.pid p).nr : ℤ) = nr

/-- `pid_task_locked`: the first task on the list, if any. -/
def pidTaskLocked (p : Option ℕ) (ty : PidType) : Option ℕ :=
  p.bind fun p => ((s.pid p).tasks ty).head?

/-! ### Publication -/

/-- The identities `pid_prepare` gives to a new task. -/
def preparePids (parent : Option ℕ) (p : ℕ) : PidType → ℕ
  | .tid | .tgid => p
  | .pgid => parent.elim p fun q => (s.task q).pids .pgid
  | .sid => parent.elim p fun q => (s.task q).pids .sid

/-- `pid_prepare`: number the task and capture its parent's group and session.
The reference `pid_alloc` returned is dropped on the way out. -/
def pidPrepare (t : ℕ) (parent : Option ℕ) (p : ℕ) : Except Errno State :=
  match pidAlloc s p with
  | .error e => .error e
  | .ok s =>
    let pids := preparePids s parent p
    let s := modTask s t fun k => { k with pids := pids }
    .ok (pidPut (PidType.all.foldl (fun s ty => refcountInc s (pids ty)) s) p)

/-- One round of the loop of `pid_publish`. -/
def publishType (t : ℕ) (ty : PidType) : State :=
  let p := (s.task t).pids ty
  let s := if p ∈ s.pidTable then s else { s with pidTable := p :: s.pidTable }
  hlistAdd s t ty p

/-- `pid_publish`. -/
def pidPublish (t : ℕ) : State := PidType.all.foldl (fun s ty => publishType s t ty) s

/-- `unhash_unused_pid`. -/
def unhashUnusedPid (p : ℕ) : State :=
  if ∀ ty ∈ PidType.all, (s.pid p).tasks ty = [] then
    { s with pidTable := s.pidTable.erase p }
  else s

/-- `pid_unpublish`. -/
def pidUnpublish (t : ℕ) : State :=
  PidType.all.foldl (fun s ty =>
    unhashUnusedPid (hlistDel s t ty ((s.task t).pids ty)) ((s.task t).pids ty)) s

/-! ### Process groups and sessions -/

/-- `task->pids[type] = pid`. -/
def Task.setPid (k : Task) (ty : PidType) (p : ℕ) : Task :=
  { k with pids := update k.pids ty p }

/-- `change_pid`. -/
def changePid (t : ℕ) (ty : PidType) (p : ℕ) : State :=
  let old := (s.task t).pids ty
  let s := hlistDel s t ty old
  let s := refcountInc s p
  let s := modTask s t fun k => k.setPid ty p
  let s := hlistAdd s t ty p
  let s := unhashUnusedPid s old
  refcountDec s old

/-- The tail of `sys_setpgid`, once every check has passed: take a reference on
the old group, then move every thread of the process. -/
def joinGroup (task pgrp : ℕ) : State :=
  let old := (s.task task).pids .pgid
  let s := { refcountInc s old with held := old :: s.held }
  if old = pgrp then s
  else ((s.pid ((s.task task).pids .tgid)).tasks .tgid).foldl
    (fun s member => changePid s member .pgid pgrp) s

/-- The permission checks `sys_setpgid` makes when the task is not the caller. -/
def checkChild (cur task : ℕ) : Except Errno Unit :=
  if task = cur then .ok ()
  else if (s.task task).parent ≠ cur then .error .esrch
  else if (s.task task).pids .sid ≠ (s.task cur).pids .sid then .error .eperm
  else if (s.task task).forkNoExec = false then .error .eacces
  else .ok ()

/-- The group `sys_setpgid` moves `task` into: its own process, or a group with a
member in the same session. -/
def targetGroup (task : ℕ) (pgid : ℤ) : Option ℕ :=
  let tgid := (s.task task).pids .tgid
  let pgrp := findPidLocked s pgid
  if pgrp = some tgid then pgrp
  else match pidTaskLocked s pgrp .pgid with
    | none => none
    | some member =>
      if (s.task member).pids .sid ≠ (s.task task).pids .sid then none else pgrp

/-- `sys_setpgid` called by the task `cur`. -/
def sysSetpgid (cur : ℕ) (nr pgid : ℤ) : Except Errno State :=
  let nr := if nr = 0 then ((s.pid ((s.task cur).pids .tgid)).nr : ℤ) else nr
  let pgid := if pgid = 0 then nr else pgid
  if pgid < 0 then .error .einval
  else match pidTaskLocked s (findPidLocked s nr) .tid with
    | none => .error .esrch
    | some task =>
      let tgid := (s.task task).pids .tgid
      if (s.task task).pids .tid ≠ tgid then .error .einval
      else match checkChild s cur task with
        | .error e => .error e
        | .ok () =>
          if (s.task task).pids .sid = tgid then .error .eperm
          else match targetGroup s task pgid with
            | none => .error .eperm
            | some pgrp => .ok (joinGroup s task pgrp)

/-- `pid_setsid`. -/
def pidSetsid (task : ℕ) : Except Errno State :=
  let tgid := (s.task task).pids .tgid
  if (s.task task).pids .sid = tgid ∨ (s.pid tgid).tasks .pgid ≠ [] then .error .eperm
  else
    let oldPgrp := (s.task task).pids .pgid
    let oldSid := (s.task task).pids .sid
    let s := refcountInc (refcountInc s oldPgrp) oldSid
    let s := { s with held := oldSid :: oldPgrp :: s.held }
    .ok (((s.pid tgid).tasks .tgid).foldl
      (fun s member => changePid (changePid s member .pgid tgid) member .sid tgid) s)

/-! ### The interleaved system -/

/-- The task every orphan is handed to; it never exits. -/
def initTask : ℕ := 0

/-- One atomic step of one process. Addresses chosen by the allocators are part
of the label. -/
inductive Event
  /-- `sys_clone` up to `pid_prepare`. -/
  | fork (t child p : ℕ)
  /-- The rest of `sys_clone`: link the child and `pid_publish` it. -/
  | publish (t : ℕ)
  | setpgid (t : ℕ) (nr pgid : ℤ)
  | setsid (t : ℕ)
  /-- A successful `sys_execve` clears `TF_FORKNOEXEC`. -/
  | execve (t : ℕ)
  /-- `task_exit`, with `reparent_children`. -/
  | exit (t : ℕ)
  /-- `sys_wait4` takes an exited child off the identifier lists. -/
  | reap (t child : ℕ)
  /-- The final `task_put` drops the four identities. -/
  | taskPut (t : ℕ)
  /-- A caller drops a reference it held across the unlock. -/
  | put (p : ℕ)

/-- `child->parent = current`, then `sched_publish`. -/
def publishChild (t child : ℕ) : State :=
  let s := modTask s child fun k => k.setParent t
  let s := pidPublish s child
  let s := modTask s child fun k => k.setPhase .running
  modTask s t fun k => k.setPhase .running

/-- `reparent_children` for the exiting task `t`. -/
def reparentChildren (t : ℕ) : State :=
  { s with task := fun u =>
      if u ≠ t ∧ (s.task u).parent = t then (s.task u).setParent initTask else s.task u }

/-- The last `task_put`: each slot becomes a reference still to be dropped. -/
def taskPut (t : ℕ) : State :=
  { s with
    task := update s.task t ((s.task t).setPhase .free)
    held := PidType.all.map (s.task t).pids ++ s.held }

/-- What `task_alloc` sets in a new user task. -/
def Task.prepare (pids : PidType → ℕ) (child : ℕ) : Task :=
  { phase := .prepared, pids := pids, parent := child, forkNoExec := true }

/-- The step function: `none` when the event is not enabled. A call that fails
changes nothing. -/
def step : Event → Option State
  | .fork t child p =>
    if (s.task t).phase = .running ∧ (s.task child).phase = .free ∧ (s.pid p).refcount = 0 then
      match pidPrepare s child (some t) p with
      | .error _ => some s
      | .ok s =>
        let s := modTask s child fun k => Task.prepare k.pids child
        some (modTask s t fun k => k.setPhase (.forking child))
    else none
  | .publish t =>
    match (s.task t).phase with
    | .forking child => some (publishChild s t child)
    | _ => none
  | .setpgid t nr pgid =>
    if (s.task t).phase = .running then
      match sysSetpgid s t nr pgid with
      | .error _ => some s
      | .ok s => some s
    else none
  | .setsid t =>
    if (s.task t).phase = .running then
      match pidSetsid s t with
      | .error _ => some s
      | .ok s => some s
    else none
  | .execve t =>
    if (s.task t).phase = .running then
      some (modTask s t fun k => { k with forkNoExec := false })
    else none
  | .exit t =>
    if (s.task t).phase = .running ∧ t ≠ initTask then
      some (reparentChildren (modTask s t fun k => k.setPhase .zombie) t)
    else none
  | .reap t child =>
    if (s.task t).phase = .running ∧ (s.task child).phase = .zombie ∧
        (s.task child).parent = t then
      some (modTask (pidUnpublish s child) child fun k =>
        (k.setPhase .reaped).setParent child)
    else none
  | .taskPut t =>
    if (s.task t).phase = .reaped then some (taskPut s t) else none
  | .put p =>
    if p ∈ s.held then some { pidPut s p with held := s.held.erase p } else none

/-- Memory before `init` exists: bit 0 is never handed out. -/
def empty : State where
  pidmap := fun n => n = 0
  nextPid := pidInit
  pid := fun _ => { refcount := 0, nr := 0, tasks := fun _ => [] }
  pidTable := []
  task := fun _ => { phase := .free, pids := fun _ => 0, parent := 0, forkNoExec := false }
  held := []

/-- The state `init_execve` leaves: `init` is published as its own group and
session. -/
def boot : State :=
  match pidPrepare empty initTask none 0 with
  | .error _ => empty
  | .ok s => modTask (pidPublish s initTask) initTask fun k => k.setPhase .running

end Nuvix.PidTable
