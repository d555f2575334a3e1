import Nuvix.Refcount
import Nuvix.Lib.Lifetime
import Nuvix.Lib.Transition

/-!
# The lifetime of an address space: `mm/mm.c`

`urefs` counts the tasks that use an `mm_struct`, `refs` the CPUs that have its page table
loaded, with one more reference for all its users together. References are taken and handed
over by `sys_clone`, `sys_execve`, `free_resource` and the two halves of a context switch.
Every update of a count is a step of its own, so that it interleaves with those of other
CPUs, and so is every change of the page table that is loaded; what a CPU does to its own run
queue and its own task next to an update is part of the same step.
-/

namespace Nuvix.MmStruct

open Lifetime (Ref)

/-- The counts of `struct mm_struct`, and how often `pgtable_free` was called for it. -/
structure Mm where
  urefs : ℕ
  refs : ℕ
  frees : ℕ
  deriving DecidableEq

/-- Where a task is. A child that is not published yet belongs to its parent alone. -/
inductive Phase
  | run
  /-- `sys_execve`, with the new `mm`. -/
  | exec (mm : ℕ)
  /-- `task_alloc`, with the new `mm`. -/
  | alloc (mm : ℕ)
  /-- `sys_clone`, with `child->mm`. -/
  | clone (mm : Option ℕ)
  /-- The same, with the address space copied or shared. -/
  | cloned (mm : Option ℕ)
  /-- `task_exit`. -/
  | exit
  /-- `sched_exit`: the task does not run again. -/
  | dead

structure Task (C : ℕ) where
  mm : Option ℕ
  phase : Phase
  /-- The references that are dropped before the task goes on. -/
  todo : List (Ref ℕ)
  /-- `cpu_id` -/
  cpu : Fin C

/-- Where a CPU is: in its task, in the section of `switch_mm`, or in a context switch. -/
inductive CpuPhase (T : ℕ)
  | run
  /-- `switch_mm`, which holds the lock, after `mm_grab`. -/
  | swapLoad (mm : ℕ) (old active : Option ℕ)
  | swapSet (mm : ℕ) (old active : Option ℕ)
  /-- `sched_prepare_switch_locked`, with a reference to the next address space. -/
  | load (next : Fin T) (mm : Option ℕ)
  | set (next : Fin T) (mm : Option ℕ)
  /-- The lock is handed to the next task. -/
  | switched
  /-- `sched_finish_switch`, after it has released the lock. -/
  | finish (todo : List (Ref ℕ))

/-- `struct rq`, with the page table that is loaded. -/
structure Cpu (T : ℕ) where
  curr : Fin T
  /-- `active_mm` -/
  active : Option ℕ
  /-- `prev_mm` -/
  prev : Option ℕ
  loaded : Option ℕ
  phase : CpuPhase T

/-- `next` numbers the `mm_struct` that are allocated. -/
structure State (C T : ℕ) where
  mm : ℕ → Mm
  next : ℕ
  task : Fin T → Option (Task C)
  cpu : Fin C → Cpu T
  failed : Bool

variable {C T : ℕ}

namespace State

def setMm (s : State C T) (m : ℕ) (mm : Mm) : State C T :=
  { s with mm := Function.update s.mm m mm }

def setTask (s : State C T) (i : Fin T) (t : Option (Task C)) : State C T :=
  { s with task := Function.update s.task i t }

def setCpu (s : State C T) (c : Fin C) (q : Cpu T) : State C T :=
  { s with cpu := Function.update s.cpu c q }

end State

/-! ### `mm.c` -/

/-- `mm_alloc`. -/
def mmAlloc (s : State C T) : State C T :=
  { s.setMm s.next ⟨1, 1, 0⟩ with next := s.next + 1 }

/-- `mm_get`. -/
def mmGet (s : State C T) (m : ℕ) : State C T :=
  s.setMm m { s.mm m with urefs := refcountInc (s.mm m).urefs }

/-- `mm_grab`. -/
def mmGrab (s : State C T) (m : ℕ) : State C T :=
  s.setMm m { s.mm m with refs := refcountInc (s.mm m).refs }

/-- `mm_put`, up to its call of `mm_drop`. -/
def mmPut (s : State C T) (m : ℕ) : State C T × List (Ref ℕ) :=
  let (urefs, zero) := refcountDecAndTest (s.mm m).urefs
  (s.setMm m { s.mm m with urefs := urefs }, if zero then [.last m] else [])

/-- `mm_drop`, up to its call of `pgtable_free`. -/
def mmDrop (s : State C T) (m : ℕ) : State C T × List (Ref ℕ) :=
  let (refs, zero) := refcountDecAndTest (s.mm m).refs
  (s.setMm m { s.mm m with refs := refs }, if zero then [.free m] else [])

/-- The end of `mm_drop`. -/
def mmFree (s : State C T) (m : ℕ) : State C T :=
  { s.setMm m { s.mm m with frees := (s.mm m).frees + 1 } with
    failed := s.failed || decide ((s.mm m).urefs ≠ 0) }

/-- The next count that has to go down for a reference, and what is then left to do. -/
def release (s : State C T) : Ref ℕ → State C T × List (Ref ℕ)
  | .user m => mmPut s m
  | .root m | .last m => mmDrop s m
  | .free m => (mmFree s m, [])

/-- `__free(mm_put)`. -/
def users (mm : Option ℕ) : List (Ref ℕ) := (mm.map Ref.user).toList

/-- `__free(mm_drop)`. -/
def roots (mm : Option ℕ) : List (Ref ℕ) := (mm.map Ref.root).toList

/-- `mm_grab`, unless the address space is the kernel's. -/
def grabSome (s : State C T) : Option ℕ → State C T
  | some m => mmGrab s m
  | none => s

/-! ### Tasks -/

/-- What a task does next, where there is a choice. -/
inductive Op (C T : ℕ)
  /-- The next reference of `todo`. -/
  | todo
  /-- `mm_alloc` in `sys_execve`, and an error after it. -/
  | execve
  | execveError
  /-- `switch_mm`, from its beginning to `mm_grab`. -/
  | switchMm
  /-- `mm_alloc` in `task_alloc`, an error after it, and its end. -/
  | taskAlloc
  | taskAllocError
  | taskAllocDone
  /-- `mm_clone`. -/
  | mmClone
  /-- `CLONE_VM`. -/
  | share
  /-- An error of `sys_clone`, with `task_free`. -/
  | cloneError
  | publish (child : Fin T) (cpu : Fin C)
  /-- `free_resource` in `task_exit`. -/
  | exit
  /-- `sched_exit`, up to the choice of the next task. -/
  | schedExit

/-- A step of task `i`, which is current on CPU `c`. -/
def taskStep (s : State C T) (c : Fin C) (i : Fin T) (t : Task C) : Op C T → Option (State C T)
  | .todo =>
    match t.todo with
    | [] => none
    | r :: rest =>
      let (s, more) := release s r
      some (s.setTask i (some { t with todo := more ++ rest }))
  | .execve =>
    match t.todo, t.phase with
    | [], .run => some ((mmAlloc s).setTask i (some { t with phase := .exec s.next }))
    | _, _ => none
  | .execveError =>
    match t.todo, t.phase with
    | [], .exec m => some (s.setTask i (some { t with phase := .run, todo := users (some m) }))
    | _, _ => none
  | .switchMm =>
    match t.todo, t.phase with
    | [], .exec m =>
      some (((mmGrab s m).setTask i (some { t with mm := some m, phase := .run })).setCpu c
        { s.cpu c with phase := .swapLoad m t.mm (s.cpu c).active })
    | _, _ => none
  | .taskAlloc =>
    match t.todo, t.phase with
    | [], .run => some ((mmAlloc s).setTask i (some { t with phase := .alloc s.next }))
    | _, _ => none
  | .taskAllocError =>
    match t.todo, t.phase with
    | [], .alloc m => some (s.setTask i (some { t with phase := .run, todo := users (some m) }))
    | _, _ => none
  | .taskAllocDone =>
    match t.todo, t.phase with
    | [], .alloc m => some (s.setTask i (some { t with phase := .clone (some m) }))
    | _, _ => none
  | .mmClone =>
    match t.todo, t.phase with
    | [], .clone child => some (s.setTask i (some { t with phase := .cloned child }))
    | _, _ => none
  | .share =>
    match t.todo, t.phase, t.mm with
    | [], .clone child, some m =>
      some ((mmGet s m).setTask i
        (some { t with phase := .cloned (some m), todo := users child }))
    | _, _, _ => none
  | .cloneError =>
    match t.todo, t.phase with
    | [], .clone child => some (s.setTask i (some { t with phase := .run, todo := users child }))
    | [], .cloned child => some (s.setTask i (some { t with phase := .run, todo := users child }))
    | _, _ => none
  | .publish child cpu =>
    match t.todo, t.phase, s.task child with
    | [], .cloned mm, none =>
      some ((s.setTask i (some { t with phase := .run })).setTask child
        (some ⟨mm, .run, [], cpu⟩))
    | _, _, _ => none
  | .exit =>
    match t.todo, t.phase with
    | [], .run => some
      (s.setTask i (some { t with mm := none, phase := .exit, todo := users t.mm }))
    | _, _ => none
  | .schedExit =>
    match t.todo, t.phase with
    | [], .exit =>
      some { s.setTask i (some { t with phase := .dead }) with
        failed := s.failed || t.mm.isSome }
    | _, _ => none

/-! ### CPUs -/

inductive Action (C T : ℕ)
  /-- The current task of a CPU. -/
  | task (c : Fin C) (op : Op C T)
  /-- The next step of the section of `switch_mm`. -/
  | swap (c : Fin C)
  /-- `sched_prepare_switch_locked` chooses another task. -/
  | prepare (c : Fin C) (next : Fin T)
  /-- The next step of the context switch. -/
  | switch (c : Fin C)
  /-- The last reference to a dead task is dropped. -/
  | reap (i : Fin T)

/-- The rest of the section of `switch_mm`, which ends with the cleanups of its locals. -/
def swapStep (s : State C T) (c : Fin C) : Option (State C T) :=
  match (s.cpu c).phase with
  | .swapLoad m old active =>
    some (s.setCpu c { s.cpu c with loaded := some m, phase := .swapSet m old active })
  | .swapSet m old active =>
    (s.task (s.cpu c).curr).bind fun t =>
      match t.todo, t.phase with
      | [], .run =>
        some ((s.setTask (s.cpu c).curr (some { t with todo := roots active ++ users old })).setCpu
          c { s.cpu c with active := some m, phase := .run })
      | _, _ => none
  | _ => none

/-- `sched_prepare_switch_locked`, from the choice of the next task up to `mm_grab`. -/
def prepareStep (s : State C T) (c : Fin C) (next : Fin T) : Option (State C T) :=
  match (s.cpu c).phase, s.task next with
  | .run, some t =>
    if next = (s.cpu c).curr ∨ t.cpu ≠ c then none
    else
      match t.phase with
      | .dead => none
      | _ =>
        if t.mm = (s.cpu c).active then
          some (s.setCpu c { s.cpu c with curr := next, phase := .switched })
        else
          some ((grabSome s t.mm).setCpu c { s.cpu c with phase := .load next t.mm })
  | _, _ => none

/-- The rest of a context switch: `pgtable_switch`, the fields of the run queue, the return on
the other stack, and the reference to the old address space. -/
def switchStep (s : State C T) (c : Fin C) : Option (State C T) :=
  match (s.cpu c).phase with
  | .load next mm =>
    some (s.setCpu c { s.cpu c with loaded := mm, phase := .set next mm })
  | .set next mm =>
    some (s.setCpu c
      { s.cpu c with curr := next, active := mm, prev := (s.cpu c).active, phase := .switched })
  | .switched =>
    some (s.setCpu c { s.cpu c with prev := none, phase := .finish (roots (s.cpu c).prev) })
  | .finish [] => some (s.setCpu c { s.cpu c with phase := .run })
  | .finish (r :: rest) =>
    let (s', more) := release s r
    some (s'.setCpu c { s.cpu c with phase := .finish (more ++ rest) })
  | _ => none

def step (s : State C T) : Action C T → Option (State C T)
  | .task c op =>
    match (s.cpu c).phase, s.task (s.cpu c).curr with
    | .run, some t => taskStep s c (s.cpu c).curr t op
    | _, _ => none
  | .swap c => swapStep s c
  | .prepare c next => prepareStep s c next
  | .switch c => switchStep s c
  | .reap i =>
    match s.task i with
    | some t =>
      match t.phase with
      | .dead => if ∀ c, (s.cpu c).curr ≠ i then some (s.setTask i none) else none
      | _ => none
    | none => none

/-- Every CPU runs its idle task, and there is no user task. -/
def boot (idle : Fin C → Fin T) : State C T where
  mm := fun _ => ⟨0, 0, 0⟩
  next := 0
  task := fun i =>
    ((List.finRange C).find? fun c => idle c = i).map fun c => ⟨none, .run, [], c⟩
  cpu := fun c => ⟨idle c, none, none, none, .run⟩
  failed := false

end Nuvix.MmStruct
