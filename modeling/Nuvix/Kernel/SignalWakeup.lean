import Nuvix.Kernel.StopContinue
import Nuvix.Kernel.Wait

/-!
# Signals wake sleepers

A task that is about to sleep looks at its signals, registers the state it will sleep in under
the lock of its run queue, and is switched out under that lock again, where it looks at its
signals a second time. A sender makes the signal pending and sets `TF_SIGPENDING` under
`signal_lock` and then wakes the task under the lock of its run queue. The sleeper does not
take `signal_lock`. Its second look is what makes this work: a flag that is set before it keeps
the task awake, and a sender that sets the flag after it finds the task asleep.

Any number of tasks sleep in the ways listed in `Sleep` and handle their signals in between;
any number of senders, of which some may be tasks, go through `send_signal` one write at a time.
-/

namespace Nuvix.SignalWakeup

open Signal Sched StopContinue Transition Function

/-- The functions that sleep until a signal comes. -/
inductive Sleep
  | waitEventInterruptible
  | mutexLockInterruptible
  | waitForCompletionInterruptible
  | waitForCompletionKillable
  | waitForSignal
  | wait4
  deriving DecidableEq

/-- The state that a function sleeps in. -/
def Sleep.state : Sleep → TaskState
  | waitForCompletionKillable => .killable
  | _ => .interruptible

/-- `pending.signal & sigmask(SIGKILL)`. -/
def killPending (sig : Sig) : Bool := sig.signal &&& sigmask sigkill ≠ 0

/-- The look at the signals before the state is registered: `signal_pending_state`, or
`signal_pending`. -/
def Sleep.interrupted (sleep : Sleep) (sig : Sig) : Bool :=
  match sleep with
  | waitForSignal | wait4 => sig.sigpending
  | _ => signalPendingState sleep.state sig.sigpending (killPending sig)

/-- Where a task is: it runs, it has looked at its signals, it has registered its state, or it
is switched out. -/
inductive Place
  | running
  | checked (sleep : Sleep)
  | registered (sleep : Sleep)
  | out (sleep : Sleep)
  deriving DecidableEq

/-- A call of `send_signal`. -/
structure Send (N : ℕ) where
  target : Fin N
  info : Siginfo
  /-- Whether there is memory for the entry of the queue. -/
  alloc : Bool
  pc : SendPc

/-- The signals of the tasks, their states and places, who holds each `signal_lock`, and the
senders. -/
structure State (N M : ℕ) where
  sig : Signal.State N
  state : Fin N → TaskState
  place : Fin N → Place
  lock : Fin N → Option (Fin M)
  sender : Fin M → Option (Send N)

variable {N M : ℕ}

namespace State

def setSender (s : State N M) (j : Fin M) (c : Option (Send N)) : State N M :=
  { s with sender := update s.sender j c }

def setPlace (s : State N M) (i : Fin N) (place : Place) : State N M :=
  { s with place := update s.place i place }

def setState (s : State N M) (i : Fin N) (state : TaskState) : State N M :=
  { s with state := update s.state i state }

/-- A write to the signals of a task. -/
def mapSig (s : State N M) (i : Fin N) (f : Sig → Sig) : State N M :=
  { s with sig := update s.sig i ((s.sig i).map fun t => { t with sig := f t.sig }) }

end State

/-- The next step of `send_signal`. -/
def sendStep (s : State N M) (j : Fin M) (c : Send N) : Option (State N M) :=
  (s.sig c.target).bind fun t =>
    let next := (c.pc.next c.info t.sig).map fun pc => { c with pc := pc }
    match c.pc with
    | .lock =>
      if s.lock c.target = none then
        some ({ s with lock := update s.lock c.target (some j) }.setSender j next)
      else none
    | .unlock => some ({ s with lock := update s.lock c.target none }.setSender j next)
    | pc =>
      some (((s.setState c.target (pc.state c.info (s.state c.target))).mapSig c.target
        fun sig => pc.signals c.info c.alloc sig).setSender j next)

/-- The task that an action on its own signals belongs to. -/
def actor : Signal.Action N → Option (Fin N)
  | .send _ _ _ => none
  | .get i _ | .delivered i | .sigsuspend i _ | .sigaction i _ _ | .sigprocmask i _ _
  | .sigreturn i _ | .signalClone i | .fork i _ => some i

/-- What tasks, senders and other wake-ups do. -/
inductive Action (N M : ℕ)
  /-- A section of a task that runs under its own `signal_lock`. -/
  | own (a : Signal.Action N)
  | check (i : Fin N) (sleep : Sleep)
  | register (i : Fin N)
  /-- `sched_prepare_switch_locked`. -/
  | park (i : Fin N)
  | resume (i : Fin N)
  | wake (i : Fin N) (states : BitVec 32)
  | send (j : Fin M) (target : Fin N) (info : Siginfo) (alloc : Bool)
  | sender (j : Fin M)

def step (s : State N M) : Action N M → Option (State N M)
  | .own a =>
    match actor a with
    | none => none
    | some i =>
      if s.place i = .running ∧ s.lock i = none then
        (Signal.step s.sig a).map fun sig => { s with sig := sig }
      else none
  | .check i sleep =>
    match s.sig i, s.place i with
    | some t, .running =>
      some (if sleep.interrupted t.sig then s else s.setPlace i (.checked sleep))
    | _, _ => none
  | .register i =>
    match s.place i with
    | .checked sleep => some ((s.setState i sleep.state).setPlace i (.registered sleep))
    | _ => none
  | .park i =>
    match s.sig i, s.place i with
    | some t, .registered sleep =>
      let next := (s.state i).parked t.sig.sigpending (killPending t.sig)
      some ((s.setState i next).setPlace i
        (if next = TaskState.runnable then .running else .out sleep))
    | _, _ => none
  | .resume i =>
    match s.place i with
    | .out _ => if s.state i = .runnable then some (s.setPlace i .running) else none
    | _ => none
  | .wake i states => some (s.setState i ((s.state i).woken states))
  | .send j target info alloc =>
    if s.sender j = none ∧ 1 ≤ info.signo ∧ info.signo ≤ sigMax then
      some (s.setSender j (some ⟨target, info, alloc, .lock⟩))
    else none
  | .sender j => (s.sender j).bind (sendStep s j)

/-- One task, which runs. -/
def boot (i : Fin N) : State N M where
  sig := Signal.boot i
  state _ := .runnable
  place _ := .running
  lock _ := none
  sender _ := none

/-! ### A task's own sections -/

section Own

variable {sigs sigs' : Signal.State N} {a : Signal.Action N} {i : Fin N}
  {f : Signal.Task → Option Signal.Task}

theorem modify_shape (h : sigs.modify i f = some sigs') :
    ∃ t', sigs' = update sigs i (some t') := by
  obtain ⟨t, -, hmap⟩ := Option.bind_eq_some_iff.mp h
  obtain ⟨t', -, rfl⟩ := Option.map_eq_some_iff.mp hmap
  exact ⟨t', rfl⟩

/-- A section changes the task itself or makes a new one. -/
theorem own_shape (hactor : actor a = some i) (h : Signal.step sigs a = some sigs') :
    (∃ t', sigs' = update sigs i (some t')) ∨
      ∃ c t', sigs c = none ∧ sigs' = update sigs c (some t') := by
  cases a with
  | send target info alloc => cases hactor
  | get j fault =>
    cases hactor
    simp only [Signal.step, Option.ite_none_right_eq_some] at h
    exact .inl (modify_shape h.2)
  | fork parent child =>
    simp only [Signal.step] at h
    split at h
    next t hparent hchild =>
      exact .inr ⟨child, _, hchild, (Option.some.inj h).symm⟩
    · cases h
  | delivered j | sigsuspend j set | sigaction j n act | sigprocmask j how set | sigreturn j set
  | signalClone j => exact .inl (Option.some.inj hactor ▸ modify_shape h)

/-- The tasks that `m` selects. -/
def mask (m : Fin N → Bool) (sigs : Signal.State N) : Signal.State N :=
  fun j => if m j then sigs j else none

variable {m : Fin N → Bool}

theorem mask_update (hi : m i = true) (t : Option Signal.Task) :
    mask m (update sigs i t) = update (mask m sigs) i t := by
  funext j
  by_cases hj : j = i
  · subst hj
    simp [mask, hi]
  · simp [mask, update_of_ne hj]

theorem modify_mask (hi : m i = true) (h : sigs.modify i f = some sigs') :
    (mask m sigs).modify i f = some (mask m sigs') := by
  obtain ⟨t, ht, hmap⟩ := Option.bind_eq_some_iff.mp h
  obtain ⟨t', ht', rfl⟩ := Option.map_eq_some_iff.mp hmap
  have hmask : mask m sigs i = some t := by rw [mask, if_pos hi, ht]
  rw [State.modify, hmask, Option.bind_some, ht', Option.map_some, mask_update hi]

/-- A section does not look at other tasks. -/
theorem own_mask (hactor : actor a = some i) (hi : m i = true)
    (hnone : ∀ j, sigs j = none → m j = true) (h : Signal.step sigs a = some sigs') :
    Signal.step (mask m sigs) a = some (mask m sigs') := by
  cases a with
  | send target info alloc => cases hactor
  | get j fault =>
    cases hactor
    simp only [Signal.step, Option.ite_none_right_eq_some] at h ⊢
    exact ⟨h.1, modify_mask hi h.2⟩
  | fork parent child =>
    obtain rfl := Option.some.inj hactor
    simp only [Signal.step] at h ⊢
    split at h
    next t hparent hchild =>
      obtain rfl := Option.some.inj h
      have hparent' : mask m sigs parent = some t := by rw [mask, if_pos hi, hparent]
      have hchild' : mask m sigs child = none := by rw [mask, hchild, ite_self]
      rw [hparent', hchild', mask_update (hnone child hchild)]
    · cases h
  | delivered j | sigsuspend j set | sigaction j n act | sigprocmask j how set | sigreturn j set
  | signalClone j => exact modify_mask (Option.some.inj hactor ▸ hi) h

end Own

/-! ### The invariant -/

/-- A sender that holds the lock. -/
def Send.locked (c : Send N) : Bool :=
  match c.pc with
  | .lock | .wake _ => false
  | _ => true

/-- A sender that has begun and will wake the task if it is to be woken. -/
def Send.wakes (c : Send N) : Prop := c.locked = true ∨ c.pc = .wake true

/-- What a sender has made of the signals by now. -/
def Send.progress (c : Send N) (sig : Sig) : Sig :=
  match c.pc with
  | .lock | .flush | .wake _ => sig
  | .clear => sendFlush sig c.info.signo
  | .queue => sendClear (sendFlush sig c.info.signo) c.info.signo
  | .recalc => sendQueue (sendClear (sendFlush sig c.info.signo) c.info.signo) c.info c.alloc
  | .resume | .unlock => sendSection sig c.info c.alloc

/-- A sender of a signal that `p` admits is on its way to task `i`. -/
def Coming (s : State N M) (i : Fin N) (p : ℕ → Prop) : Prop :=
  ∃ j c, s.sender j = some c ∧ c.target = i ∧ c.wakes ∧ p c.info.signo

/-- A task that sleeps with a signal has a sender that will wake it. -/
structure SleepOk (s : State N M) (i : Fin N) (t : Signal.Task) : Prop where
  interruptible : s.state i = .interruptible → t.sig.sigpending = true → Coming s i fun _ => True
  killable : s.state i = .killable → has t.sig.signal sigkill = true →
    Coming s i fun sig => sig = sigkill

/-- The invariant. -/
structure Inv (s : State N M) : Prop where
  present : ∀ i, s.sig i = none → s.place i = .running
  ok : ∀ i t, s.sig i = some t → s.lock i = none → TaskOk t
  held : ∀ i j, s.lock i = some j → ∃ c, s.sender j = some c ∧ c.target = i ∧ c.locked = true
  number : ∀ j c, s.sender j = some c → IsSig c.info.signo
  mid : ∀ j c, s.sender j = some c → c.locked = true → s.lock c.target = some j ∧
    ∃ t, TaskOk t ∧ s.sig c.target = some { t with sig := c.progress t.sig }
  sleep : ∀ i t sleep, s.sig i = some t → s.place i = .out sleep → SleepOk s i t

variable {s s' : State N M} {i : Fin N} {j : Fin M} {c c' : Send N} {t : Signal.Task}
  {state : TaskState} {sig : Sig}

theorem isSig_sigkill : IsSig sigkill := by decide

theorem killPending_iff (sig : Sig) : killPending sig = true ↔ has sig.signal sigkill = true := by
  rw [killPending, decide_eq_true_iff, and_sigmask_ne_zero isSig_sigkill]

/-- `SIGKILL` is never blocked, so that the flag is set with it. -/
theorem sigpending_of_kill (h : SigOk t.sig) (hkill : has t.sig.signal sigkill = true) :
    t.sig.sigpending = true := by
  rw [h.sigpending]
  intro hzero
  have hbit : has (t.sig.signal &&& ~~~t.sig.blocked) sigkill =
      (has t.sig.signal sigkill && !has t.sig.blocked sigkill) := has_and_not isSig_sigkill
  rw [hzero, hkill, h.blocked.kill] at hbit
  simp [has] at hbit

/-- The senders go on. -/
theorem Coming.update {p : ℕ → Prop} (h : Coming s i p) (hc : s.sender j = some c)
    (hsender : s'.sender = update s.sender j (some c')) (htarget : c'.target = c.target)
    (hinfo : c'.info = c.info) (hwakes : c.target = i → c'.wakes) : Coming s' i p := by
  obtain ⟨j', d, hd, hdi, hdw, hp⟩ := h
  by_cases hj : j' = j
  · rw [hj, hc] at hd
    cases hd
    refine ⟨j, c', ?_, htarget.trans hdi, hwakes hdi, hinfo ▸ hp⟩
    rw [hsender, update_self]
  · refine ⟨j', d, ?_, hdi, hdw, hp⟩
    rw [hsender, update_of_ne hj, hd]

/-- A task does not begin to sleep, and the senders are still coming. -/
theorem SleepOk.mono (h : SleepOk s i t)
    (hstate : ∀ state ≠ .runnable, s'.state i = state → s.state i = state)
    (hcoming : ∀ p, Coming s i p → Coming s' i p) : SleepOk s' i t where
  interruptible h₁ h₂ := hcoming _ (h.interruptible (hstate _ nofun h₁) h₂)
  killable h₁ h₂ := hcoming _ (h.killable (hstate _ nofun h₁) h₂)

/-! ### Steps of a task -/

section

variable (hinv : Inv s)
include hinv

/-- A step that changes states and places only. -/
theorem Inv.move {state : Fin N → TaskState} {place : Fin N → Place}
    (hpresent : ∀ i, s.sig i = none → place i = .running)
    (hsleep : ∀ i t sleep, s.sig i = some t → place i = .out sleep →
      SleepOk { s with state := state, place := place } i t) :
    Inv { s with state := state, place := place } :=
  ⟨hpresent, hinv.ok, hinv.held, hinv.number, hinv.mid, hsleep⟩

/-- A task goes to a place where it does not sleep. -/
theorem Inv.setPlace {place : Place} (hsome : s.sig i = none → place = .running)
    (hplace : ∀ sleep, place ≠ .out sleep) : Inv ((s.setState i state).setPlace i place) := by
  refine hinv.move (fun k hk => ?_) fun k t sleep hk hout => ?_
  · by_cases hki : k = i
    · subst hki
      rw [update_self]
      exact hsome hk
    · rw [update_of_ne hki]
      exact hinv.present k hk
  · rcases eq_of_update hout with ⟨-, hout⟩ | ⟨hki, hout⟩
    · exact absurd hout (hplace sleep)
    · exact (hinv.sleep k t sleep hk hout).mono
        (fun _ _ h => (update_of_ne hki _ _).symm.trans h) fun _ => id

omit hinv in
theorem setState_self (s : State N M) (i : Fin N) : s.setState i (s.state i) = s := by
  rw [State.setState, update_eq_self]

/-- The state of a task stays or becomes runnable. -/
theorem Inv.setState (hstate : state = s.state i ∨ state = .runnable) :
    Inv (s.setState i state) := by
  refine hinv.move hinv.present fun k t sleep hk hout => ?_
  refine (hinv.sleep k t sleep hk hout).mono (fun sleeping hne h => ?_) fun _ => id
  rcases eq_of_update h with ⟨rfl, rfl⟩ | ⟨-, h⟩
  · exact (hstate.resolve_right hne).symm
  · exact h

/-- A task is switched out only without a signal. -/
theorem Inv.park {sleep : Sleep} (ht : s.sig i = some t) :
    let next := (s.state i).parked t.sig.sigpending (killPending t.sig)
    Inv ((s.setState i next).setPlace i
      (if next = TaskState.runnable then .running else .out sleep)) := by
  intro next
  by_cases hrun : next = .runnable
  · rw [if_pos hrun]
    exact hinv.setPlace (fun _ => rfl) nofun
  rw [if_neg hrun]
  have hquiet : signalPendingState (s.state i) t.sig.sigpending (killPending t.sig) = false := by
    by_contra hpending
    exact hrun (if_pos (by simpa using hpending))
  have hnext : next = s.state i := if_neg (by simp [hquiet])
  refine hinv.move (fun k hk => ?_) fun k t' sleep' hk hout => ?_
  · have hki : k ≠ i := by
      rintro rfl
      rw [ht] at hk
      cases hk
    rw [update_of_ne hki]
    exact hinv.present k hk
  · by_cases hki : k = i
    · subst hki
      cases ht.symm.trans hk
      have hstate : update s.state k next k = s.state k := by
        rw [update_self, hnext]
      constructor
      · intro hint hpending
        rw [show s.state k = .interruptible from hstate.symm.trans hint] at hquiet
        simp [signalPendingState, hpending] at hquiet
      · intro hkillable hpending
        rw [show s.state k = .killable from hstate.symm.trans hkillable] at hquiet
        simp [signalPendingState, (killPending_iff _).mpr hpending] at hquiet
    · rw [update_of_ne hki] at hout
      exact (hinv.sleep k t' sleep' hk hout).mono
        (fun _ _ h => (update_of_ne hki _ _).symm.trans h) fun _ => id

/-- A task changes its own signals while it runs. -/
theorem Inv.own {a : Signal.Action N} {sigs : Signal.State N} (hactor : actor a = some i)
    (hplace : s.place i = .running) (hlock : s.lock i = none)
    (hstep : Signal.step s.sig a = some sigs) : Inv { s with sig := sigs } := by
  -- Tasks whose signals somebody else is changing are out of sight.
  obtain ⟨m, hm⟩ : ∃ m : Fin N → Bool, ∀ j, m j = true ↔ s.lock j = none :=
    ⟨fun j => (s.lock j).isNone, fun j => Option.isNone_iff_eq_none⟩
  have hfree : ∀ k, s.sig k = none → s.lock k = none := by
    intro k hk
    by_contra hheld
    obtain ⟨j, hj⟩ := Option.ne_none_iff_exists'.mp hheld
    obtain ⟨c, hc, rfl, hlocked⟩ := hinv.held k j hj
    obtain ⟨-, t, -, ht⟩ := hinv.mid j c hc hlocked
    rw [hk] at ht
    cases ht
  have hmask := own_mask hactor ((hm i).mpr hlock) (fun k hk => (hm k).mpr (hfree k hk)) hstep
  have hall : ∀ k t, mask m s.sig k = some t → TaskOk t := by
    intro k t hk
    rw [mask] at hk
    split at hk
    · exact hinv.ok k t hk ((hm k).mp ‹_›)
    · cases hk
  obtain ⟨hok, -⟩ := step_keeps hall hmask
  have hsame : ∀ k ≠ i, s.sig k ≠ none → sigs k = s.sig k := by
    intro k hki hk
    rcases own_shape hactor hstep with ⟨t', rfl⟩ | ⟨child, t', hchild, rfl⟩
    · exact update_of_ne hki _ _
    · refine update_of_ne ?_ _ _
      rintro rfl
      exact hk hchild
  have hnone : ∀ k, sigs k = none → s.sig k = none := by
    intro k hk
    rcases own_shape hactor hstep with ⟨t', rfl⟩ | ⟨child, t', hchild, rfl⟩
    · exact ((eq_of_update hk).resolve_left nofun).2
    · exact ((eq_of_update hk).resolve_left nofun).2
  refine ⟨fun k hk => hinv.present k (hnone k hk), fun k t hk hfree => ?_, hinv.held, hinv.number,
    fun j c hc hlocked => ?_, fun k t sleep hk hout => ?_⟩
  · exact hok k t (by rw [mask, if_pos ((hm k).mpr hfree)]; exact hk)
  · obtain ⟨hheld, t, ht, hsig⟩ := hinv.mid j c hc hlocked
    refine ⟨hheld, t, ht, ?_⟩
    have hne : c.target ≠ i := by
      intro heq
      rw [heq, hlock] at hheld
      cases hheld
    exact (hsame _ hne (by rw [hsig]; exact nofun)).trans hsig
  · have hne : k ≠ i := by
      rintro rfl
      rw [hplace] at hout
      cases hout
    have hsome : s.sig k ≠ none := by
      intro hnone
      rw [hinv.present k hnone] at hout
      cases hout
    exact (hinv.sleep k t sleep ((hsame k hne hsome).symm.trans hk) hout).mono
      (fun _ _ => id) fun _ => id

/-! ### Steps of a sender -/

/-- Whoever holds a lock sends to its task. -/
theorem Inv.target (hc : s.sender j = some c) (hlock : s.lock i = some j) :
    c.target = i ∧ c.locked = true := by
  obtain ⟨d, hd, hdi⟩ := hinv.held i j hlock
  cases hc.symm.trans hd
  exact hdi

/-- A step of one sender. It gives locks to nobody else, and changes the signals of a task whose
lock it holds. -/
theorem Inv.bySender {o : Option (Send N)} (hplace : s'.place = s.place)
    (hsender : s'.sender = update s.sender j o)
    (hlocks : ∀ k j', j' ≠ j → (s'.lock k = some j' ↔ s.lock k = some j'))
    (hsigs : ∀ k, s'.sig k = s.sig k ∨ s.lock k = some j ∧ s'.sig k ≠ none)
    (hok : ∀ k t, s'.sig k = some t → s'.lock k = none → TaskOk t)
    (hheld : ∀ k, s'.lock k = some j → ∃ c ∈ o, c.target = k ∧ c.locked = true)
    (hnumber : ∀ c ∈ o, IsSig c.info.signo)
    (hmid : ∀ c ∈ o, c.locked = true → s'.lock c.target = some j ∧
      ∃ t, TaskOk t ∧ s'.sig c.target = some { t with sig := c.progress t.sig })
    (hsleep : ∀ k t sleep, s'.sig k = some t → s.place k = .out sleep → SleepOk s' k t) :
    Inv s' := by
  have hself : s'.sender j = o := by rw [hsender, update_self]
  have hother : ∀ j' ≠ j, s'.sender j' = s.sender j' := fun j' hj => by
    rw [hsender, update_of_ne hj]
  refine ⟨fun k hk => ?_, hok, fun k j' hj' => ?_, fun j' d hd => ?_, fun j' d hd hdl => ?_,
    fun k t sleep hk hout => hsleep k t sleep hk (hplace ▸ hout)⟩
  · rw [hplace]
    exact hinv.present k (((hsigs k).resolve_right fun h => h.2 hk).symm.trans hk)
  all_goals by_cases hj : j' = j
  · subst hj
    rw [hself]
    exact hheld k hj'
  · rw [hother j' hj]
    exact hinv.held k j' ((hlocks k j' hj).mp hj')
  · subst hj
    exact hnumber d (hself.symm.trans hd)
  · exact hinv.number j' d (hother j' hj ▸ hd)
  · subst hj
    exact hmid d (hself.symm.trans hd) hdl
  · obtain ⟨hlock, t, ht, hsig⟩ := hinv.mid j' d (hother j' hj ▸ hd) hdl
    refine ⟨(hlocks _ j' hj).mpr hlock, t, ht, ((hsigs _).resolve_right fun h => ?_).trans hsig⟩
    exact hj (Option.some.inj (hlock.symm.trans h.1))

/-- A sender writes to the signals of its target. -/
theorem Inv.advance {f : Sig → Sig} (hc : s.sender j = some c)
    (hlocked : c.locked = true) (hlocked' : c'.locked = true) (htarget : c'.target = c.target)
    (hinfo : c'.info = c.info) (hf : ∀ sig, c'.progress sig = f (c.progress sig))
    (hkill : ∀ sig, has (f sig).signal sigkill = true →
      has sig.signal sigkill = true ∨ c.info.signo = sigkill) :
    Inv ((s.mapSig c.target f).setSender j (some c')) := by
  obtain ⟨hlock, t₀, ht₀, hsig⟩ := hinv.mid j c hc hlocked
  have hself : ((s.mapSig c.target f).setSender j (some c')).sig c.target =
      some { t₀ with sig := c'.progress t₀.sig } := by
    refine (update_self _ _ _).trans ?_
    rw [hsig, Option.map_some, hf]
  have hother : ∀ k, k ≠ c.target →
      ((s.mapSig c.target f).setSender j (some c')).sig k = s.sig k :=
    fun k hk => update_of_ne hk _ _
  have hsender : ((s.mapSig c.target f).setSender j (some c')).sender =
      update s.sender j (some c') := rfl
  refine hinv.bySender rfl hsender (fun _ _ _ => .rfl) (fun k => ?_) (fun k t hk hfree => ?_)
    (fun k hk => ⟨c', rfl, htarget.trans (hinv.target hc hk).1, hlocked'⟩) ?_ ?_
    fun k t sleep hk hout => ?_
  · by_cases hkt : k = c.target
    · subst hkt
      exact .inr ⟨hlock, by rw [hself]; exact nofun⟩
    · exact .inl (hother k hkt)
  · have hkt : k ≠ c.target := by
      rintro rfl
      exact nomatch hlock.symm.trans hfree
    exact hinv.ok k t (hother k hkt ▸ hk) hfree
  · rintro _ ⟨⟩
    exact hinfo ▸ hinv.number j c hc
  · rintro _ ⟨⟩ -
    rw [htarget]
    exact ⟨hlock, t₀, ht₀, hself⟩
  · have hwakes : c'.wakes := .inl hlocked'
    by_cases hkt : k = c.target
    · subst hkt
      have hold := hinv.sleep c.target _ sleep hsig hout
      have hnow : ∀ p : ℕ → Prop, p c.info.signo →
          Coming ((s.mapSig c.target f).setSender j (some c')) c.target p := fun p hp =>
        ⟨j, c', update_self _ _ _, htarget, hwakes, hinfo ▸ hp⟩
      cases hself.symm.trans hk
      refine ⟨fun _ _ => hnow _ trivial, fun hstate hpending => ?_⟩
      rw [hf] at hpending
      rcases hkill _ hpending with hbefore | hsigno
      · exact (hold.killable hstate hbefore).update hc hsender htarget hinfo fun _ => hwakes
      · exact hnow _ hsigno
    · exact (hinv.sleep k t sleep (hother k hkt ▸ hk) hout).mono (fun _ _ => id)
        fun _ h => h.update hc hsender htarget hinfo fun _ => hwakes

omit hinv in
theorem has_sendFlush {n : ℕ} (h : has (sendFlush sig n).signal sigkill = true) :
    has sig.signal sigkill = true := by
  unfold sendFlush at h
  split_ifs at h
  iterate 2
    rw [flushSignals, has_and_not isSig_sigkill, Bool.and_eq_true] at h
    exact h.1
  exact h

omit hinv in
theorem has_kill_of_sendQueue {info : Siginfo} {alloc : Bool} (hsig : IsSig info.signo)
    (h : has (sendQueue sig info alloc).signal sigkill = true) :
    has sig.signal sigkill = true ∨ info.signo = sigkill := by
  by_cases haccepts : accepts sig info.signo = true
  · rw [sendQueue, if_pos haccepts, has_or, Bool.or_eq_true, has_sigmask isSig_sigkill hsig,
      decide_eq_true_iff] at h
    exact h.imp_right Eq.symm
  · rw [sendQueue, if_neg haccepts] at h
    exact .inl h

omit hinv in
theorem mapSig_id (s : State N M) (i : Fin N) : s.mapSig i id = s := by
  have hid : (s.sig i).map (fun t => { t with sig := id t.sig }) = s.sig i := by
    cases s.sig i <;> rfl
  rw [State.mapSig, hid, update_eq_self]

/-- A sender takes the lock of its target. -/
theorem Inv.lock (hc : s.sender j = some c) (hfree : s.lock c.target = none)
    (ht : s.sig c.target = some t) :
    Inv ({ s with lock := update s.lock c.target (some j) }.setSender j
      (some { c with pc := .flush })) := by
  have hother : ∀ k ≠ c.target, update s.lock c.target (some j) k = s.lock k :=
    fun k hk => update_of_ne hk _ _
  refine hinv.bySender rfl rfl (fun k j' hj => ?_) (fun _ => .inl rfl) (fun k t hk hk' => ?_)
    (fun k hk => ?_) ?_ ?_ fun k t sleep hk hout => ?_
  · by_cases hkt : k = c.target
    · subst hkt
      have hself := update_self c.target (some j) s.lock
      exact ⟨fun h => absurd (Option.some.inj (hself.symm.trans h)).symm hj,
        fun h => nomatch hfree.symm.trans h⟩
    · exact iff_of_eq (congrArg (· = _) (hother k hkt))
  · by_cases hkt : k = c.target
    · subst hkt
      exact absurd ((update_self _ _ _).symm.trans hk') nofun
    · exact hinv.ok k t hk ((hother k hkt).symm.trans hk')
  · refine ⟨_, rfl, ?_, rfl⟩
    by_contra hkt
    have htarget := hinv.target hc ((hother k (Ne.symm hkt)).symm.trans hk)
    exact hkt htarget.1
  · rintro _ ⟨⟩
    exact hinv.number j c hc
  · rintro _ ⟨⟩ -
    exact ⟨update_self _ _ _, t, hinv.ok _ _ ht hfree, ht⟩
  · exact (hinv.sleep k t sleep hk hout).mono (fun _ _ => id)
      fun _ h => h.update hc rfl rfl rfl fun _ => .inl rfl

/-- A sender gives the lock up and knows whether to wake its target. -/
theorem Inv.unlock (hc : s.sender j = some c) (hpc : c.pc = .unlock)
    (ht : s.sig c.target = some t) : Inv ({ s with lock := update s.lock c.target none }.setSender j
      (some { c with pc := .wake t.sig.sigpending })) := by
  have hlocked : c.locked = true := by rw [Send.locked, hpc]
  obtain ⟨hlock, t₀, ht₀, hsig⟩ := hinv.mid j c hc hlocked
  cases ht.symm.trans hsig
  have hnumber := hinv.number j c hc
  have hok : TaskOk { t₀ with sig := c.progress t₀.sig } := by
    have hkeeps := (keeps_sendTask ht₀ c.alloc hnumber.2).ok
    have hzero : c.info.signo ≠ 0 := by
      have := hnumber.1
      omega
    rw [sendTask, if_neg hzero] at hkeeps
    rwa [Send.progress, hpc]
  have hother : ∀ k ≠ c.target, update s.lock c.target none k = s.lock k :=
    fun k hk => update_of_ne hk _ _
  refine hinv.bySender rfl rfl (fun k j' hj => ?_) (fun _ => .inl rfl) (fun k t hk hk' => ?_)
    (fun k hk => ?_) ?_ ?_ fun k t sleep hk hout => ?_
  · by_cases hkt : k = c.target
    · subst hkt
      have hself := update_self c.target none s.lock
      exact ⟨fun h => (nomatch hself.symm.trans h),
        fun h => absurd (Option.some.inj (hlock.symm.trans h)).symm hj⟩
    · exact iff_of_eq (congrArg (· = _) (hother k hkt))
  · by_cases hkt : k = c.target
    · subst hkt
      cases ht.symm.trans hk
      exact hok
    · exact hinv.ok k t hk ((hother k hkt).symm.trans hk')
  · have hkt : k ≠ c.target := by
      rintro rfl
      exact absurd ((update_self _ _ _).symm.trans hk) nofun
    exact absurd (hinv.target hc ((hother k hkt).symm.trans hk)).1.symm hkt
  · rintro _ ⟨⟩
    exact hnumber
  · rintro _ ⟨⟩
    exact nofun
  · -- A target that sleeps with a signal has its flag set, and the sender has seen it.
    obtain ⟨hint, hkill⟩ := hinv.sleep k t sleep hk hout
    have hwakes : t.sig.sigpending = true → c.target = k →
        Send.wakes { c with pc := .wake (c.progress t₀.sig).sigpending } := by
      rintro hpending rfl
      cases ht.symm.trans hk
      exact .inr (congrArg SendPc.wake hpending)
    have hflag : has t.sig.signal sigkill = true → c.target = k → t.sig.sigpending = true := by
      rintro hpending rfl
      cases ht.symm.trans hk
      exact sigpending_of_kill hok.sig hpending
    exact ⟨fun h h' => (hint h h').update hc rfl rfl rfl (hwakes h'),
      fun h h' => (hkill h h').update hc rfl rfl rfl fun heq => hwakes (hflag h' heq) heq⟩

/-- A sender wakes its target and returns. -/
theorem Inv.wake {notify : Bool} (hc : s.sender j = some c) (hpc : c.pc = .wake notify) :
    Inv ((s.setState c.target ((SendPc.wake notify).state c.info (s.state c.target))).setSender
      j none) := by
  generalize hnext : (SendPc.wake notify).state c.info (s.state c.target) = next
  simp only [SendPc.state] at hnext
  have hor : next = s.state c.target ∨ next = .runnable := by
    rw [← hnext]
    split
    · exact TaskState.woken_or _ _
    · exact .inl rfl
  have hinv' := hinv.setState (i := c.target) hor
  have hnot : c.locked = false := by rw [Send.locked, hpc]
  refine hinv'.bySender rfl rfl (fun _ _ _ => .rfl) (fun _ => .inl rfl) hinv'.ok
    (fun k hk => ?_) nofun nofun fun k t sleep hk hout => ?_
  · have hlocked := (hinv.target hc hk).2
    rw [hnot] at hlocked
    cases hlocked
  · obtain ⟨hint, hkill⟩ := hinv'.sleep k t sleep hk hout
    -- The other senders remain; this one has done its part.
    have hgone : ∀ p : ℕ → Prop, Coming (s.setState c.target next) k p →
        (k = c.target → notify = true → p c.info.signo → False) →
        Coming ((s.setState c.target next).setSender j none) k p := by
      rintro p ⟨j', d, hd, hdk, hdw, hp⟩ hdone
      refine ⟨j', d, (update_of_ne ?_ _ _).trans hd, hdk, hdw, hp⟩
      rintro rfl
      cases hc.symm.trans hd
      rcases hdw with hdw | hdw
      · rw [hnot] at hdw
        cases hdw
      · rw [hpc, SendPc.wake.injEq] at hdw
        exact hdone hdk.symm hdw hp
    constructor
    · intro h h'
      refine hgone _ (hint h h') ?_
      rintro rfl rfl -
      have hstate : next = .interruptible := (update_self _ _ _).symm.trans h
      rw [if_pos rfl] at hnext
      rcases hor with heq | heq
      · rw [← heq, hstate] at hnext
        revert hnext
        cases decide (c.info.signo = sigkill) <;> decide
      · rw [hstate] at heq
        cases heq
    · intro h h'
      refine hgone _ (hkill h h') ?_
      rintro rfl rfl hsigno
      have hstate : next = .killable := (update_self _ _ _).symm.trans h
      rw [if_pos rfl, hsigno] at hnext
      rcases hor with heq | heq
      · rw [← heq, hstate] at hnext
        revert hnext
        decide
      · rw [hstate] at heq
        cases heq

theorem Inv.send (hnone : s.sender j = none) (hsig : IsSig c.info.signo) (hpc : c.pc = .lock) :
    Inv (s.setSender j (some c)) := by
  have hnot : c.locked = false := by rw [Send.locked, hpc]
  have hother : ∀ j' d, s.sender j' = some d → (s.setSender j (some c)).sender j' = some d := by
    intro j' d hd
    refine (update_of_ne ?_ _ _).trans hd
    rintro rfl
    exact nomatch hnone.symm.trans hd
  refine hinv.bySender rfl rfl (fun _ _ _ => .rfl) (fun _ => .inl rfl) hinv.ok
    (fun k hk => ?_) ?_ ?_ fun k t sleep hk hout => ?_
  · obtain ⟨d, hd, -⟩ := hinv.held k j hk
    exact nomatch hnone.symm.trans hd
  · rintro _ ⟨⟩
    exact hsig
  · rintro _ ⟨⟩ hlocked
    rw [hnot] at hlocked
    cases hlocked
  · refine (hinv.sleep k t sleep hk hout).mono (fun _ _ => id) ?_
    rintro p ⟨j', d, hd, hrest⟩
    exact ⟨j', d, hother j' d hd, hrest⟩

theorem Inv.sendStep (hc : s.sender j = some c) (hstep : sendStep s j c = some s') : Inv s' := by
  have hnumber := hinv.number j c hc
  obtain ⟨t, ht, hstep⟩ := Option.bind_eq_some_iff.mp hstep
  -- The state of the target, where the step does not wake it.
  have hsame := hinv.setState (i := c.target) (.inl rfl)
  cases hpc : c.pc with simp only [hpc] at hstep
  | lock =>
    obtain ⟨hfree, rfl⟩ := ite_eq_some.mp hstep
    exact hinv.lock hc hfree ht
  | flush =>
    cases hstep
    refine hsame.advance hc (by rw [Send.locked, hpc]) rfl rfl rfl (fun sig => ?_) fun sig h => ?_
    · simp only [Send.progress, hpc, SendPc.signals]
    · exact .inl (has_sendFlush h)
  | clear =>
    cases hstep
    refine hsame.advance hc (by rw [Send.locked, hpc]) rfl rfl rfl (fun sig => ?_) fun sig h => ?_
    · simp only [Send.progress, hpc, SendPc.signals]
    · rw [SendPc.signals, sendClear_signal] at h
      exact .inl h
  | queue =>
    cases hstep
    refine hsame.advance hc (by rw [Send.locked, hpc]) rfl rfl rfl (fun sig => ?_) fun sig h => ?_
    · simp only [Send.progress, hpc, SendPc.signals]
    · exact has_kill_of_sendQueue hnumber h
  | recalc =>
    cases hstep
    refine hsame.advance hc (by rw [Send.locked, hpc]) ?_ rfl rfl (fun sig => ?_) fun sig h => ?_
    · cases resumes c.info.signo <;> rfl
    · simp only [Send.progress, hpc]
      cases resumes c.info.signo <;> rfl
    · exact .inl h
  | resume =>
    cases hstep
    have hwoken := hinv.setState (TaskState.woken_or (s.state c.target) resumeStates)
    exact hwoken.advance hc (by rw [Send.locked, hpc]) rfl rfl rfl
      (fun sig => by simp only [Send.progress, hpc, SendPc.signals]) fun sig h => .inl h
  | unlock =>
    cases hstep
    exact hinv.unlock hc hpc ht
  | wake notify =>
    cases hstep
    have hwake := hinv.wake hc hpc
    rwa [← mapSig_id (s.setState ..)] at hwake

theorem Inv.step {b : Action N M} (hstep : step s b = some s') : Inv s' := by
  cases b with
  | own a =>
    simp only [SignalWakeup.step] at hstep
    split at hstep
    · cases hstep
    next i hactor =>
      simp only [Option.ite_none_right_eq_some] at hstep
      obtain ⟨⟨hplace, hlock⟩, hstep⟩ := hstep
      obtain ⟨sigs, hsigs, rfl⟩ := Option.map_eq_some_iff.mp hstep
      exact hinv.own hactor hplace hlock hsigs
  | check i sleep =>
    simp only [SignalWakeup.step] at hstep
    split at hstep
    next t ht hplace =>
      cases hstep
      split
      · exact hinv
      · have hmove : Inv ((s.setState i (s.state i)).setPlace i (.checked sleep)) :=
          hinv.setPlace (by rw [ht]; exact nofun) nofun
        rwa [setState_self] at hmove
    · cases hstep
  | register i =>
    simp only [SignalWakeup.step] at hstep
    split at hstep
    next sleep hplace =>
      cases hstep
      refine hinv.setPlace (fun hnone => ?_) nofun
      rw [hinv.present i hnone] at hplace
      cases hplace
    · cases hstep
  | park i =>
    simp only [SignalWakeup.step] at hstep
    split at hstep
    next ht _ =>
      cases hstep
      exact hinv.park ht
    · cases hstep
  | resume i =>
    simp only [SignalWakeup.step] at hstep
    split at hstep
    · obtain ⟨-, rfl⟩ := ite_eq_some.mp hstep
      have hmove : Inv ((s.setState i (s.state i)).setPlace i .running) :=
        hinv.setPlace (fun _ => rfl) nofun
      rwa [setState_self] at hmove
    · cases hstep
  | wake i states =>
    cases hstep
    exact hinv.setState (TaskState.woken_or _ _)
  | send j target info alloc =>
    obtain ⟨⟨hnone, hsig⟩, rfl⟩ := ite_eq_some.mp hstep
    exact hinv.send hnone hsig rfl
  | sender j =>
    obtain ⟨c, hc, hstep⟩ := Option.bind_eq_some_iff.mp hstep
    exact hinv.sendStep hc hstep

end

theorem inv_boot (i : Fin N) : Inv (boot i : State N M) where
  present := fun _ _ => rfl
  ok := fun k t hk _ => taskOk_of_reachable (.init rfl) k t hk
  held := nofun
  number := nofun
  mid := nofun
  sleep := nofun

/-! ### No signal is slept through -/

/-- No sender to task `i` is in its section of `signal_lock` or between it and the wake-up. -/
def Quiet (s : State N M) (i : Fin N) : Prop :=
  ∀ j c, s.sender j = some c → c.target = i → c.pc = .lock

/-- **Signals wake sleepers.** No task is switched out in an interruptible sleep with
`TF_SIGPENDING` set, nor in a killable one with `SIGKILL` pending, unless a sender is about to
wake it. -/
theorem awake_of_reachable {i₀ : Fin N} (hs : Reachable (· = boot i₀) (Graph step) s)
    (ht : s.sig i = some t) {sleep : Sleep} (hout : s.place i = .out sleep) (hquiet : Quiet s i) :
    ¬ (s.state i = .interruptible ∧ t.sig.sigpending = true) ∧
      ¬ (s.state i = .killable ∧ t.sig.signal &&& sigmask sigkill ≠ 0) := by
  have hinv : Inv s :=
    hs.invariant (fun _ h => h ▸ inv_boot i₀) fun _ _ _ hinv hstep => hinv.step hstep
  obtain ⟨hint, hkill⟩ := hinv.sleep i t sleep ht hout
  have hnobody : ∀ p, ¬ Coming s i p := by
    rintro p ⟨j, c, hc, hci, hwakes, -⟩
    have hpc := hquiet j c hc hci
    rcases hwakes with hlocked | hwake
    · rw [Send.locked, hpc] at hlocked
      cases hlocked
    · rw [hpc] at hwake
      cases hwake
  constructor
  · rintro ⟨hstate, hpending⟩
    exact hnobody _ (hint hstate hpending)
  · rintro ⟨hstate, hpending⟩
    exact hnobody _ (hkill hstate ((and_sigmask_ne_zero isSig_sigkill).mp hpending))

/-- A task blocks `SIGTERM`, is sent it and sleeps all the same; another one is sent it between
its two looks at its signals, and sleeps until it is killed. -/
def sleepers : List (Action 2 2) :=
  [.own (.fork 0 1), .own (.sigprocmask 0 .block (some (sigmask 15))),
    .check 0 .waitEventInterruptible, .register 0, .check 1 .waitForCompletionKillable,
    .send 0 0 ⟨15, siUser, 0⟩ true, .send 1 1 ⟨15, siUser, 0⟩ true,
    .sender 0, .sender 0, .sender 0, .sender 0, .sender 0, .sender 0, .sender 0, .park 0,
    .sender 1, .sender 1, .sender 1, .sender 1, .sender 1, .register 1, .park 1, .sender 1,
    .sender 1]

/-- Both tasks sleep: the signals are not for them to wake up by. -/
theorem awake_sleepers : ∃ s : State 2 2, Reachable (· = boot 0) (Graph step) s ∧
    ∃ t, s.sig 1 = some t ∧ s.place 1 = .out .waitForCompletionKillable ∧ Quiet s 1 ∧
      t.sig.sigpending = true ∧ s.state 1 = .killable ∧
      ¬ (s.state 1 = .killable ∧ t.sig.signal &&& sigmask sigkill ≠ 0) := by
  have hexec : ((exec step (boot 0 : State 2 2) sleepers).bind fun s =>
      (s.sig 1).map fun t => decide ((∀ j, s.sender j = none) ∧
        s.place 1 = .out .waitForCompletionKillable ∧ t.sig.sigpending = true ∧
        s.state 1 = .killable)) = some true := by
    decide +kernel
  obtain ⟨s, hs, hmap⟩ := Option.bind_eq_some_iff.mp hexec
  obtain ⟨t, ht, hok⟩ := Option.map_eq_some_iff.mp hmap
  obtain ⟨hnone, hout, hpending, hstate⟩ := of_decide_eq_true hok
  have hreach : Reachable (· = boot 0) (Graph step) s := Reachable.exec (.init rfl) hs
  have hquiet : Quiet s 1 := by
    intro j c hc
    rw [hnone j] at hc
    cases hc
  exact ⟨s, hreach, t, ht, hout, hquiet, hpending, hstate,
    (awake_of_reachable hreach ht hout hquiet).2⟩

end Nuvix.SignalWakeup
