import Nuvix.Kernel.StopContinue

/-!
# No stop outlives a continue

A stop signal that is pending was sent after the last `SIGCONT`, because a `SIGCONT` takes
the pending stop signals away; and a task that has a `SIGKILL` pending takes no stop signal
any more. So whenever `TF_STOPPENDING` is set, the stop signal it stands for was sent after
the last clearing of the flag, and a task that is stopped was stopped by a signal that was
sent after the last `sched_resume`.
-/

namespace Nuvix.StopContinue

open Transition Signal Sched Function

variable {N : ℕ} {r' : Record} {signal signal' : Sigset} {k : ℕ} {c : Send}

/-! ### The invariant -/

/-- `n` is the number of a send of a stop signal. -/
structure Record.StopSent (r : Record) (n : ℕ) : Prop where
  le : n ≤ r.clock
  stop : IsStop (r.sent n)

/-- `n` is the number of a send of a signal that resumes the task. -/
structure Record.ResumerSent (r : Record) (n : ℕ) : Prop where
  le : n ≤ r.clock
  resumes : resumes (r.sent n) = true

structure Record.Ok (r : Record) : Prop where
  resumed : r.resumed ≤ r.cleared
  cleared : r.cleared ≤ r.clock

/-- A stop signal is pending only if it was sent after the last clearing of the flag. -/
def PendingOk (r : Record) (signal : Sigset) : Prop :=
  r.killed = false → ∀ k, IsStop k → has signal k = true →
    r.cleared < r.stamp k ∧ r.StopSent (r.stamp k)

/-- The signal that was taken is a `SIGKILL`, which no handler is for. -/
def IsKill (got : Got) : Prop :=
  got.signal.info.signo = sigkill ∧ got.signal.action.handler = .dfl

/-- The task has taken a `SIGKILL`. -/
def Self.Dying : Self → Prop
  | .took _ got | .flagged _ got | .recalced _ got | .handle _ got => IsKill got
  | .exit => True
  | _ => False

/-- A `SIGKILL` that has cleared the flag is pending or taken, or about to be pending. -/
def KillOk (s : State N) : Prop :=
  s.record.killed = true → has s.sig.signal sigkill = true ∨ s.self.Dying ∨
    ∃ i c, s.sender i = some c ∧ c.pc = .queue ∧ c.info.signo = sigkill

/-- Where the task is about to stop, it is for a signal sent late enough. A fault is never
handled again after its signal was passed over. -/
def SelfOk (r : Record) : Self → Prop
  | .took _ got => got.stops = true → r.cleared < r.cause ∧ r.StopSent r.cause
  | .stopClear _ | .stopSet _ => r.resumed < r.cause ∧ r.StopSent r.cause
  | _ => True

/-- The exceptions have their own signals. -/
def Self.fault : Self → Option Siginfo
  | .get fault | .took fault _ | .flagged fault _ | .recalced fault _ | .handle fault _
  | .stop fault | .stopTest fault | .stopClear fault | .stopSet fault | .stopUnlock fault
  | .park fault => fault
  | _ => none

def Self.locks : Self → Bool
  | .took _ _ | .flagged _ _ | .recalced _ _ => true
  | _ => false

/-- Where the task can be while it is stopped. -/
def Self.stops : Self → Bool
  | .stopUnlock _ | .park _ => true
  | _ => false

/-- What a signal to deliver satisfies, as in `SignalInvariant`. -/
def Self.DeliverOk : Self → Prop
  | .took _ got | .flagged _ got | .recalced _ got | .handle _ got => KsignalOk got.signal
  | .deliver signal => KsignalOk signal ∧ signal.action.handler ≠ .dfl
  | _ => True

def SendPc.locks : SendPc → Bool
  | .lock | .wake _ => false
  | _ => true

section Send

variable (r : Record) (signal : Sigset) (c : Send)

/-- The sender that holds the lock is the last one. -/
def Send.Fresh : Prop := c.stamp = r.clock ∧ r.sent r.clock = c.info.signo

/-- Stop signals and `SIGCONT` cancel each other. -/
def Send.Flushed : Prop :=
  (IsStop c.info.signo → has signal sigcont = false) ∧
    (c.info.signo = sigcont → ∀ k, IsStop k → has signal k = false)

def Send.Cleared : Prop :=
  if resumes c.info.signo then r.cleared = r.clock else r.cleared < r.clock

def Send.Resumed : Prop :=
  resumes c.info.signo = true → c.stamp ≤ r.resumed ∧ r.ResumerSent c.stamp

def Send.Ok : Prop :=
  IsSig c.info.signo ∧
    match c.pc with
    | .lock => True
    | .flush => c.Fresh r ∧ r.cleared < r.clock
    | .clear => c.Fresh r ∧ r.cleared < r.clock ∧ c.Flushed signal
    | .queue => c.Fresh r ∧ c.Cleared r ∧ c.Flushed signal
    | .recalc => c.Fresh r ∧ c.Cleared r
    | .resume => c.Fresh r ∧ resumes c.info.signo = true ∧ r.cleared = r.clock
    | .unlock => c.Fresh r ∧ c.Resumed r
    | .wake _ => c.Resumed r

end Send

structure Inv (s : State N) : Prop where
  core : Core s.sig
  fault : ∀ info, s.self.fault = some info → isFault info.signo = true
  deliver : s.self.DeliverOk
  lockSelf : s.lock = some .self ↔ s.self.locks = true
  lockSender : ∀ i, s.lock = some (.sender i) ↔ ∃ c, s.sender i = some c ∧ c.pc.locks = true
  record : s.record.Ok
  send : ∀ i c, s.sender i = some c → c.Ok s.record s.sig.signal
  pending : PendingOk s.record s.sig.signal
  kill : KillOk s
  self : SelfOk s.record s.self
  flag : s.sig.stoppending = true →
    s.record.cleared < s.record.cause ∧ s.record.StopSent s.record.cause
  stopped : s.state = .stopped → s.self.stops = true ∧
    s.record.resumed < s.record.cause ∧ s.record.StopSent s.record.cause
  completed : ∀ y ∈ s.completed, y ≤ s.record.resumed ∧ s.record.ResumerSent y

/-! ### What later sends leave alone -/

/-- The sends of `r` are the first ones of `r'`. -/
structure Record.Le (r r' : Record) : Prop where
  clock : r.clock ≤ r'.clock
  resumed : r.resumed ≤ r'.resumed
  sent : ∀ n ≤ r.clock, r'.sent n = r.sent n

section Record

variable {r r' : Record} {n : ℕ}

theorem Record.Le.refl (r : Record) : r.Le r := ⟨le_rfl, le_rfl, fun _ _ => rfl⟩

theorem Record.StopSent.mono (h : r.StopSent n) (hle : r.Le r') : r'.StopSent n :=
  ⟨h.le.trans hle.clock, by rw [hle.sent n h.le]; exact h.stop⟩

theorem Record.ResumerSent.mono (h : r.ResumerSent n) (hle : r.Le r') : r'.ResumerSent n :=
  ⟨h.le.trans hle.clock, by rw [hle.sent n h.le]; exact h.resumes⟩

/-- A sender that does not hold the lock knows only about its own return. -/
theorem Send.Ok.mono (h : c.Ok r signal) (hlocks : c.pc.locks = false) (hle : r.Le r') :
    c.Ok r' signal' := by
  obtain ⟨info, alloc, stamp, pc⟩ := c
  obtain ⟨hsig, hpc⟩ := h
  refine ⟨hsig, ?_⟩
  cases pc with
  | lock => trivial
  | wake notify =>
    intro hresumes
    obtain ⟨hstamp, hsent⟩ := hpc hresumes
    exact ⟨hstamp.trans hle.resumed, hsent.mono hle⟩
  | _ => exact nomatch hlocks

theorem Record.le_cause (r : Record) (cause : ℕ) : r.Le { r with cause := cause } :=
  ⟨le_rfl, le_rfl, fun _ _ => rfl⟩

theorem PendingOk.mono (h : PendingOk r signal) (hle : r.Le r') (hkilled : r'.killed = r.killed)
    (hcleared : r'.cleared = r.cleared) (hstamp : r'.stamp = r.stamp) : PendingOk r' signal := by
  intro hnot k hk hhas
  rw [hkilled] at hnot
  rw [hcleared, hstamp]
  exact ⟨(h hnot k hk hhas).1, (h hnot k hk hhas).2.mono hle⟩

/-- The sends that have returned keep their place. -/
theorem completed_mono {completed : List ℕ} (h : ∀ y ∈ completed, y ≤ r.resumed ∧ r.ResumerSent y)
    (hle : r.Le r') : ∀ y ∈ completed, y ≤ r'.resumed ∧ r'.ResumerSent y :=
  fun y hy => ⟨(h y hy).1.trans hle.resumed, (h y hy).2.mono hle⟩

end Record

/-! ### Steps of the task -/

section Self

variable {s s' : State N} {fault : Option Siginfo} {got : Got} {old self : Self} {state : TaskState}
  {sig sig' : Sig}

/-- While one party holds the lock, the senders that are not this party do not. -/
theorem Inv.unlocked (h : Inv s) {i : Fin N} (hlock : s.lock ≠ some (.sender i))
    (hi : s.sender i = some c) : c.pc.locks = false := by
  by_contra hlocks
  exact hlock ((h.lockSender i).mpr ⟨c, hi, by simpa using hlocks⟩)

theorem Inv.fault_of (h : Inv s) (hs : s.self = old) (hsame : self.fault = old.fault) :
    ∀ info, self.fault = some info → isFault info.signo = true := by
  rw [hsame, ← hs]
  exact h.fault

theorem Inv.deliverOk (h : Inv s) (hs : s.self = old) : old.DeliverOk := by
  rw [← hs]
  exact h.deliver

theorem Inv.selfOk (h : Inv s) (hs : s.self = old) : SelfOk s.record old := by
  rw [← hs]
  exact h.self

theorem Inv.not_stopped (h : Inv s) (hs : s.self = old) (hold : old.stops = false) :
    s.state ≠ .stopped := by
  intro hstopped
  have := (h.stopped hstopped).1
  rw [hs, hold] at this
  exact nomatch this

/-- No sender is in its section when the lock is free or the task's. -/
theorem Inv.kill_of_free (h : Inv s) (hlock : ∀ i, s.lock ≠ some (.sender i))
    (hkilled : s.record.killed = true) : has s.sig.signal sigkill = true ∨ s.self.Dying := by
  rcases h.kill hkilled with hpending | hdying | ⟨i, c, hi, hpc, -⟩
  · exact .inl hpending
  · exact .inr hdying
  · have := h.unlocked (hlock i) hi
    rw [hpc] at this
    exact nomatch this

section Move

variable (h : Inv s) (hs : s.self = old)
  (hfault : ∀ info, self.fault = some info → isFault info.signo = true)
  (hdeliver : self.DeliverOk) (hlocks : self.locks = old.locks)
  (hdying : old.Dying → self.Dying) (hself : SelfOk s.record self)
include h hs hfault hdeliver hlocks hdying hself

/-- The task moves on without the lock, and perhaps changes its state. -/
theorem Inv.move (hstate : state = .stopped → self.stops = true ∧
      s.record.resumed < s.record.cause ∧ s.record.StopSent s.record.cause) :
    Inv { s with self := self, state := state } where
  core := h.core
  fault := hfault
  deliver := hdeliver
  lockSelf := by
    dsimp only
    rw [hlocks, ← hs]
    exact h.lockSelf
  lockSender := h.lockSender
  record := h.record
  send := h.send
  pending := h.pending
  kill := by
    intro hkilled
    rcases h.kill hkilled with hpending | hself | hsender
    · exact .inl hpending
    · exact .inr (.inl (hdying (hs ▸ hself)))
    · exact .inr (.inr hsender)
  self := hself
  flag := h.flag
  stopped := hstate
  completed := h.completed

/-- The same where the task is not stopped. -/
theorem Inv.go (hstate : old.stops = true → self.stops = true) : Inv { s with self := self } := by
  apply h.move hs hfault hdeliver hlocks hdying hself
  intro hstopped
  exact ⟨hstate (hs ▸ (h.stopped hstopped).1), (h.stopped hstopped).2⟩

end Move

/-- Another task, or the scheduler, changes the state of the task. -/
theorem Inv.setState (h : Inv s) (hstate : state = .stopped → s.state = .stopped) :
    Inv { s with state := state } :=
  h.move rfl h.fault h.deliver rfl id h.self fun hstopped => h.stopped (hstate hstopped)

/-- A section of the task that adds no signal and keeps a `SIGKILL`. -/
structure Quiet (sig sig' : Sig) : Prop where
  core : Core sig'
  stoppending : sig'.stoppending = sig.stoppending
  subset : ∀ k, IsSig k → has sig'.signal k = true → has sig.signal k = true
  kill : has sig.signal sigkill = true → has sig'.signal sigkill = true

theorem PendingOk.subset {r : Record} (h : PendingOk r signal)
    (hsub : ∀ k, IsSig k → has signal' k = true → has signal k = true) : PendingOk r signal' :=
  fun hkilled k hk hhas => h hkilled k hk (hsub k (isSig_of_isStop hk) hhas)

theorem Inv.send_mono (h : Inv s) (hlock : ∀ i, s.lock ≠ some (.sender i)) (hle : s.record.Le r')
    (signal' : Sigset) : ∀ i c, s.sender i = some c → c.Ok r' signal' :=
  fun i c hi => (h.send i c hi).mono (h.unlocked (hlock i) hi) hle

theorem Inv.quiet (h : Inv s) (hlock : s.lock = none) (hquiet : Quiet s.sig sig) :
    Inv { s with sig := sig } where
  core := hquiet.core
  fault := h.fault
  deliver := h.deliver
  lockSelf := h.lockSelf
  lockSender := h.lockSender
  record := h.record
  send := h.send_mono (fun i heq => nomatch hlock.symm.trans heq) (Record.Le.refl _) _
  pending := h.pending.subset hquiet.subset
  kill := by
    intro hkilled
    rcases h.kill hkilled with hpending | hrest
    · exact .inl (hquiet.kill hpending)
    · exact .inr hrest
  self := h.self
  flag := by
    dsimp only
    rw [hquiet.stoppending]
    exact h.flag
  stopped := h.stopped
  completed := h.completed

theorem core_of_eq_or (h : Core sig) (h' : sig' = sig ∨ SigOk sig') : Core sig' := by
  rcases h' with rfl | h'
  · exact h
  · exact h'.toCore

theorem has_of_and_not {set other : Sigset} (hk : IsSig k) (h : has (set &&& ~~~other) k = true) :
    has set k = true := by
  rw [has_and_not hk, Bool.and_eq_true] at h
  exact h.1

theorem quiet_syscall (h : Core sig) {call : Syscall} (hrun : call.run sig = some sig') :
    Quiet sig sig' := by
  cases call with
  | sigsuspend set =>
    cases hrun
    exact ⟨(h.setBlocked (open_and_not set) _ _).toCore, rfl, fun _ _ => id, id⟩
  | sigaction n act =>
    obtain ⟨r, hr, rfl⟩ := Option.map_eq_some_iff.mp hrun
    have hok : Signal.sigaction sig n act = .ok r := eq_ok_of_toOption hr
    obtain ⟨hnew, hflag, hsignal⟩ := h.sigaction hok
    refine ⟨core_of_eq_or h hnew, hflag, fun k hk hhas => ?_, fun hkill => ?_⟩
    · rcases hsignal with heq | ⟨-, -, heq⟩
      · rwa [heq] at hhas
      · rw [heq] at hhas
        exact has_of_and_not hk hhas
    · exact h.has_kill_sigaction hkill hok
  | sigprocmask how set =>
    obtain ⟨r, hr, rfl⟩ := Option.map_eq_some_iff.mp hrun
    obtain ⟨hok, hsignal, hflag⟩ := h.sigprocmask (eq_ok_of_toOption hr)
    refine ⟨core_of_eq_or h hok, hflag, fun k _ hhas => ?_, fun hkill => ?_⟩
    · rwa [hsignal] at hhas
    · rwa [hsignal]
  | sigreturn mask =>
    cases hrun
    exact ⟨(h.setBlocked (open_and_not mask) _ _).toCore, rfl, fun _ _ => id, id⟩
  | signalClone =>
    cases hrun
    exact ⟨h.signalClone, rfl, fun _ _ => id, id⟩

theorem not_isStop_of_isFault {sig : ℕ} (h : isFault sig = true) : IsSig sig ∧ ¬ IsStop sig := by
  have hcases : sig = 4 ∨ sig = 5 ∨ sig = 7 ∨ sig = 11 := by simpa [isFault] using h
  rcases hcases with rfl | rfl | rfl | rfl <;> decide

section Take

variable {sig : Sig} {r : Sig × Got}

/-- Taking a signal adds none. -/
theorem subset_takeSignal {taken : Sig × Siginfo} (htake : takeSignal sig fault = some taken)
    (hk : IsSig k) (hhas : has taken.1.signal k = true) : has sig.signal k = true := by
  have hdequeue : ∀ n, taken = dequeueSignal sig n → has sig.signal k = true := by
    rintro n rfl
    rw [dequeueSignal_signal] at hhas
    exact has_of_and_not hk hhas
  rcases takeSignal_cases htake with ⟨-, heq⟩ | ⟨info, -, heq | rfl⟩
  · exact hdequeue _ heq
  · exact hdequeue _ heq
  · exact hhas

theorem stoppending_getTake (hget : getTake sig fault = some r) :
    r.1.stoppending = sig.stoppending := by
  have hdequeue : ∀ n, (dequeueSignal sig n).1.stoppending = sig.stoppending := by
    intro n
    unfold dequeueSignal
    dsimp only
    split <;> rfl
  obtain ⟨taken, htake, rfl⟩ := Option.map_eq_some_iff.mp hget
  change taken.1.stoppending = sig.stoppending
  rcases takeSignal_cases htake with ⟨-, rfl⟩ | ⟨info, -, rfl | rfl⟩
  · exact hdequeue _
  · exact hdequeue _
  · rfl

/-- A pending `SIGKILL` stays pending, or it is what is taken. -/
theorem kill_getTake (hcore : Core sig) (hfault : ∀ info, fault = some info → IsSig info.signo)
    (hkill : has sig.signal sigkill = true) (hget : getTake sig fault = some r) :
    has r.1.signal sigkill = true ∨ IsKill r.2 := by
  obtain ⟨taken, htake, rfl⟩ := Option.map_eq_some_iff.mp hget
  obtain ⟨htaken, hsig⟩ := hcore.takeSignal hfault htake
  by_cases heq : taken.2.signo = sigkill
  · refine .inr ⟨heq, ?_⟩
    change (taken.1.actions taken.2.signo).handler = .dfl
    rw [heq]
    exact htaken.kill
  · exact .inl (has_kill_takeSignal hsig htake hkill heq)

/-- A stop signal that is taken was pending, and no `SIGKILL` was. -/
theorem stop_getTake (hcore : Core sig)
    (hfault : ∀ info, fault = some info → isFault info.signo = true)
    (hget : getTake sig fault = some r) (hstops : r.2.stops = true) :
    IsStop r.2.signal.info.signo ∧ has sig.signal r.2.signal.info.signo = true ∧
      has sig.signal sigkill = false := by
  have hsig : ∀ info, fault = some info → IsSig info.signo :=
    fun info heq => (not_isStop_of_isFault (hfault info heq)).1
  have hnumber := (hcore.getTake hsig hget).2.number
  have hstop : IsStop r.2.signal.info.signo := by
    have hmask := (and_sigmask_ne_zero hnumber).mp (of_decide_eq_true hstops).2
    rw [has_sigStopmask hnumber] at hmask
    exact of_decide_eq_true hmask
  obtain ⟨taken, htake, -, hinfo⟩ := getTake_signal hget
  rw [hinfo] at hstop ⊢
  rcases takeSignal_cases htake with ⟨hne, rfl⟩ | ⟨info, hfaulted, rfl | rfl⟩
  · rw [dequeueSignal_signo] at hstop ⊢
    obtain ⟨hpick, hhas⟩ := pickSignal_mem hcore.range hne
    refine ⟨hstop, has_of_and_not hpick hhas, ?_⟩
    -- an unblocked `SIGKILL` would have been picked
    by_contra hkill
    have hpending : (sig.signal &&& ~~~sig.blocked) &&& sigmask sigkill ≠ 0 := by
      rw [and_sigmask_ne_zero (by decide), has_and_not (by decide), hcore.blocked.kill]
      simpa using hkill
    rw [pickSignal, if_pos hpending] at hstop
    exact absurd hstop (by decide)
  · rw [dequeueSignal_signo] at hstop
    exact absurd hstop (not_isStop_of_isFault (hfault info hfaulted)).2
  · exact absurd hstop (not_isStop_of_isFault (hfault info hfaulted)).2

end Take

section

variable (h : Inv s)
include h

/-- A signal is taken. If it is a stop signal, no `SIGKILL` has been sent. -/
theorem Inv.take (hself : s.self = .get fault) (hlock : s.lock = none) {got : Got}
    (hget : getTake s.sig fault = some (sig, got)) {cause : ℕ}
    (hstamp : got.stops = true → cause = s.record.stamp got.signal.info.signo)
    (hsame : got.stops = false → cause = s.record.cause) :
    Inv { s with
      sig := sig
      lock := some .self
      self := .took fault got
      record := { s.record with cause := cause } } := by
  have hfault : ∀ info, fault = some info → isFault info.signo = true :=
    h.fault_of hself (rfl : (Self.get fault).fault = _)
  have hsig : ∀ info, fault = some info → IsSig info.signo :=
    fun info heq => (not_isStop_of_isFault (hfault info heq)).1
  have hfree : ∀ i, s.lock ≠ some (.sender i) := fun i heq => nomatch hlock.symm.trans heq
  have hunlocked : ∀ i c, s.sender i = some c → c.pc.locks = false :=
    fun i c hi => h.unlocked (hfree i) hi
  have hle := Record.le_cause s.record cause
  obtain ⟨taken, htake, hsignal, -⟩ := getTake_signal hget
  obtain ⟨hcore, hks⟩ := h.core.getTake hsig hget
  dsimp only at hsignal hcore hks
  have hsubset : ∀ k, IsSig k → has sig.signal k = true → has s.sig.signal k = true := by
    intro k hk hhas
    rw [hsignal] at hhas
    exact subset_takeSignal htake hk hhas
  -- nothing that was killed gets here without a pending `SIGKILL`
  have hkill : s.record.killed = true → has s.sig.signal sigkill = true := by
    intro hkilled
    rcases h.kill_of_free hfree hkilled with hpending | hdying
    · exact hpending
    · rw [hself] at hdying
      exact hdying.elim
  have hcause : got.stops = true → s.record.cleared < cause ∧ s.record.StopSent cause := by
    intro hstops
    obtain ⟨hstop, hhas, hnokill⟩ := stop_getTake h.core hfault hget hstops
    rw [hstamp hstops]
    apply h.pending _ _ hstop hhas
    by_contra hkilled
    rw [hkill (by simpa using hkilled)] at hnokill
    exact nomatch hnokill
  refine ⟨hcore, hfault, hks, ⟨fun _ => rfl, fun _ => rfl⟩, ?_,
    ⟨h.record.resumed, h.record.cleared⟩,
    h.send_mono hfree hle _, (h.pending.subset hsubset).mono hle rfl rfl rfl, ?_, ?_, ?_, ?_,
    completed_mono h.completed hle⟩
  · intro i
    refine ⟨fun heq => (nomatch heq), fun ⟨c, hi, hlocks⟩ => ?_⟩
    rw [hunlocked i c hi] at hlocks
    exact nomatch hlocks
  · intro hkilled
    rcases kill_getTake h.core hsig (hkill hkilled) hget with hpending | hdying
    · exact .inl hpending
    · exact .inr (.inl hdying)
  · exact fun hstops => ⟨(hcause hstops).1, (hcause hstops).2.mono hle⟩
  · intro hset
    rw [stoppending_getTake hget] at hset
    dsimp only
    cases hstops : got.stops with
    | true => exact ⟨(hcause hstops).1, (hcause hstops).2.mono hle⟩
    | false =>
      rw [hsame hstops] at hle ⊢
      exact ⟨(h.flag hset).1, (h.flag hset).2.mono hle⟩
  · exact fun hstopped => absurd hstopped (h.not_stopped hself rfl)

theorem Inv.getStep (hself : s.self = .get fault) (hstep : getStep s fault = some s') : Inv s' := by
  obtain ⟨hlock, hstep⟩ := Option.ite_none_left_eq_some.mp hstep
  rw [Option.not_isSome_iff_eq_none] at hlock
  split at hstep
  · cases hstep
    split_ifs
    · exact h.go hself nofun trivial rfl id trivial nofun
    · exact h.go hself nofun trivial rfl id trivial nofun
  next sig got hget =>
    cases hstep
    apply h.take hself hlock hget
    · exact fun hstops => if_pos hstops
    · intro hstops
      rw [hstops]
      rfl

theorem Inv.flagged (hself : s.self = .took fault got) :
    Inv { s with sig := getStop s.sig got, self := .flagged fault got } := by
  have hlock : s.lock = some .self := h.lockSelf.mpr (by rw [hself]; rfl)
  have hdeliver := h.deliverOk hself
  refine ⟨h.core.getStop got, h.fault_of hself rfl, hdeliver, ⟨fun _ => rfl, fun _ => hlock⟩,
    h.lockSender, h.record, ?_, ?_, ?_, trivial, ?_,
    fun hstopped => absurd hstopped (h.not_stopped hself rfl), h.completed⟩
  · exact h.send_mono (fun i heq => nomatch hlock.symm.trans heq) (Record.Le.refl _) _
  · dsimp only
    rw [getStop_signal]
    exact h.pending
  · intro hkilled
    have hold := h.kill hkilled
    rw [hself] at hold
    dsimp only
    rwa [getStop_signal]
  · intro hset
    unfold getStop at hset
    dsimp only at hset
    split_ifs at hset with hstops
    · exact h.selfOk hself hstops
    · exact h.flag hset

/-- `TF_SIGPENDING` is brought up to date. -/
theorem Inv.recalced (hself : s.self = .flagged fault got) :
    Inv { s with sig := recalcSigpending s.sig, self := .recalced fault got } := by
  have hdeliver := h.deliverOk hself
  have hgo : Inv { s with self := .recalced fault got } :=
    h.go hself (h.fault_of hself rfl) hdeliver rfl id trivial nofun
  exact { hgo with core := hgo.core.recalc.toCore }

theorem Inv.handle (hself : s.self = .recalced fault got) :
    Inv { s with lock := none, self := .handle fault got } := by
  have hlock : s.lock = some .self := h.lockSelf.mpr (by rw [hself]; rfl)
  have hdeliver := h.deliverOk hself
  refine ⟨h.core, h.fault_of hself rfl, hdeliver, ⟨nofun, nofun⟩, ?_, h.record, h.send,
    h.pending, ?_, trivial, h.flag, fun hstopped => absurd hstopped (h.not_stopped hself rfl),
    h.completed⟩
  · intro i
    rw [← h.lockSender i, hlock]
    exact ⟨nofun, nofun⟩
  · intro hkilled
    have hold := h.kill hkilled
    rwa [hself] at hold

omit h in
/-- A `SIGKILL` that was taken leads to the exit. -/
theorem dispatch_of_isKill (h : IsKill got) : dispatch fault got = .exit := by
  unfold dispatch
  split_ifs
  · rfl
  · rw [h.2]
    dsimp only
    rw [signalDefault, h.1, if_neg (by decide), if_neg (by decide)]

omit h in
/-- What `get_signal` goes on to. -/
theorem dispatch_cases (fault : Option Siginfo) (got : Got) :
    dispatch fault got = .exit ∨ dispatch fault got = .get fault ∨
      dispatch fault got = .stop fault ∨
      dispatch fault got = .deliver got.signal ∧ got.signal.action.handler ≠ .dfl := by
  unfold dispatch
  split_ifs
  · exact .inl rfl
  · split
    · exact .inr (.inl rfl)
    · unfold signalDefault
      split_ifs
      · exact .inr (.inl rfl)
      · exact .inr (.inr (.inl rfl))
      · exact .inl rfl
    next heq =>
      exact .inr (.inr (.inr ⟨rfl, by rw [heq]; exact nofun⟩))

theorem Inv.dispatch (hself : s.self = .handle fault got) :
    Inv { s with self := dispatch fault got } := by
  have hfault : ∀ info, fault = some info → isFault info.signo = true :=
    h.fault_of hself (rfl : (Self.get fault).fault = _)
  have hdying : IsKill got → (StopContinue.dispatch fault got).Dying := by
    intro hkill
    rw [dispatch_of_isKill hkill]
    trivial
  rcases dispatch_cases fault got with heq | heq | heq | ⟨heq, hne⟩ <;> rw [heq] at hdying ⊢
  · exact h.go hself nofun trivial rfl hdying trivial nofun
  · exact h.go hself hfault trivial rfl hdying trivial nofun
  · exact h.go hself hfault trivial rfl hdying trivial nofun
  · exact h.go hself nofun ⟨h.deliverOk hself, hne⟩ rfl hdying trivial nofun

/-- `sched_stop` clears the flag it has found set. -/
theorem Inv.stopClear (hself : s.self = .stopClear fault) :
    Inv { s with sig := { s.sig with stoppending := false }, self := .stopSet fault } := by
  have hok := h.selfOk hself
  have hgo : Inv { s with self := .stopSet fault } :=
    h.go hself (h.fault_of hself rfl) trivial rfl id hok nofun
  exact { hgo with core := hgo.core.flags rfl rfl rfl rfl, flag := nofun }

/-- `sched_stop` stops the task for the signal it was called for. -/
theorem Inv.stopSet (hself : s.self = .stopSet fault) :
    Inv { s with state := .stopped, self := .stopUnlock fault } := by
  exact h.move hself (h.fault_of hself rfl) trivial rfl id trivial
    fun _ => ⟨rfl, h.selfOk hself⟩

theorem Inv.stopTest (hself : s.self = .stopTest fault) :
    Inv { s with
      self := if s.sig.stoppending then .stopClear fault else .stopUnlock fault } := by
  by_cases hset : s.sig.stoppending = true
  · rw [if_pos hset]
    obtain ⟨hlt, hsent⟩ := h.flag hset
    exact h.go hself (h.fault_of hself rfl) trivial rfl id ⟨h.record.resumed.trans_lt hlt, hsent⟩
      nofun
  · rw [if_neg hset]
    exact h.go hself (h.fault_of hself rfl) trivial rfl id trivial nofun

theorem Inv.selfStep (hstep : selfStep s = some s') : Inv s' := by
  unfold StopContinue.selfStep at hstep
  cases hself : s.self <;> rw [hself] at hstep <;> try cases hstep
  case get fault =>
    exact h.getStep hself hstep
  case took fault got =>
    exact h.flagged hself
  case flagged fault got =>
    exact h.recalced hself
  case recalced fault got =>
    exact h.handle hself
  case handle fault got =>
    exact h.dispatch hself
  case stop fault =>
    exact h.go hself (h.fault_of hself rfl) trivial rfl id trivial nofun
  case stopTest fault =>
    exact h.stopTest hself
  case stopClear fault =>
    exact h.stopClear hself
  case stopSet fault =>
    exact h.stopSet hself
  case stopUnlock fault =>
    exact h.go hself (h.fault_of hself rfl) trivial rfl id trivial fun _ => rfl
  case park fault =>
    obtain ⟨hrunnable, rfl⟩ := ite_eq_some.mp hstep
    exact h.move hself (h.fault_of hself rfl) trivial rfl id trivial
      fun hstopped => nomatch hrunnable.symm.trans hstopped
  case suspend =>
    split_ifs
    · exact h.go hself nofun trivial rfl id trivial nofun
    · exact h.go hself nofun trivial rfl id trivial nofun
  case suspendSet =>
    exact h.move hself nofun trivial rfl id trivial nofun
  case suspendPark =>
    obtain ⟨-, rfl⟩ := ite_eq_some.mp hstep
    exact h.move hself nofun trivial rfl id trivial nofun
  case deliver signal =>
    obtain ⟨hlock, ⟨rfl⟩⟩ := Option.ite_none_left_eq_some.mp hstep
    have hok := h.deliverOk hself
    have hquiet : Quiet s.sig (delivered s.sig signal) :=
      ⟨(h.core.delivered hok.1 hok.2).toCore, rfl, fun _ _ => id, id⟩
    rw [Option.not_isSome_iff_eq_none] at hlock
    have hsig := h.quiet hlock hquiet
    exact hsig.go hself nofun trivial rfl id trivial nofun
  case exit =>
    exact h.move hself nofun trivial rfl (fun _ => trivial) trivial nofun

end

end Self

/-! ### Steps of a sender -/

section Sender

variable {s : State N} {i : Fin N} {c : Send} {sig : Sig} {state : TaskState} {r : Record}
  {completed : List ℕ} {c' : Option Send}

/-- The sender that holds the lock. -/
theorem Inv.lock_eq (h : Inv s) (hi : s.sender i = some c) (hlocks : c.pc.locks = true) :
    s.lock = some (.sender i) :=
  (h.lockSender i).mpr ⟨c, hi, hlocks⟩

theorem Inv.self_unlocked (h : Inv s) (hlock : s.lock ≠ some .self) : s.self.locks = false := by
  by_contra hlocks
  exact hlock (h.lockSelf.mpr (by simpa using hlocks))

/-- Outside of its section, the task knows only about the resumptions. -/
theorem SelfOk.mono {self : Self} (h : SelfOk r self) (hlocks : self.locks = false)
    (hle : r.Le r') (hcause : r'.cause = r.cause)
    (hresumed : self.holdsRq = true → r'.resumed = r.resumed) : SelfOk r' self := by
  cases self with
  | took fault got => exact nomatch hlocks
  | stopClear fault | stopSet fault =>
    refine ⟨?_, ?_⟩
    · rw [hresumed rfl, hcause]
      exact h.1
    · rw [hcause]
      exact h.2.mono hle
  | _ => trivial

theorem Inv.others (h : Inv s) (hlock : ∀ j ≠ i, s.lock ≠ some (.sender j))
    (hle : s.record.Le r') (signal' : Sigset) :
    ∀ j c, j ≠ i → s.sender j = some c → c.Ok r' signal' :=
  fun j c hj hjc => (h.send j c hjc).mono (h.unlocked (hlock j hj) hjc) hle

theorem lock_ne {j : Fin N} (hlock : s.lock = some (.sender i)) (hj : j ≠ i) :
    s.lock ≠ some (.sender j) := by
  rw [hlock]
  intro heq
  exact hj (Party.sender.inj (Option.some.inj heq)).symm

/-- A step of a sender that leaves the task where it is. -/
theorem Inv.moveSender (h : Inv s) {lock : Option (Party N)} (hcore : Core sig)
    (hlock : ∀ p, p ≠ .sender i → (lock = some p ↔ s.lock = some p))
    (hlocks : lock = some (.sender i) ↔ ∃ c, c' = some c ∧ c.pc.locks = true)
    (hle : s.record.Le r) (hrecord : r.Ok) (hcause : r.cause = s.record.cause)
    (hc' : ∀ c, c' = some c → c.Ok r sig.signal)
    (hothers : ∀ j c, j ≠ i → s.sender j = some c → c.Ok r sig.signal)
    (hpending : PendingOk r sig.signal)
    (hkill : r.killed = true → has sig.signal sigkill = true ∨ s.self.Dying ∨
      ∃ j c, update s.sender i c' j = some c ∧ c.pc = .queue ∧ c.info.signo = sigkill)
    (hself : SelfOk r s.self)
    (hflag : sig.stoppending = true → s.sig.stoppending = true ∧ r.cleared = s.record.cleared)
    (hstopped : state = .stopped → s.state = .stopped ∧ r.resumed = s.record.resumed)
    (hcompleted : ∀ y ∈ completed, y ≤ r.resumed ∧ r.ResumerSent y) : Inv ({ s with
      sig := sig
      state := state
      lock := lock
      record := r
      completed := completed }.setSender i c') where
  core := hcore
  fault := h.fault
  deliver := h.deliver
  lockSelf := (hlock .self nofun).trans h.lockSelf
  lockSender := by
    apply (forall_update_iff s.sender fun j c' =>
      lock = some (.sender j) ↔ ∃ c, c' = some c ∧ c.pc.locks = true).mpr
    refine ⟨hlocks, fun j hj => (hlock _ ?_).trans (h.lockSender j)⟩
    exact fun heq => hj (Party.sender.inj heq)
  record := hrecord
  send := by
    apply (forall_update_iff s.sender fun _ c' => ∀ c, c' = some c → c.Ok r sig.signal).mpr
    exact ⟨hc', fun j hj c => hothers j c hj⟩
  pending := hpending
  kill := hkill
  self := hself
  flag := by
    intro hset
    obtain ⟨hold, hcleared⟩ := hflag hset
    change r.cleared < r.cause ∧ r.StopSent r.cause
    rw [hcleared, hcause]
    exact ⟨(h.flag hold).1, (h.flag hold).2.mono hle⟩
  stopped := by
    intro hset
    obtain ⟨hold, hresumed⟩ := hstopped hset
    obtain ⟨hstops, hlt, hsent⟩ := h.stopped hold
    change s.self.stops = true ∧ r.resumed < r.cause ∧ r.StopSent r.cause
    rw [hresumed, hcause]
    exact ⟨hstops, hlt, hsent.mono hle⟩
  completed := hcompleted

/-- A step of the sender that holds the lock, before and after it resumes the task. -/
theorem Inv.inSection (h : Inv s) (hi : s.sender i = some c) (hlocks : c.pc.locks = true)
    {c' : Send} (hlocks' : c'.pc.locks = true) (hcore : Core sig) (hle : s.record.Le r)
    (hrecord : r.Ok) (hcause : r.cause = s.record.cause)
    (hresumed : s.self.holdsRq = true → r.resumed = s.record.resumed) (hc' : c'.Ok r sig.signal)
    (hpending : PendingOk r sig.signal)
    (hkill : r.killed = true → has sig.signal sigkill = true ∨ s.self.Dying ∨
      c'.pc = .queue ∧ c'.info.signo = sigkill)
    (hflag : sig.stoppending = true → s.sig.stoppending = true ∧ r.cleared = s.record.cleared)
    (hstopped : state = .stopped → s.state = .stopped ∧ r.resumed = s.record.resumed) :
    Inv ({ s with sig := sig, state := state, record := r }.setSender i (some c')) := by
  have hlock := h.lock_eq hi hlocks
  have hself : s.self.locks = false := h.self_unlocked (by rw [hlock]; exact nofun)
  apply h.moveSender hcore (fun _ _ => .rfl) ⟨fun _ => ⟨c', rfl, hlocks'⟩, fun _ => hlock⟩ hle
    hrecord hcause _ (h.others (fun j hj => lock_ne hlock hj) hle _) hpending _
    (h.self.mono hself hle hcause hresumed) hflag hstopped (completed_mono h.completed hle)
  · intro d hd
    rwa [← Option.some.inj hd]
  · intro hkilled
    rcases hkill hkilled with hpending | hdying | hqueue
    · exact .inl hpending
    · exact .inr (.inl hdying)
    · exact .inr (.inr ⟨i, c', update_self _ _ _, hqueue⟩)

/-- A killed task has a `SIGKILL` pending or taken, while a sender is in another part of its
section. -/
theorem Inv.kill_of_ne (h : Inv s) (hi : s.sender i = some c) (hlocks : c.pc.locks = true)
    (hne : c.pc = .queue → c.info.signo ≠ sigkill) (hkilled : s.record.killed = true) :
    has s.sig.signal sigkill = true ∨ s.self.Dying := by
  rcases h.kill hkilled with hpending | hdying | ⟨j, d, hj, hpc, hsigno⟩
  · exact .inl hpending
  · exact .inr hdying
  · have hlock := h.lock_eq hj (by rw [hpc]; rfl)
    rw [h.lock_eq hi hlocks] at hlock
    obtain rfl := Party.sender.inj (Option.some.inj hlock)
    cases hi.symm.trans hj
    exact absurd hsigno (hne hpc)

variable {info : Siginfo} {alloc : Bool} {stamp n : ℕ}

theorem Inv.lockStep (h : Inv s) (hi : s.sender i = some ⟨info, alloc, stamp, .lock⟩)
    (hlock : s.lock = none) :
    Inv ({ s with
      lock := some (.sender i)
      record := { s.record with
        clock := s.record.clock + 1
        sent := update s.record.sent (s.record.clock + 1) info.signo } }.setSender i
          (some ⟨info, alloc, s.record.clock + 1, .flush⟩)) := by
  have hle : s.record.Le { s.record with
      clock := s.record.clock + 1
      sent := update s.record.sent (s.record.clock + 1) info.signo } :=
    ⟨Nat.le_succ _, le_rfl, fun n hn => update_of_ne (by omega) _ _⟩
  have hrecord := h.record
  have hself : s.self.locks = false := h.self_unlocked (by rw [hlock]; exact nofun)
  have hfree : ∀ j, s.lock ≠ some (.sender j) := fun j heq => nomatch hlock.symm.trans heq
  refine h.moveSender h.core ?_ ⟨fun _ => ⟨_, rfl, rfl⟩, fun _ => rfl⟩ hle
    ⟨hrecord.resumed, hrecord.cleared.trans (Nat.le_succ _)⟩ rfl ?_
    (h.others (fun j _ => hfree j) hle _) (h.pending.mono hle rfl rfl rfl) ?_
    (h.self.mono hself hle rfl fun _ => rfl) (fun hset => ⟨hset, rfl⟩) (fun hset => ⟨hset, rfl⟩)
    (completed_mono h.completed hle)
  · intro p hp
    rw [hlock]
    exact ⟨fun heq => absurd (Option.some.inj heq).symm hp, nofun⟩
  · intro d hd
    cases hd
    exact ⟨(h.send i _ hi).1, ⟨rfl, update_self _ _ _⟩, Nat.lt_succ_of_le hrecord.cleared⟩
  · intro hkilled
    exact (h.kill_of_free hfree hkilled).imp_right .inl

theorem subset_sendFlush (hk : IsSig k) (hhas : has (sendFlush sig n).signal k = true) :
    has sig.signal k = true := by
  unfold sendFlush at hhas
  split_ifs at hhas
  · exact has_of_and_not hk hhas
  · exact has_of_and_not hk hhas
  · exact hhas

theorem stoppending_sendFlush (sig : Sig) (n : ℕ) :
    (sendFlush sig n).stoppending = sig.stoppending := by
  unfold sendFlush
  split_ifs <;> rfl

theorem Inv.flushStep (h : Inv s) (hi : s.sender i = some ⟨info, alloc, stamp, .flush⟩) :
    Inv ({ s with sig := sendFlush s.sig info.signo }.setSender i
      (some ⟨info, alloc, stamp, .clear⟩)) := by
  obtain ⟨hnumber, hfresh, hlt⟩ := h.send i _ hi
  refine h.inSection hi rfl rfl (h.core.sendFlush _) (Record.Le.refl _) h.record rfl (fun _ => rfl)
    ⟨hnumber, hfresh, hlt, sendFlush_cont hnumber, ?_⟩
    (h.pending.subset fun k hk => subset_sendFlush hk) ?_ ?_ fun hset => ⟨hset, rfl⟩
  · intro hcont k hk
    dsimp only at hcont
    rw [hcont]
    exact sendFlush_stop hk
  · intro hkilled
    rcases h.kill_of_ne hi rfl nofun hkilled with hpending | hdying
    · exact .inl (has_kill_sendFlush hpending _)
    · exact .inr (.inl hdying)
  · intro hset
    rw [stoppending_sendFlush] at hset
    exact ⟨hset, rfl⟩

theorem resumes_iff : resumes n = true ↔ n = sigcont ∨ n = sigkill := by
  simp [resumes]

theorem not_resumes_of_isStop (h : IsStop n) : resumes n = false := by
  rcases h with rfl | rfl | rfl | rfl <;> decide

/-- `SIGCONT` and `SIGKILL` clear the flag, and every stop signal that may still be taken is a
later one. -/
theorem Inv.clearStep (h : Inv s) (hi : s.sender i = some ⟨info, alloc, stamp, .clear⟩)
    (hresumes : resumes info.signo = true) :
    Inv ({ s with
      sig := { s.sig with stoppending := false }
      record := { s.record with
        cleared := stamp
        killed := s.record.killed || decide (info.signo = sigkill) } }.setSender i
          (some ⟨info, alloc, stamp, .queue⟩)) := by
  obtain ⟨hnumber, hfresh, hlt, hflushed⟩ := h.send i _ hi
  have hstamp : stamp = s.record.clock := hfresh.1
  refine h.inSection hi rfl rfl (h.core.flags rfl rfl rfl rfl) ⟨le_rfl, le_rfl, fun _ _ => rfl⟩ ?_
    rfl (fun _ => rfl) ⟨hnumber, hfresh, ?_, hflushed⟩ ?_ ?_ nofun fun hset => ⟨hset, rfl⟩
  · constructor
    · change s.record.resumed ≤ stamp
      rw [hstamp]
      exact h.record.resumed.trans hlt.le
    · exact hstamp.le
  · unfold Send.Cleared
    rwa [if_pos hresumes]
  · intro hnot k hk hhas
    dsimp only at hnot
    obtain ⟨-, hne⟩ := Bool.or_eq_false_iff.mp hnot
    rcases resumes_iff.mp hresumes with hcont | hkill
    · rw [hflushed.2 hcont k hk] at hhas
      exact nomatch hhas
    · exact absurd hkill (of_decide_eq_false hne)
  · intro hkilled
    dsimp only at hkilled
    rcases Bool.or_eq_true_iff.mp hkilled with hold | hkill
    · exact (h.kill_of_ne hi rfl nofun hold).imp_right .inl
    · exact .inr (.inr ⟨rfl, of_decide_eq_true hkill⟩)

/-- Other signals leave the flag alone. -/
theorem Inv.clearStep_of_not (h : Inv s) (hi : s.sender i = some ⟨info, alloc, stamp, .clear⟩)
    (hresumes : resumes info.signo = false) :
    Inv (s.setSender i (some ⟨info, alloc, stamp, .queue⟩)) := by
  obtain ⟨hnumber, hfresh, hlt, hflushed⟩ := h.send i _ hi
  refine h.inSection hi rfl rfl h.core (Record.Le.refl _) h.record rfl (fun _ => rfl)
    ⟨hnumber, hfresh, ?_, hflushed⟩ h.pending
    (fun hkilled => (h.kill_of_ne hi rfl nofun hkilled).imp_right .inl)
    (fun hset => ⟨hset, rfl⟩) fun hset => ⟨hset, rfl⟩
  unfold Send.Cleared
  rw [if_neg (by rw [hresumes]; exact nofun)]
  exact hlt

theorem stoppending_sendQueue (sig : Sig) (info : Siginfo) (alloc : Bool) :
    (sendQueue sig info alloc).stoppending = sig.stoppending := by
  unfold sendQueue
  split_ifs <;> rfl

/-- A `SIGKILL` is pending after it was sent. -/
theorem has_kill_of_sendQueue (hcore : Core sig) (hkill : info.signo = sigkill)
    (alloc : Bool) : has (sendQueue sig info alloc).signal sigkill = true := by
  unfold sendQueue
  by_cases haccepts : accepts sig info.signo = true
  · rw [if_pos haccepts, has_or, hkill, has_sigmask_self (by decide), Bool.or_true]
  · rw [if_neg haccepts]
    by_contra hnot
    apply haccepts
    have hhandler := hcore.kill
    rw [hkill]
    apply decide_eq_true
    refine ⟨(and_sigmask_eq_zero (by decide)).mpr (by simpa using hnot), .inr ?_⟩
    unfold signalIgnored
    rw [hhandler]
    decide

/-- A stop signal that becomes pending is newer than every clearing of the flag. -/
theorem PendingOk.sendQueue (h : PendingOk r sig.signal) (hnumber : IsSig c.info.signo)
    (hfresh : c.Fresh r) (hcleared : c.Cleared r) (alloc : Bool) :
    PendingOk
      { r with
        stamp := if accepts sig c.info.signo then update r.stamp c.info.signo c.stamp
          else r.stamp }
      (sendQueue sig c.info alloc).signal := by
  have hle : ∀ stamp, r.Le { r with stamp := stamp } :=
    fun _ => ⟨le_rfl, le_rfl, fun _ _ => rfl⟩
  unfold Signal.sendQueue
  by_cases haccepts : accepts sig c.info.signo = true
  · rw [if_pos haccepts, if_pos haccepts]
    intro hnot k hk hhas
    dsimp only at hnot hhas ⊢
    by_cases heq : k = c.info.signo
    · rw [heq] at hk
      rw [heq, update_self, hfresh.1]
      unfold Send.Cleared at hcleared
      rw [if_neg (by rw [not_resumes_of_isStop hk]; exact nofun)] at hcleared
      refine ⟨hcleared, le_rfl, ?_⟩
      change IsStop (r.sent r.clock)
      rwa [hfresh.2]
    · rw [update_of_ne heq]
      rw [has_or, has_sigmask (isSig_of_isStop hk) hnumber, decide_eq_false heq,
        Bool.or_false] at hhas
      exact ⟨(h hnot k hk hhas).1, (h hnot k hk hhas).2.mono (hle _)⟩
  · rwa [if_neg haccepts, if_neg haccepts]

theorem Inv.queueStep (h : Inv s) (hi : s.sender i = some ⟨info, alloc, stamp, .queue⟩) :
    Inv ({ s with
      sig := sendQueue s.sig info alloc
      record := { s.record with
        stamp := if accepts s.sig info.signo then update s.record.stamp info.signo stamp
          else s.record.stamp } }.setSender i (some ⟨info, alloc, stamp, .recalc⟩)) := by
  obtain ⟨hnumber, hfresh, hcleared, hflushed⟩ := h.send i _ hi
  refine h.inSection hi rfl rfl (h.core.sendQueue alloc hnumber hflushed.1 hflushed.2)
    ⟨le_rfl, le_rfl, fun _ _ => rfl⟩ ⟨h.record.resumed, h.record.cleared⟩ rfl (fun _ => rfl)
    ⟨hnumber, hfresh, hcleared⟩ (h.pending.sendQueue hnumber hfresh hcleared alloc) ?_ ?_
    fun hset => ⟨hset, rfl⟩
  · intro hkilled
    by_cases hkill : info.signo = sigkill
    · exact .inl (has_kill_of_sendQueue h.core hkill alloc)
    · rcases h.kill_of_ne hi rfl (fun _ => hkill) hkilled with hpending | hdying
      · exact .inl (has_sendQueue hpending alloc)
      · exact .inr (.inl hdying)
  · intro hset
    rw [stoppending_sendQueue] at hset
    exact ⟨hset, rfl⟩

theorem Inv.recalcStep (h : Inv s) (hi : s.sender i = some ⟨info, alloc, stamp, .recalc⟩) :
    Inv ({ s with sig := recalcSigpending s.sig }.setSender i
      (some ⟨info, alloc, stamp, if resumes info.signo then .resume else .unlock⟩)) := by
  obtain ⟨hnumber, hfresh, hcleared⟩ := h.send i _ hi
  unfold Send.Cleared at hcleared
  refine h.inSection hi rfl ?_ h.core.recalc.toCore (Record.Le.refl _) h.record rfl (fun _ => rfl)
    ⟨hnumber, ?_⟩ h.pending (fun hkilled => (h.kill_of_ne hi rfl nofun hkilled).imp_right .inl)
    (fun hset => ⟨hset, rfl⟩) fun hset => ⟨hset, rfl⟩
  · dsimp only
    split_ifs <;> rfl
  · by_cases hresumes : resumes info.signo = true
    · rw [if_pos hresumes] at hcleared
      rw [if_pos hresumes]
      exact ⟨hfresh, hresumes, hcleared⟩
    · rw [if_neg hresumes]
      exact ⟨hfresh, fun heq => absurd heq hresumes⟩

/-- The task that was stopped runs again. -/
theorem Inv.resumeStep (h : Inv s) (hi : s.sender i = some ⟨info, alloc, stamp, .resume⟩)
    (hrq : s.self.holdsRq = false) :
    Inv ({ s with
      state := s.state.woken resumeStates
      record := { s.record with resumed := stamp } }.setSender i
        (some ⟨info, alloc, stamp, .unlock⟩)) := by
  obtain ⟨hnumber, hfresh, hresumes, hcleared⟩ := h.send i _ hi
  have hstamp : stamp = s.record.clock := hfresh.1
  have hresumed : s.record.resumed ≤ stamp := by
    rw [hstamp]
    exact h.record.resumed.trans h.record.cleared
  have hle : s.record.Le { s.record with resumed := stamp } :=
    ⟨le_rfl, hresumed, fun _ _ => rfl⟩
  refine h.inSection hi rfl rfl h.core hle ⟨?_, h.record.cleared⟩ rfl ?_
    ⟨hnumber, hfresh, fun _ => ⟨le_rfl, hstamp.le, ?_⟩⟩ (h.pending.mono hle rfl rfl rfl)
    (fun hkilled => (h.kill_of_ne hi rfl nofun hkilled).imp_right .inl) (fun hset => ⟨hset, rfl⟩) ?_
  · change stamp ≤ s.record.cleared
    rw [hstamp, hcleared]
  · rw [hrq]
    exact nofun
  · change resumes (s.record.sent stamp) = true
    rwa [hstamp, hfresh.2]
  · intro hstopped
    unfold TaskState.woken at hstopped
    split_ifs at hstopped with hin
    rw [hstopped] at hin
    exact absurd (by decide : TaskState.stopped.isIn resumeStates = true) hin

theorem Inv.unlockStep (h : Inv s) (hi : s.sender i = some ⟨info, alloc, stamp, .unlock⟩)
    (notify : Bool) :
    Inv ({ s with lock := none }.setSender i (some ⟨info, alloc, stamp, .wake notify⟩)) := by
  have hlock := h.lock_eq hi rfl
  obtain ⟨hnumber, hok⟩ := h.send i _ hi
  refine h.moveSender h.core ?_ ⟨nofun, ?_⟩ (Record.Le.refl _) h.record rfl ?_
    (fun j d _ hj => h.send j d hj) h.pending
    (fun hkilled => (h.kill_of_ne hi rfl nofun hkilled).imp_right .inl) h.self
    (fun hset => ⟨hset, rfl⟩) (fun hset => ⟨hset, rfl⟩) h.completed
  · intro p hp
    rw [hlock]
    exact ⟨nofun, fun heq => absurd (Option.some.inj heq).symm hp⟩
  · rintro ⟨d, hd, hlocks⟩
    rw [← Option.some.inj hd] at hlocks
    exact nomatch hlocks
  · intro d hd
    cases hd
    exact ⟨hnumber, hok.2⟩

/-- A sender outside of its section calls, returns or wakes the task. -/
theorem Inv.outSection (h : Inv s) (hi : ∀ c, s.sender i = some c → c.pc.locks = false)
    (hc' : ∀ c, c' = some c → c.pc.locks = false ∧ c.Ok s.record s.sig.signal)
    (hstate : state = .stopped → s.state = .stopped)
    (hcompleted : ∀ y ∈ completed, y ≤ s.record.resumed ∧ s.record.ResumerSent y) :
    Inv ({ s with state := state, completed := completed }.setSender i c') := by
  refine h.moveSender h.core (fun _ _ => .rfl) ⟨fun heq => ?_, ?_⟩ (Record.Le.refl _) h.record rfl
    (fun c hc => (hc' c hc).2) (fun j c _ hj => h.send j c hj) h.pending ?_ h.self
    (fun hset => ⟨hset, rfl⟩) (fun hset => ⟨hstate hset, rfl⟩) hcompleted
  · obtain ⟨c, hc, hlocks⟩ := (h.lockSender i).mp heq
    rw [hi c hc] at hlocks
    exact nomatch hlocks
  · rintro ⟨c, hc, hlocks⟩
    rw [(hc' c hc).1] at hlocks
    exact nomatch hlocks
  · intro hkilled
    rcases h.kill hkilled with hpending | hdying | ⟨j, c, hj, hpc, hsigno⟩
    · exact .inl hpending
    · exact .inr (.inl hdying)
    · have hne : j ≠ i := by
        rintro rfl
        have := hi c hj
        rw [hpc] at this
        exact nomatch this
      refine .inr (.inr ⟨j, c, ?_, hpc, hsigno⟩)
      exact (update_of_ne hne _ _).trans hj

theorem woken_eq_stopped {states : BitVec 32} (h : state.woken states = .stopped) :
    state = .stopped := by
  unfold TaskState.woken at h
  split_ifs at h
  exact h

theorem Inv.wakeStep (h : Inv s) {notify : Bool}
    (hi : s.sender i = some ⟨info, alloc, stamp, .wake notify⟩) :
    Inv ({ s with
      state := if notify then s.state.woken (wakeSignalStates (decide (info.signo = sigkill)))
        else s.state
      completed := if resumes info.signo then stamp :: s.completed
        else s.completed }.setSender i none) := by
  obtain ⟨hnumber, hok⟩ := h.send i _ hi
  apply h.outSection
  · intro d hd
    rw [← Option.some.inj (hi.symm.trans hd)]
    rfl
  · exact nofun
  · intro hstopped
    split_ifs at hstopped
    · exact woken_eq_stopped hstopped
    · exact hstopped
  · intro y hy
    by_cases hresumes : resumes info.signo = true
    · rw [if_pos hresumes] at hy
      rcases List.mem_cons.mp hy with rfl | hy
      · exact hok hresumes
      · exact h.completed y hy
    · rw [if_neg hresumes] at hy
      exact h.completed y hy

theorem Inv.sendStep (h : Inv s) (hi : s.sender i = some c) {s' : State N}
    (hstep : sendStep s i c = some s') : Inv s' := by
  obtain ⟨info, alloc, stamp, pc⟩ := c
  cases pc with
  | lock =>
    obtain ⟨hlock, hstep⟩ := Option.ite_none_left_eq_some.mp hstep
    cases hstep
    exact h.lockStep hi (Option.not_isSome_iff_eq_none.mp hlock)
  | flush =>
    cases hstep
    exact h.flushStep hi
  | clear =>
    cases hstep
    dsimp only [SendPc.signals, sendClear, Send.note]
    cases hresumes : resumes info.signo with
    | true => exact h.clearStep hi hresumes
    | false => exact h.clearStep_of_not hi hresumes
  | queue =>
    cases hstep
    exact h.queueStep hi
  | recalc =>
    cases hstep
    exact h.recalcStep hi
  | resume =>
    obtain ⟨hrq, hstep⟩ := Option.ite_none_left_eq_some.mp hstep
    cases hstep
    exact h.resumeStep hi (Bool.eq_false_iff.mpr hrq)
  | unlock =>
    cases hstep
    exact h.unlockStep hi _
  | wake notify =>
    obtain ⟨-, hstep⟩ := Option.ite_none_left_eq_some.mp hstep
    cases hstep
    exact h.wakeStep hi

end Sender

/-! ### Whole runs -/
theorem outside_iff {s : State N} :
    s.outside = true ↔ s.self = .user ∧ s.state = .runnable := by
  unfold State.outside
  cases s.self with
  | user => simp
  | _ => simp

theorem Inv.step {s s' : State N} {a : Action N} (h : Inv s) (hstep : step s a = some s') :
    Inv s' := by
  cases a with
  | self => exact h.selfStep hstep
  | enter fault =>
    obtain ⟨hok, rfl⟩ := ite_eq_some.mp hstep
    obtain ⟨hself, hrunnable⟩ := outside_iff.mp hok.1
    have hfault : ∀ info, fault = some info → isFault info.signo = true := by
      rintro info rfl
      exact hok.2
    exact h.move hself hfault trivial rfl id trivial
      fun hstopped => nomatch hrunnable.symm.trans hstopped
  | syscall call =>
    obtain ⟨hok, hstep⟩ := Option.ite_none_right_eq_some.mp hstep
    obtain ⟨sig, hrun, rfl⟩ := Option.map_eq_some_iff.mp hstep
    exact h.quiet (Option.isNone_iff_eq_none.mp hok.2) (quiet_syscall h.core hrun)
  | sleep state =>
    obtain ⟨hok, rfl⟩ := ite_eq_some.mp hstep
    apply h.setState
    rcases hok.2 with rfl | rfl | rfl <;> exact nofun
  | wake =>
    obtain ⟨-, ⟨rfl⟩⟩ := Option.ite_none_left_eq_some.mp hstep
    exact h.setState woken_eq_stopped
  | cancel kill =>
    obtain ⟨-, ⟨rfl⟩⟩ := Option.ite_none_left_eq_some.mp hstep
    apply h.setState
    rcases s.state.parked_or s.sig.sigpending kill with heq | heq <;> rw [heq]
    · exact id
    · exact nofun
  | send i info alloc =>
    obtain ⟨hok, rfl⟩ := ite_eq_some.mp hstep
    apply h.outSection _ _ id h.completed
    · intro c hc
      exact nomatch hok.1.symm.trans hc
    · intro c hc
      cases hc
      exact ⟨rfl, hok.2, trivial⟩
  | sender i =>
    obtain ⟨c, hc, hsend⟩ := Option.bind_eq_some_iff.mp hstep
    exact h.sendStep hc hsend

theorem inv_start {parent : Sig} (h : SigOk parent) : Inv (start parent : State N) where
  core := h.forked.toCore
  fault := nofun
  deliver := trivial
  lockSelf := ⟨nofun, nofun⟩
  lockSender := fun _ => ⟨nofun, fun ⟨_, hc, _⟩ => nomatch hc⟩
  record := ⟨le_rfl, le_rfl⟩
  send := nofun
  pending := by
    intro _ k _ hhas
    simp [start, forked, signalTaskInit, has] at hhas
  kill := nofun
  self := trivial
  flag := nofun
  stopped := nofun
  completed := nofun

/-- A task that is stopped was stopped by a signal that was sent after every `SIGCONT` and
`SIGKILL` whose `send_signal` has returned. So none of these leaves it stopped, and no stop
signal that was sent before one of them stops it later. -/
theorem completed_lt_cause {s : State N}
    (h : Reachable (fun s => ∃ parent, SigOk parent ∧ s = start parent) (Graph step) s) :
    (∀ y ∈ s.completed, s.record.ResumerSent y) ∧
      (s.state = .stopped → s.record.StopSent s.record.cause ∧
        ∀ y ∈ s.completed, y < s.record.cause) := by
  have hinv : Inv s := by
    apply h.invariant
    · rintro s ⟨parent, hparent, rfl⟩
      exact inv_start hparent
    · exact fun s a t hs hstep => hs.step hstep
  refine ⟨fun y hy => (hinv.completed y hy).2, fun hstopped => ?_⟩
  obtain ⟨-, hlt, hsent⟩ := hinv.stopped hstopped
  exact ⟨hsent, fun y hy => (hinv.completed y hy).1.trans_lt hlt⟩

/-- A `SIGTSTP` stops the task, a `SIGCONT` resumes it, and a second `SIGTSTP` stops it
again. -/
def twiceRun : List (Action 1) :=
  .send 0 ⟨sigtstp, 0, 0⟩ true :: List.replicate 7 (.sender 0) ++
    .enter none :: List.replicate 10 .self ++
    .send 0 ⟨sigcont, 0, 0⟩ true :: List.replicate 8 (.sender 0) ++
    .send 0 ⟨sigtstp, 0, 0⟩ true :: List.replicate 7 (.sender 0) ++ List.replicate 11 .self

theorem completed_lt_cause_twiceRun :
    ∃ s : State 1, exec step (start signalTaskInit) twiceRun = some s ∧
      (s.state, s.completed, s.record.cause) = (.stopped, [2], 3) ∧
      (∀ y ∈ s.completed, s.record.ResumerSent y) ∧
      (s.state = .stopped → s.record.StopSent s.record.cause ∧
        ∀ y ∈ s.completed, y < s.record.cause) := by
  have hrun : ((exec step (start signalTaskInit) twiceRun).map
      fun s : State 1 => (s.state, s.completed, s.record.cause)) = some (.stopped, [2], 3) := by
    decide +kernel
  obtain ⟨s, hs, heq⟩ := Option.map_eq_some_iff.mp hrun
  have hreach : Reachable (fun s => ∃ parent, SigOk parent ∧ s = start parent) (Graph step) s :=
    Reachable.exec (.init ⟨_, sigOk_signalTaskInit, rfl⟩) hs
  exact ⟨s, hs, heq, completed_lt_cause hreach⟩

end Nuvix.StopContinue
