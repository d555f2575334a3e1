import Nuvix.Kernel.Signal
import Nuvix.Lib.Transition

/-!
# The invariant of pending signals

The flag that makes a task look for signals agrees with its pending set and its mask, the
queue agrees with the pending set, `SIGKILL` and `SIGSTOP` can be neither blocked nor
caught, and `SIGCONT` is never pending together with a stop signal.
-/

namespace Nuvix.Signal

open Transition Function

/-! ### Sets of signals -/

/-- Whether a set has a signal. -/
def has (set : Sigset) (sig : ℕ) : Bool := set.getLsbD (sig - 1)

/-- The numbers of signals. -/
def IsSig (sig : ℕ) : Prop := 1 ≤ sig ∧ sig ≤ sigMax

/-- The signals that stop a task. -/
def IsStop (sig : ℕ) : Prop := sig = sigstop ∨ sig = sigtstp ∨ sig = sigttin ∨ sig = sigttou

instance (sig : ℕ) : Decidable (IsStop sig) := inferInstanceAs (Decidable (_ ∨ _))

instance (sig : ℕ) : Decidable (IsSig sig) := inferInstanceAs (Decidable (_ ∧ _))

section Sets

variable {set other : Sigset} {sig k : ℕ}

@[simp] theorem has_or : has (set ||| other) sig = (has set sig || has other sig) := by
  simp [has]

section

variable (h : IsSig sig)
include h

theorem IsSig.lt : sig - 1 < 64 := by
  have := h.2
  simp only [sigMax] at this
  omega

theorem has_and_not : has (set &&& ~~~other) sig = (has set sig && !has other sig) := by
  simp [has, h.lt]

theorem has_sigmask (hk : IsSig k) : has (sigmask k) sig = decide (sig = k) := by
  have hlt := hk.lt
  have h1 := h.1
  have hk1 := hk.1
  simp only [has, sigmask, BitVec.getLsbD_twoPow, hlt, decide_true, Bool.true_and]
  congr 1
  apply propext
  omega

theorem has_sigmask_self : has (sigmask sig) sig = true := by
  rw [has_sigmask h h]
  exact decide_eq_true rfl

theorem and_sigmask_ne_zero : set &&& sigmask sig ≠ 0 ↔ has set sig = true := by
  rw [sigmask, BitVec.and_twoPow, has]
  split_ifs with hbit
  · refine ⟨fun _ => hbit, fun _ hzero => ?_⟩
    have hself : (BitVec.twoPow 64 (sig - 1)).getLsbD (sig - 1) = true := by simp [h.lt]
    rw [hzero] at hself
    simp at hself
  · simp [hbit]

theorem and_sigmask_eq_zero : set &&& sigmask sig = 0 ↔ has set sig = false := by
  rw [← not_iff_not, ← ne_eq, and_sigmask_ne_zero h, Bool.not_eq_false]

theorem has_sigStopmask : has sigStopmask sig = decide (IsStop sig) := by
  obtain ⟨h1, h2⟩ := h
  simp only [sigMax] at h2
  interval_cases sig <;> decide

end

theorem isSig_of_isStop (h : IsStop sig) : IsSig sig := by
  rcases h with rfl | rfl | rfl | rfl <;> decide

end Sets

/-! ### The invariant -/

/-- A mask that lets `SIGKILL` and `SIGSTOP` through. -/
structure Open (mask : Sigset) : Prop where
  kill : has mask sigkill = false
  stop : has mask sigstop = false

/-- What holds of the signals of a task, the flag `TF_SIGPENDING` apart. -/
structure Core (t : Sig) : Prop where
  queued : ∀ info ∈ t.queue, has t.signal info.signo = true
  single : (t.queue.map Siginfo.signo).Nodup
  number : ∀ info ∈ t.queue, IsSig info.signo
  range : ∀ i, sigMax ≤ i → t.signal.getLsbD i = false
  blocked : Open t.blocked
  mask : ∀ sig, Open (t.actions sig).mask
  kill : (t.actions sigkill).handler = .dfl
  stop : (t.actions sigstop).handler = .dfl
  cont : has t.signal sigcont = true → ∀ sig, IsStop sig → has t.signal sig = false

/-- The invariant: the flag is set exactly when an unblocked signal is pending. -/
structure SigOk (t : Sig) : Prop extends Core t where
  sigpending : t.sigpending = true ↔ t.signal &&& ~~~t.blocked ≠ 0

section Core

variable {t t' : Sig} {sig : ℕ} {info : Siginfo} {mask : Sigset} {queue : List Siginfo} {k : ℕ}

theorem open_and_not (mask : Sigset) : Open (mask &&& ~~~sigUnblockmask) := by
  have hkill : has sigUnblockmask sigkill = true := by decide
  have hstop : has sigUnblockmask sigstop = true := by decide
  constructor
  · rw [has_and_not (by decide), hkill, Bool.not_true, Bool.and_false]
  · rw [has_and_not (by decide), hstop, Bool.not_true, Bool.and_false]

theorem Open.or {other : Sigset} (h : Open mask) (h' : Open other) : Open (mask ||| other) :=
  ⟨by rw [has_or, h.kill, h'.kill, Bool.or_self], by rw [has_or, h.stop, h'.stop, Bool.or_self]⟩

theorem Open.and_not (h : Open mask) (other : Sigset) : Open (mask &&& ~~~other) := by
  constructor
  · rw [has_and_not (by decide), h.kill, Bool.false_and]
  · rw [has_and_not (by decide), h.stop, Bool.false_and]

theorem open_sigmask (h : IsSig sig) (hkill : sig ≠ sigkill) (hstop : sig ≠ sigstop) :
    Open (sigmask sig) := by
  constructor
  · rw [has_sigmask (by decide) h, decide_eq_false hkill.symm]
  · rw [has_sigmask (by decide) h, decide_eq_false hstop.symm]

theorem open_zero : Open 0 := ⟨by decide, by decide⟩

/-- `recalc_sigpending` establishes the flag. -/
theorem Core.recalc (h : Core t) : SigOk (recalcSigpending t) :=
  { queued := h.queued, single := h.single, number := h.number, range := h.range
    blocked := h.blocked, mask := h.mask, kill := h.kill, stop := h.stop, cont := h.cont
    sigpending := by simp [recalcSigpending] }

/-- The flags do not matter. -/
theorem Core.flags (h : Core t) (hsignal : t'.signal = t.signal) (hqueue : t'.queue = t.queue)
    (hblocked : t'.blocked = t.blocked) (hactions : t'.actions = t.actions) : Core t' where
  queued := by rw [hqueue, hsignal]; exact h.queued
  single := by rw [hqueue]; exact h.single
  number := by rw [hqueue]; exact h.number
  range := by rw [hsignal]; exact h.range
  blocked := by rw [hblocked]; exact h.blocked
  mask := by rw [hactions]; exact h.mask
  kill := by rw [hactions]; exact h.kill
  stop := by rw [hactions]; exact h.stop
  cont := by rw [hsignal]; exact h.cont

/-- Taking signals away from both the set and the queue. -/
theorem Core.drop (h : Core t) {mask : Sigset} (hsub : queue.Sublist t.queue)
    (hmask : ∀ info ∈ queue, has mask info.signo = false) :
    Core { t with queue := queue, signal := t.signal &&& ~~~mask } where
  queued := by
    intro info hinfo
    have hmem := hsub.subset hinfo
    dsimp only
    rw [has_and_not (h.number info hmem), h.queued info hmem, hmask info hinfo]
    rfl
  single := h.single.sublist (hsub.map _)
  number := fun info hinfo => h.number info (hsub.subset hinfo)
  range := by
    intro i hi
    simp [h.range i hi]
  blocked := h.blocked
  mask := h.mask
  kill := h.kill
  stop := h.stop
  cont := by
    intro hcont sig hsig
    dsimp only at hcont ⊢
    rw [has_and_not (by decide), Bool.and_eq_true] at hcont
    rw [has_and_not (isSig_of_isStop hsig), h.cont hcont.1 sig hsig, Bool.false_and]

theorem Core.flushSignals (h : Core t) (mask : Sigset) : Core (flushSignals t mask) := by
  apply h.drop List.filter_sublist
  intro info hinfo
  obtain ⟨hmem, hzero⟩ := List.mem_filter.mp hinfo
  exact (and_sigmask_eq_zero (h.number info hmem)).mp (of_decide_eq_true hzero)

/-- With one entry for each signal, none of a signal is left when its entry is gone. -/
theorem signo_ne_of_mem_eraseP (h : (queue.map Siginfo.signo).Nodup)
    (hinfo : info ∈ queue.eraseP fun info => info.signo = sig) : info.signo ≠ sig := by
  induction queue with
  | nil => simp at hinfo
  | cons first queue ih =>
    rw [List.map_cons, List.nodup_cons] at h
    by_cases hfirst : first.signo = sig
    · rw [List.eraseP_cons_of_pos (by simpa using hfirst)] at hinfo
      intro hsame
      exact h.1 (List.mem_map.mpr ⟨info, hinfo, hsame.trans hfirst.symm⟩)
    · rw [List.eraseP_cons_of_neg (by simpa using hfirst)] at hinfo
      rcases List.mem_cons.mp hinfo with rfl | hin
      · exact hfirst
      · exact ih h.2 hin

theorem Core.dequeueSignal (h : Core t) (hsig : IsSig sig) : Core (dequeueSignal t sig).1 := by
  unfold Signal.dequeueSignal
  dsimp only
  split
  · apply h.drop List.eraseP_sublist
    intro info hinfo
    have hne := signo_ne_of_mem_eraseP h.single hinfo
    rw [has_sigmask (h.number info (List.eraseP_sublist.subset hinfo)) hsig, decide_eq_false hne]
  · apply h.drop (List.Sublist.refl _)
    intro info hinfo
    rename_i hnone
    have hne : info.signo ≠ sig := by simpa using List.find?_eq_none.mp hnone info hinfo
    rw [has_sigmask (h.number info hinfo) hsig, decide_eq_false hne]

theorem dequeueSignal_signal : (dequeueSignal t sig).1.signal = t.signal &&& ~~~sigmask sig := by
  unfold Signal.dequeueSignal
  dsimp only
  split <;> rfl

theorem dequeueSignal_signo : (dequeueSignal t sig).2.signo = sig := by
  unfold Signal.dequeueSignal
  dsimp only
  split
  next found hfound =>
    simpa using List.find?_some hfound
  · rfl

/-! ### Sending -/

theorem Core.sendFlush (h : Core t) (sig : ℕ) : Core (sendFlush t sig) := by
  unfold Signal.sendFlush
  split_ifs
  · exact h.flushSignals _
  · exact h.flushSignals _
  · exact h

theorem sendFlush_cont (hsig : IsSig sig) (hstop : IsStop sig) :
    has (sendFlush t sig).signal sigcont = false := by
  have hmask : sigStopmask &&& sigmask sig ≠ 0 := by
    rw [and_sigmask_ne_zero hsig, has_sigStopmask hsig]
    exact decide_eq_true hstop
  rw [sendFlush, if_pos hmask]
  change has (t.signal &&& ~~~sigmask sigcont) sigcont = false
  rw [has_and_not (by decide), has_sigmask_self (by decide), Bool.not_true, Bool.and_false]

theorem sendFlush_stop (hk : IsStop k) : has (sendFlush t sigcont).signal k = false := by
  have hmask : ¬ sigStopmask &&& sigmask sigcont ≠ 0 := by decide
  rw [sendFlush, if_neg hmask, if_pos rfl]
  change has (t.signal &&& ~~~sigStopmask) k = false
  rw [has_and_not (isSig_of_isStop hk), has_sigStopmask (isSig_of_isStop hk)]
  simp [hk]

theorem Core.sendQueue (h : Core t) (alloc : Bool) (hsig : IsSig info.signo)
    (hstop : IsStop info.signo → has t.signal sigcont = false)
    (hcont : info.signo = sigcont → ∀ k, IsStop k → has t.signal k = false) :
    Core (sendQueue t info alloc) := by
  unfold Signal.sendQueue
  by_cases haccepts : accepts t info.signo = true
  · rw [if_pos haccepts]
    have hnot : has t.signal info.signo = false :=
      (and_sigmask_eq_zero hsig).mp (of_decide_eq_true haccepts).1
    have hqueue : ∀ e ∈ (if alloc then t.queue ++ [info] else t.queue), e ∈ t.queue ∨ e = info := by
      intro e he
      split_ifs at he
      · simpa using he
      · exact .inl he
    constructor
    · intro e he
      rw [has_or]
      rcases hqueue e he with hin | rfl
      · rw [h.queued e hin, Bool.true_or]
      · rw [has_sigmask_self hsig, Bool.or_true]
    · dsimp only
      split_ifs
      · rw [List.map_append, List.map_singleton, List.nodup_append]
        refine ⟨h.single, List.nodup_singleton _, fun a ha b hb hab => ?_⟩
        -- A queued signal is pending, the new one was not.
        obtain ⟨e, he, rfl⟩ := List.mem_map.mp ha
        obtain rfl := List.mem_singleton.mp hb
        have hqueued := h.queued e he
        rw [hab, hnot] at hqueued
        exact nomatch hqueued
      · exact h.single
    · intro e he
      rcases hqueue e he with hin | rfl
      · exact h.number e hin
      · exact hsig
    · intro i hi
      have hne : info.signo - 1 ≠ i := by
        have := hsig.1
        have := hsig.2
        omega
      simp [h.range i hi, sigmask, BitVec.getLsbD_twoPow, hne]
    · exact h.blocked
    · exact h.mask
    · exact h.kill
    · exact h.stop
    · intro hc k hk
      rw [has_or, Bool.or_eq_true, has_sigmask (by decide) hsig] at hc
      rw [has_or, has_sigmask (isSig_of_isStop hk) hsig, Bool.or_eq_false_iff]
      constructor
      · rcases hc with hc | hc
        · exact h.cont hc k hk
        · exact hcont (of_decide_eq_true hc).symm k hk
      · apply decide_eq_false
        rintro rfl
        rcases hc with hc | hc
        · rw [hstop hk] at hc
          exact nomatch hc
        · rw [← of_decide_eq_true hc] at hk
          exact absurd hk (by decide)
  · rwa [if_neg haccepts]

theorem Core.sendClear (h : Core t) (sig : ℕ) : Core (sendClear t sig) := by
  unfold Signal.sendClear
  split_ifs
  · exact h.flags rfl rfl rfl rfl
  · exact h

theorem sendClear_signal (t : Sig) (sig : ℕ) : (sendClear t sig).signal = t.signal := by
  unfold Signal.sendClear
  split_ifs <;> rfl

theorem Core.sendSection (h : Core t) (alloc : Bool) (hsig : IsSig info.signo) :
    SigOk (sendSection t info alloc) := by
  apply Core.recalc
  apply ((h.sendFlush info.signo).sendClear info.signo).sendQueue alloc hsig
  · intro hstop
    rw [sendClear_signal]
    exact sendFlush_cont hsig hstop
  · intro hcont k hk
    rw [sendClear_signal, hcont]
    exact sendFlush_stop hk

theorem has_kill_sendFlush (h : has t.signal sigkill = true) (sig : ℕ) :
    has (sendFlush t sig).signal sigkill = true := by
  unfold sendFlush
  split_ifs
  · change has (t.signal &&& ~~~sigmask sigcont) sigkill = true
    rw [has_and_not (by decide), h]
    decide
  · change has (t.signal &&& ~~~sigStopmask) sigkill = true
    rw [has_and_not (by decide), h]
    decide
  · exact h

theorem has_sendQueue (h : has t.signal k = true) (alloc : Bool) :
    has (sendQueue t info alloc).signal k = true := by
  unfold sendQueue
  by_cases haccepts : accepts t info.signo = true
  · rw [if_pos haccepts, has_or, h, Bool.true_or]
  · rwa [if_neg haccepts]

/-- Sending a signal takes none away except by the rule for stops and `SIGCONT`. -/
theorem has_kill_sendSection (h : has t.signal sigkill = true) (alloc : Bool) :
    has (sendSection t info alloc).signal sigkill = true := by
  have hclear : has (Signal.sendClear (sendFlush t info.signo) info.signo).signal sigkill =
      true := by
    rw [sendClear_signal]
    exact has_kill_sendFlush h info.signo
  exact has_sendQueue hclear alloc

/-! ### Taking -/

/-- The signal that is picked is one of the set. -/
theorem pickSignal_mem (hrange : ∀ i, sigMax ≤ i → t.signal.getLsbD i = false)
    (hne : t.signal &&& ~~~t.blocked ≠ 0) : IsSig (pickSignal (t.signal &&& ~~~t.blocked)) ∧
      has (t.signal &&& ~~~t.blocked) (pickSignal (t.signal &&& ~~~t.blocked)) = true := by
  unfold pickSignal
  split_ifs with hkill
  · exact ⟨by decide, (and_sigmask_ne_zero (by decide)).mp hkill⟩
  -- Some bit of the set is set, and all its bits are below `SIG_MAX`.
  obtain ⟨i, hi⟩ : ∃ i, (t.signal &&& ~~~t.blocked).getLsbD i = true := by
    by_contra hall
    apply hne
    apply BitVec.eq_of_getLsbD_eq
    intro i _
    simpa using not_exists.mp hall i
  have hlt : i < sigMax := by
    by_contra hge
    rw [BitVec.getLsbD_and, hrange i (by omega), Bool.false_and] at hi
    exact nomatch hi
  have hfound : ((List.range sigMax).find? fun i =>
      (t.signal &&& ~~~t.blocked).getLsbD i).isSome = true :=
    List.find?_isSome.mpr ⟨i, List.mem_range.mpr hlt, hi⟩
  obtain ⟨k, hk⟩ := Option.isSome_iff_exists.mp hfound
  have hmem := List.mem_range.mp (List.mem_of_find?_eq_some hk)
  have hbit := List.find?_some hk
  rw [findFirstBit, hk, Option.getD_some]
  exact ⟨⟨by omega, by omega⟩, hbit⟩

variable {fault : Option Siginfo} {taken : Sig × Siginfo} {r : Sig × Got}

/-- A pending signal is taken, or a fault that is not pending. -/
theorem takeSignal_cases (htake : takeSignal t fault = some taken) :
    (t.signal &&& ~~~t.blocked ≠ 0 ∧
        taken = dequeueSignal t (pickSignal (t.signal &&& ~~~t.blocked))) ∨
      ∃ info, fault = some info ∧ (taken = dequeueSignal t info.signo ∨ taken = (t, info)) := by
  unfold Signal.takeSignal at htake
  cases fault with
  | some info =>
    dsimp only at htake
    split_ifs at htake <;> cases htake
    · exact .inr ⟨info, rfl, .inl rfl⟩
    · exact .inr ⟨info, rfl, .inr rfl⟩
  | none =>
    dsimp only at htake
    split_ifs at htake with hne
    cases htake
    exact .inl ⟨hne, rfl⟩

theorem Core.takeSignal (h : Core t) (hfault : ∀ info, fault = some info → IsSig info.signo)
    (htake : takeSignal t fault = some taken) : Core taken.1 ∧ IsSig taken.2.signo := by
  rcases takeSignal_cases htake with ⟨hne, rfl⟩ | ⟨info, hinfo, rfl | rfl⟩
  · have hsig := (pickSignal_mem h.range hne).1
    rw [dequeueSignal_signo]
    exact ⟨h.dequeueSignal hsig, hsig⟩
  · rw [dequeueSignal_signo]
    exact ⟨h.dequeueSignal (hfault info hinfo), hfault info hinfo⟩
  · exact ⟨h, hfault info hinfo⟩

/-- Taking another signal leaves a pending `SIGKILL` alone. -/
theorem has_kill_takeSignal (hsig : IsSig taken.2.signo) (htake : takeSignal t fault = some taken)
    (hkill : has t.signal sigkill = true) (hne : taken.2.signo ≠ sigkill) :
    has taken.1.signal sigkill = true := by
  have hdequeue : ∀ sig, taken = Signal.dequeueSignal t sig →
      has taken.1.signal sigkill = true := by
    rintro sig rfl
    rw [dequeueSignal_signo] at hsig hne
    rw [dequeueSignal_signal, has_and_not (by decide), hkill, has_sigmask (by decide) hsig,
      decide_eq_false hne.symm]
    rfl
  rcases takeSignal_cases htake with ⟨-, heq⟩ | ⟨info, -, heq | rfl⟩
  · exact hdequeue _ heq
  · exact hdequeue _ heq
  · exact hkill

/-- What a round of `get_signal` found may be delivered to the handler it names. -/
structure KsignalOk (ks : Ksignal) : Prop where
  number : IsSig ks.info.signo
  mask : Open ks.action.mask
  kill : ks.action.handler ≠ .dfl → ks.info.signo ≠ sigkill
  stop : ks.action.handler ≠ .dfl → ks.info.signo ≠ sigstop

theorem Core.getTake (h : Core t) (hfault : ∀ info, fault = some info → IsSig info.signo)
    (hget : getTake t fault = some r) : Core r.1 ∧ KsignalOk r.2.signal := by
  unfold Signal.getTake at hget
  obtain ⟨⟨t', info⟩, htake, rfl⟩ := Option.map_eq_some_iff.mp hget
  obtain ⟨hcore, hsig⟩ := h.takeSignal hfault htake
  dsimp only at hcore hsig ⊢
  constructor
  · -- Resetting a handler to the default is harmless for every signal.
    have hreset : Core { t' with
        actions := update t'.actions info.signo
          { t'.actions info.signo with handler := .dfl } } := by
      refine { hcore with mask := ?_, kill := ?_, stop := ?_ }
      · exact (forall_update_iff t'.actions fun _ act => Open act.mask).mpr
          ⟨hcore.mask _, fun sig _ => hcore.mask sig⟩
      · dsimp only
        rw [update_apply]
        split_ifs
        · rfl
        · exact hcore.kill
      · dsimp only
        rw [update_apply]
        split_ifs
        · rfl
        · exact hcore.stop
    split_ifs
    · exact hreset
    · exact hcore
  · refine ⟨hsig, hcore.mask _, fun hne heq => ?_, fun hne heq => ?_⟩
    · dsimp only at hne heq
      rw [heq] at hne
      exact hne hcore.kill
    · dsimp only at hne heq
      rw [heq] at hne
      exact hne hcore.stop

theorem Core.getStop (h : Core t) (got : Got) : Core (getStop t got) := by
  unfold Signal.getStop
  split_ifs
  · exact h.flags rfl rfl rfl rfl
  · exact h

theorem getStop_signal (t : Sig) (got : Got) : (getStop t got).signal = t.signal := by
  unfold Signal.getStop
  split_ifs <;> rfl

theorem Core.getSection (h : Core t) (hfault : ∀ info, fault = some info → IsSig info.signo)
    (hget : getSection t fault = some r) : SigOk r.1 ∧ KsignalOk r.2.signal := by
  obtain ⟨⟨t', got⟩, htake, rfl⟩ := Option.map_eq_some_iff.mp hget
  obtain ⟨hcore, hks⟩ := h.getTake hfault htake
  exact ⟨(hcore.getStop got).recalc, hks⟩

theorem getTake_signal (hget : getTake t fault = some r) :
    ∃ taken, takeSignal t fault = some taken ∧
      r.1.signal = taken.1.signal ∧ r.2.signal.info = taken.2 := by
  unfold Signal.getTake at hget
  obtain ⟨taken, htake, rfl⟩ := Option.map_eq_some_iff.mp hget
  exact ⟨taken, htake, rfl, rfl⟩

theorem getSection_signal (hget : getSection t fault = some r) :
    ∃ taken, takeSignal t fault = some taken ∧
      r.1.signal = taken.1.signal ∧ r.2.signal.info = taken.2 := by
  obtain ⟨⟨t', got⟩, hr, rfl⟩ := Option.map_eq_some_iff.mp hget
  obtain ⟨taken, htake, hsignal, hinfo⟩ := getTake_signal hr
  exact ⟨taken, htake, (getStop_signal t' got).trans hsignal, hinfo⟩

/-! ### Masks and actions -/

theorem Core.setBlocked (h : Core t) (hmask : Open mask) (saved : Sigset) (suspended : Bool) :
    SigOk (recalcSigpending
      { t with blocked := mask, sigmask := saved, sigsuspended := suspended }) :=
  Core.recalc { h with blocked := hmask }

theorem Core.delivered (h : Core t) {ks : Ksignal} (hks : KsignalOk ks)
    (hne : ks.action.handler ≠ .dfl) : SigOk (delivered t ks) := by
  unfold Signal.delivered
  dsimp only
  have hmask := h.blocked.or hks.mask
  split_ifs
  · exact h.setBlocked (hmask.or (open_sigmask hks.number (hks.kill hne) (hks.stop hne))) _ _
  · exact h.setBlocked hmask _ _

/-- A new action for a signal that may have one. -/
theorem Core.setAction {act : Sigaction} (h : Core t) (hfixed : ¬ (sig = sigkill ∨ sig = sigstop)) :
    Core { t with
      actions := update t.actions sig
        { act with mask := act.mask &&& ~~~sigUnblockmask } } := by
  refine { h with mask := ?_, kill := ?_, stop := ?_ }
  · exact (forall_update_iff t.actions fun _ act => Open act.mask).mpr
      ⟨open_and_not _, fun sig _ => h.mask sig⟩
  · dsimp only
    rw [update_of_ne fun heq => hfixed (.inl heq.symm)]
    exact h.kill
  · dsimp only
    rw [update_of_ne fun heq => hfixed (.inr heq.symm)]
    exact h.stop

theorem SigOk.of_eq_or (h : SigOk t) (h' : t' = t ∨ SigOk t') : SigOk t' := by
  rcases h' with rfl | h'
  · exact h
  · exact h'

section Sigaction

variable {act : Option Sigaction} {r : Sig × Sigaction}

/-- A signal that is ignored from now on is no longer pending. -/
theorem Core.sigaction (h : Core t) (hact : sigaction t sig act = .ok r) :
    (r.1 = t ∨ SigOk r.1) ∧ r.1.stoppending = t.stoppending ∧ (r.1.signal = t.signal ∨
      IsSig sig ∧ sig ≠ sigkill ∧ r.1.signal = t.signal &&& ~~~sigmask sig) := by
  unfold Signal.sigaction at hact
  by_cases hrange : sig = 0 ∨ sigMax < sig
  · rw [if_pos hrange] at hact
    exact nomatch hact
  rw [if_neg hrange] at hact
  cases act with
  | none =>
    obtain rfl := Except.ok.inj hact
    exact ⟨.inl rfl, rfl, .inl rfl⟩
  | some act =>
    by_cases hfixed : sig = sigkill ∨ sig = sigstop
    · simp [hfixed] at hact
    · dsimp only at hact
      rw [if_neg hfixed] at hact
      obtain rfl := Except.ok.inj hact
      have hsig : IsSig sig := ⟨by omega, by omega⟩
      split_ifs
      · exact ⟨.inr ((h.setAction hfixed).flushSignals _).recalc, rfl,
          .inr ⟨hsig, fun heq => hfixed (.inl heq), rfl⟩⟩
      · exact ⟨.inr (h.setAction hfixed).recalc, rfl, .inl rfl⟩

theorem Core.has_kill_sigaction (h : Core t) (hkill : has t.signal sigkill = true)
    (hact : Signal.sigaction t sig act = .ok r) : has r.1.signal sigkill = true := by
  rcases (h.sigaction hact).2.2 with hsignal | ⟨hsig, hne, hsignal⟩
  · rwa [hsignal]
  · rw [hsignal, has_and_not (by decide), hkill, has_sigmask (by decide) hsig,
      decide_eq_false hne.symm]
    rfl

end Sigaction

theorem Core.sigprocmask {how : How} {set : Option Sigset} {r : Sig × Sigset} (h : Core t)
    (hr : sigprocmask t how set = .ok r) :
    (r.1 = t ∨ SigOk r.1) ∧ r.1.signal = t.signal ∧ r.1.stoppending = t.stoppending := by
  unfold Signal.sigprocmask at hr
  cases set with
  | none =>
    obtain rfl := Except.ok.inj hr
    exact ⟨.inl rfl, rfl, rfl⟩
  | some set =>
    have hnew := open_and_not set
    cases how with
    | block =>
      obtain rfl := Except.ok.inj hr
      exact ⟨.inr (h.setBlocked (h.blocked.or hnew) _ _), rfl, rfl⟩
    | unblock =>
      obtain rfl := Except.ok.inj hr
      exact ⟨.inr (h.setBlocked (h.blocked.and_not _) _ _), rfl, rfl⟩
    | setmask =>
      obtain rfl := Except.ok.inj hr
      exact ⟨.inr (h.setBlocked hnew _ _), rfl, rfl⟩
    | other => exact nomatch hr

theorem Core.signalClone (h : Core t) : Core (signalClone t) := by
  refine { h with mask := ?_, kill := ?_, stop := ?_ }
  · intro sig
    simp only [Signal.signalClone]
    split_ifs <;> exact open_zero
  · simp [Signal.signalClone, h.kill]
  · simp [Signal.signalClone, h.stop]

theorem SigOk.forked (h : SigOk t) : SigOk (forked t) where
  queued := nofun
  single := List.nodup_nil
  number := nofun
  range := fun i _ => BitVec.getLsbD_zero
  blocked := h.blocked
  mask := h.mask
  kill := h.kill
  stop := h.stop
  cont := fun hcont => by simp [Signal.forked, signalTaskInit, has] at hcont
  sigpending := by simp [Signal.forked, signalTaskInit]

theorem sigOk_signalTaskInit : SigOk signalTaskInit where
  queued := nofun
  single := List.nodup_nil
  number := nofun
  range := fun i _ => BitVec.getLsbD_zero
  blocked := open_zero
  mask := fun _ => open_zero
  kill := rfl
  stop := rfl
  cont := fun hcont => by simp [signalTaskInit, has] at hcont
  sigpending := by simp [signalTaskInit]

end Core

/-! ### Any number of tasks -/

/-- A task: its signals, and the signal it is about to deliver to a handler. -/
structure Task where
  sig : Sig
  delivering : Option Ksignal

/-- The user tasks; `none` is a task that does not exist yet. -/
abbrev State (N : ℕ) := Fin N → Option Task

/-- The operations, each a section under one `signal_lock`. -/
inductive Action (N : ℕ)
  | send (target : Fin N) (info : Siginfo) (alloc : Bool)
  | get (i : Fin N) (fault : Option Siginfo)
  | delivered (i : Fin N)
  | sigsuspend (i : Fin N) (set : Sigset)
  | sigaction (i : Fin N) (sig : ℕ) (act : Option Sigaction)
  | sigprocmask (i : Fin N) (how : How) (set : Option Sigset)
  | sigreturn (i : Fin N) (mask : Sigset)
  | signalClone (i : Fin N)
  | fork (parent child : Fin N)

variable {N : ℕ}

/-- Task `i` goes through a section, if it can. -/
def State.modify (s : State N) (i : Fin N) (f : Task → Option Task) : Option (State N) :=
  (s i).bind fun t => (f t).map fun t' => update s i (some t')

/-- The same for a task that is not in the middle of a delivery. -/
def own (f : Sig → Option (Sig × Option Ksignal)) (t : Task) : Option Task :=
  if t.delivering.isNone then (f t.sig).map fun (sig, ks) => ⟨sig, ks⟩ else none

/-- `send_signal`: number zero only asks whether the task exists. -/
def sendTask (info : Siginfo) (alloc : Bool) (t : Task) : Task :=
  if info.signo = 0 then t else { t with sig := sendSection t.sig info alloc }

/-- The exceptions of `trap_handler`: `SIGILL`, `SIGTRAP`, `SIGBUS`, `SIGSEGV`. -/
def isFault (sig : ℕ) : Bool := sig = 4 ∨ sig = 5 ∨ sig = 7 ∨ sig = 11

/-- A round of `get_signal`. A signal with a handler is delivered next; others stop the
task, end it, or are passed over. -/
def getTask (fault : Option Siginfo) : Task → Option Task :=
  own fun sig => (getSection sig fault).map fun (sig, got) =>
    (sig, match got.fatal, got.signal.action.handler with
      | false, .fn _ => some got.signal
      | _, _ => none)

def deliveredTask (t : Task) : Option Task :=
  t.delivering.map fun ks => ⟨delivered t.sig ks, none⟩

def step (s : State N) : Action N → Option (State N)
  | .send target info alloc =>
    if info.signo ≤ sigMax then s.modify target fun t => some (sendTask info alloc t) else none
  | .get i fault =>
    if fault.all fun info => isFault info.signo then s.modify i (getTask fault) else none
  | .delivered i => s.modify i deliveredTask
  | .sigsuspend i set => s.modify i (own fun sig => some (sigsuspend sig set, none))
  | .sigaction i n act =>
    s.modify i (own fun sig => (sigaction sig n act).toOption.map fun r => (r.1, none))
  | .sigprocmask i how set =>
    s.modify i (own fun sig => (sigprocmask sig how set).toOption.map fun r => (r.1, none))
  | .sigreturn i mask => s.modify i (own fun sig => some (sigreturn sig mask, none))
  | .signalClone i => s.modify i (own fun sig => some (signalClone sig, none))
  | .fork parent child =>
    match s parent, s child with
    | some t, none => some (update s child (some ⟨forked t.sig, none⟩))
    | _, _ => none

/-- One task, as `signal_task_init` leaves it. -/
def boot (i : Fin N) : State N := update (fun _ => none) i (some ⟨signalTaskInit, none⟩)

/-- The signal an action takes from task `i`. -/
def taken (s : State N) (a : Action N) (i : Fin N) : Option ℕ :=
  match a with
  | .get j fault =>
    if j = i then (s i).bind fun t => (getSection t.sig fault).map fun r => r.2.signal.info.signo
    else none
  | _ => none

/-- A signal to deliver has a handler, which `SIGKILL` and `SIGSTOP` never have. -/
structure TaskOk (t : Task) : Prop where
  sig : SigOk t.sig
  delivering : ∀ ks, t.delivering = some ks → KsignalOk ks ∧ ks.action.handler ≠ .dfl

/-- What a section of one task does: it keeps the invariant, and a pending `SIGKILL`
unless `took` says that it was taken. -/
structure Keeps (t t' : Task) (took : Option ℕ) : Prop where
  ok : TaskOk t'
  kill : has t.sig.signal sigkill = true → has t'.sig.signal sigkill = true ∨ took = some sigkill

/-- The same for all tasks at once. -/
structure AllKeep (s s' : State N) (took : Fin N → Option ℕ) : Prop where
  ok : ∀ j t, s' j = some t → TaskOk t
  kill : ∀ j t, s j = some t → has t.sig.signal sigkill = true →
    (∃ t', s' j = some t' ∧ has t'.sig.signal sigkill = true) ∨ took j = some sigkill

theorem eq_ok_of_toOption {ε α : Type} {e : Except ε α} {a : α} (h : e.toOption = some a) :
    e = .ok a := by
  cases e with
  | error err => exact nomatch h
  | ok b => rw [Option.some.inj h]

section Step

variable {s s' : State N} {t t' : Task} {i : Fin N} {took : Fin N → Option ℕ}

theorem keeps_getTask {fault : Option Siginfo} (ht : TaskOk t)
    (hfault : (fault.all fun info => isFault info.signo) = true) (h : getTask fault t = some t') :
    Keeps t t' ((getSection t.sig fault).map fun r => r.2.signal.info.signo) := by
  have hsig : ∀ info, fault = some info → IsSig info.signo := by
    rintro info rfl
    have : info.signo = 4 ∨ info.signo = 5 ∨ info.signo = 7 ∨ info.signo = 11 := by
      simpa [isFault] using hfault
    exact ⟨by omega, by simp only [sigMax]; omega⟩
  unfold getTask own at h
  split_ifs at h
  obtain ⟨r, hr, rfl⟩ := Option.map_eq_some_iff.mp h
  obtain ⟨⟨sig, got⟩, hget, rfl⟩ := Option.map_eq_some_iff.mp hr
  obtain ⟨hok, hks⟩ := ht.sig.toCore.getSection hsig hget
  refine ⟨⟨hok, ?_⟩, fun hpending => ?_⟩
  · intro ks hdelivering
    dsimp only at hdelivering
    split at hdelivering
    next hfn =>
      cases hdelivering
      exact ⟨hks, by rw [hfn]; exact nofun⟩
    · exact nomatch hdelivering
  · obtain ⟨took, htake, hsignal, hinfo⟩ := getSection_signal hget
    rw [hget, Option.map_some]
    dsimp only at hsignal hinfo hks ⊢
    by_cases hkill : got.signal.info.signo = sigkill
    · exact .inr (congrArg some hkill)
    · left
      rw [hsignal]
      have hnumber := hks.number
      rw [hinfo] at hnumber hkill
      exact has_kill_takeSignal hnumber htake hpending hkill

theorem keeps_sendTask {info : Siginfo} (ht : TaskOk t) (alloc : Bool)
    (hinfo : info.signo ≤ sigMax) : Keeps t (sendTask info alloc t) none := by
  unfold sendTask
  split_ifs with hzero
  · exact ⟨ht, .inl⟩
  · refine ⟨⟨?_, ht.delivering⟩, fun hpending => .inl ?_⟩
    · exact ht.sig.toCore.sendSection alloc ⟨by omega, hinfo⟩
    · exact has_kill_sendSection hpending alloc

theorem keeps_deliveredTask (ht : TaskOk t) (h : deliveredTask t = some t') : Keeps t t' none := by
  obtain ⟨ks, hks, rfl⟩ := Option.map_eq_some_iff.mp h
  obtain ⟨hok, hne⟩ := ht.delivering ks hks
  refine ⟨⟨ht.sig.toCore.delivered hok hne, nofun⟩, fun hpending => .inl ?_⟩
  exact hpending

section

variable (h : ∀ j t, s j = some t → TaskOk t)
include h

/-- A section of task `i` keeps what holds of all tasks. -/
theorem keeps_modify {f : Task → Option Task} (hs : s.modify i f = some s')
    (hf : ∀ t t', s i = some t → TaskOk t → f t = some t' → Keeps t t' (took i)) :
    AllKeep s s' took := by
  obtain ⟨t, ht, hmap⟩ := Option.bind_eq_some_iff.mp hs
  obtain ⟨t', hft, rfl⟩ := Option.map_eq_some_iff.mp hmap
  have hkeeps := hf t t' ht (h i t ht) hft
  constructor
  · intro j u hu
    rcases eq_of_update hu with ⟨-, ⟨⟩⟩ | ⟨-, hu⟩
    · exact hkeeps.ok
    · exact h j u hu
  · intro j u hu hpending
    rcases eq_or_ne j i with rfl | hne
    · cases ht.symm.trans hu
      rcases hkeeps.kill hpending with hkill | htook
      · exact .inl ⟨t', update_self .., hkill⟩
      · exact .inr htook
    · exact .inl ⟨u, by rw [update_of_ne hne, hu], hpending⟩

/-- A section of a task that is not in the middle of a delivery and takes no signal. -/
theorem keeps_own {f : Sig → Option (Sig × Option Ksignal)} (hs : s.modify i (own f) = some s')
    (hf : ∀ sig r, SigOk sig → f sig = some r → r.2 = none ∧ SigOk r.1 ∧
      (has sig.signal sigkill = true → has r.1.signal sigkill = true)) : AllKeep s s' took := by
  apply keeps_modify h hs
  intro t t' _ ht hown
  unfold own at hown
  split_ifs at hown
  obtain ⟨⟨sig, next⟩, hr, rfl⟩ := Option.map_eq_some_iff.mp hown
  obtain ⟨hnone, hok, hkill⟩ := hf _ _ ht.sig hr
  obtain rfl : next = none := hnone
  exact ⟨⟨hok, nofun⟩, fun hpending => .inl (hkill hpending)⟩

/-- One step keeps the invariant of every task and every pending `SIGKILL` it does not
take. -/
theorem step_keeps {a : Action N} (hs : step s a = some s') : AllKeep s s' (taken s a) := by
  cases a with
  | send target info alloc =>
    simp only [step, Option.ite_none_right_eq_some] at hs
    apply keeps_modify h hs.2
    intro t t' _ ht hf
    cases hf
    exact keeps_sendTask ht alloc hs.1
  | get i fault =>
    simp only [step, Option.ite_none_right_eq_some] at hs
    apply keeps_modify h hs.2
    intro t t' hi ht hf
    simp only [taken, if_true, hi, Option.bind_some]
    exact keeps_getTask ht hs.1 hf
  | delivered i =>
    apply keeps_modify h hs
    intro t t' _ ht hf
    exact keeps_deliveredTask ht hf
  | sigsuspend i set | sigreturn i mask =>
    apply keeps_own h hs
    intro sig r hok hr
    cases hr
    exact ⟨rfl, hok.toCore.setBlocked (open_and_not _) _ _, fun hkill => hkill⟩
  | sigaction i n act =>
    apply keeps_own h hs
    intro sig r hok hr
    obtain ⟨q, hq, rfl⟩ := Option.map_eq_some_iff.mp hr
    have hact := eq_ok_of_toOption hq
    exact ⟨rfl, hok.of_eq_or (hok.toCore.sigaction hact).1,
      fun hkill => hok.toCore.has_kill_sigaction hkill hact⟩
  | sigprocmask i how set =>
    apply keeps_own h hs
    intro sig r hok hr
    obtain ⟨q, hq, rfl⟩ := Option.map_eq_some_iff.mp hr
    obtain ⟨hnew, hsame, -⟩ := hok.toCore.sigprocmask (eq_ok_of_toOption hq)
    exact ⟨rfl, hok.of_eq_or hnew, fun hkill => by rw [hsame]; exact hkill⟩
  | signalClone i =>
    apply keeps_own h hs
    intro sig r hok hr
    cases hr
    exact ⟨rfl, ⟨hok.toCore.signalClone, hok.sigpending⟩, fun hkill => hkill⟩
  | fork parent child =>
    simp only [step] at hs
    split at hs
    next t hparent hchild =>
      cases hs
      constructor
      · intro j u hu
        rcases eq_of_update hu with ⟨-, ⟨⟩⟩ | ⟨-, hu⟩
        · exact ⟨(h parent t hparent).sig.forked, nofun⟩
        · exact h j u hu
      · intro j u hu hpending
        have hne : j ≠ child := by
          rintro rfl
          rw [hchild] at hu
          exact nomatch hu
        exact .inl ⟨u, by rw [update_of_ne hne, hu], hpending⟩
    · exact nomatch hs

end

end Step

theorem taskOk_of_reachable {i : Fin N} {s : State N}
    (h : Reachable (· = boot i) (Graph step) s) : ∀ j t, s j = some t → TaskOk t := by
  apply h.invariant
  · rintro _ rfl j t hj
    unfold boot at hj
    rw [update_apply] at hj
    split_ifs at hj
    cases hj
    exact ⟨sigOk_signalTaskInit, nofun⟩
  · intro s a s' hinv hs
    exact (step_keeps hinv hs).ok

/-- **Pending signals.** In every reachable state, for every task: the flag is set exactly
when an unblocked signal is pending; every entry of the queue is pending and each signal
has at most one; `SIGKILL` and `SIGSTOP` are in no mask and have the default action;
`SIGCONT` and a stop signal are not pending together; and a pending `SIGKILL` stays
pending through every step that does not take it. -/
theorem signals_of_reachable {i : Fin N} {s : State N} (h : Reachable (· = boot i) (Graph step) s) :
    (∀ j t, s j = some t → SigOk t.sig) ∧
      ∀ a s', step s a = some s' → ∀ j t, s j = some t → has t.sig.signal sigkill = true →
        (∃ t', s' j = some t' ∧ has t'.sig.signal sigkill = true) ∨ taken s a j = some sigkill :=
  ⟨fun j t ht => (taskOk_of_reachable h j t ht).sig,
    fun _ _ hs => (step_keeps (taskOk_of_reachable h) hs).kill⟩

/-- A task blocks `SIGTSTP` and `SIGKILL`, gets both, and forks. -/
def blockedRun : List (Action 2) :=
  [.sigprocmask 0 .block (some (sigmask sigtstp ||| sigmask sigkill)),
    .send 0 ⟨sigtstp, siUser, 0⟩ true, .send 0 ⟨sigkill, siUser, 0⟩ false, .fork 0 1]

theorem signals_of_blockedRun : ∃ s : State 2, exec step (boot 0) blockedRun = some s ∧
      ((s 0).map fun t => (t.sig.blocked, t.sig.signal)) =
        some (sigmask sigtstp, sigmask sigtstp ||| sigmask sigkill) ∧
      (∀ j t, s j = some t → SigOk t.sig) ∧
      ∀ a s', step s a = some s' → ∀ j t, s j = some t → has t.sig.signal sigkill = true →
        (∃ t', s' j = some t' ∧ has t'.sig.signal sigkill = true) ∨ taken s a j = some sigkill := by
  have hrun : ((exec step (boot (0 : Fin 2)) blockedRun).map fun s =>
      (s 0).map fun t => (t.sig.blocked, t.sig.signal)) =
        some (some (sigmask sigtstp, sigmask sigtstp ||| sigmask sigkill)) := by decide +kernel
  obtain ⟨s, hs, heq⟩ := Option.map_eq_some_iff.mp hrun
  exact ⟨s, hs, heq, signals_of_reachable (Reachable.exec (.init rfl) hs)⟩

end Nuvix.Signal
