import Nuvix.Errno
import Nuvix.Kernel.Wait
import Nuvix.Lib.SearchTree

/-!
# Timers: `kernel/timer.c`

The timers of a CPU are kept in a red-black tree by deadline and order of registration, with
the first of them cached. The tick takes expired timers out one by one and calls them without
the lock of the base; the state of a timer tells whether it is in the tree, being called, or
being called while somebody waits for the call to end. A waiter sleeps in the queue `drain`,
whose lock is the lock of the base.

Here are the sections of that lock. Sequence numbers are 64 bits wide and wrap, so the order of
the tree says nothing about the order of registration then; it is still an order.
-/

namespace Nuvix.Timers

open SearchTree Sched Wait Function

/-- `enum timer_state`. -/
inductive TimerState
  | idle
  | queued
  | running
  | draining
  deriving DecidableEq, Repr

/-- The timer is being called. -/
def TimerState.executing : TimerState → Prop
  | running | draining => True
  | _ => False

/-- `struct timer`. -/
structure Timer where
  deadline : ℕ
  sequence : ℕ
  state : TimerState
  deriving DecidableEq, Repr

/-- The comparison of the descent in `timer_start`. -/
def Before (a b : Timer) : Prop :=
  a.deadline < b.deadline ∨ a.deadline = b.deadline ∧ a.sequence < b.sequence

instance (a b : Timer) : Decidable (Before a b) := inferInstanceAs (Decidable (_ ∨ _))

/-- The number of values of a sequence number. -/
def sequenceRange : ℕ := 18446744073709551616

/-- `struct timers`, and the timers that use it. -/
structure Base (α τ : Type*) where
  timer : α → Timer
  tree : Bst α
  first : Option α
  nextSequence : ℕ
  drain : List τ

variable {α τ : Type*} [DecidableEq α] {state : TimerState} {deadline : ℕ}
  {ret : Except Errno ℕ}

namespace Base

/-- `timers_init`, with timers that have been initialized. -/
def init : Base α τ where
  timer _ := ⟨0, 0, .idle⟩
  tree := .nil
  first := none
  nextSequence := 0
  drain := []

def setState (b : Base α τ) (x : α) (state : TimerState) : Base α τ :=
  { b with timer := update b.timer x { b.timer x with state := state } }

/-- The turn that the descent for a timer takes at `y`. -/
def side (b : Base α τ) (timer : Timer) (y : α) : Ordering :=
  if Before timer (b.timer y) then .lt else .gt

variable (rb : Rebalance α)

/-- `timer_start`. The descent ends at a null link. -/
def timerStart (b : Base α τ) (x : α) (deadline : ℕ) : Except Errno (Base α τ) :=
  if (b.timer x).state ≠ .idle then .error .ebusy
  else
    let timer : Timer := ⟨deadline, b.nextSequence, .queued⟩
    .ok { b with
      timer := update b.timer x timer
      tree := rb.insertColor x ((b.tree.link (b.side timer) x).getD b.tree)
      first := if b.tree.leftmost (b.side timer) then some x else b.first
      nextSequence := (b.nextSequence + 1) % sequenceRange }

/-- `remove_timer_locked`. -/
def removeTimer (b : Base α τ) (x : α) : Base α τ :=
  { b with
    first := if b.first = some x then b.tree.next x else b.first
    tree := rb.erase x b.tree }

/-- `timer_cancel_locked`. -/
def timerCancel (b : Base α τ) (x : α) : Base α τ × Except Errno ℕ :=
  match (b.timer x).state with
  | .queued => ((b.removeTimer rb x).setState x .idle, .ok 1)
  | .running | .draining => (b.setState x .draining, .error .ebusy)
  | .idle => (b, .ok 0)

/-- One round of the loop of `timer_cancel_sync`, up to the unlock: the base, the states of the
tasks, and what `timer_cancel_locked` returned. -/
def cancelRound [DecidableEq τ] (b : Base α τ) (state : τ → TaskState) (t : τ) (x : α) :
    Base α τ × (τ → TaskState) × Except Errno ℕ :=
  let (drain, state) := finishWait b.drain state t
  let (b, ret) := timerCancel rb { b with drain := drain } x
  match ret with
  | .ok _ => (b, state, ret)
  | .error _ =>
    let (drain, state) := prepareToWait b.drain state t .uninterruptible
    ({ b with drain := drain }, state, ret)

/-- The first section of the loop of `timer_tick`: the timer to call. -/
def takeExpired (b : Base α τ) (now : ℕ) : Option (α × Base α τ) :=
  match b.first with
  | none => none
  | some x =>
    if (b.timer x).deadline > now then none
    else some (x, (b.removeTimer rb x).setState x .running)

/-- The last section of the loop of `timer_tick`. -/
def endCall [DecidableEq τ] (b : Base α τ) (state : τ → TaskState) (x : α) :
    Base α τ × (τ → TaskState) :=
  (b.setState x .idle,
    if (b.timer x).state = .draining then wakeUpAll b.drain state else state)

end Base

/-! ### The order of the tree -/

theorem Before.trans_not {a b c : Timer} (hab : Before a b) (hcb : ¬ Before c b) : Before a c := by
  unfold Before at *
  omega

theorem Before.asymm {a b : Timer} (hab : Before a b) : ¬ Before b a := by
  unfold Before at *
  omega

theorem TimerState.executing.ne (h : state.executing) : state ≠ .queued ∧ state ≠ .idle := by
  cases state <;> simp_all [TimerState.executing]

namespace Base

variable {b b' : Base α τ} {x y : α} {rb : Rebalance α} {timer : Timer}

section

omit [DecidableEq α]

theorem side_eq_lt : b.side timer y = .lt ↔ Before timer (b.timer y) := by
  unfold side
  split <;> simp [*]

theorem side_eq_gt : b.side timer y = .gt ↔ ¬ Before timer (b.timer y) := by
  unfold side
  split <;> simp [*]

/-- The tree is sorted and has no timer twice, a timer is in it iff it is queued, and the
cached timer is the first one. -/
structure Ok (b : Base α τ) : Prop where
  sorted : b.tree.toList.Pairwise fun x y => ¬ Before (b.timer y) (b.timer x)
  nodup : b.tree.toList.Nodup
  mem_iff : ∀ x, x ∈ b.tree.toList ↔ (b.timer x).state = .queued
  first : b.first = b.tree.toList.head?

/-- `x` is queued, and no queued timer comes before it. -/
def Least (b : Base α τ) (x : α) : Prop :=
  (b.timer x).state = .queued ∧
    ∀ y, (b.timer y).state = .queued → ¬ Before (b.timer y) (b.timer x)

theorem Ok.init : (init : Base α τ).Ok :=
  ⟨List.Pairwise.nil, List.nodup_nil, fun _ => ⟨nofun, nofun⟩, rfl⟩

/-- The queue of waiters says nothing about the timers. -/
theorem Ok.setDrain (hb : b.Ok) (drain : List τ) : { b with drain := drain }.Ok :=
  ⟨hb.sorted, hb.nodup, hb.mem_iff, hb.first⟩

theorem Ok.first_eq_none (hb : b.Ok) : b.first = none ↔ ∀ x, (b.timer x).state ≠ .queued := by
  rw [hb.first, List.head?_eq_none_iff, List.eq_nil_iff_forall_not_mem]
  exact forall_congr' fun x => not_congr (hb.mem_iff x)

/-- The cached timer is the least one. -/
theorem Ok.least_first (hb : b.Ok) (hx : b.first = some x) : b.Least x := by
  rw [hb.first, List.head?_eq_some_iff] at hx
  obtain ⟨xs, hlist⟩ := hx
  have hsorted := hb.sorted
  rw [hlist] at hsorted
  refine ⟨(hb.mem_iff x).mp (hlist ▸ List.mem_cons_self), fun y hy => ?_⟩
  have hmem := (hb.mem_iff y).mpr hy
  rw [hlist] at hmem
  rcases List.mem_cons.mp hmem with rfl | hmem
  · unfold Before
    omega
  · exact (List.pairwise_cons.mp hsorted).1 y hmem

theorem Ok.directed (hb : b.Ok) (timer : Timer) : Directed (b.side timer) b.tree.toList := by
  refine hb.sorted.imp fun {x y} hxy => ?_
  rw [side_eq_lt, side_eq_lt, side_eq_gt, side_eq_gt]
  exact ⟨fun hx => hx.trans_not hxy, fun hy hx => hy (hx.trans_not hxy)⟩

end

/-! ### The sections keep the base in order -/

@[simp] theorem timer_setState_self (b : Base α τ) (x : α) (state : TimerState) :
    (b.setState x state).timer x = { b.timer x with state := state } :=
  update_self _ _ _

@[simp] theorem timer_setState_of_ne (b : Base α τ) (state : TimerState) (hy : y ≠ x) :
    (b.setState x state).timer y = b.timer y :=
  update_of_ne hy _ _

theorem setState_eq_self (h : (b.timer x).state = state) : b.setState x state = b := by
  unfold setState
  rw [← h, update_eq_self]

/-- Setting the state of a timer changes no deadline. -/
theorem deadline_setState (b : Base α τ) (x : α) (state : TimerState) (y : α) :
    ((b.setState x state).timer y).deadline = (b.timer y).deadline := by
  by_cases hy : y = x
  · rw [hy, timer_setState_self]
  · rw [timer_setState_of_ne b state hy]

/-- The order is not about the states. -/
theorem before_setState (b : Base α τ) (x : α) (state : TimerState) (y z : α) :
    Before ((b.setState x state).timer y) ((b.setState x state).timer z) ↔
      Before (b.timer y) (b.timer z) := by
  have hsame : ∀ y, ((b.setState x state).timer y).deadline = (b.timer y).deadline ∧
      ((b.setState x state).timer y).sequence = (b.timer y).sequence := by
    intro y
    by_cases hy : y = x
    · subst hy
      rw [timer_setState_self]
      exact ⟨rfl, rfl⟩
    · rw [timer_setState_of_ne b state hy]
      exact ⟨rfl, rfl⟩
  unfold Before
  rw [(hsame y).1, (hsame y).2, (hsame z).1, (hsame z).2]

/-- A timer that is not queued changes to another state. -/
theorem Ok.setState (hb : b.Ok) (hx : (b.timer x).state ≠ .queued)
    (hstate : state ≠ .queued) : (b.setState x state).Ok where
  sorted := hb.sorted.imp fun {y z} h => fun h' => h ((before_setState b x state z y).mp h')
  nodup := hb.nodup
  mem_iff y := by
    by_cases hy : y = x
    · subst hy
      rw [timer_setState_self]
      exact ⟨fun h => absurd ((hb.mem_iff y).mp h) hx, fun h => absurd h hstate⟩
    · rw [timer_setState_of_ne b state hy]
      exact hb.mem_iff y
  first := hb.first

/-- A queued timer is removed and changes to another state. -/
theorem Ok.remove (hb : b.Ok) (hstate : state ≠ .queued) :
    ((b.removeTimer rb x).setState x state).Ok where
  sorted := by
    have herase := hb.sorted.sublist (List.erase_sublist (a := x))
    rw [← rb.toList_erase] at herase
    exact herase.imp fun {y z} h h' => h ((before_setState _ x state z y).mp h')
  nodup := by
    have herase := hb.nodup.erase x
    rwa [← rb.toList_erase] at herase
  mem_iff y := by
    change y ∈ (rb.erase x b.tree).toList ↔ _
    rw [rb.toList_erase, hb.nodup.mem_erase_iff]
    by_cases hy : y = x
    · subst hy
      rw [timer_setState_self]
      exact ⟨fun h => absurd rfl h.1, fun h => absurd h hstate⟩
    · rw [timer_setState_of_ne _ state hy]
      exact ⟨fun h => (hb.mem_iff y).mp h.2, fun h => ⟨hy, (hb.mem_iff y).mpr h⟩⟩
  first := by
    change (if b.first = some x then b.tree.next x else b.first) = (rb.erase x b.tree).toList.head?
    rw [rb.toList_erase, hb.first]
    cases hlist : b.tree.toList with
    | nil => simp
    | cons y ys =>
      by_cases hy : y = x
      · -- The cached timer goes; its successor is next.
        subst hy
        rw [List.head?_cons, if_pos rfl, Bst.next_head hlist, List.erase_cons_head]
      · rw [List.head?_cons, if_neg (fun h => hy (Option.some.inj h)),
          List.erase_cons_tail (by simpa using hy), List.head?_cons]

/-- What a successful `timer_start` does. -/
theorem timerStart_eq (h : b.timerStart rb x deadline = .ok b') : (b.timer x).state = .idle ∧
      b'.timer = update b.timer x ⟨deadline, b.nextSequence, .queued⟩ ∧ b'.drain = b.drain := by
  unfold timerStart at h
  split at h
  · cases h
  next hidle =>
    obtain rfl := Except.ok.inj h
    exact ⟨not_not.mp hidle, rfl, rfl⟩

theorem timerStart_error {e : Errno} (h : b.timerStart rb x deadline = .error e) : e = .ebusy := by
  unfold timerStart at h
  split at h
  · exact (Except.error.inj h).symm
  · cases h

/-- A timer put between those it does not come before and those it comes before. -/
theorem Ok.sorted_insert (hb : b.Ok) {xs ys : List α}
    (hlist : b.tree.toList = xs ++ ys) (hx : x ∉ xs ++ ys)
    (hxs : ∀ y ∈ xs, ¬ Before timer (b.timer y)) (hys : ∀ y ∈ ys, Before timer (b.timer y)) :
    (xs ++ x :: ys).Pairwise fun y z =>
      ¬ Before (update b.timer x timer z) (update b.timer x timer y) := by
  have hold : ∀ y ∈ xs ++ ys, update b.timer x timer y = b.timer y :=
    fun y hy => update_of_ne (ne_of_mem_of_not_mem hy hx) _ _
  have hsorted := hb.sorted
  rw [hlist] at hsorted
  have hsame : (xs ++ ys).Pairwise fun y z =>
      ¬ Before (update b.timer x timer z) (update b.timer x timer y) :=
    hsorted.imp_of_mem fun hy hz h => by rwa [hold _ hy, hold _ hz]
  obtain ⟨hsx, hsy, hcross⟩ := List.pairwise_append.mp hsame
  refine List.pairwise_append.mpr ⟨hsx, List.pairwise_cons.mpr ⟨fun y hy => ?_, hsy⟩, ?_⟩
  · rw [hold y (List.mem_append_right _ hy), update_self]
    exact (hys y hy).asymm
  · intro y hy z hz
    rcases List.mem_cons.mp hz with rfl | hz
    · rw [hold y (List.mem_append_left _ hy), update_self]
      exact hxs y hy
    · exact hcross y hy z hz

omit [DecidableEq α] in
/-- The new timer comes first exactly if the descent never went right. -/
theorem Ok.head_insert (hb : b.Ok) {xs ys : List α}
    (hlist : b.tree.toList = xs ++ ys) (hxs : ∀ y ∈ xs, b.side timer y = .gt)
    (hys : ∀ y ∈ ys, b.side timer y = .lt) :
    (if b.tree.leftmost (b.side timer) then some x else b.first) = (xs ++ x :: ys).head? := by
  have hleft := Bst.leftmost_iff (hb.directed timer)
  rw [hlist] at hleft
  cases xs with
  | nil => rw [if_pos (hleft.mpr hys), List.nil_append, List.head?_cons]
  | cons y xs =>
    have hright : ¬ b.tree.leftmost (b.side timer) = true := by
      intro h
      have hlt := hleft.mp h y (by simp)
      rw [hxs y List.mem_cons_self] at hlt
      cases hlt
    rw [if_neg hright, hb.first, hlist, List.cons_append, List.cons_append, List.head?_cons,
      List.head?_cons]

theorem Ok.timerStart (hb : b.Ok) (h : b.timerStart rb x deadline = .ok b') : b'.Ok := by
  have hidle := (timerStart_eq h).1
  have hnot : x ∉ b.tree.toList := by simp [hb.mem_iff, hidle]
  unfold Base.timerStart at h
  rw [if_neg (not_not.mpr hidle)] at h
  obtain rfl := Except.ok.inj h
  generalize htimer : (⟨deadline, b.nextSequence, .queued⟩ : Timer) = timer
  -- The descent never finds a timer that is neither to the left nor to the right.
  rcases Bst.link_spec x (hb.directed timer) with
    ⟨-, y, -, heq⟩ | ⟨t', xs, ys, hlink, hlist, hlist', hxs, hys⟩
  · unfold side at heq
    split at heq <;> cases heq
  have htree : (rb.insertColor x ((b.tree.link (b.side timer) x).getD b.tree)).toList =
      xs ++ x :: ys := by
    rw [rb.toList_insertColor, hlink, Option.getD_some, hlist']
  have hperm : (xs ++ x :: ys).Perm (x :: b.tree.toList) := hlist ▸ List.perm_middle
  refine ⟨?_, ?_, fun y => ?_, ?_⟩
  · rw [htree]
    exact hb.sorted_insert hlist (hlist ▸ hnot) (fun y hy => side_eq_gt.mp (hxs y hy))
      fun y hy => side_eq_lt.mp (hys y hy)
  · rw [htree, hperm.nodup_iff]
    exact List.nodup_cons.mpr ⟨hnot, hb.nodup⟩
  · rw [htree, hperm.mem_iff, List.mem_cons]
    by_cases hy : y = x
    · subst hy
      simp [← htimer]
    · simp [hy, hb.mem_iff y]
  · rw [htree]
    exact hb.head_insert hlist hxs hys

/-- `timer_cancel_locked` makes a queued timer idle, tells the one who ends a call that somebody
waits, and leaves an idle timer alone. -/
theorem timerCancel_eq (rb : Rebalance α) (b : Base α τ) (x : α) :
    ((b.timer x).state = .queued ∧
        b.timerCancel rb x = ((b.removeTimer rb x).setState x .idle, .ok 1)) ∨
      ((b.timer x).state.executing ∧
        b.timerCancel rb x = (b.setState x .draining, .error .ebusy)) ∨
      (b.timer x).state = .idle ∧ b.timerCancel rb x = (b, .ok 0) := by
  unfold timerCancel
  cases hstate : (b.timer x).state with
  | queued => exact .inl ⟨rfl, rfl⟩
  | running | draining => exact .inr (.inl ⟨trivial, rfl⟩)
  | idle => exact .inr (.inr ⟨rfl, rfl⟩)

/-- `timer_cancel_locked` is about one timer. -/
theorem timerCancel_other (h : b.timerCancel rb x = (b', ret)) :
    (∀ y ≠ x, b'.timer y = b.timer y) ∧ b'.drain = b.drain := by
  rcases timerCancel_eq rb b x with ⟨-, heq⟩ | ⟨-, heq⟩ | ⟨-, heq⟩ <;>
    obtain ⟨rfl, -⟩ := Prod.mk.inj (h.symm.trans heq)
  · exact ⟨fun y hy => timer_setState_of_ne _ _ hy, rfl⟩
  · exact ⟨fun y hy => timer_setState_of_ne _ _ hy, rfl⟩
  · exact ⟨fun _ _ => rfl, rfl⟩

theorem Ok.timerCancel (hb : b.Ok) (h : b.timerCancel rb x = (b', ret)) : b'.Ok := by
  rcases timerCancel_eq rb b x with ⟨-, heq⟩ | ⟨hexec, heq⟩ | ⟨-, heq⟩ <;>
    obtain ⟨rfl, -⟩ := Prod.mk.inj (h.symm.trans heq)
  · exact hb.remove nofun
  · exact hb.setState hexec.ne.1 nofun
  · exact hb

/-- The tick takes the least timer, and only if it has expired. -/
theorem Ok.takeExpired (hb : b.Ok) {now : ℕ} (h : b.takeExpired rb now = some (x, b')) :
    b'.Ok ∧ b.Least x ∧ (b.timer x).deadline ≤ now ∧
      b' = (b.removeTimer rb x).setState x .running := by
  unfold Base.takeExpired at h
  split at h
  · cases h
  next y hfirst =>
    split at h
    · cases h
    next hdue =>
      obtain ⟨rfl, rfl⟩ := Prod.mk.inj (Option.some.inj h)
      exact ⟨hb.remove nofun, hb.least_first hfirst, not_lt.mp hdue, rfl⟩

end Base

/-! ### The tick -/

/-- Where `timer_tick` is: not running, before it looks at the first timer, before it calls a
timer, and after the call. -/
inductive Tick (α : Type*)
  | idle
  | scan (now : ℕ)
  | call (now : ℕ) (x : α)
  | called (now : ℕ) (x : α)
  deriving DecidableEq

/-- The timer that the tick has taken out and not yet let go. -/
def Tick.timer : Tick α → Option α
  | call _ x | called _ x => some x
  | _ => none

/-- The time of the tick. -/
def Tick.now : Tick α → Option ℕ
  | idle => none
  | scan now | call now _ | called now _ => some now

/-- The base is in order, and the tick is at the timer whose state says so, after its
deadline. -/
structure Ticking (b : Base α τ) (tick : Tick α) : Prop where
  ok : b.Ok
  executing : ∀ x, (b.timer x).state.executing ↔ tick.timer = some x
  due : ∀ now x, tick = .call now x → (b.timer x).deadline ≤ now

namespace Ticking

variable {b b' : Base α τ} {tick tick' : Tick α} {x : α} {rb : Rebalance α}

omit [DecidableEq α] in
theorem init : Ticking (Base.init : Base α τ) .idle :=
  ⟨Base.Ok.init, fun _ => ⟨False.elim, nofun⟩, nofun⟩

section

variable (h : Ticking b tick)
include h

omit [DecidableEq α] in
theorem setDrain (drain : List τ) : Ticking { b with drain := drain } tick :=
  ⟨h.ok.setDrain drain, h.executing, h.due⟩

omit [DecidableEq α] in
theorem timer_ne_of_state (hx : ¬ (b.timer x).state.executing) : tick.timer ≠ some x :=
  mt (h.executing x).mpr hx

omit [DecidableEq α] in
/-- The tick does not come to a timer, or leaves it behind. -/
theorem setTick (htimer : tick'.timer = tick.timer) (hcall : ∀ now x, tick' ≠ .call now x) :
    Ticking b tick' :=
  ⟨h.ok, fun x => by rw [htimer]; exact h.executing x, fun now x heq => absurd heq (hcall now x)⟩

/-- One timer changes its state, to one that agrees with the tick. -/
theorem move (hok : b'.Ok) (htimer : b'.timer = (b.setState x state).timer)
    (hexec : state.executing ↔ tick'.timer = some x)
    (hother : ∀ y ≠ x, (tick'.timer = some y ↔ tick.timer = some y))
    (hdue : ∀ now y, tick' = .call now y →
      tick = .call now y ∨ y = x ∧ (b.timer x).deadline ≤ now) :
    Ticking b' tick' where
  ok := hok
  executing y := by
    rw [htimer]
    by_cases hy : y = x
    · rwa [hy, Base.timer_setState_self]
    · rw [Base.timer_setState_of_ne _ _ hy, hother y hy]
      exact h.executing y
  due now y hcall := by
    rw [htimer, Base.deadline_setState]
    rcases hdue now y hcall with hcall | ⟨rfl, hdue⟩
    · exact h.due now y hcall
    · exact hdue

theorem timerStart (hstart : b.timerStart rb x deadline = .ok b') : Ticking b' tick := by
  obtain ⟨hidle, htimer, -⟩ := Base.timerStart_eq hstart
  have htick : tick.timer ≠ some x := h.timer_ne_of_state (by rw [hidle]; exact id)
  refine ⟨h.ok.timerStart hstart, fun y => ?_, fun now y hcall => ?_⟩
  · rw [htimer]
    by_cases hy : y = x
    · rw [hy, update_self]
      exact ⟨False.elim, fun heq => absurd heq htick⟩
    · rw [update_of_ne hy]
      exact h.executing y
  · have hy : y ≠ x := by
      rintro rfl
      exact htick (by rw [hcall]; rfl)
    rw [htimer, update_of_ne hy]
    exact h.due now y hcall

theorem timerCancel (hcancel : b.timerCancel rb x = (b', ret)) : Ticking b' tick := by
  have hok : b'.Ok := h.ok.timerCancel hcancel
  rcases Base.timerCancel_eq rb b x with ⟨hq, heq⟩ | ⟨hexec, heq⟩ | ⟨-, heq⟩ <;>
    obtain ⟨rfl, -⟩ := Prod.mk.inj (hcancel.symm.trans heq)
  · have htick : tick.timer ≠ some x := h.timer_ne_of_state (by rw [hq]; exact id)
    exact h.move hok rfl ⟨False.elim, fun heq => absurd heq htick⟩ (fun _ _ => .rfl)
      fun _ _ hcall => .inl hcall
  · exact h.move hok rfl ⟨fun _ => (h.executing x).mp hexec, fun _ => trivial⟩
      (fun _ _ => .rfl) fun _ _ hcall => .inl hcall
  · exact h

/-- The tick takes the least timer, and only if it has expired. -/
theorem takeExpired {now : ℕ} (htick : tick.timer = none)
    (htake : b.takeExpired rb now = some (x, b')) :
    Ticking b' (.call now x) ∧ b.Least x ∧ (b.timer x).deadline ≤ now ∧
      b' = (b.removeTimer rb x).setState x .running := by
  obtain ⟨hok, hleast, hdue, rfl⟩ := h.ok.takeExpired htake
  refine ⟨h.move hok rfl ⟨fun _ => rfl, fun _ => trivial⟩ ?_ ?_, hleast, hdue, rfl⟩
  · intro y hy
    rw [htick]
    exact ⟨fun heq => absurd (Option.some.inj heq).symm hy, nofun⟩
  · intro now' y hcall
    obtain ⟨rfl, rfl⟩ := Tick.call.inj hcall
    exact .inr ⟨rfl, hdue⟩

end

theorem endCall {now : ℕ} (h : Ticking b (.called now x)) :
    Ticking (b.setState x .idle) (.scan now) := by
  have hexec := (h.executing x).mpr rfl
  refine h.move (h.ok.setState hexec.ne.1 nofun) rfl ⟨False.elim, nofun⟩ ?_ nofun
  exact fun y hy => ⟨nofun, fun heq => absurd (Option.some.inj heq).symm hy⟩

end Ticking

end Nuvix.Timers
