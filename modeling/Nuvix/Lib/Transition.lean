import Mathlib

/-!
# Labelled transition systems

Runs, reachable states, and the induction rules every safety argument uses. A
system is a set of initial states and a labelled step relation; a label records
which party moved and what it did, so that a condition can be put on the steps
of a run as well as on its states.

## Main definitions

* `Run step s tr t` — the labels `tr`, taken in order from `s`, lead to `t`
* `Reachable init step s` — some run leads from an initial state to `s`
* `Guarded step ok` — the steps whose label is admitted in the state it leaves
* `exec f s tr` — the deterministic execution of a partial step function

## Main results

* `Reachable.invariant` — an inductive predicate holds of every reachable state
* `Run.history` — the same for a predicate of the trace and the state
-/

namespace Transition

variable {σ α : Type*}

/-- `Run step s tr t`: the labels `tr`, taken in order from `s`, lead to `t`. -/
inductive Run (step : σ → α → σ → Prop) : σ → List α → σ → Prop
  | nil (s : σ) : Run step s [] s
  | snoc {s t u : σ} {tr : List α} {a : α} :
      Run step s tr t → step t a u → Run step s (tr ++ [a]) u

/-- The states reached from an initial state by finitely many steps. -/
inductive Reachable (init : σ → Prop) (step : σ → α → σ → Prop) : σ → Prop
  | init {s : σ} : init s → Reachable init step s
  | step {s t : σ} {a : α} : Reachable init step s → step s a t → Reachable init step t

/-- The steps whose label `ok` admits in the state they leave. -/
def Guarded (step : σ → α → σ → Prop) (ok : σ → α → Prop) : σ → α → σ → Prop :=
  fun s a t => ok s a ∧ step s a t

/-- The step relation of a partial step function. -/
def Graph (f : σ → α → Option σ) : σ → α → σ → Prop :=
  fun s a t => f s a = some t

/-- Take the labels of `tr` in order; `none` as soon as one is not enabled. -/
def exec (f : σ → α → Option σ) : σ → List α → Option σ
  | s, [] => some s
  | s, a :: tr => (f s a).bind fun t => exec f t tr

/-! Runs on fixed inputs number their components by `Fin`. -/

instance neZero_one : NeZero 1 := ⟨one_ne_zero⟩

instance neZero_two : NeZero 2 := ⟨two_ne_zero⟩

instance neZero_three : NeZero 3 := ⟨three_ne_zero⟩

theorem ite_eq_some {p : Prop} [Decidable p] {a b : α} :
    (if p then some a else none) = some b ↔ p ∧ a = b := by
  rw [Option.ite_none_right_eq_some, Option.some_inj]

/-- What a component is after a step that replaces one of them. -/
theorem eq_of_update {ι : Type*} [DecidableEq ι] {s : ι → σ} {i j : ι} {x y : σ}
    (h : Function.update s i x j = y) : j = i ∧ x = y ∨ j ≠ i ∧ s j = y := by
  by_cases hj : j = i
  · exact .inl ⟨hj, by rwa [hj, Function.update_self] at h⟩
  · exact .inr ⟨hj, by rwa [Function.update_of_ne hj] at h⟩

variable {init : σ → Prop} {step : σ → α → σ → Prop} {f : σ → α → Option σ}

/-- An invariant that holds initially and is kept by every step holds of every
reachable state. -/
theorem Reachable.invariant {Inv : σ → Prop} (hinit : ∀ s, init s → Inv s)
    (hstep : ∀ s a t, Inv s → step s a t → Inv t) {s : σ} (h : Reachable init step s) :
    Inv s := by
  induction h with
  | init h => exact hinit _ h
  | step _ h ih => exact hstep _ _ _ ih h

/-- A predicate of the trace so far and the current state, kept by every step,
holds at the end of every run. -/
theorem Run.history {H : List α → σ → Prop} {s t : σ} {tr : List α} (hnil : H [] s)
    (hstep : ∀ tr t a u, H tr t → step t a u → H (tr ++ [a]) u) (h : Run step s tr t) :
    H tr t := by
  induction h with
  | nil => exact hnil
  | snoc _ h ih => exact hstep _ _ _ _ ih h

/-- A successful execution of a step function continues a run of any relation that has its
steps. -/
theorem Run.exec {s t u : σ} {tr tr' : List α}
    (hstep : ∀ a ∈ tr', ∀ s t, f s a = some t → step s a t) (h : Run step s tr t)
    (hexec : exec f t tr' = some u) : Run step s (tr ++ tr') u := by
  induction tr' generalizing t tr with
  | nil =>
    cases hexec
    rwa [List.append_nil]
  | cons a tr' ih =>
    obtain ⟨v, hv, hrest⟩ := Option.bind_eq_some_iff.mp hexec
    have hnext : Run step s (tr ++ [a]) v := h.snoc (hstep a (by simp) t v hv)
    rw [List.append_cons]
    exact ih (fun b hb => hstep b (by simp [hb])) hnext hrest

theorem exec_append (s : σ) (tr tr' : List α) :
    exec f s (tr ++ tr') = (exec f s tr).bind fun t => exec f t tr' := by
  induction tr generalizing s with
  | nil => rfl
  | cons a tr ih =>
    rw [List.cons_append, exec, exec, Option.bind_assoc]
    exact congrArg _ (funext ih)

/-- A successful execution of a step function ends in a reachable state. -/
theorem Reachable.exec {s t : σ} {tr : List α} (h : Reachable init (Graph f) s)
    (hexec : exec f s tr = some t) : Reachable init (Graph f) t := by
  induction tr generalizing s with
  | nil =>
    cases hexec
    exact h
  | cons a tr ih =>
    obtain ⟨u, hu, hrest⟩ := Option.bind_eq_some_iff.mp hexec
    exact ih (.step h hu) hrest

/-- An execution shows a reachable state in which something holds that can be computed. -/
theorem exists_of_exec {P Q : σ → Prop} [DecidablePred Q] {s : σ} (tr : List α) (hs : init s)
    (hall : ∀ t, Reachable init (Graph f) t → P t)
    (hexec : ((exec f s tr).map fun t => decide (Q t)) = some true) :
    ∃ t, Reachable init (Graph f) t ∧ P t ∧ Q t := by
  obtain ⟨t, ht, hok⟩ := Option.map_eq_some_iff.mp hexec
  have hreach : Reachable init (Graph f) t := Reachable.exec (.init hs) ht
  exact ⟨t, hreach, hall t hreach, of_decide_eq_true hok⟩

/-- `Reachable.exec` under a guard that admits every label of the execution. -/
theorem Reachable.exec_guarded {ok : σ → α → Prop} {s t : σ} {tr : List α}
    (hok : ∀ a ∈ tr, ∀ s, ok s a) (h : Reachable init (Guarded (Graph f) ok) s)
    (hexec : Transition.exec f s tr = some t) : Reachable init (Guarded (Graph f) ok) t := by
  induction tr generalizing s with
  | nil =>
    cases hexec
    exact h
  | cons a tr ih =>
    obtain ⟨u, hu, hrest⟩ := Option.bind_eq_some_iff.mp hexec
    exact ih (fun b hb => hok b (by simp [hb])) (.step h ⟨hok a (by simp) s, hu⟩) hrest

end Transition
