import Mathlib

/-!
# Computations that fail or stop

A call returns a value or an error, or stops the machine because an assertion has
failed.
-/

/-- What a call comes to. -/
inductive Outcome (ε α : Type*)
  | ok (a : α)
  | err (e : ε)
  | stop
  deriving DecidableEq, Repr

/-- In a sequence that succeeds both parts have succeeded. -/
theorem exists_of_bind_eq_ok.{u, v} {ε : Type u} {α β : Type v} {x : Except ε α}
    {f : α → Except ε β} {b : β}
    (h : (x >>= f) = .ok b) : ∃ a, x = .ok a ∧ f a = .ok b := by
  cases x with
  | error e => cases h
  | ok a => exact ⟨a, rfl, h⟩

/-- In a fold that succeeds every turn has succeeded. -/
theorem exists_turn_of_foldlM_eq_ok {ε σ α : Type*} {f : σ → α → Except ε σ} {s t : σ}
    {xs : List α} {x : α} (h : xs.foldlM f s = .ok t) (hx : x ∈ xs) : ∃ s s', f s x = .ok s' := by
  induction xs generalizing s with
  | nil => cases hx
  | cons y ys ih =>
    rw [List.foldlM_cons] at h
    cases hy : f s y with
    | error e =>
      rw [hy] at h
      cases h
    | ok s' =>
      rw [hy] at h
      rcases List.mem_cons.mp hx with rfl | hx
      · exact ⟨s, s', hy⟩
      · exact ih h hx
