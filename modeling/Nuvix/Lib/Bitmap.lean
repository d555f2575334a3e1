import Mathlib

/-!
# Bitmaps and the search for a clear bit

A bitmap is read bit by bit, so it is modelled as the function from bit numbers
to bits.
-/

/-- A bitmap, read bit by bit. -/
abbrev Bitmap := ℕ → Bool

namespace Bitmap

variable {map : Bitmap} {nbits start : ℕ}

/-- The loop from `start` upwards with `fuel` bits left to look at. -/
def scanZero (map : Bitmap) (nbits : ℕ) : ℕ → ℕ → ℕ
  | 0, _ => nbits
  | fuel + 1, start => if map start then scanZero map nbits fuel (start + 1) else start

/-- The least clear bit in `[start, nbits)`, or `nbits` when there is none. -/
def findNextZero (map : Bitmap) (nbits start : ℕ) : ℕ :=
  scanZero map nbits (nbits - start) start

theorem scanZero_spec (map : Bitmap) (nbits fuel start : ℕ) :
    (∃ i, start ≤ i ∧ i < start + fuel ∧ map i = false ∧ scanZero map nbits fuel start = i ∧
      ∀ j, start ≤ j → j < i → map j = true) ∨
    ((∀ i, start ≤ i → i < start + fuel → map i = true) ∧
      scanZero map nbits fuel start = nbits) := by
  induction fuel generalizing start with
  | zero => exact .inr ⟨fun i h h' => by omega, rfl⟩
  | succ fuel ih =>
    by_cases hb : map start = true
    · have hscan : scanZero map nbits (fuel + 1) start = scanZero map nbits fuel (start + 1) := by
        simp [scanZero, hb]
      rw [hscan]
      rcases ih (start + 1) with ⟨i, hle, hlt, hclear, heq, hmin⟩ | ⟨hall, heq⟩
      · refine .inl ⟨i, by omega, by omega, hclear, heq, fun j hj hji => ?_⟩
        rcases Nat.eq_or_lt_of_le hj with rfl | hj
        · exact hb
        · exact hmin j hj hji
      · refine .inr ⟨fun i hi hlt => ?_, heq⟩
        rcases Nat.eq_or_lt_of_le hi with rfl | hi
        · exact hb
        · exact hall i hi (by omega)
    · refine .inl ⟨start, le_rfl, by omega, by simpa using hb, ?_, fun j hj hji => by omega⟩
      simp [scanZero, hb]

/-- The search either finds the first clear bit or reports `nbits`. -/
theorem findNextZero_spec (map : Bitmap) (nbits start : ℕ) :
    (∃ i, start ≤ i ∧ i < nbits ∧ map i = false ∧ findNextZero map nbits start = i ∧
      ∀ j, start ≤ j → j < i → map j = true) ∨
    ((∀ i, start ≤ i → i < nbits → map i = true) ∧ findNextZero map nbits start = nbits) := by
  rcases scanZero_spec map nbits (nbits - start) start with
    ⟨i, hle, hlt, hclear, heq, hmin⟩ | ⟨hall, heq⟩
  · exact .inl ⟨i, hle, by omega, hclear, heq, hmin⟩
  · exact .inr ⟨fun i hi hlt => hall i hi (by omega), heq⟩

theorem findNextZero_le : findNextZero map nbits start ≤ nbits := by
  rcases findNextZero_spec map nbits start with ⟨i, -, hlt, -, heq, -⟩ | ⟨-, heq⟩
  · omega
  · exact heq.le

theorem findNextZero_lt_iff :
    findNextZero map nbits start < nbits ↔ ∃ i, start ≤ i ∧ i < nbits ∧ map i = false := by
  rcases findNextZero_spec map nbits start with ⟨i, hle, hlt, hclear, heq, -⟩ | ⟨hall, heq⟩
  · exact ⟨fun _ => ⟨i, hle, hlt, hclear⟩, fun _ => heq ▸ hlt⟩
  · constructor
    · intro h
      omega
    · rintro ⟨i, hle, hlt, hclear⟩
      rw [hall i hle hlt] at hclear
      cases hclear

theorem findNextZero_clear (h : findNextZero map nbits start < nbits) :
    map (findNextZero map nbits start) = false := by
  rcases findNextZero_spec map nbits start with ⟨i, -, -, hclear, heq, -⟩ | ⟨-, heq⟩
  · rwa [heq]
  · omega

theorem le_findNextZero (h : findNextZero map nbits start < nbits) :
    start ≤ findNextZero map nbits start := by
  rcases findNextZero_spec map nbits start with ⟨i, hle, -, -, heq, -⟩ | ⟨-, heq⟩
  · omega
  · omega

end Bitmap
