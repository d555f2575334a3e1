import Mathlib

/-!
# Reference counts: `include/nuvix/refcount.h`

A count lies in `[0, REFCOUNT_MAX]`, so it is a natural number. With debugging
disabled an invalid operation leaves the count as it is.
-/

namespace Nuvix

variable {refs : ℕ}

/-- `REFCOUNT_MAX`, the largest 32-bit signed integer. -/
def refcountMax : ℕ := 2 ^ 31 - 1

/-- `refcount_inc`: nothing happens at zero or at the bound. -/
def refcountInc (refs : ℕ) : ℕ :=
  if refs = 0 ∨ refs = refcountMax then refs else refs + 1

/-- `refcount_dec_and_test`: the new count and whether it dropped to zero. -/
def refcountDecAndTest (refs : ℕ) : ℕ × Bool :=
  if refs = 0 then (refs, false) else if refs = 1 then (0, true) else (refs - 1, false)

@[simp] theorem refcountInc_zero : refcountInc 0 = 0 := rfl

theorem refcountInc_pos (h : 0 < refs) : 0 < refcountInc refs := by
  unfold refcountInc
  split_ifs <;> omega

theorem refcountDecAndTest_fst (refs : ℕ) : (refcountDecAndTest refs).1 = refs - 1 := by
  unfold refcountDecAndTest
  split_ifs <;> dsimp only <;> omega

theorem refcountDecAndTest_snd (refs : ℕ) : (refcountDecAndTest refs).2 = decide (refs = 1) := by
  unfold refcountDecAndTest
  split_ifs with hzero hone
  · simp [hzero]
  · simp [hone]
  · simp [hone]

theorem refcountInc_of_lt (hpos : 0 < refs) (hlt : refs < refcountMax) :
    refcountInc refs = refs + 1 := by
  rw [refcountInc, if_neg (by omega)]

theorem refcountDecAndTest_of_gt (h : 1 < refs) : refcountDecAndTest refs = (refs - 1, false) := by
  rw [refcountDecAndTest, if_neg (by omega), if_neg (by omega)]

end Nuvix
