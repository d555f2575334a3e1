import Mathlib

/-!
# Sums over a family of which one member changes
-/

namespace SumUpdate

open Function

/-- The new sum and the old contribution are the old sum and the new contribution. -/
theorem sum_add_of_ne {ι M : Type*} [Fintype ι] [DecidableEq ι] [AddCommMonoid M] {f g : ι → M}
    (i : ι) (h : ∀ j ≠ i, g j = f j) : ∑ j, g j + f i = ∑ j, f j + g i := by
  have hrest : ∑ j ∈ Finset.univ.erase i, g j = ∑ j ∈ Finset.univ.erase i, f j :=
    Finset.sum_congr rfl fun j hj => h j (Finset.ne_of_mem_erase hj)
  rw [← Finset.add_sum_erase Finset.univ g (Finset.mem_univ i),
    ← Finset.add_sum_erase Finset.univ f (Finset.mem_univ i), hrest]
  rw [add_comm (g i), add_assoc, add_comm (g i), ← add_assoc, add_comm (f i)]

/-- One member of the family is replaced. -/
theorem sum_update_add {ι α M : Type*} [Fintype ι] [DecidableEq ι] [AddCommMonoid M] (g : α → M)
    (f : ι → α) (i : ι) (a : α) : ∑ j, g (update f i a j) + g (f i) = ∑ j, g (f j) + g a := by
  have hsum := sum_add_of_ne (f := fun j => g (f j)) (g := fun j => g (update f i a j)) i
    fun j hj => by rw [update_of_ne hj]
  rwa [update_self] at hsum

end SumUpdate
