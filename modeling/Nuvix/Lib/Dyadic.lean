import Mathlib

/-!
# Dyadic blocks

An aligned block of order `k` is an interval `[p, p + 2 ^ k)` whose start is a
multiple of its length. Every such block has one partner of its own order, found
by flipping bit `k` of the start, with which it forms an aligned block of order
`k + 1`.
-/

namespace Dyadic

variable {p q k j x : ℕ}

/-- The interval of length `2 ^ k` from `p`. -/
def block (p k : ℕ) : Set ℕ := Set.Ico p (p + 2 ^ k)

/-- The start of the partner block: bit `k` flipped. -/
def buddy (p k : ℕ) : ℕ := p ^^^ (1 <<< k)

@[simp] theorem mem_block : x ∈ block p k ↔ p ≤ x ∧ x < p + 2 ^ k := .rfl

theorem self_mem_block : p ∈ block p k :=
  ⟨le_rfl, Nat.lt_add_of_pos_right (Nat.two_pow_pos k)⟩

theorem mask_eq_zero_iff : p &&& (1 <<< k - 1) = 0 ↔ 2 ^ k ∣ p := by
  rw [Nat.one_shiftLeft, Nat.and_two_pow_sub_one_eq_mod, Nat.dvd_iff_mod_eq_zero]

/-- Partnership is symmetric. -/
@[simp] theorem buddy_buddy : buddy (buddy p k) k = p := by
  rw [buddy, buddy, Nat.xor_xor_cancel_right]

private theorem buddy_mul (q k : ℕ) : buddy (2 ^ k * q) k = 2 ^ k * (q ^^^ 1) := by
  have hshift : ∀ n, 2 ^ k * n = n <<< k := fun n => by rw [Nat.shiftLeft_eq, Nat.mul_comm]
  rw [buddy, hshift, hshift, Nat.shiftLeft_xor_distrib]

/-- The partner of an aligned block is its right neighbour when the block is
also aligned for the next order, and its left neighbour otherwise. -/
theorem buddy_cases (h : 2 ^ k ∣ p) : (2 ^ (k + 1) ∣ p ∧ buddy p k = p + 2 ^ k) ∨
      (¬ 2 ^ (k + 1) ∣ p ∧ buddy p k + 2 ^ k = p ∧ 2 ^ (k + 1) ∣ buddy p k) := by
  obtain ⟨q, rfl⟩ := h
  have hdvd : ∀ n, 2 ^ (k + 1) ∣ 2 ^ k * n ↔ Even n := fun n => by
    rw [pow_succ, Nat.mul_dvd_mul_iff_left (Nat.two_pow_pos k), even_iff_two_dvd]
  rw [buddy_mul, hdvd, hdvd]
  rcases Nat.even_or_odd q with hq | hq
  · left
    rw [Nat.xor_one_of_even hq]
    exact ⟨hq, by ring⟩
  · right
    obtain ⟨n, rfl⟩ := hq
    rw [Nat.xor_one_of_odd ⟨n, rfl⟩, Nat.add_sub_cancel]
    exact ⟨by simp, by ring, by simp⟩

theorem dvd_min_buddy (h : 2 ^ k ∣ p) : 2 ^ (k + 1) ∣ min p (buddy p k) := by
  rcases buddy_cases h with ⟨hp, hb⟩ | ⟨-, hb, hdvd⟩
  · rwa [min_eq_left (by omega)]
  · rwa [min_eq_right (by omega)]

/-- A block and its partner make up the block of the next order. -/
theorem block_union_buddy (h : 2 ^ k ∣ p) :
    block p k ∪ block (buddy p k) k = block (min p (buddy p k)) (k + 1) := by
  have hpow : 2 ^ (k + 1) = 2 ^ k + 2 ^ k := by ring
  ext x
  rcases buddy_cases h with ⟨-, hb⟩ | ⟨-, hb, -⟩
  · rw [min_eq_left (by omega)]
    simp only [Set.mem_union, mem_block]
    omega
  · rw [min_eq_right (by omega)]
    simp only [Set.mem_union, mem_block]
    omega

/-- Removing the right half of a block leaves the left half. -/
theorem block_succ_diff_right : block p (k + 1) \ block (p + 2 ^ k) k = block p k := by
  have hpow : 2 ^ (k + 1) = 2 ^ k + 2 ^ k := by ring
  ext x
  simp only [Set.mem_sdiff, mem_block]
  omega

/-- The partner of the right half is the left half. -/
theorem buddy_right_half (h : 2 ^ (k + 1) ∣ p) : buddy (p + 2 ^ k) k = p := by
  have hk : 2 ^ k ∣ p := (pow_dvd_pow 2 k.le_succ).trans h
  rcases buddy_cases (Nat.dvd_add hk (dvd_refl _)) with ⟨hdvd, -⟩ | ⟨-, hb, -⟩
  · -- the right half of an aligned block is not aligned for the next order
    have hpow : 2 ^ (k + 1) ∣ 2 ^ k := (Nat.dvd_add_right h).mp hdvd
    exact absurd (Nat.le_of_dvd (Nat.two_pow_pos k) hpow)
      (by rw [pow_succ]; have := Nat.two_pow_pos k; omega)
  · omega

end Dyadic
