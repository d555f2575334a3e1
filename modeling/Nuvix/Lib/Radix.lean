import Mathlib

/-!
# Digits of a fixed length

A number below `b ^ k` has `k` digits in base `b`, the most significant first. A sequence of
digits also leads to an interval: each digit takes one of `b` equal parts of the interval before
it. The two readings agree: the numbers whose digits begin with a sequence are those in its
interval.

## Main definitions

* `digits b k n` — the `k` digits of `n`
* `part b r i` — part `i` of the interval `r`, which is given by its first number and its length

## Main results

* `digits_lt_digits` — the order of the numbers is the lexicographic order of their digits
* `exists_digits` — every sequence of digits belongs to a number
* `prefix_digits_iff` — the interval a sequence of digits leads to
-/

namespace Radix

/-- The `k` digits of `n` in base `b`, the most significant first. -/
def digits (b : ℕ) : ℕ → ℕ → List ℕ
  | 0, _ => []
  | k + 1, n => n / b ^ k :: digits b k (n % b ^ k)

/-- Part `i` of an interval that is cut into `b` equal parts. -/
def part (b : ℕ) (r : ℕ × ℕ) (i : ℕ) : ℕ × ℕ := (r.1 + i * (r.2 / b), r.2 / b)

variable {b k n m i a : ℕ} {ds : List ℕ}

@[simp] theorem length_digits : (digits b k n).length = k := by
  induction k generalizing n with
  | zero => rfl
  | succ k ih => rw [digits, List.length_cons, ih]

variable (hb : 0 < b)
include hb

theorem part_pow : part b (a, b ^ (k + 1)) i = (a + i * b ^ k, b ^ k) := by
  rw [part, pow_succ, Nat.mul_div_cancel _ hb]

theorem digits_lt (hn : n < b ^ k) : ∀ d ∈ digits b k n, d < b := by
  induction k generalizing n with
  | zero => exact nofun
  | succ k ih =>
    intro d hd
    rcases List.mem_cons.mp hd with rfl | hd
    · exact Nat.div_lt_of_lt_mul (by rwa [← pow_succ])
    · exact ih (Nat.mod_lt _ (Nat.pow_pos hb)) d hd

theorem digits_lt_digits (hlt : n < m) (hm : m < b ^ k) : digits b k n < digits b k m := by
  induction k generalizing n m with
  | zero =>
    rw [pow_zero] at hm
    omega
  | succ k ih =>
    rw [digits, digits, List.cons_lt_cons_iff]
    rcases (Nat.div_le_div_right hlt.le : n / b ^ k ≤ m / b ^ k).lt_or_eq with hdiv | hdiv
    · exact .inl hdiv
    · refine .inr ⟨hdiv, ih ?_ (Nat.mod_lt _ (Nat.pow_pos hb))⟩
      have hn := Nat.div_add_mod n (b ^ k)
      have hm := Nat.div_add_mod m (b ^ k)
      rw [hdiv] at hn
      omega

theorem exists_digits (hds : ∀ d ∈ ds, d < b) : ∃ n < b ^ ds.length, digits b ds.length n = ds := by
  induction ds with
  | nil => exact ⟨0, Nat.one_pos, rfl⟩
  | cons d ds ih =>
    obtain ⟨hd, hds⟩ := List.forall_mem_cons.mp hds
    obtain ⟨n, hn, hdigits⟩ := ih hds
    have hpos : 0 < b ^ ds.length := Nat.pow_pos hb
    refine ⟨n + b ^ ds.length * d, ?_, ?_⟩
    · have hle : b ^ ds.length * (d + 1) ≤ b ^ ds.length * b := Nat.mul_le_mul_left _ hd
      rw [List.length_cons, pow_succ]
      rw [Nat.mul_add, Nat.mul_one] at hle
      omega
    · rw [List.length_cons, digits, Nat.add_mul_div_left _ _ hpos, Nat.div_eq_of_lt hn,
        Nat.add_mul_mod_self_left, Nat.mod_eq_of_lt hn, Nat.zero_add, hdigits]

/-- The interval a sequence of digits leads to is a part of the whole. -/
theorem foldl_part_le (hds : ∀ d ∈ ds, d < b) (hlen : ds.length ≤ k) :
    a ≤ (ds.foldl (part b) (a, b ^ k)).1 ∧
      (ds.foldl (part b) (a, b ^ k)).1 + (ds.foldl (part b) (a, b ^ k)).2 ≤
        a + b ^ k := by
  induction ds generalizing k a with
  | nil => exact ⟨le_rfl, le_rfl⟩
  | cons d ds ih =>
    obtain ⟨k, rfl⟩ := Nat.exists_eq_succ_of_ne_zero (Nat.ne_zero_of_lt hlen)
    obtain ⟨hd, hds⟩ := List.forall_mem_cons.mp hds
    obtain ⟨hlow, hhigh⟩ := ih (a := a + d * b ^ k) hds (Nat.le_of_succ_le_succ hlen)
    have hle : (d + 1) * b ^ k ≤ b * b ^ k := Nat.mul_le_mul_right _ hd
    rw [Nat.add_mul, Nat.one_mul] at hle
    rw [List.foldl_cons, part_pow hb, Nat.pow_succ']
    omega

/-- The numbers whose digits begin with a sequence are those in the interval it leads to. -/
theorem prefix_digits_iff (hds : ∀ d ∈ ds, d < b) (hlen : ds.length ≤ k) (hn : n < b ^ k) :
    ds <+: digits b k n ↔ (ds.foldl (part b) (a, b ^ k)).1 ≤ a + n ∧
      a + n < (ds.foldl (part b) (a, b ^ k)).1 + (ds.foldl (part b) (a, b ^ k)).2 := by
  induction ds generalizing k n a with
  | nil => simpa using hn
  | cons d ds ih =>
    obtain ⟨k, rfl⟩ := Nat.exists_eq_succ_of_ne_zero (Nat.ne_zero_of_lt hlen)
    obtain ⟨hd, hds⟩ := List.forall_mem_cons.mp hds
    have hlen := Nat.le_of_succ_le_succ hlen
    have hpos : 0 < b ^ k := Nat.pow_pos hb
    have hsplit := Nat.div_add_mod' n (b ^ k)
    rw [digits, List.cons_prefix_cons, List.foldl_cons, part_pow hb]
    by_cases heq : d = n / b ^ k
    · have hsum : a + n = a + d * b ^ k + n % b ^ k := by rw [heq]; omega
      rw [hsum, ← ih hds hlen (Nat.mod_lt n hpos), and_iff_right heq]
    · -- `n` lies in another of the `b` parts
      refine iff_of_false (fun h => heq h.1) fun ⟨hlow, hhigh⟩ => heq ?_
      obtain ⟨hsub, hsub'⟩ := foldl_part_le hb (a := a + d * b ^ k) hds hlen
      exact (Nat.div_eq_of_lt_le (by omega) (by rw [Nat.add_mul]; omega)).symm

end Radix
