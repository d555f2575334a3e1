import Mathlib

/-!
# Byte-addressed memory

Little-endian loads and stores of a given number of bytes, and what a store leaves alone; bits of
a bitmap that starts at an address.
-/

namespace Bytes

open Function

/-- A memory of bytes. -/
abbrev Store := ℕ → BitVec 8

/-- The number in the `n` bytes from `a` on. -/
def load (mem : Store) : ℕ → ℕ → ℕ
  | _, 0 => 0
  | a, n + 1 => (mem a).toNat + 256 * load mem (a + 1) n

/-- Write a number to the `n` bytes from `a` on. -/
def store (mem : Store) : ℕ → ℕ → ℕ → Store
  | _, 0, _ => mem
  | a, n + 1, v => update (store mem (a + 1) n (v / 256)) a (BitVec.ofNat 8 v)

/-- Write one byte to the `n` bytes from `a` on. -/
def fill (mem : Store) (a n : ℕ) (b : BitVec 8) : Store :=
  fun x => if a ≤ x ∧ x < a + n then b else mem x

variable {mem mem' : Store} {a i n v x : ℕ}

/-- A load reads only its own bytes. -/
theorem load_congr (h : ∀ x, a ≤ x → x < a + n → mem' x = mem x) :
    load mem' a n = load mem a n := by
  induction n generalizing a with
  | zero => rfl
  | succ n ih =>
    have hrest : load mem' (a + 1) n = load mem (a + 1) n :=
      ih fun x hle hlt => h x (by omega) (by omega)
    rw [load, load, h a le_rfl (by omega), hrest]

/-- A store writes only its own bytes. -/
theorem store_of_not_mem (h : x < a ∨ a + n ≤ x) : store mem a n v x = mem x := by
  induction n generalizing a v with
  | zero => rfl
  | succ n ih =>
    rw [store, update_of_ne (by omega)]
    exact ih (by omega)

/-- A load gives back what was stored. -/
theorem load_store (hv : v < 256 ^ n) : load (store mem a n v) a n = v := by
  induction n generalizing a v with
  | zero =>
    rw [pow_zero] at hv
    rw [load]
    omega
  | succ n ih =>
    have hdiv : v / 256 < 256 ^ n := by
      rw [pow_succ] at hv
      exact Nat.div_lt_of_lt_mul (by rwa [mul_comm])
    -- The first byte is not among the bytes of the rest.
    have hrest : load (store mem a (n + 1) v) (a + 1) n =
        load (store mem (a + 1) n (v / 256)) (a + 1) n :=
      load_congr fun x hle _ => update_of_ne (by omega) _ _
    rw [load, hrest, ih hdiv, store, update_self, BitVec.toNat_ofNat]
    omega

theorem load_lt : load mem a n < 256 ^ n := by
  induction n generalizing a with
  | zero => exact one_pos
  | succ n ih =>
    have hbyte := (mem a).isLt
    have hrest := ih (a := a + 1)
    rw [load, pow_succ]
    omega

/-- A load tells its bytes. -/
theorem load_inj (h : load mem' a n = load mem a n) (hle : a ≤ x) (hlt : x < a + n) :
    mem' x = mem x := by
  induction n generalizing a with
  | zero => omega
  | succ n ih =>
    have hbyte := (mem a).isLt
    have hbyte' := (mem' a).isLt
    rw [load, load] at h
    rcases Nat.eq_or_lt_of_le hle with rfl | hlt'
    · exact BitVec.eq_of_toNat_eq (by omega)
    · exact ih (a := a + 1) (by omega) hlt' (by omega)

/-! ### Bitmaps -/

/-- Bit `i` of the bitmap at `a`. -/
def testBit (mem : Store) (a i : ℕ) : Bool := (mem (a + i / 8)).getLsbD (i % 8)

/-- Set bit `i` of the bitmap at `a`. -/
def setBit (mem : Store) (a i : ℕ) : Store :=
  update mem (a + i / 8) (mem (a + i / 8) ||| BitVec.twoPow 8 (i % 8))

/-- Clear bit `i` of the bitmap at `a`. -/
def clearBit (mem : Store) (a i : ℕ) : Store :=
  update mem (a + i / 8) (mem (a + i / 8) &&& ~~~BitVec.twoPow 8 (i % 8))

variable {j : ℕ}

theorem setBit_of_ne (h : x ≠ a + i / 8) : setBit mem a i x = mem x := update_of_ne h _ _

/-- The mask of a bit, read at another bit of the same byte. -/
theorem getLsbD_mask (hbyte : a + j / 8 = a + i / 8) :
    (BitVec.twoPow 8 (i % 8)).getLsbD (j % 8) = decide (j = i) := by
  have hmod : i % 8 < 8 := Nat.mod_lt i (by norm_num)
  rw [BitVec.getLsbD_twoPow, decide_eq_true hmod, Bool.true_and, decide_eq_decide]
  omega

theorem testBit_setBit : testBit (setBit mem a i) a j = (decide (j = i) || testBit mem a j) := by
  unfold testBit
  by_cases hbyte : a + j / 8 = a + i / 8
  · rw [setBit, hbyte, update_self, BitVec.getLsbD_or, getLsbD_mask hbyte, Bool.or_comm]
  · have hne : j ≠ i := fun h => hbyte (h ▸ rfl)
    rw [setBit_of_ne hbyte, decide_eq_false hne, Bool.false_or]

/-- A bit depends on its byte only. -/
theorem testBit_congr (h : mem' (a + i / 8) = mem (a + i / 8)) :
    testBit mem' a i = testBit mem a i := by
  rw [testBit, h]
  rfl

end Bytes
