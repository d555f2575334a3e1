import Mathlib

/-!
# Ring buffers with wrapping counters

A ring of `cap` slots is addressed by two counters that only grow and are kept modulo
`M`, a multiple of `cap`. What a ring holds is said with the list of everything that was
ever pushed: slot `p % cap` holds element `p` of that list for every `p` between the
number of elements popped and the number pushed. Slots outside that window keep stale
values.

## Main definitions

* `sub M a b`, `pred M a` — the difference of two counters, and the counter before one
* `store buf off xs` — `xs` written into the slots from `off` on
* `Holds cap M buf head tail pushed popped` — the ring is in step with its history

## Main results

* `Holds.sub_eq` — the counters give the number of elements held
* `Holds.store`, `Holds.push` — filling free slots, and making them visible
* `Holds.read`, `Holds.pop` — what the slots at the tail hold, and giving them up
* `Holds.push_one`, `Holds.peek` — the same for one element
* `Holds.unpush` — taking back the last element
* `Holds.contents` — everything between the counters
-/

namespace RingBuffer

open Function

variable {α : Type*}

/-- The difference of two counters below `M`, modulo `M`. -/
def sub (M a b : ℕ) : ℕ := if b ≤ a then a - b else M - (b - a)

/-- The counter before `a`. -/
def pred (M a : ℕ) : ℕ := if a = 0 then M - 1 else a - 1

/-- The buffer after `xs` is written into the slots from `off` on. -/
def store (buf : ℕ → α) (off : ℕ) (xs : List α) : ℕ → α := fun i =>
  if off ≤ i then (xs[i - off]?).getD (buf i) else buf i

/-- The `n` slots from `off` on. -/
def load (buf : ℕ → α) (off n : ℕ) : List α := (List.range n).map fun i => buf (off + i)

theorem store_of_lt (buf : ℕ → α) {off i : ℕ} (xs : List α) (h : i < off) :
    store buf off xs i = buf i :=
  if_neg (by omega)

theorem store_of_ge (buf : ℕ → α) {off i : ℕ} (xs : List α) (h : off + xs.length ≤ i) :
    store buf off xs i = buf i := by
  have hnone : xs[i - off]? = none := List.getElem?_eq_none (by omega)
  rw [store, if_pos (by omega), hnone, Option.getD_none]

theorem load_store (buf : ℕ → α) (off : ℕ) (xs ys : List α) :
    load (store buf off (xs ++ ys)) off xs.length = xs := by
  apply List.ext_getElem
  · simp [load]
  · intro i hi hi'
    have hget : (xs ++ ys)[i]? = some xs[i] := by
      rw [List.getElem?_append_left hi', List.getElem?_eq_getElem hi']
    simp [load, store, hget]

/-- The difference of two wrapped counters is the number of steps between them. -/
theorem sub_mod_mod {M H T : ℕ} (hle : T ≤ H) (hlt : H - T < M) :
    sub M (H % M) (T % M) = H - T := by
  obtain ⟨d, rfl⟩ := Nat.exists_eq_add_of_le hle
  have hd : d < M := by omega
  have ht : T % M < M := Nat.mod_lt _ (by omega)
  rw [sub, Nat.add_mod, Nat.mod_eq_of_lt hd, Nat.add_sub_cancel_left]
  -- The sum of the two remainders wraps at most once.
  rcases lt_or_ge (T % M + d) M with h | h
  · rw [Nat.mod_eq_of_lt h, if_pos (by omega), Nat.add_sub_cancel_left]
  · rw [Nat.mod_eq_sub_mod h, Nat.mod_eq_of_lt (a := T % M + d - M) (by omega),
      if_neg (by omega)]
    omega

/-- The ring is in step with its history: `pushed` is everything that was pushed, and
the first `popped` elements of it have been given up. -/
structure Holds (cap M : ℕ) (buf : ℕ → α) (head tail : ℕ) (pushed : List α) (popped : ℕ) :
    Prop where
  head : head = pushed.length % M
  tail : tail = popped % M
  le : popped ≤ pushed.length
  fits : pushed.length ≤ popped + cap
  slot : ∀ p (h : p < pushed.length), popped ≤ p → buf (p % cap) = pushed[p]

variable {cap M : ℕ} {buf : ℕ → α} {head tail popped : ℕ} {pushed : List α} {n : ℕ} {xs : List α}

theorem Holds.empty : Holds cap M buf 0 0 [] 0 where
  head := rfl
  tail := rfl
  le := Nat.le_refl _
  fits := Nat.zero_le _
  slot := nofun

namespace Holds

section

variable (h : Holds cap M buf head tail pushed popped)
include h

theorem sub_eq (hM : cap < M) : sub M head tail = pushed.length - popped := by
  have hle := h.le
  have hfits := h.fits
  rw [h.head, h.tail]
  exact sub_mod_mod hle (by omega)

theorem sub_le (hM : cap < M) : sub M head tail ≤ cap := by
  have hfits := h.fits
  rw [h.sub_eq hM]
  omega

theorem head_eq_tail_iff (hM : cap < M) : head = tail ↔ pushed.length = popped := by
  have hle := h.le
  have hsub := h.sub_eq hM
  constructor
  · intro heq
    rw [heq, sub, if_pos le_rfl, Nat.sub_self] at hsub
    omega
  · intro heq
    rw [h.head, h.tail, heq]

theorem head_mod (hdvd : cap ∣ M) : head % cap = pushed.length % cap := by
  rw [h.head, Nat.mod_mod_of_dvd _ hdvd]

theorem tail_mod (hdvd : cap ∣ M) : tail % cap = popped % cap := by
  rw [h.tail, Nat.mod_mod_of_dvd _ hdvd]

omit h in
/-- Two positions less than a capacity apart lie in different slots. -/
theorem mod_ne {p q : ℕ} (hlt : p < q) (hnear : q < p + cap) : p % cap ≠ q % cap := by
  intro heq
  have hdvd : cap ∣ q - p := (Nat.modEq_iff_dvd' hlt.le).mp heq
  have := Nat.le_of_dvd (by omega) hdvd
  omega

/-- Writing into free slots at the head, up to the end of the buffer, is not seen. -/
theorem store (hdvd : cap ∣ M) (hfree : pushed.length + xs.length ≤ popped + cap)
    (hend : head % cap + xs.length ≤ cap) :
    Holds cap M (RingBuffer.store buf (head % cap) xs) head tail pushed popped := by
  refine ⟨h.head, h.tail, h.le, h.fits, fun p hp hpop => ?_⟩
  rw [← h.slot p hp hpop]
  rcases lt_or_ge (p % cap) (head % cap) with hlt | hge
  · exact store_of_lt _ _ hlt
  rcases lt_or_ge (p % cap) (head % cap + xs.length) with hin | hout
  · -- The slot would hold both `p` and an element less than a capacity after it.
    exfalso
    obtain ⟨i, hi⟩ := Nat.exists_eq_add_of_le hge
    have hslot : (pushed.length + i) % cap = p % cap := by
      rw [hi, h.head_mod hdvd, Nat.add_mod, Nat.mod_eq_of_lt (a := i) (by omega),
        ← h.head_mod hdvd, Nat.mod_eq_of_lt (by omega)]
    exact mod_ne (p := p) (q := pushed.length + i) (by omega) (by omega) hslot.symm
  · exact store_of_ge _ _ hout

/-- Advancing the head over slots that hold `xs` pushes `xs`. -/
theorem push (hdvd : cap ∣ M) (hfree : pushed.length + xs.length ≤ popped + cap)
    (hend : head % cap + xs.length ≤ cap) (hload : load buf (head % cap) xs.length = xs) :
    Holds cap M buf ((head + xs.length) % M) tail (pushed ++ xs) popped := by
  have hle := h.le
  refine ⟨?_, h.tail, by simp; omega, by simpa using hfree, fun p hp hpop => ?_⟩
  · rw [h.head, Nat.mod_add_mod, List.length_append]
  · rw [List.length_append] at hp
    rcases lt_or_ge p pushed.length with hlt | hge
    · rw [List.getElem_append_left hlt]
      exact h.slot p hlt hpop
    · obtain ⟨i, rfl⟩ := Nat.exists_eq_add_of_le hge
      have hi : i < xs.length := by omega
      have hslot : (pushed.length + i) % cap = head % cap + i := by
        rw [h.head_mod hdvd, Nat.add_mod, Nat.mod_eq_of_lt (a := i) (by omega),
          ← h.head_mod hdvd, Nat.mod_eq_of_lt (by omega)]
      have hget : (load buf (head % cap) xs.length)[i]? = xs[i]? := by rw [hload]
      rw [List.getElem_append_right hge, hslot]
      simpa [load, hi] using hget

/-- The slots at the tail hold the next elements. -/
theorem read (hdvd : cap ∣ M) (hn : popped + n ≤ pushed.length) (hend : tail % cap + n ≤ cap) :
    load buf (tail % cap) n = (pushed.drop popped).take n := by
  apply List.ext_getElem
  · simp [load]
    omega
  · intro i hi hi'
    have hin : i < n := by simpa [load] using hi
    have hslot : (popped + i) % cap = tail % cap + i := by
      rw [h.tail_mod hdvd, Nat.add_mod, Nat.mod_eq_of_lt (a := i) (by omega),
        ← h.tail_mod hdvd, Nat.mod_eq_of_lt (by omega)]
    have hget := h.slot (popped + i) (by omega) (by omega)
    rw [hslot] at hget
    simpa [load] using hget

/-- Advancing the tail gives up the elements it passes. -/
theorem pop (hn : popped + n ≤ pushed.length) :
    Holds cap M buf head ((tail + n) % M) pushed (popped + n) where
  head := h.head
  tail := by rw [h.tail, Nat.mod_add_mod]
  le := hn
  fits := by have := h.fits; omega
  slot := fun p hp hpop => h.slot p hp (by omega)

/-- One element is written at the head and pushed. -/
theorem push_one (hdvd : cap ∣ M) (hfree : pushed.length < popped + cap) (x : α) :
    Holds cap M (update buf (head % cap) x) ((head + 1) % M) tail (pushed ++ [x]) popped := by
  have hle := h.le
  have hroom : pushed.length + [x].length ≤ popped + cap := hfree
  have hend : head % cap + [x].length ≤ cap := Nat.mod_lt _ (by omega)
  have hstore : RingBuffer.store buf (head % cap) [x] = update buf (head % cap) x := by
    funext i
    rcases lt_trichotomy i (head % cap) with hi | rfl | hi
    · rw [store_of_lt _ _ hi, update_of_ne hi.ne]
    · simp [RingBuffer.store]
    · rw [store_of_ge _ _ hi, update_of_ne hi.ne']
  have hstored := h.store hdvd hroom hend
  rw [hstore] at hstored
  exact hstored.push hdvd hroom hend (by simp [load])

omit h in
theorem pred_succ_mod (hM : 0 < M) : pred M ((n + 1) % M) = n % M := by
  have hlt := Nat.mod_lt n hM
  have hsum : (n + 1) % M = (n % M + 1) % M := (Nat.mod_add_mod n M 1).symm
  unfold pred
  rcases Nat.lt_or_ge (n % M + 1) M with h | h
  · rw [hsum, Nat.mod_eq_of_lt h, if_neg (Nat.succ_ne_zero _), Nat.add_sub_cancel]
  · have heq : n % M + 1 = M := by omega
    rw [hsum, heq, Nat.mod_self, if_pos rfl]
    omega

omit h in
/-- The element that was pushed last is taken back. -/
theorem unpush {x : α} (h : Holds cap M buf head tail (pushed ++ [x]) popped) (hM : 0 < M)
    (hle : popped ≤ pushed.length) : Holds cap M buf (pred M head) tail pushed popped := by
  have hlength : (pushed ++ [x]).length = pushed.length + 1 := List.length_append
  have hfits := h.fits
  refine ⟨?_, h.tail, hle, by omega, fun p hp hpop => ?_⟩
  · rw [h.head, hlength, pred_succ_mod hM]
  · rw [h.slot p (by omega) hpop, List.getElem_append_left hp]

/-- The slot at the tail holds the next element. -/
theorem peek (hdvd : cap ∣ M) (hlt : popped < pushed.length) :
    buf (tail % cap) = pushed[popped] := by
  rw [h.tail_mod hdvd]
  exact h.slot popped hlt le_rfl

/-- The slots between the counters hold what has not been given up. -/
theorem contents (hdvd : cap ∣ M) (hM : cap < M) :
    (List.range (sub M head tail)).map (fun i => buf ((tail + i) % cap)) = pushed.drop popped := by
  rw [h.sub_eq hM]
  apply List.ext_getElem
  · simp
  · intro i hi hi'
    have hslot : (tail + i) % cap = (popped + i) % cap := by
      rw [Nat.add_mod, h.tail_mod hdvd, ← Nat.add_mod]
    rw [List.length_drop] at hi'
    simpa [hslot] using h.slot (popped + i) (by omega) (by omega)

end

end Holds

end RingBuffer
