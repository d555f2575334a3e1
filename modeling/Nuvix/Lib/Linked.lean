import Mathlib

/-!
# Singly linked lists in a store

A list lives in a store as a first element and a function that gives the successor of each
element. What comes after the last element is said with a predicate: it is a terminator, or
anything, or the start of another list.
-/

namespace LinkedList

variable {α : Type*} {stop stop' : α → Prop} {next next' : α → α} {a b : α} {l m : List α}

/-- From `a` on, the elements of `l` follow each other, and then comes what `stop` admits. -/
def Linked (stop : α → Prop) (next : α → α) : α → List α → Prop
  | a, [] => stop a
  | a, x :: l => a = x ∧ Linked stop next (next x) l

namespace Linked

theorem mono (hstop : ∀ b, stop b → stop' b) (h : Linked stop next a l) :
    Linked stop' next a l := by
  induction l generalizing a with
  | nil => exact hstop a h
  | cons x l ih => exact ⟨h.1, ih h.2⟩

theorem congr (hnext : ∀ x ∈ l, next' x = next x) (h : Linked stop next a l) :
    Linked stop next' a l := by
  induction l generalizing a with
  | nil => exact h
  | cons x l ih =>
    refine ⟨h.1, ih (fun y hy => hnext y (List.mem_cons_of_mem _ hy)) ?_⟩
    rw [hnext x List.mem_cons_self]
    exact h.2

/-- A list that ends where another one starts. -/
theorem append (hl : Linked (· = b) next a l) (hm : Linked stop next b m) :
    Linked stop next a (l ++ m) := by
  induction l generalizing a with
  | nil =>
    obtain rfl : a = b := hl
    exact hm
  | cons x l ih => exact ⟨hl.1, ih hl.2⟩

theorem split (h : Linked stop next a (l ++ m)) :
    ∃ b, Linked (· = b) next a l ∧ Linked stop next b m := by
  induction l generalizing a with
  | nil => exact ⟨a, rfl, h⟩
  | cons x l ih =>
    obtain ⟨b, hl, hm⟩ := ih h.2
    exact ⟨b, ⟨h.1, hl⟩, hm⟩

/-- The last element is given the successor `b`. -/
theorem set_last [DecidableEq α] {x : α} (h : Linked stop next a (l ++ [x]))
    (hx : x ∉ l) : Linked (· = b) (Function.update next x b) a (l ++ [x]) := by
  obtain ⟨c, hl, hlast, -⟩ := h.split
  refine append (b := c) (hl.congr fun y hy => ?_) ⟨hlast, ?_⟩
  · rw [Function.update_of_ne]
    rintro rfl
    exact hx hy
  · exact Function.update_self _ _ _

end Linked

end LinkedList
