import Mathlib

/-!
# Separate memories

What address spaces are for: each process has a memory of its own. A fork copies the
whole memory of the parent at once, and every other event concerns one process and
leaves the memories of all others as they are.
-/

namespace Nuvix.Vm

/-- The bytes at the addresses that are mapped. -/
abbrev Memory := ℕ → Option ℕ

/-- Events of one process: a load or store of one byte, a range that is mapped with
zeros or unmapped, the end of the process, and the start of one with a given memory. -/
inductive LocalEvent
  | load (addr b : ℕ)
  | store (addr b : ℕ)
  | map (start stop : ℕ)
  | unmap (start stop : ℕ)
  | exit
  | spawn (m : Memory)

/-- What an event does to the memory of its process. -/
inductive Effect : Option Memory → LocalEvent → Option Memory → Prop
  | load {m : Memory} {addr b : ℕ} : m addr = some b → Effect (some m) (.load addr b) (some m)
  | store {m : Memory} {addr b : ℕ} : m addr ≠ none →
      Effect (some m) (.store addr b) (some (Function.update m addr (some b)))
  | map {m : Memory} {start stop : ℕ} : (∀ a, start ≤ a → a < stop → m a = none) →
      Effect (some m) (.map start stop)
        (some fun a => if start ≤ a ∧ a < stop then some 0 else m a)
  | unmap {m : Memory} {start stop : ℕ} :
      Effect (some m) (.unmap start stop) (some fun a => if start ≤ a ∧ a < stop then none else m a)
  | exit {m : Memory} : Effect (some m) .exit none
  | spawn {m : Memory} : Effect none (.spawn m) (some m)

/-- Events of all processes. -/
inductive Event (ι : Type*)
  | on (i : ι) (e : LocalEvent)
  | fork (parent child : ι)

namespace Spec

variable {ι : Type*} [DecidableEq ι]

/-- One event. The child of a fork starts with the memory of its parent. -/
inductive Step : (ι → Option Memory) → Event ι → (ι → Option Memory) → Prop
  | on {s : ι → Option Memory} {i : ι} {e : LocalEvent} {m : Option Memory} :
      Effect (s i) e m → Step s (.on i e) (Function.update s i m)
  | fork {s : ι → Option Memory} {parent child : ι} {m : Memory} : s parent = some m →
      s child = none → Step s (.fork parent child) (Function.update s child (some m))

/-- The events in order, from the first to the last. -/
inductive Run : (ι → Option Memory) → List (Event ι) → (ι → Option Memory) → Prop
  | nil {s : ι → Option Memory} : Run s [] s
  | cons {s t u : ι → Option Memory} {e : Event ι} {es : List (Event ι)} :
      Step s e t → Run t es u → Run s (e :: es) u

end Spec

end Nuvix.Vm
