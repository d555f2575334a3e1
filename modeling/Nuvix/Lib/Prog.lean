import Nuvix.Lib.Outcome

/-!
# Stateful computations that fail or stop

A call changes a state and returns a value or an error; what it has changed before an error stays
changed. A failed assertion stops the machine. `Runs` is the weakest precondition of such a call,
with one postcondition for values and one for errors.
-/

universe u v w

/-- A computation on a state of type `σ` that returns a value, fails, or stops. -/
def Prog (σ : Type u) (ε : Type v) (α : Type w) : Type (max u v w) := σ → Outcome ε α × σ

namespace Prog

variable {σ : Type u} {ε : Type v} {α β : Type w} {a : α} {e : ε}

def bind (x : Prog σ ε α) (f : α → Prog σ ε β) : Prog σ ε β := fun s =>
  match x s with
  | (.ok a, s') => f a s'
  | (.err e, s') => (.err e, s')
  | (.stop, s') => (.stop, s')

instance : Monad (Prog σ ε) where
  pure a := fun s => (.ok a, s)
  bind := bind

/-- Fail. -/
def throw (e : ε) : Prog σ ε α := fun s => (.err e, s)

/-- The state. -/
def get {σ : Type w} : Prog σ ε σ := fun s => (.ok s, s)

/-- Change the state. -/
def modify (f : σ → σ) : Prog σ ε PUnit.{w + 1} := fun s => (.ok ⟨⟩, f s)

/-- Stop unless `p` holds. -/
def assert (p : Prop) [Decidable p] : Prog σ ε PUnit.{w + 1} := fun s =>
  (if p then .ok ⟨⟩ else .stop, s)

/-- What becomes of a computation, as a value. -/
def attempt (x : Prog σ ε α) : Prog σ ε (Except ε α) := fun s =>
  match x s with
  | (.ok a, s') => (.ok (.ok a), s')
  | (.err e, s') => (.ok (.error e), s')
  | (.stop, s') => (.stop, s')

/-- A computation that must not fail. -/
def must (x : Prog σ ε α) : Prog σ ε α := fun s =>
  match x s with
  | (.ok a, s') => (.ok a, s')
  | (_, s') => (.stop, s')

/-- A check that returns a value or an error. -/
def check : Except ε α → Prog σ ε α
  | .ok a => fun s => (.ok a, s)
  | .error e => throw e

/-- A change of the state, or an error and no change. -/
def tryModify (f : σ → Except ε σ) : Prog σ ε PUnit.{w + 1} := fun s =>
  match f s with
  | .ok s' => (.ok ⟨⟩, s')
  | .error e => (.err e, s)

/-- A computation on a part of the state. -/
def focus {τ : Type*} (part : σ → τ) (put : σ → τ → σ) (x : Prog τ ε α) : Prog σ ε α := fun s =>
  ((x (part s)).1, put s (x (part s)).2)

/-- A loop depends on its body at the elements alone. -/
theorem forM_congr {γ : Type*} {l : List γ} {f g : γ → Prog σ ε PUnit.{w + 1}}
    (h : ∀ a ∈ l, f a = g a) : l.forM f = l.forM g := by
  induction l with
  | nil => rfl
  | cons a l ih =>
    obtain ⟨ha, hl⟩ := List.forall_mem_cons.mp h
    rw [List.forM, List.forM, ha, ih hl]

section Apply

variable {s s' : σ} {x : Prog σ ε α} {f : α → Prog σ ε β} {g : σ → σ}

@[simp] theorem pure_apply : (pure a : Prog σ ε α) s = (.ok a, s) := rfl

@[simp] theorem get_bind {σ : Type w} {s : σ} {f : σ → Prog σ ε β} :
    ((get : Prog σ ε σ) >>= f) s = f s s := rfl

@[simp] theorem modify_bind {f : PUnit.{w + 1} → Prog σ ε β} :
    ((modify g : Prog σ ε PUnit.{w + 1}) >>= f) s = f ⟨⟩ (g s) := rfl

theorem bind_of_ok (h : x s = (.ok a, s')) : (x >>= f) s = f a s' := by
  have hbind : (x >>= f) s = bind x f s := rfl
  rw [hbind, bind, h]

theorem bind_of_err (h : x s = (.err e, s')) : (x >>= f) s = (.err e, s') := by
  have hbind : (x >>= f) s = bind x f s := rfl
  rw [hbind, bind, h]

end Apply

/-- The computation does not stop, and the postconditions hold of what it leaves. -/
def Runs (x : Prog σ ε α) (s : σ) (Q : α → σ → Prop) (E : ε → σ → Prop) : Prop :=
  match x s with
  | (.ok a, s') => Q a s'
  | (.err e, s') => E e s'
  | (.stop, _) => False

namespace Runs

variable {x : Prog σ ε α} {s : σ} {Q Q' : α → σ → Prop} {E E' : ε → σ → Prop}

theorem mono (h : Runs x s Q E) (hQ : ∀ a s', Q a s' → Q' a s') (hE : ∀ e s', E e s' → E' e s') :
    Runs x s Q' E' := by
  unfold Runs at *
  split at h
  · exact hQ _ _ h
  · exact hE _ _ h
  · exact h

theorem bind {f : α → Prog σ ε β} {R : β → σ → Prop} (h : Runs x s Q E)
    (hf : ∀ a s', Q a s' → Runs (f a) s' R E') (hE : ∀ e s', E e s' → E' e s') :
    Runs (x >>= f) s R E' := by
  have hbind : (x >>= f) s = Prog.bind x f s := rfl
  unfold Runs at h ⊢
  rw [hbind, Prog.bind]
  rcases hx : x s with ⟨r, s'⟩
  rw [hx] at h
  cases r with
  | ok a => exact hf a s' h
  | err e => exact hE e s' h
  | stop => exact h

theorem pure (h : Q a s) : Runs (pure a : Prog σ ε α) s Q E := h

theorem throw (h : E e s) : Runs (Prog.throw e : Prog σ ε α) s Q E := h

theorem get_bind {σ : Type w} {s : σ} {f : σ → Prog σ ε β} {Q : β → σ → Prop} {E : ε → σ → Prop}
    (h : Runs (f s) s Q E) : Runs (Prog.get >>= f) s Q E := h

theorem modify_bind {f : σ → σ} {g : PUnit.{w + 1} → Prog σ ε α} (h : Runs (g ⟨⟩) (f s) Q E) :
    Runs (Prog.modify f >>= g) s Q E := h

theorem assert_bind {p : Prop} [Decidable p] {g : PUnit.{w + 1} → Prog σ ε α} (hp : p)
    (h : Runs (g ⟨⟩) s Q E) : Runs (Prog.assert p >>= g) s Q E := by
  have hrun : (Prog.assert p >>= g) s = g ⟨⟩ s := bind_of_ok (by rw [Prog.assert, if_pos hp])
  unfold Runs
  rwa [hrun]

theorem must (h : Runs x s Q fun _ _ => False) : Runs (Prog.must x) s Q E := by
  unfold Runs Prog.must at *
  rcases hx : x s with ⟨r, s'⟩
  rw [hx] at h
  cases r with
  | ok a => exact h
  | err e => exact h.elim
  | stop => exact h.elim

theorem check_bind {r : Except ε α} {f : α → Prog σ ε β} {R : β → σ → Prop}
    (h : ∀ a, r = .ok a → Runs (f a) s R E) (hE : ∀ e, r = .error e → E e s) :
    Runs (Prog.check r >>= f) s R E := by
  cases r with
  | ok a => exact h a rfl
  | error e => exact hE e rfl

theorem tryModify {f : σ → Except ε σ} {Q : PUnit.{w + 1} → σ → Prop}
    (h : ∀ s', f s = .ok s' → Q ⟨⟩ s') (hE : ∀ e, f s = .error e → E e s) :
    Runs (Prog.tryModify f) s Q E := by
  unfold Runs Prog.tryModify
  cases hf : f s with
  | ok s' => exact h s' hf
  | error e => exact hE e hf

theorem focus {τ : Type*} {part : σ → τ} {put : σ → τ → σ} {x : Prog τ ε α}
    (h : Runs x (part s) (fun a t => Q a (put s t)) fun e t => E e (put s t)) :
    Runs (Prog.focus part put x) s Q E := by
  unfold Runs Prog.focus at *
  split at h
  next heq =>
    rw [heq]
    exact h
  next heq =>
    rwa [heq]
  · exact h.elim

theorem attempt_bind {ε α β : Type w} {x : Prog σ ε α} {f : Except ε α → Prog σ ε β}
    {R : β → σ → Prop} {E' : ε → σ → Prop}
    (h : Runs x s (fun a s' => Runs (f (.ok a)) s' R E') fun e s' => Runs (f (.error e)) s' R E') :
    Runs (Prog.attempt x >>= f) s R E' := by
  have hbind : (Prog.attempt x >>= f) s = Prog.bind (Prog.attempt x) f s := rfl
  unfold Runs at h ⊢
  rw [hbind, Prog.bind, Prog.attempt]
  rcases hx : x s with ⟨r, s'⟩
  rw [hx] at h
  cases r with
  | ok a => exact h
  | err e => exact h
  | stop => exact h

/-- What a run that is known came to. -/
theorem of_eq (h : Runs x s Q E) {s' : σ} :
    (∀ a, x s = (.ok a, s') → Q a s') ∧ ∀ e, x s = (.err e, s') → E e s' := by
  unfold Runs at h
  constructor <;> intro y hx <;> rw [hx] at h <;> exact h

end Runs

end Prog
