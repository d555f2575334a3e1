import Mathlib

/-!
# Objects with two reference counts

An object has users, each of which holds a reference that is counted in `urefs`, and other
holders, which are counted in `refs`. The users have one reference of the second kind in
common; the last user that goes inherits it and drops it. When the second count drops to
zero, whoever dropped it destroys the object.

The references that exist are a multiset of tokens. What follows is about this multiset as a
whole; who holds which token does not matter.
-/

namespace Lifetime

open Function

variable {κ : Type*}

/-- A reference to an object: of a user, of another holder, the common one of the users once
the last of them has gone, and the duty to destroy the object. -/
inductive Ref (κ : Type*)
  | user (k : κ)
  | root (k : κ)
  | last (k : κ)
  | free (k : κ)
  deriving DecidableEq

/-- The object of a token. -/
def Ref.key : Ref κ → κ
  | .user k | .root k | .last k | .free k => k

/-- The counts of an object, whether it was ever created, and how often it was destroyed. -/
structure Counts where
  born : Bool
  urefs : ℕ
  refs : ℕ
  frees : ℕ
  deriving DecidableEq

/-! ### One object -/

/-- The counts agree with the numbers of tokens of each kind. -/
structure Tally (c : Counts) (user root last free : ℕ) : Prop where
  urefs : c.urefs = user
  refs : c.refs = (if user = 0 then 0 else 1) + root + last
  frees : c.frees + free = if c.born = true ∧ c.refs = 0 then 1 else 0
  unborn : c.born = false → c.refs = 0

namespace Tally

variable {c : Counts} {user root last free : ℕ}

section

variable (h : Tally c user root last free)
include h

theorem born (hpos : 0 < user + root + last) : c.born = true := by
  by_contra hborn
  have hzero := h.unborn (by simpa using hborn)
  have hrefs := h.refs
  split_ifs at hrefs <;> omega

/-- An object with a holder is not about to be destroyed. -/
theorem refs_pos (hpos : 0 < user + root + last) : 0 < c.refs ∧ c.frees = 0 ∧ free = 0 := by
  have hrefs := h.refs
  have hfrees := h.frees
  have hne : c.refs ≠ 0 := by split_ifs at hrefs <;> omega
  rw [if_neg fun hzero => hne hzero.2] at hfrees
  exact ⟨by omega, by omega, by omega⟩

theorem alloc (hborn : c.born = false) : Tally ⟨true, 1, 1, 0⟩ (user + 1) root last free := by
  have hzero := h.unborn hborn
  have hrefs := h.refs
  have hfrees := h.frees
  rw [hborn, if_neg nofun] at hfrees
  have huser : user = 0 := by
    by_contra hne
    rw [if_neg hne] at hrefs
    omega
  rw [if_pos huser] at hrefs
  constructor
  · rw [huser]
  · rw [if_neg (by omega)]
    dsimp only
    omega
  · rw [if_neg nofun]
    dsimp only
    omega
  · exact nofun

theorem get (hpos : 0 < user) :
    Tally { c with urefs := c.urefs + 1 } (user + 1) root last free := by
  have hrefs := h.refs
  rw [if_neg (by omega)] at hrefs
  refine ⟨congrArg (· + 1) h.urefs, ?_, h.frees, h.unborn⟩
  rwa [if_neg (by omega)]

theorem grab (hpos : 0 < user + root + last) :
    Tally { c with refs := c.refs + 1 } user (root + 1) last free := by
  obtain ⟨-, hfrees, hfree⟩ := h.refs_pos hpos
  have hrefs := h.refs
  refine ⟨h.urefs, ?_, ?_, fun hborn => ?_⟩
  · dsimp only
    omega
  · rw [if_neg fun hzero => nomatch hzero.2]
    dsimp only
    omega
  · rw [h.born hpos] at hborn
    exact nomatch hborn

omit h in
/-- The last user that goes holds the common reference. -/
theorem put (h : Tally c (user + 1) root last free) :
    Tally { c with urefs := c.urefs - 1 } user root (last + if c.urefs = 1 then 1 else 0) free := by
  have hurefs := h.urefs
  have hrefs := h.refs
  rw [if_neg (by omega)] at hrefs
  refine ⟨by dsimp only; omega, ?_, h.frees, h.unborn⟩
  dsimp only
  by_cases hlast : user = 0
  · rw [if_pos hlast, if_pos (by omega)]
    omega
  · rw [if_neg hlast, if_neg (by omega)]
    omega

omit h in
/-- A reference that is counted in `refs` is dropped. -/
theorem drop {root' last' : ℕ} (h : Tally c user root' last' free)
    (hdrop : root' + last' = root + last + 1) : Tally { c with refs := c.refs - 1 } user root last
      (free + if c.refs = 1 then 1 else 0) := by
  have hrefs := h.refs
  have hborn := h.born (by omega)
  obtain ⟨hpos, hfrees, hfree⟩ := h.refs_pos (by omega)
  refine ⟨h.urefs, ?_, ?_, fun hnot => ?_⟩
  · dsimp only
    split_ifs at hrefs ⊢ <;> omega
  · dsimp only
    rw [hborn, hfrees, hfree]
    by_cases hone : c.refs = 1
    · rw [if_pos hone, if_pos ⟨rfl, by omega⟩]
    · rw [if_neg hone, if_neg fun hzero => hone (by omega)]
  · dsimp only at hnot
    rw [hborn] at hnot
    exact nomatch hnot

omit h in
theorem destroy (h : Tally c user root last (free + 1)) :
    Tally { c with frees := c.frees + 1 } user root last free := by
  refine ⟨h.urefs, h.refs, ?_, h.unborn⟩
  have hfrees := h.frees
  dsimp only
  omega

theorem frees_le_one : c.frees ≤ 1 := by
  have hfrees := h.frees
  split_ifs at hfrees <;> omega

/-- Nobody refers to an object that is destroyed or about to be. -/
theorem unused (hpos : 0 < c.frees + free) : user = 0 ∧ root = 0 ∧ last = 0 := by
  have hfrees := h.frees
  have hrefs := h.refs
  by_cases hzero : c.born = true ∧ c.refs = 0
  · rw [hzero.2] at hrefs
    split_ifs at hrefs with huser
    · exact ⟨huser, by omega, by omega⟩
    · omega
  · rw [if_neg hzero] at hfrees
    omega

end

end Tally

/-! ### All objects -/

structure Pool (κ : Type*) where
  count : κ → Counts
  refs : Multiset (Ref κ)

namespace Pool

variable [DecidableEq κ] {p p' : Pool κ} {k : κ} {c : Counts} {r : Ref κ}

def Ok (p : Pool κ) (k : κ) : Prop :=
  Tally (p.count k) (p.refs.count (.user k)) (p.refs.count (.root k)) (p.refs.count (.last k))
    (p.refs.count (.free k))

def Inv (p : Pool κ) : Prop := ∀ k, p.Ok k

theorem Inv.move (h : p.Inv) (hcount : p'.count = p.count) (hrefs : p'.refs = p.refs) : p'.Inv := by
  intro k
  have hk := h k
  unfold Ok at hk ⊢
  rwa [hcount, hrefs]

/-- Tokens of one object are exchanged, and its counts change. -/
theorem Inv.exchange (h : p.Inv) {a b : Multiset (Ref κ)}
    (hcount : p'.count = update p.count k c) (hrefs : p'.refs + a = p.refs + b)
    (ha : ∀ r ∈ a, r.key = k) (hb : ∀ r ∈ b, r.key = k)
    (hk : Tally c (p'.refs.count (.user k)) (p'.refs.count (.root k)) (p'.refs.count (.last k))
      (p'.refs.count (.free k))) : p'.Inv := by
  intro j
  unfold Ok
  rcases eq_or_ne j k with rfl | hne
  · rw [hcount, update_self]
    exact hk
  have hsame : ∀ r : Ref κ, r.key = j → p'.refs.count r = p.refs.count r := by
    intro r hr
    have hnot : ∀ m : Multiset (Ref κ), (∀ r ∈ m, r.key = k) → m.count r = 0 := by
      intro m hm
      apply Multiset.count_eq_zero_of_notMem
      intro hin
      exact hne (hr.symm.trans (hm r hin))
    have hcounts := congrArg (Multiset.count r) hrefs
    rwa [Multiset.count_add, Multiset.count_add, hnot a ha, hnot b hb] at hcounts
  rw [hcount, update_of_ne hne, hsame _ rfl, hsame _ rfl, hsame _ rfl, hsame _ rfl]
  exact h j

/-- How many tokens of each kind there are after an exchange. -/
theorem count_exchange {a b : Multiset (Ref κ)} (hrefs : p'.refs + a = p.refs + b) (r : Ref κ) :
    p'.refs.count r + a.count r = p.refs.count r + b.count r := by
  have hcounts := congrArg (Multiset.count r) hrefs
  rwa [Multiset.count_add, Multiset.count_add] at hcounts

theorem Inv.gain (h : p.Inv) (hcount : p'.count = update p.count r.key c)
    (hrefs : p'.refs = p.refs + {r})
    (hk : Tally c (p'.refs.count (.user r.key)) (p'.refs.count (.root r.key))
      (p'.refs.count (.last r.key)) (p'.refs.count (.free r.key))) : p'.Inv := by
  have hexchange : p'.refs + 0 = p.refs + {r} := by rw [add_zero, hrefs]
  exact h.exchange hcount hexchange nofun (by simp) hk

theorem Inv.alloc (h : p.Inv) (hborn : (p.count k).born = false)
    (hcount : p'.count = update p.count k ⟨true, 1, 1, 0⟩)
    (hrefs : p'.refs = p.refs + {.user k}) : p'.Inv := by
  apply h.gain (r := .user k) hcount hrefs
  rw [hrefs]
  simpa [Ref.key, Multiset.count_singleton] using (h k).alloc hborn

/-- A user takes another reference of its kind. -/
theorem Inv.get (h : p.Inv) (hk : .user k ∈ p.refs)
    (hcount : p'.count = update p.count k { p.count k with urefs := (p.count k).urefs + 1 })
    (hrefs : p'.refs = p.refs + {.user k}) : p'.Inv := by
  apply h.gain (r := .user k) hcount hrefs
  rw [hrefs]
  simpa [Ref.key, Multiset.count_singleton] using (h k).get (Multiset.count_pos.mpr hk)

/-- A reference of the other kind is taken, on the strength of one that exists. -/
theorem Inv.grab (h : p.Inv) (hk : .user k ∈ p.refs)
    (hcount : p'.count = update p.count k { p.count k with refs := (p.count k).refs + 1 })
    (hrefs : p'.refs = p.refs + {.root k}) : p'.Inv := by
  apply h.gain (r := .root k) hcount hrefs
  have hpos := Multiset.count_pos.mpr hk
  have htally := (h k).grab (by omega)
  rw [hrefs]
  simpa [Ref.key, Multiset.count_singleton] using htally

/-- One token of an object is replaced by another one, or by none. -/
theorem Inv.replace (h : p.Inv) {g : Ref κ} {b : Prop} [Decidable b]
    (hr : r.key = k) (hg : g.key = k) (hcount : p'.count = update p.count k c)
    (hrefs : p'.refs + {r} = p.refs + if b then {g} else 0)
    (hk : (∀ q, p'.refs.count q + (if q = r then 1 else 0) =
        p.refs.count q + if q = g then if b then 1 else 0 else 0) →
      Tally c (p'.refs.count (.user k)) (p'.refs.count (.root k)) (p'.refs.count (.last k))
        (p'.refs.count (.free k))) : p'.Inv := by
  refine h.exchange hcount hrefs (by simp [hr]) ?_ (hk fun q => ?_)
  · split_ifs <;> simp [hg]
  · have hq := count_exchange hrefs q
    rw [Multiset.count_singleton] at hq
    rw [hq]
    split_ifs <;> simp_all

theorem Inv.put (h : p.Inv)
    (hcount : p'.count = update p.count k { p.count k with urefs := (p.count k).urefs - 1 })
    (hrefs : p'.refs + {.user k} =
      p.refs + if (p.count k).urefs = 1 then {.last k} else 0) : p'.Inv := by
  refine h.replace (k := k) rfl rfl hcount hrefs fun hcounts => ?_
  have huser := hcounts (.user k)
  have hroot := hcounts (.root k)
  have hlast := hcounts (.last k)
  have hfree := hcounts (.free k)
  simp only [reduceCtorEq, if_false, if_true, add_zero] at huser hroot hlast hfree
  have htally := h k
  unfold Ok at htally
  rw [← huser] at htally
  rw [hroot, hlast, hfree]
  exact htally.put

/-- A reference that is counted in `refs` is dropped. -/
theorem Inv.drop (h : p.Inv) (hr : r = .root k ∨ r = .last k)
    (hcount : p'.count = update p.count k { p.count k with refs := (p.count k).refs - 1 })
    (hrefs : p'.refs + {r} = p.refs + if (p.count k).refs = 1 then {.free k} else 0) : p'.Inv := by
  have hkey : r.key = k := by rcases hr with rfl | rfl <;> rfl
  refine h.replace hkey rfl hcount hrefs fun hcounts => ?_
  have huser := hcounts (.user k)
  have hroot := hcounts (.root k)
  have hlast := hcounts (.last k)
  have hfree := hcounts (.free k)
  have htally := h k
  unfold Ok at htally
  rcases hr with rfl | rfl <;>
    simp only [reduceCtorEq, if_false, if_true, add_zero] at huser hroot hlast hfree <;>
    rw [huser, hfree] <;>
    exact htally.drop (by omega)

theorem Inv.free (h : p.Inv)
    (hcount : p'.count = update p.count k { p.count k with frees := (p.count k).frees + 1 })
    (hrefs : p'.refs + {.free k} = p.refs) : p'.Inv := by
  have hexchange : p'.refs + {.free k} = p.refs + 0 := by rw [add_zero, hrefs]
  apply h.exchange hcount hexchange (by simp [Ref.key]) nofun
  have htally := h k
  unfold Ok at htally
  rw [← hrefs] at htally
  simp only [Multiset.count_add, Multiset.count_singleton, reduceCtorEq, if_false, if_true,
    add_zero] at htally
  exact htally.destroy

end Pool

end Lifetime
