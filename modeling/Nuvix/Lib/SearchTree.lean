import Mathlib

/-!
# Search trees

Binary trees with coloured nodes, the three descents an ordered container makes,
and what they find when the in-order sequence agrees with the direction the descent
takes. How the tree is rebalanced does not matter: `Rebalance` is any pair of
operations that have the right effect on the in-order sequence.

## Main definitions

* `Bst`, `Bst.toList` — trees and their in-order sequence
* `Bst.search`, `Bst.searchFirst`, `Bst.link`, `Bst.leftmost` — the descents
* `Directed` — the direction a descent takes is monotone in the sequence
* `Rebalance` — rebalancing after a link, and removal

## Main results

* `Bst.search_eq_some`, `Bst.search_eq_none` — what a search finds
* `Bst.searchFirst_eq_some`, `Bst.searchFirst_eq_find` — the same for the first hit
* `Bst.link_spec` — a new key is linked at its place, or something is in its way
* `Bst.leftmost_iff` — when a new key comes first
-/

namespace SearchTree

variable {α : Type*} {red : Bool}

/-- A binary tree whose nodes are red or black. -/
inductive Bst (α : Type*)
  | nil
  | node (red : Bool) (left : Bst α) (key : α) (right : Bst α)
  deriving DecidableEq, Repr

namespace Bst

/-- The in-order sequence. -/
def toList : Bst α → List α
  | nil => []
  | node _ l a r => l.toList ++ a :: r.toList

/-- Go left where `side` is `lt` and right where it is `gt`. -/
def search (side : α → Ordering) : Bst α → Option α
  | nil => none
  | node _ l a r =>
    match side a with
    | .lt => l.search side
    | .gt => r.search side
    | .eq => some a

/-- Go right at a key that is `below`, otherwise left, and return the last `hit` met
on the way left. -/
def searchFirst (below hit : α → Bool) : Option α → Bst α → Option α
  | found, nil => found
  | found, node _ l a r =>
    if below a then r.searchFirst below hit found
    else l.searchFirst below hit (if hit a then some a else found)

/-- Link a red node at the null link that `side` leads to. -/
def link (side : α → Ordering) (new : α) : Bst α → Option (Bst α)
  | nil => some (node true nil new nil)
  | node red l a r =>
    match side a with
    | .lt => (l.link side new).map fun l => node red l a r
    | .gt => (r.link side new).map fun r => node red l a r
    | .eq => none

/-- Whether the way to the null link goes left at every node. -/
def leftmost (side : α → Ordering) : Bst α → Bool
  | nil => true
  | node _ l a _ => if side a = .lt then l.leftmost side else false

/-- The key after `a` in the in-order sequence. -/
def next [DecidableEq α] (a : α) (t : Bst α) : Option α :=
  ((t.toList.dropWhile fun b => b ≠ a).drop 1).head?

/-- Change the keys in place. -/
def map (f : α → α) : Bst α → Bst α
  | nil => nil
  | node red l a r => node red (l.map f) (f a) (r.map f)

@[simp] theorem toList_nil : (nil : Bst α).toList = [] := rfl

@[simp] theorem toList_node {l r : Bst α} {a : α} :
    (node red l a r).toList = l.toList ++ a :: r.toList := rfl

@[simp] theorem toList_map {f : α → α} {t : Bst α} : (t.map f).toList = t.toList.map f := by
  induction t with
  | nil => rfl
  | node red l a r ihl ihr => simp [map, ihl, ihr]

end Bst

/-- Keys to the right of one where the descent goes left send it left too, and keys
to the left of one where it goes right send it right. -/
def Directed (side : α → Ordering) (xs : List α) : Prop :=
  xs.Pairwise fun a b => (side a = .lt → side b = .lt) ∧ (side b = .gt → side a = .gt)

namespace Bst

variable {side : α → Ordering} {t : Bst α} {a : α}

/-- What the ordering of a node says about its subtrees. -/
theorem directed_node {l r : Bst α} (h : Directed side (node red l a r).toList) :
    Directed side l.toList ∧ Directed side r.toList ∧
      (side a = .lt → ∀ b ∈ r.toList, side b = .lt) ∧
      (side a = .gt → ∀ b ∈ l.toList, side b = .gt) := by
  obtain ⟨hl, hr, hcross⟩ := List.pairwise_append.mp h
  obtain ⟨ha, hr⟩ := List.pairwise_cons.mp hr
  exact ⟨hl, hr, fun hlt b hb => (ha b hb).1 hlt,
    fun hgt b hb => (hcross b hb a List.mem_cons_self).2 hgt⟩

theorem search_eq_some (h : t.search side = some a) : a ∈ t.toList ∧ side a = .eq := by
  induction t with
  | nil => cases h
  | node red l b r ihl ihr =>
    simp only [search] at h
    split at h
    · obtain ⟨hmem, heq⟩ := ihl h
      exact ⟨List.mem_append_left _ hmem, heq⟩
    · obtain ⟨hmem, heq⟩ := ihr h
      exact ⟨List.mem_append_right _ (List.mem_cons_of_mem _ hmem), heq⟩
    · next heq =>
      cases h
      exact ⟨List.mem_append_right _ List.mem_cons_self, heq⟩

theorem search_eq_none (hdir : Directed side t.toList) (h : t.search side = none) :
    ∀ b ∈ t.toList, side b ≠ .eq := by
  induction t with
  | nil => exact nofun
  | node red l a r ihl ihr =>
    obtain ⟨hl, hr, hright, hleft⟩ := directed_node hdir
    intro b hb
    simp only [search] at h
    split at h
    · next hlt =>
      rcases List.mem_append.mp hb with hb | hb
      · exact ihl hl h b hb
      · rcases List.mem_cons.mp hb with rfl | hb
        · simp [hlt]
        · simp [hright hlt b hb]
    · next hgt =>
      rcases List.mem_append.mp hb with hb | hb
      · simp [hleft hgt b hb]
      · rcases List.mem_cons.mp hb with rfl | hb
        · simp [hgt]
        · exact ihr hr h b hb
    · cases h

variable {below hit : α → Bool} {found : Option α}

theorem searchFirst_eq_some (h : t.searchFirst below hit found = some a) :
    (a ∈ t.toList ∧ below a = false ∧ hit a = true) ∨ found = some a := by
  induction t generalizing found with
  | nil => exact .inr h
  | node red l b r ihl ihr =>
    simp only [searchFirst] at h
    split_ifs at h with hbelow hhit
    · exact (ihr h).imp_left fun ⟨hmem, hrest⟩ =>
        ⟨List.mem_append_right _ (List.mem_cons_of_mem _ hmem), hrest⟩
    · rcases ihl h with ⟨hmem, hrest⟩ | hb
      · exact .inl ⟨List.mem_append_left _ hmem, hrest⟩
      · cases hb
        exact .inl ⟨List.mem_append_right _ List.mem_cons_self, by simpa using hbelow, hhit⟩
    · exact (ihl h).imp_left fun ⟨hmem, hrest⟩ => ⟨List.mem_append_left _ hmem, hrest⟩

/-- The search returns the first key in the sequence that is a `hit` and not `below`, where keys
before one that is `below` are `below` and keys before a `hit` are hits. -/
theorem searchFirst_eq_find
    (hdir : t.toList.Pairwise fun a b =>
      (below b = true → below a = true) ∧ (hit b = true → hit a = true)) :
    t.searchFirst below hit found = (t.toList.find? fun a => !below a && hit a).or found := by
  induction t generalizing found with
  | nil => rfl
  | node red l a r ihl ihr =>
    obtain ⟨hl, hr, hcross⟩ := List.pairwise_append.mp hdir
    obtain ⟨ha, hr⟩ := List.pairwise_cons.mp hr
    rw [toList_node, List.find?_append, List.find?_cons]
    cases hbelow : below a with
    | true =>
      have hleft : l.toList.find? (fun b => !below b && hit b) = none := by
        refine List.find?_eq_none.mpr fun b hb => ?_
        simp [(hcross b hb a List.mem_cons_self).1 hbelow]
      simp [searchFirst, hbelow, hleft, ihr hr]
    | false =>
      cases hhit : hit a with
      | true => simp [searchFirst, hbelow, hhit, ihl hl]
      | false =>
        have hright : r.toList.find? (fun b => !below b && hit b) = none := by
          refine List.find?_eq_none.mpr fun b hb hb' => ?_
          simp [(ha b hb).2 (Bool.and_eq_true_iff.mp hb').2] at hhit
        simp [searchFirst, hbelow, hhit, hright, ihl hl]

/-- A key is linked between the keys to its left and those to its right, unless a key
stands in its way. -/
theorem link_spec (new : α) (hdir : Directed side t.toList) :
    (t.link side new = none ∧ ∃ b ∈ t.toList, side b = .eq) ∨
      ∃ t' xs ys, t.link side new = some t' ∧ t.toList = xs ++ ys ∧
        t'.toList = xs ++ new :: ys ∧ (∀ b ∈ xs, side b = .gt) ∧ ∀ b ∈ ys, side b = .lt := by
  induction t with
  | nil => exact .inr ⟨_, [], [], rfl, rfl, rfl, nofun, nofun⟩
  | node red l a r ihl ihr =>
    obtain ⟨hl, hr, hright, hleft⟩ := directed_node hdir
    cases hside : side a with
    | eq => exact .inl ⟨by simp [link, hside], a, by simp, hside⟩
    | lt =>
      rcases ihl hl with ⟨hnone, b, hb, heq⟩ | ⟨t', xs, ys, hsome, hlist, hlist', hxs, hys⟩
      · exact .inl ⟨by simp [link, hside, hnone], b, by simp [hb], heq⟩
      · refine .inr
          ⟨node red t' a r, xs, ys ++ a :: r.toList, by simp [link, hside, hsome], by simp [hlist],
          by simp [hlist'], hxs, fun b hb => ?_⟩
        rcases List.mem_append.mp hb with hb | hb
        · exact hys b hb
        · rcases List.mem_cons.mp hb with rfl | hb
          · exact hside
          · exact hright hside b hb
    | gt =>
      rcases ihr hr with ⟨hnone, b, hb, heq⟩ | ⟨t', xs, ys, hsome, hlist, hlist', hxs, hys⟩
      · exact .inl ⟨by simp [link, hside, hnone], b, by simp [hb], heq⟩
      · refine .inr
          ⟨node red l a t', l.toList ++ a :: xs, ys, by simp [link, hside, hsome], by simp [hlist],
          by simp [hlist'], fun b hb => ?_, hys⟩
        rcases List.mem_append.mp hb with hb | hb
        · exact hleft hside b hb
        · rcases List.mem_cons.mp hb with rfl | hb
          · exact hside
          · exact hxs b hb

/-- The way goes left at every node exactly when no key lies to the left. -/
theorem leftmost_iff (hdir : Directed side t.toList) :
    t.leftmost side = true ↔ ∀ b ∈ t.toList, side b = .lt := by
  induction t with
  | nil => simp [leftmost]
  | node red l a r ihl _ =>
    obtain ⟨hl, -, hright, -⟩ := directed_node hdir
    by_cases hside : side a = .lt
    · rw [leftmost, if_pos hside, ihl hl]
      refine ⟨fun h b hb => ?_, fun h b hb => h b (List.mem_append_left _ hb)⟩
      rcases List.mem_append.mp hb with hb | hb
      · exact h b hb
      · rcases List.mem_cons.mp hb with rfl | hb
        · exact hside
        · exact hright hside b hb
    · rw [leftmost, if_neg hside]
      exact ⟨nofun, fun h => absurd (h a (by simp)) hside⟩

theorem next_head [DecidableEq α] {as : List α} (h : t.toList = a :: as) : t.next a = as.head? := by
  rw [next, h, List.dropWhile_cons_of_neg (by simp), List.drop_one, List.tail_cons]

end Bst

/-- Rebalancing after a node has been linked, and the removal of a node with the
rebalancing after it. -/
structure Rebalance (α : Type*) [DecidableEq α] where
  insertColor : α → Bst α → Bst α
  erase : α → Bst α → Bst α
  toList_insertColor : ∀ a t, (insertColor a t).toList = t.toList
  toList_erase : ∀ a t, (erase a t).toList = t.toList.erase a

namespace Rebalance

attribute [simp] toList_insertColor toList_erase

/-- The tree without left children that has a given sequence. -/
def ofList : List α → Bst α
  | [] => .nil
  | a :: as => .node false .nil a (ofList as)

theorem toList_ofList (as : List α) : (ofList as).toList = as := by
  induction as with
  | nil => rfl
  | cons a as ih => simp [ofList, ih]

/-- No rebalancing. -/
def plain [DecidableEq α] : Rebalance α where
  insertColor _ t := t
  erase a t := ofList (t.toList.erase a)
  toList_insertColor _ _ := rfl
  toList_erase _ _ := toList_ofList _

end Rebalance

end SearchTree
