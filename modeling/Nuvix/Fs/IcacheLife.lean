import Nuvix.Fs.Icache
import Nuvix.Lib.SumUpdate

/-!
# The life of an inode

What an inode goes through is a small automaton: it is allocated, perhaps read and hashed,
used, and then evicted and destroyed. In each of its states the hash table, `i_state`,
`i_count` and the work that tasks have to do with it are determined. The invariant of the
inode cache says that every inode is in one of these states.
-/

namespace Nuvix.Icache

open Function

variable {N : ℕ} {s s' : State N} {t : Fin N} {c : ℕ}

/-! ### The automaton -/

/-- The life of an inode. A live inode has at least one reference, and `others` besides; the
flag of a dying or dead one says whether it was hashed when its last reference was dropped. -/
inductive Life
  | unborn
  | raw
  | loading
  | live (hashed : Bool) (others : ℕ)
  | evicting
  | evicted
  | dying (cached : Bool)
  | dead (cached : Bool)
  deriving DecidableEq, Repr

/-- What a task can have to do with an inode: it has a plain reference; it has allocated the
inode and not hashed it; it reads the inode; it has to evict, to unhash, or to destroy it. -/
inductive Kind
  | ref
  | raw
  | load
  | evict
  | unhash
  | free
  deriving DecidableEq, Repr

namespace Life

def hashed : Life → Bool
  | .loading | .evicting | .evicted => true
  | .live hashed _ => hashed
  | .unborn | .raw | .dying _ | .dead _ => false

def state : Life → IState
  | .loading => .new
  | .evicting | .evicted | .dying true | .dead true => .freeing
  | .unborn | .raw | .live .. | .dying false | .dead false => .ready

def count : Life → ℕ
  | .raw | .loading => 1
  | .live _ others => others + 1
  | .unborn | .evicting | .evicted | .dying _ | .dead _ => 0

/-- How many tasks have this to do with the inode. -/
def tokens : Life → Kind → ℕ
  | .raw, .raw | .loading, .load | .evicting, .evict | .evicted, .unhash | .dying _, .free => 1
  | .live _ others, .ref => others + 1
  | _, _ => 0

def evicts : Life → ℕ
  | .evicted | .dying true | .dead true => 1
  | _ => 0

def destroys : Life → ℕ
  | .dead _ => 1
  | _ => 0

/-- The steps of a life. -/
inductive Next : Life → Life → Prop
  | stay (l : Life) : Next l l
  | alloc : Next .unborn .raw
  | anonymous : Next .unborn (.live false 0)
  | load : Next .raw .loading
  | publish : Next .raw (.live true 0)
  | giveUp : Next .raw (.live false 0)
  | loaded (hashed : Bool) : Next .loading (.live hashed 0)
  | hold (hashed : Bool) (others : ℕ) : Next (.live hashed others) (.live hashed (others + 1))
  | drop (hashed : Bool) (others : ℕ) : Next (.live hashed (others + 1)) (.live hashed others)
  | evict : Next (.live true 0) .evicting
  | free : Next (.live false 0) (.dying false)
  | evicted : Next .evicting .evicted
  | unhash : Next .evicted (.dying true)
  | destroy (cached : Bool) : Next (.dying cached) (.dead cached)

variable {l : Life}

theorem next_refl (life : ℕ → Life) (d : ℕ) : Next (life d) (life d) := .stay _

theorem next_update {life : ℕ → Life} {c : ℕ} (h : Next (life c) l) (d : ℕ) :
    Next (life d) (update life c l d) := by
  rcases eq_or_ne d c with rfl | hd
  · rwa [update_self]
  · rw [update_of_ne hd]
    exact .stay _

/-- A hashed inode without a state is in use. -/
theorem of_ready (hhashed : l.hashed = true) (hstate : l.state = .ready) :
    ∃ others, l = .live true others := by
  cases l with
  | live hashed others =>
    obtain rfl : hashed = true := hhashed
    exact ⟨others, rfl⟩
  | loading | evicting | evicted => cases hstate
  | unborn | raw | dying b | dead b => cases hhashed

end Life

/-! ### What tasks have to do with inodes -/

/-- The states of a life in which a task can have this to do with the inode. -/
def Kind.Allows (l : Life) : Kind → Prop
  | .ref => ∃ hashed others, l = .live hashed others
  | .raw => l = .raw
  | .load => l = .loading
  | .evict => l = .evicting
  | .unhash => l = .evicted
  | .free => ∃ cached, l = .dying cached

theorem Kind.allows_of_pos {κ : Kind} {l : Life} (h : 0 < l.tokens κ) : κ.Allows l := by
  cases κ <;> cases l <;>
    first | exact absurd h (lt_irrefl 0) | exact ⟨_, _, rfl⟩ | exact ⟨_, rfl⟩ | rfl

def Loop.tokens : Loop → List (Kind × ℕ)
  | .find .. => []
  | .insert c | .inserts c => [(.raw, c)]

/-- The inode `iput` goes on with. -/
def restTokens : Option ℕ → List (Kind × ℕ)
  | none => []
  | some n => [(.ref, n)]

def Pc.tokens : Pc → List (Kind × ℕ)
  | .lookup l | .parked l | .unparked l => l.tokens
  | .check c own => [(if own then .load else .ref, c)]
  | .load c | .ready c | .abort c => [(.load, c)]
  | .readyWake c | .abortWake c => [(.ref, c)]
  | .newInode c => [(.raw, c)]
  | .put c k => (.ref, c) :: restTokens k
  | .evict c k => (.evict, c) :: restTokens k
  | .unhash c k => (.unhash, c) :: restTokens k
  | .unhashWake c k | .destroy c k => (.free, c) :: restTokens k
  | .idle | .igetAlloc .. | .newAlloc .. => []

/-- Everything a task has to do with inodes. -/
def Thread.tokens (th : Thread) : List (Kind × ℕ) :=
  th.held.map (Prod.mk .ref) ++ th.pc.tokens

@[simp] theorem tokens_afterPut (k : Option ℕ) : (afterPut k).tokens = restTokens k := by
  cases k <;> rfl

@[simp] theorem Thread.tokens_mk (held : List ℕ) (pc : Pc) :
    (Thread.mk held pc).tokens = held.map (Prod.mk .ref) ++ pc.tokens := rfl

theorem count_token (κ κ' : Kind) (c d : ℕ) (l : List (Kind × ℕ)) :
    ((κ', c) :: l).count (κ, d) = l.count (κ, d) + if κ = κ' ∧ d = c then 1 else 0 := by
  have hiff : ((κ', c) == (κ, d)) = true ↔ κ = κ' ∧ d = c := by
    rw [beq_iff_eq, Prod.mk.injEq, eq_comm, @eq_comm _ c]
  rw [List.count_cons]
  simp only [hiff]

/-- What a task that has been given an inode has to do with inodes. -/
theorem count_give (th : Thread) (hpc : th.pc.tokens = []) (c d : ℕ) (κ : Kind) :
    (Thread.mk (c :: th.held) .idle).tokens.count (κ, d) =
      th.tokens.count (κ, d) + if κ = .ref ∧ d = c then 1 else 0 := by
  rw [Thread.tokens_mk, Thread.tokens, hpc, List.map_cons, List.cons_append, count_token]
  rfl

/-! ### The invariant -/

/-- The inode is in this state of its life. -/
structure Fits (s : State N) (c : ℕ) (l : Life) : Prop where
  hashed : c ∈ s.table ↔ l.hashed = true
  state : (s.inode c).state = l.state
  count : (s.inode c).count = l.count
  born : s.next ≤ c ↔ l = .unborn
  evicts : s.evicts c = l.evicts
  destroys : s.destroys c = l.destroys

/-- Every inode is in the state that `life` says. -/
structure Agrees (s : State N) (life : ℕ → Life) : Prop where
  nodup : s.table.Nodup
  fits : ∀ c, Fits s c (life c)
  tokens : ∀ c κ, ∑ t, (s.task t).tokens.count (κ, c) = (life c).tokens κ

/-- Every inode has stayed where it was in its life, or has gone on. -/
def Advances (life : ℕ → Life) (s' : State N) : Prop :=
  ∃ life', Agrees s' life' ∧ ∀ d, Life.Next (life d) (life' d)

theorem agrees_boot : Agrees (boot N) fun _ => .unborn where
  nodup := List.nodup_nil
  fits c := ⟨by simp [boot, Life.hashed], rfl, rfl, by simp [boot], rfl, rfl⟩
  tokens c κ := by
    cases κ <;> simp [boot, Thread.tokens, Pc.tokens, Life.tokens]

/-- A step of `t` that works on inode `c` only. -/
structure Touch (s : State N) (t : Fin N) (c : ℕ) (th : Thread) (s' : State N) : Prop where
  task : s'.task = update s.task t th
  inode : ∀ d ≠ c, s'.inode d = s.inode d
  table : ∀ d ≠ c, (d ∈ s'.table ↔ d ∈ s.table)
  next : ∀ d ≠ c, (s'.next ≤ d ↔ s.next ≤ d)
  evicts : ∀ d ≠ c, s'.evicts d = s.evicts d
  destroys : ∀ d ≠ c, s'.destroys d = s.destroys d
  tokens : ∀ κ d, d ≠ c → th.tokens.count (κ, d) = (s.task t).tokens.count (κ, d)

variable {life : ℕ → Life} {th : Thread} {l l₀ : Life} {κ : Kind}

/-- An inode that a step does not work on. -/
theorem Fits.frame {d : ℕ} (h : Fits s d l) (htouch : Touch s t c th s') (hd : d ≠ c) :
    Fits s' d l where
  hashed := (htouch.table d hd).trans h.hashed
  state := by rw [htouch.inode d hd, h.state]
  count := by rw [htouch.inode d hd, h.count]
  born := (htouch.next d hd).trans h.born
  evicts := by rw [htouch.evicts d hd, h.evicts]
  destroys := by rw [htouch.destroys d hd, h.destroys]

/-- One inode goes on in its life. -/
theorem Agrees.move (h : Agrees s life) (htouch : Touch s t c th s') (hnodup : s'.table.Nodup)
    (hfits : Fits s' c l) (htokens : ∀ κ, (life c).tokens κ + th.tokens.count (κ, c) =
      l.tokens κ + (s.task t).tokens.count (κ, c)) : Agrees s' (update life c l) := by
  refine ⟨hnodup, fun d => ?_, fun d κ => ?_⟩
  · rcases eq_or_ne d c with rfl | hd
    · rwa [update_self]
    · rw [update_of_ne hd]
      exact (h.fits d).frame htouch hd
  · have hsum := SumUpdate.sum_update_add (fun th : Thread => th.tokens.count (κ, d)) s.task t th
    have hold := h.tokens d κ
    rw [htouch.task]
    rcases eq_or_ne d c with rfl | hd
    · rw [update_self]
      have := htokens κ
      omega
    · rw [update_of_ne hd]
      have := htouch.tokens κ d hd
      omega

/-- A step that leaves all inodes alone. -/
theorem Agrees.same (h : Agrees s life) (th : Thread) (htask : s'.task = update s.task t th)
    (hinode : s'.inode = s.inode) (htable : s'.table = s.table) (hnext : s'.next = s.next)
    (hevicts : s'.evicts = s.evicts) (hdestroys : s'.destroys = s.destroys)
    (htokens : ∀ κ d, th.tokens.count (κ, d) = (s.task t).tokens.count (κ, d)) :
    Agrees s' life := by
  refine ⟨htable ▸ h.nodup, fun d => ?_, fun d κ => ?_⟩
  · obtain ⟨hh, hs, hc, hb, he, hd⟩ := h.fits d
    exact ⟨htable ▸ hh, hinode ▸ hs, hinode ▸ hc, hnext ▸ hb, hevicts ▸ he, hdestroys ▸ hd⟩
  · have hsum := SumUpdate.sum_update_add (fun th : Thread => th.tokens.count (κ, d)) s.task t th
    have hold := h.tokens d κ
    have := htokens κ d
    rw [htask]
    omega

theorem Agrees.advances (h : Agrees s' life) : Advances life s' :=
  ⟨life, h, Life.next_refl life⟩

theorem Agrees.advances_update (h : Agrees s' (update life c l)) (hlife : life c = l₀)
    (hnext : l₀.Next l) : Advances life s' :=
  ⟨_, h, Life.next_update (hlife ▸ hnext)⟩

/-- What a task has to do with an inode is seen in the life of the inode. -/
theorem Agrees.allows (h : Agrees s life) (hc : (κ, c) ∈ (s.task t).tokens) :
    κ.Allows (life c) := by
  refine Kind.allows_of_pos ?_
  rw [← h.tokens c κ]
  exact (List.count_pos_iff.mpr hc).trans_le
    (Finset.single_le_sum (f := fun t => (s.task t).tokens.count (κ, c)) (fun _ _ => Nat.zero_le _)
      (Finset.mem_univ t))

theorem Agrees.allows_of_pc {pc : Pc} (h : Agrees s life) (hpc : (s.task t).pc = pc)
    (hc : (κ, c) ∈ pc.tokens) : κ.Allows (life c) :=
  h.allows (List.mem_append_right _ (hpc ▸ hc))

theorem Agrees.rawOf {pc : Pc} (h : Agrees s life) (hpc : (s.task t).pc = pc)
    (hc : pc.tokens = [(.raw, c)]) : life c = .raw :=
  h.allows_of_pc (κ := .raw) hpc (hc ▸ List.mem_singleton_self _)

theorem Agrees.fitsOf (h : Agrees s life) (hlife : life c = l) : Fits s c l := hlife ▸ h.fits c

/-! ### Steps -/

section

variable {pc : Pc} {k : Option ℕ} {asleep : Fin N → Bool} {lock : Option (Fin N)} {sb : Option ℕ}
  {waiters : List (Fin N)} {inodes : ℕ → ℕ} {table : List ℕ} {ino : ℕ} {st : IState} {a : Action}
  {lp : Loop} {n : ℕ}

section

variable (h : Agrees s life)
include h

/-- `i_alloc`, for a caller that goes on with the new inode as `κ`. -/
theorem Agrees.alloc (th : Thread)
    (hl : l.hashed = false ∧ l.state = .ready ∧ l.count = 1 ∧ l ≠ .unborn ∧ l.evicts = 0 ∧
      l.destroys = 0) (htokens : ∀ κ d, th.tokens.count (κ, d) =
      (s.task t).tokens.count (κ, d) + if d = s.next then l.tokens κ else 0) :
    Agrees { s.iAlloc sb ino with task := update s.task t th }
      (update life s.next l) := by
  have hfits := h.fits s.next
  have hunborn : life s.next = .unborn := hfits.born.mp le_rfl
  rw [hunborn] at hfits
  have htouch : Touch s t s.next th
      { s.iAlloc sb ino with task := update s.task t th } := by
    refine ⟨rfl, fun d hd => update_of_ne hd _ _, fun d _ => .rfl, fun d hd => ?_,
      fun d _ => rfl, fun d _ => rfl, fun κ d hd => ?_⟩
    · change s.next + 1 ≤ d ↔ s.next ≤ d
      omega
    · rw [htokens, if_neg hd, Nat.add_zero]
  obtain ⟨hhashed, hstate, hcount, hborn, hevicts, hdestroys⟩ := hl
  refine h.move htouch h.nodup ⟨?_, ?_, ?_, ?_, ?_, ?_⟩ fun κ => ?_
  · rw [hhashed]
    exact hfits.hashed
  · simp [State.iAlloc, State.setInode, hstate]
  · simp [State.iAlloc, State.setInode, hcount]
  · exact iff_of_false (Nat.not_succ_le_self _) hborn
  · rw [hevicts]
    exact hfits.evicts
  · rw [hdestroys]
    exact hfits.destroys
  · rw [htokens, if_pos rfl, hunborn]
    have hnone : Life.unborn.tokens κ = 0 := by cases κ <;> rfl
    omega

/-- A section that changes an inode and perhaps its place in the table, while the task goes
on to other duties. -/
theorem Agrees.turn (hlife : life c = l₀)
    (th : Thread) (i : Inode) (lock : Option (Fin N)) (hstate : i.state = l.state)
    (hcount : i.count = l.count) (hborn : l ≠ .unborn) (hborn' : l₀ ≠ .unborn)
    (hevicts : l.evicts = l₀.evicts) (hdestroys : l.destroys = l₀.destroys)
    (hnodup : table.Nodup) (hmem : c ∈ table ↔ l.hashed = true)
    (hother : ∀ d ≠ c, (d ∈ table ↔ d ∈ s.table))
    (htokens : ∀ κ d, th.tokens.count (κ, d) + (if d = c then l₀.tokens κ else 0) =
      (s.task t).tokens.count (κ, d) + if d = c then l.tokens κ else 0) :
    Agrees { s.setInode c i with
      table := table, lock := lock, task := update s.task t th }
      (update life c l) := by
  subst hlife
  have hfits := h.fits c
  have htouch : Touch s t c th { s.setInode c i with
      table := table, lock := lock, task := update s.task t th } :=
    ⟨rfl, fun d hd => update_of_ne hd _ _, hother, fun d _ => .rfl, fun d _ => rfl,
      fun d _ => rfl, fun κ d hd => by simpa [hd] using htokens κ d⟩
  refine h.move htouch hnodup ⟨hmem, ?_, ?_, ?_, ?_, ?_⟩ fun κ => ?_
  · simpa [State.setInode] using hstate
  · simpa [State.setInode] using hcount
  · exact hfits.born.trans (iff_of_false hborn' hborn)
  · rw [hevicts]
    exact hfits.evicts
  · rw [hdestroys]
    exact hfits.destroys
  · have hself := htokens κ c
    rw [if_pos rfl, if_pos rfl] at hself
    omega

/-- `ihold` on an inode in use. -/
theorem Agrees.ihold {hashed : Bool} {others : ℕ} (th : Thread)
    (hlive : life c = .live hashed others) (htokens : ∀ κ d, th.tokens.count (κ, d) =
      (s.task t).tokens.count (κ, d) + if κ = .ref ∧ d = c then 1 else 0) :
    Agrees { s.ihold c with task := update s.task t th }
      (update life c (.live hashed (others + 1))) := by
  have hfits := h.fitsOf hlive
  refine h.turn hlive th _ s.lock hfits.state (congrArg (· + 1) hfits.count) nofun nofun rfl rfl
    h.nodup hfits.hashed (fun d _ => .rfl) fun κ d => ?_
  rw [htokens]
  by_cases hd : d = c <;> cases κ <;> simp [hd, Life.tokens]
  omega

omit h in
/-- A found inode is hashed. -/
theorem mem_of_findLocked (hfind : s.findLocked sb ino = some n) : n ∈ s.table :=
  List.mem_of_find?_eq_some hfind

/-- A hashed inode without a state. -/
theorem Agrees.live_of_ready (hmem : n ∈ s.table) (hready : (s.inode n).state = .ready) :
    ∃ others, life n = .live true others :=
  Life.of_ready ((h.fits n).hashed.mp hmem) ((h.fits n).state ▸ hready)

/-- A task that sleeps, or goes on, with the same duties. -/
theorem Agrees.setPc (hpc : ∀ κ d, pc.tokens.count (κ, d) = (s.task t).pc.tokens.count (κ, d)) :
    Agrees ({ s with lock := lock, waiters := waiters, asleep := asleep }.setPc t pc) life :=
  h.same ⟨(s.task t).held, pc⟩ rfl rfl rfl rfl rfl rfl fun κ d => by
    rw [Thread.tokens_mk, Thread.tokens, List.count_append, List.count_append, hpc]

theorem Agrees.goOn {pc₀ : Pc} (hpc : (s.task t).pc = pc₀) (htokens : pc.tokens = pc₀.tokens) :
    Advances life ({ s with lock := lock, waiters := waiters, asleep := asleep }.setPc t pc) :=
  (h.setPc fun κ d => by rw [htokens, hpc]).advances

theorem Agrees.park (hpc : (s.task t).pc = .lookup lp) : Advances life (s.park t lp) :=
  h.goOn hpc rfl

/-- A raw inode is given up, or hashed for everybody. -/
theorem Agrees.of_raw {k : Pc} (hraw : life c = .raw) (hpc : (s.task t).pc.tokens = [(.raw, c)])
    (hk : k.tokens = [(.ref, c)]) : Agrees (s.setPc t k) (update life c (.live false 0)) := by
  have hfits := h.fitsOf hraw
  have htouch : Touch s t c ⟨(s.task t).held, k⟩ (s.setPc t k) := by
    refine ⟨rfl, fun d _ => rfl, fun d _ => .rfl, fun d _ => .rfl, fun d _ => rfl,
      fun d _ => rfl, fun κ d hd => ?_⟩
    simp [Thread.tokens, hpc, hk, hd.symm]
  refine h.move htouch h.nodup ⟨hfits.hashed, hfits.state, hfits.count,
    hfits.born.trans (iff_of_false nofun nofun), hfits.evicts, hfits.destroys⟩ fun κ => ?_
  cases κ <;> simp [Thread.tokens, hpc, hk, hraw, Life.tokens] <;> omega

/-- The first free moment of a raw inode: it is hashed, in state `st`. -/
theorem Agrees.hash (th : Thread) (hraw : life c = .raw)
    (hpc : (s.task t).pc.tokens = [(.raw, c)]) (hl : l.hashed = true ∧ l.state = st ∧ l.count = 1 ∧
      l.evicts = 0 ∧ l.destroys = 0)
    (htokens : ∀ κ d, th.tokens.count (κ, d) =
      ((s.task t).held.map (Prod.mk .ref)).count (κ, d) + if d = c then l.tokens κ else 0) :
    Agrees { s.setState c st with
      table := c :: s.table, task := update s.task t th } (update life c l) := by
  have hfits := h.fitsOf hraw
  have hnot : c ∉ s.table := fun hc => nomatch hfits.hashed.mp hc
  have hold : ∀ κ d, (s.task t).tokens.count (κ, d) =
      ((s.task t).held.map (Prod.mk .ref)).count (κ, d) + if κ = .raw ∧ d = c then 1 else 0 := by
    intro κ d
    rw [Thread.tokens, hpc, List.count_append, count_token, List.count_nil, Nat.zero_add]
  obtain ⟨hhashed, hstate, hcount, hevicts, hdestroys⟩ := hl
  refine h.turn hraw th _ s.lock hstate.symm (hfits.count.trans hcount.symm) ?_ nofun hevicts
    hdestroys (List.nodup_cons.mpr ⟨hnot, h.nodup⟩) (by simp [hhashed]) (fun d hd => by simp [hd])
    fun κ d => ?_
  · rintro rfl
    cases hhashed
  · have hone : (if d = c then Life.raw.tokens κ else 0) = if κ = .raw ∧ d = c then 1 else 0 := by
      cases κ <;> simp [Life.tokens]
    rw [htokens, hold, hone]
    omega

omit h in
theorem setState_self (h : (s.inode c).state = st) : s.setState c st = s := by
  have hinode : { s.inode c with state := st } = s.inode c := by
    rw [← h]
  rw [State.setState, State.setInode, hinode, update_eq_self]

theorem lookup_agrees (hpc : (s.task t).pc = .lookup lp) : Advances life (lookup s t lp) := by
  cases lp with
  | find sb ino iget =>
    simp only [lookup]
    split
    · exact h.goOn hpc (by cases iget <;> rfl)
    · next n hfind =>
      split_ifs with hready
      · obtain ⟨others, hlive⟩ := h.live_of_ready (mem_of_findLocked hfind) hready
        have hhold := h.ihold _ hlive fun κ d => count_give (s.task t) (by rw [hpc]; rfl) n d κ
        exact hhold.advances_update hlive (.hold _ _)
      · exact h.park hpc
  | insert c =>
    have hc := h.rawOf hpc rfl
    simp only [lookup]
    split
    · refine (h.hash (l := .loading) ⟨(s.task t).held, .check c true⟩ hc (by rw [hpc]; rfl)
        ⟨rfl, rfl, rfl, rfl, rfl⟩ fun κ d => ?_).advances_update hc .load
      rw [Thread.tokens_mk, List.count_append, Pc.tokens, count_token, List.count_nil]
      cases κ <;> simp [Life.tokens]
    · next n hfind =>
      split_ifs with hready
      · -- the inode is given up first, and then the other one is held
        obtain ⟨others, hlive⟩ := h.live_of_ready (mem_of_findLocked hfind) hready
        have hne : n ≠ c := by
          rintro rfl
          rw [hc] at hlive
          cases hlive
        have hput := h.of_raw (k := .put c none) hc (by rw [hpc]; rfl) rfl
        have hlive' : update life c (.live false 0) n = .live true others := by
          rw [update_of_ne hne, hlive]
        have hhold := hput.ihold (t := t) ⟨(s.task t).held, .put c (some n)⟩ hlive' fun κ d => by
          simp [State.setPc, Pc.tokens, restTokens, count_token]
          omega
        have hsame : (s.ihold n).setPc t (.put c (some n)) =
            { (s.setPc t (.put c none)).ihold n with
              task := update (s.setPc t (.put c none)).task t
                ⟨(s.task t).held, .put c (some n)⟩ } := by
          simp [State.setPc, State.ihold, State.setCount, State.setInode]
        rw [hsame]
        refine ⟨_, hhold, fun d => ?_⟩
        rcases eq_or_ne d n with rfl | hd
        · rw [update_self, hlive]
          exact .hold _ _
        · rw [update_of_ne hd]
          exact Life.next_update (by rw [hc]; exact .giveUp) d
      · exact h.park hpc
  | inserts c =>
    have hc := h.rawOf hpc rfl
    simp only [lookup]
    split
    · have hstate : (s.inode c).state = .ready := by
        rw [(h.fits c).state, hc]
        rfl
      have hready : (Life.live true 0).state = .ready := rfl
      have hhash := h.hash (l := .live true 0) ⟨c :: (s.task t).held, .idle⟩ hc
        (by rw [hpc]; rfl) ⟨rfl, hready, rfl, rfl, rfl⟩ fun κ d => by
          rw [Thread.tokens_mk, List.map_cons, List.cons_append, count_token]
          cases κ <;> simp [Life.tokens, Pc.tokens]
      rw [setState_self hstate] at hhash
      exact hhash.advances_update hc .publish
    · next n hfind =>
      split_ifs with hfreeing
      · exact (h.of_raw hc (by rw [hpc]; rfl) rfl).advances_update hc .giveUp
      · exact h.park hpc

omit h in
/-- The tokens of a task inside `iput`. -/
theorem count_put {h : List ℕ} {κ' : Kind}
    (hpc : pc.tokens = (κ', c) :: restTokens k) (κ : Kind) (d : ℕ) :
    (Thread.mk h pc).tokens.count (κ, d) =
      (Thread.mk h (afterPut k)).tokens.count (κ, d) + if κ = κ' ∧ d = c then 1 else 0 := by
  rw [Thread.tokens_mk, Thread.tokens_mk, hpc, tokens_afterPut, List.count_append,
    List.count_append, count_token]
  omega

/-- A task inside `iput`. -/
theorem Agrees.duty (hpc : (s.task t).pc = pc) (htokens : pc.tokens = (κ, c) :: restTokens k) :
    κ.Allows (life c) ∧ ∀ κ' d, (s.task t).tokens.count (κ', d) =
      (Thread.mk (s.task t).held (afterPut k)).tokens.count (κ', d) +
        if κ' = κ ∧ d = c then 1 else 0 := by
  refine ⟨h.allows_of_pc hpc (htokens ▸ List.mem_cons_self), ?_⟩
  exact count_put (h := (s.task t).held) ((congrArg Pc.tokens hpc).trans htokens)

/-- The first section of `iput`. -/
theorem dropRef_agrees (hpc : (s.task t).pc = .put c k) : Advances life (dropRef s t c k) := by
  obtain ⟨⟨hashed, others, hlive⟩, hrest⟩ := h.duty hpc rfl
  have hfits := h.fitsOf hlive
  have hcount : (s.inode c).count - 1 = others := by
    rw [hfits.count]
    rfl
  simp only [dropRef, hcount]
  split_ifs with hzero hmem
  · obtain ⟨n, rfl⟩ := Nat.exists_eq_succ_of_ne_zero hzero
    refine (h.turn (l := .live hashed n) hlive ⟨(s.task t).held, afterPut k⟩
      { s.inode c with count := n + 1 } s.lock hfits.state rfl nofun nofun rfl rfl h.nodup
      hfits.hashed (fun d _ => .rfl) fun κ d => ?_).advances_update hlive (.drop _ _)
    rw [hrest]
    by_cases hd : d = c <;> cases κ <;> simp [hd, Life.tokens]
    omega
  · obtain rfl : others = 0 := not_not.mp hzero
    obtain rfl : hashed = true := hfits.hashed.mp hmem
    have hsame : ((s.setCount c 0).setState c .freeing).setPc t (.evict c k) =
        { s.setInode c { s.inode c with count := 0, state := .freeing } with
          table := s.table, lock := s.lock,
          task := update s.task t ⟨(s.task t).held, .evict c k⟩ } := by
      simp [State.setPc, State.setState, State.setCount, State.setInode]
    rw [hsame]
    refine (h.turn (l := .evicting) hlive _ _ s.lock rfl rfl nofun nofun rfl rfl h.nodup
      (iff_of_true hmem rfl) (fun d _ => .rfl) fun κ d => ?_).advances_update hlive .evict
    rw [hrest, count_put rfl]
    by_cases hd : d = c <;> cases κ <;> simp [hd, Life.tokens]
  · obtain rfl : others = 0 := not_not.mp hzero
    obtain rfl : hashed = false := Bool.eq_false_iff.mpr fun hh => hmem (hfits.hashed.mpr hh)
    refine (h.turn (l := .dying false) hlive ⟨(s.task t).held, .destroy c k⟩
      { s.inode c with count := 0 } s.lock hfits.state rfl nofun nofun rfl rfl h.nodup
      hfits.hashed (fun d _ => .rfl) fun κ d => ?_).advances_update hlive .free
    rw [hrest, count_put rfl]
    by_cases hd : d = c <;> cases κ <;> simp [hd, Life.tokens]

/-- The caller gets an inode the function had a reference to. -/
theorem Agrees.give (hpc : (s.task t).pc.tokens = [(.ref, c)]) :
    Agrees ({ s with lock := lock, asleep := asleep }.give t c) life := by
  refine h.same ⟨c :: (s.task t).held, .idle⟩ rfl rfl rfl rfl rfl rfl fun κ d => ?_
  rw [Thread.tokens_mk, Thread.tokens, hpc, List.map_cons, List.cons_append, count_token,
    List.count_append, List.count_append, count_token, Pc.tokens, List.count_nil]
  omega

/-- The section that ends the reading of an inode. -/
theorem Agrees.loaded {b : Bool} (hload : life c = .loading)
    (hpc : (s.task t).pc.tokens = [(.load, c)]) (hpc' : pc.tokens = [(.ref, c)])
    (hnodup : table.Nodup) (hmem : c ∈ table ↔ b = true)
    (hother : ∀ d ≠ c, (d ∈ table ↔ d ∈ s.table)) :
    Advances life ({ s.setState c .ready with table := table, lock := some t }.setPc t pc) := by
  have hfits := h.fitsOf hload
  refine (h.turn (l := .live b 0) hload ⟨(s.task t).held, pc⟩ { s.inode c with state := .ready }
    (some t) rfl hfits.count nofun nofun rfl rfl hnodup hmem hother
    fun κ d => ?_).advances_update hload (.loaded _)
  rw [Thread.tokens_mk, Thread.tokens, hpc, hpc', List.count_append, List.count_append, count_token,
    count_token]
  by_cases hd : d = c <;> cases κ <;> simp [hd, Life.tokens]

theorem start_agrees (hpc : (s.task t).pc = .idle) (hstep : start inodes s t a = some s') :
    Advances life s' := by
  have hnone : (s.task t).pc.tokens = [] := by
    rw [hpc]
    rfl
  cases a with
  | find sb ino | allocInode sb ino =>
    cases hstep
    exact h.goOn hpc rfl
  | iget sb ino =>
    simp only [start] at hstep
    split_ifs at hstep
    · cases hstep
      exact h.advances
    · cases hstep
      exact h.goOn hpc rfl
  | anonymous =>
    cases hstep
    refine (h.alloc (l := .live false 0) ⟨s.next :: (s.task t).held, .idle⟩
      ⟨rfl, rfl, rfl, nofun, rfl, rfl⟩ fun κ d => ?_).advances_update
        ((h.fits s.next).born.mp le_rfl) .anonymous
    rw [count_give _ hnone]
    cases κ <;> simp [Life.tokens]
  | hold c =>
    simp only [start] at hstep
    split_ifs at hstep with hheld
    cases hstep
    have hmem : (Kind.ref, c) ∈ (s.task t).tokens :=
      List.mem_append_left _ (List.mem_map_of_mem hheld)
    obtain ⟨hashed, others, hlive⟩ := h.allows hmem
    exact (h.ihold _ hlive fun κ d => count_give _ hnone c d κ).advances_update hlive (.hold _ _)
  | put c =>
    simp only [start] at hstep
    split_ifs at hstep with hheld
    cases hstep
    refine Agrees.advances (h.same ⟨(s.task t).held.erase c, .put c none⟩ rfl rfl rfl rfl rfl rfl
      fun κ d => ?_)
    -- the reference passes from the caller to `iput`
    have hperm : ((s.task t).held.map (Prod.mk Kind.ref)).Perm
        ((.ref, c) :: ((s.task t).held.erase c).map (Prod.mk Kind.ref)) :=
      (List.perm_cons_erase hheld).map _
    rw [Thread.tokens_mk, Thread.tokens, hnone, List.append_nil, hperm.count_eq, count_token,
      List.count_append, Pc.tokens, count_token, restTokens, List.count_nil, Nat.zero_add]
  | result ok | run => cases hstep

/-- A new inode, in the hands of the task that has allocated it. -/
theorem Agrees.alloc_raw (hpc : (s.task t).pc.tokens = []) (hpc' : pc.tokens = [(.raw, s.next)]) :
    Agrees ((s.iAlloc sb ino).setPc t pc) (update life s.next .raw) := by
  refine h.alloc ⟨(s.task t).held, pc⟩ ⟨rfl, rfl, rfl, nofun, rfl, rfl⟩ fun κ d => ?_
  rw [Thread.tokens_mk, Thread.tokens, hpc, hpc', List.count_append, List.count_append,
    count_token]
  cases κ <;> simp [Life.tokens]

theorem Agrees.evict (hpc : (s.task t).pc = .evict c k) :
    Advances life ({ s with evicts := update s.evicts c (s.evicts c + 1) }.setPc t
      (.unhash c k)) := by
  obtain ⟨(hlife : life c = .evicting), hold⟩ := h.duty hpc rfl
  have hfits := h.fitsOf hlife
  have htouch : Touch s t c ⟨(s.task t).held, .unhash c k⟩
      ({ s with evicts := update s.evicts c (s.evicts c + 1) }.setPc t (.unhash c k)) := by
    refine ⟨rfl, fun d _ => rfl, fun d _ => .rfl, fun d _ => .rfl,
      fun d hd => update_of_ne hd _ _, fun d _ => rfl, fun κ d hd => ?_⟩
    rw [count_put rfl, hold, if_neg fun hc => hd hc.2, if_neg fun hc => hd hc.2]
  refine (h.move (l := .evicted) htouch h.nodup ⟨hfits.hashed, hfits.state, hfits.count,
    hfits.born.trans (iff_of_false nofun nofun), ?_, hfits.destroys⟩
    fun κ => ?_).advances_update hlife .evicted
  · refine (update_self _ _ _).trans ?_
    rw [hfits.evicts]
    rfl
  · rw [count_put rfl, hold, hlife]
    cases κ <;> simp [Life.tokens] <;> omega

/-- The second section of `iput`. -/
theorem Agrees.unhash (hpc : (s.task t).pc = .unhash c k) :
    Advances life ((s.unhash t c).setPc t (.unhashWake c k)) := by
  obtain ⟨(hlife : life c = .evicted), hold⟩ := h.duty hpc rfl
  have hfits := h.fitsOf hlife
  have hsame : s.setInode c (s.inode c) = s := by
    rw [State.setInode, update_eq_self]
  have hturn := h.turn (t := t) (l := .dying true) hlife ⟨(s.task t).held, .unhashWake c k⟩
    (s.inode c) (some t) hfits.state hfits.count nofun nofun rfl rfl (h.nodup.erase c)
    (iff_of_false h.nodup.not_mem_erase nofun) (fun d hd => List.mem_erase_of_ne hd) fun κ d => by
      rw [count_put rfl, hold]
      by_cases hd : d = c <;> cases κ <;> simp [hd, Life.tokens]
  rw [hsame] at hturn
  exact hturn.advances_update hlife .unhash

theorem Agrees.destroy (hpc : (s.task t).pc = .destroy c k) :
    Advances life ({ s with destroys := update s.destroys c (s.destroys c + 1) }.setPc t
      (afterPut k)) := by
  obtain ⟨⟨cached, hlife⟩, hold⟩ := h.duty hpc rfl
  have hfits := h.fitsOf hlife
  have htouch : Touch s t c ⟨(s.task t).held, afterPut k⟩
      ({ s with destroys := update s.destroys c (s.destroys c + 1) }.setPc t
        (afterPut k)) := by
    refine ⟨rfl, fun d _ => rfl, fun d _ => .rfl, fun d _ => .rfl, fun d _ => rfl,
      fun d hd => update_of_ne hd _ _, fun κ d hd => ?_⟩
    rw [hold, if_neg fun hc => hd hc.2, Nat.add_zero]
  refine (h.move (l := .dead cached) htouch h.nodup ⟨hfits.hashed, ?_, hfits.count,
    hfits.born.trans (iff_of_false nofun nofun), ?_, ?_⟩
    fun κ => ?_).advances_update hlife (.destroy _)
  · rw [← show (Life.dying cached).state = (Life.dead cached).state by cases cached <;> rfl]
    exact hfits.state
  · rw [← show (Life.dying cached).evicts = (Life.dead cached).evicts by cases cached <;> rfl]
    exact hfits.evicts
  · refine (update_self _ _ _).trans ?_
    rw [hfits.destroys]
    rfl
  · rw [hold, hlife]
    cases κ <;> simp [Life.tokens]
    omega

/-- Every step of the cache moves inodes along their lives. -/
theorem Agrees.step (hstep : Icache.step inodes s (t, a) = some s') : Advances life s' := by
  have hnew : life s.next = .unborn := (h.fits s.next).born.mp le_rfl
  unfold Icache.step at hstep
  dsimp only at hstep
  split at hstep
  next hpc => exact start_agrees h hpc hstep
  next l hpc =>
    split_ifs at hstep
    cases hstep
    exact lookup_agrees h hpc
  next l hpc =>
    split_ifs at hstep
    cases hstep
    exact h.goOn hpc rfl
  next l hpc =>
    cases hstep
    exact h.goOn hpc rfl
  next sb ino ok hpc =>
    split_ifs at hstep
    · cases hstep
      exact (h.alloc_raw (by rw [hpc]; rfl) rfl).advances_update hnew .alloc
    · cases hstep
      exact h.goOn hpc rfl
  next c own hpc =>
    -- `I_NEW` is seen by the task that has hashed the inode, and by nobody else
    have hlife := h.allows_of_pc hpc (List.mem_singleton_self _)
    have hstate := (h.fits c).state
    split_ifs at hstep with hnew
    · cases hstep
      cases own with
      | true => exact h.goOn hpc rfl
      | false =>
        obtain ⟨hashed, others, hlive⟩ := hlife
        rw [hlive, hnew] at hstate
        cases hstate
    · cases hstep
      cases own with
      | true =>
        rw [show life c = .loading from hlife] at hstate
        exact absurd hstate hnew
      | false => exact (h.give (by rw [hpc]; rfl)).advances
  next c ok hpc =>
    cases hstep
    exact h.goOn hpc (by cases ok <;> rfl)
  next c hpc =>
    split_ifs at hstep
    cases hstep
    have hload : life c = .loading := h.allows_of_pc hpc (List.mem_singleton_self (Kind.load, c))
    have hmem : c ∈ s.table := (h.fits c).hashed.mpr (by rw [hload]; rfl)
    exact h.loaded (b := true) hload (by rw [hpc]; rfl) rfl h.nodup (iff_of_true hmem rfl)
      fun d _ => .rfl
  next c hpc =>
    cases hstep
    exact (h.give (by rw [hpc]; rfl)).advances
  next c hpc =>
    split_ifs at hstep
    cases hstep
    have hload : life c = .loading := h.allows_of_pc hpc (List.mem_singleton_self (Kind.load, c))
    exact h.loaded (b := false) hload (by rw [hpc]; rfl) rfl (h.nodup.erase c)
      (iff_of_false h.nodup.not_mem_erase nofun) fun d hd => List.mem_erase_of_ne hd
  next c hpc =>
    cases hstep
    exact h.goOn hpc rfl
  next sb ino ok hpc =>
    split_ifs at hstep
    · cases hstep
      exact (h.alloc_raw (by rw [hpc]; rfl) rfl).advances_update hnew .alloc
    · cases hstep
      exact h.goOn hpc rfl
  next c ok hpc =>
    cases hstep
    cases ok with
    | true => exact h.goOn hpc rfl
    | false =>
      have hraw := h.rawOf hpc rfl
      exact (h.of_raw hraw (by rw [hpc]; rfl) rfl).advances_update hraw .giveUp
  next c k hpc =>
    split_ifs at hstep
    cases hstep
    exact dropRef_agrees h hpc
  next c k hpc =>
    cases hstep
    exact h.evict hpc
  next c k hpc =>
    split_ifs at hstep
    cases hstep
    exact h.unhash hpc
  next c k hpc =>
    cases hstep
    exact h.goOn hpc rfl
  next c k hpc =>
    cases hstep
    exact h.destroy hpc
  next => cases hstep

end

end

end Nuvix.Icache
