import Nuvix.Drivers.Virtqueue
import Nuvix.Lib.Linked

/-!
# What a virtqueue keeps

The free descriptors and the chains of the requests in flight are linked through the same
field. They stay apart because together they list every descriptor exactly once: `vq_add` cuts
a chain off the front of the free list without writing a link, and `vq_get_buf` puts a chain
back in front, writing the link of its last descriptor only. Both rings are in step with what
went through them, so the indices may wrap as they like.
-/

namespace Nuvix.Virtio

open Transition RingBuffer LinkedList Function

variable {desc desc' : ℕ → Desc} {nOut count i a b n fuel : ℕ} {l : List ℕ} {sg : List Sg} {x : ℕ}
  {stop : ℕ → Prop} {r : Request}

/-! ### Chains -/

/-- The successor of a descriptor. -/
def succ (desc : ℕ → Desc) (i : ℕ) : ℕ := (desc i).next

/-- The descriptors `l` carry the entries `sg`, the first of which is entry `i` of `count`. -/
def Filled (desc : ℕ → Desc) (nOut count : ℕ) : ℕ → List ℕ → List Sg → Prop
  | _, [], [] => True
  | i, x :: l, g :: sg =>
    ((desc x).addr = g.addr ∧ (desc x).len = g.len ∧ (desc x).flags = sgFlags nOut count i) ∧
      Filled desc nOut count (i + 1) l sg
  | _, _, _ => False

theorem Filled.length (h : Filled desc nOut count i l sg) : l.length = sg.length := by
  induction sg generalizing i l with
  | nil => cases l <;> simp_all [Filled]
  | cons g sg ih =>
    cases l with
    | nil => exact absurd h (by simp [Filled])
    | cons x l => simpa using ih h.2

theorem Filled.congr (hdesc : ∀ x ∈ l, desc' x = desc x) (h : Filled desc nOut count i l sg) :
    Filled desc' nOut count i l sg := by
  induction sg generalizing i l with
  | nil => cases l <;> simp_all [Filled]
  | cons g sg ih =>
    cases l with
    | nil => exact absurd h (by simp [Filled])
    | cons x l =>
      refine ⟨?_, ih (fun y hy => hdesc y (List.mem_cons_of_mem _ hy)) h.2⟩
      rw [hdesc x List.mem_cons_self]
      exact h.1

theorem Filled.last {e : Sg} (h : Filled desc nOut count i (l ++ [x]) (sg ++ [e])) :
    (desc x).addr = e.addr := by
  induction l generalizing i sg with
  | nil =>
    cases sg with
    | nil => exact h.1.1
    | cons g sg => exact absurd h.length (by simp)
  | cons y l ih =>
    cases sg with
    | nil => exact absurd h.length (by simp)
    | cons g sg => exact ih h.2

theorem Filled.get (h : Filled desc nOut count i l sg) {j : ℕ} (hj : j < l.length)
    (hj' : j < sg.length) : (desc l[j]).addr = sg[j].addr ∧ (desc l[j]).len = sg[j].len ∧
      (desc l[j]).flags = sgFlags nOut count (i + j) := by
  induction sg generalizing i l j with
  | nil => exact absurd hj' (by simp)
  | cons g sg ih =>
    cases l with
    | nil => exact absurd hj (by simp)
    | cons x l =>
      cases j with
      | zero => exact h.1
      | succ j =>
        have hget := ih h.2 (Nat.lt_of_succ_lt_succ hj) (Nat.lt_of_succ_lt_succ hj')
        rwa [Nat.add_right_comm, Nat.add_assoc] at hget

/-- The flag that continues a chain is set on all entries but the last. -/
theorem sgFlags_next (nOut count i : ℕ) :
    sgFlags nOut count i &&& descNext ≠ 0 ↔ i + 1 < count := by
  by_cases hout : i < nOut <;> by_cases hlast : i + 1 < count <;>
    simp [sgFlags, hout, hlast, descNext, descWrite]

/-- The flag that lets the device write is set on the entries after the first `nOut`. -/
theorem sgFlags_write (nOut count i : ℕ) :
    sgFlags nOut count i &&& descWrite ≠ 0 ↔ nOut ≤ i := by
  by_cases hout : i < nOut <;> by_cases hlast : i + 1 < count <;>
    simp [sgFlags, hout, hlast, descNext, descWrite] <;> omega

/-- A list is found by following the links from its start. -/
theorem follow_eq (h : Linked stop (succ desc) a l) : follow desc l.length a = l := by
  induction l generalizing a with
  | nil => rfl
  | cons x l ih =>
    obtain ⟨rfl, hrest⟩ := h
    simp only [List.length_cons, follow, List.cons.injEq, true_and]
    exact ih hrest

/-- Filling in a list of descriptors leaves every link as it is. -/
theorem fill_spec (nOut count i : ℕ) (hlen : l.length = sg.length) (hnodup : l.Nodup)
    (hl : Linked (· = b) (succ desc) a l) :
    ∃ desc', fill nOut count i sg desc a = (desc', b) ∧ succ desc' = succ desc ∧
      (∀ x ∉ l, desc' x = desc x) ∧ Filled desc' nOut count i l sg := by
  induction sg generalizing i l desc a with
  | nil =>
    obtain rfl : l = [] := List.length_eq_zero_iff.mp hlen
    obtain rfl : a = b := hl
    exact ⟨desc, rfl, rfl, fun _ _ => rfl, trivial⟩
  | cons g sg ih =>
    cases l with
    | nil => exact absurd hlen (by simp)
    | cons x l =>
      obtain ⟨rfl, hrest⟩ := hl
      obtain ⟨hx, hnodup⟩ := List.nodup_cons.mp hnodup
      obtain ⟨d, hd⟩ : ∃ d : Desc, d = ⟨g.addr, g.len, sgFlags nOut count i, (desc a).next⟩ :=
        ⟨_, rfl⟩
      have hsucc : succ (update desc a d) = succ desc := by
        funext y
        by_cases hy : y = a
        · rw [hy, succ, update_self, hd, succ]
        · rw [succ, update_of_ne hy, succ]
      have hrest' : Linked (· = b) (succ (update desc a d)) (desc a).next l := by
        rw [hsucc]
        exact hrest
      obtain ⟨desc', hfill, hlinks, hother, hfilled⟩ :=
        ih (i + 1) (Nat.succ.inj hlen) hnodup hrest'
      refine ⟨desc', ?_, hlinks.trans hsucc, fun y hy => ?_, ?_, hfilled⟩
      · rw [fill, ← hd, hfill]
      · rw [List.mem_cons, not_or] at hy
        rw [hother y hy.2, update_of_ne hy.1]
      · -- The rest of the loop does not come back to this descriptor.
        rw [hother a hx, update_self, hd]
        exact ⟨rfl, rfl, rfl⟩

/-- A chain goes on at a descriptor unless it is the last one. -/
theorem Filled.next_iff (h : Filled desc nOut count i (x :: l) sg)
    (hcount : i + sg.length = count) : (desc x).flags &&& descNext ≠ 0 ↔ l ≠ [] := by
  have hlen := h.length
  cases sg with
  | nil => exact absurd h (by simp [Filled])
  | cons g sg =>
    simp only [List.length_cons] at hlen hcount
    rw [h.1.2.2, sgFlags_next, ← List.length_pos_iff]
    omega

/-- The walk along a chain stops at its last descriptor. -/
theorem walk_spec (hl : Linked stop (succ desc) a (l ++ [x]))
    (hfilled : Filled desc nOut count i (l ++ [x]) sg) (hcount : i + sg.length = count)
    (hfuel : l.length < fuel) : walk desc fuel a n = some (x, n + (l ++ [x]).length) := by
  induction l generalizing i a sg fuel n with
  | nil =>
    obtain ⟨rfl, -⟩ := hl
    obtain ⟨fuel, rfl⟩ := Nat.exists_eq_add_of_lt hfuel
    rw [walk, if_neg (by simpa using (hfilled.next_iff hcount).not)]
    rfl
  | cons y l ih =>
    obtain ⟨rfl, hrest⟩ := hl
    obtain ⟨fuel, rfl⟩ := Nat.exists_eq_add_of_lt hfuel
    have hgoes : (desc a).flags &&& descNext ≠ 0 := (hfilled.next_iff hcount).mpr (by simp)
    cases sg with
    | nil => exact absurd hfilled (by simp [Filled])
    | cons g sg =>
      have hrest' : Linked stop (succ desc) (desc a).next (l ++ [x]) := hrest
      simp only [List.length_cons] at hcount ⊢
      rw [walk, if_pos hgoes, ih hrest' hfilled.2 (by omega) (by omega)]
      simp only [List.cons_append, List.length_cons]
      rw [Nat.add_assoc, Nat.add_comm 1]

/-! ### The invariant -/

/-- A request whose descriptors are linked and carry its entries. -/
structure Carries (desc : ℕ → Desc) (r : Request) : Prop where
  linked : Linked (fun _ => True) (succ desc) r.head r.chain
  filled : Filled desc r.nOut r.sg.length 0 r.chain r.sg

/-- Only the descriptors of the request matter. -/
theorem Carries.congr (hdesc : ∀ x ∈ r.chain, desc' x = desc x) (h : Carries desc r) :
    Carries desc' r where
  linked := h.linked.congr fun x hx => by rw [succ, hdesc x hx, succ]
  filled := h.filled.congr hdesc

/-- The free descriptors, every head that was published and how many the device has taken,
everything the device has handed back and how many of it the driver knows of and has taken. -/
structure Ledger where
  free : List ℕ
  published : List ℕ
  fetched : ℕ
  completed : List UsedElem
  shown : ℕ
  taken : ℕ

/-- The queue of `2 ^ k` descriptors is in step with the ledger. -/
structure Ok (k : ℕ) (s : System) (g : Ledger) : Prop where
  num : s.vq.num = 2 ^ k
  fault : s.fault = none
  free : Linked (fun _ => True) (succ s.vq.desc) s.vq.freeHead g.free
  numFree : s.vq.numFree = g.free.length
  perm : (g.free ++ s.flight.flatMap Request.chain).Perm (List.range s.vq.num)
  carries : ∀ r ∈ s.flight, Carries s.vq.desc r
  cookie : ∀ r ∈ s.flight, s.vq.cookies r.head = some r.cookie
  avail : Holds (2 ^ k) idxRange s.vq.availRing s.vq.availIdx s.devAvail g.published g.fetched
  availIdx : s.vq.availRingIdx = s.vq.availIdx
  used : Holds (2 ^ k) idxRange s.vq.usedRing s.devUsed s.vq.lastUsedIdx g.completed g.taken
  usedIdx : s.vq.usedRingIdx = g.shown % idxRange
  taken_le : g.taken ≤ g.shown
  shown_le : g.shown ≤ g.completed.length
  fetched : g.fetched = g.completed.length + s.devHeads.length
  heads : (s.flight.map Request.head).Perm
    (g.published.drop g.fetched ++ s.devHeads ++ (g.completed.drop g.taken).map UsedElem.id)
  cookies : s.added.Perm (s.returned ++ s.flight.map Request.cookie)

/-- The invariant of a queue of `2 ^ k` descriptors. -/
def Inv (k : ℕ) (s : System) : Prop := ∃ g, Ok k s g

section Facts

variable {k : ℕ} {s : System} {g : Ledger} {r : Request} {cookie : ℕ}

/-- The mask that picks a slot is a remainder. -/
theorem and_num (h : Ok k s g) (idx : ℕ) : idx &&& (s.vq.num - 1) = idx % 2 ^ k := by
  rw [h.num, Nat.and_two_pow_sub_one_eq_mod]

theorem pow_dvd_idxRange (hk : k ≤ 15) : 2 ^ k ∣ idxRange :=
  (Nat.pow_dvd_pow 2 (by omega : k ≤ 16)).trans (by decide)

theorem pow_lt_idxRange (hk : k ≤ 15) : 2 ^ k < idxRange :=
  (Nat.pow_le_pow_right (by decide) hk).trans_lt (by decide)

theorem heads_sublist (flight : List Request) :
    (flight.map Request.head).Sublist (flight.flatMap Request.chain) := by
  induction flight with
  | nil => exact List.Sublist.refl _
  | cons r flight ih =>
    rw [List.map_cons, List.flatMap_cons, Request.chain, List.cons_append]
    exact (ih.trans (List.sublist_append_right _ _)).cons_cons _

/-- Every request has a descriptor. -/
theorem length_le_flatMap (flight : List Request) :
    flight.length ≤ (flight.flatMap Request.chain).length := by
  simpa using (heads_sublist flight).length_le

namespace Ok

theorem nodup (h : Ok k s g) : (g.free ++ s.flight.flatMap Request.chain).Nodup :=
  h.perm.nodup_iff.mpr List.nodup_range

/-- The heads of the requests in flight are distinct. -/
theorem heads_nodup (h : Ok k s g) : (s.flight.map Request.head).Nodup := by
  refine List.Nodup.sublist ?_ (List.nodup_append.mp h.nodup).2.1
  exact heads_sublist s.flight

theorem free_disjoint (h : Ok k s g) (hr : r ∈ s.flight) (hx : x ∈ r.chain) : x ∉ g.free := by
  intro hfree
  have hmem : x ∈ s.flight.flatMap Request.chain := List.mem_flatMap.mpr ⟨r, hr, hx⟩
  exact List.disjoint_of_nodup_append h.nodup hfree hmem

/-- No request has more descriptors than there are. -/
theorem length_le (h : Ok k s g) :
    g.free.length + (s.flight.flatMap Request.chain).length = 2 ^ k := by
  rw [← List.length_append, h.perm.length_eq, List.length_range, h.num]

/-- The requests in flight are what was published and has not been taken back. -/
theorem flight_length (h : Ok k s g) : s.flight.length + g.taken = g.published.length := by
  have hheads := h.heads.length_eq
  have havail := h.avail.le
  have hused := h.used.le
  have hfetched := h.fetched
  simp only [List.length_map, List.length_append, List.length_drop] at hheads
  omega

end Ok

/-! ### Steps of the driver -/

/-- The front of the free list that `vq_add` takes. -/
theorem Ok.take (h : Ok k s g) (hsg : sg ≠ []) (hcount : sg.length ≤ s.vq.numFree) :
    ∃ rest left b, g.free = (s.vq.freeHead :: rest) ++ left ∧ rest.length + 1 = sg.length ∧
      Linked (· = b) (succ s.vq.desc) s.vq.freeHead (s.vq.freeHead :: rest) ∧
      Linked (fun _ => True) (succ s.vq.desc) b left := by
  have hlinked := h.free
  rw [h.numFree] at hcount
  rw [← List.take_append_drop sg.length g.free] at hlinked
  obtain ⟨b, htake, hdrop⟩ := hlinked.split
  have hlen : (g.free.take sg.length).length = sg.length := List.length_take_of_le hcount
  cases hchain : g.free.take sg.length with
  | nil =>
    rw [hchain, List.length_nil] at hlen
    exact absurd (List.length_eq_zero_iff.mp hlen.symm) hsg
  | cons x rest =>
    rw [hchain] at htake hlen
    obtain ⟨rfl, -⟩ := id htake
    refine ⟨rest, g.free.drop sg.length, b, ?_, hlen, htake, hdrop⟩
    rw [← hchain, List.take_append_drop]

/-- `vq_add` with enough free descriptors. -/
theorem System.add_of_le (hcount : sg.length ≤ s.vq.numFree)
    (hfill : fill nOut sg.length 0 sg s.vq.desc s.vq.freeHead = (desc', b)) :
    s.add sg nOut cookie = { s with
      vq := { s.vq with
        desc := desc'
        freeHead := b
        numFree := s.vq.numFree - sg.length
        cookies := update s.vq.cookies s.vq.freeHead (some cookie)
        availRing := update s.vq.availRing (s.vq.availIdx &&& (s.vq.num - 1)) s.vq.freeHead
        availRingIdx := (s.vq.availIdx + 1) % idxRange
        availIdx := (s.vq.availIdx + 1) % idxRange }
      flight := ⟨sg, nOut, cookie, s.vq.freeHead,
        follow s.vq.desc (sg.length - 1) (s.vq.desc s.vq.freeHead).next⟩ :: s.flight
      added := s.added ++ [cookie] } := by
  simp only [System.add, vqAdd, gt_iff_lt, if_neg hcount.not_gt, hfill]

theorem System.add_flight (nOut cookie : ℕ) (hcount : sg.length ≤ s.vq.numFree) :
    ∃ rest, (s.add sg nOut cookie).flight = ⟨sg, nOut, cookie, s.vq.freeHead, rest⟩ :: s.flight ∧
      (s.add sg nOut cookie).devHeads = s.devHeads := by
  rw [System.add_of_le hcount rfl]
  exact ⟨_, rfl, rfl⟩

/-- `vq_add` without enough free descriptors. -/
theorem System.add_of_gt (hfull : s.vq.numFree < sg.length) : s.add sg nOut cookie = s := by
  rw [System.add, vqAdd, if_pos hfull]

section

variable (hk : k ≤ 15)
include hk

/-- `vq_add` publishes the head of the free list. -/
theorem Ok.add (h : Ok k s g) (hsg : sg ≠ []) (hcount : sg.length ≤ s.vq.numFree)
    (nOut cookie : ℕ) : ∃ left, Ok k (s.add sg nOut cookie)
      { g with free := left, published := g.published ++ [s.vq.freeHead] } := by
  obtain ⟨rest, left, b, hfree, hlen, hchain, hleft⟩ := h.take hsg hcount
  have hnodup := h.nodup
  rw [hfree, List.append_assoc] at hnodup
  have hlen' : (s.vq.freeHead :: rest).length = sg.length := hlen
  obtain ⟨desc', hfill, hlinks, hother, hfilled⟩ :=
    fill_spec nOut sg.length 0 hlen' (List.nodup_append.mp hnodup).1 hchain
  have hfollow : follow s.vq.desc (sg.length - 1) (s.vq.desc s.vq.freeHead).next = rest := by
    have hrest := follow_eq hchain.2
    rwa [show rest.length = sg.length - 1 by omega] at hrest
  have hnew : ∀ r ∈ s.flight, ∀ x ∈ r.chain, x ∉ s.vq.freeHead :: rest := by
    intro r hr x hx hmem
    exact h.free_disjoint hr hx (hfree ▸ List.mem_append_left _ hmem)
  have hroom : g.published.length < g.fetched + 2 ^ k := by
    have hflight := h.flight_length
    have hle := length_le_flatMap s.flight
    have hnum := h.length_le
    have hfetched := h.fetched
    have hused := h.used.le
    have hnumFree := h.numFree
    omega
  have havail := h.avail.push_one (pow_dvd_idxRange hk) hroom s.vq.freeHead
  rw [← and_num h] at havail
  rw [System.add_of_le hcount hfill, hfollow]
  refine ⟨left, ?_⟩
  exact
    { num := h.num
      fault := h.fault
      free := by rwa [hlinks]
      numFree := by
        have hnumFree := h.numFree
        rw [hfree] at hnumFree
        simp only [List.length_append, List.length_cons] at hnumFree
        change s.vq.numFree - sg.length = left.length
        omega
      perm := by
        refine List.Perm.trans ?_ h.perm
        rw [hfree, List.flatMap_cons, ← List.append_assoc]
        exact List.perm_append_comm.append_right _
      carries := by
        intro r hr
        rcases List.mem_cons.mp hr with rfl | hr
        · refine ⟨?_, hfilled⟩
          rw [hlinks]
          exact hchain.mono fun _ _ => trivial
        · exact (h.carries r hr).congr fun x hx => hother x (hnew r hr x hx)
      cookie := by
        intro r hr
        rcases List.mem_cons.mp hr with rfl | hr
        · exact update_self _ _ _
        · have hne : r.head ≠ s.vq.freeHead := by
            intro heq
            exact hnew r hr r.head List.mem_cons_self (heq ▸ List.mem_cons_self)
          exact (update_of_ne hne _ _).trans (h.cookie r hr)
      avail := havail
      availIdx := rfl
      used := h.used
      usedIdx := h.usedIdx
      taken_le := h.taken_le
      shown_le := h.shown_le
      fetched := h.fetched
      heads := by
        have hdrop : (g.published ++ [s.vq.freeHead]).drop g.fetched =
            g.published.drop g.fetched ++ [s.vq.freeHead] :=
          List.drop_append_of_le_length h.avail.le
        rw [hdrop, List.map_cons, List.append_assoc, List.append_assoc]
        refine (h.heads.cons _).trans ?_
        rw [List.append_assoc]
        exact List.perm_middle.symm
      cookies := by
        rw [List.map_cons]
        refine (h.cookies.append_right _).trans ?_
        rw [List.append_assoc]
        exact (List.perm_append_singleton _ _).append_left _ }

/-- The number of elements `vq_get_buf` sees. -/
theorem Ok.pending (h : Ok k s g) :
    idxSub s.vq.usedRingIdx s.vq.lastUsedIdx = g.shown - g.taken := by
  have hfits := h.used.fits
  have htaken := h.taken_le
  have hshown := h.shown_le
  have hlt := pow_lt_idxRange hk
  rw [idxSub, h.usedIdx, h.used.tail]
  exact sub_mod_mod htaken (by omega)

/-- The device never hands back more than was published. -/
theorem Ok.pending_le (h : Ok k s g) :
    idxSub s.vq.usedRingIdx s.vq.lastUsedIdx ≤ idxSub s.vq.availIdx s.vq.lastUsedIdx := by
  have hflight := h.flight_length
  have hle := length_le_flatMap s.flight
  have hnum := h.length_le
  have hlt := pow_lt_idxRange hk
  have hfetched := h.fetched
  have hpublished := h.avail.le
  have hshown := h.shown_le
  rw [h.pending hk, idxSub, h.avail.head, h.used.tail, sub_mod_mod (by omega) (by omega)]
  omega

omit hk in
/-- The request that the device has handed back first is in flight. -/
theorem Ok.first (h : Ok k s g) (hlt : g.taken < g.completed.length) :
    ∃ r flight, r.head = g.completed[g.taken].id ∧ s.flight.Perm (r :: flight) ∧
      (s.flight.eraseP fun q => q.head = g.completed[g.taken].id) = flight := by
  have hmem : g.completed[g.taken].id ∈ s.flight.map Request.head := by
    rw [h.heads.mem_iff]
    refine List.mem_append_right _ (List.mem_map.mpr ⟨_, ?_, rfl⟩)
    rw [List.drop_eq_getElem_cons hlt]
    exact List.mem_cons_self
  obtain ⟨q, hq, hhead⟩ := List.mem_map.mp hmem
  obtain ⟨r, l₁, l₂, -, hr, hflight, herase⟩ :=
    List.exists_of_eraseP (p := fun q => decide (q.head = g.completed[g.taken].id)) hq
      (decide_eq_true hhead)
  refine ⟨r, l₁ ++ l₂, of_decide_eq_true hr, ?_, herase⟩
  rw [hflight]
  exact List.perm_middle

omit hk in
/-- The walk along the chain of a request ends. -/
theorem Ok.walk (h : Ok k s g) (hr : r ∈ s.flight) {l : List ℕ} (hchain : r.chain = l ++ [x])
    (n : ℕ) : walk s.vq.desc s.vq.num r.head n = some (x, n + r.chain.length) := by
  have hfuel : l.length < s.vq.num := by
    have hnum := h.length_le
    have hone : r.chain.length ≤ (s.flight.flatMap Request.chain).length :=
      (List.sublist_flatten_of_mem (List.mem_map.mpr ⟨r, hr, rfl⟩)).length_le
    rw [hchain, List.length_append, List.length_singleton] at hone
    rw [h.num]
    omega
  have hcarries := h.carries r hr
  rw [hchain]
  exact walk_spec (hchain ▸ hcarries.linked) (hchain ▸ hcarries.filled) (Nat.zero_add _) hfuel

/-- `vq_get_buf` when the driver can see something: no assertion fails, the walk ends at the
last descriptor of the request, and the cookie is that of the request. -/
theorem Ok.getBuf_eq (h : Ok k s g) (hshown : g.taken < g.shown)
    (hlt : g.taken < g.completed.length) (hr : r ∈ s.flight)
    (hhead : r.head = g.completed[g.taken].id) {l : List ℕ} (hchain : r.chain = l ++ [x]) :
    vqGetBuf s.vq = .ok (some (r.cookie, g.completed[g.taken].len), { s.vq with
      cookies := update s.vq.cookies r.head none
      numFree := s.vq.numFree + r.chain.length
      desc := update s.vq.desc x { s.vq.desc x with next := s.vq.freeHead }
      freeHead := r.head
      lastUsedIdx := (s.vq.lastUsedIdx + 1) % idxRange }) := by
  have hpending : idxSub s.vq.usedRingIdx s.vq.lastUsedIdx ≠ 0 := by
    rw [h.pending hk]
    omega
  have helem : s.vq.usedRing (s.vq.lastUsedIdx &&& (s.vq.num - 1)) = g.completed[g.taken] := by
    rw [and_num h]
    exact h.used.peek (pow_dvd_idxRange hk) hlt
  have hnum : r.head < s.vq.num := by
    have hmem : r.head ∈ s.flight.flatMap Request.chain :=
      List.mem_flatMap.mpr ⟨r, hr, List.mem_cons_self⟩
    exact List.mem_range.mp (h.perm.mem_iff.mp (List.mem_append_right _ hmem))
  have hwalk := h.walk hr hchain s.vq.numFree
  simp only [vqGetBuf, if_neg hpending, gt_iff_lt, if_neg (h.pending_le hk).not_gt, helem,
    ← hhead, ge_iff_le, if_neg hnum.not_ge, h.cookie r hr, hwalk]

omit hk in
theorem System.getBuf_devHeads (s : System) : s.getBuf.devHeads = s.devHeads := by
  unfold System.getBuf
  split <;> rfl

/-- `vq_get_buf` when the driver can see nothing. -/
theorem Ok.getBuf_none (h : Ok k s g) (hnone : g.taken = g.shown) :
    vqGetBuf s.vq = .ok (none, s.vq) := by
  rw [vqGetBuf, if_pos]
  rw [h.pending hk]
  omega

/-- `vq_get_buf` frees the chain of the request that was handed back first. -/
theorem Ok.getBuf_some (h : Ok k s g) (hshown : g.taken < g.shown)
    (hlt : g.taken < g.completed.length) :
    ∃ r ∈ s.flight, r.head = g.completed[g.taken].id ∧ s.flight.Perm (r :: s.getBuf.flight) ∧
      (∃ vq, vqGetBuf s.vq = .ok (some (r.cookie, g.completed[g.taken].len), vq) ∧
        vq.freeHead = r.head) ∧
      Ok k s.getBuf { g with free := r.chain ++ g.free, taken := g.taken + 1 } := by
  obtain ⟨r, flight, hhead, hflight, herase⟩ := h.first hlt
  have hr : r ∈ s.flight := hflight.mem_iff.mpr List.mem_cons_self
  obtain ⟨l, x, hchain⟩ : ∃ l x, r.chain = l ++ [x] :=
    ⟨_, _, (List.dropLast_append_getLast (List.cons_ne_nil _ _)).symm⟩
  have hget := h.getBuf_eq hk hshown hlt hr hhead hchain
  -- The chains of the other requests do not share a descriptor with this one.
  have hperm : (g.free ++ (r.chain ++ flight.flatMap Request.chain)).Perm
      (List.range s.vq.num) := by
    refine List.Perm.trans ?_ h.perm
    exact (hflight.flatMap_right Request.chain).symm.append_left _
  have hnodup := hperm.nodup_iff.mpr List.nodup_range
  have hnodupR := (List.nodup_append.mp (List.nodup_append.mp hnodup).2.1)
  have hapart : ∀ q ∈ flight, ∀ y ∈ q.chain, y ∉ r.chain := by
    intro q hq y hy hmem
    exact hnodupR.2.2 y hmem y (List.mem_flatMap.mpr ⟨q, hq, hy⟩) rfl
  have hx : x ∉ l := by
    have := hnodupR.1
    rw [hchain, List.nodup_append] at this
    exact fun hmem => this.2.2 x hmem x List.mem_cons_self rfl
  have hsucc : succ (update s.vq.desc x { s.vq.desc x with next := s.vq.freeHead }) =
      update (succ s.vq.desc) x s.vq.freeHead := by
    funext y
    by_cases hy : y = x
    · rw [hy, succ, update_self, update_self]
    · rw [succ, update_of_ne hy, update_of_ne hy, succ]
  have hfreex : x ∉ g.free := h.free_disjoint hr (hchain ▸ List.mem_append_right _ (by simp))
  have hdrop : g.completed.drop g.taken = g.completed[g.taken] :: g.completed.drop (g.taken + 1) :=
    List.drop_eq_getElem_cons hlt
  have hself : s.getBuf.flight = flight := by
    rw [System.getBuf, hget]
    simp only [hhead, herase]
  refine ⟨r, hr, hhead, hself ▸ hflight, ⟨_, hget, rfl⟩, ?_⟩
  rw [System.getBuf, hget]
  simp only [hhead, herase]
  rw [← hhead]
  exact
    { num := h.num
      fault := h.fault
      free := by
        have hlinked := (h.carries r hr).linked
        rw [hchain] at hlinked
        rw [hsucc, hchain]
        refine Linked.append (hlinked.set_last hx) (h.free.congr fun y hy => ?_)
        rw [update_of_ne]
        rintro rfl
        exact hfreex hy
      numFree := by
        rw [List.length_append, Nat.add_comm r.chain.length]
        exact congrArg (· + r.chain.length) h.numFree
      perm := by
        refine List.Perm.trans ?_ hperm
        rw [← List.append_assoc]
        exact List.perm_append_comm.append_right _
      carries := by
        intro q hq
        refine (h.carries q (hflight.mem_iff.mpr (List.mem_cons_of_mem _ hq))).congr ?_
        intro y hy
        refine update_of_ne ?_ _ _
        rintro rfl
        exact hapart q hq _ hy (hchain ▸ List.mem_append_right _ (by simp))
      cookie := by
        intro q hq
        have hne : q.head ≠ r.head := by
          intro heq
          exact hapart q hq q.head List.mem_cons_self (heq ▸ List.mem_cons_self)
        refine (update_of_ne hne _ _).trans ?_
        exact h.cookie q (hflight.mem_iff.mpr (List.mem_cons_of_mem _ hq))
      avail := h.avail
      availIdx := h.availIdx
      used := h.used.pop hlt
      usedIdx := h.usedIdx
      taken_le := hshown
      shown_le := h.shown_le
      fetched := h.fetched
      heads := by
        have hheads := (hflight.map Request.head).symm.trans h.heads
        rw [hdrop, List.map_cons, List.map_cons, ← hhead] at hheads
        exact (hheads.trans List.perm_middle).cons_inv
      cookies := by
        refine h.cookies.trans ?_
        rw [List.append_assoc]
        exact (hflight.map Request.cookie).append_left _ }

/-! ### Steps of the device -/

theorem Ok.next_head (h : Ok k s g) (hne : s.devAvail ≠ s.vq.availRingIdx) :
    ∃ hlt : g.fetched < g.published.length,
      s.vq.availRing (s.devAvail % s.vq.num) = g.published[g.fetched] := by
  have hlt : g.fetched < g.published.length := by
    have hiff := h.avail.head_eq_tail_iff (pow_lt_idxRange hk)
    rw [h.availIdx] at hne
    have hle := h.avail.le
    have hne' : g.published.length ≠ g.fetched := fun heq => hne (hiff.mpr heq).symm
    omega
  refine ⟨hlt, ?_⟩
  rw [h.num]
  exact h.avail.peek (pow_dvd_idxRange hk) hlt

theorem Ok.fetch (h : Ok k s g) (hne : s.devAvail ≠ s.vq.availRingIdx) :
    Ok k { s with
      devHeads := s.vq.availRing (s.devAvail % s.vq.num) :: s.devHeads
      devAvail := (s.devAvail + 1) % idxRange } { g with fetched := g.fetched + 1 } := by
  obtain ⟨hlt, hslot⟩ := h.next_head hk hne
  rw [hslot]
  exact
    { h with
      avail := h.avail.pop hlt
      fetched := by
        rw [List.length_cons, ← Nat.add_assoc]
        exact congrArg (· + 1) h.fetched
      heads := by
        have hheads := h.heads
        rw [List.drop_eq_getElem_cons hlt, List.cons_append, List.cons_append] at hheads
        refine hheads.trans ?_
        rw [List.append_assoc, List.append_assoc]
        exact List.perm_middle.symm }

/-- The device hands a head back. -/
theorem Ok.complete (h : Ok k s g) {head : ℕ} (hmem : head ∈ s.devHeads) (len : ℕ) :
    Ok k { s with
      vq := { s.vq with
        usedRing := update s.vq.usedRing (s.devUsed % s.vq.num) ⟨head, len⟩ }
      devHeads := s.devHeads.erase head
      devUsed := (s.devUsed + 1) % idxRange }
      { g with completed := g.completed ++ [⟨head, len⟩] } := by
  have hpos : 0 < s.devHeads.length := List.length_pos_of_mem hmem
  have hroom : g.completed.length < g.taken + 2 ^ k := by
    have hflight := h.flight_length
    have hle := length_le_flatMap s.flight
    have hnum := h.length_le
    have hfetched := h.fetched
    have hpublished := h.avail.le
    omega
  have hused := h.used.push_one (pow_dvd_idxRange hk) hroom ⟨head, len⟩
  rw [← h.num] at hused
  exact
    { h with
      used := by
        rw [← h.num]
        exact hused
      shown_le := by
        rw [List.length_append]
        exact h.shown_le.trans (Nat.le_add_right _ _)
      fetched := by
        have hfetched := h.fetched
        rw [List.length_append, List.length_singleton, List.length_erase_of_mem hmem]
        change g.fetched = _
        omega
      heads := by
        have hdrop : (g.completed ++ [UsedElem.mk head len]).drop g.taken =
            g.completed.drop g.taken ++ [UsedElem.mk head len] :=
          List.drop_append_of_le_length h.used.le
        rw [hdrop, List.map_append, List.map_singleton]
        refine h.heads.trans ?_
        rw [← List.append_assoc]
        -- The head moves from what the device works on to what it has handed back.
        refine List.Perm.trans ?_ (List.perm_append_singleton _ _).symm
        have herase := List.perm_cons_erase hmem
        refine ((herase.append_left _).append_right _).trans ?_
        rw [List.append_assoc, List.append_assoc]
        exact List.perm_middle }

omit hk in
/-- The device makes what it has handed back known. -/
theorem Ok.publish (h : Ok k s g) :
    Ok k { s with vq := { s.vq with usedRingIdx := s.devUsed } }
      { g with shown := g.completed.length } := by
  exact
    { h with
      usedIdx := h.used.head
      taken_le := h.used.le
      shown_le := le_rfl }

theorem Inv.step {s' : System} {b : Action} (h : Inv k s) (hstep : step s b = some s') :
    Inv k s' := by
  obtain ⟨g, h⟩ := h
  unfold Virtio.step at hstep
  rw [if_neg (not_not.mpr h.fault)] at hstep
  cases b with
  | add sg nOut cookie =>
    obtain ⟨⟨hsg, -⟩, rfl⟩ := ite_eq_some.mp hstep
    rcases lt_or_ge s.vq.numFree sg.length with hfull | hcount
    · rw [System.add_of_gt hfull]
      exact ⟨g, h⟩
    · obtain ⟨left, hadd⟩ := h.add hk hsg hcount nOut cookie
      exact ⟨_, hadd⟩
  | getBuf =>
    cases hstep
    rcases h.taken_le.eq_or_lt with hnone | hshown
    · rw [System.getBuf, h.getBuf_none hk hnone]
      exact ⟨g, h⟩
    · obtain ⟨r, -, -, -, -, hget⟩ := h.getBuf_some hk hshown (hshown.trans_le h.shown_le)
      exact ⟨_, hget⟩
  | fetch =>
    obtain ⟨hne, rfl⟩ := ite_eq_some.mp hstep
    exact ⟨_, h.fetch hk hne⟩
  | complete head len =>
    obtain ⟨hmem, rfl⟩ := ite_eq_some.mp hstep
    exact ⟨_, h.complete hk hmem len⟩
  | publish =>
    cases hstep
    exact ⟨_, h.publish⟩

end

/-- The descriptors of a new queue are linked in order. -/
theorem linked_range (desc : ℕ → Desc) (a n : ℕ)
    (h : ∀ i, a ≤ i → i < a + n → (desc i).next = i + 1) :
    Linked (fun _ => True) (succ desc) a (List.range' a n) := by
  induction n generalizing a with
  | zero => exact trivial
  | succ n ih =>
    refine ⟨rfl, ?_⟩
    rw [succ, h a le_rfl (by omega)]
    exact ih (a + 1) fun i hi hlt => h i (by omega) (by omega)

/-- A new queue: every descriptor is free. -/
theorem inv_boot (k : ℕ) : Inv k (boot (2 ^ k)) := by
  refine ⟨⟨List.range' 0 (2 ^ k), [], 0, [], 0, 0⟩, ?_⟩
  exact
    { num := rfl
      fault := rfl
      free := by
        refine linked_range _ 0 (2 ^ k) fun i _ hlt => if_pos ?_
        rwa [Nat.zero_add] at hlt
      numFree := List.length_range'.symm
      perm := by
        rw [boot, List.flatMap_nil, List.append_nil, ← List.range_eq_range']
        exact List.Perm.refl _
      carries := nofun
      cookie := nofun
      avail := Holds.empty
      availIdx := rfl
      used := Holds.empty
      usedIdx := rfl
      taken_le := le_rfl
      shown_le := le_rfl
      fetched := rfl
      heads := List.Perm.refl _
      cookies := List.Perm.refl _ }

end Facts

/-! ### What users rely on -/

/-- The descriptors on the free list. -/
def freeList (vq : Virtqueue) : List ℕ := follow vq.desc vq.numFree vq.freeHead

/-- The published heads that the device has not taken. -/
def availHeads (s : System) : List ℕ :=
  (List.range (idxSub s.vq.availRingIdx s.devAvail)).map fun i =>
    s.vq.availRing ((s.devAvail + i) % s.vq.num)

/-- The heads handed back that the driver has not taken. -/
def usedHeads (s : System) : List ℕ :=
  (List.range (idxSub s.devUsed s.vq.lastUsedIdx)).map fun i =>
    (s.vq.usedRing ((s.vq.lastUsedIdx + i) % s.vq.num)).id

/-- A request is carried by a chain: its entries in order, the device may write to those after
the first `nOut`, and all but the last go on. -/
def InChain (desc : ℕ → Desc) (r : Request) : Prop :=
  r.chain = follow desc r.sg.length r.head ∧
  ∀ i (h : i < r.sg.length), ∃ x, r.chain[i]? = some x ∧
    (desc x).addr = r.sg[i].addr ∧ (desc x).len = r.sg[i].len ∧
    ((desc x).flags &&& descWrite ≠ 0 ↔ r.nOut ≤ i) ∧
    ((desc x).flags &&& descNext ≠ 0 ↔ i + 1 < r.sg.length)

/-- What users of a queue rely on. -/
structure VqOk (s : System) : Prop where
  /-- No assertion has failed. -/
  fault : s.fault = none
  /-- The free list has `num_free` distinct descriptors. -/
  free : (freeList s.vq).length = s.vq.numFree ∧ (freeList s.vq).Nodup
  /-- The free list and the chains in flight partition the descriptors. -/
  partition : (freeList s.vq ++ s.flight.flatMap Request.chain).Perm (List.range s.vq.num)
  /-- The requests in flight are in chains. -/
  chain : ∀ r ∈ s.flight, InChain s.vq.desc r
  /-- Their heads are in the `avail` ring, at the device or in the `used` ring. -/
  heads : (s.flight.map Request.head).Perm (availHeads s ++ s.devHeads ++ usedHeads s)
  /-- `vq_get_buf` returns nothing if the device has shown nothing new. -/
  idle : s.vq.usedRingIdx = s.vq.lastUsedIdx → vqGetBuf s.vq = .ok (none, s.vq)
  /-- Otherwise it returns the cookie of the request that was handed back first, whose chain it
  frees. -/
  collect : s.vq.usedRingIdx ≠ s.vq.lastUsedIdx → ∃ r ∈ s.flight,
    (usedHeads s).head? = some r.head ∧ ∃ len vq,
      vqGetBuf s.vq = .ok (some (r.cookie, len), vq) ∧ vq.freeHead = r.head
  /-- A cookie that was added has been returned or is in flight. -/
  cookies : s.added.Perm (s.returned ++ s.flight.map Request.cookie)
  /-- All cookies have been returned once the device and the driver are done. -/
  drained : availHeads s = [] → s.devHeads = [] → usedHeads s = [] → s.added.Perm s.returned
  /-- `vq_add` fails for want of descriptors only, and then nothing changes. -/
  enospc : ∀ sg nOut cookie,
    (vqAdd s.vq sg nOut cookie = .error .enospc ↔ s.vq.numFree < sg.length) ∧
    (s.vq.numFree < sg.length → s.add sg nOut cookie = s)

section Users

variable {k : ℕ} {s : System} {g : Ledger}

theorem Ok.freeList_eq (h : Ok k s g) : freeList s.vq = g.free := by
  rw [freeList, h.numFree]
  exact follow_eq h.free

theorem Ok.availHeads_eq (hk : k ≤ 15) (h : Ok k s g) :
    availHeads s = g.published.drop g.fetched := by
  rw [availHeads, h.availIdx, h.num]
  exact h.avail.contents (pow_dvd_idxRange hk) (pow_lt_idxRange hk)

theorem Ok.usedHeads_eq (hk : k ≤ 15) (h : Ok k s g) :
    usedHeads s = (g.completed.drop g.taken).map UsedElem.id := by
  have hcontents := h.used.contents (pow_dvd_idxRange hk) (pow_lt_idxRange hk)
  rw [usedHeads, h.num, ← hcontents, List.map_map]
  rfl

theorem Carries.inChain {desc : ℕ → Desc} (h : Carries desc r) : InChain desc r := by
  have hlen := h.filled.length
  refine ⟨?_, fun i hi => ⟨r.chain[i], List.getElem?_eq_getElem _, ?_⟩⟩
  · rw [← hlen]
    exact (follow_eq h.linked).symm
  · obtain ⟨haddr, hlength, hflags⟩ := h.filled.get (hlen ▸ hi) hi
    rw [Nat.zero_add] at hflags
    rw [hflags]
    exact ⟨haddr, hlength, sgFlags_write _ _ _, sgFlags_next _ _ _⟩

/-- `vq_get_buf` finds the request that was handed back first. -/
theorem Ok.collect (hk : k ≤ 15) (h : Ok k s g) (hne : s.vq.usedRingIdx ≠ s.vq.lastUsedIdx) :
    ∃ r ∈ s.flight, (usedHeads s).head? = some r.head ∧ ∃ len vq,
      vqGetBuf s.vq = .ok (some (r.cookie, len), vq) ∧ vq.freeHead = r.head := by
  have hshown : g.taken < g.shown := by
    refine h.taken_le.lt_of_ne fun heq => hne ?_
    rw [h.usedIdx, h.used.tail, heq]
  have hlt := hshown.trans_le h.shown_le
  obtain ⟨r, hr, hid, -, ⟨vq, hget, hhead⟩, -⟩ := h.getBuf_some hk hshown hlt
  refine ⟨r, hr, ?_, _, vq, hget, hhead⟩
  rw [h.usedHeads_eq hk, List.drop_eq_getElem_cons hlt, List.map_cons, List.head?_cons, hid]

theorem getBuf_idle (h : s.vq.usedRingIdx = s.vq.lastUsedIdx) :
    vqGetBuf s.vq = .ok (none, s.vq) := by
  simp [vqGetBuf, idxSub, RingBuffer.sub, h]

/-- The assertions of `vq_get_buf` hold. -/
theorem Ok.getBuf_cases (hk : k ≤ 15) (h : Ok k s g) :
    vqGetBuf s.vq = .ok (none, s.vq) ∨ ∃ result, vqGetBuf s.vq = .ok result ∧ result.1 ≠ none := by
  by_cases hidle : s.vq.usedRingIdx = s.vq.lastUsedIdx
  · exact .inl (getBuf_idle hidle)
  · obtain ⟨r, -, -, len, vq, hget, -⟩ := h.collect hk hidle
    exact .inr ⟨_, hget, nofun⟩

theorem Inv.vqOk (hk : k ≤ 15) (h : Inv k s) : VqOk s := by
  obtain ⟨g, h⟩ := h
  refine ⟨h.fault, ?_, ?_, fun r hr => (h.carries r hr).inChain, ?_, getBuf_idle, h.collect hk,
    h.cookies, ?_, fun sg nOut cookie => ⟨?_, fun hfull => ?_⟩⟩
  · rw [h.freeList_eq]
    exact ⟨h.numFree.symm, (List.nodup_append.mp h.nodup).1⟩
  · rw [h.freeList_eq]
    exact h.perm
  · rw [h.availHeads_eq hk, h.usedHeads_eq hk]
    exact h.heads
  · intro havail hdev hused
    have hheads := h.heads
    rw [← h.availHeads_eq hk, ← h.usedHeads_eq hk, havail, hdev, hused] at hheads
    have hnone : s.flight = [] := List.map_eq_nil_iff.mp hheads.eq_nil
    simpa [hnone] using h.cookies
  · rw [vqAdd]
    by_cases hfull : s.vq.numFree < sg.length <;> simp [hfull]
  · exact System.add_of_gt hfull

/-- **Virtqueues.** For every queue size and every device that completes what it was given, in
every state that calls of `vq_add` and `vq_get_buf` lead to. -/
theorem vqOk_of_reachable (hk : k ≤ 15)
    (hs : Reachable (· = boot (2 ^ k)) (Graph step) s) : VqOk s := by
  have hinv : Inv k s :=
    hs.invariant (fun s hs => hs ▸ inv_boot k) fun _ _ _ h hstep => h.step hk hstep
  exact hinv.vqOk hk

end Users

/-- Two requests on a queue of four descriptors; the second one is handed back first, and a
third one is put into its descriptor. -/
def outOfOrder : List Action :=
  [.add [⟨100, 16⟩, ⟨200, 512⟩, ⟨300, 1⟩] 1 7, .add [⟨400, 8⟩] 0 8, .fetch, .fetch,
    .complete 3 8, .publish, .getBuf, .add [⟨500, 4⟩] 1 9, .complete 0 513, .publish, .getBuf,
    .add [⟨600, 1⟩, ⟨700, 1⟩] 1 10]

/-- The descriptors of the first request are used again while the third is in flight. -/
theorem vqOk_outOfOrder : ∃ s : System,
    Reachable (· = boot (2 ^ 2)) (Graph step) s ∧ VqOk s ∧ s.returned = [8, 7] ∧
    s.flight.map Request.chain = [[0, 1], [3]] ∧ freeList s.vq = [2] :=
  exists_of_exec outOfOrder rfl (fun _ hs => vqOk_of_reachable (by decide) hs) (by decide +kernel)

end Nuvix.Virtio
