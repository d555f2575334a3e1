import Nuvix.Errno

/-!
# User buffers: `fs/vfs/kiov.c`

A buffer of a program is a vector of segments, consumed from the front. `copy_kiov` moves
bytes between it and kernel memory, one segment at a time, and stops where the program's
memory faults. Whatever the segments and the faults, the addresses it has moved are the
first ones of the buffer, in order.
-/

namespace Nuvix

variable {iov : Kiov} {rest : List Iovec} {seg : Iovec}

/-- `struct iovec`. -/
structure Iovec where
  base : ℕ
  len : ℕ

/-- `struct kiov` over user memory; `vec` is the array from the current segment on, so
that `segs` is its length. -/
structure Kiov where
  vec : List Iovec
  offset : ℕ
  count : ℕ

namespace Kiov

/-- The addresses of the segments `vec`, the first one from `offset` on. -/
def addrsOf : List Iovec → ℕ → List ℕ
  | [], _ => []
  | seg :: vec, offset => List.range' (seg.base + offset) (seg.len - offset) ++ addrsOf vec 0

/-- The addresses left in a buffer. -/
def addrs (iov : Kiov) : List ℕ := addrsOf iov.vec iov.offset

/-- `count` is the number of bytes left, as `kiov_init` and `import_iovec` set it. -/
def Ok (iov : Kiov) : Prop := iov.count = iov.addrs.length

/-- `kiov_init`. -/
def init (vec : List Iovec) (count : ℕ) : Kiov := ⟨vec, 0, count⟩

/-- The loop of `kiov_advance`. -/
def advance : List Iovec → ℕ → ℕ → List Iovec × ℕ
  | [], offset, _ => ([], offset)
  | seg :: vec, offset, count =>
    let len := seg.len - offset
    if count < len then (seg :: vec, offset + count) else advance vec 0 (count - len)

end Kiov

/-- `kiov_advance`. -/
def kiovAdvance (iov : Kiov) (count : ℕ) : Kiov :=
  let next := Kiov.advance iov.vec iov.offset count
  { vec := next.1, offset := next.2, count := iov.count - count }

/-- What a copy has done: the addresses it has moved in order, the bytes that the last
`copy_from_user` or `copy_to_user` could not move, and the rest of the buffer. -/
structure Copied where
  moved : List ℕ
  missing : ℕ
  iov : Kiov

/-- The loop of `copy_kiov`, with `left` bytes to go. `miss` tells for an address and a
length how many bytes at the end of it cannot be moved. Every round that misses nothing
moves a byte, so that `left` bounds the rounds too. -/
def copyLoop (miss : ℕ → ℕ → ℕ) : ℕ → ℕ → Kiov → Copied
  | _, 0, iov => ⟨[], 0, iov⟩
  | 0, _ + 1, iov => ⟨[], 0, iov⟩
  | fuel + 1, left + 1, iov =>
    match iov.vec with
    | [] => ⟨[], 0, iov⟩
    | seg :: _ =>
      let len := min (left + 1) (seg.len - iov.offset)
      let base := seg.base + iov.offset
      let missing := min (miss base len) len
      let piece := List.range' base (len - missing)
      let iov' := kiovAdvance iov (len - missing)
      if missing ≠ 0 then ⟨piece, missing, iov'⟩
      else
        let rest := copyLoop miss fuel (left + 1 - len) iov'
        { rest with moved := piece ++ rest.moved }

/-- `copy_kiov`. -/
def copyKiov (miss : ℕ → ℕ → ℕ) (count : ℕ) (iov : Kiov) : Copied :=
  let count := min count iov.count
  copyLoop miss count count (kiovAdvance iov 0)

/-! ### The buffer as a list of addresses -/

namespace Kiov

theorem addrsOf_advance (vec : List Iovec) (offset count : ℕ) :
    addrsOf (advance vec offset count).1 (advance vec offset count).2 =
      (addrsOf vec offset).drop count := by
  induction vec generalizing offset count with
  | nil => simp [advance, addrsOf]
  | cons seg vec ih =>
    simp only [advance]
    split_ifs with h
    · have hdrop : (List.range' (seg.base + offset) (seg.len - offset)).drop count =
          List.range' (seg.base + (offset + count)) (seg.len - (offset + count)) := by
        rw [List.drop_range', Nat.mul_one, Nat.add_assoc, Nat.sub_sub]
      rw [addrsOf, addrsOf, List.drop_append, List.length_range', hdrop,
        Nat.sub_eq_zero_of_le h.le, List.drop_zero]
    · have hnil : (List.range' (seg.base + offset) (seg.len - offset)).drop count = [] := by
        rw [List.drop_eq_nil_iff, List.length_range']
        omega
      rw [ih, addrsOf, List.drop_append, List.length_range', hnil, List.nil_append]

/-- After an advance the first segment has bytes left. -/
theorem advance_left {vec : List Iovec} {offset count : ℕ}
    (h : (advance vec offset count).1 = seg :: rest) : (advance vec offset count).2 < seg.len := by
  fun_induction advance vec offset count with
  | case1 => cases h
  | case2 seg' vec offset count len hlt =>
    obtain ⟨rfl, -⟩ := List.cons.inj h
    simp only [len] at hlt
    omega
  | case3 seg' vec offset count len hlt ih => exact ih h

end Kiov

theorem addrs_kiovAdvance (iov : Kiov) (count : ℕ) :
    (kiovAdvance iov count).addrs = iov.addrs.drop count :=
  Kiov.addrsOf_advance iov.vec iov.offset count

theorem Kiov.Ok.advance (h : iov.Ok) (count : ℕ) : (kiovAdvance iov count).Ok := by
  change iov.count - count = (kiovAdvance iov count).addrs.length
  rw [addrs_kiovAdvance, List.length_drop, h]

/-- The current segment is what the buffer starts with. -/
theorem take_addrs (hvec : iov.vec = seg :: rest) {n : ℕ} (hn : n ≤ seg.len - iov.offset) :
    iov.addrs.take n = List.range' (seg.base + iov.offset) n := by
  rw [Kiov.addrs, hvec, Kiov.addrsOf, List.take_append_of_le_length (by simpa using hn),
    List.take_range'_of_length_ge hn]

/-! ### Copying -/

section Copying

variable {miss : ℕ → ℕ → ℕ}

theorem copyLoop_spec (fuel left : ℕ) (h : iov.Ok) :
    (copyLoop miss fuel left iov).moved ++ (copyLoop miss fuel left iov).iov.addrs = iov.addrs ∧
      (copyLoop miss fuel left iov).iov.Ok ∧
      (copyLoop miss fuel left iov).moved.length + (copyLoop miss fuel left iov).missing ≤
        left := by
  induction fuel generalizing left iov with
  | zero => cases left <;> exact ⟨rfl, h, by simp [copyLoop]⟩
  | succ fuel ih =>
    cases left with
    | zero => exact ⟨rfl, h, by simp [copyLoop]⟩
    | succ left =>
      cases hvec : iov.vec with
      | nil => simp [copyLoop, hvec, h]
      | cons seg rest =>
        simp only [copyLoop, hvec]
        generalize hlen : min (left + 1) (seg.len - iov.offset) = len
        generalize hm : min (miss (seg.base + iov.offset) len) len = missing
        have hpiece : List.range' (seg.base + iov.offset) (len - missing) =
            iov.addrs.take (len - missing) := (take_addrs hvec (by omega)).symm
        have hok := h.advance (len - missing)
        split_ifs with hmiss
        · refine ⟨?_, hok, ?_⟩
          · dsimp only
            rw [hpiece, addrs_kiovAdvance, List.take_append_drop]
          · simp only [List.length_range']
            omega
        · obtain ⟨haddrs, hok', hle⟩ := ih (left + 1 - len) hok
          refine ⟨?_, hok', ?_⟩
          · dsimp only
            rw [List.append_assoc, haddrs, hpiece, addrs_kiovAdvance, List.take_append_drop]
          · simp only [List.length_append, List.length_range']
            omega

/-- With a byte to go in the current segment in every round, the rounds suffice, unless an address
of the buffer faults. -/
theorem copyLoop_complete (fuel left : ℕ) (h : iov.Ok) (hfuel : left ≤ fuel)
    (hleft : left ≤ iov.count) (hseg : ∀ seg rest, iov.vec = seg :: rest → iov.offset < seg.len)
    (hmiss : ∀ a ∈ iov.addrs, ∀ len, miss a len = 0) :
    (copyLoop miss fuel left iov).moved.length = left := by
  fun_induction copyLoop miss fuel left iov with
  | case1 => rfl
  | case2 => omega
  | case3 fuel left iov hvec =>
    have hnil : iov.addrs = [] := by rw [Kiov.addrs, hvec, Kiov.addrsOf]
    rw [h, hnil] at hleft
    exact absurd hleft (by simp)
  | case4 fuel left iov seg vec hvec len base missing piece next hcut =>
    have hpos := hseg seg vec hvec
    -- The piece starts with the first address that is left.
    have hfirst : iov.addrs.take 1 = [base] := take_addrs hvec (by omega)
    have hmem : base ∈ iov.addrs := List.mem_of_mem_take (hfirst ▸ List.mem_singleton_self base)
    simp [missing, hmiss base hmem len] at hcut
  | case5 fuel left iov seg vec hvec len base missing piece next hcut rest ih =>
    have hpos := hseg seg vec hvec
    have hrest := ih (h.advance _) (by omega) (by change _ ≤ iov.count - _; omega)
      (fun _ _ hnext => Kiov.advance_left hnext)
      fun a ha => hmiss a (List.mem_of_mem_drop (addrs_kiovAdvance iov _ ▸ ha))
    simp only [List.length_append, rest, hrest, piece, List.length_range']
    omega

theorem copyKiov_addrs (count : ℕ) (h : iov.Ok) :
    (copyKiov miss count iov).moved ++ (copyKiov miss count iov).iov.addrs = iov.addrs := by
  have hspec : (copyKiov miss count iov).moved ++ (copyKiov miss count iov).iov.addrs =
      (kiovAdvance iov 0).addrs := (copyLoop_spec _ _ (h.advance 0)).1
  rwa [addrs_kiovAdvance, List.drop_zero] at hspec

theorem Kiov.Ok.copyKiov (count : ℕ) (h : iov.Ok) : (copyKiov miss count iov).iov.Ok :=
  (copyLoop_spec _ _ (h.advance 0)).2.1

theorem copyKiov_length_le (count : ℕ) (h : iov.Ok) :
    (copyKiov miss count iov).moved.length + (copyKiov miss count iov).missing ≤
      min count iov.count :=
  (copyLoop_spec _ _ (h.advance 0)).2.2

/-- Without a fault everything asked for is moved. -/
theorem copyKiov_complete (count : ℕ) (h : iov.Ok)
    (hmiss : ∀ a ∈ iov.addrs, ∀ len, miss a len = 0) :
    (copyKiov miss count iov).moved.length = min count iov.count :=
  copyLoop_complete _ _ (h.advance 0) le_rfl (by change _ ≤ iov.count - 0; omega)
    (fun _ _ hnext => Kiov.advance_left hnext)
    fun a ha => hmiss a (List.mem_of_mem_drop (addrs_kiovAdvance iov 0 ▸ ha))

end Copying

/-! ### Copies on an imported vector -/

def ssizeMax : ℕ := 2 ^ 63 - 1

/-- The loop of `import_iovec`. -/
def totalLen : List Iovec → ℕ → Except Errno ℕ
  | [], count => .ok count
  | seg :: vec, count =>
    if seg.len > ssizeMax - count then .error .einval else totalLen vec (count + seg.len)

/-- Copies on one buffer, each with its count and faults: what they move and what is left. -/
def copies : List (ℕ × (ℕ → ℕ → ℕ)) → Kiov → List ℕ × Kiov
  | [], iov => ([], iov)
  | (count, miss) :: calls, iov =>
    let done := copyKiov miss count iov
    let rest := copies calls done.iov
    (done.moved ++ rest.1, rest.2)

theorem copies_spec (calls : List (ℕ × (ℕ → ℕ → ℕ))) (h : iov.Ok) :
    (copies calls iov).1 ++ (copies calls iov).2.addrs = iov.addrs ∧ (copies calls iov).2.Ok := by
  induction calls generalizing iov with
  | nil => exact ⟨rfl, h⟩
  | cons call calls ih =>
    have hnext : (copyKiov call.2 call.1 iov).iov.Ok := h.copyKiov call.1
    refine ⟨?_, (ih hnext).2⟩
    rw [copies, List.append_assoc, (ih hnext).1, copyKiov_addrs _ h]

variable {vec : List Iovec} {n : ℕ}

theorem totalLen_eq_ok {count : ℕ} (hle : count ≤ ssizeMax) (h : totalLen vec count = .ok n) :
    n = count + (Kiov.addrsOf vec 0).length ∧ n ≤ ssizeMax := by
  induction vec generalizing count with
  | nil =>
    cases h
    exact ⟨rfl, hle⟩
  | cons seg vec ih =>
    rw [totalLen] at h
    split_ifs at h
    obtain ⟨hn, hle'⟩ := ih (by omega) h
    exact ⟨by simp [Kiov.addrsOf, hn, add_assoc], hle'⟩

/-- **Vectored input and output.** The copies on an imported vector move its bytes in order and
each once, however they fault, and no more than a call can return. Only a fault at one of the
addresses left makes one short. -/
theorem copies_of_totalLen (h : totalLen vec 0 = .ok n) (calls : List (ℕ × (ℕ → ℕ → ℕ))) :
    let s := copies calls (.init vec n)
    s.1 ++ s.2.addrs = Kiov.addrsOf vec 0 ∧ s.2.count = s.2.addrs.length ∧ s.1.length ≤ ssizeMax ∧
      ∀ count miss, (∀ a ∈ s.2.addrs, ∀ len, miss a len = 0) →
        (copyKiov miss count s.2).moved.length = min count s.2.count := by
  obtain ⟨hn, hle⟩ := totalLen_eq_ok (Nat.zero_le _) h
  obtain ⟨haddrs, hok⟩ := copies_spec calls (show (Kiov.init vec n).Ok from hn.trans (zero_add _))
  refine ⟨haddrs, hok, ?_, fun count _ => copyKiov_complete count hok⟩
  have hlen : _ = (Kiov.addrsOf vec 0).length := congrArg List.length haddrs
  rw [List.length_append] at hlen
  omega

/-- The first segment is empty, and the copy ends in the third. -/
theorem copies_of_totalLen_three :
    let s := copies [(2, fun _ _ => 0)] (.init [⟨0, 0⟩, ⟨4096, 1⟩, ⟨8192, 2⟩] 3)
    s.1 = [4096, 8192] ∧ s.1 ++ s.2.addrs = [4096, 8192, 8193] :=
  ⟨rfl, (copies_of_totalLen rfl _).1⟩

end Nuvix
