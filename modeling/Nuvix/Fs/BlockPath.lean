import Nuvix.Fs.Ext2Bmap
import Nuvix.Lib.Radix

/-!
# ext2: logical blocks and their paths

`ext2_block_to_path` divides a logical block number from the top down; `ext2_truncate_blocks` and
`ext2_trim_branch` accumulate, from the inode on, the first logical block below a pointer and the
number of blocks. Both describe one tree: the offsets of a path are the digits of a number in base
`ptrs`, and the numbers whose path begins with some offsets are the interval the truncation
computes for the block they lead to. The numbers of the source have 64 bits and are below `2 ^ 32`
here, so that nothing wraps.
-/

namespace Nuvix.Ext2

open Radix

/-- `first` and `span` in turn `k` of the second loop of `ext2_truncate_blocks`. -/
def indirectRange (ptrs : ℕ) : ℕ → ℕ × ℕ
  | 0 => (ndirBlocks, 1 * ptrs)
  | k + 1 => ((indirectRange ptrs k).1 + (indirectRange ptrs k).2, (indirectRange ptrs k).2 * ptrs)

/-- `first` and `span` of the call of `ext2_trim_branch` for a block number in the inode. -/
def rootRange (ptrs off : ℕ) : ℕ × ℕ :=
  if off < ndirBlocks then (off, 1) else indirectRange ptrs (off - indBlock)

/-- `first` and `span` of the call of `ext2_trim_branch` for the block that `path` leads to: a call
cuts its interval into `ptrs` parts and passes part `i` on for entry `i` of the block. -/
def trimRange (ptrs : ℕ) : List ℕ → ℕ × ℕ
  | [] => (0, 0)
  | off :: offs => offs.foldl (part ptrs) (rootRange ptrs off)

/-- The depth of the tree below a block number in the inode. -/
def slotDepth (off : ℕ) : ℕ := if off < ndirBlocks then 0 else off - indBlock + 1

/-- The truncation told by paths: below each block number the calls go on with the paths that are
one entry longer, and pass over a path whose interval ends before `keep`. -/
def trimPath (ptrs : ℕ) (env : Env) (keep : ℕ) : ℕ → Slot → List ℕ → Call Unit
  | depth, slot, path => do
    let s ← Prog.get
    let blk := slot.read s
    if blk = 0 ∨ (trimRange ptrs path).1 + (trimRange ptrs path).2 ≤ keep then return ()
    else
      let empty ← match depth with
        | 0 => pure true
        | depth + 1 => do
          mappingGet env blk
          (List.range ptrs).foldlM (fun empty i => do
            trimPath ptrs env keep depth (.page blk i) (path ++ [i])
            let s ← Prog.get
            return empty && ptr s.mem blk i == 0) true
      if empty then
        freeBlock env blk
        Prog.modify fun s => (slot.write s 0).addBlocks (· - blockSectors)
      else return ()

/-- A slot of the inode, and as many offsets below `ptrs` as the tree there is deep. -/
def IsPath (ptrs : ℕ) (path : List ℕ) : Prop :=
  ∃ off offs, path = off :: offs ∧ off < nBlocks ∧ offs.length = slotDepth off ∧
    ∀ i ∈ offs, i < ptrs

/-- The number of logical blocks. -/
def maxBlocks (ptrs : ℕ) : ℕ := ndirBlocks + ptrs + ptrs ^ 2 + ptrs ^ 3

variable {ptrs lbn lbn' off off' : ℕ} {path path' pre : List ℕ}

/-- The end of the array counts as a slot too: its interval would begin at `maxBlocks`. -/
theorem slot_cases (h : off ≤ nBlocks) :
    off < ndirBlocks ∨ off = indBlock ∨ off = dindBlock ∨ off = tindBlock ∨ off = nBlocks := by
  simp only [nBlocks, ndirBlocks, indBlock, dindBlock, tindBlock] at *
  omega

theorem rootRange_direct (h : off < ndirBlocks) : rootRange ptrs off = (off, 1) := if_pos h

@[simp] theorem rootRange_indBlock : rootRange ptrs indBlock = (ndirBlocks, ptrs) :=
  congrArg (ndirBlocks, ·) (Nat.one_mul ptrs)

@[simp] theorem rootRange_dindBlock : rootRange ptrs dindBlock = (ndirBlocks + ptrs, ptrs ^ 2) := by
  simp [rootRange, ndirBlocks, dindBlock, indBlock, indirectRange, pow_two]

@[simp] theorem rootRange_tindBlock :
    rootRange ptrs tindBlock = (ndirBlocks + ptrs + ptrs ^ 2, ptrs ^ 3) := by
  simp [rootRange, ndirBlocks, tindBlock, indBlock, indirectRange, pow_succ]

@[simp] theorem rootRange_nBlocks : rootRange ptrs nBlocks = (maxBlocks ptrs, ptrs ^ 4) := by
  simp [rootRange, maxBlocks, ndirBlocks, nBlocks, indBlock, indirectRange, pow_succ]

theorem slotDepth_direct (h : off < ndirBlocks) : slotDepth off = 0 := if_pos h

@[simp] theorem slotDepth_indBlock : slotDepth indBlock = 1 := rfl

@[simp] theorem slotDepth_dindBlock : slotDepth dindBlock = 2 := rfl

@[simp] theorem slotDepth_tindBlock : slotDepth tindBlock = 3 := rfl

@[simp] theorem slotDepth_nBlocks : slotDepth nBlocks = 4 := rfl

theorem rootRange_snd (ptrs : ℕ) (h : off ≤ nBlocks) :
    (rootRange ptrs off).2 = ptrs ^ slotDepth off := by
  rcases slot_cases h with hdir | rfl | rfl | rfl | rfl
  · rw [rootRange_direct hdir, slotDepth_direct hdir, pow_zero]
  all_goals simp

/-- The slots of the inode stand for intervals one after the other. -/
theorem rootRange_le (ptrs : ℕ) (hlt : off < off') (h : off' ≤ nBlocks) :
    (rootRange ptrs off).1 + ptrs ^ slotDepth off ≤ (rootRange ptrs off').1 := by
  rw [← rootRange_snd ptrs (hlt.le.trans h)]
  rcases slot_cases h with hdir' | hoff'
  · rw [rootRange_direct hdir', rootRange_direct (hlt.trans hdir')]
    exact hlt
  rcases slot_cases (hlt.le.trans h) with hdir | hoff
  · rw [rootRange_direct hdir]
    rcases hoff' with rfl | rfl | rfl | rfl <;> simp [maxBlocks] <;> omega
  · rcases hoff with rfl | rfl | rfl | rfl <;> rcases hoff' with rfl | rfl | rfl | rfl <;>
      first | exact absurd hlt (by decide) | simp [maxBlocks, Nat.add_assoc]

/-- A logical block is in the interval of one slot, and its path has its digits there; past the
last slot there is no path. -/
theorem blockToPath_cases (ptrs lbn : ℕ) :
    (maxBlocks ptrs ≤ lbn ∧ blockToPath ptrs lbn = .error .efbig) ∨
      ∃ off n, off < nBlocks ∧ lbn = (rootRange ptrs off).1 + n ∧ n < ptrs ^ slotDepth off ∧
        blockToPath ptrs lbn = .ok (off :: digits ptrs (slotDepth off) n) := by
  unfold maxBlocks
  rcases lt_or_ge lbn ndirBlocks with hdir | hdir
  · refine .inr ⟨lbn, 0, hdir.trans (by decide), ?_, ?_, ?_⟩
    · simp [rootRange_direct hdir]
    · rw [slotDepth_direct hdir, pow_zero]
      exact Nat.one_pos
    · rw [slotDepth_direct hdir, blockToPath, if_pos hdir, digits]
  obtain ⟨n, rfl⟩ := Nat.exists_eq_add_of_le hdir
  simp only [blockToPath, if_neg hdir.not_gt, Nat.add_sub_cancel_left]
  rcases lt_or_ge n ptrs with hind | hind
  · exact .inr ⟨indBlock, n, by decide, by simp, by simpa using hind, by simp [hind, digits]⟩
  obtain ⟨n, rfl⟩ := Nat.exists_eq_add_of_le hind
  simp only [if_neg hind.not_gt, Nat.add_sub_cancel_left, ← pow_two]
  rcases lt_or_ge n (ptrs ^ 2) with hdouble | hdouble
  · refine .inr ⟨dindBlock, n, by decide, ?_, by simpa using hdouble, ?_⟩
    · simp [Nat.add_assoc]
    · simp [hdouble, digits]
  obtain ⟨n, rfl⟩ := Nat.exists_eq_add_of_le hdouble
  simp only [if_neg hdouble.not_gt, Nat.add_sub_cancel_left, ← pow_succ]
  rcases lt_or_ge n (ptrs ^ 3) with htriple | htriple
  · refine .inr ⟨tindBlock, n, by decide, ?_, by simpa using htriple, ?_⟩
    · simp [Nat.add_assoc]
    · simp [htriple, digits, pow_two, Nat.mod_mul_right_div_self]
  · exact .inl ⟨by omega, by simp [htriple]⟩

/-- A block whose path is known lies in the interval of its slot. -/
theorem of_blockToPath_eq_ok (h : blockToPath ptrs lbn = .ok path) :
    ∃ off n, off < nBlocks ∧ lbn = (rootRange ptrs off).1 + n ∧ n < ptrs ^ slotDepth off ∧
      path = off :: digits ptrs (slotDepth off) n := by
  rcases blockToPath_cases ptrs lbn with ⟨-, herr⟩ | ⟨off, n, hoff, hlbn, hn, hpath⟩
  · cases herr.symm.trans h
  · exact ⟨off, n, hoff, hlbn, hn, (Except.ok.inj (hpath.symm.trans h)).symm⟩

/-- The path of a block in the interval of a slot begins there. -/
theorem blockToPath_slot {n : ℕ} (hoff : off < nBlocks) (hn : n < ptrs ^ slotDepth off) :
    blockToPath ptrs ((rootRange ptrs off).1 + n) =
      .ok (off :: digits ptrs (slotDepth off) n) := by
  rcases blockToPath_cases ptrs ((rootRange ptrs off).1 + n) with
    ⟨hmax, -⟩ | ⟨off', n', hoff', hlbn, hn', hpath⟩
  · have hle := rootRange_le ptrs hoff le_rfl
    rw [rootRange_nBlocks] at hle
    omega
  · rcases lt_trichotomy off off' with hlt | rfl | hlt
    · have hle := rootRange_le ptrs hlt hoff'.le
      omega
    · rw [hpath, Nat.add_left_cancel hlbn]
    · have hle := rootRange_le ptrs hlt hoff.le
      omega

/-! ### The calls of the truncation -/

/-- A call passes on the intervals of the longer paths. -/
theorem trimBranch_eq_trimPath {first span : ℕ} {offs : List ℕ} (env : Env) (keep depth : ℕ)
    (slot : Slot) (hrange : (first, span) = trimRange ptrs (off :: offs)) :
    trimBranch ptrs env keep depth slot first span =
      trimPath ptrs env keep depth slot (off :: offs) := by
  induction depth generalizing slot first span offs with
  | zero => rw [trimBranch, trimPath, ← hrange]
  | succ depth ih =>
    have hpart : ∀ i, (first + i * (span / ptrs), span / ptrs) =
        trimRange ptrs (off :: (offs ++ [i])) := by
      intro i
      rw [trimRange, List.foldl_append]
      exact congrArg (part ptrs · i) hrange
    rw [trimBranch, trimPath, ← hrange]
    simp only [fun blk i => ih (.page blk i) (hpart i), List.cons_append]

/-- The second loop goes on with the intervals of the slots. -/
theorem truncateIndirect_eq (ptrs : ℕ) (env : Env) (keep turns : ℕ) {k first span : ℕ}
    (hrange : (first, span * ptrs) = indirectRange ptrs k) :
    truncateIndirect ptrs env keep turns (indBlock + k) first span =
      (List.range' (indBlock + k) turns).forM fun off =>
        trimPath ptrs env keep (slotDepth off) (.inode off) [off] := by
  induction turns generalizing k first span with
  | zero => rfl
  | succ turns ih =>
    have hslot : ¬ indBlock + k < ndirBlocks := (Nat.le_add_right _ k).not_gt
    have hroot : (first, span * ptrs) = trimRange ptrs [indBlock + k] := by
      rw [trimRange, rootRange, if_neg hslot, Nat.add_sub_cancel_left, hrange]
      rfl
    have hnext : (first + span * ptrs, span * ptrs * ptrs) = indirectRange ptrs (k + 1) := by
      rw [indirectRange, ← hrange]
    have hdepth : slotDepth (indBlock + k) = indBlock + k - indBlock + 1 := if_neg hslot
    rw [truncateIndirect, List.range'_succ, List.forM, hdepth,
      trimBranch_eq_trimPath env keep _ _ hroot]
    exact congrArg _ (funext fun _ => ih hnext)

/-- The truncation, told by paths. -/
def truncatePaths (ptrs : ℕ) (env : Env) (keep : ℕ) : Call Unit := do
  (List.range ndirBlocks).forM fun off =>
    trimPath ptrs env keep (slotDepth off) (.inode off) [off]
  (List.range' indBlock (nBlocks - indBlock)).forM fun off =>
    trimPath ptrs env keep (slotDepth off) (.inode off) [off]

theorem truncateBlocks_eq (ptrs : ℕ) (env : Env) (keep : ℕ) :
    truncateBlocks ptrs env keep = truncatePaths ptrs env keep := by
  have hdirect : ∀ off ∈ List.range ndirBlocks, trimBranch ptrs env keep 0 (.inode off) off 1 =
      trimPath ptrs env keep (slotDepth off) (.inode off) [off] := by
    intro off hoff
    have hlt := List.mem_range.mp hoff
    rw [slotDepth_direct hlt]
    exact trimBranch_eq_trimPath env keep 0 _ (rootRange_direct hlt).symm
  have hindirect := truncateIndirect_eq ptrs (k := 0) env keep (nBlocks - indBlock) rfl
  rw [truncateBlocks, truncatePaths, Prog.forM_congr hdirect]
  exact congrArg _ (funext fun _ => hindirect)

/-- What the paths of logical blocks are, and what the truncation computes for them. -/
structure PathsOk (ptrs : ℕ) : Prop where
  efbig : ∀ lbn, blockToPath ptrs lbn = .error .efbig ↔ maxBlocks ptrs ≤ lbn
  path : ∀ lbn, lbn < maxBlocks ptrs → ∃ path, blockToPath ptrs lbn = .ok path ∧ IsPath ptrs path
  injective : ∀ lbn lbn' path, blockToPath ptrs lbn = .ok path →
    blockToPath ptrs lbn' = .ok path → lbn = lbn'
  onto : ∀ path, IsPath ptrs path → ∃ lbn < 2 ^ 32, blockToPath ptrs lbn = .ok path
  increasing : ∀ lbn lbn' path path', blockToPath ptrs lbn = .ok path →
    blockToPath ptrs lbn' = .ok path' → lbn < lbn' → path < path'
  subtree : ∀ path pre, IsPath ptrs path → pre ≠ [] → pre <+: path → ∀ lbn,
    (∃ path', blockToPath ptrs lbn = .ok path' ∧ pre <+: path') ↔
      (trimRange ptrs pre).1 ≤ lbn ∧ lbn < (trimRange ptrs pre).1 + (trimRange ptrs pre).2
  truncate : ∀ env keep, truncateBlocks ptrs env keep = truncatePaths ptrs env keep

section

variable (hptrs : 0 < ptrs)
include hptrs

theorem isPath_of_blockToPath (h : blockToPath ptrs lbn = .ok path) : IsPath ptrs path := by
  obtain ⟨off, n, hoff, -, hn, rfl⟩ := of_blockToPath_eq_ok h
  exact ⟨off, _, rfl, hoff, length_digits, digits_lt hptrs hn⟩

theorem path_lt_path (h : blockToPath ptrs lbn = .ok path) (h' : blockToPath ptrs lbn' = .ok path')
    (hlt : lbn < lbn') : path < path' := by
  obtain ⟨off, n, hoff, rfl, hn, rfl⟩ := of_blockToPath_eq_ok h
  obtain ⟨off', n', hoff', rfl, hn', rfl⟩ := of_blockToPath_eq_ok h'
  rw [List.cons_lt_cons_iff]
  rcases lt_trichotomy off off' with hoffs | rfl | hoffs
  · exact .inl hoffs
  · exact .inr ⟨rfl, digits_lt_digits hptrs (by omega) hn'⟩
  · have hle := rootRange_le ptrs hoffs hoff.le
    omega

/-- The blocks whose path begins with some offsets are those in the interval the truncation
computes. -/
theorem prefix_path_iff (hpath : IsPath ptrs path) (hpre : pre ≠ []) (hstart : pre <+: path) :
    (∃ path', blockToPath ptrs lbn = .ok path' ∧ pre <+: path') ↔
      (trimRange ptrs pre).1 ≤ lbn ∧ lbn < (trimRange ptrs pre).1 + (trimRange ptrs pre).2 := by
  obtain ⟨off, offs, rfl, hoff, hlen, hoffs⟩ := hpath
  obtain ⟨off', pre, rfl⟩ := List.exists_cons_of_ne_nil hpre
  obtain ⟨rfl, hrest⟩ := List.cons_prefix_cons.mp hstart
  have hpre : ∀ i ∈ pre, i < ptrs := fun i hi => hoffs i (hrest.subset hi)
  have hle : pre.length ≤ slotDepth off' := hlen ▸ hrest.length_le
  have hrange : trimRange ptrs (off' :: pre) =
      pre.foldl (part ptrs) ((rootRange ptrs off').1, ptrs ^ slotDepth off') := by
    rw [trimRange, ← rootRange_snd ptrs hoff.le]
  rw [hrange]
  constructor
  · rintro ⟨path', hok, hpre'⟩
    obtain ⟨off, n, -, rfl, hn, rfl⟩ := of_blockToPath_eq_ok hok
    obtain ⟨rfl, hpre'⟩ := List.cons_prefix_cons.mp hpre'
    exact (prefix_digits_iff hptrs hpre hle hn).mp hpre'
  · intro hin
    -- the interval is a part of the interval of the slot
    obtain ⟨hlow, hhigh⟩ := foldl_part_le (a := (rootRange ptrs off').1) hptrs hpre hle
    obtain ⟨n, rfl⟩ := Nat.exists_eq_add_of_le (hlow.trans hin.1)
    have hn : n < ptrs ^ slotDepth off' := by omega
    refine ⟨_, blockToPath_slot hoff hn, List.cons_prefix_cons.mpr ⟨rfl, ?_⟩⟩
    exact (prefix_digits_iff hptrs hpre hle hn).mpr hin

end

/-- The division from the top and the sums of the truncation describe one tree. -/
theorem pathsOk_of_le (hptrs : 1 ≤ ptrs) (hmax : ptrs ≤ 1024) : PathsOk ptrs := by
  refine ⟨fun lbn => ?_, fun lbn hlbn => ?_, fun lbn lbn' path h h' => ?_, fun path hpath => ?_,
    fun lbn lbn' path path' => path_lt_path hptrs, fun path pre hpath hpre hstart lbn =>
      prefix_path_iff hptrs hpath hpre hstart, truncateBlocks_eq ptrs⟩
  · rcases blockToPath_cases ptrs lbn with ⟨hle, herr⟩ | ⟨off, n, hoff, rfl, hn, hok⟩
    · exact iff_of_true herr hle
    · have hle := rootRange_le ptrs hoff le_rfl
      rw [rootRange_nBlocks] at hle
      exact iff_of_false (by simp [hok]) (by omega)
  · rcases blockToPath_cases ptrs lbn with ⟨hle, -⟩ | ⟨off, n, -, -, -, hok⟩
    · omega
    · exact ⟨_, hok, isPath_of_blockToPath hptrs hok⟩
  · rcases lt_trichotomy lbn lbn' with hlt | heq | hlt
    · exact absurd (path_lt_path hptrs h h' hlt) (lt_irrefl path)
    · exact heq
    · exact absurd (path_lt_path hptrs h' h hlt) (lt_irrefl path)
  · obtain ⟨off, offs, rfl, hoff, hlen, hoffs⟩ := hpath
    obtain ⟨n, hn, hdigits⟩ := exists_digits hptrs hoffs
    rw [hlen] at hn hdigits
    have hle := rootRange_le ptrs hoff le_rfl
    have hsquare : ptrs ^ 2 ≤ 1024 ^ 2 := Nat.pow_le_pow_left hmax 2
    have hcube : ptrs ^ 3 ≤ 1024 ^ 3 := Nat.pow_le_pow_left hmax 3
    rw [rootRange_nBlocks, maxBlocks, ndirBlocks] at hle
    exact ⟨_, by omega, hdigits ▸ blockToPath_slot hoff hn⟩

theorem pathsOk_pageBlocks : PathsOk 1024 := pathsOk_of_le (by decide) le_rfl

end Nuvix.Ext2
