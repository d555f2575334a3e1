import Nuvix.Fs.Ext2Alloc
import Nuvix.Fs.Ext2Bmap

/-!
# ext2: filling a page of a file

`ext2_read_file_page` of `fs/ext2/file.c` reads the block of a page, if there is one, and clears
what lies behind the end of the file. How much that is, is computed from the distance of the page to
the end as an unsigned number. Where the whole page lies behind the end this number wraps, nothing
is cleared, and the page shows what the block holds on the disk.
-/

namespace Nuvix.Ext2

open Bytes

/-! ### The block map -/

/-- The number at the end of a path through indirect blocks. -/
def walk (mem : Store) : List ℕ → ℕ → ℕ
  | [], phys => phys
  | off :: offs, phys => walk mem offs (if phys = 0 then 0 else ptr mem phys off)

/-- The block of a logical block of an inode, or 0. -/
def blockAt (mem : Store) (data : ℕ → ℕ) (lbn : ℕ) : ℕ :=
  match blockToPath ptrs lbn with
  | .ok (off :: offs) => walk mem offs (data off)
  | _ => 0

variable {env : Env} {s s' : Fs}

/-- The calls differ by how often the mapping was called. -/
def Fs.Same (s s' : Fs) : Prop := s'.mem = s.mem ∧ s'.inode = s.inode

theorem Fs.Same.trans {s'' : Fs} (h : s.Same s') (h' : s'.Same s'') : s.Same s'' :=
  ⟨h'.1.trans h.1, h'.2.trans h.2⟩

theorem runs_mappingGet (env : Env) (s : Fs) (blk : ℕ) :
    (mappingGet env blk).Runs s (fun _ s' => s.Same s') fun _ s' => s.Same s' := by
  unfold Prog.Runs
  by_cases h : Readable env s blk
  · rw [mappingGet_ok h]
    exact ⟨rfl, rfl⟩
  · obtain ⟨e, he⟩ := mappingGet_err h
    rw [he]
    exact ⟨rfl, rfl⟩

theorem runs_readPtr (env : Env) (s : Fs) (blk idx : ℕ) : (readPtr env blk idx).Runs s
    (fun v s' => v = (if blk = 0 then 0 else ptr s.mem blk idx) ∧ s.Same s')
    fun _ s' => s.Same s' := by
  unfold readPtr
  split
  · exact ⟨rfl, rfl, rfl⟩
  · refine (runs_mappingGet env s blk).bind (fun _ s' h => ?_) fun _ _ => id
    exact ⟨by rw [h.1], h⟩

theorem runs_readPath (env : Env) (s : Fs) (offs : List ℕ) (phys : ℕ) :
    (readPath env offs phys).Runs s
    (fun v s' => v = walk s.mem offs phys ∧ s.Same s') fun _ s' => s.Same s' := by
  induction offs generalizing s phys with
  | nil => exact ⟨rfl, rfl, rfl⟩
  | cons off offs ih =>
    refine (runs_readPtr env s phys off).bind (fun v s' h => ?_) fun _ _ => id
    refine (ih s' v).mono (fun v' s'' h' => ?_) fun _ s'' h' => h.2.trans h'
    rw [h.2.1] at h'
    rw [walk, ← h.1]
    exact ⟨h'.1, h.2.trans h'.2⟩

/-- `ext2_bmap` reads the block map and changes nothing. -/
theorem runs_bmap (env : Env) (s : Fs) (lbn : ℕ) : (bmap env lbn).Runs s
    (fun v s' => v = blockAt s.mem s.inode.data lbn ∧ s.Same s') fun _ s' => s.Same s' := by
  unfold bmap blockAt
  split
  · exact ⟨rfl, rfl⟩
  next h =>
    rw [h]
    exact ⟨rfl, rfl, rfl⟩
  next off offs h =>
    rw [h]
    exact runs_readPath env s offs (s.inode.data off)

/-! ### Pages -/

/-- A device: its bytes, and with what the next read fails, if it does. -/
structure Device where
  bytes : Store
  fails : Option Errno

/-- The bytes of the page that are kept: `MIN((uint64_t)inode->i_size - off, PAGE_SIZE)`. -/
def keptBytes (size index : ℕ) : ℕ :=
  let off := index * blockSize % 2 ^ 64
  min ((size + (2 ^ 64 - off)) % 2 ^ 64) blockSize

/-- `ext2_read_file_page`. -/
def readFilePage (env : Env) (dev : Device) (size index : ℕ) (page : Store) : Call Store := do
  let blk ← bmap env (index % 2 ^ 32)
  if blk = 0 then return fill page 0 blockSize 0
  else
    let s ← Prog.get
    if blk ≥ blocksCount s.mem then Prog.throw .eio
    else
      let sect := blk * blockSize / 512
      match dev.fails with
      | some e => Prog.throw e
      | none =>
        let len := keptBytes size index
        return fill (fun j => dev.bytes (sect * 512 + j)) len (blockSize - len) 0

/-- Byte `j` of the page is byte `j` of the block of the page, or 0 if there is none, and 0 behind
the end of the file. -/
def PageOk (s : Fs) (dev : Device) (size index : ℕ) (page : Store) : Prop :=
  let blk := blockAt s.mem s.inode.data index
  ∀ j < blockSize, page j =
    if size ≤ index * blockSize + j ∨ blk = 0 then 0 else dev.bytes (blk * blockSize + j)

/-- The page lies behind the end of the file, and one of the bytes that are kept is not 0. -/
def Exposed (s : Fs) (dev : Device) (size index : ℕ) : Prop :=
  let blk := blockAt s.mem s.inode.data (index % 2 ^ 32)
  size < index * blockSize ∧ blk ≠ 0 ∧
    ∃ j < keptBytes size index, dev.bytes (blk * blockSize + j) ≠ 0

/-- For a page that starts in the file, or at its end, nothing wraps. -/
theorem keptBytes_of_le {size index : ℕ} (hsize : size < 2 ^ 32) (h : index * blockSize ≤ size) :
    keptBytes size index = min (size - index * blockSize) blockSize := by
  unfold keptBytes
  generalize index * blockSize = off at *
  have hoff : off % 2 ^ 64 = off := Nat.mod_eq_of_lt (by omega)
  have hdist : (size + (2 ^ 64 - off)) % 2 ^ 64 = size - off := by omega
  dsimp only
  rw [hoff, hdist]

/-- What a page holds that was filled. -/
theorem readFilePage_eq {dev : Device} {size index : ℕ} {page page' : Store}
    (h : readFilePage env dev size index page s = (.ok page', s')) (j : ℕ) (hj : j < blockSize) :
    let blk := blockAt s.mem s.inode.data (index % 2 ^ 32)
    page' j = if blk = 0 ∨ keptBytes size index ≤ j then 0
      else dev.bytes (blk * blockSize + j) := by
  intro blk
  have hrun : (readFilePage env dev size index page).Runs s (fun page' _ => page' j =
      if blk = 0 ∨ keptBytes size index ≤ j then 0 else dev.bytes (blk * blockSize + j))
      fun _ _ => True := by
    refine (runs_bmap env s _).bind (fun v s₁ hv => ?_) fun _ _ _ => trivial
    obtain ⟨rfl, -⟩ := hv
    split
    next hzero =>
      refine Prog.Runs.pure ?_
      rw [if_pos (.inl hzero), fill, if_pos ⟨Nat.zero_le j, by omega⟩]
    next hblk =>
      refine Prog.Runs.get_bind ?_
      split
      · exact Prog.Runs.throw trivial
      · cases dev.fails with
        | some e => exact Prog.Runs.throw trivial
        | none =>
          have hsect : blk * blockSize / 512 * 512 = blk * blockSize :=
            Nat.div_mul_cancel (Dvd.dvd.mul_left (by decide) _)
          refine Prog.Runs.pure ?_
          have hkept : keptBytes size index ≤ blockSize := min_le_right _ _
          unfold fill
          by_cases hlen : keptBytes size index ≤ j
          · rw [if_pos ⟨hlen, by omega⟩, if_pos (.inr hlen)]
          · rw [if_neg (by omega), if_neg (by rintro (h | h); exacts [hblk h, hlen h]), hsect]
  exact hrun.of_eq.1 page' h

/-- **Filling a page.** For every inode, block map, page and disk. -/
theorem pageOk_iff {dev : Device} {size index : ℕ} {page page' : Store} (hsize : size < 2 ^ 32)
    (h : readFilePage env dev size index page s = (.ok page', s')) :
    PageOk s dev size index page' ↔ ¬ Exposed s dev size index := by
  have hpage := readFilePage_eq h
  unfold PageOk Exposed
  dsimp only
  by_cases hin : index * blockSize ≤ size
  · -- The page starts in the file, so its number is not cut off either.
    have hindex : index % 2 ^ 32 = index := Nat.mod_eq_of_lt (by unfold blockSize at hin; omega)
    rw [hindex] at hpage ⊢
    refine iff_of_true (fun j hj => ?_) fun h => absurd h.1 (not_lt.mpr hin)
    rw [hpage j hj, keptBytes_of_le hsize hin]
    refine if_congr ?_ rfl rfl
    omega
  · -- The page lies behind the end, and should be all zeros.
    push Not at hin
    constructor
    · rintro hok ⟨-, hblk, j, hj, hbyte⟩
      have hkept : keptBytes size index ≤ blockSize := min_le_right _ _
      have hzero := hok j (by omega)
      rw [hpage j (by omega), if_neg (by omega), if_pos (by omega)] at hzero
      exact hbyte hzero
    · intro hnot j hj
      rw [hpage j hj, if_pos (Or.inl (by omega : size ≤ index * blockSize + j))]
      split
      · rfl
      next hcond =>
        push Not at hcond
        by_contra hbyte
        exact hnot ⟨hin, hcond.1, j, hcond.2, hbyte⟩

/-- A file whose first two blocks are mapped, on a disk full of ones. -/
def mappedFile : Fs := { image 56 56 with inode := ⟨fun i => if i < 2 then 19 + i else 0, 16⟩ }

def onesDevice : Device := ⟨fun _ => 1, none⟩

/-- What is read of one of the two blocks. -/
theorem readFilePage_mappedFile (size index : ℕ) (hindex : index < 2) :
    readFilePage quietEnv onesDevice size index (fun _ => 7) mappedFile =
      (.ok (fill (fun _ => 1) (keptBytes size index) (blockSize - keptBytes size index) 0),
        mappedFile) := by
  have hcount : blocksCount mappedFile.mem = 64 := by decide +kernel
  have hblk : ¬ 19 + index ≥ blocksCount mappedFile.mem := by
    rw [hcount]
    omega
  have hbmap : bmap quietEnv (index % 2 ^ 32) mappedFile = (.ok (19 + index), mappedFile) := by
    rcases (by omega : index = 0 ∨ index = 1) with rfl | rfl <;> rfl
  rw [readFilePage, Prog.bind_of_ok hbmap, if_neg (by omega), Prog.get_bind, if_neg hblk]
  rfl

/-- The file is empty, and its second page is not all zeros. -/
theorem not_pageOk_pastEnd : ∃ page' s',
    readFilePage quietEnv onesDevice 0 1 (fun _ => 7) mappedFile = (.ok page', s') ∧ page' 0 = 1 ∧
      ¬ PageOk mappedFile onesDevice 0 1 page' := by
  refine ⟨_, _, readFilePage_mappedFile 0 1 (by decide), by decide, fun hok => ?_⟩
  have hzero := hok 0 (by decide)
  exact absurd hzero (by decide)

/-- The file has a hundred bytes. -/
theorem pageOk_firstPage : ∃ page' s',
    readFilePage quietEnv onesDevice 100 0 (fun _ => 7) mappedFile = (.ok page', s') ∧
      PageOk mappedFile onesDevice 100 0 page' ∧ page' 99 = 1 ∧ page' 100 = 0 := by
  have hrun := readFilePage_mappedFile 100 0 (by decide)
  refine ⟨_, _, hrun, (pageOk_iff (by decide) hrun).mpr ?_, by decide, by decide⟩
  rintro ⟨hlt, -⟩
  exact absurd hlt (by decide)

end Nuvix.Ext2
