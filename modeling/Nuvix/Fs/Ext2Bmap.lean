import Nuvix.Fs.Ext2

/-!
# ext2: block maps

`fs/ext2/bmap.c`. An inode has 12 block numbers for its first blocks and one each for an indirect,
a doubly and a triply indirect block. A block number is 0 where the file has a hole. Truncation
frees the blocks behind a limit and every indirect block that it leaves empty.
-/

namespace Nuvix.Ext2

open Bytes

/-- `ext2_block_to_path`, for `ptrs` numbers in a block: the offsets, as many as the depth. -/
def blockToPath (ptrs lbn : ℕ) : Except Errno (List ℕ) :=
  if lbn < ndirBlocks then .ok [lbn]
  else
    let n := lbn - ndirBlocks
    if n < ptrs then .ok [indBlock, n]
    else
      let n := n - ptrs
      if n < ptrs * ptrs then .ok [dindBlock, n / ptrs, n % ptrs]
      else
        let n := n - ptrs * ptrs
        if n ≥ ptrs * ptrs * ptrs then .error .efbig
        else .ok [tindBlock, n / (ptrs * ptrs), n / ptrs % ptrs, n % ptrs]

/-- The address of entry `idx` of an indirect block. -/
def ptrAddr (blk idx : ℕ) : ℕ := blk * blockSize + 4 * idx

/-- Entry `idx` of an indirect block. -/
def ptr (mem : Store) (blk idx : ℕ) : ℕ := load mem (ptrAddr blk idx) 4

/-- `ext2_read_ptr`. -/
def readPtr (env : Env) (blk idx : ℕ) : Call ℕ := do
  if blk = 0 then return 0
  else
    mappingGet env blk
    let s ← Prog.get
    return ptr s.mem blk idx

/-- The loop of `ext2_bmap`. -/
def readPath (env : Env) : List ℕ → ℕ → Call ℕ
  | [], phys => return phys
  | off :: offs, phys => do
    let phys ← readPtr env phys off
    readPath env offs phys

/-- `ext2_bmap`. -/
def bmap (env : Env) (lbn : ℕ) : Call ℕ := do
  match blockToPath ptrs lbn with
  | .error e => Prog.throw e
  | .ok [] => return 0
  | .ok (off :: offs) =>
    let s ← Prog.get
    readPath env offs (s.inode.data off)

/-! ### Truncation -/

/-- A place where a block number is: in the inode, or in an indirect block. -/
inductive Slot
  | inode (i : ℕ)
  | page (blk idx : ℕ)
  deriving DecidableEq, Repr

def Slot.read (s : Fs) : Slot → ℕ
  | inode i => s.inode.data i
  | page blk idx => ptr s.mem blk idx

def Slot.write (s : Fs) (v : ℕ) : Slot → Fs
  | inode i => { s with inode := { s.inode with data := Function.update s.inode.data i v } }
  | page blk idx => { s with mem := store s.mem (ptrAddr blk idx) 4 v }

/-- Change `i_blocks`. -/
def Fs.addBlocks (s : Fs) (f : ℕ → ℕ) : Fs :=
  { s with inode := { s.inode with blocks := f s.inode.blocks } }

/-- `ext2_trim_branch`. -/
def trimBranch (ptrs : ℕ) (env : Env) (keep : ℕ) : ℕ → Slot → ℕ → ℕ → Call Unit
  | depth, slot, first, span => do
    let s ← Prog.get
    let blk := slot.read s
    if blk = 0 ∨ first + span ≤ keep then return ()
    else
      let empty ← match depth with
        | 0 => pure true
        | depth + 1 => do
          mappingGet env blk
          (List.range ptrs).foldlM (fun empty i => do
            trimBranch ptrs env keep depth (.page blk i) (first + i * (span / ptrs)) (span / ptrs)
            let s ← Prog.get
            return empty && ptr s.mem blk i == 0) true
      if empty then
        freeBlock env blk
        Prog.modify fun s => (slot.write s 0).addBlocks (· - blockSectors)
      else return ()

/-- The second loop of `ext2_truncate_blocks`, from slot `i` on. -/
def truncateIndirect (ptrs : ℕ) (env : Env) (keep : ℕ) : ℕ → ℕ → ℕ → ℕ → Call Unit
  | 0, _, _, _ => return ()
  | turns + 1, i, first, span => do
    let span := span * ptrs
    trimBranch ptrs env keep (i - indBlock + 1) (.inode i) first span
    truncateIndirect ptrs env keep turns (i + 1) (first + span) span

/-- `ext2_truncate_blocks`. -/
def truncateBlocks (ptrs : ℕ) (env : Env) (keep : ℕ) : Call Unit := do
  (List.range ndirBlocks).forM fun i => trimBranch ptrs env keep 0 (.inode i) i 1
  truncateIndirect ptrs env keep (nBlocks - indBlock) indBlock ndirBlocks 1

end Nuvix.Ext2
