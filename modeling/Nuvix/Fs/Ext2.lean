import Nuvix.Errno
import Nuvix.Lib.Bitmap
import Nuvix.Lib.Bytes
import Nuvix.Lib.Prog

/-!
# ext2: blocks

`fs/ext2/super.c` and `balloc.c`. The pages of the metadata mapping are one memory: byte
`off` of block `blk` is at `blk * blockSize + off`. So the superblock, the group descriptors, the
bitmaps and the indirect blocks are bytes that nothing keeps apart, as on a disk that says so.

Every `mapping_get` may fail, and a page that was purged and is read again holds whatever the disk
holds. Both are given by the environment, for each call by its number. Blocks are allocated and
freed under a mutex of the file system, and the block map of an inode is read and changed under the
mutex of the inode, so a call is one computation on the state.
-/

namespace Nuvix.Ext2

open Bytes

/-- `sbi->block_size`, which `ext2_check_super` accepts only as the size of a page. -/
def blockSize : ℕ := 4096

/-- `sbi->block_size / BLK_SECTOR_SIZE`. -/
def blockSectors : ℕ := blockSize / 512

/-- The number of block numbers in an indirect block. -/
def ptrs : ℕ := blockSize / 4

/-- `EXT2_NDIR_BLOCKS`. -/
def ndirBlocks : ℕ := 12

/-- `EXT2_IND_BLOCK`. -/
def indBlock : ℕ := 12

/-- `EXT2_DIND_BLOCK`. -/
def dindBlock : ℕ := 13

/-- `EXT2_TIND_BLOCK`. -/
def tindBlock : ℕ := 14

/-- `EXT2_N_BLOCKS`. -/
def nBlocks : ℕ := 15

/-! ### The superblock -/

/-- `EXT2_SUPER_OFFSET`. -/
def superOffset : ℕ := 1024

/-- `EXT2_SUPER_MAGIC`. -/
def superMagic : ℕ := 0xEF53

/-- `EXT2_GOOD_OLD_INODE_SIZE`. -/
def goodOldInodeSize : ℕ := 128

def inodesCount (mem : Store) : ℕ := load mem (superOffset + 0) 4

def blocksCount (mem : Store) : ℕ := load mem (superOffset + 4) 4

def freeBlocksCount (mem : Store) : ℕ := load mem (superOffset + 12) 4

def firstDataBlock (mem : Store) : ℕ := load mem (superOffset + 20) 4

def logBlockSize (mem : Store) : ℕ := load mem (superOffset + 24) 4

def blocksPerGroup (mem : Store) : ℕ := load mem (superOffset + 32) 4

def inodesPerGroup (mem : Store) : ℕ := load mem (superOffset + 40) 4

def magic (mem : Store) : ℕ := load mem (superOffset + 56) 2

def revLevel (mem : Store) : ℕ := load mem (superOffset + 76) 4

def superInodeSize (mem : Store) : ℕ := load mem (superOffset + 88) 2

/-- `ext2_check_super`; the sizes of a block and of an inode. -/
def checkSuper (mem : Store) : Except Errno (ℕ × ℕ) :=
  if magic mem ≠ superMagic then .error .einval
  else if logBlockSize mem ≠ 2 then .error .eopnotsupp
  else
    let bsize := 1024 <<< logBlockSize mem
    let isize := if revLevel mem = 0 then goodOldInodeSize else superInodeSize mem
    if isize < goodOldInodeSize ∨ isize > bsize ∨ bsize % isize ≠ 0 then .error .einval
    else if blocksCount mem = 0 ∨ inodesCount mem = 0 ∨ blocksPerGroup mem = 0 ∨
        inodesPerGroup mem = 0 then .error .einval
    else .ok (bsize, isize)

/-! ### The state -/

/-- What a call does not control: with what each `mapping_get` fails, if it does, and what a page
holds that is read again after it was purged. -/
structure Env where
  fails : ℕ → Option Errno
  stale : ℕ → Store

/-- The block map of an inode: `ext2_i(inode)->data` and `i_blocks`. -/
structure Inode where
  data : ℕ → ℕ
  blocks : ℕ

/-- The metadata, the number of calls of the mapping so far, and the inode at hand. -/
structure Fs where
  mem : Store
  calls : ℕ
  inode : Inode

/-- A call. -/
abbrev Call := Prog Fs Errno

/-- `mapping_get` of the metadata mapping, with `ext2_read_metadata_page`. -/
def mappingGet (env : Env) (blk : ℕ) : Call Unit := do
  let s ← Prog.get
  Prog.modify fun s => { s with calls := s.calls + 1 }
  match env.fails s.calls with
  | some e => Prog.throw e
  | none => if blk ≠ 0 ∧ blk ≥ blocksCount s.mem then Prog.throw .eio else return ()

/-- The memory with another contents of one block. -/
def setBlock (mem : Store) (blk : ℕ) (page : Store) : Store :=
  fun x => if blk * blockSize ≤ x ∧ x < (blk + 1) * blockSize then page (x - blk * blockSize)
    else mem x

/-- `mapping_purge` of one block. -/
def mappingPurge (env : Env) (blk : ℕ) : Call Unit :=
  Prog.modify fun s =>
    { s with mem := setBlock s.mem blk (env.stale s.calls), calls := s.calls + 1 }

/-! ### Groups -/

/-- `sizeof(struct ext2_group_desc)`. -/
def sizeofGroupDesc : ℕ := 32

/-- The block of the descriptor of a group. -/
def descBlock (mem : Store) (grp : ℕ) : ℕ :=
  (firstDataBlock mem + 1 + grp / (blockSize / sizeofGroupDesc)) % 2 ^ 32

/-- The address of the descriptor of a group. -/
def descAddr (mem : Store) (grp : ℕ) : ℕ :=
  descBlock mem grp * blockSize + grp % (blockSize / sizeofGroupDesc) * sizeofGroupDesc

/-- `desc->bg_block_bitmap`. -/
def blockBitmap (mem : Store) (desc : ℕ) : ℕ := load mem desc 4

/-- `desc->bg_free_blocks_count`. -/
def groupFreeBlocks (mem : Store) (desc : ℕ) : ℕ := load mem (desc + 12) 2

/-- `ext2_get_grp_desc`. -/
def getGrpDesc (env : Env) (grp : ℕ) : Call ℕ := do
  let s ← Prog.get
  mappingGet env (descBlock s.mem grp)
  return descAddr s.mem grp

/-! ### Allocation: `balloc.c` -/

/-- `ext2_check_params`. -/
def checkParams : Call Unit := do
  let s ← Prog.get
  if firstDataBlock s.mem ≥ blocksCount s.mem ∨ blocksPerGroup s.mem > blockSize * 8 then
    Prog.throw .euclean
  else if freeBlocksCount s.mem = 0 then Prog.throw .enospc
  else return ()

/-- A counter of `n` bytes that wraps. -/
def addTo (mem : Store) (a n : ℕ) (delta : ℤ) : Store :=
  store mem a n (((load mem a n : ℤ) + delta) % (256 ^ n : ℕ)).toNat

/-- `ext2_update_free`. -/
def updateFree (desc : ℕ) (delta : ℤ) : Call Unit := do
  Prog.modify fun s => { s with mem := addTo s.mem (desc + 12) 2 delta }
  Prog.modify fun s => { s with mem := addTo s.mem (superOffset + 12) 4 delta }

/-- `find_first_zero_bit` of the bitmap in a block. -/
def findFirstZeroBit (mem : Store) (blk nr : ℕ) : ℕ :=
  Bitmap.findNextZero (testBit mem (blk * blockSize)) nr 0

/-- `ext2_alloc_group_block`. -/
def allocGroupBlock (env : Env) (desc first bblk : ℕ) : Call ℕ := do
  let s ← Prog.get
  let nr := min (blocksPerGroup s.mem) (blocksCount s.mem - first)
  mappingGet env bblk
  let s ← Prog.get
  let bit := findFirstZeroBit s.mem bblk nr
  if bit = nr ∨ first + bit = 0 then Prog.throw .euclean
  else
    Prog.modify fun s => { s with mem := setBit s.mem (bblk * blockSize) bit }
    updateFree desc (-1)
    return first + bit

/-- The loop of `ext2_alloc_block`; `none` if it ends without a block, and `*blk` is not set. -/
def allocLoop (env : Env) : ℕ → ℕ → ℕ → Call (Option ℕ)
  | 0, _, _ => return none
  | turns + 1, grp, first => do
    let s ← Prog.get
    if first < blocksCount s.mem then
      let desc ← getGrpDesc env grp
      let s ← Prog.get
      if groupFreeBlocks s.mem desc = 0 then
        allocLoop env turns (grp + 1) (first + blocksPerGroup s.mem)
      else
        let blk ← allocGroupBlock env desc first (blockBitmap s.mem desc)
        return some blk
    else return none

/-- `ext2_alloc_block`; every turn of the loop passes at least one block. -/
def allocBlock (env : Env) : Call (Option ℕ) := do
  checkParams
  let s ← Prog.get
  allocLoop env (blocksCount s.mem - firstDataBlock s.mem) 0 (firstDataBlock s.mem)

/-- `ext2_free_block`. -/
def freeBlock (env : Env) (blk : ℕ) : Call Unit := do
  let s ← Prog.get
  Prog.assert (blk ≠ 0 ∧ blk ≥ firstDataBlock s.mem ∧ blk < blocksCount s.mem)
  let grp := (blk - firstDataBlock s.mem) / blocksPerGroup s.mem
  let bit := (blk - firstDataBlock s.mem) % blocksPerGroup s.mem
  let desc ← getGrpDesc env grp
  let s ← Prog.get
  let bblk := blockBitmap s.mem desc
  mappingGet env bblk
  mappingPurge env blk
  let s ← Prog.get
  Prog.assert (testBit s.mem (bblk * blockSize) bit)
  Prog.modify fun s => { s with mem := clearBit s.mem (bblk * blockSize) bit }
  updateFree desc 1

end Nuvix.Ext2
