import Nuvix.Fs.Ext2

/-!
# ext2: when an allocation has allocated

`ext2_alloc_block` looks for the first group with free blocks, by its count. What it returns is
followed here for every contents of the metadata: that counts agree with each other and with the
bitmaps is not assumed. Two cases come out wrong. If the superblock says that blocks are free and
every group says that it has none, the loop ends with the result of `ext2_check_params`, which is 0,
and no block number is stored. And if the bitmap lies where one of the two counts is, the bit that
is set changes the count.
-/

namespace Nuvix.Ext2

open Bytes

variable {env : Env} {s : Fs} {blk grp desc first bblk : ℕ}

/-! ### Pages -/

/-- What an accepted superblock says: a block is a page, and groups are not empty. -/
theorem checkSuper_spec {mem : Store} {sizes : ℕ × ℕ} (h : checkSuper mem = .ok sizes) :
    sizes.1 = blockSize ∧ blocksPerGroup mem ≠ 0 := by
  unfold checkSuper at h
  generalize (if revLevel mem = 0 then goodOldInodeSize else superInodeSize mem) = isize at h
  dsimp only at h
  split_ifs at h with hmagic hlog hisize hcounts
  cases h
  push Not at hlog hcounts
  exact ⟨by rw [hlog]; rfl, hcounts.2.2.1⟩

/-- After further calls of the mapping. -/
def Fs.after (s : Fs) (n : ℕ) : Fs := { s with calls := s.calls + n }

/-- The next `mapping_get` gets this block. -/
def Readable (env : Env) (s : Fs) (blk : ℕ) : Prop :=
  env.fails s.calls = none ∧ (blk = 0 ∨ blk < blocksCount s.mem)

theorem mappingGet_ok (h : Readable env s blk) : mappingGet env blk s = (.ok (), s.after 1) := by
  have hblk : ¬ (blk ≠ 0 ∧ blk ≥ blocksCount s.mem) := by
    have := h.2
    omega
  simp only [mappingGet, Prog.get_bind, Prog.modify_bind, h.1, if_neg hblk, Prog.pure_apply]
  rfl

theorem mappingGet_err (h : ¬ Readable env s blk) :
    ∃ e, mappingGet env blk s = (.err e, s.after 1) := by
  unfold mappingGet
  simp only [Prog.get_bind, Prog.modify_bind]
  cases hfails : env.fails s.calls with
  | some e => exact ⟨e, rfl⟩
  | none =>
    have hblk : blk ≠ 0 ∧ blk ≥ blocksCount s.mem := by
      by_contra hcon
      exact h ⟨hfails, by omega⟩
    simp only [if_pos hblk]
    exact ⟨.eio, rfl⟩

theorem getGrpDesc_ok (h : Readable env s (descBlock s.mem grp)) :
    getGrpDesc env grp s = (.ok (descAddr s.mem grp), s.after 1) := by
  simp only [getGrpDesc, Prog.get_bind, Prog.bind_of_ok (mappingGet_ok h), Prog.pure_apply]

theorem getGrpDesc_err (h : ¬ Readable env s (descBlock s.mem grp)) :
    ∃ e, getGrpDesc env grp s = (.err e, s.after 1) := by
  obtain ⟨e, he⟩ := mappingGet_err h
  exact ⟨e, by simp only [getGrpDesc, Prog.get_bind, Prog.bind_of_err he]⟩

/-! ### One group -/

/-- What an allocation does to the metadata. -/
def takeBit (mem : Store) (desc a bit : ℕ) : Store :=
  addTo (addTo (setBit mem a bit) (desc + 12) 2 (-1)) (superOffset + 12) 4 (-1)

/-- The number of blocks of a group. -/
def groupBlocks (mem : Store) (first : ℕ) : ℕ := min (blocksPerGroup mem) (blocksCount mem - first)

/-- `ext2_alloc_group_block` finds a bit. -/
def Finds (env : Env) (s : Fs) (first bblk : ℕ) : Prop :=
  let bit := findFirstZeroBit s.mem bblk (groupBlocks s.mem first)
  Readable env s bblk ∧ bit ≠ groupBlocks s.mem first ∧ first + bit ≠ 0

theorem allocGroupBlock_ok (h : Finds env s first bblk) :
    let bit := findFirstZeroBit s.mem bblk (groupBlocks s.mem first)
    allocGroupBlock env desc first bblk s =
      (.ok (first + bit), { s.after 1 with mem := takeBit s.mem desc (bblk * blockSize) bit }) := by
  obtain ⟨hread, hbit, hnull⟩ := h
  intro bit
  have hcond : ¬ (bit = groupBlocks s.mem first ∨ first + bit = 0) := by
    rintro (h | h)
    · exact hbit h
    · exact hnull h
  simp only [allocGroupBlock, Prog.get_bind, Prog.bind_of_ok (mappingGet_ok hread)]
  exact if_neg hcond ▸ rfl

theorem allocGroupBlock_err (desc : ℕ) (h : ¬ Finds env s first bblk) :
    ∃ e, allocGroupBlock env desc first bblk s = (.err e, s.after 1) := by
  unfold allocGroupBlock
  simp only [Prog.get_bind]
  by_cases hread : Readable env s bblk
  · have hcond : findFirstZeroBit s.mem bblk (groupBlocks s.mem first) = groupBlocks s.mem first ∨
        first + findFirstZeroBit s.mem bblk (groupBlocks s.mem first) = 0 := by
      by_contra hcon
      push Not at hcon
      exact h ⟨hread, hcon.1, hcon.2⟩
    rw [Prog.bind_of_ok (mappingGet_ok hread), Prog.get_bind]
    exact ⟨.euclean, congrFun (if_pos hcond) _⟩
  · obtain ⟨e, he⟩ := mappingGet_err hread
    exact ⟨e, Prog.bind_of_err he⟩

/-! ### The groups in turn -/

/-- The first block of a group. -/
def groupFirst (mem : Store) (grp : ℕ) : ℕ := firstDataBlock mem + grp * blocksPerGroup mem

/-- The loop gets to see the descriptor of a group, if it comes to it. -/
def Sees (env : Env) (s : Fs) (grp : ℕ) : Prop :=
  groupFirst s.mem grp < blocksCount s.mem ∧ Readable env (s.after grp) (descBlock s.mem grp)

/-- The loop comes to a group: it has seen all groups before, and they have no free blocks. -/
def Comes (env : Env) (s : Fs) (grp : ℕ) : Prop :=
  ∀ g < grp, Sees env s g ∧ groupFreeBlocks s.mem (descAddr s.mem g) = 0

theorem Comes.succ (h : Comes env s grp) (hsees : Sees env s grp)
    (hfree : groupFreeBlocks s.mem (descAddr s.mem grp) = 0) : Comes env s (grp + 1) := by
  intro g hg
  rcases Nat.lt_succ_iff_lt_or_eq.mp hg with hlt | rfl
  · exact h g hlt
  · exact ⟨hsees, hfree⟩

/-- What the loop comes to: the end, a descriptor that cannot be read, or a group with free
blocks. -/
theorem allocLoop_cases (hpos : 0 < blocksPerGroup s.mem) (turns grp : ℕ) (hcomes : Comes env s grp)
    (hturns : blocksCount s.mem ≤ groupFirst s.mem grp + turns) : ∃ g, Comes env s g ∧
      ((blocksCount s.mem ≤ groupFirst s.mem g ∧
        allocLoop env turns grp (groupFirst s.mem grp) (s.after grp) = (.ok none, s.after g)) ∨
      (groupFirst s.mem g < blocksCount s.mem ∧ ¬ Sees env s g ∧ ∃ e,
        allocLoop env turns grp (groupFirst s.mem grp) (s.after grp) = (.err e, s.after (g + 1))) ∨
      (Sees env s g ∧ groupFreeBlocks s.mem (descAddr s.mem g) ≠ 0 ∧
        allocLoop env turns grp (groupFirst s.mem grp) (s.after grp) =
          (allocGroupBlock env (descAddr s.mem g) (groupFirst s.mem g)
            (blockBitmap s.mem (descAddr s.mem g)) >>= fun blk => pure (some blk))
            (s.after (g + 1)))) := by
  induction turns generalizing grp with
  | zero => exact ⟨grp, hcomes, .inl ⟨hturns, rfl⟩⟩
  | succ turns ih =>
    rw [allocLoop, Prog.get_bind]
    by_cases hlt : groupFirst s.mem grp < blocksCount s.mem
    · have hif : groupFirst s.mem grp < blocksCount (s.after grp).mem := hlt
      rw [if_pos hif]
      by_cases hread : Readable env (s.after grp) (descBlock s.mem grp)
      · rw [Prog.bind_of_ok (getGrpDesc_ok hread), Prog.get_bind]
        by_cases hfree : groupFreeBlocks ((s.after grp).after 1).mem
            (descAddr (s.after grp).mem grp) = 0
        · rw [if_pos hfree]
          have hnext : groupFirst s.mem grp + blocksPerGroup s.mem =
              groupFirst s.mem (grp + 1) := by
            unfold groupFirst
            ring
          have hafter : (s.after grp).after 1 = s.after (grp + 1) := rfl
          have hmem : (s.after (grp + 1)).mem = s.mem := rfl
          rw [hafter, hmem, hnext]
          exact ih (grp + 1) (hcomes.succ ⟨hlt, hread⟩ hfree) (by omega)
        · rw [if_neg hfree]
          exact ⟨grp, hcomes, .inr (.inr ⟨⟨hlt, hread⟩, hfree, rfl⟩)⟩
      · obtain ⟨e, he⟩ : ∃ e, getGrpDesc env grp (s.after grp) = (.err e, (s.after grp).after 1) :=
          getGrpDesc_err hread
        rw [Prog.bind_of_err he]
        exact ⟨grp, hcomes, .inr (.inl ⟨hlt, fun h => hread h.2, e, rfl⟩)⟩
    · have hif : ¬ groupFirst s.mem grp < blocksCount (s.after grp).mem := hlt
      rw [if_neg hif]
      exact ⟨grp, hcomes, .inl ⟨not_lt.mp hlt, rfl⟩⟩

/-! ### The counts -/

variable {mem : Store} {a n x bit : ℕ} {delta : ℤ}

theorem addTo_of_not_mem (h : x < a ∨ a + n ≤ x) : addTo mem a n delta x = mem x :=
  store_of_not_mem h

theorem load_addTo :
    load (addTo mem a n delta) a n = (((load mem a n : ℤ) + delta) % (256 ^ n : ℕ)).toNat := by
  have hpos : (0 : ℤ) < (256 ^ n : ℕ) := by
    exact_mod_cast Nat.pow_pos (by norm_num)
  have hlt := Int.emod_lt_of_pos ((load mem a n : ℤ) + delta) hpos
  have hle := Int.emod_nonneg ((load mem a n : ℤ) + delta) hpos.ne'
  exact load_store (by omega)

/-- A count is one less, or was zero and is as large as it gets. -/
theorem load_addTo_neg_one_add_one (mem : Store) (a n : ℕ) :
    load (addTo mem a n (-1)) a n + 1 = load mem a n ∨
    load mem a n = 0 ∧ load (addTo mem a n (-1)) a n + 1 = 256 ^ n := by
  have hlt : load mem a n < 256 ^ n := load_lt
  rw [load_addTo]
  by_cases hzero : load mem a n = 0
  · right
    refine ⟨hzero, ?_⟩
    rw [hzero]
    have : ((((0 : ℕ) : ℤ) + -1) % ((256 ^ n : ℕ) : ℤ)) = ((256 ^ n : ℕ) : ℤ) - 1 := by
      rw [← Int.add_emod_right]
      exact Int.emod_eq_of_lt (by omega) (by omega)
    omega
  · left
    rw [Int.emod_eq_of_lt (by omega) (by omega)]
    omega

/-- The address is a byte of one of the two counts. -/
def InCounts (desc x : ℕ) : Prop :=
  (desc + 12 ≤ x ∧ x < desc + 12 + 2) ∨ (superOffset + 12 ≤ x ∧ x < superOffset + 12 + 4)

/-- A bit elsewhere is set, and the counts go down by one. -/
theorem takeBit_spec (hdesc : blockSize ≤ desc) (hgroup : groupFreeBlocks mem desc ≠ 0)
    (hsuper : freeBlocksCount mem ≠ 0) (h : ¬ InCounts desc (a + bit / 8)) :
    testBit (takeBit mem desc a bit) a bit = true ∧
      groupFreeBlocks (takeBit mem desc a bit) desc + 1 = groupFreeBlocks mem desc ∧
      freeBlocksCount (takeBit mem desc a bit) + 1 = freeBlocksCount mem := by
  unfold InCounts at h
  unfold groupFreeBlocks freeBlocksCount takeBit at *
  have hapart : superOffset + 12 + 4 ≤ desc + 12 := by
    unfold superOffset blockSize at *
    omega
  refine ⟨?_, ?_, ?_⟩
  · rw [testBit_congr (addTo_of_not_mem (by omega)), testBit_congr (addTo_of_not_mem (by omega)),
      testBit_setBit, decide_eq_true rfl, Bool.true_or]
  · have hbit : load (setBit mem a bit) (desc + 12) 2 = load mem (desc + 12) 2 :=
      load_congr fun x _ _ => setBit_of_ne (by omega)
    rw [load_congr fun x _ _ => addTo_of_not_mem (by omega)]
    rcases load_addTo_neg_one_add_one (setBit mem a bit) (desc + 12) 2 with h | h
    · rw [h, hbit]
    · exact absurd (hbit ▸ h.1) hgroup
  · have hbit : load (addTo (setBit mem a bit) (desc + 12) 2 (-1)) (superOffset + 12) 4 =
        load mem (superOffset + 12) 4 := by
      rw [load_congr fun x _ _ => addTo_of_not_mem (by omega)]
      exact load_congr fun x _ _ => setBit_of_ne (by omega)
    rcases load_addTo_neg_one_add_one (addTo (setBit mem a bit) (desc + 12) 2 (-1))
      (superOffset + 12) 4 with h | h
    · rw [h, hbit]
    · exact absurd (hbit ▸ h.1) hsuper

/-- A bit of one of the counts changes it. -/
theorem takeBit_clash (hdesc : blockSize ≤ desc) (hbit : testBit mem a bit = false)
    (h : InCounts desc (a + bit / 8)) :
    ¬ (groupFreeBlocks (takeBit mem desc a bit) desc + 1 = groupFreeBlocks mem desc ∧
      freeBlocksCount (takeBit mem desc a bit) + 1 = freeBlocksCount mem) := by
  have hbyte : setBit mem a bit (a + bit / 8) ≠ mem (a + bit / 8) := fun heq => by
    have hset : testBit (setBit mem a bit) a bit = true := by simp [testBit_setBit]
    rw [testBit_congr heq, hbit] at hset
    cases hset
  have hapart : superOffset + 12 + 4 ≤ desc + 12 := by
    unfold superOffset blockSize at *
    omega
  rintro ⟨hgroup, hsuper⟩
  unfold groupFreeBlocks freeBlocksCount takeBit at *
  rcases h with ⟨hle, hlt⟩ | ⟨hle, hlt⟩
  · rw [load_congr fun x _ _ => addTo_of_not_mem (by omega)] at hgroup
    refine hbyte (load_inj (a := desc + 12) (n := 2) ?_ hle hlt)
    rcases load_addTo_neg_one_add_one (setBit mem a bit) (desc + 12) 2 with h | h
    · rw [← h, hgroup]
    · have hlt : load mem (desc + 12) 2 < 256 ^ 2 := load_lt
      exact absurd (hgroup.symm.trans h.2) hlt.ne
  · refine hbyte (load_inj (a := superOffset + 12) (n := 4) ?_ hle hlt)
    have hsame : load (addTo (setBit mem a bit) (desc + 12) 2 (-1)) (superOffset + 12) 4 =
        load (setBit mem a bit) (superOffset + 12) 4 :=
      load_congr fun x _ _ => addTo_of_not_mem (by omega)
    rcases load_addTo_neg_one_add_one (addTo (setBit mem a bit) (desc + 12) 2 (-1))
      (superOffset + 12) 4 with h | h
    · rw [← hsame, ← h, hsuper]
    · have hlt : load mem (superOffset + 12) 4 < 256 ^ 4 := load_lt
      exact absurd (hsuper.symm.trans h.2) hlt.ne

/-! ### The whole call -/

/-- `ext2_check_params` accepts. -/
def ParamsOk (s : Fs) : Prop :=
  firstDataBlock s.mem < blocksCount s.mem ∧ blocksPerGroup s.mem ≤ blockSize * 8 ∧
    freeBlocksCount s.mem ≠ 0

theorem checkParams_ok (h : ParamsOk s) : checkParams s = (.ok (), s) := by
  obtain ⟨hfirst, hgroup, hfree⟩ := h
  have hcond : ¬ (firstDataBlock s.mem ≥ blocksCount s.mem ∨
      blocksPerGroup s.mem > blockSize * 8) := by omega
  rw [checkParams, Prog.get_bind, if_neg hcond, if_neg hfree, Prog.pure_apply]

theorem checkParams_err (h : ¬ ParamsOk s) : ∃ e, checkParams s = (.err e, s) := by
  rw [checkParams, Prog.get_bind]
  split
  · exact ⟨.euclean, rfl⟩
  · split
    · exact ⟨.enospc, rfl⟩
    next hcond hfree =>
      exact absurd ⟨by omega, by omega, hfree⟩ h

/-- The superblock says that blocks are free, and no group does. -/
def Exhausted (env : Env) (s : Fs) : Prop :=
  ParamsOk s ∧ ∃ grp, Comes env s grp ∧ blocksCount s.mem ≤ groupFirst s.mem grp

/-- The call comes to a group with free blocks and finds a bit there. -/
def Chooses (env : Env) (s : Fs) (grp : ℕ) : Prop :=
  ParamsOk s ∧ Comes env s grp ∧ Sees env s grp ∧
    groupFreeBlocks s.mem (descAddr s.mem grp) ≠ 0 ∧
    Finds env (s.after (grp + 1)) (groupFirst s.mem grp) (blockBitmap s.mem (descAddr s.mem grp))

/-- The bit that is found in the bitmap of a group. -/
def foundBit (mem : Store) (grp : ℕ) : ℕ :=
  findFirstZeroBit mem (blockBitmap mem (descAddr mem grp)) (groupBlocks mem (groupFirst mem grp))

/-- The bit that is found belongs to one of the counts. -/
def Clash (env : Env) (s : Fs) : Prop :=
  ∃ grp, Chooses env s grp ∧ InCounts (descAddr s.mem grp)
    (blockBitmap s.mem (descAddr s.mem grp) * blockSize + foundBit s.mem grp / 8)

/-- The loop stops at one group only. -/
theorem Comes.unique {g g' : ℕ} (h : Comes env s g) (h' : Comes env s g')
    (hstop : ¬ (Sees env s g ∧ groupFreeBlocks s.mem (descAddr s.mem g) = 0))
    (hstop' : ¬ (Sees env s g' ∧ groupFreeBlocks s.mem (descAddr s.mem g') = 0)) : g = g' := by
  rcases lt_trichotomy g g' with hlt | heq | hlt
  · exact absurd (h' g hlt) hstop
  · exact heq
  · exact absurd (h g' hlt) hstop'

theorem allocBlock_cases (env : Env) (s : Fs) (hpos : 0 < blocksPerGroup s.mem) :
    (¬ Exhausted env s ∧ (∀ grp, ¬ Chooses env s grp) ∧
      ∃ e n, allocBlock env s = (.err e, s.after n)) ∨
    (Exhausted env s ∧ ∃ n, allocBlock env s = (.ok none, s.after n)) ∨
    ¬ Exhausted env s ∧ ∃ grp, (∀ g, Chooses env s g ↔ g = grp) ∧ Chooses env s grp ∧
      allocBlock env s = (.ok (some (groupFirst s.mem grp + foundBit s.mem grp)),
        { s.after (grp + 2) with
          mem := takeBit s.mem (descAddr s.mem grp)
            (blockBitmap s.mem (descAddr s.mem grp) * blockSize) (foundBit s.mem grp) }) := by
  by_cases hparams : ParamsOk s
  · have hstart : groupFirst s.mem 0 = firstDataBlock s.mem := by simp [groupFirst]
    have hcall : allocBlock env s = allocLoop env (blocksCount s.mem - firstDataBlock s.mem) 0
        (groupFirst s.mem 0) (s.after 0) := by
      rw [allocBlock, Prog.bind_of_ok (checkParams_ok hparams), Prog.get_bind, hstart]
      rfl
    obtain ⟨g, hcomes, hend | ⟨hlt, hsees, e, hrun⟩ | ⟨hsees, hfree, hrun⟩⟩ :=
      allocLoop_cases hpos (blocksCount s.mem - firstDataBlock s.mem) 0
        (show Comes env s 0 from nofun) (by rw [hstart]; omega)
    · exact .inr (.inl ⟨⟨hparams, g, hcomes, hend.1⟩, g, hcall.trans hend.2⟩)
    · refine .inl ⟨?_, fun g' h' => ?_, e, g + 1, hcall.trans hrun⟩
      · rintro ⟨-, g', hcomes', hend⟩
        have hgg' : g = g' := hcomes.unique hcomes' (fun h => hsees h.1) fun h =>
          absurd h.1.1 (not_lt.mpr hend)
        rw [hgg'] at hlt
        omega
      · have hgg' : g = g' := hcomes.unique h'.2.1 (fun h => hsees h.1) fun h => h'.2.2.2.1 h.2
        exact hsees (hgg' ▸ h'.2.2.1)
    · -- The loop stops at a group with free blocks.
      have hstop : ¬ (Sees env s g ∧ groupFreeBlocks s.mem (descAddr s.mem g) = 0) :=
        fun h => hfree h.2
      have hnot : ¬ Exhausted env s := by
        rintro ⟨-, g', hcomes', hend⟩
        have hgg' : g = g' := hcomes.unique hcomes' hstop fun h =>
          absurd h.1.1 (not_lt.mpr hend)
        have := hsees.1
        rw [hgg'] at this
        omega
      have honly : ∀ g', Chooses env s g' → g' = g := fun g' h' =>
        (hcomes.unique h'.2.1 hstop fun h => h'.2.2.2.1 h.2).symm
      rw [hcall, hrun]
      by_cases hfinds : Finds env (s.after (g + 1)) (groupFirst s.mem g)
          (blockBitmap s.mem (descAddr s.mem g))
      · right
        right
        have hchoice : Chooses env s g := ⟨hparams, hcomes, hsees, hfree, hfinds⟩
        refine ⟨hnot, g, fun g' => ⟨honly g', fun h => h ▸ hchoice⟩, hchoice, ?_⟩
        rw [Prog.bind_of_ok (allocGroupBlock_ok hfinds), Prog.pure_apply]
        rfl
      · obtain ⟨e, he⟩ := allocGroupBlock_err (descAddr s.mem g) hfinds
        rw [Prog.bind_of_err he]
        refine .inl ⟨hnot, fun g' h' => ?_, e, g + 2, rfl⟩
        obtain rfl := honly g' h'
        exact hfinds h'.2.2.2.2
  · obtain ⟨e, he⟩ := checkParams_err hparams
    refine .inl ⟨fun h => hparams h.1, fun _ h => hparams h.1, e, 0, ?_⟩
    rw [allocBlock, Prog.bind_of_err he]
    rfl

/-- The group of a block, and its bit there. -/
def blockGroup (mem : Store) (blk : ℕ) : ℕ := (blk - firstDataBlock mem) / blocksPerGroup mem

def blockBit (mem : Store) (blk : ℕ) : ℕ := (blk - firstDataBlock mem) % blocksPerGroup mem

/-- The block is a free block of the file system. Its bit is set, and the counts of its group and of
the superblock go down by one. -/
def Allocates (mem mem' : Store) (blk : ℕ) : Prop :=
  let desc := descAddr mem (blockGroup mem blk)
  let map := blockBitmap mem desc * blockSize
  blk ≠ 0 ∧ firstDataBlock mem ≤ blk ∧ blk < blocksCount mem ∧
    testBit mem map (blockBit mem blk) = false ∧ testBit mem' map (blockBit mem blk) = true ∧
    groupFreeBlocks mem' desc + 1 = groupFreeBlocks mem desc ∧
    freeBlocksCount mem' + 1 = freeBlocksCount mem

instance (mem mem' : Store) (blk : ℕ) : Decidable (Allocates mem mem' blk) :=
  inferInstanceAs (Decidable (_ ∧ _))

/-- The call returned 0 and has allocated the block it has stored, or it returned an error and has
changed nothing. -/
def AllocOk (env : Env) (s : Fs) : Prop :=
  match allocBlock env s with
  | (.ok (some blk), s') => Allocates s.mem s'.mem blk
  | (.ok none, _) => False
  | (.err _, s') => s'.mem = s.mem
  | (.stop, _) => False

/-- Descriptors lie behind the superblock. -/
theorem Sees.le_descAddr (h : Sees env s grp) (hpos : 0 < blocksPerGroup s.mem) :
    blockSize ≤ descAddr s.mem grp := by
  have hlt : groupFirst s.mem grp < blocksCount s.mem := h.1
  have hcount : blocksCount s.mem < 256 ^ 4 := load_lt
  have hgrp : grp ≤ grp * blocksPerGroup s.mem := Nat.le_mul_of_pos_right _ hpos
  have hdiv : grp / (blockSize / sizeofGroupDesc) ≤ grp := Nat.div_le_self _ _
  unfold groupFirst at hlt
  unfold descAddr descBlock
  generalize grp / (blockSize / sizeofGroupDesc) = q at *
  rw [Nat.mod_eq_of_lt (by omega)]
  calc blockSize ≤ (firstDataBlock s.mem + 1 + q) * blockSize :=
        Nat.le_mul_of_pos_left _ (by omega)
    _ ≤ _ := Nat.le_add_right _ _

/-- The bit that is found is a clear bit of the group. -/
theorem Chooses.foundBit (h : Chooses env s grp) :
    foundBit s.mem grp < groupBlocks s.mem (groupFirst s.mem grp) ∧
      testBit s.mem (blockBitmap s.mem (descAddr s.mem grp) * blockSize)
        (foundBit s.mem grp) = false ∧ groupFirst s.mem grp + foundBit s.mem grp ≠ 0 := by
  obtain ⟨-, -, -, -, -, hne, hnull⟩ := h
  have hlt : Ext2.foundBit s.mem grp < groupBlocks s.mem (groupFirst s.mem grp) :=
    lt_of_le_of_ne Bitmap.findNextZero_le hne
  exact ⟨hlt, Bitmap.findNextZero_clear hlt, hnull⟩

theorem Chooses.block (h : Chooses env s grp) :
    blockGroup s.mem (groupFirst s.mem grp + Ext2.foundBit s.mem grp) = grp ∧
      blockBit s.mem (groupFirst s.mem grp + Ext2.foundBit s.mem grp) = Ext2.foundBit s.mem grp ∧
      groupFirst s.mem grp + Ext2.foundBit s.mem grp < blocksCount s.mem := by
  have hlt := h.foundBit.1
  have hfirst : groupFirst s.mem grp < blocksCount s.mem := h.2.2.1.1
  unfold groupBlocks at hlt
  rw [lt_min_iff] at hlt
  have hsub : groupFirst s.mem grp + Ext2.foundBit s.mem grp - firstDataBlock s.mem =
      Ext2.foundBit s.mem grp + blocksPerGroup s.mem * grp := by
    unfold groupFirst
    rw [Nat.mul_comm]
    omega
  refine ⟨?_, ?_, by omega⟩
  · rw [blockGroup, hsub, Nat.add_mul_div_left _ _ (by omega), Nat.div_eq_of_lt hlt.1, zero_add]
  · rw [blockBit, hsub, Nat.add_mul_mod_self_left, Nat.mod_eq_of_lt hlt.1]

/-- **Allocation.** For every contents of the metadata that `ext2_check_super` accepts and all
failures of `mapping_get`, the call is right except in the two cases. -/
theorem allocOk_iff {sizes : ℕ × ℕ} (hsuper : checkSuper s.mem = .ok sizes) :
    AllocOk env s ↔ ¬ Exhausted env s ∧ ¬ Clash env s := by
  have hpos : 0 < blocksPerGroup s.mem := Nat.pos_of_ne_zero (checkSuper_spec hsuper).2
  unfold AllocOk
  rcases allocBlock_cases env s hpos with ⟨hnot, hchoice, e, n, hrun⟩ | ⟨hex, n, hrun⟩ |
    ⟨hnot, grp, honly, hchoice, hrun⟩
  · rw [hrun]
    exact ⟨fun _ => ⟨hnot, fun ⟨g, h, _⟩ => hchoice g h⟩, fun _ => rfl⟩
  · rw [hrun]
    exact ⟨False.elim, fun h => h.1 hex⟩
  · obtain ⟨hlt, hclear, hnull⟩ := hchoice.foundBit
    obtain ⟨hgroup, hbit, hcount⟩ := hchoice.block
    obtain ⟨hparams, -, hsees, hfree, -⟩ := hchoice
    have hdesc := hsees.le_descAddr hpos
    rw [hrun]
    change Allocates s.mem _ _ ↔ _
    unfold Allocates
    rw [hgroup, hbit]
    constructor
    · rintro ⟨-, -, -, -, -, hcounts⟩
      refine ⟨hnot, ?_⟩
      rintro ⟨g, hg, hclash⟩
      obtain rfl := (honly g).mp hg
      exact takeBit_clash hdesc hclear hclash hcounts
    · rintro ⟨-, hclash⟩
      have hcounts : ¬ InCounts (descAddr s.mem grp) (blockBitmap s.mem (descAddr s.mem grp) *
          blockSize + Ext2.foundBit s.mem grp / 8) := fun h => hclash ⟨grp, (honly grp).mpr rfl, h⟩
      obtain ⟨hset, hcounts⟩ := takeBit_spec hdesc hfree hparams.2.2 hcounts
      refine ⟨hnull, ?_, hcount, hclear, hset, hcounts⟩
      unfold groupFirst
      omega

/-! ### Two images -/

/-- Nothing fails. -/
def quietEnv : Env := ⟨fun _ => none, fun _ _ => 0⟩

/-- An image with one group of 64 blocks, of which the bitmap says that 8 are in use, with the given
counts of free blocks in the superblock and in the group. -/
def image (free groupFree : ℕ) : Fs where
  mem :=
    let mem : Store := fun _ => 0
    let mem := store (store mem superOffset 4 16) (superOffset + 4) 4 64
    let mem := store (store mem (superOffset + 12) 4 free) (superOffset + 24) 4 2
    let mem := store (store mem (superOffset + 32) 4 64) (superOffset + 40) 4 16
    let mem := store mem (superOffset + 56) 2 superMagic
    let mem := store (store mem blockSize 4 2) (blockSize + 12) 2 groupFree
    store mem (2 * blockSize) 1 255
  calls := 0
  inode := ⟨fun _ => 0, 0⟩

theorem not_allocOk_fullGroups : checkSuper (image 56 0).mem = .ok (4096, 128) ∧
    (allocBlock quietEnv (image 56 0)).1 = .ok none ∧ ¬ AllocOk quietEnv (image 56 0) := by
  have hrun : (allocBlock quietEnv (image 56 0)).1 = .ok none := by decide +kernel
  refine ⟨by decide +kernel, hrun, ?_⟩
  unfold AllocOk
  generalize allocBlock quietEnv (image 56 0) = res at hrun ⊢
  obtain ⟨r, s'⟩ := res
  cases hrun
  exact id

theorem allocOk_image : AllocOk quietEnv (image 56 56) ∧ ¬ Exhausted quietEnv (image 56 56) ∧
    ¬ Clash quietEnv (image 56 56) := by
  have hsuper : checkSuper (image 56 56).mem = .ok (4096, 128) := by decide +kernel
  have hrun : (allocBlock quietEnv (image 56 56)).1 = .ok (some 8) := by decide +kernel
  have hblock : decide (Allocates (image 56 56).mem
      (allocBlock quietEnv (image 56 56)).2.mem 8) = true := by decide +kernel
  have hok : AllocOk quietEnv (image 56 56) := by
    unfold AllocOk
    generalize allocBlock quietEnv (image 56 56) = res at hrun hblock ⊢
    obtain ⟨r, s'⟩ := res
    cases hrun
    exact of_decide_eq_true hblock
  exact ⟨hok, (allocOk_iff hsuper).mp hok⟩

end Nuvix.Ext2
