import UBoot.Ext4.BitmapsExact

/-!
# Runs of calls for blocks and inodes

The inodes, as the blocks before, and any sequence of calls for both.
-/

namespace UBoot.Ext4

open Bitmap Function List Option

namespace Fs

def inodeTaken (fs : Fs) (i o : ℕ) : Fs :=
  { fs.setGroup i { fs.group i with
      inodeBmap := mark ((fs.group i).inodeBits fs.blksz) o
      inodeUninit := false
      freeInodes := (fs.group i).freeInodes - 1
      itableUnused := (fs.group i).freeInodes - 1 } with
    sbFreeInodes := decr 32 fs.sbFreeInodes
    currInodeNo := i * fs.inodesPerGroup + o + 1 }

def inodeBit (fs : Fs) (i o : ℕ) : Bool := bit ((fs.group i).inodeBits fs.blksz) o

end Fs

/- A first pass has a group within reach, and later ones a free inode before the last of the
group of the cursor. -/
def InodeClear (fs : Fs) : Prop :=
  if fs.firstPassIbmap = 0 then
    (∃ i < min fs.noBlkgrp shortLimit, (fs.group i).freeInodes ≠ 0) ∨
      ∀ i < fs.noBlkgrp, (fs.group i).freeInodes = 0
  else
    fs.currInodeNo / fs.inodesPerGroup < fs.noBlkgrp ∧
      ∃ o, fs.currInodeNo % fs.inodesPerGroup ≤ o ∧ o + 1 < fs.inodesPerGroup ∧
        fs.inodeBit (fs.currInodeNo / fs.inodesPerGroup) o = false

def InodeExact (fs : Fs) (ret : Option ℕ) (fs' : Fs) : Prop :=
  (∃ i < fs.noBlkgrp, ∃ o < fs.inodesPerGroup, fs.inodeBit i o = false ∧
    ret = some (i * fs.inodesPerGroup + o + 1) ∧
    fs' = (if fs.firstPassIbmap = 0 then (fs.inodeTaken i o).passInodes else fs.inodeTaken i o) ∧
    ext4fsResetInodeBmap fs.inodesPerGroup (i * fs.inodesPerGroup + o + 1) (fs'.group i).inodeBmap
      i = some ((fs.group i).inodeBits fs.blksz)) ∨
  ((∀ i < fs.noBlkgrp, ∀ o < fs.inodesPerGroup, fs.inodeBit i o = true) ∧ ret = none ∧ fs' = fs)

theorem initInodes_eq (fs : Fs) (i : ℕ) : fs.initInodes i = fs.setGroup i { fs.group i with
    inodeBmap := (fs.group i).inodeBits fs.blksz
    inodeUninit := false } := by
  rw [Fs.initInodes]
  by_cases hun : (fs.group i).inodeUninit = true
  · rw [if_pos hun, Group.inodeBits, if_pos hun]
  · have hself : ({ fs.group i with
        inodeBmap := (fs.group i).inodeBits fs.blksz
        inodeUninit := false } : Group) = fs.group i := by
      rw [Group.inodeBits, if_neg hun]
      simp only [Bool.not_eq_true] at hun
      rw [← hun]
    rw [if_neg hun, hself, Fs.setGroup, update_eq_self]

theorem initInodes_bmap (fs : Fs) (i : ℕ) :
    ((fs.initInodes i).group i).inodeBmap = (fs.group i).inodeBits fs.blksz := by
  rw [initInodes_eq, setGroup_self]

theorem initInodes_inodesPerGroup (fs : Fs) (i : ℕ) :
    (fs.initInodes i).inodesPerGroup = fs.inodesPerGroup := by
  rw [initInodes_eq]
  rfl

theorem initInodes_blksz (fs : Fs) (i : ℕ) : (fs.initInodes i).blksz = fs.blksz := by
  rw [initInodes_eq]
  rfl

variable {fs : Fs} {i o : ℕ}

theorem take_initInodes (h : Consistent fs) {no : ℕ} (hi : i < fs.noBlkgrp)
    (hfree : (fs.group i).freeInodes ≠ 0) (hno : no = i * fs.inodesPerGroup + o + 1) :
    (fs.initInodes i).takeInode i no (mark ((fs.group i).inodeBits fs.blksz) o) = fs.inodeTaken i o := by
  have hdecr := decr_eq hfree (h.freeInodes_le hi)
  rw [initInodes_eq, hno]
  simp only [Fs.takeInode, Fs.inodeTaken, Fs.setGroup, update_self, update_idem, hdecr]

theorem inodeTaken_initInodes (fs : Fs) (i o no : ℕ) :
    ((fs.initInodes i).atInode no).inodeTaken i o = fs.inodeTaken i o := by
  rw [initInodes_eq]
  simp only [Fs.inodeTaken, Fs.setGroup, Fs.atInode, update_self, update_idem]
  rfl

theorem Consistent.atInode (h : Consistent fs) (no : ℕ) : Consistent (fs.atInode no) :=
  ⟨h.blksz, h.blocksPerGroup, h.inodesPerGroup, h.blkLength, h.inodeLength, h.freeBlocks,
    h.freeInodes⟩

theorem Consistent.initInodes (h : Consistent fs) (hi : i < fs.noBlkgrp) :
    Consistent (fs.initInodes i) := by
  rw [initInodes_eq]
  exact h.setGroup i (h.blkLength i hi) (h.inodeBits_length hi) (h.freeBlocks i hi)
    (h.freeInodes i hi)

theorem Consistent.inodeTaken (h : Consistent fs) (hi : i < fs.noBlkgrp)
    (ho : o < fs.inodesPerGroup) (hbit : fs.inodeBit i o = false) : Consistent (fs.inodeTaken i o) := by
  have hlen := h.inodeBits_length hi
  have hper := h.inodesPerGroup
  have hzeros := zeros_mark hbit ho (by rw [hlen]; lia)
  have hcount : (fs.group i).freeInodes - 1 =
      zeros (mark ((fs.group i).inodeBits fs.blksz) o) fs.inodesPerGroup := by
    rw [h.freeInodes i hi, ← hzeros, Nat.add_sub_cancel]
  have hgroup := h.setGroup i (g := { fs.group i with
      inodeBmap := mark ((fs.group i).inodeBits fs.blksz) o
      inodeUninit := false
      freeInodes := (fs.group i).freeInodes - 1
      itableUnused := (fs.group i).freeInodes - 1 })
    (h.blkLength i hi) (by rw [length_mark, hlen]) (h.freeBlocks i hi) hcount
  exact ⟨hgroup.blksz, hgroup.blocksPerGroup, hgroup.inodesPerGroup, hgroup.blkLength,
    hgroup.inodeLength, hgroup.freeBlocks, hgroup.freeInodes⟩

theorem Consistent.reset_inode (h : Consistent fs) (hi : i < fs.noBlkgrp)
    (ho : o < fs.inodesPerGroup) (hbit : fs.inodeBit i o = false) :
    ext4fsResetInodeBmap fs.inodesPerGroup (i * fs.inodesPerGroup + o + 1)
      ((fs.inodeTaken i o).group i).inodeBmap i = some ((fs.group i).inodeBits fs.blksz) := by
  have hbmap : ((fs.inodeTaken i o).group i).inodeBmap =
      mark ((fs.group i).inodeBits fs.blksz) o := congrArg Group.inodeBmap (setGroup_self _ _ _)
  have hper := h.inodesPerGroup
  rw [ext4fsResetInodeBmap, inodePos_eq, hbmap]
  exact resetAt_mark (by rw [h.inodeBits_length hi]; lia) hbit

theorem Consistent.fullInodes (h : Consistent fs) (hi : i < fs.noBlkgrp)
    (hzero : (fs.group i).freeInodes = 0) : ∀ o < fs.inodesPerGroup, fs.inodeBit i o = true := by
  intro o ho
  by_contra hbit
  rw [h.freeInodes i hi] at hzero
  exact zeros_ne_zero.mpr ⟨o, ho, by simpa [Fs.inodeBit] using hbit⟩ hzero

variable {z : ℕ}

theorem nextInodeNo_walk : ∀ (d fuel : ℕ) {fs : Fs} {o : ℕ}, Consistent fs →
    i < fs.noBlkgrp → o + d = z → z + 1 < fs.inodesPerGroup →
    fs.currInodeNo = i * fs.inodesPerGroup + o →
    (∀ k, o ≤ k → k < z → fs.inodeBit i k = true) → fs.inodeBit i z = false → d < fuel →
    nextInodeNo fuel fs = some (some (i * fs.inodesPerGroup + z + 1), fs.inodeTaken i z) := by
  intro d
  induction d with
  | zero =>
    intro fuel fs o h hi hoz hz hcurr _ hbit hfuel
    obtain ⟨m, rfl⟩ : ∃ m, fuel = m + 1 := ⟨fuel - 1, by lia⟩
    rw [Nat.add_zero] at hoz
    subst hoz
    have hper := h.inodesPerGroup
    have hbyte : o / 8 < ((fs.group i).inodeBits fs.blksz).length := by
      rw [h.inodeBits_length hi]
      lia
    have hidx : (fs.currInodeNo + 1) / fs.inodesPerGroup = i := by
      rw [hcurr, Nat.add_assoc, Nat.mul_comm, Nat.mul_add_div hper.1, Nat.div_eq_of_lt hz,
        Nat.add_zero]
    have hfree : (fs.group i).freeInodes ≠ 0 := by
      rw [h.freeInodes i hi]
      exact zeros_ne_zero.mpr ⟨o, by lia, hbit⟩
    rw [nextInodeNo]
    simp only [hidx, if_neg (Nat.not_le.mpr hi), initInodes_inodesPerGroup, initInodes_bmap]
    rw [ext4fsSetInodeBmap, hcurr, inodePos_eq, setAt_bit hbyte]
    rw [Fs.inodeBit] at hbit
    simp only [hbit, Bool.false_eq_true, if_false]
    rw [take_initInodes h hi hfree rfl]
  | succ d ih =>
    intro fuel fs o h hi hoz hz hcurr hones hbit hfuel
    obtain ⟨m, rfl⟩ : ∃ m, fuel = m + 1 := ⟨fuel - 1, by lia⟩
    have hper := h.inodesPerGroup
    have hbyte : o / 8 < ((fs.group i).inodeBits fs.blksz).length := by
      rw [h.inodeBits_length hi]
      lia
    have hidx : (fs.currInodeNo + 1) / fs.inodesPerGroup = i := by
      rw [hcurr, Nat.add_assoc, Nat.mul_comm, Nat.mul_add_div hper.1,
        Nat.div_eq_of_lt (show o + 1 < fs.inodesPerGroup by lia), Nat.add_zero]
    have hone := hones o le_rfl (by lia)
    rw [nextInodeNo]
    simp only [hidx, if_neg (Nat.not_le.mpr hi), initInodes_inodesPerGroup, initInodes_bmap]
    rw [ext4fsSetInodeBmap, hcurr, inodePos_eq, setAt_bit hbyte]
    rw [Fs.inodeBit] at hone
    simp only [hone, if_true]
    generalize hno : i * fs.inodesPerGroup + o + 1 = no
    have hperEq : ((fs.initInodes i).atInode no).inodesPerGroup = fs.inodesPerGroup :=
      initInodes_inodesPerGroup fs i
    have hgroups : ((fs.initInodes i).atInode no).noBlkgrp = fs.noBlkgrp := by
      rw [initInodes_eq]
      rfl
    have hbits : ∀ k, ((fs.initInodes i).atInode no).inodeBit i k = fs.inodeBit i k := by
      intro k
      have hgroup : ((fs.initInodes i).atInode no).group i = { fs.group i with
          inodeBmap := (fs.group i).inodeBits fs.blksz
          inodeUninit := false } := by
        rw [initInodes_eq]
        exact setGroup_self _ _ _
      rw [Fs.inodeBit, hgroup]
      rfl
    have hrest := ih m ((h.initInodes hi).atInode no) (by rw [hgroups]; exact hi)
      (show o + 1 + d = z by lia) (by rw [hperEq]; exact hz)
      (by rw [hperEq]; exact hno.symm)
      (fun k hk hkz => by rw [hbits]; exact hones k (by lia) hkz) (by rw [hbits]; exact hbit)
      (by lia)
    rw [hrest, inodeTaken_initInodes, hperEq]

theorem nextInodeNo_exact (h : Consistent fs) (hpass : fs.firstPassIbmap ≠ 0)
    (hclear : InodeClear fs) :
    ∃ ret fs', ext4fsGetNewInodeNo fs = some (ret, fs') ∧ InodeExact fs ret fs' := by
  rw [InodeClear, if_neg hpass] at hclear
  obtain ⟨hi, hfree⟩ := hclear
  have hcurr : fs.currInodeNo = fs.currInodeNo / fs.inodesPerGroup * fs.inodesPerGroup +
      fs.currInodeNo % fs.inodesPerGroup := by
    rw [Nat.mul_comm]
    exact (Nat.div_add_mod _ _).symm
  generalize fs.currInodeNo / fs.inodesPerGroup = i at hi hfree hcurr
  generalize fs.currInodeNo % fs.inodesPerGroup = o at hfree hcurr
  -- the next clear bit
  obtain ⟨hoz, hz, hbit⟩ := Nat.find_spec hfree
  have hones : ∀ k, o ≤ k → k < Nat.find hfree → fs.inodeBit i k = true := by
    intro k hok hk
    have hmin := Nat.find_min hfree hk
    by_contra hbit'
    exact hmin ⟨hok, by lia, by simpa using hbit'⟩
  generalize Nat.find hfree = z at hoz hz hbit hones
  have henough : z - o < fs.noBlkgrp * fs.inodesPerGroup + 2 := by
    have hle : 1 * fs.inodesPerGroup ≤ fs.noBlkgrp * fs.inodesPerGroup :=
      Nat.mul_le_mul_right _ (by lia)
    lia
  rw [ext4fsGetNewInodeNo, if_neg hpass, nextInodeNo_walk (z - o) _ h hi
    (Nat.add_sub_cancel' hoz) hz hcurr hones hbit henough]
  refine ⟨_, _, rfl, .inl ⟨i, hi, z, by lia, hbit, rfl, by rw [if_neg hpass], ?_⟩⟩
  exact h.reset_inode hi (by lia) hbit

theorem newInodeNo_lowest (h : Consistent fs) (hi : i < fs.noBlkgrp) (hz : z < fs.inodesPerGroup)
    (hbit : fs.inodeBit i z = false) (hones : ∀ k < z, fs.inodeBit i k = true) :
    newInodeNo fs.inodesPerGroup fs.blksz ((fs.group i).inodeBits fs.blksz) =
      some (some (1 + z), mark ((fs.group i).inodeBits fs.blksz) z) := by
  have hper := h.inodesPerGroup
  refine scanBitmap_spec (by lia) (by rw [h.inodeBits_length hi]; lia) hones hbit ?_
  intro j hj
  rw [decide_eq_false_iff_not]
  lia

theorem firstInodeNo_spec (h : Consistent fs) : ∀ m i, i + m ≤ fs.noBlkgrp →
    (∃ j z, i ≤ j ∧ j < i + m ∧ z < fs.inodesPerGroup ∧ fs.inodeBit j z = false ∧
      firstInodeNo m i fs = some (some (j * fs.inodesPerGroup + z + 1),
        (fs.inodeTaken j z).passInodes)) ∨
    ((∀ l, i ≤ l → l < i + m → (fs.group l).freeInodes = 0) ∧
      firstInodeNo m i fs = some (none, fs)) := by
  intro m
  induction m with
  | zero =>
    intro i _
    exact .inr ⟨fun l hl hlt => absurd hlt (by lia), rfl⟩
  | succ m ih =>
    intro i hm
    have hi : i < fs.noBlkgrp := by lia
    rw [firstInodeNo]
    by_cases hfree : (fs.group i).freeInodes = 0
    · rw [if_neg (not_not_intro hfree)]
      cases ih (i + 1) (by lia) with
      | inl hfound =>
        obtain ⟨j, z, hij, hjm, hz, hbit, hcall⟩ := hfound
        exact .inl ⟨j, z, by lia, by lia, hz, hbit, hcall⟩
      | inr hnone =>
        refine .inr ⟨?_, hnone.2⟩
        intro l hl hlt
        by_cases heq : i = l
        · exact heq ▸ hfree
        · exact hnone.1 l (by lia) (by lia)
    · rw [if_pos hfree]
      obtain ⟨z, hz, hbit, hones⟩ := exists_lowest (h.freeInodes i hi ▸ hfree)
      refine .inl ⟨i, z, le_rfl, by lia, hz, hbit, ?_⟩
      -- the unused inodes are set before, and once more with the inode
      generalize hfs₁ : fs.setGroup i { fs.group i with itableUnused := (fs.group i).freeInodes } = fs₁
      have h₁ : Consistent fs₁ := by
        rw [← hfs₁]
        exact h.setGroup i (h.blkLength i hi) (h.inodeLength i hi) (h.freeBlocks i hi)
          (h.freeInodes i hi)
      have hi₁ : i < fs₁.noBlkgrp := by rw [← hfs₁]; exact hi
      have hper₁ : fs₁.inodesPerGroup = fs.inodesPerGroup := by rw [← hfs₁]; rfl
      have hgroup₁ : fs₁.group i = { fs.group i with itableUnused := (fs.group i).freeInodes } := by
        rw [← hfs₁]
        exact setGroup_self _ _ _
      have hfree₁ : (fs₁.group i).freeInodes ≠ 0 := by rw [hgroup₁]; exact hfree
      have hbit₁ : ∀ k, fs₁.inodeBit i k = fs.inodeBit i k := by
        intro k
        rw [Fs.inodeBit, hgroup₁, ← hfs₁]
        rfl
      have htaken : fs₁.inodeTaken i z = fs.inodeTaken i z := by
        rw [← hfs₁]
        simp only [Fs.inodeTaken, Fs.setGroup, update_self, update_idem]
        rfl
      have hlowest := newInodeNo_lowest h₁ hi₁ (hper₁ ▸ hz) (hbit₁ z ▸ hbit)
        (fun k hk => hbit₁ k ▸ hones k hk)
      simp only [initInodes_inodesPerGroup, initInodes_blksz, initInodes_bmap, hlowest]
      have hno : 1 + z + i * fs₁.inodesPerGroup = i * fs₁.inodesPerGroup + z + 1 := by ring
      rw [take_initInodes h₁ hi₁ hfree₁ hno, htaken, hno, hper₁]

theorem firstInodeNo_exact (h : Consistent fs) (hpass : fs.firstPassIbmap = 0)
    (hclear : InodeClear fs) :
    ∃ ret fs', ext4fsGetNewInodeNo fs = some (ret, fs') ∧ InodeExact fs ret fs' := by
  rw [InodeClear, if_pos hpass] at hclear
  rw [ext4fsGetNewInodeNo, if_pos hpass]
  have hmin : 0 + min fs.noBlkgrp shortLimit ≤ fs.noBlkgrp := by lia
  cases firstInodeNo_spec h (min fs.noBlkgrp shortLimit) 0 hmin with
  | inl hfound =>
    obtain ⟨i, z, -, him, hz, hbit, hcall⟩ := hfound
    have hi : i < fs.noBlkgrp := by lia
    refine ⟨_, _, hcall, .inl ⟨i, hi, z, hz, hbit, rfl, by rw [if_pos hpass], ?_⟩⟩
    exact h.reset_inode hi hz hbit
  | inr hnone =>
    refine ⟨none, fs, hnone.2, .inr ⟨fun i hi => h.fullInodes hi ?_, rfl, rfl⟩⟩
    cases hclear with
    | inl hreach =>
      obtain ⟨j, hj, hne⟩ := hreach
      exact absurd (hnone.1 j (by lia) (by lia)) hne
    | inr hall => exact hall i hi

structure BitmapInv (fs : Fs) : Prop where
  consistent : Consistent fs
  behind : fs.firstPassBbmap ≠ 0 → Behind fs

theorem getNewBlkNo_spec (h : BitmapInv fs) (hclear : BlkClear fs) :
    ∃ ret fs', ext4fsGetNewBlkNo fs = some (ret, fs') ∧ BlkExact fs ret fs' ∧
      (fs'.firstPassBbmap ≠ 0 → Behind fs') := by
  by_cases hpass : fs.firstPassBbmap = 0
  · exact firstBlkNo_exact h.consistent hpass hclear
  · obtain ⟨ret, fs', hcall, hexact, hbehind⟩ := nextBlkNo_spec h.consistent hpass
      (h.behind hpass) hclear
    exact ⟨ret, fs', hcall, hexact, fun _ => hbehind⟩

theorem getNewInodeNo_spec (h : BitmapInv fs) (hclear : InodeClear fs) :
    ∃ ret fs', ext4fsGetNewInodeNo fs = some (ret, fs') ∧ InodeExact fs ret fs' := by
  by_cases hpass : fs.firstPassIbmap = 0
  · exact firstInodeNo_exact h.consistent hpass hclear
  · exact nextInodeNo_exact h.consistent hpass hclear

def UsedBlock (fs : Fs) (b : ℕ) : Prop :=
  ∃ i < fs.noBlkgrp, ∃ o < 8 * fs.blksz,
    b = firstDataBlock fs.blksz + i * (8 * fs.blksz) + o ∧ fs.blkBit i o = true

def UsedInode (fs : Fs) (no : ℕ) : Prop :=
  ∃ i < fs.noBlkgrp, ∃ o < fs.inodesPerGroup,
    no = i * fs.inodesPerGroup + o + 1 ∧ fs.inodeBit i o = true

theorem place_inj {per j : ℕ} (ho : o < per) (hz : z < per) (h : i * per + o = j * per + z) :
    i = j ∧ o = z := by
  have hij : i = j :=
    le_antisymm (group_le_of_le hz (le_of_eq h)) (group_le_of_le ho (le_of_eq h.symm))
  subst hij
  exact ⟨rfl, by lia⟩

theorem inodeTaken_self (fs : Fs) (i o : ℕ) : (fs.inodeTaken i o).group i = { fs.group i with
    inodeBmap := mark ((fs.group i).inodeBits fs.blksz) o
    inodeUninit := false
    freeInodes := (fs.group i).freeInodes - 1
    itableUnused := (fs.group i).freeInodes - 1 } := setGroup_self _ _ _

theorem inodeTaken_ne (fs : Fs) (o : ℕ) {j : ℕ} (h : j ≠ i) :
    (fs.inodeTaken i o).group j = fs.group j := setGroup_ne _ _ h

theorem inodeTaken_inodeBit (h : Consistent fs) (hi : i < fs.noBlkgrp) (ho : o < fs.inodesPerGroup)
    (j z : ℕ) : (fs.inodeTaken i o).inodeBit j z = (fs.inodeBit j z || decide (j = i ∧ z = o)) := by
  by_cases hj : j = i
  · have hper := h.inodesPerGroup
    have hbyte : o / 8 < ((fs.group i).inodeBits fs.blksz).length := by
      rw [h.inodeBits_length hi]
      lia
    rw [hj, Fs.inodeBit, inodeTaken_self]
    simp only [true_and]
    exact bit_mark hbyte
  · rw [Fs.inodeBit, inodeTaken_ne fs o hj, decide_eq_false (fun hand => hj hand.1), Bool.or_false]
    rfl

theorem inodeTaken_blkBit (fs : Fs) (i o j z : ℕ) : (fs.inodeTaken i o).blkBit j z = fs.blkBit j z := by
  by_cases hj : j = i
  · rw [hj, Fs.blkBit, inodeTaken_self]
    rfl
  · rw [Fs.blkBit, inodeTaken_ne fs o hj]
    rfl

theorem blockTaken_inodeBit (fs : Fs) (i o j z : ℕ) :
    (fs.blockTaken i o).inodeBit j z = fs.inodeBit j z := by
  by_cases hj : j = i
  · rw [hj, Fs.inodeBit, blockTaken_self]
    rfl
  · rw [Fs.inodeBit, blockTaken_ne fs o hj]
    rfl

/- What a call leaves: the other kind of numbers untouched, and the new number in use. -/
structure Advance (fs fs' : Fs) (bs is : List ℕ) : Prop where
  consistent : Consistent fs'
  usedBlock : ∀ b, UsedBlock fs b → UsedBlock fs' b
  usedInode : ∀ no, UsedInode fs no → UsedInode fs' no
  newBlock : ∀ b ∈ bs, ¬ UsedBlock fs b ∧ UsedBlock fs' b
  newInode : ∀ no ∈ is, ¬ UsedInode fs no ∧ UsedInode fs' no

theorem Consistent.passBlocks (h : Consistent fs) : Consistent fs.passBlocks :=
  ⟨h.blksz, h.blocksPerGroup, h.inodesPerGroup, h.blkLength, h.inodeLength, h.freeBlocks,
    h.freeInodes⟩

theorem Consistent.passInodes (h : Consistent fs) : Consistent fs.passInodes :=
  ⟨h.blksz, h.blocksPerGroup, h.inodesPerGroup, h.blkLength, h.inodeLength, h.freeBlocks,
    h.freeInodes⟩

theorem advance_blockTaken (h : Consistent fs) (hi : i < fs.noBlkgrp)
    (ho : o < 8 * fs.blksz) (hbit : fs.blkBit i o = false) :
    Advance fs (fs.blockTaken i o) [firstDataBlock fs.blksz + i * (8 * fs.blksz) + o] [] := by
  have hbits := blockTaken_blkBit h hi ho
  refine ⟨h.blockTaken hi ho hbit, ?_, ?_, ?_, nofun⟩
  · rintro b ⟨j, hj, z, hz, hb, hused⟩
    exact ⟨j, hj, z, hz, hb, by rw [hbits, hused, Bool.true_or]⟩
  · rintro no ⟨j, hj, z, hz, hno, hused⟩
    exact ⟨j, hj, z, hz, hno, by rw [blockTaken_inodeBit]; exact hused⟩
  · intro b hb
    rw [mem_singleton] at hb
    subst hb
    refine ⟨?_, i, hi, o, ho, rfl, by simp [hbits]⟩
    rintro ⟨j, hj, z, hz, hplace, hused⟩
    obtain ⟨rfl, rfl⟩ := place_inj (i := i) (j := j) ho hz (by lia)
    rw [hbit] at hused
    cases hused

theorem advance_inodeTaken (h : Consistent fs) (hi : i < fs.noBlkgrp)
    (ho : o < fs.inodesPerGroup) (hbit : fs.inodeBit i o = false) :
    Advance fs (fs.inodeTaken i o) [] [i * fs.inodesPerGroup + o + 1] := by
  have hbits := inodeTaken_inodeBit h hi ho
  refine ⟨h.inodeTaken hi ho hbit, ?_, ?_, nofun, ?_⟩
  · rintro b ⟨j, hj, z, hz, hb, hused⟩
    exact ⟨j, hj, z, hz, hb, by rw [inodeTaken_blkBit]; exact hused⟩
  · rintro no ⟨j, hj, z, hz, hno, hused⟩
    exact ⟨j, hj, z, hz, hno, by rw [hbits, hused, Bool.true_or]⟩
  · intro no hno
    rw [mem_singleton] at hno
    subst hno
    refine ⟨?_, i, hi, o, ho, rfl, by simp [hbits]⟩
    rintro ⟨j, hj, z, hz, hplace, hused⟩
    obtain ⟨rfl, rfl⟩ := place_inj (i := i) (j := j) ho hz (by lia)
    rw [hbit] at hused
    cases hused

variable {fs' : Fs} {bs is : List ℕ}

theorem Advance.passBlocks (h : Advance fs fs' bs is) : Advance fs fs'.passBlocks bs is :=
  ⟨h.consistent.passBlocks, h.usedBlock, h.usedInode, h.newBlock, h.newInode⟩

theorem Advance.passInodes (h : Advance fs fs' bs is) : Advance fs fs'.passInodes bs is :=
  ⟨h.consistent.passInodes, h.usedBlock, h.usedInode, h.newBlock, h.newInode⟩

variable {ret : Option ℕ}

theorem BlkExact.advance (h : BlkExact fs ret fs')
    (hcons : Consistent fs) : Advance fs fs' ret.toList [] := by
  cases h with
  | inl htaken =>
    obtain ⟨i, hi, o, ho, hbit, hret, hfs', -⟩ := htaken
    have hadvance := advance_blockTaken hcons hi ho hbit
    rw [hret, hfs']
    split
    · exact hadvance.passBlocks
    · exact hadvance
  | inr hnone =>
    obtain ⟨-, hret, hfs'⟩ := hnone
    rw [hret, hfs']
    exact ⟨hcons.atBlock _, fun _ hb => hb, fun _ hno => hno, nofun, nofun⟩

theorem InodeExact.advance (h : InodeExact fs ret fs')
    (hcons : Consistent fs) : Advance fs fs' [] ret.toList := by
  cases h with
  | inl htaken =>
    obtain ⟨i, hi, o, ho, hbit, hret, hfs', -⟩ := htaken
    have hadvance := advance_inodeTaken hcons hi ho hbit
    rw [hret, hfs']
    split
    · exact hadvance.passInodes
    · exact hadvance
  | inr hnone =>
    obtain ⟨-, hret, hfs'⟩ := hnone
    rw [hret, hfs']
    exact ⟨hcons, fun _ hb => hb, fun _ hno => hno, nofun, nofun⟩

theorem InodeExact.behind (h : InodeExact fs ret fs')
    (hbehind : fs.firstPassBbmap ≠ 0 → Behind fs) : fs'.firstPassBbmap ≠ 0 → Behind fs' := by
  cases h with
  | inl htaken =>
    obtain ⟨i, hi, o, ho, -, -, hfs', -⟩ := htaken
    have htaken : (fs.inodeTaken i o).firstPassBbmap ≠ 0 → Behind (fs.inodeTaken i o) := by
      intro hpass j hj z hz hbit
      rw [inodeTaken_blkBit] at hbit
      exact hbehind hpass j hj z hz hbit
    rw [hfs']
    split
    · exact fun hpass j hj z hz hbit => htaken hpass j hj z hz hbit
    · exact htaken
  | inr hnone =>
    rw [hnone.2.2]
    exact hbehind

/- The states between the calls of a run, with the blocks and the inodes returned so far. -/
inductive Reach (start : Fs) : Fs → List ℕ → List ℕ → Prop where
  | start : Reach start start [] []
  | block {fs fs' : Fs} {bs is : List ℕ} {ret : Option ℕ} : Reach start fs bs is → BlkClear fs →
      ext4fsGetNewBlkNo fs = some (ret, fs') → Reach start fs' (bs ++ ret.toList) is
  | inode {fs fs' : Fs} {bs is : List ℕ} {ret : Option ℕ} : Reach start fs bs is → InodeClear fs →
      ext4fsGetNewInodeNo fs = some (ret, fs') → Reach start fs' bs (is ++ ret.toList)

structure RunInv (fs : Fs) (bs is : List ℕ) : Prop where
  inv : BitmapInv fs
  blocks : ∀ b ∈ bs, UsedBlock fs b
  inodes : ∀ no ∈ is, UsedInode fs no
  nodupBlocks : bs.Nodup
  nodupInodes : is.Nodup

theorem Advance.runInv {newBs newIs : List ℕ} (h : Advance fs fs' newBs newIs)
    (hinv : RunInv fs bs is) (hbehind : fs'.firstPassBbmap ≠ 0 → Behind fs')
    (hbs : newBs.Nodup) (his : newIs.Nodup) : RunInv fs' (bs ++ newBs) (is ++ newIs) := by
  refine ⟨⟨h.consistent, hbehind⟩, ?_, ?_, ?_, ?_⟩
  · intro b hb
    cases mem_append.mp hb with
    | inl hold => exact h.usedBlock b (hinv.blocks b hold)
    | inr hnew => exact (h.newBlock b hnew).2
  · intro no hno
    cases mem_append.mp hno with
    | inl hold => exact h.usedInode no (hinv.inodes no hold)
    | inr hnew => exact (h.newInode no hnew).2
  · refine nodup_append.mpr ⟨hinv.nodupBlocks, hbs, ?_⟩
    rintro b hold c hnew rfl
    exact (h.newBlock b hnew).1 (hinv.blocks b hold)
  · refine nodup_append.mpr ⟨hinv.nodupInodes, his, ?_⟩
    rintro no hold c hnew rfl
    exact (h.newInode no hnew).1 (hinv.inodes no hold)

theorem nodup_toList (ret : Option ℕ) : ret.toList.Nodup := by
  cases ret with
  | none => exact nodup_nil
  | some b => exact nodup_singleton b

theorem Reach.runInv {start : Fs} (h : Reach start fs bs is)
    (hstart : Consistent start) (hpass : start.firstPassBbmap = 0) : RunInv fs bs is := by
  induction h with
  | start => exact ⟨⟨hstart, fun hne => absurd hpass hne⟩, nofun, nofun, nodup_nil, nodup_nil⟩
  | block _ hclear hcall ih =>
    obtain ⟨ret, fs', hcall', hexact, hbehind⟩ := getNewBlkNo_spec ih.inv hclear
    rw [hcall] at hcall'
    cases hcall'
    have hrun := (hexact.advance ih.inv.consistent).runInv ih hbehind (nodup_toList _) nodup_nil
    rw [append_nil] at hrun
    exact hrun
  | inode _ hclear hcall ih =>
    obtain ⟨ret, fs', hcall', hexact⟩ := getNewInodeNo_spec ih.inv hclear
    rw [hcall] at hcall'
    cases hcall'
    have hrun := (hexact.advance ih.inv.consistent).runInv ih (hexact.behind ih.inv.behind)
      nodup_nil (nodup_toList _)
    rw [append_nil] at hrun
    exact hrun

theorem bitmap_allocation_exact {start fs : Fs} {bs is : List ℕ} (hstart : Consistent start)
    (hpass : start.firstPassBbmap = 0) (h : Reach start fs bs is) :
    bs.Nodup ∧ is.Nodup ∧ Consistent fs ∧
      (BlkClear fs → ∃ ret fs', ext4fsGetNewBlkNo fs = some (ret, fs') ∧ BlkExact fs ret fs' ∧
        ∀ b ∈ ret, b ∉ bs) ∧
      (InodeClear fs → ∃ ret fs', ext4fsGetNewInodeNo fs = some (ret, fs') ∧
        InodeExact fs ret fs' ∧ ∀ no ∈ ret, no ∉ is) := by
  have hrun := h.runInv hstart hpass
  refine ⟨hrun.nodupBlocks, hrun.nodupInodes, hrun.inv.consistent, fun hclear => ?_, fun hclear => ?_⟩
  · obtain ⟨ret, fs', hcall, hexact, -⟩ := getNewBlkNo_spec hrun.inv hclear
    refine ⟨ret, fs', hcall, hexact, fun b hb hold => ?_⟩
    exact ((hexact.advance hrun.inv.consistent).newBlock b (mem_toList.mpr hb)).1
      (hrun.blocks b hold)
  · obtain ⟨ret, fs', hcall, hexact⟩ := getNewInodeNo_spec hrun.inv hclear
    refine ⟨ret, fs', hcall, hexact, fun no hno hold => ?_⟩
    exact ((hexact.advance hrun.inv.consistent).newInode no (mem_toList.mpr hno)).1
      (hrun.inodes no hold)

/- One group of blocks of 1 KiB that is not initialized, with 16 inodes; the bits of the inodes
are given. -/
def oneGroup (freeInodes : ℕ) (inodeBmap : List (BitVec 8)) : Fs where
  blksz := 1024
  blocksPerGroup := 8192
  inodesPerGroup := 16
  noBlkgrp := 1
  group := fun _ => ⟨8192, freeInodes, 0, true, false, List.replicate 1024 0, inodeBmap⟩
  sbFreeBlocks := 8192
  sbFreeInodes := freeInodes
  firstPassBbmap := 0
  currBlkno := 0
  firstPassIbmap := 0
  currInodeNo := 0

theorem oneGroup_consistent {freeInodes : ℕ} {inodeBmap : List (BitVec 8)}
    (hlen : inodeBmap.length = 1024) (hfree : freeInodes = zeros inodeBmap 16) :
    Consistent (oneGroup freeInodes inodeBmap) := by
  refine ⟨.inl rfl, rfl, ⟨show 0 < 16 by decide, show 16 ≤ 8 * 1024 by decide⟩, ?_,
    fun _ _ => hlen, ?_, fun _ _ => hfree⟩
  · exact fun _ _ => length_replicate
  · exact fun _ _ => (zeros_replicate_zero 1024 8192).symm

def noInodes : Fs := oneGroup 0 (List.replicate 1024 255#8)

/- Two blocks. -/
theorem bitmap_allocation_twice :
    ∃ b fs₁ ret fs₂, ext4fsGetNewBlkNo noInodes = some (b, fs₁) ∧
      ext4fsGetNewBlkNo fs₁ = some (ret, fs₂) ∧ BlkExact fs₁ ret fs₂ ∧ ∀ c ∈ ret, c ∉ b := by
  have hcons : Consistent noInodes := oneGroup_consistent length_replicate (by decide +kernel)
  have hpass : noInodes.firstPassBbmap = 0 := rfl
  have hclear : BlkClear noInodes := by
    rw [BlkClear, if_pos hpass]
    exact .inl ⟨0, by decide, by decide⟩
  obtain ⟨-, -, -, hblock, -⟩ := bitmap_allocation_exact hcons rfl Reach.start
  obtain ⟨b, fs₁, hcall, hexact, -⟩ := hblock hclear
  have hone : fs₁.noBlkgrp = 1 ∧ fs₁.firstPassBbmap ≠ 0 := by
    cases hexact with
    | inl htaken =>
      obtain ⟨i, -, o, -, -, -, hfs₁, -⟩ := htaken
      rw [hfs₁, if_pos hpass]
      exact ⟨rfl, Nat.succ_ne_zero _⟩
    | inr hnone =>
      have hfree := hnone.1 0 (by decide) 0 (by decide)
      exact absurd hfree (by decide)
  have hclear₁ : BlkClear fs₁ := by
    rw [BlkClear, if_neg hone.2]
    intro i hi hlater
    lia
  obtain ⟨-, -, -, hblock₁, -⟩ := bitmap_allocation_exact hcons rfl
    (Reach.block Reach.start hclear hcall)
  obtain ⟨ret, fs₂, hcall₁, hexact₁, hnew⟩ := hblock₁ hclear₁
  refine ⟨b, fs₁, ret, fs₂, hcall, hcall₁, hexact₁, fun c hc hb => hnew c hc ?_⟩
  rw [nil_append]
  exact mem_toList.mpr hb

/- The last two inodes of 16: behind the first the cursor is at the end of the group. -/
def lastTwo : List (BitVec 8) := 255#8 :: 63#8 :: List.replicate 1022 255#8

theorem last_inode_lost :
    Consistent (oneGroup 2 lastTwo) ∧
      ∃ fs₁, ext4fsGetNewInodeNo (oneGroup 2 lastTwo) = some (some 15, fs₁) ∧
        fs₁.inodeBit 0 15 = false ∧ ext4fsGetNewInodeNo fs₁ = none := by
  have hlen : lastTwo.length = 1024 := by
    rw [lastTwo, length_cons, length_cons, length_replicate]
  refine ⟨oneGroup_consistent hlen (by decide +kernel), ?_⟩
  have hfirst : (ext4fsGetNewInodeNo (oneGroup 2 lastTwo)).map Prod.fst = some (some 15) := by
    decide +kernel
  obtain ⟨⟨ret, fs₁⟩, hcall, hret⟩ := map_eq_some_iff.mp hfirst
  refine ⟨fs₁, ?_, ?_, ?_⟩
  · rw [hcall]
    exact congrArg some (Prod.ext hret rfl)
  · have hbit : (ext4fsGetNewInodeNo (oneGroup 2 lastTwo)).map (fun r => r.2.inodeBit 0 15) =
        some false := by decide +kernel
    rw [hcall] at hbit
    exact some.inj hbit
  · have hnone : ((ext4fsGetNewInodeNo (oneGroup 2 lastTwo)).bind fun r =>
        ext4fsGetNewInodeNo r.2).isNone = true := by decide +kernel
    rw [hcall] at hnone
    exact isNone_iff_eq_none.mp hnone

end UBoot.Ext4
