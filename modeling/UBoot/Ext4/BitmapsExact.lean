import UBoot.Ext4.Bitmaps

/-!
# Numbers from the bitmaps

What a call does to a state in which the counters are the numbers of clear bits.
-/

namespace UBoot.Ext4

open Bitmap Function List

section Scan

variable {buffer : List (BitVec 8)} {n : ℕ}

theorem skipFull_spec {stop : ℕ → Bool} {count : ℕ} (hn : n / 8 < buffer.length)
    (hones : ∀ k < n, bit buffer k = true) (hbit : bit buffer n = false)
    (hstop : ∀ i ≤ n / 8, stop (count + 8 * i) = false) :
    ∀ (d : ℕ) (i : ℕ), i + d = n / 8 →
      skipFull stop (buffer.drop i) i (count + 8 * i) = some (some (n / 8, count + 8 * (n / 8))) := by
  intro d
  induction d with
  | zero =>
    intro i hi
    rw [Nat.add_zero] at hi
    subst hi
    rw [drop_eq_getElem_cons hn, skipFull, if_neg]
    intro hfull
    have hbyte : buffer.getD (n / 8) 0 = 255#8 := by
      rw [getD_eq_getElem?_getD, getElem?_eq_getElem hn, hfull]
      rfl
    have hone := byte_full hbyte (Nat.mod_lt n (by decide))
    rw [Nat.div_add_mod, hbit] at hone
    cases hone
  | succ d ih =>
    intro i hi
    have hlt : i < buffer.length := by lia
    have hfull : buffer.get ⟨i, hlt⟩ = 255#8 := by
      have hbyte : buffer.getD i 0 = 255#8 := byte_eq_full fun j hj => hones _ (by lia)
      rw [getD_eq_getElem?_getD, getElem?_eq_getElem hlt] at hbyte
      exact hbyte
    rw [get_eq_getElem] at hfull
    rw [drop_eq_getElem_cons hlt, skipFull, if_pos hfull]
    have hnext : count + 8 * i + 8 = count + 8 * (i + 1) := by ring
    rw [hnext, hstop (i + 1) (by lia)]
    simp only [Bool.false_eq_true, if_false]
    exact ih (i + 1) (by lia)

theorem find_zero {x : BitVec 8} {i : ℕ} (hi : i < 8) (hones : ∀ j < i, x.getLsbD j = true)
    (hzero : x.getLsbD i = false) : ((List.range 8).find? fun j => !x.getLsbD j) = some i := by
  rw [find?_range_eq_some]
  refine ⟨by simp [hzero], by simpa using hi, ?_⟩
  intro j hj
  simp [hones j hj]

theorem scanBitmap_spec {stop : ℕ → Bool} {start blksz : ℕ} (hblksz : 0 < blksz)
    (hn : n / 8 < buffer.length) (hones : ∀ k < n, bit buffer k = true)
    (hbit : bit buffer n = false) (hstop : ∀ i ≤ n / 8, stop (start + 8 * i) = false) :
    scanBitmap start stop blksz buffer = some (some (start + n), mark buffer n) := by
  have hskip := skipFull_spec hn hones hbit hstop (n / 8) 0 (Nat.zero_add _)
  rw [drop_zero, Nat.mul_zero, Nat.add_zero] at hskip
  have hbyte : buffer[n / 8]? = some (buffer.getD (n / 8) 0) := by
    rw [getD_eq_getElem?_getD, getElem?_eq_getElem hn]
    rfl
  have hfind := find_zero (x := buffer.getD (n / 8) 0) (Nat.mod_lt n (by decide : 0 < 8))
    (fun j hj => by
      have hone := hones (8 * (n / 8) + j) (by lia)
      rw [bit] at hone
      have hdiv : (8 * (n / 8) + j) / 8 = n / 8 := by lia
      have hmod : (8 * (n / 8) + j) % 8 = j := by lia
      rw [hdiv, hmod] at hone
      exact hone) hbit
  obtain ⟨j, rfl⟩ : ∃ j, blksz = j + 1 := ⟨blksz - 1, by lia⟩
  rw [scanBitmap, hskip]
  simp only [scanBytes, hbyte, hfind]
  have hcount : start + 8 * (n / 8) + n % 8 = start + n := by lia
  rw [hcount, mark]

end Scan

section Bits

variable {buffer : List (BitVec 8)} {o : ℕ}

theorem byteAt_byte (ho : o / 8 < buffer.length) :
    byteAt buffer (o / 8 : ℕ) = some (buffer.getD (o / 8) 0) := by
  rw [byteAt, if_neg (by lia), Int.toNat_natCast, getD_eq_getElem?_getD, getElem?_eq_getElem ho]
  rfl

theorem setAt_bit (ho : o / 8 < buffer.length) : setAt buffer (((o / 8 : ℕ) : ℤ), o % 8) =
    if bit buffer o then some (false, buffer) else some (true, mark buffer o) := by
  rw [setAt, byteAt_byte ho]
  rfl

theorem resetAt_mark (ho : o / 8 < buffer.length) (hbit : bit buffer o = false) :
    resetAt (mark buffer o) (((o / 8 : ℕ) : ℤ), o % 8) = some buffer := by
  have hset : ((mark buffer o).getD (o / 8) 0).getLsbD (o % 8) = true := by
    have hmarked : bit (mark buffer o) o = true := by simp [bit_mark ho]
    exact hmarked
  have hclear := clear_mark hbit ho
  rw [clear] at hclear
  rw [resetAt, byteAt_byte (by rw [length_mark]; exact ho)]
  simp only [hset, if_true, Int.toNat_natCast, hclear]

def firstDataBlock (blksz : ℕ) : ℕ := if blksz = 1024 then 1 else 0

theorem blockPos_eq (blksz i : ℕ) :
    blockPos blksz (firstDataBlock blksz + i * (8 * blksz) + o) i = (((o / 8 : ℕ) : ℤ), o % 8) := by
  have hmul : i * (8 * blksz) = 8 * (i * blksz) := by ring
  rw [hmul, blockPos, firstDataBlock]
  generalize i * blksz = base
  by_cases hk : blksz = 1024
  · rw [if_pos hk, if_neg (not_not_intro hk)]
    split
    · rw [Prod.mk.injEq]
      exact ⟨by lia, by lia⟩
    · rw [Prod.mk.injEq]
      exact ⟨by lia, by lia⟩
  · rw [if_neg hk, if_pos hk, Prod.mk.injEq]
    exact ⟨by lia, by lia⟩

theorem inodePos_eq (inodesPerGroup i : ℕ) :
    inodePos inodesPerGroup (i * inodesPerGroup + o + 1) i = (((o / 8 : ℕ) : ℤ), o % 8) := by
  rw [inodePos]
  have hno : ((i * inodesPerGroup + o + 1 : ℕ) : ℤ) - (i * inodesPerGroup : ℕ) = (o + 1 : ℕ) := by
    push_cast
    ring
  simp only [hno]
  rw [show (8 : ℤ) = (8 : ℕ) from rfl, ← Int.ofNat_tdiv, ← Int.ofNat_tmod]
  split
  · rw [Prod.mk.injEq]
    exact ⟨by lia, by lia⟩
  · rw [Prod.mk.injEq]
    exact ⟨by lia, by lia⟩

end Bits

def Group.blkBits (g : Group) (blksz : ℕ) : List (BitVec 8) :=
  if g.blockUninit then List.replicate blksz 0 else g.blkBmap

def Group.inodeBits (g : Group) (blksz : ℕ) : List (BitVec 8) :=
  if g.inodeUninit then List.replicate blksz 0 else g.inodeBmap

structure Consistent (fs : Fs) : Prop where
  blksz : fs.blksz = 1024 ∨ fs.blksz = 2048 ∨ fs.blksz = 4096
  blocksPerGroup : fs.blocksPerGroup = 8 * fs.blksz
  inodesPerGroup : 0 < fs.inodesPerGroup ∧ fs.inodesPerGroup ≤ 8 * fs.blksz
  blkLength : ∀ i < fs.noBlkgrp, (fs.group i).blkBmap.length = fs.blksz
  inodeLength : ∀ i < fs.noBlkgrp, (fs.group i).inodeBmap.length = fs.blksz
  freeBlocks : ∀ i < fs.noBlkgrp,
    (fs.group i).freeBlocks = zeros ((fs.group i).blkBits fs.blksz) (8 * fs.blksz)
  freeInodes : ∀ i < fs.noBlkgrp,
    (fs.group i).freeInodes = zeros ((fs.group i).inodeBits fs.blksz) fs.inodesPerGroup

theorem decr_eq {width x : ℕ} (hpos : x ≠ 0) (hx : x ≤ 2 ^ width) : decr width x = x - 1 := by
  rw [decr, Nat.sub_add_comm (by lia), Nat.add_mod_right, Nat.mod_eq_of_lt (by lia)]

section Groups

variable {fs : Fs} (h : Consistent fs) {i : ℕ} (hi : i < fs.noBlkgrp)

include h hi

theorem Consistent.blkBits_length : ((fs.group i).blkBits fs.blksz).length = fs.blksz := by
  rw [Group.blkBits]
  split
  · exact length_replicate
  · exact h.blkLength i hi

theorem Consistent.inodeBits_length : ((fs.group i).inodeBits fs.blksz).length = fs.blksz := by
  rw [Group.inodeBits]
  split
  · exact length_replicate
  · exact h.inodeLength i hi

theorem Consistent.freeBlocks_le : (fs.group i).freeBlocks ≤ 2 ^ 16 := by
  have hle := zeros_le ((fs.group i).blkBits fs.blksz) (8 * fs.blksz)
  have hblksz := h.blksz
  rw [h.freeBlocks i hi]
  lia

theorem Consistent.freeInodes_le : (fs.group i).freeInodes ≤ 2 ^ 16 := by
  have hle := zeros_le ((fs.group i).inodeBits fs.blksz) fs.inodesPerGroup
  have hblksz := h.blksz
  have hper := h.inodesPerGroup
  rw [h.freeInodes i hi]
  lia

end Groups

namespace Fs

/- What a call is for: the bit and the counters of the block, and the cursor on it. -/
def blockTaken (fs : Fs) (i o : ℕ) : Fs :=
  { fs.setGroup i { fs.group i with
      blkBmap := mark ((fs.group i).blkBits fs.blksz) o
      blockUninit := false
      freeBlocks := (fs.group i).freeBlocks - 1 } with
    sbFreeBlocks := decr 32 fs.sbFreeBlocks
    currBlkno := firstDataBlock fs.blksz + i * (8 * fs.blksz) + o }

def blkBit (fs : Fs) (i o : ℕ) : Bool := bit ((fs.group i).blkBits fs.blksz) o

end Fs

theorem initBlocks_eq (fs : Fs) (i : ℕ) : fs.initBlocks i = fs.setGroup i { fs.group i with
    blkBmap := (fs.group i).blkBits fs.blksz
    blockUninit := false } := by
  rw [Fs.initBlocks]
  by_cases hun : (fs.group i).blockUninit = true
  · rw [if_pos hun, Group.blkBits, if_pos hun]
  · have hself : ({ fs.group i with
        blkBmap := (fs.group i).blkBits fs.blksz
        blockUninit := false } : Group) = fs.group i := by
      rw [Group.blkBits, if_neg hun]
      simp only [Bool.not_eq_true] at hun
      rw [← hun]
    rw [if_neg hun, hself, Fs.setGroup, update_eq_self]

theorem initBlocks_bmap (fs : Fs) (i : ℕ) :
    ((fs.initBlocks i).group i).blkBmap = (fs.group i).blkBits fs.blksz := by
  rw [initBlocks_eq]
  simp only [Fs.setGroup, update_self]

theorem initBlocks_blksz (fs : Fs) (i : ℕ) : (fs.initBlocks i).blksz = fs.blksz := by
  rw [initBlocks_eq]
  rfl

variable {fs : Fs} {i o : ℕ}

theorem take_initBlocks (h : Consistent fs) {b : ℕ} (hi : i < fs.noBlkgrp)
    (hfree : (fs.group i).freeBlocks ≠ 0)
    (hb : b = firstDataBlock fs.blksz + i * (8 * fs.blksz) + o) :
    (fs.initBlocks i).takeBlock i b (mark ((fs.group i).blkBits fs.blksz) o) = fs.blockTaken i o := by
  have hdecr := decr_eq hfree (h.freeBlocks_le hi)
  rw [initBlocks_eq, hb]
  simp only [Fs.takeBlock, Fs.blockTaken, Fs.setGroup, update_self, update_idem, hdecr]

theorem blockTaken_initBlocks (fs : Fs) (i o b : ℕ) :
    ((fs.initBlocks i).atBlock b).blockTaken i o = fs.blockTaken i o := by
  rw [initBlocks_eq]
  simp only [Fs.blockTaken, Fs.setGroup, Fs.atBlock, update_self, update_idem]
  rfl

theorem setGroup_self (fs : Fs) (i : ℕ) (g : Group) : (fs.setGroup i g).group i = g :=
  update_self _ _ _

theorem setGroup_ne (fs : Fs) {j : ℕ} (g : Group) (h : j ≠ i) :
    (fs.setGroup i g).group j = fs.group j := update_of_ne h _ _

theorem Consistent.setGroup (h : Consistent fs) (i : ℕ) {g : Group}
    (hblk : g.blkBmap.length = fs.blksz) (hinode : g.inodeBmap.length = fs.blksz)
    (hblocks : g.freeBlocks = zeros (g.blkBits fs.blksz) (8 * fs.blksz))
    (hinodes : g.freeInodes = zeros (g.inodeBits fs.blksz) fs.inodesPerGroup) :
    Consistent (fs.setGroup i g) := by
  have hgroup : ∀ P : Group → Prop, P g → (∀ j < fs.noBlkgrp, P (fs.group j)) →
      ∀ j < fs.noBlkgrp, P ((fs.setGroup i g).group j) := by
    intro P hg hrest j hj
    by_cases hji : j = i
    · rw [hji, setGroup_self]
      exact hg
    · rw [setGroup_ne _ _ hji]
      exact hrest j hj
  exact ⟨h.blksz, h.blocksPerGroup, h.inodesPerGroup,
    hgroup (fun g => g.blkBmap.length = fs.blksz) hblk h.blkLength,
    hgroup (fun g => g.inodeBmap.length = fs.blksz) hinode h.inodeLength,
    hgroup (fun g => g.freeBlocks = zeros (g.blkBits fs.blksz) (8 * fs.blksz)) hblocks h.freeBlocks,
    hgroup (fun g => g.freeInodes = zeros (g.inodeBits fs.blksz) fs.inodesPerGroup) hinodes
      h.freeInodes⟩

theorem Consistent.atBlock (h : Consistent fs) (b : ℕ) : Consistent (fs.atBlock b) :=
  ⟨h.blksz, h.blocksPerGroup, h.inodesPerGroup, h.blkLength, h.inodeLength, h.freeBlocks,
    h.freeInodes⟩

theorem Consistent.initBlocks (h : Consistent fs) (hi : i < fs.noBlkgrp) :
    Consistent (fs.initBlocks i) := by
  rw [initBlocks_eq]
  exact h.setGroup i (h.blkBits_length hi) (h.inodeLength i hi) (h.freeBlocks i hi)
    (h.freeInodes i hi)

theorem Consistent.blockTaken (h : Consistent fs) (hi : i < fs.noBlkgrp)
    (ho : o < 8 * fs.blksz) (hbit : fs.blkBit i o = false) : Consistent (fs.blockTaken i o) := by
  have hlen := h.blkBits_length hi
  have hzeros := zeros_mark hbit ho (by rw [hlen]; lia)
  have hgroup := h.setGroup i (g := { fs.group i with
      blkBmap := mark ((fs.group i).blkBits fs.blksz) o
      blockUninit := false
      freeBlocks := (fs.group i).freeBlocks - 1 })
    (by rw [length_mark, hlen]) (h.inodeLength i hi)
    (by
      rw [h.freeBlocks i hi, ← hzeros, Nat.add_sub_cancel]
      rfl)
    (h.freeInodes i hi)
  exact ⟨hgroup.blksz, hgroup.blocksPerGroup, hgroup.inodesPerGroup, hgroup.blkLength,
    hgroup.inodeLength, hgroup.freeBlocks, hgroup.freeInodes⟩

theorem bgIdx_eq (h : Consistent fs) {b : ℕ} (ho : o < 8 * fs.blksz)
    (hb : b = firstDataBlock fs.blksz + i * (8 * fs.blksz) + o) : bgIdx fs b = i := by
  rw [bgIdx, h.blocksPerGroup]
  rw [firstDataBlock] at hb
  generalize 8 * fs.blksz = per at ho hb ⊢
  have hper : 0 < per := by lia
  by_cases hk : fs.blksz = 1024
  · rw [if_pos hk] at hb
    by_cases hlast : o + 1 = per
    · -- the last block of the group is a multiple of its size
      have hb' : b = (i + 1) * per := by
        rw [Nat.succ_mul]
        lia
      rw [if_pos ⟨hk, by rw [hb', Nat.mul_mod_left]⟩, hb', Nat.mul_div_cancel _ hper]
      rfl
    · have hb' : b = (o + 1) + i * per := by lia
      have hmod : b % per = o + 1 := by
        rw [hb', Nat.add_mul_mod_self_right, Nat.mod_eq_of_lt (by lia)]
      rw [if_neg (by lia), hb', Nat.add_mul_div_right _ _ hper, Nat.div_eq_of_lt (by lia),
        Nat.zero_add]
  · rw [if_neg hk, Nat.zero_add] at hb
    rw [if_neg fun hand => hk hand.1, hb, Nat.add_comm, Nat.add_mul_div_right _ _ hper,
      Nat.div_eq_of_lt ho, Nat.zero_add]

variable {z : ℕ}

theorem nextBlkNo_walk : ∀ (d fuel : ℕ) {fs : Fs} {o : ℕ}, Consistent fs →
    i < fs.noBlkgrp → (fs.group i).freeBlocks ≠ 0 → o + d = z → z < 8 * fs.blksz →
    fs.currBlkno + 1 = firstDataBlock fs.blksz + i * (8 * fs.blksz) + o →
    (∀ k, o ≤ k → k < z → fs.blkBit i k = true) → fs.blkBit i z = false → d < fuel →
    nextBlkNo fuel fs =
      some (some (firstDataBlock fs.blksz + i * (8 * fs.blksz) + z), fs.blockTaken i z) := by
  intro d
  induction d with
  | zero =>
    intro fuel fs o h hi hfree hoz hz hcurr _ hbit hfuel
    obtain ⟨m, rfl⟩ : ∃ m, fuel = m + 1 := ⟨fuel - 1, by lia⟩
    rw [Nat.add_zero] at hoz
    subst hoz
    have hbyte : o / 8 < ((fs.group i).blkBits fs.blksz).length := by
      rw [h.blkBits_length hi]
      lia
    rw [nextBlkNo]
    simp only [bgIdx_eq h hz hcurr, if_neg (Nat.not_le.mpr hi), if_neg hfree, initBlocks_blksz,
      initBlocks_bmap]
    rw [ext4fsSetBlockBmap, hcurr, blockPos_eq, setAt_bit hbyte]
    rw [Fs.blkBit] at hbit
    simp only [hbit, Bool.false_eq_true, if_false]
    rw [take_initBlocks h hi hfree rfl]
  | succ d ih =>
    intro fuel fs o h hi hfree hoz hz hcurr hones hbit hfuel
    obtain ⟨m, rfl⟩ : ∃ m, fuel = m + 1 := ⟨fuel - 1, by lia⟩
    have ho : o < 8 * fs.blksz := by lia
    have hbyte : o / 8 < ((fs.group i).blkBits fs.blksz).length := by
      rw [h.blkBits_length hi]
      lia
    have hone := hones o le_rfl (by lia)
    rw [nextBlkNo]
    simp only [bgIdx_eq h ho hcurr, if_neg (Nat.not_le.mpr hi), if_neg hfree, initBlocks_blksz,
      initBlocks_bmap]
    rw [ext4fsSetBlockBmap, hcurr, blockPos_eq, setAt_bit hbyte]
    rw [Fs.blkBit] at hone
    simp only [hone, if_true]
    -- the rest of the walk, over a bitmap that is initialized by now
    generalize hb : firstDataBlock fs.blksz + i * (8 * fs.blksz) + o = b at hcurr ⊢
    have hblksz : ((fs.initBlocks i).atBlock b).blksz = fs.blksz := initBlocks_blksz fs i
    have hgroups : ((fs.initBlocks i).atBlock b).noBlkgrp = fs.noBlkgrp := by
      rw [initBlocks_eq]
      rfl
    have hgroup : ((fs.initBlocks i).atBlock b).group i = { fs.group i with
        blkBmap := (fs.group i).blkBits fs.blksz
        blockUninit := false } := by
      rw [initBlocks_eq]
      exact setGroup_self _ _ _
    have hbits : ∀ k, ((fs.initBlocks i).atBlock b).blkBit i k = fs.blkBit i k := by
      intro k
      rw [Fs.blkBit, hgroup]
      rfl
    have hrest := ih m ((h.initBlocks hi).atBlock b) (by rw [hgroups]; exact hi)
      (by rw [hgroup]; exact hfree) (show o + 1 + d = z by lia) (by rw [hblksz]; exact hz)
      (by rw [hblksz]; show b + 1 = _; lia)
      (fun k hk hkz => by rw [hbits]; exact hones k (by lia) hkz) (by rw [hbits]; exact hbit)
      (by lia)
    rw [hrest, blockTaken_initBlocks, hblksz]

theorem nextBlkNo_jump (k fuel : ℕ) (h : Consistent fs) (ho : o < 8 * fs.blksz)
    (hcurr : fs.currBlkno + 1 = firstDataBlock fs.blksz + i * (8 * fs.blksz) + o)
    (hfull : ∀ j, i ≤ j → j < i + k → j < fs.noBlkgrp ∧ (fs.group j).freeBlocks = 0) :
    nextBlkNo (fuel + k) fs = nextBlkNo fuel (fs.atBlock (fs.currBlkno + k * (8 * fs.blksz))) := by
  induction k generalizing fs i with
  | zero =>
    rw [Nat.zero_mul, Nat.add_zero, Nat.add_zero]
    rfl
  | succ k ih =>
    obtain ⟨hi, hzero⟩ := hfull i le_rfl (by lia)
    rw [← Nat.add_assoc, nextBlkNo]
    simp only [bgIdx_eq h ho hcurr, if_neg (Nat.not_le.mpr hi), if_pos hzero]
    have hnext : fs.currBlkno + 1 + fs.blocksPerGroup - 1 = fs.currBlkno + 8 * fs.blksz := by
      rw [h.blocksPerGroup]
      lia
    have hmul : (i + 1) * (8 * fs.blksz) = i * (8 * fs.blksz) + 8 * fs.blksz := Nat.succ_mul _ _
    have hmul' : (k + 1) * (8 * fs.blksz) = k * (8 * fs.blksz) + 8 * fs.blksz := Nat.succ_mul _ _
    have hplace : fs.currBlkno + 8 * fs.blksz + 1 =
        firstDataBlock fs.blksz + (i + 1) * (8 * fs.blksz) + o := by lia
    have hrest := ih (h.atBlock (fs.currBlkno + 8 * fs.blksz)) ho hplace
      (fun j hij hjk => hfull j (by lia) (by lia))
    have hsum : fs.currBlkno + 8 * fs.blksz + k * (8 * fs.blksz) =
        fs.currBlkno + (k + 1) * (8 * fs.blksz) := by lia
    rw [hnext, hrest, ← hsum]
    rfl

def Behind (fs : Fs) : Prop :=
  ∀ i < fs.noBlkgrp, ∀ o < 8 * fs.blksz, fs.blkBit i o = false →
    fs.currBlkno < firstDataBlock fs.blksz + i * (8 * fs.blksz) + o

theorem Behind.passBlocks (h : Behind fs) : Behind fs.passBlocks :=
  fun i hi o ho hbit => h i hi o ho hbit

/- The place of the cursor: the groups from there on and the position in them. -/
def cursorGroup (fs : Fs) : ℕ := (fs.currBlkno + 1 - firstDataBlock fs.blksz) / (8 * fs.blksz)

def cursorOffset (fs : Fs) : ℕ := (fs.currBlkno + 1 - firstDataBlock fs.blksz) % (8 * fs.blksz)

/- A first pass has a group within reach, and where full groups are skipped no free block is. -/
def BlkClear (fs : Fs) : Prop :=
  if fs.firstPassBbmap = 0 then
    (∃ i < min fs.noBlkgrp shortLimit, (fs.group i).freeBlocks ≠ 0) ∨
      ∀ i < fs.noBlkgrp, (fs.group i).freeBlocks = 0
  else
    ∀ i < fs.noBlkgrp, cursorGroup fs < i →
      (∀ j, cursorGroup fs ≤ j → j < i → (fs.group j).freeBlocks = 0) →
      ∀ o < cursorOffset fs, fs.blkBit i o = true

/- A free block is taken, with its bit and its counters and nothing else, or there is none. -/
def BlkExact (fs : Fs) (ret : Option ℕ) (fs' : Fs) : Prop :=
  (∃ i < fs.noBlkgrp, ∃ o < 8 * fs.blksz, fs.blkBit i o = false ∧
    ret = some (firstDataBlock fs.blksz + i * (8 * fs.blksz) + o) ∧
    fs' = (if fs.firstPassBbmap = 0 then (fs.blockTaken i o).passBlocks else fs.blockTaken i o) ∧
    ext4fsResetBlockBmap fs.blksz (firstDataBlock fs.blksz + i * (8 * fs.blksz) + o)
      (fs'.group i).blkBmap i = some ((fs.group i).blkBits fs.blksz)) ∨
  ((∀ i < fs.noBlkgrp, ∀ o < 8 * fs.blksz, fs.blkBit i o = true) ∧ ret = none ∧
    fs' = fs.atBlock fs'.currBlkno)

theorem Consistent.full (h : Consistent fs) (hi : i < fs.noBlkgrp)
    (hzero : (fs.group i).freeBlocks = 0) : ∀ o < 8 * fs.blksz, fs.blkBit i o = true := by
  intro o ho
  by_contra hbit
  rw [h.freeBlocks i hi] at hzero
  exact zeros_ne_zero.mpr ⟨o, ho, by simpa [Fs.blkBit] using hbit⟩ hzero

theorem Consistent.reset_block (h : Consistent fs) (hi : i < fs.noBlkgrp)
    (ho : o < 8 * fs.blksz) (hbit : fs.blkBit i o = false) :
    ext4fsResetBlockBmap fs.blksz (firstDataBlock fs.blksz + i * (8 * fs.blksz) + o)
      ((fs.blockTaken i o).group i).blkBmap i = some ((fs.group i).blkBits fs.blksz) := by
  have hbmap : ((fs.blockTaken i o).group i).blkBmap = mark ((fs.group i).blkBits fs.blksz) o :=
    congrArg Group.blkBmap (setGroup_self _ _ _)
  rw [ext4fsResetBlockBmap, blockPos_eq, hbmap]
  exact resetAt_mark (by rw [h.blkBits_length hi]; lia) hbit

theorem exists_landing (fs : Fs) (i : ℕ) : ∃ k,
    (∀ j, i ≤ j → j < i + k → j < fs.noBlkgrp ∧ (fs.group j).freeBlocks = 0) ∧
      (fs.noBlkgrp ≤ i + k ∨ (fs.group (i + k)).freeBlocks ≠ 0) := by
  have hex : ∃ k, fs.noBlkgrp ≤ i + k ∨ (fs.group (i + k)).freeBlocks ≠ 0 :=
    ⟨fs.noBlkgrp, .inl (Nat.le_add_left _ _)⟩
  refine ⟨Nat.find hex, ?_, Nat.find_spec hex⟩
  intro j hij hjk
  have hmin := Nat.find_min hex (m := j - i) (by lia)
  rw [not_or, Nat.add_sub_cancel' hij] at hmin
  exact ⟨not_le.mp hmin.1, not_not.mp hmin.2⟩

theorem firstDataBlock_le (blksz : ℕ) : firstDataBlock blksz ≤ 1 := by
  rw [firstDataBlock]
  split <;> lia

theorem cursor_eq (fs : Fs) : fs.currBlkno + 1 =
    firstDataBlock fs.blksz + cursorGroup fs * (8 * fs.blksz) + cursorOffset fs := by
  have hdata := firstDataBlock_le fs.blksz
  have hdiv := Nat.div_add_mod (fs.currBlkno + 1 - firstDataBlock fs.blksz) (8 * fs.blksz)
  rw [Nat.mul_comm] at hdiv
  rw [cursorGroup, cursorOffset]
  lia

theorem blockTaken_self (fs : Fs) (i o : ℕ) : (fs.blockTaken i o).group i = { fs.group i with
    blkBmap := mark ((fs.group i).blkBits fs.blksz) o
    blockUninit := false
    freeBlocks := (fs.group i).freeBlocks - 1 } := setGroup_self _ _ _

theorem blockTaken_ne (fs : Fs) (o : ℕ) {j : ℕ} (h : j ≠ i) :
    (fs.blockTaken i o).group j = fs.group j := setGroup_ne _ _ h

theorem blockTaken_blkBit (h : Consistent fs) (hi : i < fs.noBlkgrp) (ho : o < 8 * fs.blksz)
    (j z : ℕ) : (fs.blockTaken i o).blkBit j z = (fs.blkBit j z || decide (j = i ∧ z = o)) := by
  by_cases hj : j = i
  · have hbyte : o / 8 < ((fs.group i).blkBits fs.blksz).length := by
      rw [h.blkBits_length hi]
      lia
    rw [hj, Fs.blkBit, blockTaken_self]
    simp only [true_and]
    exact bit_mark hbyte
  · rw [Fs.blkBit, blockTaken_ne fs o hj, decide_eq_false (fun hand => hj hand.1), Bool.or_false]
    rfl

theorem behind_blockTaken (h : Consistent fs) (hi : i < fs.noBlkgrp)
    (ho : o < 8 * fs.blksz) (hones : ∀ k < o, fs.blkBit i k = true)
    (hgroup : ∀ j < fs.noBlkgrp, ∀ z < 8 * fs.blksz, fs.blkBit j z = false → i ≤ j) :
    Behind (fs.blockTaken i o) := by
  intro j hj z hz hbit
  rw [blockTaken_blkBit h hi ho, Bool.or_eq_false_iff, decide_eq_false_iff_not] at hbit
  have hij := hgroup j hj z hz hbit.1
  show firstDataBlock fs.blksz + i * (8 * fs.blksz) + o <
    firstDataBlock fs.blksz + j * (8 * fs.blksz) + z
  by_cases heq : j = i
  · subst heq
    have hlt : ¬ z < o := by
      intro hzo
      rw [hones z hzo] at hbit
      exact absurd hbit.1 (by decide)
    lia
  · have hmul : (i + 1) * (8 * fs.blksz) ≤ j * (8 * fs.blksz) := Nat.mul_le_mul_right _ (by lia)
    rw [Nat.succ_mul] at hmul
    lia

theorem group_le_of_le {per j : ℕ} (hz : z < per) (h : i * per + o ≤ j * per + z) : i ≤ j := by
  by_contra hlt
  have hmul : (j + 1) * per ≤ i * per := Nat.mul_le_mul_right _ (by lia)
  rw [Nat.succ_mul] at hmul
  lia

theorem nextBlkNo_spec (h : Consistent fs) (hpass : fs.firstPassBbmap ≠ 0)
    (hbehind : Behind fs) (hclear : BlkClear fs) :
    ∃ ret fs', ext4fsGetNewBlkNo fs = some (ret, fs') ∧ BlkExact fs ret fs' ∧ Behind fs' := by
  have hper : 0 < 8 * fs.blksz := by
    have := h.blksz
    lia
  have hcurr := cursor_eq fs
  have ho : cursorOffset fs < 8 * fs.blksz := Nat.mod_lt _ hper
  rw [BlkClear, if_neg hpass] at hclear
  rw [ext4fsGetNewBlkNo, if_neg hpass, h.blocksPerGroup]
  generalize cursorGroup fs = i at hcurr hclear
  generalize cursorOffset fs = o at hcurr hclear ho
  obtain ⟨k, hfull, hland⟩ := exists_landing fs i
  have hmul : (i + k) * (8 * fs.blksz) = i * (8 * fs.blksz) + k * (8 * fs.blksz) := Nat.add_mul _ _ _
  have hplace : fs.currBlkno + k * (8 * fs.blksz) + 1 =
      firstDataBlock fs.blksz + (i + k) * (8 * fs.blksz) + o := by lia
  -- a free block is in a group from the landing on
  have hgroup : ∀ j < fs.noBlkgrp, ∀ z < 8 * fs.blksz, fs.blkBit j z = false → i + k ≤ j := by
    intro j hj z hz hbit
    have hlt := hbehind j hj z hz hbit
    have hpos : i * (8 * fs.blksz) + o ≤ j * (8 * fs.blksz) + z := by lia
    have hij : i ≤ j := group_le_of_le hz hpos
    by_contra hlow
    have hone := h.full hj (hfull j hij (by lia)).2 z hz
    rw [hbit] at hone
    cases hone
  have hk : k ≤ fs.noBlkgrp := by
    by_contra hbig
    have := (hfull (i + fs.noBlkgrp) (by lia) (by lia)).1
    lia
  have hgroups : fs.noBlkgrp ≤ fs.noBlkgrp * (8 * fs.blksz) := Nat.le_mul_of_pos_right _ hper
  obtain ⟨fuel, hfuel⟩ : ∃ fuel, fs.noBlkgrp * (8 * fs.blksz) + 2 = fuel + 1 + k :=
    ⟨fs.noBlkgrp * (8 * fs.blksz) + 1 - k, by lia⟩
  rw [hfuel, nextBlkNo_jump k (fuel + 1) h ho hcurr hfull]
  by_cases hend : fs.noBlkgrp ≤ i + k
  · -- all groups from the cursor on are full
    have hnone : ∀ j < fs.noBlkgrp, ∀ z < 8 * fs.blksz, fs.blkBit j z = true := by
      intro j hj z hz
      by_contra hbit
      have hle := hgroup j hj z hz (by simpa using hbit)
      lia
    rw [nextBlkNo]
    have hbg : bgIdx (fs.atBlock (fs.currBlkno + k * (8 * fs.blksz)))
        (fs.currBlkno + k * (8 * fs.blksz) + 1) = i + k :=
      bgIdx_eq (h.atBlock _) ho hplace
    refine ⟨none, fs.atBlock (fs.currBlkno + k * (8 * fs.blksz) + 1), ?_,
      .inr ⟨hnone, rfl, rfl⟩, ?_⟩
    · simp only [Fs.atBlock] at hbg ⊢
      simp only [hbg, if_pos hend]
    · intro j hj z hz hbit
      have hone := hnone j hj z hz
      rw [Fs.blkBit] at hbit hone
      exact absurd (hone.symm.trans hbit) (by decide)
  · have hik : i + k < fs.noBlkgrp := by lia
    have hfree : (fs.group (i + k)).freeBlocks ≠ 0 := hland.resolve_left hend
    obtain ⟨z, hz, hbit, hones⟩ := exists_lowest (h.freeBlocks _ hik ▸ hfree)
    -- it is not before the place where the cursor lands
    have hoz : o ≤ z := by
      by_contra hlt
      cases Nat.eq_zero_or_pos k with
      | inl hzero =>
        subst hzero
        have hlater := hbehind _ hik z hz hbit
        rw [Nat.add_zero] at hlater
        lia
      | inr hpos =>
        have hone := hclear (i + k) hik (by lia) (fun j hij hjk => (hfull j hij hjk).2) z
          (by lia)
        rw [Fs.blkBit, hbit] at hone
        cases hone
    have henough : z - o < fuel + 1 := by
      obtain ⟨n, hn⟩ : ∃ n, fs.noBlkgrp = n + 1 := ⟨fs.noBlkgrp - 1, by lia⟩
      have hle : n ≤ n * (8 * fs.blksz) := Nat.le_mul_of_pos_right _ hper
      rw [hn, Nat.succ_mul] at hfuel
      lia
    have hwalk := nextBlkNo_walk (z - o) (fuel + 1) (h.atBlock (fs.currBlkno + k * (8 * fs.blksz)))
      hik hfree (Nat.add_sub_cancel' hoz) hz hplace (fun m _ hm => hones m hm) hbit henough
    refine ⟨_, fs.blockTaken (i + k) z, hwalk, .inl ⟨i + k, hik, z, hz, hbit, rfl, ?_, ?_⟩, ?_⟩
    · rw [if_neg hpass]
    · exact h.reset_block hik hz hbit
    · exact behind_blockTaken h hik hz hones fun j hj y hy hjy => hgroup j hj y hy hjy

theorem newBlkNo_lowest (h : Consistent fs) (hi : i < fs.noBlkgrp)
    (hz : z < 8 * fs.blksz) (hbit : fs.blkBit i z = false) (hones : ∀ k < z, fs.blkBit i k = true) :
    newBlkNo fs.blksz ((fs.group i).blkBits fs.blksz) =
      some (some (firstDataBlock fs.blksz + z), mark ((fs.group i).blkBits fs.blksz) z) := by
  have hstart : (if fs.blksz ≠ 1024 then 0 else 1) = firstDataBlock fs.blksz := by
    rw [firstDataBlock, ite_not]
  rw [newBlkNo, hstart]
  refine scanBitmap_spec (by lia) (by rw [h.blkBits_length hi]; lia) hones hbit ?_
  intro j hj
  rw [decide_eq_false_iff_not, firstDataBlock]
  split <;> lia

theorem firstBlkNo_spec (h : Consistent fs) : ∀ m i, i + m ≤ fs.noBlkgrp →
    (∃ j z, i ≤ j ∧ j < i + m ∧ z < 8 * fs.blksz ∧ fs.blkBit j z = false ∧
      (∀ k < z, fs.blkBit j k = true) ∧
      (∀ l, i ≤ l → l < j → (fs.group l).freeBlocks = 0) ∧
      firstBlkNo m i fs = some (some (firstDataBlock fs.blksz + j * (8 * fs.blksz) + z),
        (fs.blockTaken j z).passBlocks)) ∨
    ((∀ l, i ≤ l → l < i + m → (fs.group l).freeBlocks = 0) ∧
      firstBlkNo m i fs = some (none, fs)) := by
  intro m
  induction m with
  | zero =>
    intro i _
    exact .inr ⟨fun l hl hlt => absurd hlt (by lia), rfl⟩
  | succ m ih =>
    intro i hm
    have hi : i < fs.noBlkgrp := by lia
    rw [firstBlkNo]
    by_cases hfree : (fs.group i).freeBlocks = 0
    · rw [if_neg (not_not_intro hfree)]
      have hskip : ∀ l, i ≤ l → i + 1 ≤ l ∨ (fs.group l).freeBlocks = 0 := by
        intro l hl
        by_cases heq : i = l
        · exact .inr (heq ▸ hfree)
        · exact .inl (by lia)
      cases ih (i + 1) (by lia) with
      | inl hfound =>
        obtain ⟨j, z, hij, hjm, hz, hbit, hones, hbefore, hcall⟩ := hfound
        refine .inl ⟨j, z, by lia, by lia, hz, hbit, hones, ?_, hcall⟩
        intro l hl hlj
        cases hskip l hl with
        | inl hle => exact hbefore l hle hlj
        | inr hzero => exact hzero
      | inr hnone =>
        refine .inr ⟨?_, hnone.2⟩
        intro l hl hlt
        cases hskip l hl with
        | inl hle => exact hnone.1 l hle (by lia)
        | inr hzero => exact hzero
    · rw [if_pos hfree]
      obtain ⟨z, hz, hbit, hones⟩ := exists_lowest (h.freeBlocks i hi ▸ hfree)
      refine .inl ⟨i, z, le_rfl, by lia, hz, hbit, hones, fun l hl hlt => absurd hlt (by lia), ?_⟩
      simp only [initBlocks_blksz, initBlocks_bmap, newBlkNo_lowest h hi hz hbit hones]
      have hb : firstDataBlock fs.blksz + z + i * fs.blksz * 8 =
          firstDataBlock fs.blksz + i * (8 * fs.blksz) + z := by ring
      rw [take_initBlocks h hi hfree hb, hb]

theorem firstBlkNo_exact (h : Consistent fs) (hpass : fs.firstPassBbmap = 0)
    (hclear : BlkClear fs) :
    ∃ ret fs', ext4fsGetNewBlkNo fs = some (ret, fs') ∧ BlkExact fs ret fs' ∧
      (fs'.firstPassBbmap ≠ 0 → Behind fs') := by
  rw [BlkClear, if_pos hpass] at hclear
  rw [ext4fsGetNewBlkNo, if_pos hpass]
  have hmin : 0 + min fs.noBlkgrp shortLimit ≤ fs.noBlkgrp := by lia
  cases firstBlkNo_spec h (min fs.noBlkgrp shortLimit) 0 hmin with
  | inl hfound =>
    obtain ⟨i, z, -, him, hz, hbit, hones, hbefore, hcall⟩ := hfound
    have hi : i < fs.noBlkgrp := by lia
    refine ⟨_, _, hcall, .inl ⟨i, hi, z, hz, hbit, rfl, by rw [if_pos hpass], ?_⟩, fun _ => ?_⟩
    · exact h.reset_block hi hz hbit
    · refine (behind_blockTaken h hi hz hones fun j hj y hy hjy => ?_).passBlocks
      by_contra hlt
      have hone := h.full hj (hbefore j (by lia) (by lia)) y hy
      rw [hjy] at hone
      cases hone
  | inr hnone =>
    refine ⟨none, fs, hnone.2, .inr ⟨fun i hi => h.full hi ?_, rfl, rfl⟩, fun hne => absurd hpass hne⟩
    cases hclear with
    | inl hreach =>
      obtain ⟨j, hj, hne⟩ := hreach
      exact absurd (hnone.1 j (by lia) (by lia)) hne
    | inr hall => exact hall i hi

end UBoot.Ext4
