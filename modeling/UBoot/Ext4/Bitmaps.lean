import UBoot.Lib.Bitmap

/-!
# Allocation from the bitmaps (fs/ext4/ext4_common.c)

`ext4fs_get_new_blk_no` and `ext4fs_get_new_inode_no`. An access outside of a buffer or an array has
no result. Allocations and transfers succeed; the copies of the bitmaps on the device and in the
journal are left out. The numbers of a file system fit in the types of the source.
-/

namespace UBoot.Ext4

structure Group where
  freeBlocks : ℕ
  freeInodes : ℕ
  itableUnused : ℕ
  -- EXT4_BG_BLOCK_UNINIT and EXT4_BG_INODE_UNINIT
  blockUninit : Bool
  inodeUninit : Bool
  blkBmap : List (BitVec 8)
  inodeBmap : List (BitVec 8)

structure Fs where
  blksz : ℕ
  blocksPerGroup : ℕ
  inodesPerGroup : ℕ
  noBlkgrp : ℕ
  group : ℕ → Group
  sbFreeBlocks : ℕ
  sbFreeInodes : ℕ
  firstPassBbmap : ℕ
  currBlkno : ℕ
  firstPassIbmap : ℕ
  currInodeNo : ℕ

/- Over the bytes that are full; `stop` ends the search with -1. -/
def skipFull (stop : ℕ → Bool) : List (BitVec 8) → ℕ → ℕ → Option (Option (ℕ × ℕ))
  | [], _, _ => none
  | x :: xs, ptr, count =>
    if x = 255#8 then
      if stop (count + 8) then some none else skipFull stop xs (ptr + 1) (count + 8)
    else some (some (ptr, count))

/- The loop over `blksz` bytes from there on. -/
def scanBytes : ℕ → List (BitVec 8) → ℕ → ℕ → Option (Option ℕ × List (BitVec 8))
  | 0, buffer, _, _ => some (none, buffer)
  | j + 1, buffer, ptr, count =>
    match buffer[ptr]? with
    | none => none
    | some input =>
      match (List.range 8).find? fun i => !input.getLsbD i with
      | some i => some (some (count + i), buffer.set ptr (input ||| 1#8 <<< i))
      | none => scanBytes j buffer (ptr + 1) (count + 8)

def scanBitmap (start : ℕ) (stop : ℕ → Bool) (blksz : ℕ) (buffer : List (BitVec 8)) :
    Option (Option ℕ × List (BitVec 8)) :=
  match skipFull stop buffer 0 start with
  | none => none
  | some none => some (none, buffer)
  | some (some (ptr, count)) => scanBytes blksz buffer ptr count

/- `_get_new_inode_no` and `_get_new_blk_no`. -/
def newInodeNo (inodesPerGroup blksz : ℕ) (buffer : List (BitVec 8)) :
    Option (Option ℕ × List (BitVec 8)) :=
  scanBitmap 1 (fun count => decide (inodesPerGroup < count)) blksz buffer

def newBlkNo (blksz : ℕ) (buffer : List (BitVec 8)) : Option (Option ℕ × List (BitVec 8)) :=
  scanBitmap (if blksz ≠ 1024 then 0 else 1) (fun count => decide (count = blksz * 8)) blksz buffer

def byteAt (buffer : List (BitVec 8)) (i : ℤ) : Option (BitVec 8) :=
  if i < 0 then none else buffer[i.toNat]?

/- The byte and the bit of a block and of an inode in the bitmap of a group. -/
def blockPos (blksz blockno index : ℕ) : ℤ × ℕ :=
  let i : ℤ := (blockno / 8 : ℕ) - (index * blksz : ℕ)
  let remainder := blockno % 8
  if blksz ≠ 1024 then (i, remainder)
  else if remainder = 0 then (i - 1, 7)
  else (i, remainder - 1)

def inodePos (inodesPerGroup inodeNo index : ℕ) : ℤ × ℕ :=
  let inodeNo : ℤ := inodeNo - (index * inodesPerGroup : ℕ)
  let i := inodeNo.tdiv 8
  let remainder := inodeNo.tmod 8
  if remainder = 0 then (i - 1, 7) else (i, (remainder - 1).toNat)

/- `false` stands for -1. -/
def setAt (buffer : List (BitVec 8)) (pos : ℤ × ℕ) : Option (Bool × List (BitVec 8)) :=
  match byteAt buffer pos.1 with
  | none => none
  | some x =>
    if x.getLsbD pos.2 then some (false, buffer)
    else some (true, buffer.set pos.1.toNat (x ||| 1#8 <<< pos.2))

def resetAt (buffer : List (BitVec 8)) (pos : ℤ × ℕ) : Option (List (BitVec 8)) :=
  match byteAt buffer pos.1 with
  | none => none
  | some x =>
    if x.getLsbD pos.2 then some (buffer.set pos.1.toNat (x &&& ~~~(1#8 <<< pos.2)))
    else some buffer

def ext4fsSetBlockBmap (blksz blockno : ℕ) (buffer : List (BitVec 8)) (index : ℕ) :
    Option (Bool × List (BitVec 8)) := setAt buffer (blockPos blksz blockno index)

def ext4fsResetBlockBmap (blksz blockno : ℕ) (buffer : List (BitVec 8)) (index : ℕ) :
    Option (List (BitVec 8)) := resetAt buffer (blockPos blksz blockno index)

def ext4fsSetInodeBmap (inodesPerGroup inodeNo : ℕ) (buffer : List (BitVec 8)) (index : ℕ) :
    Option (Bool × List (BitVec 8)) := setAt buffer (inodePos inodesPerGroup inodeNo index)

def ext4fsResetInodeBmap (inodesPerGroup inodeNo : ℕ) (buffer : List (BitVec 8)) (index : ℕ) :
    Option (List (BitVec 8)) := resetAt buffer (inodePos inodesPerGroup inodeNo index)

def decr (width x : ℕ) : ℕ := (x + 2 ^ width - 1) % 2 ^ width

namespace Fs

def setGroup (fs : Fs) (i : ℕ) (g : Group) : Fs := { fs with group := Function.update fs.group i g }

def atBlock (fs : Fs) (b : ℕ) : Fs := { fs with currBlkno := b }

def atInode (fs : Fs) (no : ℕ) : Fs := { fs with currInodeNo := no }

def passBlocks (fs : Fs) : Fs := { fs with firstPassBbmap := fs.firstPassBbmap + 1 }

def passInodes (fs : Fs) : Fs := { fs with firstPassIbmap := fs.firstPassIbmap + 1 }

def initBlocks (fs : Fs) (i : ℕ) : Fs :=
  if (fs.group i).blockUninit then
    fs.setGroup i { fs.group i with blkBmap := List.replicate fs.blksz 0, blockUninit := false }
  else fs

def initInodes (fs : Fs) (i : ℕ) : Fs :=
  if (fs.group i).inodeUninit then
    fs.setGroup i { fs.group i with inodeBmap := List.replicate fs.blksz 0, inodeUninit := false }
  else fs

/- Block `b` of group `i` is taken. -/
def takeBlock (fs : Fs) (i b : ℕ) (bmap : List (BitVec 8)) : Fs :=
  { fs.setGroup i { fs.group i with
      blkBmap := bmap
      freeBlocks := decr 16 (fs.group i).freeBlocks } with
    sbFreeBlocks := decr 32 fs.sbFreeBlocks
    currBlkno := b }

def takeInode (fs : Fs) (i no : ℕ) (bmap : List (BitVec 8)) : Fs :=
  { fs.setGroup i { fs.group i with
      inodeBmap := bmap
      freeInodes := decr 16 (fs.group i).freeInodes
      itableUnused := decr 16 (fs.group i).freeInodes } with
    sbFreeInodes := decr 32 fs.sbFreeInodes
    currInodeNo := no }

end Fs

def shortLimit : ℕ := 2 ^ 15

/- The first pass, over the groups from `i` on. The cursor is not used before it is set here. -/
def firstBlkNo : ℕ → ℕ → Fs → Option (Option ℕ × Fs)
  | 0, _, fs => some (none, fs)
  | m + 1, i, fs =>
    if (fs.group i).freeBlocks ≠ 0 then
      let fs := fs.initBlocks i
      match newBlkNo fs.blksz (fs.group i).blkBmap with
      | none => none
      | some (none, _) => firstBlkNo m (i + 1) fs
      | some (some n, bmap) =>
        let b := n + i * fs.blksz * 8
        some (some b, (fs.takeBlock i b bmap).passBlocks)
    else firstBlkNo m (i + 1) fs

def bgIdx (fs : Fs) (b : ℕ) : ℕ :=
  if fs.blksz = 1024 ∧ b % fs.blocksPerGroup = 0 then b / fs.blocksPerGroup - 1
  else b / fs.blocksPerGroup

/- From `restart` on. -/
def nextBlkNo : ℕ → Fs → Option (Option ℕ × Fs)
  | 0, _ => none
  | fuel + 1, fs =>
    let b := fs.currBlkno + 1
    let i := bgIdx fs b
    if fs.noBlkgrp ≤ i then some (none, fs.atBlock b)
    else if (fs.group i).freeBlocks = 0 then
      nextBlkNo fuel (fs.atBlock (b + fs.blocksPerGroup - 1))
    else
      let fs := fs.initBlocks i
      match ext4fsSetBlockBmap fs.blksz b (fs.group i).blkBmap i with
      | none => none
      | some (false, _) => nextBlkNo fuel (fs.atBlock b)
      | some (true, bmap) => some (some b, fs.takeBlock i b bmap)

/- -1 is `none`. Every restart moves the cursor on, and behind the last block it stops. -/
def ext4fsGetNewBlkNo (fs : Fs) : Option (Option ℕ × Fs) :=
  if fs.firstPassBbmap = 0 then firstBlkNo (min fs.noBlkgrp shortLimit) 0 fs
  else nextBlkNo (fs.noBlkgrp * fs.blocksPerGroup + 2) fs

def firstInodeNo : ℕ → ℕ → Fs → Option (Option ℕ × Fs)
  | 0, _, fs => some (none, fs)
  | m + 1, i, fs =>
    if (fs.group i).freeInodes ≠ 0 then
      let fs := fs.setGroup i { fs.group i with itableUnused := (fs.group i).freeInodes }
      let fs := fs.initInodes i
      match newInodeNo fs.inodesPerGroup fs.blksz (fs.group i).inodeBmap with
      | none => none
      | some (none, _) => firstInodeNo m (i + 1) fs
      | some (some n, bmap) =>
        let no := n + i * fs.inodesPerGroup
        some (some no, (fs.takeInode i no bmap).passInodes)
    else firstInodeNo m (i + 1) fs

def nextInodeNo : ℕ → Fs → Option (Option ℕ × Fs)
  | 0, _ => none
  | fuel + 1, fs =>
    let no := fs.currInodeNo + 1
    let i := no / fs.inodesPerGroup
    -- nothing keeps the group inside of the arrays
    if fs.noBlkgrp ≤ i then none
    else
      let fs := fs.initInodes i
      match ext4fsSetInodeBmap fs.inodesPerGroup no (fs.group i).inodeBmap i with
      | none => none
      | some (false, _) => nextInodeNo fuel (fs.atInode no)
      | some (true, bmap) => some (some no, fs.takeInode i no bmap)

def ext4fsGetNewInodeNo (fs : Fs) : Option (Option ℕ × Fs) :=
  if fs.firstPassIbmap = 0 then firstInodeNo (min fs.noBlkgrp shortLimit) 0 fs
  else nextInodeNo (fs.noBlkgrp * fs.inodesPerGroup + 2) fs

end UBoot.Ext4
