import UBoot.Ext4.Lookup

/-!
# Reading a file (fs/ext4/ext4fs.c, dev.c)

`ext4fs_read_file` over any map of blocks, and `ext4fs_devread` below it. Sectors and bytes are
those of the partition; `lbaint_t` has 64 bits, and the positions are below 2^31 blocks, where
the int of the source is the number. The buffer is what has been stored to it.
-/

namespace UBoot.Ext4

open List Option

structure Device where
  log2blksz : ℕ
  -- `part_info->size`, in sectors
  size : ℕ
  byte : ℕ → UInt8
  -- whether `blk_dread` of a sector succeeds
  readable : ℕ → Bool
  -- what the buffer `p` of `ext4fs_devread` has before it is filled
  stale : ℕ → UInt8

section Device

variable (dev : Device)

def Device.blksz : ℕ := 2 ^ dev.log2blksz

def Device.bytes (a n : ℕ) : List UInt8 := (List.range n).map fun j => dev.byte (a + j)

def blkDread (sector cnt : ℕ) : Option (List UInt8) :=
  if (List.range cnt).all fun j => dev.readable (sector + j) then
    some (dev.bytes (sector * dev.blksz) (cnt * dev.blksz))
  else none

/- From "read sector aligned part" on, with the bits of `byte_len`. -/
def devreadAligned (sector byteLen : ℕ) : Option (List UInt8) :=
  let blockLen := byteLen / dev.blksz * dev.blksz
  if byteLen = 0 then some []
  else if blockLen = 0 then
    -- the result of `blk_dread` is not looked at
    match blkDread dev sector 1 with
    | some sec => some (sec.take byteLen)
    | none => some ((List.range byteLen).map dev.stale)
  else
    match blkDread dev sector (byteLen / dev.blksz) with
    | none => none
    | some buf =>
      if byteLen - blockLen = 0 then some buf
      else (blkDread dev (sector + byteLen / dev.blksz) 1).map fun sec =>
        buf ++ sec.take (byteLen - blockLen)

/- `none` when 0 is returned, and when `memcpy` gets a negative length. -/
def ext4fsDevread (sector byteOffset : ℕ) (byteLen : ℤ) : Option (List UInt8) :=
  if (dev.size : ℤ) ≤ (sector + (byteOffset + byteLen - 1) / dev.blksz) % 2 ^ 64 then none
  else
    let sector := sector + byteOffset / dev.blksz
    let byteOffset := byteOffset % dev.blksz
    if byteOffset = 0 then devreadAligned dev sector (byteLen % 2 ^ 32).toNat
    else if byteLen < 0 then none
    else
      let readlen := min (dev.blksz - byteOffset) byteLen.toNat
      match blkDread dev sector 1 with
      | none => none
      | some sec =>
        (devreadAligned dev (sector + 1) (byteLen.toNat - readlen)).map fun rest =>
          (sec.drop byteOffset).take readlen ++ rest

end Device

/- What `read_allocated_block` gives for the blocks of a file: a long, which is negative when it
fails and for a hole before the first extent. An `lbaint_t` holds the sectors of the blocks. -/
structure BlockMap (log2FsBlocksize : ℕ) where
  long : ℕ → ℤ
  fits : ∀ i, |long i| * 2 ^ log2FsBlocksize < 2 ^ 63

section Blocks

variable {log2FsBlocksize : ℕ} (map : BlockMap log2FsBlocksize) (i : ℕ)

/- The long becomes an `lbaint_t`, which is shifted; `blknr < 0` never holds of it. -/
def BlockMap.blknr : ℕ := (map.long i * 2 ^ log2FsBlocksize % 2 ^ 64).toNat

/- The block on the disk, 0 where the file has none. -/
def BlockMap.block : ℕ := (map.long i).toNat

end Blocks

/- The read that is put off; `buf` is where its bytes go. -/
structure Delayed where
  start : ℕ
  extent : ℕ
  skipfirst : ℕ
  next : ℕ
  buf : ℕ

/- -1 as an `lbaint_t` -/
def noBlock : ℕ := 2 ^ 64 - 1

structure Reading where
  stored : ℕ → Option UInt8
  buf : ℕ
  previousBlockNumber : ℕ
  delayed : Delayed

def storeAt (stored : ℕ → Option UInt8) (p : ℕ) (bytes : List UInt8) : ℕ → Option UInt8 :=
  fun k => if p ≤ k ∧ k < p + bytes.length then bytes[k - p]? else stored k

def fsBlocksize (dev : Device) (log2FsBlocksize : ℕ) : ℕ := 2 ^ (log2FsBlocksize + dev.log2blksz)

section Read

variable (dev : Device) (log2FsBlocksize : ℕ) (map : BlockMap log2FsBlocksize)

def spill (s : Reading) : Option Reading :=
  if s.previousBlockNumber = noBlock then some s
  else
    (ext4fsDevread dev s.delayed.start s.delayed.skipfirst (toLong 32 s.delayed.extent)).map
      fun bytes => { s with
        stored := storeAt s.stored s.delayed.buf bytes
        previousBlockNumber := noBlock }

/- The body of the loop for the block `i`. -/
def readStep (pos len blockcnt i : ℕ) (s : Reading) : Option Reading :=
  let blocksize := fsBlocksize dev log2FsBlocksize
  let blknr := map.blknr i
  let last := len + pos - blocksize * i
  let blockend := if i = blockcnt - 1 then (if last = 0 then blocksize else last) else blocksize
  let skipfirst := if i = pos / blocksize then pos - blocksize * i else 0
  let blockend := blockend - skipfirst
  let fresh : Delayed :=
    ⟨blknr, blockend, skipfirst, (blknr + blockend / dev.blksz) % 2 ^ 64, s.buf⟩
  let advance := fun s : Reading => { s with buf := s.buf + (blocksize - skipfirst) }
  if blknr ≠ 0 then
    if s.previousBlockNumber ≠ noBlock then
      if s.delayed.next = blknr then
        some (advance { s with delayed := { s.delayed with
          extent := s.delayed.extent + blockend
          next := (s.delayed.next + blockend / dev.blksz) % 2 ^ 64 } })
      else
        (spill dev s).map fun s =>
          advance { s with previousBlockNumber := blknr, delayed := fresh }
    else some (advance { s with previousBlockNumber := blknr, delayed := fresh })
  else
    (spill dev s).map fun s =>
      advance { s with stored := storeAt s.stored s.buf (List.replicate (blocksize - skipfirst) 0) }

/- `m` blocks from the block `i` on. -/
def readLoop (pos len blockcnt : ℕ) : ℕ → ℕ → Reading → Option Reading
  | 0, _, s => some s
  | m + 1, i, s =>
    match readStep dev log2FsBlocksize map pos len blockcnt i s with
    | none => none
    | some s => readLoop pos len blockcnt m (i + 1) s

def readStart : Reading := ⟨fun _ => none, 0, noBlock, ⟨0, 0, 0, 0, 0⟩⟩

/- `*actread` and what has been stored to `buf` when 0 is returned. -/
def ext4fsReadFile (filesize pos len : ℕ) : Option (ℕ × (ℕ → Option UInt8)) :=
  let len := if filesize < len then filesize else len
  let blocksize := fsBlocksize dev log2FsBlocksize
  let blockcnt := (len + pos + blocksize - 1) / blocksize
  match readLoop dev log2FsBlocksize map pos len blockcnt (blockcnt - pos / blocksize)
      (pos / blocksize) readStart with
  | none => none
  | some s => (spill dev s).map fun s => (len, s.stored)

end Read

section File

variable (dev : Device) (log2FsBlocksize : ℕ) (block : ℕ → ℕ)

/- Holes read as zeros. -/
def fileByte (q : ℕ) : UInt8 :=
  let blocksize := fsBlocksize dev log2FsBlocksize
  if block (q / blocksize) = 0 then 0
  else dev.byte (block (q / blocksize) * blocksize + q % blocksize)

structure ReadsFile (filesize pos len actread : ℕ) (stored : ℕ → Option UInt8) : Prop where
  actread : actread = min len (filesize - pos)
  stored : ∀ k, stored k = if k < min len (filesize - pos) then
    some (fileByte dev log2FsBlocksize block (pos + k)) else none

end File

section Devread

variable {dev : Device}

theorem blksz_pos (dev : Device) : 0 < dev.blksz := Nat.two_pow_pos _

theorem length_bytes (a n : ℕ) : (dev.bytes a n).length = n := by simp [Device.bytes]

theorem bytes_append (a m n : ℕ) : dev.bytes a (m + n) = dev.bytes a m ++ dev.bytes (a + m) n := by
  simp [Device.bytes, range_add, Nat.add_assoc]

variable {a n : ℕ}

theorem take_bytes {m : ℕ} (h : m ≤ n) : (dev.bytes a n).take m = dev.bytes a m := by
  obtain ⟨k, rfl⟩ := Nat.exists_eq_add_of_le h
  rw [bytes_append, take_append_of_le_length (by rw [length_bytes]),
    take_of_length_le (by rw [length_bytes])]

theorem drop_bytes {m : ℕ} (h : m ≤ n) : (dev.bytes a n).drop m = dev.bytes (a + m) (n - m) := by
  obtain ⟨k, rfl⟩ := Nat.exists_eq_add_of_le h
  rw [bytes_append, drop_left' (length_bytes a m), Nat.add_sub_cancel_left]

variable {sector : ℕ}

theorem blkDread_eq {cnt : ℕ} {buf : List UInt8} (h : blkDread dev sector cnt = some buf) :
    buf = dev.bytes (sector * dev.blksz) (cnt * dev.blksz) := by
  rw [blkDread] at h
  split at h
  · exact (some.inj h).symm
  · cases h

theorem blkDread_one :
    blkDread dev sector 1 = if dev.readable sector = true then
      some (dev.bytes (sector * dev.blksz) dev.blksz) else none := by
  simp [blkDread]

/- What is not read of the sector that a piece ends in at `e`. -/
def lost (dev : Device) (e : ℕ) : ℕ := if dev.readable (e / dev.blksz) = true then 0 else e % dev.blksz

def Device.staleBytes (dev : Device) (n : ℕ) : List UInt8 := (List.range n).map dev.stale

theorem lost_of_aligned {e : ℕ} (h : e % dev.blksz = 0) : lost dev e = 0 := by
  rw [lost, h, ite_self]

theorem lost_of_readable {e : ℕ} (h : dev.readable (e / dev.blksz) = true) : lost dev e = 0 :=
  if_pos h

theorem bytes_of_lost (h : lost dev (a + n) = 0) :
    dev.bytes a n = dev.bytes a (n - lost dev (a + n)) ++ dev.staleBytes (lost dev (a + n)) := by
  rw [h]
  simp [Device.staleBytes]

variable {bytes : List UInt8}

theorem devreadAligned_eq {byteLen : ℕ} (h : devreadAligned dev sector byteLen = some bytes) :
    bytes = dev.bytes (sector * dev.blksz) (byteLen - lost dev (sector * dev.blksz + byteLen)) ++
        dev.staleBytes (lost dev (sector * dev.blksz + byteLen)) ∧
      lost dev (sector * dev.blksz + byteLen) ≤ byteLen := by
  have hpos := blksz_pos dev
  have hsplit : byteLen / dev.blksz * dev.blksz + byteLen % dev.blksz = byteLen :=
    Nat.div_add_mod' _ _
  have hmod : byteLen % dev.blksz < dev.blksz := Nat.mod_lt _ hpos
  have hrest : byteLen - byteLen / dev.blksz * dev.blksz = byteLen % dev.blksz := by lia
  have hmodend : (sector * dev.blksz + byteLen) % dev.blksz = byteLen % dev.blksz := by
    rw [Nat.mul_comm, Nat.mul_add_mod]
  have hdivend : (sector * dev.blksz + byteLen) / dev.blksz = sector + byteLen / dev.blksz := by
    rw [Nat.mul_comm, Nat.mul_add_div hpos]
  -- where nothing is lost the piece is right
  have hall : lost dev (sector * dev.blksz + byteLen) = 0 →
      bytes = dev.bytes (sector * dev.blksz) byteLen →
      bytes = dev.bytes (sector * dev.blksz) (byteLen - lost dev (sector * dev.blksz + byteLen)) ++
        dev.staleBytes (lost dev (sector * dev.blksz + byteLen)) ∧
      lost dev (sector * dev.blksz + byteLen) ≤ byteLen := by
    intro hlost hbytes
    rw [hbytes]
    exact ⟨bytes_of_lost hlost, by lia⟩
  rw [devreadAligned] at h
  by_cases hzero : byteLen = 0
  · rw [if_pos hzero] at h
    apply hall (lost_of_aligned (by rw [hmodend, hzero, Nat.zero_mod]))
    rw [← some.inj h, hzero]
    rfl
  rw [if_neg hzero] at h
  by_cases hblock : byteLen / dev.blksz * dev.blksz = 0
  · have hdiv : byteLen / dev.blksz = 0 := by
      cases Nat.mul_eq_zero.mp hblock with
      | inl hdiv => exact hdiv
      | inr hz => lia
    rw [if_pos hblock, blkDread_one] at h
    rw [hdiv, Nat.add_zero] at hdivend
    by_cases hread : dev.readable sector = true
    · rw [if_pos hread] at h
      apply hall (lost_of_readable (by rwa [hdivend]))
      rw [← some.inj h]
      exact take_bytes (by lia)
    · rw [if_neg hread] at h
      have hlost : lost dev (sector * dev.blksz + byteLen) = byteLen := by
        rw [lost, hdivend, if_neg hread, hmodend]
        lia
      rw [hlost, ← some.inj h, Nat.sub_self]
      exact ⟨rfl, Nat.le_refl _⟩
  · rw [if_neg hblock] at h
    cases hbuf : blkDread dev sector (byteLen / dev.blksz) with
    | none =>
      rw [hbuf] at h
      cases h
    | some buf =>
      rw [hbuf] at h
      have hbytes := blkDread_eq hbuf
      dsimp only at h
      rw [hrest] at h
      by_cases hmodz : byteLen % dev.blksz = 0
      · rw [if_pos hmodz] at h
        apply hall (lost_of_aligned (by rwa [hmodend]))
        rw [← some.inj h, hbytes]
        congr 1
        lia
      · rw [if_neg hmodz, blkDread_one] at h
        by_cases hread : dev.readable (sector + byteLen / dev.blksz) = true
        · rw [if_pos hread] at h
          apply hall (lost_of_readable (by rwa [hdivend]))
          rw [map_some] at h
          rw [← some.inj h, hbytes, take_bytes hmod.le, Nat.add_mul, ← bytes_append, hsplit]
        · rw [if_neg hread] at h
          cases h

theorem devread_eq {byteOffset extent : ℕ} (hextent : extent < 2 ^ 32)
    (h : ext4fsDevread dev sector byteOffset (toLong 32 extent) = some bytes) :
    bytes = dev.bytes (sector * dev.blksz + byteOffset)
        (extent - lost dev (sector * dev.blksz + byteOffset + extent)) ++
        dev.staleBytes (lost dev (sector * dev.blksz + byteOffset + extent)) ∧
      lost dev (sector * dev.blksz + byteOffset + extent) ≤ extent := by
  have hpos := blksz_pos dev
  have hmod32 : extent % 2 ^ 32 = extent := Nat.mod_eq_of_lt hextent
  have hbits : (toLong 32 extent % 2 ^ 32).toNat = extent := by
    rw [toLong, hmod32]
    split <;> lia
  rw [ext4fsDevread] at h
  split at h
  · cases h
  dsimp only at h
  have hoff : byteOffset / dev.blksz * dev.blksz + byteOffset % dev.blksz = byteOffset :=
    Nat.div_add_mod' _ _
  have hofflt : byteOffset % dev.blksz < dev.blksz := Nat.mod_lt _ hpos
  have haddr : sector * dev.blksz + byteOffset =
      (sector + byteOffset / dev.blksz) * dev.blksz + byteOffset % dev.blksz := by
    rw [Nat.add_mul]
    lia
  rw [haddr]
  generalize sector + byteOffset / dev.blksz = sector at *
  generalize byteOffset % dev.blksz = off at *
  by_cases hzero : off = 0
  · rw [if_pos hzero, hbits] at h
    rw [hzero, Nat.add_zero]
    exact devreadAligned_eq h
  · rw [if_neg hzero] at h
    split at h
    · cases h
    next hneg =>
    have hnat : (toLong 32 extent).toNat = extent := by
      rw [toLong, hmod32] at hneg ⊢
      split at hneg <;> split <;> lia
    rw [hnat, blkDread_one] at h
    by_cases hread : dev.readable sector = true
    · rw [if_pos hread] at h
      obtain ⟨rest, hrest, rfl⟩ := map_eq_some_iff.mp h
      by_cases hshort : off + extent ≤ dev.blksz
      · -- the piece ends in the first sector
        rw [Nat.min_eq_right (by lia)] at hrest ⊢
        rw [Nat.sub_self] at hrest
        obtain rfl := some.inj hrest
        have hlost : lost dev (sector * dev.blksz + off + extent) = 0 := by
          rw [Nat.add_assoc]
          by_cases hfull : off + extent = dev.blksz
          · apply lost_of_aligned
            rw [hfull, ← Nat.succ_mul]
            exact Nat.mul_mod_left _ _
          · apply lost_of_readable
            rwa [Nat.mul_comm, Nat.mul_add_div hpos, Nat.div_eq_of_lt (by lia), Nat.add_zero]
        refine ⟨?_, by lia⟩
        rw [← bytes_of_lost hlost, append_nil, drop_bytes hofflt.le, take_bytes (by lia)]
      · rw [Nat.min_eq_left (by lia)] at hrest ⊢
        obtain ⟨hrest, hle⟩ := devreadAligned_eq hrest
        have hend : (sector + 1) * dev.blksz + (extent - (dev.blksz - off)) =
            sector * dev.blksz + off + extent := by
          rw [Nat.add_mul]
          lia
        rw [hend] at hrest hle
        refine ⟨?_, by lia⟩
        rw [hrest, drop_bytes hofflt.le, take_bytes (Nat.le_refl _), ← append_assoc]
        congr 1
        have hnext : (sector + 1) * dev.blksz = sector * dev.blksz + off + (dev.blksz - off) := by
          rw [Nat.add_mul]
          lia
        rw [hnext, ← bytes_append]
        congr 1
        lia
    · rw [if_neg hread] at h
      cases h

theorem length_devread {byteOffset extent : ℕ} (hextent : extent < 2 ^ 32)
    (h : ext4fsDevread dev sector byteOffset (toLong 32 extent) = some bytes) :
    bytes.length = extent := by
  obtain ⟨rfl, hle⟩ := devread_eq hextent h
  rw [length_append, length_bytes, Device.staleBytes, length_map, length_range]
  lia

end Devread

end UBoot.Ext4
