import Mathlib.Tactic

/-!
# Transfers that skip bad blocks (drivers/mtd/nand/nand_util.c)

`nand_write_skip_bad` and `nand_read_skip_bad` on the page loops of nand_base.c. `size_t` has 32
bits, pages are counted without a bound, and the page cache is left out, as is `WITH_WR_VERIFY`.
-/

namespace UBoot.Nand

def einval : ℤ := 22
def eio : ℤ := 5
def efbig : ℤ := 27
def euclean : ℤ := 117

structure NandInfo where
  subpageShift : ℕ
  pageShift : ℕ
  eraseShift : ℕ
  -- the device ends with a block
  blocks : ℕ
  bad : ℕ → Bool
  writeProtect : Bool
  -- pages that cannot be programmed, and pages with many corrected bits
  broken : ℕ → Bool
  worn : ℕ → Bool
  subpage_le : subpageShift ≤ pageShift
  page_le : pageShift ≤ eraseShift
  erase_lt : eraseShift < 32

section Device

variable (nand : NandInfo)

def NandInfo.subpagesize : ℕ := 2 ^ nand.subpageShift

def NandInfo.writesize : ℕ := 2 ^ nand.pageShift

def NandInfo.erasesize : ℕ := 2 ^ nand.eraseShift

def NandInfo.size : ℕ := nand.blocks * nand.erasesize

/- The ranges of bytes that were programmed and read are kept, the first one first. -/
structure Flash where
  cell : ℕ → UInt8
  touched : List (ℕ × ℕ)

abbrev Buffer := ℕ → UInt8

def slice (f : ℕ → UInt8) (p len : ℕ) : List UInt8 := (List.range' p len).map f

def programCells (cell : ℕ → UInt8) (a : ℕ) (data : List UInt8) : ℕ → UInt8 := fun x =>
  if a ≤ x ∧ x < a + data.length then cell x &&& data.getD (x - a) 0xff else cell x

/- `databuf` for a part of a page. -/
def databuf (column : ℕ) (data : List UInt8) : List UInt8 :=
  List.replicate column 0xff ++ data ++ List.replicate (nand.writesize - column - data.length) 0xff

def writePage (flash : Flash) (page column : ℕ) (data : List UInt8) : Flash where
  cell := programCells flash.cell (page * nand.writesize) (databuf nand column data)
  touched := flash.touched ++ [(page * nand.writesize + column, data.length)]

/- The loop of `nand_do_write_ops`: the result, and what is left to write. -/
def writeOps : ℕ → Flash → Buffer → ℕ → ℕ → ℕ → ℕ → Option (ℤ × ℕ × Flash)
  | 0, _, _, _, _, _, _ => none
  | turns + 1, flash, buf, page, column, p, writelen =>
    let partPagewr : Bool := column ≠ 0 ∨ writelen < nand.writesize - 1
    let bytes := if partPagewr then min (nand.writesize - column) writelen else nand.writesize
    let flash := writePage nand flash page column (slice buf p bytes)
    if nand.broken page then some (-eio, writelen, flash)
    else
      let writelen := (writelen + (2 ^ 32 - bytes)) % 2 ^ 32
      if writelen = 0 then some (0, 0, flash)
      else writeOps turns flash buf (page + 1) 0 (p + bytes) writelen

/- `mtd_write` with `nand_do_write_ops`; the second part is `retlen`. -/
def nandWrite (turns : ℕ) (flash : Flash) (buf : Buffer) (ofs len p : ℕ) :
    Option (ℤ × ℕ × Flash) :=
  if nand.size < ofs ∨ nand.size - ofs < len then some (-einval, 0, flash)
  else if len = 0 then some (0, 0, flash)
  else if ofs % nand.subpagesize ≠ 0 then some (-einval, 0, flash)
  else if nand.writeProtect then some (-eio, 0, flash)
  else
    match writeOps nand turns flash buf (ofs / nand.writesize) (ofs % nand.writesize) p len with
    | none => none
    | some (ret, left, flash) => some (ret, len - left, flash)

/- The loop of `nand_do_read_ops`; a turn reads a byte at least. -/
def readOps : ℕ → Flash → ℕ → ℕ → ℕ → List UInt8 × Bool × Flash
  | 0, flash, _, _, _ => ([], false, flash)
  | turns + 1, flash, page, col, readlen =>
    let bytes := min (nand.writesize - col) readlen
    let a := page * nand.writesize + col
    let data := slice flash.cell a bytes
    let flash := { flash with touched := flash.touched ++ [(a, bytes)] }
    if readlen - bytes = 0 then (data, nand.worn page, flash)
    else
      let (rest, flips, flash) := readOps turns flash (page + 1) 0 (readlen - bytes)
      (data ++ rest, nand.worn page || flips, flash)

/- `mtd_read` with `nand_do_read_ops`. -/
def nandRead (flash : Flash) (ofs len : ℕ) : ℤ × List UInt8 × Flash :=
  if nand.size < ofs ∨ nand.size - ofs < len then (-einval, [], flash)
  else if len = 0 then (0, [], flash)
  else
    let (data, flips, flash) :=
      readOps nand len flash (ofs / nand.writesize) (ofs % nand.writesize) len
    (if flips then -euclean else 0, data, flash)

/- `mtd_block_isbad`; an error counts as bad. -/
def nandBlockIsbad (ofs : ℕ) : Bool :=
  if nand.size < ofs then true else nand.bad (ofs / nand.erasesize)

/- The loop of `check_skip_len`: -1, 0 or 1, and `used`. -/
def checkLoop (length : ℕ) : ℕ → ℕ → ℕ → ℕ → ℤ → Option (ℤ × ℕ)
  | 0, _, _, _, _ => none
  | turns + 1, offset, lenExclBad, used, ret =>
    if length ≤ lenExclBad then
      some (ret, if length < lenExclBad then (used + (2 ^ 32 - (lenExclBad - length))) % 2 ^ 32
        else used)
    else if nand.size ≤ offset then some (-1, used)
    else
      let blockStart := offset / nand.erasesize * nand.erasesize
      let blockLen := nand.erasesize - offset % nand.erasesize
      let used := (used + blockLen) % 2 ^ 32
      if nandBlockIsbad nand blockStart then
        checkLoop length turns (offset + blockLen) lenExclBad used 1
      else
        checkLoop length turns (offset + blockLen) ((lenExclBad + blockLen) % 2 ^ 32) used ret

def checkSkipLen (turns offset length : ℕ) : Option (ℤ × ℕ) :=
  checkLoop nand length turns offset 0 0 0

/- `offset & ~(nand->erasesize - 1)`, where the mask has 32 bits. -/
def maskedBlock (offset : ℕ) : ℕ := offset % 2 ^ 32 / nand.erasesize * nand.erasesize

def lastUsed (buf : Buffer) (p : ℕ) : ℕ → ℕ
  | 0 => 0
  | i + 1 => if buf (p + i) ≠ 0xff then i + 1 else lastUsed buf p i

def dropFfs (buf : Buffer) (p len : ℕ) : ℕ :=
  min ((lastUsed buf p len + nand.writesize - 1) / nand.writesize * nand.writesize) len

/- The loop of `nand_write_skip_bad`: the result, and what is left to write. -/
def writeLoop (buf : Buffer) (withDropFfs : Bool) :
    ℕ → Flash → ℕ → ℕ → ℕ → Option (ℤ × ℕ × Flash)
  | 0, _, _, _, _ => none
  | turns + 1, flash, offset, p, leftToWrite =>
    if leftToWrite = 0 then some (0, 0, flash)
    else
      let blockLen := nand.erasesize - offset % nand.erasesize
      if nandBlockIsbad nand (maskedBlock nand offset) then
        writeLoop buf withDropFfs turns flash (offset + blockLen) p leftToWrite
      else
        let writeSize := if leftToWrite < blockLen then leftToWrite else blockLen
        let truncated := if withDropFfs then dropFfs nand buf p writeSize else writeSize
        match nandWrite nand turns flash buf offset truncated p with
        | none => none
        | some (rval, _, flash) =>
          if rval ≠ 0 then some (rval, leftToWrite, flash)
          else
            writeLoop buf withDropFfs turns flash (offset + writeSize) (p + writeSize)
              (leftToWrite - writeSize)

/- The loop of `nand_read_skip_bad`. -/
def readLoop : ℕ → Flash → ℕ → ℕ → Option (ℤ × ℕ × List UInt8 × Flash)
  | 0, _, _, _ => none
  | turns + 1, flash, offset, leftToRead =>
    if leftToRead = 0 then some (0, 0, [], flash)
    else
      let blockLen := nand.erasesize - offset % nand.erasesize
      if nandBlockIsbad nand (maskedBlock nand offset) then
        readLoop turns flash (offset + blockLen) leftToRead
      else
        let readLength := if leftToRead < blockLen then leftToRead else blockLen
        match nandRead nand flash offset readLength with
        | (rval, data, flash) =>
          if rval ≠ 0 ∧ rval ≠ -euclean then some (rval, leftToRead, data, flash)
          else
            match readLoop turns flash (offset + readLength) (leftToRead - readLength) with
            | none => none
            | some (rval, left, rest, flash) => some (rval, left, data ++ rest, flash)

/- `data` is what a read left in the buffer. -/
structure Result where
  rval : ℤ
  length : ℕ
  actual : ℕ
  data : List UInt8
  flash : Flash

def nandWriteSkipBad (turns : ℕ) (flash : Flash) (offset length : ℕ) (lim : ℤ) (buf : Buffer)
    (withDropFfs : Bool) : Option Result :=
  if offset % nand.writesize ≠ 0 then some ⟨-einval, 0, 0, [], flash⟩
  else
    match checkSkipLen nand turns offset length with
    | none => none
    | some (needSkip, usedForWrite) =>
      if needSkip < 0 then some ⟨-einval, 0, usedForWrite, [], flash⟩
      else if lim < usedForWrite then some ⟨-efbig, 0, usedForWrite, [], flash⟩
      else if needSkip = 0 ∧ withDropFfs = false then
        match nandWrite nand turns flash buf offset length 0 with
        | none => none
        | some (rval, retlen, flash) =>
          some ⟨rval, if rval = 0 then retlen else 0, usedForWrite, [], flash⟩
      else
        match writeLoop nand buf withDropFfs turns flash offset 0 length with
        | none => none
        | some (rval, left, flash) => some ⟨rval, length - left, usedForWrite, [], flash⟩

def nandReadSkipBad (turns : ℕ) (flash : Flash) (offset length : ℕ) (lim : ℤ) : Option Result :=
  if offset % nand.writesize ≠ 0 then some ⟨-einval, 0, 0, [], flash⟩
  else
    match checkSkipLen nand turns offset length with
    | none => none
    | some (needSkip, usedForRead) =>
      if needSkip < 0 then some ⟨-einval, 0, usedForRead, [], flash⟩
      else if lim < usedForRead then some ⟨-efbig, 0, usedForRead, [], flash⟩
      else if needSkip = 0 then
        match nandRead nand flash offset length with
        | (rval, data, flash) =>
          if rval = 0 ∨ rval = -euclean then some ⟨0, data.length, usedForRead, data, flash⟩
          else some ⟨rval, 0, usedForRead, data, flash⟩
      else
        match readLoop nand turns flash offset length with
        | none => none
        | some (rval, left, data, flash) => some ⟨rval, length - left, usedForRead, data, flash⟩

end Device

end UBoot.Nand
