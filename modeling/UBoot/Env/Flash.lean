import UBoot.Lib.Scatter

/-!
# The environment on flash (tools/env/fw_env.c)

`flash_read_buf` and `flash_write_buf` over a device that reads whole ranges, erases whole ranges
and tells bad blocks. Offsets and sizes are natural numbers: the range lies in an `off_t`.
-/

namespace UBoot.EnvFlash

open Memory

inductive MtdType where
  | absent
  | norflash
  | nandflash
  | dataflash
  | ubivolume
  deriving Repr, DecidableEq

/- `struct envdev_s` without the device name. -/
structure EnvDev where
  devoff : ℕ
  envSize : ℕ
  eraseSize : ℕ
  envSectors : ℕ
  mtdType : MtdType
  fits : devoff + envSize + eraseSize < 2 ^ 63 ∧ (devoff / eraseSize + envSectors) * eraseSize < 2 ^ 63

/- What the driver answers: whether it tells the mark of the block at an address, erases `length`
bytes from an address on, and writes that many there; and whether the device is a file that grows. -/
structure Driver where
  tells : ℕ → Bool
  erases : ℕ → ℕ → Bool
  writes : ℕ → ℕ → Bool
  grows : Bool

structure Contents where
  mem : Mem
  size : ℕ

inductive Fault where
  | failed    -- a negative return value
  | divided   -- a division by zero
  | endless   -- a loop that does not end
  deriving Repr, DecidableEq

/- `read` and `write` do not move more at once. -/
def maxTransfer : ℕ := 0x7ffff000

/- A `size_t` returned as an `int`. -/
def toInt (n : ℕ) : ℤ := Int.bmod n (2 ^ 32)

def MtdType.erased : MtdType → Bool
  | .norflash | .nandflash | .ubivolume => true
  | .absent | .dataflash => false

def erase (mem : Mem) (start length : ℕ) : Mem := store mem start (List.replicate length 0xff)

def program (mtdType : MtdType) (mem : Mem) (pos : ℕ) (data : List UInt8) : Mem :=
  if mtdType.erased then store mem pos (List.zipWith (· &&& ·) (bytes mem pos data.length) data)
  else store mem pos data

section Device

variable (driver : Driver) (bad : ℕ → Bool) (mtdType : MtdType)

/- `flash_bad_block` (`fw_env.c:640-660`); `none` stands for the failing `ioctl`. -/
def flashBadBlock (blockstart : ℕ) : Option Bool :=
  if mtdType = .nandflash then
    if driver.tells blockstart then some (bad blockstart) else none
  else some false

/- `lseek` and `read` of the whole length. -/
def read (flash : Contents) (pos len : ℕ) : Option (List UInt8) :=
  if pos + len ≤ flash.size ∧ len ≤ maxTransfer then some (bytes flash.mem pos len) else none

/- `lseek` and `write` of the whole length. -/
def write (flash : Contents) (pos : ℕ) (data : List UInt8) : Option Contents :=
  if data.length ≤ maxTransfer ∧ driver.writes pos data.length = true ∧
      (pos + data.length ≤ flash.size ∨ (driver.grows = true ∧ mtdType = .absent)) then
    some ⟨program mtdType flash.mem pos data, max flash.size (pos + data.length)⟩
  else none

/- `MEMERASE` and the write after it. `erase.start` and `erase.length` have 32 bits; the results of
`MEMUNLOCK` and `MEMLOCK` are not looked at. -/
def rewrite (flash : Contents) (blockstart : ℕ) (data : List UInt8) : Option Contents :=
  if mtdType.erased then
    let start := blockstart % 2 ^ 32
    let length := data.length % 2 ^ 32
    if driver.erases start length then
      write driver mtdType { flash with mem := erase flash.mem start length } blockstart data
    else none
  else write driver mtdType flash blockstart data

/- The loop of `flash_read_buf` (`fw_env.c:709-746`). -/
def readLoop (flash : Contents) (blocklen top count : ℕ) :
    ℕ → ℕ → ℕ → ℕ → ℕ → List UInt8 → Except Fault (ℕ × List UInt8)
  | 0, _, _, _, _, _ => .error .endless
  | fuel + 1, processed, readlen, blockSeek, blockstart, buf =>
    if processed < count then
      match flashBadBlock driver bad mtdType blockstart with
      | none => .error .failed
      | some rc =>
        if top < blockstart + blockSeek + readlen then .error .failed
        else if rc then
          readLoop flash blocklen top count fuel processed readlen blockSeek (blockstart + blocklen) buf
        else
          match read flash (blockstart + blockSeek) readlen with
          | none => .error .failed
          | some data =>
            readLoop flash blocklen top count fuel (processed + readlen)
              (min blocklen (count - (processed + readlen))) 0 (blockstart + blocklen) (buf ++ data)
    else .ok (processed, buf)

/- The loop of `flash_write_buf` (`fw_env.c:866-917`). -/
def writeLoop (blocklen erasesize top writeTotal : ℕ) (data : Mem) :
    ℕ → Contents → ℕ → ℕ → Except Fault (ℕ × Contents)
  | 0, _, _, _ => .error .endless
  | fuel + 1, flash, processed, blockstart =>
    if processed < writeTotal then
      match flashBadBlock driver bad mtdType blockstart with
      | none => .error .failed
      | some rc =>
        if top < blockstart + erasesize then .error .failed
        else if rc then
          writeLoop blocklen erasesize top writeTotal data fuel flash processed (blockstart + blocklen)
        else
          match rewrite driver mtdType flash blockstart (bytes data processed erasesize) with
          | none => .error .failed
          | some flash =>
            writeLoop blocklen erasesize top writeTotal data fuel flash (processed + erasesize)
              (blockstart + erasesize)
    else .ok (processed, flash)

variable (dev : EnvDev)

/- `flash_read_buf` (`fw_env.c:667-749`): the return value and what has been put into `buf`. -/
def flashReadBuf (flash : Contents) (count offset : ℕ) : Except Fault (ℤ × List UInt8) :=
  if dev.eraseSize = 0 then .error .divided
  else
    let blockstart := offset / dev.eraseSize * dev.eraseSize
    let blockSeek := offset - blockstart
    let nand := mtdType = .nandflash
    let blocklen := if nand then dev.eraseSize else 0
    let top := if nand then (dev.devoff / blocklen + dev.envSectors) * blocklen else offset + count
    let readlen := if nand then min count (blocklen - blockSeek) else count
    (readLoop driver bad mtdType flash blocklen top count (top + 2) 0 readlen blockSeek blockstart []).map
      fun done => (toInt done.1, done.2)

/- The locals of `flash_write_buf` (`fw_env.c:781-810`). -/
structure Area where
  blocklen : ℕ
  top : ℕ
  eraseLen : ℕ
  blockstart : ℕ
  blockSeek : ℕ
  writeTotal : ℕ

def area (count offset : ℕ) : Area :=
  if mtdType = .absent then
    { blocklen := count, top := offset + count, eraseLen := count, blockstart := offset,
      blockSeek := 0, writeTotal := count }
  else
    let blocklen := dev.eraseSize
    let top := (dev.devoff / blocklen + dev.envSectors) * blocklen
    let eraseOffset := offset / blocklen * blocklen
    let blockSeek := offset - eraseOffset
    { blocklen, top, eraseLen := top - eraseOffset, blockstart := eraseOffset, blockSeek,
      writeTotal := (blockSeek + count + blocklen - 1) / blocklen * blocklen }

/- What `flash_write_buf` writes from (`fw_env.c:817-851`): the old blocks with the image laid over
them, or the caller's buffer. `buf` is the memory from that buffer on, beyond its `count` bytes too,
and `malloc` what a new block of memory holds. -/
def prepare (malloc : ℕ → Option Mem) (buf : Mem) (flash : Contents) (count : ℕ) (a : Area) :
    Except Fault Mem :=
  if count < a.writeTotal then
    match malloc a.eraseLen with
    | none => .error .failed
    | some fresh =>
      match flashReadBuf driver bad mtdType dev flash a.writeTotal a.blockstart with
      | .error fault => .error fault
      | .ok (rc, old) =>
        if (a.writeTotal : ℤ) ≠ rc then .error .failed
        else .ok (store (store fresh 0 old) a.blockSeek (bytes buf 0 count))
  else .ok buf

/- `flash_write_buf` (`fw_env.c:756-923`). -/
def flashWriteBuf (malloc : ℕ → Option Mem) (buf : Mem) (flash : Contents) (count offset : ℕ) :
    Except Fault (ℤ × Contents) :=
  if mtdType ≠ .absent ∧ dev.eraseSize = 0 then .error .divided
  else
    let a := area mtdType dev count offset
    let erasesize := if mtdType = .nandflash then a.blocklen else a.eraseLen
    match prepare driver bad mtdType dev malloc buf flash count a with
    | .error fault => .error fault
    | .ok data =>
      (writeLoop driver bad mtdType a.blocklen erasesize a.top a.writeTotal data (a.top + 2) flash 0
        a.blockstart).map fun done => (toInt done.1, done.2)

end Device

end UBoot.EnvFlash
