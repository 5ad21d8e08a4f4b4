import UBoot.Lib.LittleEndian
import UBoot.Lib.Memory

/-!
# The FAT cache of the write path (fs/fat/fat_write.c)

One window of `FATBUFBLOCKS` sectors of the FAT is held in `fatbuf`. A miss writes the
window back, to both FATs, and reads the wanted one. The disk is flat bytes from the start
of the partition; `blk_dread` and `blk_dwrite` do what they are asked.
-/

namespace UBoot.Fat

open Memory LittleEndian

def fatBufBlocks : ℕ := 6

inductive FatSize where
  | fat12 | fat16 | fat32
deriving DecidableEq, Repr

/- The parts of `fsdata` that stay as they are, with `num_of_fats` and `total_sector`. -/
structure Volume where
  fatsize : FatSize
  fatlength : ℕ
  fatSect : ℕ
  sectSize : ℕ
  numOfFats : ℕ
  totalSector : ℕ

/- `fatbufnum` is the `int` as a `__u32`: `-1` is `noBuf`. -/
structure World where
  fatbuf : Mem
  fatbufnum : ℕ
  disk : Mem
  -- the blocks of each `disk_write` that was carried out
  writes : List (ℕ × ℕ)

def noBuf : ℕ := 2 ^ 32 - 1

namespace Volume

variable (v : Volume)

/- `FATBUFSIZE`. -/
def fatBufSize : ℕ := v.sectSize * fatBufBlocks

/- `FAT12BUFSIZE`, `FAT16BUFSIZE`, `FAT32BUFSIZE`. -/
def bufEntries : ℕ :=
  match v.fatsize with
  | .fat12 => v.fatBufSize * 2 / 3
  | .fat16 => v.fatBufSize / 2
  | .fat32 => v.fatBufSize / 4

/- The first cluster number that `CHECK_CLUST` refuses. -/
def clustLimit : ℕ :=
  match v.fatsize with
  | .fat12 => 0xff0
  | .fat16 => 0xfff0
  | .fat32 => 0xffffff0

def checkClust (x : ℕ) : Bool := decide (x ≤ 1) || decide (v.clustLimit ≤ x)

def diskRead (w : World) (block nrBlocks : ℕ) : World :=
  let data := bytes w.disk (block * v.sectSize) (nrBlocks * v.sectSize)
  { w with fatbuf := store w.fatbuf 0 data }

def diskWrite (w : World) (block nrBlocks : ℕ) : ℤ × World :=
  if v.totalSector < block + nrBlocks then (-1, w)
  else (nrBlocks, { w with
    disk := store w.disk (block * v.sectSize) (bytes w.fatbuf 0 (nrBlocks * v.sectSize))
    writes := w.writes ++ [(block, nrBlocks)] })

def flushFatBuffer (w : World) : ℤ × World :=
  let startblock := (w.fatbufnum * fatBufBlocks + v.fatSect) % 2 ^ 32
  let getsize := if v.fatlength < fatBufBlocks then v.fatlength else fatBufBlocks
  let (ret, w₁) := v.diskWrite w startblock getsize
  if ret < 0 then (-1, w₁)
  else if v.numOfFats = 2 then
    -- the second FAT
    let (ret, w₂) := v.diskWrite w₁ ((startblock + v.fatlength) % 2 ^ 32) getsize
    if ret < 0 then (-1, w₂) else (0, w₂)
  else (0, w₁)

/- Write back what is there and read the window `bufnum`, `getsize` blocks of it. -/
def readWindow (w : World) (bufnum getsize : ℕ) : ℤ × World :=
  let startblock := (bufnum * fatBufBlocks + v.fatSect) % 2 ^ 32
  let (ret, w₁) := if w.fatbufnum ≠ noBuf then v.flushFatBuffer w else (0, w)
  if ret < 0 then (-1, w₁)
  else (0, { v.diskRead w₁ startblock getsize with fatbufnum := bufnum })

def buf16 (fatbuf : Mem) (i : ℕ) : ℕ := leValue (bytes fatbuf (2 * i) 2)

def buf32 (fatbuf : Mem) (i : ℕ) : ℕ := leValue (bytes fatbuf (4 * i) 4)

def buf12 (fatbuf : Mem) (offset : ℕ) : ℕ :=
  let off16 := offset * 3 / 4
  match offset % 4 with
  | 0 => buf16 fatbuf off16 % 2 ^ 12
  | 1 => buf16 fatbuf (off16 + 1) % 2 ^ 8 * 2 ^ 4 + buf16 fatbuf off16 / 2 ^ 12
  | 2 => buf16 fatbuf (off16 + 1) % 2 ^ 4 * 2 ^ 8 + buf16 fatbuf off16 / 2 ^ 8
  | _ => buf16 fatbuf off16 / 2 ^ 4

def bufEntry (fatbuf : Mem) (offset : ℕ) : ℕ :=
  match v.fatsize with
  | .fat12 => buf12 fatbuf offset
  | .fat16 => buf16 fatbuf offset
  | .fat32 => buf32 fatbuf offset

def getFatentValue (w : World) (entry : ℕ) : ℕ × World :=
  if v.checkClust entry then (0, w)
  else
    let bufnum := entry / v.bufEntries
    let offset := entry - bufnum * v.bufEntries
    if bufnum ≠ w.fatbufnum then
      let getsize := if v.fatlength < fatBufBlocks then v.fatlength else fatBufBlocks
      let (ret, w₁) := v.readWindow w bufnum getsize
      if ret < 0 then (2 ^ 32 - 1, w₁) else (v.bufEntry w₁.fatbuf offset, w₁)
    else (v.bufEntry w.fatbuf offset, w)

def width : ℕ :=
  match v.fatsize with
  | .fat32 => 4
  | _ => 2

def putEntry (w : World) (offset value : ℕ) : World :=
  { w with fatbuf := store w.fatbuf (v.width * offset) (leBytes v.width value) }

def setFatentValue (w : World) (entry value : ℕ) : ℤ × World :=
  if v.fatsize = .fat12 then (-1, w)
  else
    let bufnum := entry / v.bufEntries
    let offset := entry - bufnum * v.bufEntries
    if bufnum ≠ w.fatbufnum then
      -- here the length is in bytes when it is compared
      let fatlength := v.fatlength * v.sectSize % 2 ^ 32
      let getsize := if fatlength < fatBufBlocks then fatlength else fatBufBlocks
      let (ret, w₁) := v.readWindow w bufnum getsize
      if ret < 0 then (-1, w₁) else (0, v.putEntry w₁ offset value)
    else (0, v.putEntry w offset value)

inductive Call where
  | get (entry : ℕ)
  | set (entry value : ℕ)
  | flush
deriving DecidableEq, Repr

def call (w : World) : Call → ℤ × World
  | .get entry => ((v.getFatentValue w entry).1, (v.getFatentValue w entry).2)
  | .set entry value => v.setFatentValue w entry value
  | .flush => v.flushFatBuffer w

def run : World → List Call → List ℤ × World
  | w, [] => ([], w)
  | w, c :: cs =>
    let (ret, w₁) := v.call w c
    let (rets, w₂) := run w₁ cs
    (ret :: rets, w₂)

end Volume

end UBoot.Fat
