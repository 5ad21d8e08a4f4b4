import UBoot.Fat.Cache

/-!
# Reading a file (fs/fat/fat.c)

`get_contents` walks the chain to the position, takes the rest of a cluster that is entered in its
middle through `get_contents_vfatname_block`, and then moves runs of consecutive clusters. The
buffer of the caller lies in a memory of its own.
-/

namespace UBoot.Fat

open Memory LittleEndian

def maxClustSize : ℕ := 65536

/- The other parts of `fsdata` that the read path uses, with ARCH_DMA_MINALIGN. -/
structure FsData extends Volume where
  rootdirSect : ℕ
  clustSize : ℕ
  dataBegin : ℤ
  archDmaMinalign : ℕ

structure DirEntry where
  starthi : ℕ
  start : ℕ
  size : ℕ
deriving DecidableEq, Repr

namespace FsData

variable (v : FsData)

def bytesperclust : ℕ := v.clustSize * v.sectSize

/- `START`. -/
def startOf (dent : DirEntry) : ℕ :=
  dent.start + if v.fatsize = .fat32 then dent.starthi * 2 ^ 16 else 0

def getFatent (w : World) (entry : ℕ) : ℕ × World :=
  let bufnum := entry / v.bufEntries
  let offset := entry - bufnum * v.bufEntries
  if bufnum ≠ w.fatbufnum then
    let startblock := bufnum * fatBufBlocks % 2 ^ 32
    let getsize := if v.fatlength < (startblock + fatBufBlocks) % 2 ^ 32
      then (v.fatlength + 2 ^ 32 - startblock) % 2 ^ 32 else fatBufBlocks
    let w₁ := { v.diskRead w ((startblock + v.fatSect) % 2 ^ 32) getsize with fatbufnum := bufnum }
    (v.bufEntry w₁.fatbuf offset, w₁)
  else (v.bufEntry w.fatbuf offset, w)

/- What `disk_read` puts into a buffer. -/
def sectors (disk : Mem) (block nrBlocks : ℕ) : List UInt8 :=
  bytes disk (block * v.sectSize) (nrBlocks * v.sectSize)

def startsect (clustnum : ℕ) : ℕ :=
  if 0 < clustnum then ((v.dataBegin + clustnum * v.clustSize) % 2 ^ 32).toNat else v.rootdirSect

/- A misaligned buffer gets its whole sectors one by one, through `tmpbuf`. -/
def oneByOne (disk : Mem) : ℕ → ℕ → Mem → ℕ → Mem
  | 0, _, mem, _ => mem
  | n + 1, startsect, mem, buffer =>
    oneByOne disk n ((startsect + 1) % 2 ^ 32) (store mem buffer (v.sectors disk startsect 1))
      (buffer + v.sectSize)

def getCluster (disk mem : Mem) (clustnum buffer size : ℕ) : Mem :=
  let startsect := v.startsect clustnum
  let idx := size / v.sectSize
  let mem₁ :=
    if buffer % v.archDmaMinalign ≠ 0 then v.oneByOne disk idx startsect mem buffer
    else store mem buffer (v.sectors disk startsect idx)
  let left := size - idx * v.sectSize
  if left = 0 then mem₁
  else
    let tmpbuf := v.sectors disk ((startsect + idx) % 2 ^ 32) 1
    store mem₁ (buffer + idx * v.sectSize) (tmpbuf.take left)

structure Result where
  ret : ℤ
  gotsize : ℕ
  mem : Mem
  world : World

/- Where a search in the chain ends: at a cluster, or at an entry that is none. -/
inductive Reached where
  | cluster (clust actsize : ℕ)
  | invalid

/- `go to cluster at pos` -/
def skipLoop (pos : ℕ) : ℕ → World → ℕ → ℕ → Option (Reached × World)
  | 0, _, _, _ => none
  | fuel + 1, w, curclust, actsize =>
    if pos < actsize then some (.cluster curclust actsize, w)
    else
      let (next, w₁) := v.getFatent w curclust
      if v.checkClust next then some (.invalid, w₁)
      else skipLoop pos fuel w₁ next (actsize + v.bytesperclust)

inductive Merged where
  -- `get remaining bytes`
  | all
  -- `getit`
  | some (endclust actsize : ℕ)
  | invalid

/- `search for consecutive clusters` -/
def mergeLoop (filesize : ℕ) : ℕ → World → ℕ → ℕ → Option (Merged × World)
  | 0, _, _, _ => none
  | fuel + 1, w, endclust, actsize =>
    if filesize ≤ actsize then some (.all, w)
    else
      let (newclust, w₁) := v.getFatent w endclust
      if (newclust + 2 ^ 32 - 1) % 2 ^ 32 ≠ endclust then some (.some endclust actsize, w₁)
      else if v.checkClust newclust then some (.invalid, w₁)
      else mergeLoop filesize fuel w₁ newclust (actsize + v.bytesperclust)

/- The `do` loop. `none` is also a length that is no `int`. -/
def mainLoop (disk : Mem) : ℕ → World → Mem → ℕ → ℕ → ℕ → ℕ → Option Result
  | 0, _, _, _, _, _, _ => none
  | fuel + 1, w, mem, curclust, buffer, filesize, gotsize =>
    match v.mergeLoop filesize (filesize + 1) w curclust v.bytesperclust with
    | none => none
    | some (.invalid, w₁) => some ⟨0, gotsize, mem, w₁⟩
    | some (.all, w₁) =>
      if 2 ^ 31 ≤ filesize then none
      else some ⟨0, gotsize + filesize, v.getCluster disk mem curclust buffer filesize, w₁⟩
    | some (.some endclust actsize, w₁) =>
      if 2 ^ 31 ≤ actsize then none
      else
        let mem₁ := v.getCluster disk mem curclust buffer actsize
        let (curclust, w₂) := v.getFatent w₁ endclust
        if v.checkClust curclust then some ⟨0, gotsize + actsize, mem₁, w₂⟩
        else mainLoop disk fuel w₂ mem₁ curclust (buffer + actsize) (filesize - actsize)
          (gotsize + actsize)

/- From a cluster, `pos` bytes into it. `none` is also a write behind the end of
`get_contents_vfatname_block`. -/
def fromCluster (w : World) (mem : Mem) (curclust buffer filesize pos : ℕ) : Option Result :=
  if pos = 0 then v.mainLoop w.disk (filesize + 1) w mem curclust buffer filesize 0
  else
    let actsize := min filesize v.bytesperclust
    if maxClustSize < actsize then none
    else
      let block := v.getCluster w.disk (fun _ => 0) curclust 0 actsize
      let mem₁ := store mem buffer (bytes block pos (actsize - pos))
      if filesize - actsize = 0 then some ⟨0, actsize - pos, mem₁, w⟩
      else
        let (curclust, w₁) := v.getFatent w curclust
        if v.checkClust curclust then some ⟨0, actsize - pos, mem₁, w₁⟩
        else v.mainLoop w.disk (filesize + 1) w₁ mem₁ curclust (buffer + (actsize - pos))
          (filesize - actsize) (actsize - pos)

/- `none` is also an overflow of `pos + maxsize`, which are `loff_t`. -/
def getContents (w : World) (mem : Mem) (dent : DirEntry) (pos buffer maxsize : ℕ) :
    Option Result :=
  if dent.size ≤ pos then some ⟨0, 0, mem, w⟩
  else if 0 < maxsize ∧ 2 ^ 63 ≤ pos + maxsize then none
  else
    let filesize := if 0 < maxsize ∧ pos + maxsize < dent.size then pos + maxsize else dent.size
    match v.skipLoop pos (pos + 2) w (v.startOf dent) v.bytesperclust with
    | none => none
    | some (.invalid, w₁) => some ⟨0, 0, mem, w₁⟩
    | some (.cluster curclust actsize, w₁) =>
      let actsize := actsize - v.bytesperclust
      v.fromCluster w₁ mem curclust buffer (filesize - actsize) (pos - actsize)

end FsData

end UBoot.Fat
