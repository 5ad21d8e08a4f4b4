import UBoot.Fat.Search

/-!
# Writing a directory (fs/fat/fat_write.c)

The cluster of the directory in `get_dentfromdir_block` is filled record by record. When it is full
`flush_dir_table` writes it and goes on in a new cluster.
-/

namespace UBoot.Fat

open Memory LittleEndian

/- `set_name`: the bytes of `name` and `ext`. -/
def shortName (filename : Text) : List UInt8 :=
  let sName := uppercase filename
  let base := sName.takeWhile (· != 46)
  let ext := (sName.dropWhile (· != 46)).drop 1
  (if base.length < 8 then base ++ List.replicate (8 - base.length) 32
    else if base.length = 8 then base
    else base.take 6 ++ [126, 49]) ++
  (if ext.length < 3 then ext ++ List.replicate (3 - ext.length) 32 else ext.take 3)

def setName (buf : Mem) (dirent : ℕ) (filename : Text) : Mem :=
  if filename.length = 0 then buf else store buf (32 * dirent) (shortName filename)

namespace FsData

variable (v : FsData)

/- The log of `World` is about the FAT cache; these writes are not in it. -/
def diskWriteData (w : World) (block nrBlocks : ℕ) (data : List UInt8) : ℤ × World :=
  if v.totalSector < block + nrBlocks then (-1, w)
  else (nrBlocks, { w with disk := store w.disk (block * v.sectSize) data })

def writeOneByOne (mem : Mem) : ℕ → World → ℕ → ℕ → ℤ × World
  | 0, w, _, _ => (0, w)
  | n + 1, w, startsect, buffer =>
    let (ret, w₁) := v.diskWriteData w startsect 1 (bytes mem buffer v.sectSize)
    if ret ≠ 1 then (-1, w₁)
    else writeOneByOne mem n w₁ ((startsect + 1) % 2 ^ 32) (buffer + v.sectSize)

/- `junk` is what `tmpbuf` has on the stack. -/
def setCluster (junk mem : Mem) (w : World) (clustnum buffer size : ℕ) : ℤ × World :=
  let startsect := v.startsect clustnum
  let idx := size / v.sectSize
  let left := size - idx * v.sectSize
  let (ret, w₁) :=
    if buffer % v.archDmaMinalign ≠ 0 then v.writeOneByOne mem idx w startsect buffer
    else if v.sectSize ≤ size then
      let (ret, w₁) := v.diskWriteData w startsect idx (bytes mem buffer (idx * v.sectSize))
      if ret ≠ idx then (-1, w₁) else (0, w₁)
    else (0, w)
  if ret ≠ 0 then (-1, w₁)
  else if left = 0 then (0, w₁)
  else
    let tmpbuf := bytes mem (buffer + idx * v.sectSize) left ++ bytes junk left (v.sectSize - left)
    let (ret, w₂) := v.diskWriteData w₁ ((startsect + idx) % 2 ^ 32) 1 tmpbuf
    if ret ≠ 1 then (-1, w₂) else (0, w₂)

/- The loop of `find_empty_cluster` and of `determine_fatent`. -/
def emptyFrom : ℕ → World → ℕ → Option (ℕ × World)
  | 0, _, _ => none
  | fuel + 1, w, entry =>
    let (val, w₁) := v.getFatentValue w entry
    if val = 0 then some (entry, w₁) else emptyFrom fuel w₁ (entry + 1)

/- `get_fatent_value` gives 0 for what is no cluster, which ends the search. -/
def findEmptyCluster (w : World) : Option (ℕ × World) := v.emptyFrom v.clustLimit w 3

def markLast (w : World) (clust : ℕ) : World :=
  match v.fatsize with
  | .fat32 => (v.setFatentValue w clust 0xffffff8).2
  | .fat16 => (v.setFatentValue w clust 0xfff8).2
  | .fat12 => w

def isNextClust (dentptr : ℕ) : Bool := decide (v.bytesperclust ≤ 32 * dentptr)

/- `dentptr` stays where it is when a write fails. -/
def flushDirTable (junk : Mem) (d : Dir) (dentptr : ℕ) : Option (Dir × ℕ) :=
  let (ret, w₁) := v.setCluster junk d.block d.world d.dirCurclust 0 v.bytesperclust
  if ret ≠ 0 then some ({ d with world := w₁ }, dentptr)
  else
    match v.findEmptyCluster w₁ with
    | none => none
    | some (dirNewclust, w₂) =>
      let w₃ := (v.setFatentValue w₂ d.dirCurclust dirNewclust).2
      let (ret, w₄) := v.flushFatBuffer (v.markLast w₃ dirNewclust)
      let d₁ := { d with world := w₄, dirCurclust := dirNewclust }
      if ret < 0 then some (d₁, dentptr)
      else some ({ d₁ with block := store d.block 0 (List.replicate v.bytesperclust 0) }, 0)

def flushIfFull (junk : Mem) (d : Dir) (dentptr : ℕ) : Option (Dir × ℕ) :=
  if v.isNextClust dentptr then v.flushDirTable junk d dentptr else some (d, dentptr)

/- The second loop of `fill_dir_slot`, from the last slot on. -/
def putSlots (junk : Mem) : List Mem → Dir → ℕ → Option (Dir × ℕ)
  | [], d, dentptr => v.flushIfFull junk d dentptr
  | slot :: rest, d, dentptr =>
    match v.flushIfFull junk d dentptr with
    | none => none
    | some (d, dentptr) =>
      putSlots junk rest { d with block := store d.block (32 * dentptr) (bytes slot 0 32) }
        (dentptr + 1)

def fillDirSlot (junk : Mem) (d : Dir) (dentptr : ℕ) (lName : Text) : Option (Dir × ℕ) :=
  match slots (mkcksum (bytes d.block (32 * dentptr) 11)) lName with
  | none => none
  | some sl => v.putSlots junk sl.reverse d dentptr

def setStartCluster (buf : Mem) (dentptr startCluster : ℕ) : Mem :=
  let buf₁ := if v.fatsize = .fat32
    then store buf (32 * dentptr + 20) (leBytes 2 (startCluster / 2 ^ 16)) else buf
  store buf₁ (32 * dentptr + 26) (leBytes 2 startCluster)

def fillDentry (buf : Mem) (dentptr : ℕ) (filename : Text) (startCluster size : ℕ)
    (attr : UInt8) : Mem :=
  let buf₁ := v.setStartCluster buf dentptr startCluster
  let buf₂ := store buf₁ (32 * dentptr + 28) (leBytes 4 size)
  setName (put buf₂ (32 * dentptr + 11) attr) dentptr filename

/- What `do_fat_write` does for a name that is not there yet, `set_name` and `fill_dir_slot`. `none` is
also a name written behind the end of `get_dentfromdir_block`. -/
def addSlots (junk : Mem) (d : Dir) (emptyDentptr : ℕ) (filename : Text) : Option (Dir × ℕ) :=
  if maxClustSize < 32 * emptyDentptr + 11 then none
  else
    v.fillDirSlot junk { d with block := setName d.block emptyDentptr filename } emptyDentptr filename

/- And then `fill_dentry`. -/
def addEntry (junk : Mem) (d : Dir) (emptyDentptr : ℕ) (filename : Text) (startCluster size : ℕ) :
    Option (Dir × ℕ) :=
  (v.addSlots junk d emptyDentptr filename).map fun (d, dentptr) =>
    ({ d with block := v.fillDentry d.block dentptr filename startCluster size 0x20 }, dentptr)

end FsData

end UBoot.Fat

/-!
## Writing a file (fs/fat/fat_write.c)

`do_fat_write` looks the name up in the root directory, frees the chain of a file that is there, and
writes the contents into free clusters as they come. The FAT and the directory are written last.
-/

namespace UBoot.Fat

open Memory LittleEndian

/- The parts of record `k` that say where the file is. -/
def dentOf (buf : Mem) (k : ℕ) : DirEntry where
  starthi := leValue (bytes buf (32 * k + 20) 2)
  start := leValue (bytes buf (32 * k + 26) 2)
  size := leValue (bytes buf (32 * k + 28) 4)

namespace FsData

variable (v : FsData)

/- `partStart` is `cur_part_info.start`. -/
def checkOverflow (partStart clustnum size : ℕ) : ℤ :=
  let sectNum := (size / v.sectSize + if size % v.sectSize = 0 then 0 else 1) % 2 ^ 32
  if partStart + v.totalSector < (v.startsect clustnum + sectNum) % 2 ^ 32 then -1 else 0

def determineFatent (w : World) (entry : ℕ) : Option (ℕ × World) :=
  (v.emptyFrom v.clustLimit w (entry + 1)).map fun (next, w₁) =>
    (next, (v.setFatentValue w₁ entry next).2)

inductive Extended where
  -- `set remaining bytes`
  | all (endclust : ℕ)
  -- `getit`
  | some (newclust actsize : ℕ)
  | invalid

/- `search for consecutive clusters` -/
def extendLoop (filesize : ℕ) : ℕ → World → ℕ → ℕ → Option (Extended × World)
  | 0, _, _, _ => none
  | fuel + 1, w, endclust, actsize =>
    if filesize ≤ actsize then some (.all endclust, w)
    else
      match v.determineFatent w endclust with
      | none => none
      | some (newclust, w₁) =>
        if (newclust + 2 ^ 32 - 1) % 2 ^ 32 ≠ endclust then some (.some newclust actsize, w₁)
        else if v.checkClust newclust then some (.invalid, w₁)
        else extendLoop filesize fuel w₁ newclust (actsize + v.bytesperclust)

/- `Mark end of file in FAT` -/
def markEof (w : World) (endclust : ℕ) : World :=
  match v.fatsize with
  | .fat32 => (v.setFatentValue w endclust 0xfffffff).2
  | .fat16 => (v.setFatentValue w endclust 0xffff).2
  | .fat12 => w

/- The `do` loop: what is returned, what is written, and the world. `none` is also a length that is no
`int`. -/
def writeLoop (junk mem : Mem) : ℕ → World → ℕ → ℕ → ℕ → ℕ → Option (ℤ × ℕ × World)
  | 0, _, _, _, _, _ => none
  | fuel + 1, w, curclust, buffer, filesize, gotsize =>
    match v.extendLoop filesize (filesize + 1) w curclust v.bytesperclust with
    | none => none
    | some (.invalid, w₁) => some (0, gotsize, w₁)
    | some (.all endclust, w₁) =>
      if 2 ^ 31 ≤ filesize then none
      else
        let (ret, w₂) := v.setCluster junk mem w₁ curclust buffer filesize
        if ret ≠ 0 then some (-1, gotsize, w₂)
        else some (0, gotsize + filesize, v.markEof w₂ endclust)
    | some (.some newclust actsize, w₁) =>
      if 2 ^ 31 ≤ actsize then none
      else
        let (ret, w₂) := v.setCluster junk mem w₁ curclust buffer actsize
        if ret ≠ 0 then some (-1, gotsize, w₂)
        else if v.checkClust newclust then some (0, gotsize + actsize, w₂)
        else writeLoop junk mem fuel w₂ newclust (buffer + actsize) (filesize - actsize)
          (gotsize + actsize)

end FsData

end UBoot.Fat
