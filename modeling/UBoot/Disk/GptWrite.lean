import UBoot.Disk.GptRead

/-!
# Writing a GUID partition table (disk/part_efi.c)

`gpt_restore` and `gpt_verify_partitions`. A list of partitions is turned into entries, which
are written with a header behind the protective MBR and again at the end of the disk.
-/

namespace UBoot.Gpt

open Memory LittleEndian

/- A `disk_partition_t` of a request: `name` is the array, up to and behind its end. -/
structure Request where
  start : ℕ
  size : ℕ
  name : List ℕ
  bootable : Bool
  uuid : List ℕ
  name_length : name.length = 32
  name_byte : ∀ c ∈ name, c < 256

def Request.text (p : Request) : List ℕ := p.name.takeWhile (· ≠ 0)

def basicDataGuid : List UInt8 :=
  [0xa2, 0xa0, 0xd0, 0xeb, 0xe5, 0xb9, 0x33, 0x44, 0x87, 0xc0, 0x68, 0xb6, 0xb7, 0x26, 0x99, 0xc7]

def gptEntryNumbers : ℕ := 128

variable (dev : BlkDesc)

/- `dev_desc->lba - n`. -/
def lbaMinus (n : ℕ) : ℕ := (dev.lba + 2 ^ dev.lbaBits - n) % 2 ^ dev.lbaBits

def gptFillHeader (strGuid : List ℕ) : Option GptHeader :=
  match uuidStrToBin strGuid .guid with
  | none => none
  | some diskGuid => some
    { signature := gptHeaderSignature
      revision := 0x00010000
      headerSize := 92
      headerCrc32 := 0
      reserved1 := 0
      myLba := 1
      alternateLba := lbaMinus dev 1
      firstUsableLba := 34
      lastUsableLba := lbaMinus dev 34
      diskGuid := diskGuid
      partitionEntryLba := 2
      numPartitionEntries := gptEntryNumbers
      sizeofPartitionEntry := 128
      partitionEntryArrayCrc32 := 0 }

/- Where a partition starts, if the one before it ended at `offset`. -/
def startFrom (offset : ℕ) (p : Request) : ℕ := if p.start ≠ 0 then p.start else offset

def endFrom (offset : ℕ) (p : Request) : ℕ := (startFrom offset p + p.size) % 2 ^ dev.lbaBits

/- The loop of `gpt_fill_pte`. The last partition reaches to the end of the disk if it has no
size. -/
def gptFillPte (lastUsable : ℕ) : ℕ → List Request → Option (List GptEntry)
  | _, [] => some []
  | offset, p :: ps =>
    if p.start ≠ 0 ∧ p.start < offset then none
    else if lastUsable % 2 ^ dev.lbaBits ≤ endFrom dev offset p then none
    else
      match uuidStrToBin p.uuid .std with
      | none => none
      | some bin =>
        match gptFillPte lastUsable (endFrom dev offset p) ps with
        | none => none
        | some es => some
          ({ partitionTypeGuid := basicDataGuid
             uniquePartitionGuid := bin
             startingLba := startFrom offset p
             endingLba := if ps = [] ∧ p.size = 0 then lastUsable
               else (endFrom dev offset p + 2 ^ dev.lbaBits - 1) % 2 ^ dev.lbaBits
             attributes := if p.bootable then 4 else 0
             partitionName := p.name ++ List.replicate 4 0 } :: es)

/- A buffer of `n` bytes that was cleared, with `bs` at its start. -/
def padTo (n : ℕ) (bs : List UInt8) : List UInt8 := bs ++ List.replicate (n - bs.length) 0

def blkDwrite (disk : Mem) (blk : ℕ) (bs : List UInt8) : Mem := store disk (blk * dev.blksz) bs

/- The protective MBR, with one partition of type 0xee over the disk. -/
def mbrBytes : List UInt8 :=
  List.flatten [List.replicate 446 0, [0, 0, 0, 0, 0xee, 0, 0, 0], leBytes 4 1,
    leBytes 4 ((dev.lba % 2 ^ 32 + 2 ^ 32 - 1) % 2 ^ 32), List.replicate 48 0, [0x55, 0xaa]]

def setHeaderCrc (h : GptHeader) : GptHeader :=
  { h with headerCrc32 := crc32 ((headerBytes h).take h.headerSize) }

def prepareBackupGptHeader (h : GptHeader) : GptHeader :=
  setHeaderCrc { h with
    myLba := h.alternateLba
    alternateLba := h.myLba
    partitionEntryLba := (h.lastUsableLba + 1) % 2 ^ 64
    headerCrc32 := 0 }

def pteBlkCnt (h : GptHeader) : ℕ := padCount (h.numPartitionEntries * 128) dev.blksz

def entriesBuf (h : GptHeader) (es : List GptEntry) : List UInt8 :=
  padTo (pteBlkCnt dev h * dev.blksz) (es.flatMap entryBytes)

def primaryHeader (h : GptHeader) (es : List GptEntry) : GptHeader :=
  setHeaderCrc { h with
    partitionEntryArrayCrc32 := crc32 ((entriesBuf dev h es).take (entriesCount h)) }

-- `blk_dwrite` of so many blocks from a block on returns their number
variable (writes : ℕ → ℕ → Bool)

/- `true` for a return value of 0. Of a block longer than 512 bytes, the MBR is followed by
what lies behind it in memory. -/
def writeGptTable (h : GptHeader) (es : List GptEntry) (disk : Mem) : Bool × Mem :=
  if writes 0 1 = false then (false, disk)
  else
    let disk := blkDwrite dev disk 0 (mbrBytes dev ++ bytes dev.stack 512 (dev.blksz - 512))
    let h₁ := primaryHeader dev h es
    if writes 1 1 = false then (false, disk)
    else
      let disk := blkDwrite dev disk 1 (padTo dev.blksz (headerBytes h₁))
      if writes 2 (pteBlkCnt dev h) = false then (false, disk)
      else
        let disk := blkDwrite dev disk 2 (entriesBuf dev h es)
        let h₂ := prepareBackupGptHeader h₁
        let blk := (h₂.lastUsableLba + 1) % 2 ^ dev.lbaBits
        if writes blk (pteBlkCnt dev h) = false then (false, disk)
        else
          let disk := blkDwrite dev disk blk (entriesBuf dev h es)
          let blk := h₂.myLba % 2 ^ dev.lbaBits
          if writes blk 1 = false then (false, disk)
          else (true, blkDwrite dev disk blk (padTo dev.blksz (headerBytes h₂)))

def gptRestore (disk : Mem) (strDiskGuid : List ℕ) (partitions : List Request) : Bool × Mem :=
  if dev.alloc dev.blksz = false then (false, disk)
  else if dev.alloc (padCount (gptEntryNumbers * 128) dev.blksz * dev.blksz) = false then
    (false, disk)
  else
    match gptFillHeader dev strDiskGuid with
    | none => (false, disk)
    | some h =>
      match gptFillPte dev h.lastUsableLba (h.firstUsableLba % 2 ^ dev.lbaBits) partitions with
      | none => (false, disk)
      | some es => writeGptTable dev writes h es disk

/- `n` is 37, one more than the characters of a name. -/
def gptConvertEfiNameToChar (pte : Mem) (i n : ℕ) : List ℕ :=
  ((List.range n).map fun k => (pte (128 * i + 56 + 2 * k)).toNat).takeWhile (· ≠ 0)

/- `strncmp` of two strings returns 0. -/
def strncmpEq : ℕ → List ℕ → List ℕ → Bool
  | 0, _, _ => true
  | n + 1, a, b =>
    if a.headD 0 ≠ b.headD 0 then false
    else if a.headD 0 = 0 then true
    else strncmpEq n a.tail b.tail

def gptVerifyHeaders (disk : Mem) : Option (GptHeader × Mem) :=
  match (isGptValid dev disk 1).1 with
  | none => none
  | some _ => (isGptValid dev disk (backupLba dev)).1

def gptPartSize (e : GptEntry) : ℕ := (e.endingLba + (2 ^ 64 - e.startingLba) + 1) % 2 ^ 64

def verifyFrom (h : GptHeader) (pte : Mem) : ℕ → List Request → Bool
  | _, [] => true
  | i, p :: ps =>
    let e := entryAt pte i
    if i = h.numPartitionEntries then false
    else if strncmpEq 32 (gptConvertEfiNameToChar pte i 37) p.name = false then false
    else if gptPartSize e ≠ p.size then false
    else if p.start ≠ 0 ∧ e.startingLba ≠ p.start then false
    else verifyFrom h pte (i + 1) ps

/- `true` for a return value of 0. -/
def gptVerifyPartitions (disk : Mem) (partitions : List Request) : Bool :=
  match gptVerifyHeaders dev disk with
  | none => false
  | some (h, pte) => verifyFrom h pte 0 partitions

end UBoot.Gpt
