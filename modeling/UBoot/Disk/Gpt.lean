import UBoot.Disk.Uuid
import UBoot.Lib.Memory

/-!
# GUID partition tables (disk/part_efi.c)

What a reader of the table touches is kept as a list of events beside its result: an access up to a
byte of a buffer, and the space made for the entries. A read behind a buffer gives whatever lies
there. `size_t` has 32 bits, `lbaint_t` has `lbaBits`.
-/

namespace UBoot.Gpt

open Memory LittleEndian

/- One entry of `crc_table`, as `make_crc_table` computes it. -/
def crcTable (n : ℕ) : ℕ :=
  (List.range 8).foldl (fun c _ => if c % 2 = 1 then 0xedb88320 ^^^ (c >>> 1) else c >>> 1) n

def doCrc (crc : ℕ) (x : UInt8) : ℕ := crcTable ((crc ^^^ x.toNat) &&& 255) ^^^ (crc >>> 8)

/- `crc32(0, buf, len)`, byte by byte. -/
def crc32 (buf : List UInt8) : ℕ := (buf.foldl doCrc 0xffffffff) ^^^ 0xffffffff

theorem crcTable_lt {n : ℕ} (hn : n < 2 ^ 32) : crcTable n < 2 ^ 32 := by
  have hstep : ∀ (ks : List ℕ) (c : ℕ), c < 2 ^ 32 → ks.foldl
      (fun c _ => if c % 2 = 1 then 0xedb88320 ^^^ (c >>> 1) else c >>> 1) c < 2 ^ 32 := by
    intro ks
    induction ks with
    | nil => exact fun c hc => hc
    | cons k ks ih =>
      intro c hc
      have hhalf : c >>> 1 < 2 ^ 32 := by
        rw [Nat.shiftRight_eq_div_pow]
        omega
      apply ih
      simp only
      split
      · exact Nat.xor_lt_two_pow (by decide) hhalf
      · exact hhalf
  exact hstep _ n hn

theorem doCrc_lt {crc : ℕ} (hcrc : crc < 2 ^ 32) (x : UInt8) : doCrc crc x < 2 ^ 32 := by
  apply Nat.xor_lt_two_pow
  · apply crcTable_lt
    exact Nat.lt_of_le_of_lt Nat.and_le_right (by decide)
  · rw [Nat.shiftRight_eq_div_pow]
    omega

theorem foldl_doCrc_lt (buf : List UInt8) {crc : ℕ} (hcrc : crc < 2 ^ 32) :
    buf.foldl doCrc crc < 2 ^ 32 := by
  induction buf generalizing crc with
  | nil => exact hcrc
  | cons x buf ih => exact ih (doCrc_lt hcrc x)

theorem crc32_lt (buf : List UInt8) : crc32 buf < 2 ^ 32 :=
  Nat.xor_lt_two_pow (foldl_doCrc_lt buf (by decide)) (by decide)

/- What is used of a `struct blk_desc`, and the memory around the buffers. -/
structure BlkDesc where
  blksz : ℕ
  blksz_ge : 512 ≤ blksz
  blksz_lt : blksz < 2 ^ 32
  lba : ℕ
  lbaBits : ℕ
  lba_lt : lba < 2 ^ lbaBits
  lbaBits_le : lbaBits ≤ 64
  -- `blk_dread` of so many blocks from a block on returns their number
  reads : ℕ → ℕ → Bool
  -- `memalign` or `calloc` of so many bytes succeeds
  alloc : ℕ → Bool
  -- what lies where a header is read to, and where entries are read to
  stack : Mem
  heap : Mem

/- `count` blocks from `blk` on, read over the memory `buf`. -/
def blkDread (dev : BlkDesc) (disk : Mem) (blk count : ℕ) (buf : Mem) : Mem :=
  fun i => if i < count * dev.blksz then disk (blk * dev.blksz + i) else buf i

/- `PAD_COUNT`, of a size that is not 0. -/
def padCount (s pad : ℕ) : ℕ := (s - 1) / pad + 1

inductive Event where
  -- bytes below `stop` of a buffer of `size` bytes
  | access (size stop : ℕ)
  -- an accepted table, the bytes its entries are taken to have, those allocated and those read
  | table (num entrySize count allocated read : ℕ)
deriving DecidableEq, Repr

structure GptHeader where
  signature : ℕ
  revision : ℕ
  headerSize : ℕ
  headerCrc32 : ℕ
  reserved1 : ℕ
  myLba : ℕ
  alternateLba : ℕ
  firstUsableLba : ℕ
  lastUsableLba : ℕ
  diskGuid : List UInt8
  partitionEntryLba : ℕ
  numPartitionEntries : ℕ
  sizeofPartitionEntry : ℕ
  partitionEntryArrayCrc32 : ℕ
deriving DecidableEq, Repr

def gptHeaderSignature : ℕ := 0x5452415020494645

def headerAt (buf : Mem) : GptHeader where
  signature := leValue (bytes buf 0 8)
  revision := leValue (bytes buf 8 4)
  headerSize := leValue (bytes buf 12 4)
  headerCrc32 := leValue (bytes buf 16 4)
  reserved1 := leValue (bytes buf 20 4)
  myLba := leValue (bytes buf 24 8)
  alternateLba := leValue (bytes buf 32 8)
  firstUsableLba := leValue (bytes buf 40 8)
  lastUsableLba := leValue (bytes buf 48 8)
  diskGuid := bytes buf 56 16
  partitionEntryLba := leValue (bytes buf 72 8)
  numPartitionEntries := leValue (bytes buf 80 4)
  sizeofPartitionEntry := leValue (bytes buf 84 4)
  partitionEntryArrayCrc32 := leValue (bytes buf 88 4)

def headerBytes (h : GptHeader) : List UInt8 :=
  List.flatten [leBytes 8 h.signature, leBytes 4 h.revision, leBytes 4 h.headerSize,
    leBytes 4 h.headerCrc32, leBytes 4 h.reserved1, leBytes 8 h.myLba, leBytes 8 h.alternateLba,
    leBytes 8 h.firstUsableLba, leBytes 8 h.lastUsableLba, h.diskGuid,
    leBytes 8 h.partitionEntryLba, leBytes 4 h.numPartitionEntries,
    leBytes 4 h.sizeofPartitionEntry, leBytes 4 h.partitionEntryArrayCrc32]

/- The crc of `header_size` bytes, with `header_crc32` taken as 0. -/
def headerCrc (buf : Mem) : ℕ :=
  crc32 (bytes (store buf 16 [0, 0, 0, 0]) 0 (headerAt buf).headerSize)

variable (dev : BlkDesc) (disk : Mem)

/- `true` for a return value of 0. -/
def validateGptHeader (buf : Mem) (lba : ℕ) : Bool × List Event :=
  let h := headerAt buf
  if h.signature ≠ gptHeaderSignature then (false, [])
  else
    let touched := [Event.access dev.blksz h.headerSize]
    if headerCrc buf ≠ h.headerCrc32 then (false, touched)
    else if h.myLba ≠ lba then (false, touched)
    else if dev.lba < h.firstUsableLba then (false, touched)
    else if dev.lba < h.lastUsableLba then (false, touched)
    else (true, touched)

/- `num_partition_entries * sizeof_partition_entry`. -/
def entriesCount (h : GptHeader) : ℕ := h.numPartitionEntries * h.sizeofPartitionEntry % 2 ^ 32

def allocReadGptEntries (h : GptHeader) : Option Mem × List Event :=
  let count := entriesCount h
  if count = 0 then (none, [])
  else
    let allocated := padCount count dev.blksz * dev.blksz % 2 ^ 32
    if dev.alloc allocated = false then (none, [])
    else
      let blk := h.partitionEntryLba % 2 ^ dev.lbaBits
      let blkCnt := padCount count dev.blksz
      if dev.reads blk blkCnt = false then (none, [])
      else (some (blkDread dev disk blk blkCnt dev.heap), [.access allocated (blkCnt * dev.blksz)])

def validateGptEntries (h : GptHeader) (pte : Mem) : Bool :=
  crc32 (bytes pte 0 (entriesCount h)) == h.partitionEntryArrayCrc32

/- The header and the entries of the table whose header is at `lba`, if it is valid. -/
def isGptValid (lba : ℕ) : Option (GptHeader × Mem) × List Event :=
  if dev.reads lba 1 = false then (none, [])
  else
    let buf := blkDread dev disk lba 1 dev.stack
    let h := headerAt buf
    let v := validateGptHeader dev buf lba
    if v.1 = false then (none, v.2)
    else
      match allocReadGptEntries dev disk h with
      | (none, es) => (none, v.2 ++ es)
      | (some pte, es) =>
        let count := entriesCount h
        let allocated := padCount count dev.blksz * dev.blksz % 2 ^ 32
        let touched := v.2 ++ es ++ [.access allocated count]
        if validateGptEntries h pte = false then (none, touched)
        else
          (some (h, pte), touched ++ [.table h.numPartitionEntries h.sizeofPartitionEntry count
            allocated (padCount count dev.blksz * dev.blksz)])

theorem isGptValid_eq {buf : Mem} {lba : ℕ} (hbuf : buf = blkDread dev disk lba 1 dev.stack) :
    isGptValid dev disk lba =
      if dev.reads lba 1 = false then (none, [])
      else if (validateGptHeader dev buf lba).1 = false then (none, (validateGptHeader dev buf lba).2)
      else
        match allocReadGptEntries dev disk (headerAt buf) with
        | (none, es) => (none, (validateGptHeader dev buf lba).2 ++ es)
        | (some pte, es) =>
          let count := entriesCount (headerAt buf)
          let allocated := padCount count dev.blksz * dev.blksz % 2 ^ 32
          let touched := (validateGptHeader dev buf lba).2 ++ es ++ [.access allocated count]
          if validateGptEntries (headerAt buf) pte = false then (none, touched)
          else
            (some (headerAt buf, pte), touched ++ [.table (headerAt buf).numPartitionEntries
              (headerAt buf).sizeofPartitionEntry count allocated
              (padCount count dev.blksz * dev.blksz)]) := by
  subst hbuf
  rfl

structure GptEntry where
  partitionTypeGuid : List UInt8
  uniquePartitionGuid : List UInt8
  startingLba : ℕ
  endingLba : ℕ
  attributes : ℕ
  partitionName : List ℕ
deriving DecidableEq, Repr

/- `gpt_pte[i]`: the stride is `sizeof(gpt_entry)`. -/
def entryAt (pte : Mem) (i : ℕ) : GptEntry where
  partitionTypeGuid := bytes pte (128 * i) 16
  uniquePartitionGuid := bytes pte (128 * i + 16) 16
  startingLba := leValue (bytes pte (128 * i + 32) 8)
  endingLba := leValue (bytes pte (128 * i + 40) 8)
  attributes := leValue (bytes pte (128 * i + 48) 8)
  partitionName := (List.range 36).map fun k => leValue (bytes pte (128 * i + 56 + 2 * k) 2)

def entryBytes (e : GptEntry) : List UInt8 :=
  List.flatten [e.partitionTypeGuid, e.uniquePartitionGuid, leBytes 8 e.startingLba,
    leBytes 8 e.endingLba, leBytes 8 e.attributes, e.partitionName.flatMap (leBytes 2)]

def isPteValid (e : GptEntry) : Bool := e.partitionTypeGuid != List.replicate 16 0

/- `lib/ctype.c`. -/
def isprint (c : ℕ) : Bool := (32 ≤ c && c ≤ 126) || (160 ≤ c && c ≤ 255)

/- A character of `print_efiname`, from one of `partition_name`. -/
def efiChar (u : ℕ) : ℕ :=
  let c := u % 256
  if c ≠ 0 && !isprint c then 46 else c

/- The string that `print_efiname` returns. -/
def printEfiname (e : GptEntry) : List ℕ := (e.partitionName.map efiChar).takeWhile (· ≠ 0)

def systemGuid : List UInt8 :=
  [0x28, 0x73, 0x2a, 0xc1, 0x1f, 0xf8, 0xd2, 0x11, 0xba, 0x4b, 0x00, 0xa0, 0xc9, 0x3e, 0xc9, 0x3b]

/- `legacy_bios_bootable` is bit 2 of the attributes. -/
def isBootable (e : GptEntry) : Bool := e.attributes.testBit 2 || e.partitionTypeGuid == systemGuid

/- A `disk_partition_t`; strings without their end. -/
structure DiskPartition where
  start : ℕ
  size : ℕ
  blksz : ℕ
  name : List ℕ
  type : List ℕ
  bootable : Bool
  uuid : List ℕ
deriving DecidableEq, Repr

def typeText : List ℕ := [85, 45, 66, 111, 111, 116]

def infoOf (e : GptEntry) : DiskPartition :=
  let start := e.startingLba % 2 ^ dev.lbaBits
  { start := start
    size := (e.endingLba % 2 ^ dev.lbaBits + 1 + (2 ^ dev.lbaBits - start)) % 2 ^ dev.lbaBits
    blksz := dev.blksz
    name := printEfiname e
    type := typeText
    bootable := isBootable e
    uuid := uuidBinToStr e.uniquePartitionGuid .guid }

/- The table that is used: the primary one, else the backup in the last block. -/
def chosenTable : Option (GptHeader × Mem) × List Event :=
  match isGptValid dev disk 1 with
  | (some t, es) => (some t, es)
  | (none, es) =>
    let backup := isGptValid dev disk ((dev.lba + 2 ^ dev.lbaBits - 1) % 2 ^ dev.lbaBits)
    (backup.1, es ++ backup.2)

/- `part_get_info_efi` up to its check of the entry. -/
def lookupEntry (part : ℕ) : Option GptEntry × List Event :=
  if part < 1 then (none, [])
  else
    match chosenTable dev disk with
    | (none, es) => (none, es)
    | (some (h, pte), es) =>
      if h.numPartitionEntries < part then (none, es)
      else
        let touched := es ++ [Event.access (entriesCount h) (128 * part)]
        let e := entryAt pte (part - 1)
        if isPteValid e then (some e, touched) else (none, touched)

/- `info->name` has 32 bytes. -/
def partGetInfoEfi (part : ℕ) : Option DiskPartition × List Event :=
  match lookupEntry dev disk part with
  | (none, es) => (none, es)
  | (some e, es) =>
    (some (infoOf dev e), es ++ [.access 32 ((printEfiname e).length + 1)])

end UBoot.Gpt
