import UBoot.Lib.Memory

/-!
# DOS partition tables (disk/part_dos.c)

The master boot record and the chain of extended records behind it. The listing and the lookup
recurse on sector numbers from the disk; the first argument bounds the depth of the recursion, and
`none` is one that got deeper.
-/

namespace UBoot.Dos

open Memory

inductive IfType where
  | unknown | ide | scsi | atapi | usb | doc | mmc | sd | sata | host
deriving DecidableEq, Repr

/- What the scans use of a `struct blk_desc`; `read` is `blk_dread` of one block, `none` a
failed read, and `lbaBits` the width of `lbaint_t`. -/
structure BlkDesc where
  ifType : IfType
  devnum : ℕ
  lba : ℕ
  lbaBits : ℕ
  read : ℕ → Option Mem

/- A `dos_partition_t`, less the cylinder, head and sector numbers. -/
structure DosPartition where
  bootInd : UInt8
  sysInd : UInt8
  start : ℕ
  size : ℕ
deriving DecidableEq, Repr

def le32ToInt (buffer : Mem) (a : ℕ) : ℕ :=
  (buffer (a + 3)).toNat * 2 ^ 24 + (buffer (a + 2)).toNat * 2 ^ 16 +
    (buffer (a + 1)).toNat * 2 ^ 8 + (buffer a).toNat

def magicOffset : ℕ := 0x1fe
def tblOffset : ℕ := 0x1be
def disksigOffset : ℕ := 0x1b8
def pbrFstypeOffset : ℕ := 0x36
def pbr32FstypeOffset : ℕ := 0x52
def defaultSector : ℕ := 512

def slot (buffer : Mem) (i : ℕ) : DosPartition where
  bootInd := buffer (tblOffset + 16 * i)
  sysInd := buffer (tblOffset + 16 * i + 4)
  start := le32ToInt buffer (tblOffset + 16 * i + 8)
  size := le32ToInt buffer (tblOffset + 16 * i + 12)

def slots (buffer : Mem) : List DosPartition := (List.range 4).map (slot buffer)

def isExtended (partType : UInt8) : Bool := partType == 0x5 || partType == 0xf || partType == 0x85

def isBootable (p : DosPartition) : Bool := p.bootInd == 0x80

def signed (buffer : Mem) : Bool := buffer magicOffset == 0x55 && buffer (magicOffset + 1) == 0xaa

inductive BlockType where
  | mbr | pbr | bad
deriving DecidableEq, Repr

def hasText (buffer : Mem) (a : ℕ) (text : List UInt8) : Bool := bytes buffer a text.length == text

def isPbr (buffer : Mem) : Bool :=
  hasText buffer pbrFstypeOffset [70, 65, 84] ||
    hasText buffer pbr32FstypeOffset [70, 65, 84, 51, 50]

/- The turns of the loop of `test_block_type` from `slot` on. The pointer `p` stays at the
first entry. -/
def testSlots (buffer : Mem) (p : DosPartition) : ℕ → ℕ → BlockType
  | 0, _ => .mbr
  | turns + 1, i =>
    if p.bootInd ≠ 0 ∧ p.bootInd ≠ 0x80 then
      if i = 0 ∧ isPbr buffer = true then .pbr else .bad
    else testSlots buffer p turns (i + 1)

def testBlockType (buffer : Mem) : BlockType :=
  if signed buffer then testSlots buffer (slot buffer 0) 3 0 else .bad

def counted (sector : ℕ) (p : DosPartition) : Bool :=
  sector == 0 || (p.sysInd != 0 && !isExtended p.sysInd)

def bump (sector partNum : ℕ) (p : DosPartition) : ℕ :=
  if counted sector p then partNum + 1 else partNum

/- `lbaint_t` sums. -/
def BlkDesc.add (d : BlkDesc) (a b : ℕ) : ℕ := (a + b) % 2 ^ d.lbaBits

/- Where the record that an extended entry points to lies, and its `relative`. -/
def BlkDesc.follow (d : BlkDesc) (sector relative : ℕ) (p : DosPartition) : ℕ × ℕ :=
  let lbaStart := d.add p.start relative
  (lbaStart, if sector = 0 then lbaStart else relative)

/- A line of `print_one_part`. -/
structure Line where
  partNum : ℕ
  start : ℕ
  size : ℕ
  disksig : ℕ
  sysInd : UInt8
  bootable : Bool
deriving DecidableEq, Repr

inductive Output where
  | part (line : Line)
  | cantRead (sector : ℕ)
  | badSignature (first second : UInt8)
deriving DecidableEq, Repr

def printOnePart (d : BlkDesc) (p : DosPartition) (sector partNum disksig : ℕ) : Line where
  partNum := partNum
  start := d.add sector p.start
  size := p.size
  disksig := disksig
  sysInd := p.sysInd
  bootable := isBootable p

/- "fdisk does not show the extended partitions that are not in the MBR". -/
def shown (sector : ℕ) (p : DosPartition) : Bool :=
  p.sysInd != 0 && (sector == 0 || !isExtended p.sysInd)

/- The first loop of `print_partition_extended`: the lines and `part_num` after it. -/
def printSlots (d : BlkDesc) (sector disksig : ℕ) : ℕ → List DosPartition → List Line × ℕ
  | partNum, [] => ([], partNum)
  | partNum, p :: ps =>
    let (lines, last) := printSlots d sector disksig (bump sector partNum p) ps
    (if shown sector p then printOnePart d p sector partNum disksig :: lines else lines, last)

/- `disksig` is taken from the master boot record. -/
def recordSig (buffer : Mem) (sector disksig : ℕ) : ℕ :=
  if sector = 0 then le32ToInt buffer disksigOffset else disksig

def printPartitionExtended (d : BlkDesc) : ℕ → ℕ × ℕ → ℕ → ℕ → Option (List Output)
  | 0, _, _, _ => none
  | depth + 1, (sector, relative), partNum, disksig =>
    match d.read sector with
    | none => some [.cantRead sector]
    | some buffer =>
      if testBlockType buffer ≠ .mbr then
        some [.badSignature (buffer magicOffset) (buffer (magicOffset + 1))]
      else
        let sig := recordSig buffer sector disksig
        let (lines, last) := printSlots d sector sig partNum (slots buffer)
        let extended := (slots buffer).filter fun p => isExtended p.sysInd
        -- every extended entry is followed, under the same number
        (extended.mapM fun p =>
          printPartitionExtended d depth (d.follow sector relative p) last sig).map
            fun outs => lines.map Output.part ++ outs.flatten

def partPrintDos (d : BlkDesc) (depth : ℕ) : Option (List Output) :=
  printPartitionExtended d depth (0, 0) 1 0

/- A `disk_partition_t`; `name` is left alone when a whole disk is returned. -/
structure DiskPartition where
  start : ℕ
  size : ℕ
  blksz : ℕ
  name : Option String
  type : String
  bootable : Bool
  uuid : String
deriving DecidableEq, Repr

def hexDigits (width n : ℕ) : String :=
  let digits := Nat.toDigits 16 n
  String.ofList (List.replicate (width - digits.length) '0' ++ digits)

def IfType.stem : IfType → String
  | .ide | .sata | .atapi => "hd"
  | .scsi => "sd"
  | .usb => "usbd"
  | .doc => "docd"
  | _ => "xx"

def infoOf (d : BlkDesc) (p : DosPartition) (sector partNum disksig : ℕ) : DiskPartition where
  start := d.add sector p.start
  size := p.size
  blksz := defaultSector
  name := some (d.ifType.stem ++ String.singleton (Char.ofNat (97 + d.devnum)) ++ toString partNum)
  type := "U-Boot"
  bootable := isBootable p
  uuid := hexDigits 8 disksig ++ "-" ++ hexDigits 2 partNum

def wholeDisk (d : BlkDesc) : DiskPartition where
  start := 0
  size := d.lba
  blksz := defaultSector
  name := none
  type := "U-Boot"
  bootable := false
  uuid := ""

/- `(pt->boot_ind & ~0x80) == 0` and a type that is not extended. -/
def usable (p : DosPartition) : Bool :=
  p.bootInd &&& 0x7f == 0 && p.sysInd != 0 && !isExtended p.sysInd

/- The first loop of `part_get_info_extended`: the partition, or `part_num` after it. -/
def findSlot (d : BlkDesc) (sector disksig : ℕ) (whichPart : ℤ) :
    ℕ → List DosPartition → DiskPartition ⊕ ℕ
  | partNum, [] => .inr partNum
  | partNum, p :: ps =>
    if usable p && decide ((partNum : ℤ) = whichPart) then
      .inl (infoOf d p sector partNum disksig)
    else findSlot d sector disksig whichPart (bump sector partNum p) ps

/- `some none` is the return value -1. -/
def partGetInfoExtended (d : BlkDesc) (whichPart : ℤ) :
    ℕ → ℕ × ℕ → ℕ → ℕ → Option (Option DiskPartition)
  | 0, _, _, _ => none
  | depth + 1, (sector, relative), partNum, disksig =>
    match d.read sector with
    | none => some none
    | some buffer =>
      if signed buffer = false then some none
      else
        let sig := recordSig buffer sector disksig
        match findSlot d sector sig whichPart partNum (slots buffer) with
        | .inl info => some (some info)
        | .inr last =>
          -- only the first extended entry is followed
          match (slots buffer).find? fun p => isExtended p.sysInd with
          | some p => partGetInfoExtended d whichPart depth (d.follow sector relative p) last sig
          | none =>
            if testBlockType buffer = .pbr then some (some (wholeDisk d)) else some none

def partGetInfoDos (d : BlkDesc) (depth : ℕ) (part : ℤ) : Option (Option DiskPartition) :=
  partGetInfoExtended d part depth (0, 0) 1 0

end UBoot.Dos
