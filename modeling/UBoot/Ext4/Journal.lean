import Mathlib.Tactic

/-!
# Recovery of the journal (fs/ext4/ext4_journal.c)

A block is the function of its 32-bit words, as `be32_to_cpu` reads them; all fields that are
read are at multiples of 4. `phys` is `read_allocated_block` of the journal inode. Allocations
of memory and transfers succeed.
-/

namespace UBoot.Ext4.Journal

open Function

abbrev Block := ℕ → ℕ

structure Tag where
  block : ℕ
  flags : ℕ
deriving DecidableEq, Repr

inductive RecoveryFlag where
  | scan
  | recover
deriving DecidableEq, Repr

def descriptorBlock : ℕ := 1
def commitBlock : ℕ := 2
def revokeBlock : ℕ := 5
def flagSameUuid : ℕ := 2
def flagLastTag : ℕ := 8

/- The fields of the header, of the superblock and of a block of revokes. -/
def hMagic (b : Block) : ℕ := b 0
def hBlocktype (b : Block) : ℕ := b 1
def hSequence (b : Block) : ℕ := b 2
def sMaxlen (b : Block) : ℕ := b 4
def sFirst (b : Block) : ℕ := b 5
def sSequence (b : Block) : ℕ := b 6
def sStart (b : Block) : ℕ := b 7
def rCount (b : Block) : ℕ := b 3

structure Device where
  blksz : ℕ
  phys : ℕ → ℕ
  -- EXT3_FEATURE_INCOMPAT_RECOVER of the superblock read by the mount
  needsRecovery : Bool

def tagsFrom (blksz : ℕ) (b : Block) : ℕ → ℕ → List Tag
  | 0, _ => []
  | fuel + 1, ofs =>
    let tag : Tag := ⟨b (ofs / 4), b (ofs / 4 + 1)⟩
    if blksz < ofs + 8 then []
    else
      let next := if tag.flags &&& flagSameUuid = 0 then ofs + 8 + 16 else ofs + 8
      tag :: if tag.flags &&& flagLastTag = 0 then tagsFrom blksz b fuel next else []

def tagsOf (blksz : ℕ) (b : Block) : List Tag := tagsFrom blksz b (blksz / 8 + 1) 12

def revokedBy (b : Block) : List ℕ :=
  if rCount b < 2 ^ 31 then (List.range ((rCount b - 16 + 3) / 4)).map fun k => b (4 + k) else []

/- `check_blknr_for_revoke` finds the block. -/
def checkBlknrForRevoke (revokes : List Block) (blknr sequenceNo : ℕ) : Bool :=
  revokes.any fun r => decide (sequenceNo < hSequence r) && decide (blknr ∈ revokedBy r)

section

variable (dev : Device)

/- The tags of a transaction, the block of the first at `i`. -/
def recoverTags (revokes : List Block) (sequenceNo : ℕ) :
    ℕ → List Tag → (ℕ → Block) → (ℕ → Block)
  | _, [], disk => disk
  | i, tag :: tags, disk =>
    if checkBlknrForRevoke revokes tag.block sequenceNo then
      recoverTags revokes sequenceNo (i + 1) tags disk
    else
      recoverTags revokes sequenceNo (i + 1) tags
        (update disk tag.block (disk (dev.phys i)))

def recoverTransaction (revokes : List Block) (disk : ℕ → Block) (prevDescLogicalNo : ℕ) :
    ℕ → Block :=
  let desc := disk (dev.phys prevDescLogicalNo)
  recoverTags dev revokes (hSequence desc) (prevDescLogicalNo + 1) (tagsOf dev.blksz desc) disk

/- The locals of `ext4fs_check_journal_state`, the list of revokes and the disk. -/
structure Scan where
  i : ℕ
  sequence : ℕ
  transactionRunning : Bool
  dbFound : Bool
  currDescLogicalNo : ℕ
  revokes : List Block
  disk : ℕ → Block

/- The loop ends at a block of another sequence, or the function returns -1. -/
inductive Outcome where
  | finished (s : Scan)
  | failed (s : Scan)

/- One turn of the loop, with the block at `i`. -/
def turn (recoveryFlag : RecoveryFlag) (s : Scan) : Scan ⊕ Outcome :=
  let jdb := s.disk (dev.phys s.i)
  if hBlocktype jdb = descriptorBlock then
    if hSequence jdb ≠ s.sequence then .inr (.finished s)
    else if s.transactionRunning then .inr (.failed { s with currDescLogicalNo := s.i })
    else
      .inl { s with
        currDescLogicalNo := s.i
        transactionRunning := true
        i := s.i + (tagsOf dev.blksz jdb).length + 1
        dbFound := true }
  else if hBlocktype jdb = commitBlock then
    if hSequence jdb ≠ s.sequence then .inr (.finished s)
    else
      let s₁ := if s.transactionRunning ∨ s.dbFound = false then
        { s with transactionRunning := false, i := s.i + 1, sequence := (s.sequence + 1) % 2 ^ 32 }
        else s
      let disk := if recoveryFlag = .recover ∧ s.dbFound
        then recoverTransaction dev s.revokes s.disk s.currDescLogicalNo else s.disk
      .inl { s₁ with disk := disk, dbFound := false }
  else if hBlocktype jdb = revokeBlock then
    if hSequence jdb ≠ s.sequence then .inr (.finished s)
    else
      let revokes := if recoveryFlag = .scan then s.revokes ++ [jdb] else s.revokes
      .inl { s with revokes := revokes, i := s.i + 1 }
  else
    -- a block of another type: the index stays
    if hSequence jdb ≠ s.sequence then .inr (.finished s) else .inl s

def loop (recoveryFlag : RecoveryFlag) : ℕ → Scan → Option Outcome
  | 0, _ => none
  | fuel + 1, s =>
    match turn dev recoveryFlag s with
    | .inl s' => loop recoveryFlag fuel s'
    | .inr out => some out

/- The superblock of the file system is written back with the flag set. -/
def setRecover (blksz : ℕ) (disk : ℕ → Block) : ℕ → Block :=
  let word := (1024 % blksz + 96) / 4
  let b := disk (1024 / blksz)
  update disk (1024 / blksz) (update b word (b word ||| 0x04000000))

/- From `end` on, with the superblock of the journal as it is in memory. -/
def finish (recoveryFlag : RecoveryFlag) (jsb : Block) (revokes : List Block) (sequence : ℕ)
    (disk : ℕ → Block) : List Block × (ℕ → Block) :=
  if recoveryFlag = .recover then
    let jsb := update (update jsb 6 ((sequence + 1) % 2 ^ 32)) 7 1
    ([], update (setRecover dev.blksz disk) (dev.phys 0) jsb)
  else (revokes, disk)

end

end UBoot.Ext4.Journal

/-!
## What a journal says

The log as a list of committed transactions and the content of the file system behind them,
and the replay that the code does, transaction by transaction.
-/

namespace UBoot.Ext4.Journal

open Function List

inductive Item where
  | descriptor (tags : List Tag) (copies : List Block)
  | revoke (blocks : List ℕ)

/- The copies of blocks that an item or a transaction holds, in the order of the log. -/
def Item.writes : Item → List (ℕ × Block)
  | .descriptor tags copies => (tags.map Tag.block).zip copies
  | .revoke _ => []

def Item.revokes : Item → List ℕ
  | .descriptor _ _ => []
  | .revoke blocks => blocks

def writes (t : List Item) : List (ℕ × Block) := t.flatMap Item.writes

def revokes (t : List Item) : List ℕ := t.flatMap Item.revokes

def magic : ℕ := 0xc03b3998

section Log

variable (blksz : ℕ) (log : ℕ → Block)

def Header (seq type : ℕ) (b : Block) : Prop :=
  hMagic b = magic ∧ hBlocktype b = type ∧ hSequence b = seq

/- An item in the blocks from `k` on, up to `k'`. -/
inductive ItemAt (seq : ℕ) : ℕ → Item → ℕ → Prop where
  | descriptor {k : ℕ} : Header seq descriptorBlock (log k) →
      ItemAt seq k (.descriptor (tagsOf blksz (log k))
        ((List.range (tagsOf blksz (log k)).length).map fun j => log (k + 1 + j)))
        (k + (tagsOf blksz (log k)).length + 1)
  | revoke {k : ℕ} : Header seq revokeBlock (log k) → rCount (log k) ≤ blksz →
      ItemAt seq k (.revoke (revokedBy (log k))) (k + 1)

inductive ItemsAt (seq : ℕ) : ℕ → List Item → ℕ → Prop where
  | nil {k : ℕ} : ItemsAt seq k [] k
  | cons {k k' k'' : ℕ} {item : Item} {items : List Item} : ItemAt blksz log seq k item k' →
      ItemsAt seq k' items k'' → ItemsAt seq k (item :: items) k''

inductive LogAt : ℕ → ℕ → List (List Item) → ℕ → Prop where
  | nil {seq k : ℕ} : LogAt seq k [] k
  | cons {seq k k' k'' : ℕ} {t : List Item} {ts : List (List Item)} :
      ItemsAt blksz log seq k t k' → Header seq commitBlock (log k') →
      LogAt ((seq + 1) % 2 ^ 32) (k' + 1) ts k'' → LogAt seq k (t :: ts) k''

end Log

end UBoot.Ext4.Journal
