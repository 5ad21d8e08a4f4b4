import Mathlib.Tactic

/-!
# The blocks of an inode (fs/ext4/ext4_common.c)

`ext4fs_allocate_blocks` and `read_allocated_block` for inodes without extents. A block is the
function of its words; what is read behind the end of a buffer has no value. Allocations and
transfers succeed. The lists of calls are ghost annotations.
-/

namespace UBoot.Ext4

def indirectBlocks : ℕ := 12

structure Inode where
  dirBlocks : ℕ → ℕ
  indirBlock : ℕ
  doubleIndirBlock : ℕ
  tripleIndirBlock : ℕ

/- What `ext4fs_get_new_blk_no` returns, call after call. -/
structure Supply where
  number : ℕ → ℕ
  injective : Function.Injective number
  ne_zero : ∀ k, number k ≠ 0

/- The state of an allocation, with the calls that got the data blocks and those that got the
indirect blocks; these stand with their depth below the inode. -/
structure Alloc where
  calls : ℕ
  disk : ℕ → ℕ → ℕ
  totalRemainingBlocks : ℕ
  noBlksReqd : ℕ
  data : List ℕ
  indirect : List (ℕ × ℕ)

section Allocate

variable (blksz : ℕ) (supply : Supply)

def newData (a : Alloc) : ℕ × Alloc :=
  let b := supply.number a.calls
  (b, { a with
    calls := a.calls + 1
    totalRemainingBlocks := a.totalRemainingBlocks - 1
    data := a.data ++ [a.calls] })

/- The loop over the words of an indirect block; `sub` gets the block of one word. -/
def fillWords (sub : Alloc → ℕ × Alloc) : ℕ → Alloc → List ℕ × Alloc
  | 0, a => ([], a)
  | m + 1, a =>
    let (b, a₁) := sub a
    if a₁.totalRemainingBlocks = 0 then ([b], a₁)
    else
      let (bs, a₂) := fillWords sub m a₁
      (b :: bs, a₂)

/- An indirect block with all that is below it. The buffer is cleared before it is filled. -/
def newIndirect (depth : ℕ) (sub : Alloc → ℕ × Alloc) (a : Alloc) : ℕ × Alloc :=
  let b := supply.number a.calls
  let (bs, a₁) := fillWords sub (blksz / 4) { a with
    calls := a.calls + 1
    noBlksReqd := a.noBlksReqd + 1
    indirect := a.indirect ++ [(depth, a.calls)] }
  (b, { a₁ with disk := Function.update a₁.disk b fun i => bs.getD i 0 })

def allocSingleIndirectBlock (inode : Inode) (a : Alloc) : Inode × Alloc :=
  if a.totalRemainingBlocks ≠ 0 then
    let (b, a₁) := newIndirect blksz supply 1 (newData supply) a
    ({ inode with indirBlock := b }, a₁)
  else (inode, a)

def allocDoubleIndirectBlock (inode : Inode) (a : Alloc) : Inode × Alloc :=
  if a.totalRemainingBlocks ≠ 0 then
    let (b, a₁) := newIndirect blksz supply 1 (newIndirect blksz supply 2 (newData supply)) a
    ({ inode with doubleIndirBlock := b }, a₁)
  else (inode, a)

def allocTripleIndirectBlock (inode : Inode) (a : Alloc) : Inode × Alloc :=
  if a.totalRemainingBlocks ≠ 0 then
    let (b, a₁) := newIndirect blksz supply 1
      (newIndirect blksz supply 2 (newIndirect blksz supply 3 (newData supply))) a
    ({ inode with tripleIndirBlock := b }, a₁)
  else (inode, a)

/- The loop over the direct blocks, from `i` on. -/
def allocDirect : ℕ → ℕ → Inode → Alloc → Inode × Alloc
  | 0, _, inode, a => (inode, a)
  | m + 1, i, inode, a =>
    if a.totalRemainingBlocks = 0 then (inode, a)
    else
      let (b, a₁) := newData supply a
      allocDirect m (i + 1) { inode with dirBlocks := Function.update inode.dirBlocks i b } a₁

def ext4fsAllocateBlocks (inode : Inode) (disk : ℕ → ℕ → ℕ) (totalRemainingBlocks : ℕ) :
    Inode × Alloc :=
  let (inode, a) := allocDirect supply indirectBlocks 0 inode
    ⟨0, disk, totalRemainingBlocks, 0, [], []⟩
  let (inode, a) := allocSingleIndirectBlock blksz supply inode a
  let (inode, a) := allocDoubleIndirectBlock blksz supply inode a
  allocTripleIndirectBlock blksz supply inode a

end Allocate

/- `ext4fs_indir1_block` and the like, with their size and first sector. -/
structure Cache where
  allocated : Bool
  size : ℕ
  blkno : ℕ
  block : ℕ → ℕ

structure Caches where
  indir1 : Cache
  indir2 : Cache
  indir3 : Cache

section Read

variable (blksz log2Blksz : ℕ) (disk : ℕ → ℕ → ℕ)

def sector (b : ℕ) : ℕ := (b <<< log2Blksz) % 2 ^ 32

def noBlkno : ℕ := 2 ^ 32 - 1

def Cache.ready (c : Cache) : Cache :=
  if c.allocated = false ∨ blksz ≠ c.size then ⟨true, blksz, noBlkno, fun _ => 0⟩ else c

def Cache.load (c : Cache) (b : ℕ) : Cache :=
  if sector log2Blksz b ≠ (c.ready blksz).blkno
  then { c.ready blksz with blkno := sector log2Blksz b, block := disk b }
  else c.ready blksz

def Cache.word (c : Cache) (i : ℕ) : Option ℕ := if i < blksz / 4 then some (c.block i) else none

def readSingle (inode : Inode) (rblock : ℕ) (s : Caches) : Option (ℕ × Caches) :=
  let c₁ := s.indir1.load blksz log2Blksz disk inode.indirBlock
  match c₁.word blksz rblock with
  | none => none
  | some blknr => some (blknr, { s with indir1 := c₁ })

def readDouble (inode : Inode) (rblock : ℕ) (s : Caches) : Option (ℕ × Caches) :=
  let perblock := blksz / 4
  let c₁ := s.indir1.load blksz log2Blksz disk inode.doubleIndirBlock
  match c₁.word blksz (rblock / perblock) with
  | none => none
  | some child =>
    let c₂ := s.indir2.load blksz log2Blksz disk child
    match c₂.word blksz (rblock % perblock) with
    | none => none
    | some blknr => some (blknr, { s with indir1 := c₁, indir2 := c₂ })

def readTriple (inode : Inode) (rblock : ℕ) (s : Caches) : Option (ℕ × Caches) :=
  let perblockChild := blksz / 4
  let perblockParent := blksz / 4 * (blksz / 4)
  let c₁ := s.indir1.load blksz log2Blksz disk inode.tripleIndirBlock
  match c₁.word blksz (rblock / perblockParent) with
  | none => none
  | some parent =>
    let c₂ := s.indir2.load blksz log2Blksz disk parent
    -- the word that is compared is not reduced, the one that is read is
    match c₂.word blksz (rblock / perblockChild),
      c₂.word blksz (rblock / perblockChild % (blksz / 4)) with
    | some compared, some child =>
      let c₃ := s.indir3.ready blksz
      let c₃ := if sector log2Blksz compared ≠ c₃.blkno
        then { c₃ with blkno := sector log2Blksz child, block := disk child } else c₃
      match c₃.word blksz (rblock % perblockChild) with
      | none => none
      | some blknr => some (blknr, ⟨c₁, c₂, c₃⟩)
    | _, _ => none

/- An index is below 2 ^ 31, where the int of the source is the number. -/
def readAllocatedBlock (inode : Inode) (s : Caches) (fileblock : ℕ) : Option (ℕ × Caches) :=
  if fileblock < indirectBlocks then some (inode.dirBlocks fileblock, s)
  else if fileblock < indirectBlocks + blksz / 4 then
    readSingle blksz log2Blksz disk inode (fileblock - indirectBlocks) s
  else if fileblock < indirectBlocks + blksz / 4 * (blksz / 4 + 1) then
    readDouble blksz log2Blksz disk inode (fileblock - (indirectBlocks + blksz / 4)) s
  else
    readTriple blksz log2Blksz disk inode
      (fileblock - (indirectBlocks + blksz / 4 + blksz / 4 * blksz / 4)) s

def readAllocatedBlocks (inode : Inode) : Caches → List ℕ → Option (List ℕ × Caches)
  | s, [] => some ([], s)
  | s, i :: is =>
    match readAllocatedBlock blksz log2Blksz disk inode s i with
    | none => none
    | some (b, s₁) =>
      match readAllocatedBlocks inode s₁ is with
      | none => none
      | some (bs, s₂) => some (b :: bs, s₂)

end Read

end UBoot.Ext4

/-!
## The caches of indirect blocks

A cache is asked for blocks of a set on which the sector numbers it compares are told apart.
What it holds of the set is as it is on the disk, whatever was looked up before.
-/

namespace UBoot.Ext4

variable {blksz log2Blksz : ℕ} {disk : ℕ → ℕ → ℕ} {blocks : Set ℕ}

theorem ready_ready (c : Cache) : (c.ready blksz).ready blksz = c.ready blksz := by
  by_cases h : c.allocated = false ∨ blksz ≠ c.size
  · have hready : c.ready blksz = ⟨true, blksz, noBlkno, fun _ => 0⟩ := if_pos h
    rw [hready]
    exact if_neg (by simp)
  · have hready : c.ready blksz = c := if_neg h
    rw [hready, hready]

theorem ready_of_size {c : Cache} (h : c.allocated = true) (hsize : c.size = blksz) :
    c.ready blksz = c := if_neg (by simp [h, hsize])

variable (blksz) in
theorem ready_size (c : Cache) : (c.ready blksz).allocated = true ∧ (c.ready blksz).size = blksz := by
  rw [Cache.ready]
  split
  · exact ⟨rfl, rfl⟩
  · next h =>
    rw [not_or] at h
    exact ⟨by simpa using h.1, (not_not.mp h.2).symm⟩

def Cache.Holds (blksz log2Blksz : ℕ) (disk : ℕ → ℕ → ℕ) (blocks : Set ℕ) (c : Cache) : Prop :=
  ∀ b ∈ blocks, sector log2Blksz b = (c.ready blksz).blkno → (c.ready blksz).block = disk b

theorem Cache.Holds.load {c : Cache} {b : ℕ} (hinj : Set.InjOn (sector log2Blksz) blocks)
    (h : c.Holds blksz log2Blksz disk blocks) (hb : b ∈ blocks) :
    (c.load blksz log2Blksz disk b).block = disk b ∧
      (c.load blksz log2Blksz disk b).Holds blksz log2Blksz disk blocks := by
  obtain ⟨halloc, hsize⟩ := ready_size blksz c
  rw [Cache.load]
  by_cases hmiss : sector log2Blksz b ≠ (c.ready blksz).blkno
  · rw [if_pos hmiss]
    refine ⟨rfl, ?_⟩
    intro b' hb' hsector
    rw [ready_of_size (by exact halloc) (by exact hsize)] at hsector ⊢
    rw [hinj hb' hb hsector]
  · rw [if_neg hmiss]
    refine ⟨h b hb (not_not.mp hmiss), ?_⟩
    intro b' hb' hsector
    rw [ready_ready] at hsector ⊢
    exact h b' hb' hsector

theorem holds_unallocated {c : Cache} (h : c.allocated = false)
    (hno : ∀ b ∈ blocks, sector log2Blksz b ≠ noBlkno) : c.Holds blksz log2Blksz disk blocks := by
  intro b hb hsector
  have hready : c.ready blksz = ⟨true, blksz, noBlkno, fun _ => 0⟩ := if_pos (.inl h)
  rw [hready] at hsector
  exact absurd hsector (hno b hb)

end UBoot.Ext4
