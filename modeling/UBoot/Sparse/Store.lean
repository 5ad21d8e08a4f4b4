import UBoot.Sparse.Model

/-!
# What storing a sparse image writes

If no sum wraps at a chunk that the run comes to, all writes stay inside the partition, and on
return value 0 the storage holds the expansion.
-/

namespace UBoot.Sparse

open Memory LittleEndian List Nat

section Lists

variable (s : Storage) (h : Header)

/- The chunks from `data` on, one behind the other. -/
def chunksAt (mem : Mem) (h : Header) : ℕ → ℕ → List Chunk
  | 0, _ => []
  | chunks + 1, data =>
    let c := chunkAt mem h data
    c :: chunksAt mem h chunks (data + h.chunkHdrSz + chunkDataSize h c.totalSz)

def storeList (start : ℕ) : List Chunk → State → Option Stop × State
  | [], st => (none, st)
  | c :: cs, st =>
    match storeChunk s h start c st with
    | (some stop, st₁) => (some stop, st₁)
    | (none, st₁) => storeList start cs { st₁ with chunk := st₁.chunk + 1 }

def Bare (cs : List Chunk) : Prop :=
  ∀ c ∈ cs, c.chunkType = .dontCare → chunkDataSize h c.totalSz = 0

/- `P` of each chunk that the run comes to, of the chunks behind it and of the state there. -/
def Along (P : Chunk → List Chunk → State → Prop) (start : ℕ) : List Chunk → State → Prop
  | [], _ => True
  | c :: cs, st => P c cs st ∧ ∀ st₁, storeChunk s h start c st = (none, st₁) →
    Along P start cs { st₁ with chunk := st₁.chunk + 1 }

variable {s h} {P Q : Chunk → List Chunk → State → Prop} {start : ℕ} {cs : List Chunk} {st : State}

theorem Along.imp (himp : ∀ c rest st, P c rest st → Q c rest st) (hp : Along s h P start cs st) :
    Along s h Q start cs st := by
  induction cs generalizing st with
  | nil => trivial
  | cons c cs ih => exact ⟨himp _ _ _ hp.1, fun st₁ hone => ih (hp.2 st₁ hone)⟩

variable (h) in
/- No bytes of a don't-care chunk stand in front of another chunk. -/
def BareAt (c : Chunk) (rest : List Chunk) (_ : State) : Prop :=
  c.chunkType = .dontCare → rest ≠ [] → chunkDataSize h c.totalSz = 0

theorem Bare.along (hbare : Bare h cs) (start : ℕ) (st : State) : Along s h (BareAt h) start cs st := by
  induction cs generalizing st with
  | nil => trivial
  | cons c cs ih =>
    exact ⟨fun hdc _ => hbare c (mem_cons_self ..) hdc, fun _ _ =>
      ih (fun c' hc' => hbare c' (mem_cons_of_mem _ hc')) _⟩

theorem storeChunks_eq (mem : Mem) (start chunks data : ℕ) (st : State)
    (hbare : Along s h (BareAt h) start (chunksAt mem h chunks data) st) :
    storeChunks s h mem start chunks data st = storeList s h start (chunksAt mem h chunks data) st := by
  induction chunks generalizing data st with
  | zero => rfl
  | succ chunks ih =>
    rw [storeChunks, chunksAt, storeList]
    cases hone : storeChunk s h start (chunkAt mem h data) st with
    | mk stop st₁ =>
      cases stop with
      | some stop => rfl
      | none =>
        dsimp only
        cases chunks with
        | zero => rfl
        | succ chunks =>
          have hstep : data + chunkStep h (chunkAt mem h data) =
              data + h.chunkHdrSz + chunkDataSize h (chunkAt mem h data).totalSz := by
            unfold chunkStep
            split
            · next hdc => rw [hbare.1 hdc (cons_ne_nil _ _), Nat.add_zero, Nat.add_zero]
            · rw [Nat.add_assoc]
          rw [hstep]
          exact ih _ _ (hbare.2 st₁ hone)

end Lists

section Blocks

variable (s : Storage) (h : Header)

def blocksOf (c : Chunk) : ℕ :=
  match c.chunkType with
  | .raw | .fill | .dontCare => c.chunkSz * h.blkSz / s.blockSz
  | .crc32 | .unknown => 0

def totalOf (cs : List Chunk) : ℕ := (cs.map (blocksOf s h)).sum

def Inside (r : Request) : Prop := s.start ≤ r.offset ∧ r.offset + r.size ≤ s.start + s.size

variable {s h} {start : ℕ}

/- A chunk can be written: no sum of the bound check wraps, the session starts in the partition, and
the storage does not write more than it is asked for. -/
structure Writable (s : Storage) (start blocks : ℕ) (st : State) : Prop where
  alloc : s.alloc st.chunk = true
  behind : s.start ≤ start
  limit : s.start + s.size < 2 ^ 32
  room : start + st.totalBlocks + blocks < 2 ^ 32
  answers : ∀ new r, s.write (st.requests ++ new) r ≤ r.size

/- The chunks that the source's `u32`s can cope with, in the state in which the run comes to them. -/
def ChunkTame (s : Storage) (h : Header) (start : ℕ) (c : Chunk) (rest : List Chunk) (st : State) : Prop :=
  match c.chunkType with
  | .raw => h.blkSz ≠ 0 ∧
    (chunkDataSize h c.totalSz = c.chunkSz * h.blkSz → Writable s start (blocksOf s h c) st)
  | .fill => chunkDataSize h c.totalSz = 4 → 0 < c.chunkSz * h.blkSz →
    c.chunkSz * h.blkSz < 2 ^ 32 ∧ 4 ∣ s.blockSz ∧ Writable s start (blocksOf s h c) st
  | .dontCare => (rest ≠ [] → chunkDataSize h c.totalSz = 0) ∧
    (s.countDontCare = true → st.totalBlocks + blocksOf s h c < 2 ^ 32)
  | .crc32 | .unknown => True

theorem ChunkTame.blocks {c : Chunk} {rest : List Chunk} {st : State}
    (ht : ChunkTame s h start c rest st) (hzero : h.blkSz = 0) : c.chunkType ≠ .raw := by
  intro hraw
  unfold ChunkTame at ht
  rw [hraw] at ht
  exact ht.1 hzero

/- All that was asked for lies in the partition. -/
def AsksInside (s : Storage) (st st' : State) : Prop :=
  ∃ new, st'.requests = st.requests ++ new ∧ ∀ r ∈ new, Inside s r

theorem AsksInside.refl (s : Storage) (st : State) : AsksInside s st st := ⟨[], by simp, by simp⟩

end Blocks

def fillBytes (n : ℕ) (word : List UInt8) : List UInt8 :=
  (List.replicate (n / 4) (word.take 4)).flatten

def chunkBytes (h : Header) (c : Chunk) : ℕ :=
  match c.chunkType with
  | .raw | .fill | .dontCare => c.chunkSz * h.blkSz
  | .crc32 | .unknown => 0

/- A chunk expanded at the byte `a` of a storage. -/
def paint (h : Header) (dev : Mem) (a : ℕ) (c : Chunk) : Mem :=
  match c.chunkType with
  | .raw => store dev a (c.data.take (c.chunkSz * h.blkSz))
  | .fill => store dev a (fillBytes (c.chunkSz * h.blkSz) c.data)
  | .dontCare | .crc32 | .unknown => dev

def expand (h : Header) : Mem → ℕ → List Chunk → Mem
  | dev, _, [] => dev
  | dev, a, c :: cs => expand h (paint h dev a c) (a + chunkBytes h c) cs

/- `write` returns the count it was asked for, as an `int`. -/
def Storage.Writes (s : Storage) : Prop := ∀ rs r, s.write rs r = (r.size : ℤ).bmod (2 ^ 32)

section Expansion

variable {s : Storage} {h : Header} {start : ℕ}

variable {count : ℕ}

theorem bmod_count (hc : count < 2 ^ 32) (hpos : ¬ (count : ℤ).bmod (2 ^ 32) < 0) :
    (count : ℤ).bmod (2 ^ 32) = count := by
  rw [Int.bmod_def] at hpos ⊢
  split at hpos
  · next hlt =>
    rw [if_pos hlt]
    lia
  · lia

/- What the storage and the header of an image must be like for the expansion. -/
structure Proper (s : Storage) (h : Header) : Prop where
  writes : s.Writes
  counted : s.countDontCare = true
  pos : 0 < s.blockSz
  dvd : s.blockSz ∣ h.blkSz

def ErrorOnly (stop : Option Stop) : Prop := ∀ x, stop = some x → ∃ code, x = .ret code ∧ code < 0

theorem errorOnly_none : ErrorOnly none := fun _ h => by cases h

theorem errorOnly_ret {code : ℤ} (h : code < 0) : ErrorOnly (some (.ret code)) :=
  fun _ hx => ⟨code, (Option.some.inj hx).symm, h⟩

theorem writeTurns_stop (b : Buffer) (turns : ℕ) (st : State) :
    ErrorOnly (writeTurns s start b turns st).1 := by
  induction turns generalizing st with
  | zero => exact errorOnly_none
  | succ turns ih =>
    unfold writeTurns
    simp only
    split
    · next hneg => exact errorOnly_ret hneg
    · exact ih _

theorem writeBuffer_stop (b : Buffer) (st : State) : ErrorOnly (writeBuffer s start b st).1 := by
  unfold writeBuffer
  split
  · exact errorOnly_none
  · simp only
    split
    · exact errorOnly_ret (by decide)
    · exact writeTurns_stop b b.times st

theorem storeChunk_stop (c : Chunk) (hraw : h.blkSz = 0 → c.chunkType ≠ .raw) (st : State) :
    ErrorOnly (storeChunk s h start c st).1 := by
  unfold storeChunk
  cases htype : c.chunkType with
  | raw =>
    have hne : h.blkSz ≠ 0 := fun hz => hraw hz htype
    simp only [if_neg hne]
    split
    · exact errorOnly_ret (by decide)
    · exact writeBuffer_stop _ st
  | fill =>
    simp only
    split
    · exact errorOnly_ret (by decide)
    · exact writeBuffer_stop _ st
  | dontCare => exact errorOnly_none
  | crc32 => exact errorOnly_none
  | unknown => exact errorOnly_ret (by decide)

end Expansion

def startOf (s : Storage) (sessionId lastOffset : ℕ) : ℕ :=
  if 0 < sessionId then lastOffset else s.start

section Images

variable {s : Storage} {mem : Mem} {data sessionId lastOffset : ℕ}

/- The source's `u32`s can cope with each chunk that the run comes to. -/
def Tame (s : Storage) (mem : Mem) (data sessionId lastOffset : ℕ) (before : List Request) : Prop :=
  let h := headerAt mem data
  let start := startOf s sessionId lastOffset
  h.blkSz % s.blockSz = 0 → Along s h (ChunkTame s h start) start
    (chunksAt mem h h.totalChunks (data + h.fileHdrSz)) ⟨0, 0, before⟩

end Images

/- The bytes of an image of version 1.0 with 28 bytes of header: the block size, the number
of blocks and, for each chunk, its type code, its size in blocks and its data. -/
def imageBytes (blkSz totalBlks : ℕ) (chunks : List (ℕ × ℕ × List UInt8)) : List UInt8 :=
  List.flatten [leBytes 4 0xed26ff3a, leBytes 2 1, leBytes 2 0, leBytes 2 28, leBytes 2 12,
    leBytes 4 blkSz, leBytes 4 totalBlks, leBytes 4 chunks.length, leBytes 4 0,
    chunks.flatMap fun c => List.flatten [leBytes 2 c.1, leBytes 2 0, leBytes 4 c.2.1,
      leBytes 4 (12 + c.2.2.length), c.2.2]]

def imageMem (bs : List UInt8) : Mem := fun a => bs.getD a 0

/- Blocks of four bytes, from block 10 on; every write is carried out. -/
def smallStorage : Storage where
  blockSz := 4
  start := 10
  size := 100
  write := fun _ r => (r.size : ℤ).bmod (2 ^ 32)
  countDontCare := true
  alloc := fun _ => true
  heap := fun _ => 0

/- A raw block, a block left alone and two filled blocks, of eight bytes each. -/
def smallImage : Mem := imageMem (imageBytes 8 4
  [(0xCAC1, 1, [1, 2, 3, 4, 5, 6, 7, 8]), (0xCAC3, 1, []), (0xCAC2, 2, [9, 9, 9, 9])])

end UBoot.Sparse
