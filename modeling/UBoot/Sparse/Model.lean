import UBoot.Lib.LittleEndian
import UBoot.Lib.Memory

/-!
# Sparse images (common/image-sparse.c)

`data` moves over a header and chunks in memory. What the storage is asked to write is kept as a list of
requests, and its answers may depend on all of them. Numbers are the `u32`s of the source, with their
wrap; a division by zero ends the run.
-/

namespace UBoot.Sparse

open Memory LittleEndian

def einval : ℤ := -22
def eio : ℤ := -5

/- What is used of a `sparse_header_t`. -/
structure Header where
  fileHdrSz : ℕ
  chunkHdrSz : ℕ
  blkSz : ℕ
  totalBlks : ℕ
  totalChunks : ℕ
deriving DecidableEq, Repr

def headerAt (mem : Mem) (a : ℕ) : Header where
  fileHdrSz := leValue (bytes mem (a + 8) 2)
  chunkHdrSz := leValue (bytes mem (a + 10) 2)
  blkSz := leValue (bytes mem (a + 12) 4)
  totalBlks := leValue (bytes mem (a + 16) 4)
  totalChunks := leValue (bytes mem (a + 20) 4)

inductive ChunkType where
  | raw | fill | dontCare | crc32 | unknown
deriving DecidableEq, Repr

def chunkTypeOf (code : ℕ) : ChunkType :=
  if code = 0xCAC1 then .raw
  else if code = 0xCAC2 then .fill
  else if code = 0xCAC3 then .dontCare
  else if code = 0xCAC4 then .crc32
  else .unknown

structure Chunk where
  chunkType : ChunkType
  chunkSz : ℕ
  totalSz : ℕ
  data : List UInt8
deriving DecidableEq, Repr

/- `chunk->total_sz - sparse->chunk_hdr_sz`. -/
def chunkDataSize (h : Header) (totalSz : ℕ) : ℕ := (totalSz + 2 ^ 32 - h.chunkHdrSz) % 2 ^ 32

def chunkAt (mem : Mem) (h : Header) (a : ℕ) : Chunk where
  chunkType := chunkTypeOf (leValue (bytes mem a 2))
  chunkSz := leValue (bytes mem (a + 4) 4)
  totalSz := leValue (bytes mem (a + 8) 4)
  data := bytes mem (a + h.chunkHdrSz) (chunkDataSize h (leValue (bytes mem (a + 8) 4)))

/- How far `data` moves over a chunk. The bytes of a don't-care chunk are not skipped. -/
def chunkStep (h : Header) (c : Chunk) : ℕ :=
  h.chunkHdrSz + if c.chunkType = .dontCare then 0 else chunkDataSize h c.totalSz

/- A call of `storage->write`. -/
structure Request where
  offset : ℕ
  size : ℕ
  data : List UInt8
deriving DecidableEq, Repr

structure Storage where
  blockSz : ℕ
  start : ℕ
  size : ℕ
  -- the result of `write`, after the calls before it
  write : List Request → Request → ℤ
  -- CONFIG_FASTBOOT_FLASH_MMC_DEV is set
  countDontCare : Bool
  -- the allocations for a chunk succeed
  alloc : ℕ → Bool
  -- what fresh memory holds
  heap : Mem

inductive Stop where
  | divideByZero
  | ret (code : ℤ)
deriving DecidableEq, Repr

structure State where
  chunk : ℕ
  totalBlocks : ℕ
  requests : List Request
deriving DecidableEq, Repr

/- A `sparse_buffer_t`; `times` is its `repeat`. -/
structure Buffer where
  data : List UInt8
  length : ℕ
  times : ℕ
deriving DecidableEq, Repr

variable (s : Storage) (h : Header)

def sparseBlockSizeToStorage (size : ℕ) : ℕ := size * h.blkSz / s.blockSz % 2 ^ 32

def sparseGetFillBuffer (c : Chunk) : Buffer where
  data := (List.replicate (s.blockSz / 4) (c.data.take 4)).flatten ++
    bytes s.heap (s.blockSz / 4 * 4) (s.blockSz % 4)
  length := s.blockSz
  times := c.chunkSz * h.blkSz % 2 ^ 32 / s.blockSz

def sparseGetRawBuffer (c : Chunk) : Buffer where
  data := c.data
  length := chunkDataSize h c.totalSz
  times := 1

/- The next write of a buffer; `start` is that of the session. -/
def requestFor (start : ℕ) (b : Buffer) (st : State) : Request where
  offset := (start + st.totalBlocks) % 2 ^ 32
  size := b.length / s.blockSz
  data := b.data.take (b.length / s.blockSz * s.blockSz)

/- The turns of the loop over `buffer->repeat`. -/
def writeTurns (start : ℕ) (b : Buffer) : ℕ → State → Option Stop × State
  | 0, st => (none, st)
  | turns + 1, st =>
    let request := requestFor s start b st
    let ret := s.write st.requests request
    let st₁ := { st with requests := st.requests ++ [request] }
    if ret < 0 then (some (.ret ret), st₁)
    else
      writeTurns start b turns { st₁ with totalBlocks := (st.totalBlocks + ret.toNat) % 2 ^ 32 }

def writeBuffer (start : ℕ) (b : Buffer) (st : State) : Option Stop × State :=
  if s.alloc st.chunk = false then (none, st)
  else
    let blkcnt := b.length / s.blockSz * b.times % 2 ^ 32
    if (s.start + s.size) % 2 ^ 32 < (start + st.totalBlocks + blkcnt) % 2 ^ 32 then
      (some (.ret einval), st)
    else writeTurns s start b b.times st

/- `sparse_parse_chunk` and what is done with the chunk. -/
def storeChunk (start : ℕ) (c : Chunk) (st : State) : Option Stop × State :=
  match c.chunkType with
  | .raw =>
    if h.blkSz = 0 then (some .divideByZero, st)
    else if chunkDataSize h c.totalSz % h.blkSz ≠ 0 ∨
        chunkDataSize h c.totalSz / h.blkSz ≠ c.chunkSz then (some (.ret einval), st)
    else writeBuffer s start (sparseGetRawBuffer h c) st
  | .fill =>
    if chunkDataSize h c.totalSz ≠ 4 then (some (.ret einval), st)
    else writeBuffer s start (sparseGetFillBuffer s h c) st
  | .dontCare =>
    let blkcnt := sparseBlockSizeToStorage s h c.chunkSz
    (none, { st with totalBlocks :=
      if s.countDontCare then (st.totalBlocks + blkcnt) % 2 ^ 32 else st.totalBlocks })
  | .crc32 => (none, st)
  | .unknown => (some (.ret einval), st)

/- The loop over the chunks from `data` on. -/
def storeChunks (mem : Mem) (start : ℕ) : ℕ → ℕ → State → Option Stop × State
  | 0, _, st => (none, st)
  | chunks + 1, data, st =>
    let c := chunkAt mem h data
    match storeChunk s h start c st with
    | (some stop, st₁) => (some stop, st₁)
    | (none, st₁) =>
      storeChunks mem start chunks (data + chunkStep h c) { st₁ with chunk := st₁.chunk + 1 }

/- How a run ended, `last_offset` after it and what it asked of the storage. -/
structure Result where
  stop : Stop
  lastOffset : ℕ
  requests : List Request
deriving DecidableEq, Repr

/- `requests` are those of the runs before. -/
def storeSparseImage (mem : Mem) (data sessionId lastOffset : ℕ) (requests : List Request) :
    Result :=
  let h := headerAt mem data
  if s.blockSz = 0 then ⟨.divideByZero, lastOffset, requests⟩
  else if h.blkSz % s.blockSz ≠ 0 then ⟨.ret einval, lastOffset, requests⟩
  else
    let start := if 0 < sessionId then lastOffset else s.start
    match storeChunks s h mem start h.totalChunks (data + h.fileHdrSz) ⟨0, 0, requests⟩ with
    | (some stop, st) => ⟨stop, lastOffset, st.requests⟩
    | (none, st) =>
      if st.totalBlocks ≠ sparseBlockSizeToStorage s h h.totalBlks then
        ⟨.ret eio, lastOffset, st.requests⟩
      else ⟨.ret 0, (start + st.totalBlocks) % 2 ^ 32, st.requests⟩

end UBoot.Sparse
