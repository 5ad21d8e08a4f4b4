import UBoot.Lib.Memory

/-!
# DFU downloads (drivers/dfu/dfu.c)

Blocks from the host are gathered in `dfu_buf` and drained to the medium, which is a state machine of its
own. Pointers are addresses and compare without wrap; `memalign` gives no buffer of `2 ^ 31` bytes or
more, so lengths fit a C `long`.
-/

namespace UBoot.Dfu

open Memory

def enomem : ℤ := -12

/- What `write_medium` leaves: its result, `*len`, `dfu->bad_skip` and the medium. -/
structure Answer (σ : Type) where
  ret : ℤ
  len : ℤ
  badSkip : ℕ
  medium : σ

structure Setup (σ : Type) where
  -- the variable `dfu_bufsiz`
  bufsiz : Option ℕ
  -- CONFIG_SYS_DFU_DATA_BUF_SIZE
  dataBufSize : ℕ
  maxBufSize : ℕ
  -- 0 is NULL
  memalign : ℕ → ℕ
  -- `dfu_hash_algo->hash_update`
  hashUpdate : Option (ℕ → List UInt8 → ℕ)
  writeMedium : σ → ℕ → ℕ → List UInt8 → Answer σ
  flushMedium : Option (σ → ℤ × σ)

/- The "on the fly state" of a `struct dfu_entity`. -/
structure Entity where
  crc : ℕ
  offset : ℕ
  iBlkSeqNum : ℕ
  iBuf : ℕ
  iBufStart : ℕ
  iBufEnd : ℕ
  badSkip : ℕ
  inited : Bool
deriving DecidableEq, Repr

inductive Event where
  | write (offset : ℕ) (data : List UInt8) (ret : ℤ)
  | flush (ret : ℤ)
deriving DecidableEq, Repr

def Event.ret : Event → ℤ
  | .write _ _ ret => ret
  | .flush ret => ret

structure World (σ : Type) where
  dfu : Entity
  dfuBuf : ℕ
  dfuBufSize : ℕ
  mem : Mem
  medium : σ
  events : List Event

variable {σ : Type} (c : Setup σ)

/- The size that `dfu_get_buf` settles on when it allocates. -/
def chosenSize : ℕ :=
  let size := match c.bufsiz with
    | some n => if n = 0 then c.dataBufSize else n
    | none => c.dataBufSize
  if c.maxBufSize ≠ 0 ∧ c.maxBufSize < size then c.maxBufSize else size

def dfuGetBuf (w : World σ) : ℕ × World σ :=
  if w.dfuBuf ≠ 0 then (w.dfuBuf, w)
  else
    let size := chosenSize c
    let p := c.memalign size
    (p, { w with dfuBuf := p, dfuBufSize := size })

def dfuWriteBufferDrain (w : World σ) : ℤ × World σ :=
  let wSize := w.dfu.iBuf - w.dfu.iBufStart
  if wSize = 0 then (0, w)
  else
    let data := bytes w.mem w.dfu.iBufStart wSize
    let crc := match c.hashUpdate with
      | some update => update w.dfu.crc data
      | none => w.dfu.crc
    let a := c.writeMedium w.medium w.dfu.badSkip w.dfu.offset data
    (a.ret, { w with
      dfu := { w.dfu with
        crc := crc
        badSkip := a.badSkip
        -- point back
        iBuf := w.dfu.iBufStart
        offset := ((w.dfu.offset + a.len) % 2 ^ 64).toNat }
      medium := a.medium
      events := w.events ++ [.write w.dfu.offset data a.ret] })

def dfuWriteTransactionCleanup (w : World σ) : World σ :=
  { w with dfu := { w.dfu with
      crc := 0
      offset := 0
      iBlkSeqNum := 0
      iBufStart := w.dfuBuf
      iBufEnd := w.dfuBuf
      iBuf := w.dfuBuf
      inited := false } }

def dfuFlush (w : World σ) : ℤ × World σ :=
  let (ret, w₁) := dfuWriteBufferDrain c w
  if ret ≠ 0 then (ret, w₁)
  else
    match c.flushMedium with
    | some flush =>
      let (ret', m) := flush w₁.medium
      (ret', dfuWriteTransactionCleanup
        { w₁ with medium := m, events := w₁.events ++ [.flush ret'] })
    | none => (0, dfuWriteTransactionCleanup w₁)

/- The initial state of a transfer; `inited` stays clear without a buffer. -/
def initial (w : World σ) : World σ :=
  let dfu := { w.dfu with crc := 0, offset := 0, badSkip := 0, iBlkSeqNum := 0 }
  let (p, w₁) := dfuGetBuf c { w with dfu := dfu }
  if p = 0 then { w₁ with dfu := { dfu with iBufStart := p } }
  else { w₁ with dfu := { dfu with
    iBufStart := p
    iBufEnd := p + w₁.dfuBufSize
    iBuf := p
    inited := true } }

/- "flush buffer if overflow": drain when `full` holds, clean up when that fails. -/
def drainIf (full : Bool) (w : World σ) : ℤ × World σ :=
  if full then
    let (ret, w₁) := dfuWriteBufferDrain c w
    if ret ≠ 0 then (ret, dfuWriteTransactionCleanup w₁) else (0, w₁)
  else (0, w)

/- `(dfu->i_buf + size) > dfu->i_buf_end`. -/
def overflows (w : World σ) (size : ℕ) : Bool := decide (w.dfu.iBufEnd < w.dfu.iBuf + size)

def nextSeqNum (w : World σ) : World σ :=
  { w with dfu := { w.dfu with iBlkSeqNum := (w.dfu.iBlkSeqNum + 1) % 2 ^ 16 } }

/- `memcpy(dfu->i_buf, buf, size); dfu->i_buf += size`. -/
def gather (w : World σ) (buf : List UInt8) : World σ :=
  { w with
    mem := store w.mem w.dfu.iBuf buf
    dfu := { w.dfu with iBuf := w.dfu.iBuf + buf.length } }

def appendBlock (w : World σ) (buf : List UInt8) : ℤ × World σ :=
  if overflows w buf.length then (-1, dfuWriteTransactionCleanup w)
  else
    let w₁ := gather w buf
    drainIf c (buf.length = 0 || overflows w₁ buf.length) w₁

/- `dfu_write` after the initial state. -/
def writeBlock (w : World σ) (buf : List UInt8) (blkSeqNum : ℤ) : ℤ × World σ :=
  if (w.dfu.iBlkSeqNum : ℤ) ≠ blkSeqNum then (-1, dfuWriteTransactionCleanup w)
  else
    let w₁ := nextSeqNum w
    let (ret, w₂) := drainIf c (overflows w₁ buf.length) w₁
    if ret ≠ 0 then (ret, w₂) else appendBlock c w₂ buf

def dfuWrite (w : World σ) (buf : List UInt8) (blkSeqNum : ℤ) : ℤ × World σ :=
  if w.dfu.inited then writeBlock c w buf blkSeqNum
  else
    let w₁ := initial c w
    if w₁.dfu.iBufStart = 0 then (enomem, w₁) else writeBlock c w₁ buf blkSeqNum

inductive Call where
  | write (buf : List UInt8) (blkSeqNum : ℤ)
  | flush
deriving DecidableEq, Repr

def call (w : World σ) : Call → ℤ × World σ
  | .write buf blkSeqNum => dfuWrite c w buf blkSeqNum
  | .flush => dfuFlush c w

def run : World σ → List Call → List ℤ × World σ
  | w, [] => ([], w)
  | w, k :: ks =>
    let (ret, w₁) := call c w k
    let (rets, w₂) := run w₁ ks
    (ret :: rets, w₂)

/- The calls of a download: the blocks under 0, 1, 2, … modulo 65536, then the flush. -/
def download (blocks : List (List UInt8)) : List Call :=
  blocks.zipIdx.map (fun (b, i) => .write b ((i % 2 ^ 16 : ℕ) : ℤ)) ++ [.flush]

end UBoot.Dfu
