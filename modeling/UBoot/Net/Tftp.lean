import UBoot.Lib.Memory
import UBoot.Lib.Strto

/-!
# TFTP transfers (net/tftp.c)

The globals of the file are one record, and the functions pass it on. `ulong` has 32
bits, as on the AM5728. A call sends at most one datagram, to `remotePort`.
Built with `CONFIG_CMD_TFTPPUT`, without multicast, `tsize`, flash targets and the
server side.
-/

namespace UBoot.Tftp

open Memory

inductive Phase
  | sendRrq | data | tooLarge | badMagic | oack | recvWrq | sendWrq
deriving DecidableEq, Repr

/- `net_state`. After `net_start_again` the handlers of the transfer are gone. -/
inductive NetState
  | loop | startAgain | success | fail
deriving DecidableEq, Repr

structure Request where
  filename : List UInt8
  mode : String
  timeout : ℕ
  blksize : ℕ
deriving DecidableEq, Repr

/- Block numbers are the 16 bits of the wire. `oack` carries the option text. -/
inductive Packet
  | rrq (req : Request)
  | wrq (req : Request)
  | data (block : ℕ) (payload : List UInt8)
  | ack (block : ℕ)
  | error (code : ℕ) (msg : String)
  | oack (opts : List UInt8)
deriving DecidableEq, Repr

structure Config where
  loadAddr : ℕ
  saveAddr : ℕ
  saveSize : ℕ
  filename : List UInt8
  timeoutMs : ℕ
  blockSizeOption : ℕ
  timeoutCountMax : ℕ
  ourPort : ℕ
  ethHdrSize : ℕ
  saveSize_lt : saveSize < 2 ^ 32

/- `overrun` records a store behind the end of `net_tx_packet`. -/
structure Client where
  state : Phase
  remotePort : ℕ
  ourPort : ℕ
  timeoutCount : ℕ
  timeoutCountMax : ℕ
  curBlock : ℕ
  prevBlock : ℕ
  blockWrap : ℕ
  blockWrapOffset : ℕ
  putActive : Bool
  putFinalBlockSent : Bool
  blockSize : ℕ
  netBootFileSize : ℕ
  net : NetState
  overrun : Bool
  mem : Mem

def wellKnownPort : ℕ := 69
def tftpBlockSize : ℕ := 512
def sequenceSize : ℕ := 2 ^ 16
def pktSizeAlign : ℕ := 1536
def ipUdpHdrSize : ℕ := 28

/- Conversion to `ulong`. -/
def ulong (x : ℤ) : ℕ := (x % 2 ^ 32).toNat

/- The `n` bytes from `a` on; addresses wrap. -/
def region (mem : Mem) (a n : ℕ) : List UInt8 := (List.range n).map fun i => mem ((a + i) % 2 ^ 32)

/- `memcpy(ptr, src, len)` to the address `a`. -/
def copyIn (mem : Mem) (a : ℕ) (src : List UInt8) : Mem :=
  fun x => src.getD (ulong ((x : ℤ) - a)) (mem x)

theorem region_append (mem : Mem) (a n m : ℕ) :
    region mem a (n + m) = region mem a n ++ region mem (a + n) m :=
  bytes_add (fun x => mem (x % 2 ^ 32)) a n m

@[simp] theorem length_region (mem : Mem) (a n : ℕ) : (region mem a n).length = n := by
  simp [region]

theorem ulong_of_lt {n : ℕ} (h : n < 2 ^ 32) : ulong n = n := by
  simp only [ulong]
  omega

section Blocks

variable (cfg : Config) (c : Client)

/- `block` is an `int`; the product wraps. -/
def storeBlock (block : ℤ) (src : List UInt8) : Client :=
  let offset := ulong (block * c.blockSize + c.blockWrapOffset)
  let newsize := ulong (offset + src.length)
  { c with
    mem := copyIn c.mem (cfg.loadAddr + offset) src
    netBootFileSize := if c.netBootFileSize < newsize then newsize else c.netBootFileSize }

def newTransfer : Client :=
  { c with prevBlock := 0, blockWrap := 0, blockWrapOffset := 0, putFinalBlockSent := false }

def loadBlock (block len : ℕ) : List UInt8 :=
  let offset := ulong (((block : ℤ) - 1) * len + c.blockWrapOffset)
  let tosend := min (ulong ((c.netBootFileSize : ℤ) - offset)) len
  region c.mem (cfg.saveAddr + offset) tosend

/- `show_block_marker` only prints. -/
def updateBlockNumber : Client :=
  if c.curBlock = 0 ∧ c.prevBlock ≠ 0 then
    { c with
      blockWrap := (c.blockWrap + 1) % 2 ^ 32
      blockWrapOffset := (c.blockWrapOffset + c.blockSize * sequenceSize) % 2 ^ 32
      timeoutCount := 0 }
  else c

def tftpComplete : Client := { c with net := .success }

def netStartAgain : Client := { c with net := .startAgain }

def request : Request where
  filename := cfg.filename
  mode := "octet"
  timeout := cfg.timeoutMs / 1000
  blksize := cfg.blockSizeOption

/- `load_block` copies to `net_tx_packet`, behind the headers and the four bytes of a DATA packet. -/
def overruns (loaded : List UInt8) : Bool :=
  pktSizeAlign < cfg.ethHdrSize + ipUdpHdrSize + 4 + loaded.length

def tftpSend : Client × Packet :=
  match c.state with
  | .sendRrq => (c, .rrq (request cfg))
  | .sendWrq => (c, .wrq (request cfg))
  | .oack | .recvWrq | .data =>
    if c.putActive then
      let loaded := loadBlock cfg c c.curBlock c.blockSize
      ({ c with
          putFinalBlockSent := decide (loaded.length < c.blockSize)
          overrun := c.overrun || overruns cfg loaded },
        .data (c.curBlock % 2 ^ 16) loaded)
    else (c, .ack (c.curBlock % 2 ^ 16))
  | .tooLarge => (c, .error 3 "File too large")
  | .badMagic => (c, .error 2 "File has bad magic")

def sending : Client × Option Packet :=
  let (c', pkt) := tftpSend cfg c
  (c', some pkt)

end Blocks

def blksizeName : List UInt8 := [98, 108, 107, 115, 105, 122, 101, 0]

/- `for (i = 0; i+8 < len; i++)`: the last match counts. -/
def ackedBlockSize (blockSize : ℕ) : List UInt8 → ℕ
  | [] => blockSize
  | ch :: rest =>
    if 8 < (ch :: rest).length then
      let size := if (ch :: rest).take 8 = blksizeName then
        (Strto.simpleStrtoul UInt8.toNat 32 ((ch :: rest).drop 8) 10).1 % 2 ^ 16 else blockSize
      ackedBlockSize size rest
    else blockSize

/- `options` is the text of its OACK, if it sends one. -/
structure Server where
  port : ℕ
  options : Option (List UInt8)

def Server.blockSize (srv : Server) : ℕ :=
  match srv.options with
  | some opts => ackedBlockSize tftpBlockSize opts
  | none => tftpBlockSize

theorem ackedBlockSize_lt (opts : List UInt8) {size : ℕ} (h : size < 2 ^ 16) :
    ackedBlockSize size opts < 2 ^ 16 := by
  induction opts generalizing size with
  | nil => exact h
  | cons ch rest ih =>
    simp only [ackedBlockSize]
    split
    · apply ih
      split
      · exact Nat.mod_lt _ (by norm_num)
      · exact h
    · exact h

theorem Server.blockSize_lt (srv : Server) : srv.blockSize < 2 ^ 16 := by
  unfold blockSize
  split
  · exact ackedBlockSize_lt _ (by norm_num [tftpBlockSize])
  · norm_num [tftpBlockSize]

section Handlers

variable (cfg : Config) (c : Client)

def handleAck (block : ℕ) : Client × Option Packet :=
  if c.putActive then
    if c.putFinalBlockSent then (tftpComplete c, none)
    else
      -- the number is taken over even when it acknowledges another block
      let c₁ := updateBlockNumber { c with curBlock := (block + 1) % 2 ^ 16 }
      if c.curBlock = block then sending cfg c₁ else (c₁, none)
  else (c, none)

def handleOack (src : ℕ) (opts : List UInt8) : Client × Option Packet :=
  let c₁ := { c with
    state := .oack, remotePort := src, blockSize := ackedBlockSize c.blockSize opts }
  if c.putActive then sending cfg { c₁ with state := .data, curBlock := (c.curBlock + 1) % 2 ^ 32 }
  else sending cfg c₁

/- A block other than the previous one is stored and acknowledged; a short one is the last. -/
def acceptBlock (payload : List UInt8) : Client × Option Packet :=
  if c.curBlock = c.prevBlock then (c, none)
  else
    let c₁ := { c with prevBlock := c.curBlock, timeoutCountMax := cfg.timeoutCountMax }
    let (c₂, pkt) := tftpSend cfg (storeBlock cfg c₁ ((c.curBlock : ℤ) - 1) payload)
    (if payload.length < c₂.blockSize then tftpComplete c₂ else c₂, some pkt)

def handleData (src block : ℕ) (payload : List UInt8) : Client × Option Packet :=
  let c₁ := updateBlockNumber { c with curBlock := block }
  if c.state = .sendRrq ∨ c.state = .oack ∨ c.state = .recvWrq then
    let c₂ := newTransfer { c₁ with state := .data, remotePort := src }
    if block ≠ 1 then (netStartAgain c₂, none) else acceptBlock cfg c₂ payload
  else acceptBlock cfg c₁ payload

def handleError (code : ℕ) : Client :=
  if code = 1 ∨ code = 2 then { c with net := .fail } else netStartAgain c

/- The `switch` on the opcode. Requests are ignored: this is not a server. -/
def handlePacket (src : ℕ) : Packet → Client × Option Packet
  | .rrq _ | .wrq _ => (c, none)
  | .ack block => handleAck cfg c block
  | .oack opts => handleOack cfg c src opts
  | .data block payload => handleData cfg c src block payload
  | .error code _ => (handleError c code, none)

def tftpHandler (dest src : ℕ) (pkt : Packet) : Client × Option Packet :=
  if dest ≠ c.ourPort then (c, none)
  else if c.state ≠ .sendRrq ∧ src ≠ c.remotePort ∧ c.state ≠ .recvWrq ∧ c.state ≠ .sendWrq then
    (c, none)
  else handlePacket cfg c src pkt

def tftpTimeoutHandler : Client × Option Packet :=
  let c₁ := { c with timeoutCount := c.timeoutCount + 1 }
  if c.timeoutCountMax < c.timeoutCount + 1 then (netStartAgain c₁, none)
  else if c.state ≠ .recvWrq then sending cfg c₁
  else (c₁, none)

/- `tftp_start` as `net_loop` calls it; what an earlier transfer left in `c` stays. -/
def tftpStart (put : Bool) : Client × Packet :=
  let c₀ := { c with
    net := .loop
    netBootFileSize := 0
    overrun := false
    putActive := put }
  let c₁ := if put then
      newTransfer { c₀ with netBootFileSize := cfg.saveSize, state := .sendWrq }
    else { c₀ with state := .sendRrq }
  tftpSend cfg { c₁ with
    timeoutCountMax := cfg.timeoutCountMax
    remotePort := wellKnownPort
    timeoutCount := 0
    ourPort := cfg.ourPort
    curBlock := 0
    blockSize := tftpBlockSize }

end Handlers

section Calls

variable {cfg : Config} {c : Client}

variable (cfg c) in
theorem tftpHandler_cases (dest src : ℕ) (pkt : Packet) :
    tftpHandler cfg c dest src pkt = (c, none) ∨
      tftpHandler cfg c dest src pkt = handlePacket cfg c src pkt := by
  unfold tftpHandler
  split
  · exact .inl rfl
  · split
    · exact .inl rfl
    · exact .inr rfl

theorem tftpHandler_of_data {dest src : ℕ} (pkt : Packet) (hd : c.ourPort = dest)
    (hr : c.remotePort = src) : tftpHandler cfg c dest src pkt = handlePacket cfg c src pkt := by
  subst hd hr
  simp only [tftpHandler, ne_eq, not_true_eq_false, if_false, false_and, and_false]

theorem tftpHandler_of_request {dest src : ℕ} (pkt : Packet)
    (hs : c.state = .sendRrq ∨ c.state = .sendWrq) (hd : c.ourPort = dest) :
    tftpHandler cfg c dest src pkt = handlePacket cfg c src pkt := by
  subst hd
  cases hs with
  | inl hs => simp only [tftpHandler, hs, ne_eq, not_true_eq_false, if_false, false_and]
  | inr hs => simp only [tftpHandler, hs, ne_eq, not_true_eq_false, if_false, and_false]

theorem updateBlockNumber_same (h : c.prevBlock = 0 ∨ c.curBlock ≠ 0) : updateBlockNumber c = c := by
  have hne : ¬(c.curBlock = 0 ∧ c.prevBlock ≠ 0) := by
    intro hc
    cases h with
    | inl h => exact hc.2 h
    | inr h => exact h hc.1
  exact if_neg hne

theorem sending_data (hs : c.state = .data) (hp : c.putActive = true) :
    sending cfg c =
      ({ c with
          putFinalBlockSent :=
            decide ((loadBlock cfg c c.curBlock c.blockSize).length < c.blockSize)
          overrun := c.overrun || overruns cfg (loadBlock cfg c c.curBlock c.blockSize) },
        some (.data (c.curBlock % 2 ^ 16) (loadBlock cfg c c.curBlock c.blockSize))) := by
  simp only [sending, tftpSend, hs, hp, if_true]

theorem sending_net : (sending cfg c).1.net = c.net := by
  simp only [sending, tftpSend]
  split
  all_goals first | rfl | (split <;> rfl)

theorem handleAck_final (block : ℕ) (hp : c.putActive = true) (hf : c.putFinalBlockSent = true) :
    handleAck cfg c block = (tftpComplete c, none) := by
  simp only [handleAck, hp, hf, if_true]

theorem handleAck_more (block : ℕ) (hp : c.putActive = true) (hf : c.putFinalBlockSent = false) :
    handleAck cfg c block =
      let c₁ := updateBlockNumber { c with curBlock := (block + 1) % 2 ^ 16 }
      if c.curBlock = block then sending cfg c₁ else (c₁, none) := by
  simp only [handleAck, hp, hf, if_true, Bool.false_eq_true, if_false]

theorem handleOack_put (src : ℕ) (opts : List UInt8) (hp : c.putActive = true) :
    handleOack cfg c src opts =
      sending cfg { c with
        state := .data
        remotePort := src
        blockSize := ackedBlockSize c.blockSize opts
        curBlock := (c.curBlock + 1) % 2 ^ 32 } := by
  simp only [handleOack, hp, if_true]

end Calls

end UBoot.Tftp
