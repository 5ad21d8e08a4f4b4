import UBoot.Net.Tftp

/-!
# Downloads over a lossy network that keeps the order

A server that sends block `k + 1` only after the ACK of block `k`, and a channel each way that loses
and repeats packets but keeps their order. This leaves two candidates for the index of a block at
any time.
-/

namespace UBoot.Tftp

open Memory List Nat

/- The payload of block `m`, the first one being block 1. -/
def fileBlock (file : List UInt8) (bs m : ℕ) : List UInt8 := (file.drop ((m - 1) * bs)).take bs

/- What the server sends as block `m`; block 0 is the OACK. -/
def serverPacket (srv : Server) (file : List UInt8) (m : ℕ) : Packet :=
  if m = 0 then .oack (srv.options.getD [])
  else .data (m % 2 ^ 16) (fileBlock file srv.blockSize m)

/- `current` is the block sent last. A short block is the last one. -/
def serve (srv : Server) (file : List UInt8) : Option ℕ → Packet → Option ℕ × Option Packet
  | none, .rrq _ =>
    let m := if srv.options.isSome then 0 else 1
    (some m, some (serverPacket srv file m))
  | some m, .ack j =>
    if j = m % 2 ^ 16 ∧ (m = 0 ∨ srv.blockSize ≤ (fileBlock file srv.blockSize m).length) then
      (some (m + 1), some (serverPacket srv file (m + 1)))
    else (some m, none)
  | current, _ => (current, none)

structure Download where
  client : Client
  current : Option ℕ
  toClient : List Packet
  toServer : List Packet

def Download.start (cfg : Config) (c₀ : Client) : Download :=
  let (c, pkt) := tftpStart cfg c₀ false
  ⟨c, none, [], [pkt]⟩

/- A packet that is handled stays in front, so that it can come again; it leaves the channel
when it is lost, for good or after it has been handled. -/
inductive GetStep (cfg : Config) (srv : Server) (file : List UInt8) : Download → Download → Prop
  | handle {d : Download} {pkt : Packet} {rest : List Packet} (net : d.client.net = .loop)
      (head : d.toClient = pkt :: rest) :
      GetStep cfg srv file d { d with
        client := (tftpHandler cfg d.client cfg.ourPort srv.port pkt).1
        toServer := d.toServer ++ (tftpHandler cfg d.client cfg.ourPort srv.port pkt).2.toList }
  | lose {d : Download} {pkt : Packet} {rest : List Packet} (head : d.toClient = pkt :: rest) :
      GetStep cfg srv file d { d with toClient := rest }
  | serve {d : Download} {pkt : Packet} {rest : List Packet} (head : d.toServer = pkt :: rest) :
      GetStep cfg srv file d { d with
        current := (serve srv file d.current pkt).1
        toClient := d.toClient ++ (serve srv file d.current pkt).2.toList }
  | loseAck {d : Download} {pkt : Packet} {rest : List Packet} (head : d.toServer = pkt :: rest) :
      GetStep cfg srv file d { d with toServer := rest }
  | resend {d : Download} {m : ℕ} (sent : d.current = some m) :
      GetStep cfg srv file d { d with toClient := d.toClient ++ [serverPacket srv file m] }
  | timeout {d : Download} (net : d.client.net = .loop) :
      GetStep cfg srv file d { d with
        client := (tftpTimeoutHandler cfg d.client).1
        toServer := d.toServer ++ (tftpTimeoutHandler cfg d.client).2.toList }

def GetRuns (cfg : Config) (srv : Server) (file : List UInt8) : Download → Download → Prop :=
  Relation.ReflTransGen (GetStep cfg srv file)

section Client

variable (cfg : Config) (srv : Server)

structure Asking (c : Client) : Prop where
  state : c.state = .sendRrq
  ourPort : c.ourPort = cfg.ourPort
  putActive : c.putActive = false
  curBlock : c.curBlock = 0
  blockSize : c.blockSize = tftpBlockSize

structure Optioned (c : Client) : Prop where
  options : srv.options.isSome
  state : c.state = .oack
  ourPort : c.ourPort = cfg.ourPort
  remotePort : c.remotePort = srv.port
  putActive : c.putActive = false
  curBlock : c.curBlock = 0
  blockSize : c.blockSize = srv.blockSize

/- Block `k` was the last one stored. -/
structure Got (k : ℕ) (c : Client) : Prop where
  pos : 1 ≤ k
  state : c.state = .data
  ourPort : c.ourPort = cfg.ourPort
  remotePort : c.remotePort = srv.port
  putActive : c.putActive = false
  curBlock : c.curBlock = k % 2 ^ 16
  prevBlock : c.prevBlock = k % 2 ^ 16
  wrapOffset : c.blockWrapOffset = srv.blockSize * 2 ^ 16 * (k / 2 ^ 16) % 2 ^ 32
  blockSize : c.blockSize = srv.blockSize

inductive ClientAt : ℕ → Client → Prop
  | asking {c : Client} (h : Asking cfg c) : ClientAt 0 c
  | optioned {c : Client} (h : Optioned cfg srv c) : ClientAt 0 c
  | got {k : ℕ} {c : Client} (h : Got cfg srv k c) : ClientAt k c

/- The first `k` blocks are in memory. -/
structure Holds (file : List UInt8) (k : ℕ) (c : Client) : Prop where
  mem : region c.mem cfg.loadAddr (min (k * srv.blockSize) file.length) =
    file.take (k * srv.blockSize)
  size : c.netBootFileSize = min (k * srv.blockSize) file.length

end Client

section Handling

variable {cfg : Config} {srv : Server} {file : List UInt8} {c : Client} {k : ℕ}

variable (cfg) in
theorem acceptBlock_new (payload : List UInt8) (hs : c.state = .data) (hp : c.putActive = false)
    (hne : c.curBlock ≠ c.prevBlock) : ∃ c', acceptBlock cfg c payload =
      (if payload.length < c.blockSize then tftpComplete c' else c',
        some (.ack (c.curBlock % 2 ^ 16))) ∧
      c' = storeBlock cfg
        { c with prevBlock := c.curBlock, timeoutCountMax := cfg.timeoutCountMax }
        ((c.curBlock : ℤ) - 1) payload := by
  refine ⟨_, ?_, rfl⟩
  simp only [acceptBlock, if_neg hne, tftpSend, storeBlock, hs, hp, Bool.false_eq_true, if_false]

theorem ackedBlockSize_const (opts : List UInt8) :
    (∀ size, ackedBlockSize size opts = size) ∨ ∃ v, ∀ size, ackedBlockSize size opts = v := by
  induction opts with
  | nil => exact .inl fun _ => rfl
  | cons ch rest ih =>
    simp only [ackedBlockSize]
    split
    · split
      · exact .inr ⟨_, fun _ => rfl⟩
      · exact ih
    · exact .inl fun _ => rfl

theorem ackedBlockSize_again (size : ℕ) (opts : List UInt8) :
    ackedBlockSize (ackedBlockSize size opts) opts = ackedBlockSize size opts := by
  cases ackedBlockSize_const opts with
  | inl h => rw [h, h]
  | inr h =>
    obtain ⟨v, hv⟩ := h
    rw [hv, hv]

theorem handle_oack (h : Asking cfg c ∨ Optioned cfg srv c) (ho : srv.options.isSome) :
    ∃ c', tftpHandler cfg c cfg.ourPort srv.port (serverPacket srv file 0) =
        (c', some (.ack 0)) ∧
      Optioned cfg srv c' ∧ c'.net = c.net ∧ c'.mem = c.mem ∧
      c'.netBootFileSize = c.netBootFileSize := by
  obtain ⟨opts, hopts⟩ := Option.isSome_iff_exists.mp ho
  have hpkt : serverPacket srv file 0 = .oack opts := by simp [serverPacket, hopts]
  have hbs : srv.blockSize = ackedBlockSize tftpBlockSize opts := by simp [Server.blockSize, hopts]
  obtain ⟨c', hc'⟩ : ∃ c' : Client, c' = { c with
      state := .oack
      remotePort := srv.port
      blockSize := ackedBlockSize c.blockSize opts } := ⟨_, rfl⟩
  have hhandle : c.putActive = false → c.curBlock = 0 →
      handlePacket cfg c srv.port (.oack opts) = (c', some (.ack 0)) := by
    intro hp hc
    simp only [handlePacket, handleOack, hp, hc, sending, tftpSend, Bool.false_eq_true, if_false]
    rw [hc', hc, hp]
    rfl
  have hsize : c'.blockSize = srv.blockSize := by
    rw [hc', hbs]
    cases h with
    | inl h => exact congrArg (ackedBlockSize · opts) h.blockSize
    | inr h =>
      simp only [h.blockSize, hbs]
      exact ackedBlockSize_again _ _
  rw [hpkt]
  refine ⟨c', ?_, ?_, by rw [hc'], by rw [hc'], by rw [hc']⟩
  · cases h with
    | inl h =>
      rw [tftpHandler_of_request _ (.inl h.state) h.ourPort]
      exact hhandle h.putActive h.curBlock
    | inr h =>
      rw [tftpHandler_of_data _ h.ourPort h.remotePort]
      exact hhandle h.putActive h.curBlock
  · cases h with
    | inl h => exact ⟨ho, by rw [hc'], by rw [hc', ← h.ourPort], by rw [hc'],
        by rw [hc', ← h.putActive], by rw [hc', ← h.curBlock], hsize⟩
    | inr h => exact ⟨ho, by rw [hc'], by rw [hc', ← h.ourPort], by rw [hc'],
        by rw [hc', ← h.putActive], by rw [hc', ← h.curBlock], hsize⟩

/- Block `k + 1` has been announced and is about to be stored. -/
structure Accepting (cfg : Config) (srv : Server) (k : ℕ) (c : Client) : Prop where
  state : c.state = .data
  ourPort : c.ourPort = cfg.ourPort
  remotePort : c.remotePort = srv.port
  putActive : c.putActive = false
  curBlock : c.curBlock = (k + 1) % 2 ^ 16
  prevBlock : c.prevBlock = k % 2 ^ 16
  wrapOffset : c.blockWrapOffset = srv.blockSize * 2 ^ 16 * ((k + 1) / 2 ^ 16) % 2 ^ 32
  blockSize : c.blockSize = srv.blockSize

variable (cfg srv) in
theorem handleData_first (payload : List UInt8) (hs : c.state = .sendRrq ∨ c.state = .oack) :
    handleData cfg c srv.port 1 payload = acceptBlock cfg
      (newTransfer { c with state := .data, remotePort := srv.port, curBlock := 1 }) payload := by
  have hstate : c.state = .sendRrq ∨ c.state = .oack ∨ c.state = .recvWrq := by
    cases hs with
    | inl hs => exact .inl hs
    | inr hs => exact .inr (.inl hs)
  have hupd : updateBlockNumber { c with curBlock := 1 } = { c with curBlock := 1 } :=
    updateBlockNumber_same (.inr (by norm_num))
  simp only [handleData, hupd, if_pos hstate, ne_eq, not_true_eq_false, if_false]

theorem accepting_first (hd : c.ourPort = cfg.ourPort) (hp : c.putActive = false)
    (hb : c.blockSize = srv.blockSize) : Accepting cfg srv 0
      (newTransfer { c with state := .data, remotePort := srv.port, curBlock := 1 }) :=
  ⟨rfl, hd, rfl, hp, rfl, rfl, by simp [newTransfer], hb⟩

theorem handleData_more (src block : ℕ) (payload : List UInt8) (hs : c.state = .data) :
    handleData cfg c src block payload =
      acceptBlock cfg (updateBlockNumber { c with curBlock := block }) payload := by
  simp only [handleData, hs, reduceCtorEq, or_self, if_false]

theorem accepting_next (h : Got cfg srv k c) :
    Accepting cfg srv k (updateBlockNumber { c with curBlock := (k + 1) % 2 ^ 16 }) := by
  have hprev := h.prevBlock
  have hwrap := h.wrapOffset
  by_cases hz : (k + 1) % 2 ^ 16 = 0
  · have hne : c.prevBlock ≠ 0 := by lia
    have hdiv : (k + 1) / 2 ^ 16 = k / 2 ^ 16 + 1 := by lia
    have hupd : updateBlockNumber { c with curBlock := (k + 1) % 2 ^ 16 } =
        { c with
          curBlock := (k + 1) % 2 ^ 16
          blockWrap := (c.blockWrap + 1) % 2 ^ 32
          blockWrapOffset := (c.blockWrapOffset + c.blockSize * sequenceSize) % 2 ^ 32
          timeoutCount := 0 } := if_pos ⟨hz, hne⟩
    rw [hupd]
    refine ⟨h.state, h.ourPort, h.remotePort, h.putActive, rfl, hprev, ?_, h.blockSize⟩
    simp only [hwrap, h.blockSize, sequenceSize, hdiv, mod_add_mod]
    rw [Nat.mul_add, Nat.mul_one]
  · have hdiv : (k + 1) / 2 ^ 16 = k / 2 ^ 16 := by lia
    rw [updateBlockNumber_same (.inr hz)]
    refine ⟨h.state, h.ourPort, h.remotePort, h.putActive, rfl, hprev, ?_, h.blockSize⟩
    rw [hdiv]
    exact hwrap

theorem offset_eq (bs k : ℕ) :
    ulong ((((k + 1) % 2 ^ 16 : ℕ) - 1 : ℤ) * bs +
      (bs * 2 ^ 16 * ((k + 1) / 2 ^ 16) % 2 ^ 32 : ℕ)) = k * bs % 2 ^ 32 := by
  have hsum : (((k + 1) % 2 ^ 16 : ℕ) - 1 : ℤ) * bs + (bs * 2 ^ 16 * ((k + 1) / 2 ^ 16) : ℕ) =
      (k * bs : ℕ) := by
    have hdm : ((2 ^ 16 * ((k + 1) / 2 ^ 16) + (k + 1) % 2 ^ 16 : ℕ) : ℤ) = k + 1 := by
      rw [div_add_mod]
      push_cast
      rfl
    push_cast at hdm ⊢
    linear_combination (bs : ℤ) * hdm
  have hcast : ((bs * 2 ^ 16 * ((k + 1) / 2 ^ 16) % 2 ^ 32 : ℕ) : ℤ) =
      ((bs * 2 ^ 16 * ((k + 1) / 2 ^ 16) : ℕ) : ℤ) % 2 ^ 32 := Int.natCast_mod _ _
  simp only [ulong]
  rw [hcast, Int.add_emod_emod, hsum]
  norm_cast

theorem Accepting.store (h : Accepting cfg srv k c) (payload : List UInt8) :
    ∃ c', acceptBlock cfg c payload = (c', some (.ack ((k + 1) % 2 ^ 16))) ∧
      Got cfg srv (k + 1) c' ∧
      c'.net = (if payload.length < srv.blockSize then .success else c.net) ∧
      c'.mem = copyIn c.mem (cfg.loadAddr + k * srv.blockSize % 2 ^ 32) payload ∧
      c'.netBootFileSize = max c.netBootFileSize
        ((k * srv.blockSize % 2 ^ 32 + payload.length) % 2 ^ 32) := by
  have hne : c.curBlock ≠ c.prevBlock := by
    rw [h.curBlock, h.prevBlock]
    lia
  obtain ⟨c₁, haccept, hc₁⟩ := acceptBlock_new cfg payload h.state h.putActive hne
  have hoff : ulong (((c.curBlock : ℤ) - 1) * c.blockSize + c.blockWrapOffset) =
      k * srv.blockSize % 2 ^ 32 := by
    rw [h.curBlock, h.blockSize, h.wrapOffset]
    exact offset_eq srv.blockSize k
  have hsize : ulong ((k * srv.blockSize % 2 ^ 32 : ℕ) + (payload.length : ℤ)) =
      (k * srv.blockSize % 2 ^ 32 + payload.length) % 2 ^ 32 := by
    simp only [ulong]
    norm_cast
  have hgot : Got cfg srv (k + 1) c₁ := by
    rw [hc₁]
    exact ⟨Nat.le_add_left 1 k, h.state, h.ourPort, h.remotePort, h.putActive, h.curBlock,
      h.curBlock, h.wrapOffset, h.blockSize⟩
  have hmem : c₁.mem = copyIn c.mem (cfg.loadAddr + k * srv.blockSize % 2 ^ 32) payload := by
    rw [hc₁]
    simp only [storeBlock, hoff]
  have hfile : c₁.netBootFileSize = max c.netBootFileSize
      ((k * srv.blockSize % 2 ^ 32 + payload.length) % 2 ^ 32) := by
    rw [hc₁]
    simp only [storeBlock, hoff, hsize]
    split
    · lia
    · lia
  have hnet : c₁.net = c.net := by
    rw [hc₁]
    rfl
  rw [h.curBlock, mod_mod, h.blockSize] at haccept
  refine ⟨_, haccept, ?_⟩
  split
  · exact ⟨⟨hgot.pos, hgot.state, hgot.ourPort, hgot.remotePort, hgot.putActive, hgot.curBlock,
      hgot.prevBlock, hgot.wrapOffset, hgot.blockSize⟩, rfl, hmem, hfile⟩
  · exact ⟨hgot, hnet, hmem, hfile⟩

theorem handle_next (h : ClientAt cfg srv k c) (ha : c.state = .sendRrq → srv.options = none) :
    ∃ c', tftpHandler cfg c cfg.ourPort srv.port (serverPacket srv file (k + 1)) =
        (c', some (.ack ((k + 1) % 2 ^ 16))) ∧
      Got cfg srv (k + 1) c' ∧
      c'.net = (if (fileBlock file srv.blockSize (k + 1)).length < srv.blockSize then .success
        else c.net) ∧
      c'.mem = copyIn c.mem (cfg.loadAddr + k * srv.blockSize % 2 ^ 32)
        (fileBlock file srv.blockSize (k + 1)) ∧
      c'.netBootFileSize = max c.netBootFileSize ((k * srv.blockSize % 2 ^ 32 +
        (fileBlock file srv.blockSize (k + 1)).length) % 2 ^ 32) := by
  have hpkt : serverPacket srv file (k + 1) =
      .data ((k + 1) % 2 ^ 16) (fileBlock file srv.blockSize (k + 1)) := by simp [serverPacket]
  rw [hpkt]
  cases h with
  | asking h =>
    have hbs : c.blockSize = srv.blockSize := by
      rw [h.blockSize, Server.blockSize, ha h.state]
    rw [tftpHandler_of_request _ (.inl h.state) h.ourPort, handlePacket]
    have hfirst := handleData_first cfg srv (fileBlock file srv.blockSize 1) (.inl h.state)
    exact hfirst ▸ (accepting_first h.ourPort h.putActive hbs).store _
  | optioned h =>
    rw [tftpHandler_of_data _ h.ourPort h.remotePort, handlePacket]
    have hfirst := handleData_first cfg srv (fileBlock file srv.blockSize 1) (.inr h.state)
    exact hfirst ▸ (accepting_first h.ourPort h.putActive h.blockSize).store _
  | got h =>
    have hacc := accepting_next h
    have hkeep : ∀ c₁ : Client, (updateBlockNumber c₁).net = c₁.net ∧
        (updateBlockNumber c₁).mem = c₁.mem ∧
        (updateBlockNumber c₁).netBootFileSize = c₁.netBootFileSize := by
      intro c₁
      unfold updateBlockNumber
      split
      · exact ⟨rfl, rfl, rfl⟩
      · exact ⟨rfl, rfl, rfl⟩
    rw [tftpHandler_of_data _ h.ourPort h.remotePort, handlePacket, handleData_more _ _ _ h.state]
    obtain ⟨c', hres, hgot, hnet, hmem, hsize⟩ := hacc.store (fileBlock file srv.blockSize (k + 1))
    rw [(hkeep _).1] at hnet
    rw [(hkeep _).2.1] at hmem
    rw [(hkeep _).2.2] at hsize
    exact ⟨c', hres, hgot, hnet, hmem, hsize⟩

theorem handle_again (h : Got cfg srv k c) :
    tftpHandler cfg c cfg.ourPort srv.port (serverPacket srv file k) = (c, none) := by
  have hpos := h.pos
  have hpkt : serverPacket srv file k =
      .data (k % 2 ^ 16) (fileBlock file srv.blockSize k) := by
    simp only [serverPacket]
    rw [if_neg (by lia)]
  have hcur : { c with curBlock := k % 2 ^ 16 } = c := by
    rw [← h.curBlock]
  have hupd : updateBlockNumber c = c := by
    apply updateBlockNumber_same
    rw [h.curBlock, h.prevBlock]
    exact em _
  have hsame : c.curBlock = c.prevBlock := by rw [h.curBlock, h.prevBlock]
  rw [hpkt, tftpHandler_of_data _ h.ourPort h.remotePort, handlePacket,
    handleData_more _ _ _ h.state, hcur, hupd, acceptBlock, if_pos hsame]

theorem ClientAt.restart (h : ClientAt cfg srv k c) (t : ℕ) (n : NetState) :
    ClientAt cfg srv k { c with timeoutCount := t, net := n } := by
  cases h with
  | asking h => exact .asking ⟨h.state, h.ourPort, h.putActive, h.curBlock, h.blockSize⟩
  | optioned h =>
    exact .optioned ⟨h.options, h.state, h.ourPort, h.remotePort, h.putActive, h.curBlock,
      h.blockSize⟩
  | got h =>
    exact .got ⟨h.pos, h.state, h.ourPort, h.remotePort, h.putActive, h.curBlock, h.prevBlock,
      h.wrapOffset, h.blockSize⟩

theorem timeout_again (h : ClientAt cfg srv k c) (hm : ¬c.timeoutCountMax < c.timeoutCount + 1) :
    ∃ c', tftpTimeoutHandler cfg c = (c', some (if c.state = .sendRrq then .rrq (request cfg)
        else .ack (k % 2 ^ 16))) ∧ ClientAt cfg srv k c' ∧ c'.net = c.net ∧ c'.mem = c.mem ∧
      c'.netBootFileSize = c.netBootFileSize ∧ c'.state = c.state := by
  refine ⟨{ c with timeoutCount := c.timeoutCount + 1 }, ?_, ?_, rfl, rfl, rfl, rfl⟩
  · cases h with
    | asking h =>
      simp only [tftpTimeoutHandler, if_neg hm, h.state, sending, tftpSend, ne_eq, reduceCtorEq,
        not_false_eq_true, if_true]
    | optioned h =>
      simp only [tftpTimeoutHandler, if_neg hm, h.state, sending, tftpSend, h.putActive, h.curBlock,
        ne_eq, reduceCtorEq, not_false_eq_true, if_true, if_false, Bool.false_eq_true]
    | got h =>
      simp only [tftpTimeoutHandler, if_neg hm, h.state, sending, tftpSend, h.putActive, h.curBlock,
        ne_eq, reduceCtorEq, not_false_eq_true, if_true, if_false, Bool.false_eq_true, mod_mod]
  · exact h.restart (c.timeoutCount + 1) c.net

end Handling

section Bytes

variable {cfg : Config} {srv : Server} {file : List UInt8} {c c' : Client} {k : ℕ}

theorem region_copyIn_same (mem : Mem) (a : ℕ) (src : List UInt8) (h : src.length ≤ 2 ^ 32) :
    region (copyIn mem a src) a src.length = src := by
  apply ext_getElem
  · simp
  · intro i h₁ h₂
    have hidx : ulong ((((a + i) % 2 ^ 32 : ℕ) : ℤ) - a) = i := by
      simp only [ulong]
      lia
    simp only [region, getElem_map, getElem_range, copyIn, getD_eq_getElem?_getD,
      hidx, getElem?_eq_getElem h₂, Option.getD_some]

theorem region_copyIn_before (mem : Mem) (a n : ℕ) (src : List UInt8)
    (h : n + src.length ≤ 2 ^ 32) : region (copyIn mem (a + n) src) a n = region mem a n := by
  apply map_congr_left
  intro i hi
  have hin := mem_range.mp hi
  have hidx : src.length ≤ ulong ((((a + i) % 2 ^ 32 : ℕ) : ℤ) - (a + n : ℕ)) := by
    simp only [ulong]
    lia
  simp only [copyIn, getD_eq_getElem?_getD, getElem?_eq_none hidx, Option.getD_none]

theorem length_fileBlock (file : List UInt8) (bs k : ℕ) :
    (fileBlock file bs (k + 1)).length = min bs (file.length - k * bs) := by
  simp [fileBlock]

theorem Holds.next (h : Holds cfg srv file k c) (hn : file.length < 2 ^ 32)
    (hle : k * srv.blockSize ≤ file.length)
    (hmem : c'.mem = copyIn c.mem (cfg.loadAddr + k * srv.blockSize % 2 ^ 32)
      (fileBlock file srv.blockSize (k + 1)))
    (hsize : c'.netBootFileSize = max c.netBootFileSize ((k * srv.blockSize % 2 ^ 32 +
      (fileBlock file srv.blockSize (k + 1)).length) % 2 ^ 32)) :
    Holds cfg srv file (k + 1) c' := by
  have hlen := length_fileBlock file srv.blockSize k
  have hsucc : (k + 1) * srv.blockSize = k * srv.blockSize + srv.blockSize := succ_mul ..
  have hmin : min ((k + 1) * srv.blockSize) file.length =
      k * srv.blockSize + (fileBlock file srv.blockSize (k + 1)).length := by lia
  have hmod : k * srv.blockSize % 2 ^ 32 = k * srv.blockSize := mod_eq_of_lt (by lia)
  have hold := h.mem
  rw [Nat.min_eq_left hle] at hold
  constructor
  · rw [hmin, region_append, hmem, hmod, region_copyIn_same _ _ _ (by lia),
      region_copyIn_before _ _ _ _ (by lia), hold, hsucc, take_add]
    rfl
  · rw [hsize, h.size, hmod, mod_eq_of_lt (by lia), hmin]
    lia

end Bytes

section Exchange

variable (cfg : Config) (srv : Server) (file : List UInt8)

/- The request, or the ACK of block `j`. -/
def clientPacket : Option ℕ → Packet
  | none => .rrq (request cfg)
  | some j => .ack (j % 2 ^ 16)

/- Blocks of index `k` to `m` on their way down, in order. -/
structure Down (k : ℕ) (current : Option ℕ) (ks : List ℕ) : Prop where
  sorted : ks.Pairwise (· ≤ ·)
  ge : ∀ j ∈ ks, k ≤ j
  le : ∀ j ∈ ks, ∃ m, current = some m ∧ j ≤ m
  options : ∀ j ∈ ks, j = 0 → srv.options.isSome

/- Acknowledgements of blocks `m - 1` to `k` on their way up, in order. -/
structure Up (k : ℕ) (current : Option ℕ) (js : List (Option ℕ)) : Prop where
  sorted : (js.filterMap id).Pairwise (· ≤ ·)
  le : ∀ j ∈ js.filterMap id, j ≤ k
  ge : ∀ j ∈ js.filterMap id, ∃ m, current = some m ∧ m ≤ j + 1

structure GetInv (k : ℕ) (d : Download) : Prop where
  client : ClientAt cfg srv k d.client
  holds : file.length < 2 ^ 32 → Holds cfg srv file k d.client
  done : d.client.net = .success → file.length ≤ k * srv.blockSize
  down : ∃ ks, d.toClient = ks.map (serverPacket srv file) ∧ Down srv k d.current ks
  up : ∃ js, d.toServer = js.map (clientPacket cfg) ∧ Up k d.current js ∧
    (d.client.state = .sendRrq → js.filterMap id = [])
  begun : d.client.state ≠ .sendRrq → d.current.isSome
  bounds : ∀ m, d.current = some m → k ≤ m ∧ m ≤ k + 1
  inFile : ∀ m, d.current = some m → (m - 1) * srv.blockSize ≤ file.length
  oack : ∀ m, d.current = some m → m = 0 → srv.options.isSome
  asking : ∀ m, d.current = some m → srv.options.isSome → d.client.state = .sendRrq → m = 0
  small : d.client.netBootFileSize < 2 ^ 32

variable {cfg srv file} {k : ℕ} {d d' : Download}

variable {current : Option ℕ} {ks : List ℕ}

theorem Down.tail {j : ℕ} (h : Down srv k current (j :: ks)) : Down srv k current ks :=
  ⟨(pairwise_cons.mp h.sorted).2, fun i hi => h.ge i (mem_cons_of_mem j hi),
    fun i hi => h.le i (mem_cons_of_mem j hi),
    fun i hi => h.options i (mem_cons_of_mem j hi)⟩

theorem Down.snoc {m m' : ℕ} (h : Down srv k current ks) (hc : current = some m) (hm : m ≤ m')
    (hk : k ≤ m') (ho : m' = 0 → srv.options.isSome) : Down srv k (some m') (ks ++ [m']) := by
  have hle : ∀ j ∈ ks, j ≤ m' := by
    intro j hj
    obtain ⟨i, hi, hji⟩ := h.le j hj
    rw [hc] at hi
    cases hi
    exact hji.trans hm
  constructor
  · rw [pairwise_append]
    refine ⟨h.sorted, pairwise_singleton _ _, ?_⟩
    intro j hj i hi
    rw [mem_singleton.mp hi]
    exact hle j hj
  · intro j hj
    cases mem_append.mp hj with
    | inl hj => exact h.ge j hj
    | inr hj => exact (mem_singleton.mp hj) ▸ hk
  · intro j hj
    refine ⟨m', rfl, ?_⟩
    cases mem_append.mp hj with
    | inl hj => exact hle j hj
    | inr hj => exact (mem_singleton.mp hj).le
  · intro j hj hz
    cases mem_append.mp hj with
    | inl hj => exact h.options j hj hz
    | inr hj => exact ho ((mem_singleton.mp hj) ▸ hz)

theorem Down.stored {j : ℕ} (h : Down srv k current (j :: ks)) : Down srv j current (j :: ks) := by
  refine ⟨h.sorted, ?_, h.le, h.options⟩
  intro i hi
  cases mem_cons.mp hi with
  | inl hi => exact hi.ge
  | inr hi => exact (pairwise_cons.mp h.sorted).1 i hi

variable {js : List (Option ℕ)}

theorem Up.tail {j : Option ℕ} (h : Up k current (j :: js)) : Up k current js := by
  have hsub : List.Sublist (js.filterMap id) ((j :: js).filterMap id) :=
    (sublist_cons_self j js).filterMap id
  exact ⟨h.sorted.sublist hsub, fun i hi => h.le i (hsub.subset hi),
    fun i hi => h.ge i (hsub.subset hi)⟩

theorem Up.snoc {k' m : ℕ} (h : Up k current js) (hk : k ≤ k') (hc : current = some m)
    (hm : m ≤ k' + 1) : Up k' current (js ++ [some k']) := by
  have heq : (js ++ [some k']).filterMap id = js.filterMap id ++ [k'] := by
    rw [filterMap_append]
    rfl
  constructor
  · rw [heq, pairwise_append]
    refine ⟨h.sorted, pairwise_singleton _ _, ?_⟩
    intro j hj i hi
    rw [mem_singleton.mp hi]
    exact (h.le j hj).trans hk
  · intro j hj
    rw [heq] at hj
    cases mem_append.mp hj with
    | inl hj => exact (h.le j hj).trans hk
    | inr hj => exact (mem_singleton.mp hj).le
  · intro j hj
    rw [heq] at hj
    cases mem_append.mp hj with
    | inl hj => exact h.ge j hj
    | inr hj => exact ⟨m, hc, (mem_singleton.mp hj) ▸ hm⟩

theorem Up.request (h : Up k current js) : Up k current (js ++ [none]) := by
  have heq : (js ++ [none]).filterMap id = js.filterMap id := by
    rw [filterMap_append]
    exact append_nil _
  exact ⟨heq ▸ h.sorted, heq ▸ h.le, heq ▸ h.ge⟩

theorem GetInv.start (c₀ : Client) : GetInv cfg srv file 0 (Download.start cfg c₀) where
  client := .asking ⟨rfl, rfl, rfl, rfl, rfl⟩
  holds := fun _ => ⟨by simp [region], by simp [Download.start, tftpStart, tftpSend]⟩
  done := fun h => by cases h
  down := ⟨[], rfl, List.Pairwise.nil, by simp, by simp, by simp⟩
  up := ⟨[none], rfl, ⟨List.Pairwise.nil, by simp, by simp⟩, fun _ => rfl⟩
  begun := fun h => absurd rfl h
  bounds := fun m h => by cases h
  inFile := fun m h => by cases h
  oack := fun m h => by cases h
  asking := fun m h => by cases h
  small := by simp [Download.start, tftpStart, tftpSend]

theorem GetInv.after_handle (h : GetInv cfg srv file k d) {pkt : Packet} {rest : List Packet}
    (net : d.client.net = .loop) (head : d.toClient = pkt :: rest) :
    ∃ k', GetInv cfg srv file k' { d with
      client := (tftpHandler cfg d.client cfg.ourPort srv.port pkt).1
      toServer := d.toServer ++ (tftpHandler cfg d.client cfg.ourPort srv.port pkt).2.toList } := by
  obtain ⟨ks, hks, hdown⟩ := h.down
  obtain ⟨js, hjs, hup, hask⟩ := h.up
  cases ks with
  | nil => simp [hks] at head
  | cons j ks =>
    obtain ⟨rfl, -⟩ := List.cons.inj (head.symm.trans hks)
    have hj := hdown.ge j mem_cons_self
    obtain ⟨m, hcur, hjm⟩ := hdown.le j mem_cons_self
    obtain ⟨hkm, hmk⟩ := h.bounds m hcur
    by_cases hnext : j = k + 1
    · subst hnext
      have hm : m = k + 1 := by lia
      have hnone : d.client.state = .sendRrq → srv.options = none := by
        intro hs
        cases ho : srv.options with
        | none => rfl
        | some opts =>
          have hz := h.asking m hcur (by simp [ho]) hs
          lia
      have hfile := h.inFile m hcur
      rw [hm, Nat.add_sub_cancel] at hfile
      obtain ⟨c', hres, hgot, hnet, hmem, hsize⟩ := handle_next h.client hnone
      have hlen := length_fileBlock file srv.blockSize k
      rw [hres]
      refine ⟨k + 1, ?_⟩
      constructor
      · exact .got hgot
      · intro hn
        exact (h.holds hn).next hn hfile hmem hsize
      · intro hs
        simp only [hnet, net] at hs
        split at hs
        · rw [succ_mul]
          lia
        · cases hs
      · exact ⟨(k + 1) :: ks, hks, hdown.stored⟩
      · refine ⟨js ++ [some (k + 1)], ?_, hup.snoc (le_succ k) hcur (by lia), ?_⟩
        · simp [hjs, clientPacket]
        · intro hs
          simp [hgot.state] at hs
      · intro _
        simp [hcur]
      · intro m' hm'
        rw [hcur] at hm'
        cases hm'
        lia
      · exact h.inFile
      · exact h.oack
      · intro m' _ _ hs
        simp [hgot.state] at hs
      · rw [hsize]
        exact max_lt h.small (mod_lt _ (by norm_num))
    · have hjk : j = k := by lia
      subst hjk
      refine ⟨j, ?_⟩
      have hold : Asking cfg d.client ∨ Optioned cfg srv d.client → j = 0 →
          GetInv cfg srv file j { d with
            client := (tftpHandler cfg d.client cfg.ourPort srv.port (serverPacket srv file j)).1
            toServer := d.toServer ++ (tftpHandler cfg d.client cfg.ourPort srv.port
              (serverPacket srv file j)).2.toList } := by
        intro hc hz
        subst hz
        obtain ⟨c', hres, hopt, hnet, hmem, hsize⟩ :=
          handle_oack hc (hdown.options 0 mem_cons_self rfl)
        rw [hres]
        constructor
        · exact .optioned hopt
        · intro hn
          exact ⟨by rw [hmem]; exact (h.holds hn).mem, by rw [hsize]; exact (h.holds hn).size⟩
        · intro hs
          simp [hnet, net] at hs
        · exact ⟨0 :: ks, hks, hdown⟩
        · refine ⟨js ++ [some 0], ?_, hup.snoc le_rfl hcur hmk, ?_⟩
          · simp [hjs, clientPacket]
          · intro hs
            simp [hopt.state] at hs
        · intro _
          simp [hcur]
        · exact h.bounds
        · exact h.inFile
        · exact h.oack
        · intro m' _ _ hs
          simp [hopt.state] at hs
        · exact hsize ▸ h.small
      cases h.client with
      | asking hc => exact hold (.inl hc) rfl
      | optioned hc => exact hold (.inr hc) rfl
      | got hc =>
        rw [handle_again hc]
        simpa using h

/- The first request starts the transfer. -/
theorem GetInv.serve_request (h : GetInv cfg srv file k d) (hcur : d.current = none) :
    GetInv cfg srv file k { d with
      current := (serve srv file none (clientPacket cfg none)).1
      toClient := d.toClient ++ (serve srv file none (clientPacket cfg none)).2.toList } := by
  obtain ⟨ks, hks, hdown⟩ := h.down
  obtain ⟨js, hjs, hup, hask⟩ := h.up
  obtain ⟨m, hm⟩ : ∃ m, m = if srv.options.isSome then 0 else 1 := ⟨_, rfl⟩
  have hserve : serve srv file none (clientPacket cfg none) =
      (some m, some (serverPacket srv file m)) := by rw [hm]; rfl
  have hstate : d.client.state = .sendRrq := by
    by_contra hne
    simpa [hcur] using h.begun hne
  have hk : k = 0 := by
    cases h.client with
    | asking hc => rfl
    | optioned hc => rfl
    | got hc => simp [hc.state] at hstate
  have hempty : ks = [] := by
    cases ks with
    | nil => rfl
    | cons j ks =>
      obtain ⟨m', hm', -⟩ := hdown.le j mem_cons_self
      simp [hcur] at hm'
  have hone : m ≤ 1 := by
    rw [hm]
    split
    · exact Nat.zero_le 1
    · exact le_rfl
  have hopt : m = 0 → srv.options.isSome := by
    intro hz
    by_contra ho
    rw [hm, if_neg ho] at hz
    cases hz
  rw [hserve]
  subst hk hempty
  refine ⟨h.client, h.holds, h.done, ⟨[m], ?_, ?_⟩, ⟨_, hjs, ?_, hask⟩, fun _ => rfl, ?_, ?_, ?_, ?_,
    h.small⟩
  · simp [hks]
  · refine ⟨pairwise_singleton _ _, fun j _ => Nat.zero_le j, ?_, ?_⟩
    · intro j hj
      exact ⟨m, rfl, (mem_singleton.mp hj).le⟩
    · intro j hj hz
      exact hopt ((mem_singleton.mp hj) ▸ hz)
  · refine ⟨hup.sorted, hup.le, ?_⟩
    intro j hj
    obtain ⟨m', hm', -⟩ := hup.ge j hj
    simp [hcur] at hm'
  · intro m' hm'
    cases hm'
    exact ⟨Nat.zero_le m, hone⟩
  · intro m' hm'
    cases hm'
    rw [show m - 1 = 0 by lia, Nat.zero_mul]
    exact Nat.zero_le _
  · intro m' hm'
    cases hm'
    exact hopt
  · intro m' hm' ho _
    cases hm'
    rw [hm, if_pos ho]

/- The ACK of the block that the server waits for, which is the client's: the next block is sent. -/
theorem GetInv.serve_ack (h : GetInv cfg srv file k d) (hcur : d.current = some k)
    {js : List (Option ℕ)} (hjs : d.toServer = (some k :: js).map (clientPacket cfg))
    (hup : Up k d.current (some k :: js)) (hstate : d.client.state ≠ .sendRrq)
    (hfull : k = 0 ∨ srv.blockSize ≤ (fileBlock file srv.blockSize k).length) :
    GetInv cfg srv file k { d with
      current := some (k + 1)
      toClient := d.toClient ++ [serverPacket srv file (k + 1)] } := by
  obtain ⟨ks, hks, hdown⟩ := h.down
  have hfile : k * srv.blockSize ≤ file.length := by
    have hlast := h.inFile k hcur
    cases k with
    | zero => simp
    | succ m =>
      have hfull := hfull.resolve_left (succ_ne_zero m)
      rw [length_fileBlock] at hfull
      rw [Nat.add_sub_cancel] at hlast
      rw [succ_mul]
      lia
  refine ⟨h.client, h.holds, h.done, ⟨ks ++ [k + 1], ?_, ?_⟩, ⟨_, hjs, ?_, fun hs => absurd hs hstate⟩,
    fun _ => rfl, ?_, ?_, ?_, ?_, h.small⟩
  · simp [hks]
  · exact hdown.snoc hcur (le_succ k) (le_succ k) (fun hz => by cases hz)
  · refine ⟨hup.sorted, hup.le, ?_⟩
    intro j hj
    refine ⟨k + 1, rfl, succ_le_succ ?_⟩
    cases mem_cons.mp hj with
    | inl hj => exact hj.ge
    | inr hj => exact (pairwise_cons.mp hup.sorted).1 j hj
  · intro m' hm'
    cases hm'
    exact ⟨le_succ k, le_rfl⟩
  · intro m' hm'
    cases hm'
    exact hfile
  · intro m' hm' hz
    cases hm'
    cases hz
  · intro m' _ _ hs
    exact absurd hs hstate

theorem GetInv.after_serve (h : GetInv cfg srv file k d) {pkt : Packet} {rest : List Packet}
    (head : d.toServer = pkt :: rest) :
    GetInv cfg srv file k { d with
      current := (serve srv file d.current pkt).1
      toClient := d.toClient ++ (serve srv file d.current pkt).2.toList } := by
  obtain ⟨js, hjs, hup, hask⟩ := h.up
  have hsame : ∀ res : Option ℕ × Option Packet, res = (d.current, none) → GetInv cfg srv file k
      { d with current := res.1, toClient := d.toClient ++ res.2.toList } := by
    intro res hres
    rw [hres]
    simpa using h
  cases js with
  | nil => simp [hjs] at head
  | cons j js =>
    obtain ⟨rfl, -⟩ := List.cons.inj (head.symm.trans hjs)
    cases j with
    | none =>
      cases hcur : d.current with
      | some m => exact hcur ▸ hsame _ (by rw [hcur]; rfl)
      | none => exact h.serve_request hcur
    | some i =>
      have hi : i ∈ (some i :: js).filterMap id := mem_cons_self
      obtain ⟨m, hcur, hmi⟩ := hup.ge i hi
      have hik := hup.le i hi
      obtain ⟨hkm, hmk⟩ := h.bounds m hcur
      have hserve : serve srv file d.current (clientPacket cfg (some i)) =
          if i % 2 ^ 16 = m % 2 ^ 16 ∧
            (m = 0 ∨ srv.blockSize ≤ (fileBlock file srv.blockSize m).length) then
            (some (m + 1), some (serverPacket srv file (m + 1))) else (some m, none) := by
        rw [hcur]
        rfl
      by_cases hmatch : i % 2 ^ 16 = m % 2 ^ 16 ∧
          (m = 0 ∨ srv.blockSize ≤ (fileBlock file srv.blockSize m).length)
      · obtain rfl : i = m := by lia
        obtain rfl : k = i := by lia
        rw [hserve, if_pos hmatch]
        exact h.serve_ack hcur hjs hup (fun hs => by cases hask hs) hmatch.2
      · apply hsame
        rw [hserve, if_neg hmatch, hcur]

theorem GetInv.after_timeout (h : GetInv cfg srv file k d) (net : d.client.net = .loop) :
    GetInv cfg srv file k { d with
      client := (tftpTimeoutHandler cfg d.client).1
      toServer := d.toServer ++ (tftpTimeoutHandler cfg d.client).2.toList } := by
  obtain ⟨js, hjs, hup, hask⟩ := h.up
  by_cases hm : d.client.timeoutCountMax < d.client.timeoutCount + 1
  · have hres : tftpTimeoutHandler cfg d.client =
        ({ d.client with timeoutCount := d.client.timeoutCount + 1, net := .startAgain }, none) := by
      simp only [tftpTimeoutHandler, if_pos hm, netStartAgain]
    rw [hres]
    refine ⟨h.client.restart _ _, fun hn => ⟨(h.holds hn).mem, (h.holds hn).size⟩, ?_, h.down,
      ⟨js, ?_, hup, hask⟩, h.begun, h.bounds, h.inFile, h.oack, h.asking, h.small⟩
    · intro hs
      cases hs
    · rw [hjs]
      exact append_nil _
  · obtain ⟨c', hres, hclient, hnet, hmem, hsize, hstate⟩ := timeout_again h.client hm
    rw [hres]
    refine ⟨hclient, ?_, ?_, h.down, ?_, ?_, h.bounds, h.inFile, h.oack, ?_, hsize ▸ h.small⟩
    · intro hn
      exact ⟨by rw [hmem]; exact (h.holds hn).mem, by rw [hsize]; exact (h.holds hn).size⟩
    · intro hs
      simp [hnet, net] at hs
    · by_cases hs : d.client.state = .sendRrq
      · refine ⟨js ++ [none], ?_, hup.request, ?_⟩
        · simp [hs, hjs, clientPacket]
        · intro _
          rw [filterMap_append, hask hs]
          rfl
      · obtain ⟨m, hcur⟩ := Option.isSome_iff_exists.mp (h.begun hs)
        refine ⟨js ++ [some k], ?_, hup.snoc le_rfl hcur (h.bounds m hcur).2, ?_⟩
        · simp [hs, hjs, clientPacket]
        · intro hs'
          exact absurd (hstate ▸ hs') hs
    · intro hs
      exact h.begun (hstate ▸ hs)
    · intro m hcur ho hs
      exact h.asking m hcur ho (hstate ▸ hs)

theorem GetInv.step (h : GetInv cfg srv file k d) (hstep : GetStep cfg srv file d d') :
    ∃ k', GetInv cfg srv file k' d' := by
  cases hstep with
  | handle net head => exact h.after_handle net head
  | lose head =>
    obtain ⟨ks, hks, hdown⟩ := h.down
    cases ks with
    | nil => simp [hks] at head
    | cons j ks =>
      obtain ⟨-, hrest⟩ := List.cons.inj (head.symm.trans hks)
      exact ⟨k, h.client, h.holds, h.done, ⟨ks, hrest, hdown.tail⟩, h.up, h.begun, h.bounds,
        h.inFile, h.oack, h.asking, h.small⟩
  | serve head => exact ⟨k, h.after_serve head⟩
  | loseAck head =>
    obtain ⟨js, hjs, hup, hask⟩ := h.up
    cases js with
    | nil => simp [hjs] at head
    | cons j js =>
      obtain ⟨-, hrest⟩ := List.cons.inj (head.symm.trans hjs)
      have hask' : d.client.state = .sendRrq → js.filterMap id = [] := by
        intro hs
        have hsub : List.Sublist (js.filterMap id) ((j :: js).filterMap id) :=
          (sublist_cons_self j js).filterMap id
        rw [hask hs] at hsub
        exact sublist_nil.mp hsub
      exact ⟨k, h.client, h.holds, h.done, h.down, ⟨js, hrest, hup.tail, hask'⟩, h.begun, h.bounds,
        h.inFile, h.oack, h.asking, h.small⟩
  | resend sent =>
    rename_i m
    obtain ⟨ks, hks, hdown⟩ := h.down
    have hsnoc := hdown.snoc sent le_rfl (h.bounds m sent).1 (h.oack m sent)
    refine ⟨k, h.client, h.holds, h.done, ⟨ks ++ [m], ?_, sent ▸ hsnoc⟩, h.up, h.begun, h.bounds,
      h.inFile, h.oack, h.asking, h.small⟩
    simp [hks]
  | timeout net => exact ⟨k, h.after_timeout net⟩

theorem GetRuns.inv (run : GetRuns cfg srv file d d') (h : GetInv cfg srv file k d) :
    ∃ k', GetInv cfg srv file k' d' := by
  induction run with
  | refl => exact ⟨k, h⟩
  | tail _ hstep ih =>
    obtain ⟨k₁, h₁⟩ := ih
    exact h₁.step hstep

theorem run_block {c : Client} (h : ClientAt cfg srv k c) (hn : c.net = .loop)
    (ha : c.state = .sendRrq → srv.options = none) :
    ∃ d, GetRuns cfg srv file ⟨c, some (k + 1), [serverPacket srv file (k + 1)], []⟩ d ∧
      (d.client.net = .success ∨ ∃ c', d =
          ⟨c', some (k + 1 + 1), [serverPacket srv file (k + 1 + 1)], []⟩ ∧
        srv.blockSize ≤ (fileBlock file srv.blockSize (k + 1)).length ∧
        Got cfg srv (k + 1) c' ∧ c'.net = .loop) := by
  obtain ⟨c', hres, hgot, hnet, -, -⟩ := handle_next h ha
  have hhandle := @GetStep.handle cfg srv file
    ⟨c, some (k + 1), [serverPacket srv file (k + 1)], []⟩ _ [] hn rfl
  rw [hres] at hhandle
  by_cases hshort : (fileBlock file srv.blockSize (k + 1)).length < srv.blockSize
  · rw [if_pos hshort] at hnet
    exact ⟨_, .single hhandle, .inl hnet⟩
  · rw [if_neg hshort, hn] at hnet
    have hserve : serve srv file (some (k + 1)) (.ack ((k + 1) % 2 ^ 16)) =
        (some (k + 1 + 1), some (serverPacket srv file (k + 1 + 1))) := by
      simp only [serve, true_and]
      rw [if_pos (.inr (not_lt.mp hshort))]
    have hlose := @GetStep.lose cfg srv file
      ⟨c', some (k + 1), [serverPacket srv file (k + 1)], [.ack ((k + 1) % 2 ^ 16)]⟩ _ [] rfl
    have hsend := @GetStep.serve cfg srv file
      ⟨c', some (k + 1), [], [.ack ((k + 1) % 2 ^ 16)]⟩ _ [] rfl
    rw [hserve] at hsend
    have hdrop := @GetStep.loseAck cfg srv file
      ⟨c', some (k + 1 + 1), [serverPacket srv file (k + 1 + 1)],
        [.ack ((k + 1) % 2 ^ 16)]⟩ _ [] rfl
    exact ⟨_, (((Relation.ReflTransGen.single hhandle).tail hlose).tail hsend).tail hdrop,
      .inr ⟨c', rfl, not_lt.mp hshort, hgot, hnet⟩⟩

variable (cfg srv file) in
theorem run_first (c₀ : Client) : ∃ c, ClientAt cfg srv 0 c ∧ c.net = .loop ∧
    (c.state = .sendRrq → srv.options = none) ∧
    GetRuns cfg srv file (Download.start cfg c₀) ⟨c, some 1, [serverPacket srv file 1], []⟩ := by
  obtain ⟨c, hc⟩ : ∃ c, c = (tftpStart cfg c₀ false).1 := ⟨_, rfl⟩
  have hask : Asking cfg c := by
    rw [hc]
    exact ⟨rfl, rfl, rfl, rfl, rfl⟩
  have hnet : c.net = .loop := by
    rw [hc]
    rfl
  have hstart : Download.start cfg c₀ = ⟨c, none, [], [.rrq (request cfg)]⟩ := by
    rw [hc]
    rfl
  have hasked := @GetStep.serve cfg srv file ⟨c, none, [], [.rrq (request cfg)]⟩ _ [] rfl
  rw [hstart]
  cases ho : srv.options with
  | none =>
    have hserve : serve srv file none (.rrq (request cfg)) =
        (some 1, some (serverPacket srv file 1)) := by simp [serve, ho]
    rw [hserve] at hasked
    have hdrop := @GetStep.loseAck cfg srv file
      ⟨c, some 1, [serverPacket srv file 1], [.rrq (request cfg)]⟩ _ [] rfl
    exact ⟨c, .asking hask, hnet, fun _ => rfl, (Relation.ReflTransGen.single hasked).tail hdrop⟩
  | some opts =>
    have hsome : srv.options.isSome := by simp [ho]
    have hserve : serve srv file none (.rrq (request cfg)) =
        (some 0, some (serverPacket srv file 0)) := by simp [serve, ho]
    have hserve' : serve srv file (some 0) (.ack 0) =
        (some 1, some (serverPacket srv file 1)) := by simp [serve]
    rw [hserve] at hasked
    have hdrop := @GetStep.loseAck cfg srv file
      ⟨c, some 0, [serverPacket srv file 0], [.rrq (request cfg)]⟩ _ [] rfl
    obtain ⟨c', hres, hopt, hnet', -, -⟩ := handle_oack (.inl hask) hsome
    have hhandle := @GetStep.handle cfg srv file
      ⟨c, some 0, [serverPacket srv file 0], []⟩ _ [] hnet rfl
    rw [hres] at hhandle
    have hlose := @GetStep.lose cfg srv file
      ⟨c', some 0, [serverPacket srv file 0], [.ack 0]⟩ _ [] rfl
    have hsend := @GetStep.serve cfg srv file ⟨c', some 0, [], [.ack 0]⟩ _ [] rfl
    rw [hserve'] at hsend
    have hlast := @GetStep.loseAck cfg srv file
      ⟨c', some 1, [serverPacket srv file 1], [.ack 0]⟩ _ [] rfl
    refine ⟨c', .optioned hopt, hnet'.trans hnet, ?_, (((((Relation.ReflTransGen.single hasked).tail
      hdrop).tail hhandle).tail hlose).tail hsend).tail hlast⟩
    intro hs
    simp [hopt.state] at hs

theorem run_rest (hbs : 1 ≤ srv.blockSize) (n : ℕ) : ∀ {k : ℕ} {c : Client},
    ClientAt cfg srv k c → c.net = .loop → (c.state = .sendRrq → srv.options = none) →
    file.length < (k + n) * srv.blockSize →
    ∃ d, GetRuns cfg srv file ⟨c, some (k + 1), [serverPacket srv file (k + 1)], []⟩ d ∧
      d.client.net = .success := by
  induction n with
  | zero =>
    intro k c h hn ha hlt
    obtain ⟨d, hrun, hd⟩ := run_block h hn ha
    cases hd with
    | inl hs => exact ⟨d, hrun, hs⟩
    | inr hd =>
      obtain ⟨c', -, hfull, -⟩ := hd
      rw [length_fileBlock] at hfull
      rw [Nat.add_zero] at hlt
      lia
  | succ n ih =>
    intro k c h hn ha hlt
    obtain ⟨d, hrun, hd⟩ := run_block h hn ha
    cases hd with
    | inl hs => exact ⟨d, hrun, hs⟩
    | inr hd =>
      obtain ⟨c', rfl, -, hgot, hnet⟩ := hd
      obtain ⟨d', hrun', hs⟩ := ih (.got hgot) hnet
        (fun hs => by simp [hgot.state] at hs) (by rw [succ_add_eq_add_succ]; exact hlt)
      exact ⟨d', hrun.trans hrun', hs⟩

variable (cfg file) in
theorem run_completes (hbs : 1 ≤ srv.blockSize) (c₀ : Client) :
    ∃ d, GetRuns cfg srv file (Download.start cfg c₀) d ∧ d.client.net = .success := by
  obtain ⟨c, h, hn, ha, hrun⟩ := run_first cfg srv file c₀
  have hlt : file.length < (0 + (file.length + 1)) * srv.blockSize := by
    rw [Nat.zero_add]
    exact Nat.lt_of_lt_of_le (lt_succ_self _) (Nat.le_mul_of_pos_right _ hbs)
  obtain ⟨d, hrun', hs⟩ := run_rest hbs (file.length + 1) h hn ha hlt
  exact ⟨d, hrun.trans hrun', hs⟩

end Exchange

/- A download that is reported complete has put the file at the load address. -/
theorem tftp_get_delivers {cfg : Config} {srv : Server} {file : List UInt8} {c₀ : Client}
    {d : Download} (hfile : file.length < 2 ^ 32)
    (run : GetRuns cfg srv file (Download.start cfg c₀) d) (hs : d.client.net = .success) :
    region d.client.mem cfg.loadAddr file.length = file ∧ d.client.netBootFileSize = file.length := by
  obtain ⟨k, h⟩ := run.inv (GetInv.start c₀)
  have hdone := h.done hs
  have hmem := (h.holds hfile).mem
  have hsize := (h.holds hfile).size
  rw [Nat.min_eq_right hdone] at hmem hsize
  rw [take_of_length_le hdone] at hmem
  exact ⟨hmem, hsize⟩

def smallDownload : Config where
  loadAddr := 0x82000000
  saveAddr := 0
  saveSize := 0
  filename := []
  timeoutMs := 5000
  blockSizeOption := 1468
  timeoutCountMax := 10
  ourPort := 1024
  ethHdrSize := 14
  saveSize_lt := by norm_num

def leftoverClient : Client where
  state := .data
  remotePort := 69
  ourPort := 1024
  timeoutCount := 0
  timeoutCountMax := 10
  curBlock := 9
  prevBlock := 9
  blockWrap := 1
  blockWrapOffset := 0x2000000
  putActive := true
  putFinalBlockSent := true
  blockSize := 1468
  netBootFileSize := 77
  net := .success
  overrun := false
  mem := fun _ => 0

theorem tftp_get_delivers_three :
    ∃ d, GetRuns smallDownload ⟨2000, none⟩ [1, 2, 3] (Download.start smallDownload leftoverClient) d ∧
      region d.client.mem 0x82000000 3 = [1, 2, 3] ∧ d.client.netBootFileSize = 3 := by
  obtain ⟨d, run, hs⟩ := @run_completes smallDownload ⟨2000, none⟩ [1, 2, 3] (by decide)
    leftoverClient
  exact ⟨d, run, tftp_get_delivers (by decide) run hs⟩

/- `net_boot_file_size` has 32 bits: 4 GiB cannot be told from nothing. -/
theorem tftp_get_large_file :
    ¬ ∀ (cfg : Config) (srv : Server) (file : List UInt8) (c₀ : Client) (d : Download),
      GetRuns cfg srv file (Download.start cfg c₀) d → d.client.net = .success →
      region d.client.mem cfg.loadAddr file.length = file ∧
        d.client.netBootFileSize = file.length := by
  intro hall
  obtain ⟨d, run, hs⟩ := @run_completes smallDownload ⟨2000, none⟩ (List.replicate (2 ^ 32) 0)
    (by decide) leftoverClient
  obtain ⟨k, h⟩ := run.inv (GetInv.start leftoverClient)
  have hsmall := h.small
  have hsize := (hall _ _ _ _ d run hs).2
  rw [length_replicate] at hsize
  lia

end UBoot.Tftp
