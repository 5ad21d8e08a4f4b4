import UBoot.Net.Tftp

/-!
# Uploads

`tftpput` against a server that answers every packet once, and over a network that loses, repeats
and reorders. The offset never learns that the number has wrapped.
-/

namespace UBoot.Tftp

open List Nat Option

def Server.answer (srv : Server) : Packet → Option Packet
  | .wrq _ =>
    match srv.options with
    | some opts => some (.oack opts)
    | none => some (.ack 0)
  | .data block _ => some (.ack block)
  | _ => none

structure Upload where
  client : Client
  inFlight : Option Packet
  sent : List Packet

/- The server answers the packet in flight and the client handles the answer. -/
def Upload.round (cfg : Config) (srv : Server) (u : Upload) : Upload :=
  match u.inFlight.bind srv.answer with
  | none => u
  | some reply =>
    if u.client.net = .loop then
      let (c, pkt) := tftpHandler cfg u.client cfg.ourPort srv.port reply
      ⟨c, pkt, u.sent ++ pkt.toList⟩
    else u

def Upload.start (cfg : Config) (c₀ : Client) : Upload :=
  let (c, pkt) := tftpStart cfg c₀ true
  ⟨c, some pkt, [pkt]⟩

def Upload.after (cfg : Config) (srv : Server) (c₀ : Client) : ℕ → Upload
  | 0 => Upload.start cfg c₀
  | n + 1 => (Upload.after cfg srv c₀ n).round cfg srv

def Packet.payload? : Packet → Option (List UInt8)
  | .data _ payload => some payload
  | _ => none

def Upload.payloads (u : Upload) : List (List UInt8) := u.sent.filterMap Packet.payload?

/- The exchange ends in success with no store behind the end of the packet, the DATA packets carry
the file and the last one is short. -/
def SendsFile (cfg : Config) (srv : Server) (c₀ : Client) : Prop :=
  ∃ n, (Upload.after cfg srv c₀ n).client.net = .success ∧
    (Upload.after cfg srv c₀ n).client.overrun = false ∧
    (Upload.after cfg srv c₀ n).payloads.flatten = region c₀.mem cfg.saveAddr cfg.saveSize ∧
    ∃ full last, (Upload.after cfg srv c₀ n).payloads = full ++ [last] ∧ last.length < srv.blockSize

theorem Upload.round_answered {cfg : Config} {srv : Server} (u : Upload) {pkt reply : Packet}
    {res : Client × Option Packet} (hn : u.client.net = .loop) (hf : u.inFlight = some pkt)
    (ha : srv.answer pkt = some reply)
    (hh : tftpHandler cfg u.client cfg.ourPort srv.port reply = res) :
    u.round cfg srv = ⟨res.1, res.2, u.sent ++ res.2.toList⟩ := by
  simp only [round, hf, bind_some, ha, hn, if_true, hh]

section Exchange

variable (cfg : Config) (srv : Server) (c₀ : Client)

/- What `load_block` takes for a block number while nothing has wrapped. -/
def numbered (bs k : ℕ) : List UInt8 :=
  let offset := ulong (((k : ℤ) - 1) * bs)
  region c₀.mem (cfg.saveAddr + offset) (min (ulong ((cfg.saveSize : ℤ) - offset)) bs)

/- A client whose upload is going on, with the block size `bs`. -/
structure Ready (bs : ℕ) (c : Client) : Prop where
  net : c.net = .loop
  state : c.state = .data
  ourPort : c.ourPort = cfg.ourPort
  remotePort : c.remotePort = srv.port
  putActive : c.putActive = true
  prevBlock : c.prevBlock = 0
  wrapOffset : c.blockWrapOffset = 0
  blockSize : c.blockSize = bs
  size : c.netBootFileSize = cfg.saveSize
  mem : c.mem = c₀.mem

/- It waits for the acknowledgement of the block it sent as number `k`. -/
structure Sending (bs k : ℕ) (u : Upload) : Prop where
  ready : Ready cfg srv c₀ bs u.client
  number : k < 2 ^ 16
  curBlock : u.client.curBlock = k
  final : u.client.putFinalBlockSent = decide ((numbered cfg c₀ bs k).length < bs)
  inFlight : u.inFlight = some (.data k (numbered cfg c₀ bs k))
  overrun : u.client.overrun = u.payloads.any (overruns cfg)

variable {cfg srv c₀} {bs k : ℕ} {u : Upload}

theorem Ready.load {c : Client} (h : Ready cfg srv c₀ bs c) :
    loadBlock cfg c k c.blockSize = numbered cfg c₀ bs k := by
  simp only [loadBlock, numbered, h.wrapOffset, h.size, h.mem, h.blockSize, cast_zero, add_zero]

theorem Ready.send {c : Client} (h : Ready cfg srv c₀ bs c) (sent : List Packet) (hk : k < 2 ^ 16)
    (ho : c.overrun = (sent.filterMap Packet.payload?).any (overruns cfg))
    {res : Client × Option Packet} (hc : c.curBlock = k) (hres : sending cfg c = res) :
    Sending cfg srv c₀ bs k ⟨res.1, res.2, sent ++ res.2.toList⟩ ∧
      res.2 = some (.data k (numbered cfg c₀ bs k)) := by
  rw [sending_data h.state h.putActive, h.load, hc, mod_eq_of_lt hk] at hres
  subst hres
  refine ⟨⟨⟨h.net, h.state, h.ourPort, h.remotePort, h.putActive, h.prevBlock, h.wrapOffset,
    h.blockSize, h.size, h.mem⟩, hk, rfl, ?_, rfl, ?_⟩, rfl⟩
  · simp only [h.blockSize]
  · simp [Upload.payloads, Packet.payload?, filterMap_append, ho]

theorem Sending.next (h : Sending cfg srv c₀ bs k u) (hfull : bs ≤ (numbered cfg c₀ bs k).length) :
    Sending cfg srv c₀ bs ((k + 1) % 2 ^ 16) (u.round cfg srv) ∧
      (u.round cfg srv).payloads = u.payloads ++ [numbered cfg c₀ bs ((k + 1) % 2 ^ 16)] := by
  have hfin : u.client.putFinalBlockSent = false := by
    rw [h.final]
    exact decide_eq_false (by lia)
  have hlt : (k + 1) % 2 ^ 16 < 2 ^ 16 := mod_lt _ (by norm_num)
  have hready : Ready cfg srv c₀ bs { u.client with curBlock := (k + 1) % 2 ^ 16 } :=
    ⟨h.ready.net, h.ready.state, h.ready.ourPort, h.ready.remotePort, h.ready.putActive,
      h.ready.prevBlock, h.ready.wrapOffset, h.ready.blockSize, h.ready.size, h.ready.mem⟩
  have hhandle : tftpHandler cfg u.client cfg.ourPort srv.port (.ack k) =
      sending cfg { u.client with curBlock := (k + 1) % 2 ^ 16 } := by
    rw [tftpHandler_of_data _ h.ready.ourPort h.ready.remotePort, handlePacket,
      handleAck_more k h.ready.putActive hfin, updateBlockNumber_same (.inl hready.prevBlock),
      if_pos h.curBlock]
  obtain ⟨hsend, hpkt⟩ := hready.send u.sent hlt h.overrun rfl hhandle.symm
  rw [u.round_answered h.ready.net h.inFlight rfl rfl]
  refine ⟨hsend, ?_⟩
  simp only [Upload.payloads, filterMap_append, hpkt]
  rfl

theorem Sending.finish (h : Sending cfg srv c₀ bs k u)
    (hshort : (numbered cfg c₀ bs k).length < bs) :
    u.round cfg srv = ⟨tftpComplete u.client, none, u.sent⟩ := by
  have hfin : u.client.putFinalBlockSent = true := by
    rw [h.final]
    exact decide_eq_true hshort
  have hhandle : tftpHandler cfg u.client cfg.ourPort srv.port (.ack k) =
      (tftpComplete u.client, none) := by
    rw [tftpHandler_of_data _ h.ready.ourPort h.ready.remotePort]
    exact handleAck_final k h.ready.putActive hfin
  rw [u.round_answered h.ready.net h.inFlight rfl hhandle]
  simp

theorem start_client (cfg : Config) (c₀ : Client) : ∃ c, Upload.start cfg c₀ =
      ⟨c, some (.wrq (request cfg)), [.wrq (request cfg)]⟩ ∧
    c.net = .loop ∧ c.state = .sendWrq ∧ c.ourPort = cfg.ourPort ∧ c.putActive = true ∧
    c.prevBlock = 0 ∧ c.blockWrapOffset = 0 ∧ c.putFinalBlockSent = false ∧ c.curBlock = 0 ∧
    c.blockSize = tftpBlockSize ∧ c.netBootFileSize = cfg.saveSize ∧ c.mem = c₀.mem ∧
    c.overrun = false := by
  exact ⟨_, rfl, rfl, rfl, rfl, rfl, rfl, rfl, rfl, rfl, rfl, rfl, rfl, rfl⟩

variable {opts : List UInt8}

theorem sending_one (ho : srv.options = some opts) :
    Sending cfg srv c₀ srv.blockSize 1 (Upload.after cfg srv c₀ 1) ∧
      (Upload.after cfg srv c₀ 1).payloads = [numbered cfg c₀ srv.blockSize 1] := by
  obtain ⟨c, hstart, hnet, hstate, hport, hput, hprev, hwrap, -, hcur, hbs, hsize, hmem, hover⟩ :=
    start_client cfg c₀
  have hblock : srv.blockSize = ackedBlockSize c.blockSize opts := by
    rw [hbs, Server.blockSize, ho]
  have hready : Ready cfg srv c₀ srv.blockSize { c with
      state := .data, remotePort := srv.port, blockSize := ackedBlockSize c.blockSize opts,
      curBlock := (c.curBlock + 1) % 2 ^ 32 } :=
    ⟨hnet, rfl, hport, rfl, hput, hprev, hwrap, hblock.symm, hsize, hmem⟩
  have hhandle : tftpHandler cfg c cfg.ourPort srv.port (.oack opts) = sending cfg { c with
      state := .data, remotePort := srv.port, blockSize := ackedBlockSize c.blockSize opts,
      curBlock := (c.curBlock + 1) % 2 ^ 32 } := by
    rw [tftpHandler_of_request _ (.inr hstate) hport]
    exact handleOack_put srv.port opts hput
  have hone : (c.curBlock + 1) % 2 ^ 32 = 1 := by lia
  obtain ⟨hsend, hpkt⟩ := hready.send [.wrq (request cfg)] (by norm_num) hover hone
    hhandle.symm
  have hans : srv.answer (.wrq (request cfg)) = some (.oack opts) := by
    simp only [Server.answer, ho]
  rw [Upload.after, Upload.after, hstart, Upload.round_answered _ hnet rfl hans rfl]
  refine ⟨hsend, ?_⟩
  simp only [Upload.payloads, hpkt]
  rfl

/- The number of the block sent after `i` others. -/
def blockAt (cfg : Config) (srv : Server) (c₀ : Client) (i : ℕ) : List UInt8 :=
  numbered cfg c₀ srv.blockSize ((i + 1) % 2 ^ 16)

theorem sending_after (ho : srv.options = some opts) (n : ℕ)
    (hfull : ∀ i < n, srv.blockSize ≤ (blockAt cfg srv c₀ i).length) :
    Sending cfg srv c₀ srv.blockSize ((n + 1) % 2 ^ 16) (Upload.after cfg srv c₀ (n + 1)) ∧
      (Upload.after cfg srv c₀ (n + 1)).payloads =
        (List.range (n + 1)).map (blockAt cfg srv c₀) := by
  induction n with
  | zero => exact sending_one ho
  | succ n ih =>
    obtain ⟨hsend, hpay⟩ := ih fun i hi => hfull i (lt_succ_of_lt hi)
    obtain ⟨hsend', hpay'⟩ := hsend.next (hfull n (lt_succ_self n))
    have hnum : ((n + 1) % 2 ^ 16 + 1) % 2 ^ 16 = (n + 1 + 1) % 2 ^ 16 := mod_add_mod ..
    rw [hnum] at hsend' hpay'
    refine ⟨hsend', ?_⟩
    rw [Upload.after, hpay', hpay, range_succ (n := n + 1), map_append]
    rfl

theorem Upload.round_idle (h : u.inFlight = none) : u.round cfg srv = u := by
  simp only [round, h, bind_none]

variable {n : ℕ}

theorem after_idle (h : (Upload.after cfg srv c₀ n).inFlight = none) (d : ℕ) :
    Upload.after cfg srv c₀ (n + d) = Upload.after cfg srv c₀ n := by
  induction d with
  | zero => rfl
  | succ d ih =>
    rw [← Nat.add_assoc, Upload.after, ih]
    exact Upload.round_idle h

theorem after_short (ho : srv.options = some opts) {j : ℕ}
    (hfull : ∀ i < j, srv.blockSize ≤ (blockAt cfg srv c₀ i).length)
    (hshort : (blockAt cfg srv c₀ j).length < srv.blockSize) (d : ℕ) :
    (Upload.after cfg srv c₀ (j + 2 + d)).client.net = .success ∧
      (Upload.after cfg srv c₀ (j + 2 + d)).client.overrun =
        ((List.range (j + 1)).map (blockAt cfg srv c₀)).any (overruns cfg) ∧
      (Upload.after cfg srv c₀ (j + 2 + d)).payloads =
        (List.range (j + 1)).map (blockAt cfg srv c₀) := by
  obtain ⟨hsend, hpay⟩ := sending_after ho j hfull
  have hlast : Upload.after cfg srv c₀ (j + 2) =
      ⟨tftpComplete (Upload.after cfg srv c₀ (j + 1)).client, none,
        (Upload.after cfg srv c₀ (j + 1)).sent⟩ := hsend.finish hshort
  have hidle : (Upload.after cfg srv c₀ (j + 2)).inFlight = none := by rw [hlast]
  rw [after_idle hidle, hlast]
  exact ⟨rfl, by rw [← hpay]; exact hsend.overrun, hpay⟩

theorem after_noOptions (ho : srv.options = none) (n : ℕ) :
    (Upload.after cfg srv c₀ n).payloads = [] := by
  obtain ⟨c, hstart, hnet, hstate, hport, hput, hprev, -, hfin, hcur, -⟩ := start_client cfg c₀
  have hans : srv.answer (.wrq (request cfg)) = some (.ack 0) := by
    simp only [Server.answer, ho]
  have hcurs : ∀ k, updateBlockNumber { c with curBlock := k } = { c with curBlock := k } :=
    fun k => updateBlockNumber_same (.inl hprev)
  have hfirst : tftpHandler cfg c cfg.ourPort srv.port (.ack 0) =
      ({ c with curBlock := 1 }, some (.wrq (request cfg))) := by
    rw [tftpHandler_of_request _ (.inr hstate) hport, handlePacket,
      handleAck_more 0 hput hfin, hcurs, if_pos hcur]
    simp only [sending, tftpSend, hstate]
    rfl
  have hsecond : tftpHandler cfg { c with curBlock := 1 } cfg.ourPort srv.port (.ack 0) =
      ({ c with curBlock := 1 }, none) := by
    rw [tftpHandler_of_request (c := { c with curBlock := 1 }) _ (.inr hstate) hport, handlePacket,
      handleAck_more (c := { c with curBlock := 1 }) 0 hput hfin, hcurs, if_neg (by norm_num)]
    rfl
  have hone : Upload.after cfg srv c₀ 1 = ⟨{ c with curBlock := 1 }, some (.wrq (request cfg)),
      [.wrq (request cfg), .wrq (request cfg)]⟩ := by
    rw [Upload.after, Upload.after, hstart]
    exact (Upload.mk c _ [.wrq (request cfg)]).round_answered hnet rfl hans hfirst
  have htwo : Upload.after cfg srv c₀ 2 = ⟨{ c with curBlock := 1 }, none,
      [.wrq (request cfg), .wrq (request cfg)]⟩ := by
    rw [Upload.after, hone]
    exact (Upload.mk { c with curBlock := 1 } _
      [.wrq (request cfg), .wrq (request cfg)]).round_answered hnet rfl hans hsecond
  rcases n with _ | _ | d
  · rw [Upload.after, hstart]
    rfl
  · rw [hone]
    rfl
  · rw [show d + 1 + 1 = 2 + d by lia, after_idle (by rw [htwo]), htwo]
    rfl

theorem sendsFile_blocks : SendsFile cfg srv c₀ ↔
    srv.options.isSome ∧ ∃ j, (∀ i < j, srv.blockSize ≤ (blockAt cfg srv c₀ i).length) ∧
      (blockAt cfg srv c₀ j).length < srv.blockSize ∧
      ((List.range (j + 1)).map (blockAt cfg srv c₀)).any (overruns cfg) = false ∧
      ((List.range (j + 1)).map (blockAt cfg srv c₀)).flatten =
        region c₀.mem cfg.saveAddr cfg.saveSize := by
  constructor
  · intro hsends
    obtain ⟨n, hnet, hover, hflat, full, last, hpay, hlast⟩ := hsends
    cases ho : srv.options with
    | none =>
      rw [after_noOptions ho] at hpay
      simp at hpay
    | some opts =>
      refine ⟨rfl, ?_⟩
      -- the least index of a short block exists: otherwise every packet is full
      by_cases hex : ∃ j, (blockAt cfg srv c₀ j).length < srv.blockSize
      · have hmin : ∀ i < Nat.find hex, srv.blockSize ≤ (blockAt cfg srv c₀ i).length :=
          fun i hi => not_lt.mp (Nat.find_min hex hi)
        refine ⟨Nat.find hex, hmin, Nat.find_spec hex, ?_⟩
        by_cases hn : Nat.find hex + 2 ≤ n
        · obtain ⟨d, rfl⟩ := Nat.exists_eq_add_of_le hn
          obtain ⟨-, hany, hpays⟩ := after_short ho hmin (Nat.find_spec hex) d
          rw [hpays] at hflat
          exact ⟨hany.symm.trans hover, hflat⟩
        · exfalso
          match n with
          | 0 => cases hnet
          | m + 1 =>
            have hsend := (sending_after ho m fun i hi => hmin i (by lia)).1
            rw [hsend.ready.net] at hnet
            cases hnet
      · exfalso
        match n with
        | 0 => cases hnet
        | m + 1 =>
          have hsend := (sending_after ho m fun i _ => not_lt.mp fun hi => hex ⟨i, hi⟩).1
          rw [hsend.ready.net] at hnet
          cases hnet
  · intro hblocks
    obtain ⟨hsome, j, hfull, hshort, hany, hflat⟩ := hblocks
    obtain ⟨opts, ho⟩ := isSome_iff_exists.mp hsome
    obtain ⟨hnet, hover, hpay⟩ := after_short ho hfull hshort 0
    refine ⟨j + 2, hnet, hover.trans hany, ?_, (List.range j).map (blockAt cfg srv c₀), blockAt cfg srv c₀ j, ?_,
      hshort⟩
    · exact hpay ▸ hflat
    · rw [show j + 2 = j + 2 + 0 from rfl, hpay, range_succ, map_append]
      rfl

variable (cfg srv c₀) in
theorem length_blockAt_le (i : ℕ) : (blockAt cfg srv c₀ i).length ≤ srv.blockSize := by
  simp only [blockAt, numbered, length_region]
  exact Nat.min_le_right _ _

theorem blockAt_eq {i : ℕ} (hi : i + 1 < 2 ^ 16) (hle : i * srv.blockSize ≤ cfg.saveSize) :
    blockAt cfg srv c₀ i = region c₀.mem (cfg.saveAddr + i * srv.blockSize)
      (min (cfg.saveSize - i * srv.blockSize) srv.blockSize) := by
  have hsize := cfg.saveSize_lt
  have hoff : ulong ((((i + 1 : ℕ) : ℤ) - 1) * srv.blockSize) = i * srv.blockSize := by
    rw [cast_succ, add_sub_cancel_right, ← cast_mul]
    exact ulong_of_lt (by lia)
  have hrest : ulong ((cfg.saveSize : ℤ) - (i * srv.blockSize : ℕ)) =
      cfg.saveSize - i * srv.blockSize := by
    rw [← cast_sub hle]
    exact ulong_of_lt (by lia)
  simp only [blockAt, numbered, mod_eq_of_lt hi]
  rw [hoff, hrest]

theorem blockAt_full {i : ℕ} (hi : i + 1 < 2 ^ 16) (hle : (i + 1) * srv.blockSize ≤ cfg.saveSize) :
    blockAt cfg srv c₀ i = region c₀.mem (cfg.saveAddr + i * srv.blockSize) srv.blockSize := by
  rw [succ_mul] at hle
  rw [blockAt_eq hi (by lia), Nat.min_eq_right (by lia)]

theorem flatten_blocks (hn : n < 2 ^ 16) (hle : n * srv.blockSize ≤ cfg.saveSize) :
    ((List.range n).map (blockAt cfg srv c₀)).flatten =
      region c₀.mem cfg.saveAddr (n * srv.blockSize) := by
  induction n with
  | zero => simp [region]
  | succ n ih =>
    have hprev : n * srv.blockSize ≤ cfg.saveSize := (Nat.mul_le_mul_right _ (le_succ n)).trans hle
    rw [range_succ, map_append, flatten_append, ih (by lia) hprev,
      succ_mul, region_append, ← blockAt_full hn hle]
    simp

theorem length_flatten_blocks (hfull : ∀ i < n, srv.blockSize ≤ (blockAt cfg srv c₀ i).length) :
    ((List.range n).map (blockAt cfg srv c₀)).flatten.length = n * srv.blockSize := by
  induction n with
  | zero => simp
  | succ n ih =>
    have hle := length_blockAt_le cfg srv c₀ n
    have hge := hfull n (lt_succ_self n)
    rw [range_succ, map_append, flatten_append, length_append,
      ih fun i hi => hfull i (lt_succ_of_lt hi), succ_mul]
    simp only [map_cons, map_nil, flatten_cons, flatten_nil, append_nil]
    lia

theorem length_wrapped :
    (blockAt cfg srv c₀ 65535).length = min ((cfg.saveSize + srv.blockSize) % 2 ^ 32) srv.blockSize := by
  have hbs := srv.blockSize_lt
  have hsize := cfg.saveSize_lt
  simp only [blockAt, numbered, length_region, ulong]
  congr 1
  lia

/-- The largest DATA packet of the upload fits in `net_tx_packet`. -/
def PacketFits (cfg : Config) (bs : ℕ) : Prop :=
  cfg.ethHdrSize + ipUdpHdrSize + 4 + min cfg.saveSize bs ≤ pktSizeAlign

theorem sendsFile_of_sizes (ho : srv.options.isSome) (hbs : 1 ≤ srv.blockSize)
    (hfits : PacketFits cfg srv.blockSize)
    (hn : cfg.saveSize / srv.blockSize + 1 ≤ 65535) : SendsFile cfg srv c₀ := by
  obtain ⟨j, hj⟩ : ∃ j, j = cfg.saveSize / srv.blockSize := ⟨_, rfl⟩
  have hdiv := div_add_mod cfg.saveSize srv.blockSize
  have hmod := mod_lt cfg.saveSize hbs
  rw [← hj, Nat.mul_comm] at hdiv
  have hlast : blockAt cfg srv c₀ j = region c₀.mem (cfg.saveAddr + j * srv.blockSize)
      (cfg.saveSize % srv.blockSize) := by
    rw [blockAt_eq (by lia) (by lia)]
    congr 1
    lia
  refine sendsFile_blocks.mpr ⟨ho, j, ?_, ?_, ?_, ?_⟩
  · intro i hi
    have hle : (i + 1) * srv.blockSize ≤ j * srv.blockSize := Nat.mul_le_mul_right _ hi
    rw [blockAt_full (by lia) (by lia), length_region]
  · rw [hlast, length_region]
    exact hmod
  · rw [List.any_eq_false]
    intro payload hpayload
    obtain ⟨i, hi, rfl⟩ := mem_map.mp hpayload
    have hle : i * srv.blockSize ≤ j * srv.blockSize :=
      Nat.mul_le_mul_right _ (Nat.lt_succ_iff.mp (mem_range.mp hi))
    have hi' := mem_range.mp hi
    rw [PacketFits] at hfits
    rw [overruns, blockAt_eq (by lia) (by lia), length_region, decide_eq_true_iff]
    lia
  · rw [range_succ, map_append, flatten_append, flatten_blocks (by lia) (by lia)]
    simp only [map_cons, map_nil, flatten_cons, flatten_nil, append_nil]
    rw [hlast, ← region_append, hdiv]

theorem sizes_of_sendsFile (h : SendsFile cfg srv c₀) :
    srv.options.isSome ∧ 1 ≤ srv.blockSize ∧ PacketFits cfg srv.blockSize ∧
      cfg.saveSize / srv.blockSize + 1 ≤ 65535 := by
  obtain ⟨ho, j, hfull, hshort, hany, hflat⟩ := sendsFile_blocks.mp h
  have hbs : 1 ≤ srv.blockSize := by lia
  have hlt := srv.blockSize_lt
  have hlen := congrArg List.length hflat
  rw [range_succ, map_append, flatten_append, length_append,
    length_flatten_blocks hfull, length_region] at hlen
  simp only [map_cons, map_nil, flatten_cons, flatten_nil, append_nil] at hlen
  have hj : cfg.saveSize / srv.blockSize = j := by
    rw [← hlen, Nat.mul_comm, mul_add_div hbs, div_eq_of_lt hshort, Nat.add_zero]
  have hfits : PacketFits cfg srv.blockSize := by
    have hfirst := List.any_eq_false.mp hany _ (mem_map_of_mem (mem_range.mpr (succ_pos j)))
    rw [overruns, blockAt_eq (by decide) (by lia), length_region, decide_eq_true_iff] at hfirst
    rw [PacketFits]
    lia
  refine ⟨ho, hbs, hfits, ?_⟩
  rw [hj]
  have hperiod : j < 2 ^ 16 := by
    by_contra hge
    have hnum : (j - 2 ^ 16 + 1) % 2 ^ 16 = (j + 1) % 2 ^ 16 := by lia
    have hsame : blockAt cfg srv c₀ (j - 2 ^ 16) = blockAt cfg srv c₀ j := by
      rw [blockAt, hnum, blockAt]
    have hfullj := hfull (j - 2 ^ 16) (by lia)
    rw [hsame] at hfullj
    lia
  by_contra hwrap
  have hj' : j = 65535 := by lia
  subst hj'
  rw [length_wrapped] at hlen hshort
  lia

end Exchange

/- An upload sends the file exactly when the server answers the WRQ by an OACK, the packets hold its
blocks, and these, the short one included, are no more than 65535. -/
theorem tftpput_sendsFile_iff (cfg : Config) (srv : Server) (c₀ : Client) :
    SendsFile cfg srv c₀ ↔
      srv.options.isSome ∧ 1 ≤ srv.blockSize ∧ PacketFits cfg srv.blockSize ∧
        cfg.saveSize / srv.blockSize + 1 ≤ 65535 := by
  constructor
  · exact sizes_of_sendsFile
  · intro h
    exact sendsFile_of_sizes h.1 h.2.1 h.2.2.1 h.2.2.2

/- 32 MiB in blocks of 512 bytes, on a server that takes any option. -/
theorem tftpput_large_file :
    ¬ ∀ (cfg : Config) (srv : Server) (c₀ : Client), 1 ≤ srv.blockSize → SendsFile cfg srv c₀ := by
  intro h
  have hsends := h
    { loadAddr := 0, saveAddr := 0x82000000, saveSize := 0x2000000, filename := [],
      timeoutMs := 5000, blockSizeOption := 1468, timeoutCountMax := 10, ourPort := 1024,
      ethHdrSize := 14, saveSize_lt := by norm_num }
    ⟨2000, some []⟩
    { state := .sendWrq, remotePort := 0, ourPort := 0, timeoutCount := 0, timeoutCountMax := 0,
      curBlock := 0, prevBlock := 0, blockWrap := 0, blockWrapOffset := 0, putActive := false,
      putFinalBlockSent := false, blockSize := 512, netBootFileSize := 0, net := .loop,
      overrun := false, mem := fun _ => 0 } (by decide)
  have hsizes := (sizes_of_sendsFile hsends).2.2.2
  revert hsizes
  decide

end UBoot.Tftp
