import UBoot.Net.Tftp

/-!
# Uploads over a network that loses, repeats and reorders

The log of a run holds the datagrams sent and received, oldest first. The server acknowledges any
DATA packet that was ever sent; its answers arrive in any order, any number of times or never.
-/

namespace UBoot.Tftp

open List

inductive Event
  | sent (pkt : Packet)
  | received (pkt : Packet)
deriving DecidableEq, Repr

inductive Answers (log : List Event) : Packet → Prop
  | ack {block : ℕ} {payload : List UInt8} (h : .sent (.data block payload) ∈ log) :
      Answers log (.ack block)
  | ackRequest {req : Request} (h : .sent (.wrq req) ∈ log) : Answers log (.ack 0)
  | oack {req : Request} (opts : List UInt8) (h : .sent (.wrq req) ∈ log) :
      Answers log (.oack opts)

structure Put where
  client : Client
  log : List Event

def Put.logged (log : List Event) (res : Client × Option Packet) : Put :=
  ⟨res.1, log ++ res.2.toList.map .sent⟩

inductive Input
  | packet (pkt : Packet)
  | timeout

def Put.start (cfg : Config) (c₀ : Client) : Put :=
  let (c, pkt) := tftpStart cfg c₀ true
  ⟨c, [.sent pkt]⟩

inductive PutStep (cfg : Config) (port : ℕ) : Put → Input → Put → Prop
  | packet {p : Put} {pkt : Packet} (net : p.client.net = .loop) (answers : Answers p.log pkt) :
      PutStep cfg port p (.packet pkt)
        (.logged (p.log ++ [.received pkt]) (tftpHandler cfg p.client cfg.ourPort port pkt))
  | timeout {p : Put} (net : p.client.net = .loop) :
      PutStep cfg port p .timeout (.logged p.log (tftpTimeoutHandler cfg p.client))

/- An ACK that comes in after the final block has been sent is one of that block. -/
def AcksFinal (p : Put) : Input → Prop
  | .packet (.ack block) => p.client.putFinalBlockSent = true → block = p.client.curBlock % 2 ^ 16
  | _ => True

inductive PutRuns (cfg : Config) (port : ℕ) (ok : Put → Input → Prop) : Put → Put → Prop
  | refl (p : Put) : PutRuns cfg port ok p p
  | step {p p₁ p₂ : Put} {input : Input} (run : PutRuns cfg port ok p p₁)
      (step : PutStep cfg port p₁ input p₂) (meets : ok p₁ input) : PutRuns cfg port ok p p₂

/- A short block was sent, and after it an ACK with its number was received. -/
def FinalAcked (p : Put) : Prop :=
  ∃ before after block payload, p.log = before ++ .sent (.data block payload) :: after ∧
    payload.length < p.client.blockSize ∧ .received (.ack block) ∈ after

def FinalSent (c : Client) (log : List Event) : Prop :=
  ∃ before after payload, log = before ++ .sent (.data (c.curBlock % 2 ^ 16) payload) :: after ∧
    payload.length < c.blockSize

structure PutInv (p : Put) : Prop where
  active : p.client.putActive = true
  state : p.client.state = .sendWrq ∨ p.client.state = .data
  request : p.client.state = .sendWrq → p.client.putFinalBlockSent = false
  final : p.client.putFinalBlockSent = true → FinalSent p.client p.log

section Steps

variable {cfg : Config} {port : ℕ} {p p' : Put} {c : Client} {log : List Event}

theorem FinalSent.append (h : FinalSent c log) (more : List Event) : FinalSent c (log ++ more) := by
  obtain ⟨before, after, payload, hlog, hshort⟩ := h
  refine ⟨before, after ++ more, payload, ?_, hshort⟩
  rw [hlog, append_assoc, cons_append]

theorem PutInv.append (h : PutInv ⟨c, log⟩) (more : List Event) : PutInv ⟨c, log ++ more⟩ :=
  ⟨h.active, h.state, h.request, fun hf => (h.final hf).append more⟩

theorem sending_inv (ha : c.putActive = true) (hs : c.state = .sendWrq ∨ c.state = .data)
    (hr : c.state = .sendWrq → c.putFinalBlockSent = false) : PutInv (.logged log (sending cfg c)) := by
  cases hs with
  | inl hs =>
    have hsend : sending cfg c = (c, some (.wrq (request cfg))) := by
      simp only [sending, tftpSend, hs]
    rw [hsend]
    refine ⟨ha, .inl hs, hr, ?_⟩
    intro hf
    simp [Put.logged, hr hs] at hf
  | inr hs =>
    rw [sending_data hs ha]
    refine ⟨ha, .inr hs, ?_, ?_⟩
    · intro hw
      simp [Put.logged, hs] at hw
    · intro hf
      exact ⟨log, [], loadBlock cfg c c.curBlock c.blockSize, rfl, of_decide_eq_true hf⟩

theorem handleAck_inv (h : PutInv ⟨c, log⟩) (block : ℕ)
    (hf : c.putFinalBlockSent = false) : PutInv (.logged log (handleAck cfg c block)) := by
  have hact : c.putActive = true := h.active
  obtain ⟨c₁, hc₁⟩ : ∃ c₁, c₁ = updateBlockNumber { c with curBlock := (block + 1) % 2 ^ 16 } :=
    ⟨_, rfl⟩
  have hsame : c₁.putActive = c.putActive ∧ c₁.state = c.state ∧
      c₁.putFinalBlockSent = c.putFinalBlockSent := by
    rw [hc₁, updateBlockNumber]
    split
    · exact ⟨rfl, rfl, rfl⟩
    · exact ⟨rfl, rfl, rfl⟩
  have hactive : c₁.putActive = true := hsame.1.trans hact
  have hstate : c₁.state = .sendWrq ∨ c₁.state = .data := by
    rw [hsame.2.1]
    exact h.state
  have hflag : c₁.putFinalBlockSent = false := hsame.2.2.trans hf
  rw [handleAck_more block hact hf, ← hc₁]
  simp only
  split
  · exact sending_inv hactive hstate fun _ => hflag
  · refine ⟨hactive, hstate, fun _ => hflag, ?_⟩
    intro hf'
    simp [Put.logged, hflag] at hf'

theorem handleAck_net (block : ℕ) (ha : c.putActive = true) (hf : c.putFinalBlockSent = false) :
    (handleAck cfg c block).1.net = c.net := by
  have hupd : ∀ c₁ : Client, (updateBlockNumber c₁).net = c₁.net := by
    intro c₁
    unfold updateBlockNumber
    split
    · rfl
    · rfl
  rw [handleAck_more block ha hf]
  simp only
  split
  · rw [sending_net, hupd]
  · rw [hupd]

theorem handlePacket_inv (h : PutInv ⟨c, log⟩) {pkt : Packet} (ha : Answers log pkt)
    (hok : AcksFinal ⟨c, log⟩ (.packet pkt)) (hn : c.net = .loop) {p' : Put}
    (hp' : p' = .logged (log ++ [.received pkt]) (handlePacket cfg c port pkt)) :
    PutInv p' ∧ (p'.client.net = .success → FinalAcked p') := by
  have hmore : PutInv ⟨c, log ++ [.received pkt]⟩ := h.append _
  have hack : ∀ block, pkt = .ack block →
      PutInv p' ∧ (p'.client.net = .success → FinalAcked p') := by
    intro block hpkt
    subst hpkt
    rw [handlePacket] at hp'
    cases hf : c.putFinalBlockSent with
    | false =>
      subst hp'
      refine ⟨handleAck_inv hmore block hf, ?_⟩
      intro hs
      rw [Put.logged, handleAck_net block h.active hf, hn] at hs
      cases hs
    | true =>
      rw [handleAck_final block h.active hf] at hp'
      obtain ⟨before, after, payload, hlog, hshort⟩ := h.final hf
      have hnum : block = c.curBlock % 2 ^ 16 := hok hf
      subst hp'
      refine ⟨⟨hmore.active, hmore.state, hmore.request, fun hf' => ?_⟩, fun _ => ?_⟩
      · exact (hmore.final hf').append []
      · refine ⟨before, after ++ [.received (.ack block)], block, payload, ?_, hshort, ?_⟩
        · simp only at hlog
          simp [Put.logged, hlog, hnum]
        · simp
  cases ha with
  | ack hsent => exact hack _ rfl
  | ackRequest hsent => exact hack _ rfl
  | oack opts hsent =>
    rw [handlePacket, handleOack_put port opts h.active] at hp'
    subst hp'
    refine ⟨sending_inv h.active (.inr rfl) (fun hw => by cases hw), ?_⟩
    intro hs
    rw [Put.logged, sending_net] at hs
    simp [hn] at hs

theorem PutStep.inv {input : Input} (step : PutStep cfg port p input p') (h : PutInv p)
    (hok : AcksFinal p input) : PutInv p' ∧ (p'.client.net = .success → FinalAcked p') := by
  cases step with
  | packet net answers =>
    rename_i pkt
    cases tftpHandler_cases cfg p.client cfg.ourPort port pkt with
    | inl hignored =>
      rw [hignored]
      refine ⟨(h.append [.received pkt]).append [], ?_⟩
      intro hs
      simp [Put.logged, net] at hs
    | inr hhandled =>
      rw [hhandled]
      exact handlePacket_inv h answers hok net rfl
  | timeout net =>
    have hsend : PutInv (.logged p.log (sending cfg
        { p.client with timeoutCount := p.client.timeoutCount + 1 })) :=
      sending_inv h.active h.state h.request
    have hnotServer : p.client.state ≠ .recvWrq := by
      cases h.state with
      | inl hs => simp [hs]
      | inr hs => simp [hs]
    simp only [tftpTimeoutHandler, ne_eq, hnotServer, not_false_eq_true, if_true]
    split
    · exact ⟨⟨h.active, h.state, h.request, fun hf => (h.final hf).append []⟩,
        fun hs => by cases hs⟩
    · refine ⟨hsend, ?_⟩
      intro hs
      rw [Put.logged, sending_net] at hs
      simp [net] at hs

theorem start_inv (cfg : Config) (c₀ : Client) : PutInv (Put.start cfg c₀) :=
  ⟨rfl, .inl rfl, fun _ => rfl, fun hf => by cases hf⟩

theorem PutRuns.inv {p₀ : Put} (run : PutRuns cfg port AcksFinal p₀ p) (h₀ : PutInv p₀)
    (hn : p₀.client.net ≠ .success) : PutInv p ∧ (p.client.net = .success → FinalAcked p) := by
  induction run with
  | refl => exact ⟨h₀, fun hs => absurd hs hn⟩
  | step _ step meets ih => exact step.inv ih.1 meets

end Steps

/- In a run in which every ACK received after the final block carries that block's number,
success means that the final block has been acknowledged. -/
theorem tftpput_success_acked {cfg : Config} {port : ℕ} {c₀ : Client} {p : Put}
    (run : PutRuns cfg port AcksFinal (Put.start cfg c₀) p) (hs : p.client.net = .success) :
    FinalAcked p :=
  (run.inv (start_inv cfg c₀) (by simp [Put.start, tftpStart, tftpSend, newTransfer])).2 hs

def smallUpload : Config where
  loadAddr := 0
  saveAddr := 0x82000000
  saveSize := 600
  filename := []
  timeoutMs := 5000
  blockSizeOption := 1468
  timeoutCountMax := 10
  ourPort := 1024
  ethHdrSize := 14
  saveSize_lt := by norm_num

def idleClient : Client where
  state := .sendWrq
  remotePort := 0
  ourPort := 0
  timeoutCount := 0
  timeoutCountMax := 0
  curBlock := 0
  prevBlock := 0
  blockWrap := 0
  blockWrapOffset := 0
  putActive := false
  putFinalBlockSent := false
  blockSize := 512
  netBootFileSize := 0
  net := .loop
  overrun := false
  mem := fun _ => 0

/- The states of an upload in which the client handles these packets in turn. -/
def handled (pkts : List Packet) : Put :=
  pkts.foldl (fun p pkt => .logged (p.log ++ [.received pkt])
    (tftpHandler smallUpload p.client smallUpload.ourPort 2000 pkt)) (Put.start smallUpload idleClient)

theorem handled_snoc {ok : Put → Input → Prop} (pkts : List Packet) {pkt : Packet}
    (run : PutRuns smallUpload 2000 ok (Put.start smallUpload idleClient) (handled pkts))
    (net : (handled pkts).client.net = .loop) (answers : Answers (handled pkts).log pkt)
    (meets : ok (handled pkts) (.packet pkt)) :
    PutRuns smallUpload 2000 ok (Put.start smallUpload idleClient) (handled (pkts ++ [pkt])) := by
  rw [handled, foldl_append]
  exact .step run (.packet net answers) meets

theorem handled_two {ok : Put → Input → Prop} (h₀ : ok (handled []) (.packet (.oack [])))
    (h₁ : ok (handled [.oack []]) (.packet (.ack 1))) :
    PutRuns smallUpload 2000 ok (Put.start smallUpload idleClient) (handled [.oack [], .ack 1]) := by
  have hrequest : Answers (handled []).log (.oack []) :=
    @Answers.oack _ (request smallUpload) [] (by decide +kernel)
  have hfirst : Answers (handled [.oack []]).log (.ack 1) :=
    @Answers.ack _ 1 (List.replicate 512 0) (by decide +kernel)
  have hone : PutRuns smallUpload 2000 ok (Put.start smallUpload idleClient)
      (handled [.oack []]) := handled_snoc [] (.refl _) rfl hrequest h₀
  exact handled_snoc [.oack []] hone rfl hfirst h₁

theorem log_again : (handled [.oack [], .ack 1, .ack 1]).log =
    [.sent (.wrq (request smallUpload)), .received (.oack []),
      .sent (.data 1 (List.replicate 512 0)), .received (.ack 1),
      .sent (.data 2 (List.replicate 88 0)), .received (.ack 1)] := by
  decide +kernel

/- The last block is on its way when the ACK of the first one comes in again. -/
theorem tftpput_success_unacked :
    ¬ ∀ (cfg : Config) (port : ℕ) (c₀ : Client) (p : Put),
      PutRuns cfg port (fun _ _ => True) (Put.start cfg c₀) p → p.client.net = .success →
      FinalAcked p := by
  intro hall
  have hagain : Answers (handled [.oack [], .ack 1]).log (.ack 1) :=
    @Answers.ack _ 1 (List.replicate 512 0) (by decide +kernel)
  have hrun : PutRuns smallUpload 2000 (fun _ _ => True) (Put.start smallUpload idleClient)
      (handled [.oack [], .ack 1, .ack 1]) :=
    handled_snoc [.oack [], .ack 1] (handled_two trivial trivial) (by decide +kernel) hagain trivial
  obtain ⟨before, after, block, payload, hlog, hshort, hrecv⟩ :=
    hall _ _ _ _ hrun (by decide +kernel)
  have hbs : (handled [.oack [], .ack 1, .ack 1]).client.blockSize = 512 := by decide +kernel
  have hsent : Event.sent (.data block payload) ∈ (handled [.oack [], .ack 1, .ack 1]).log := by
    simp [hlog]
  have hack : Event.received (.ack block) ∈ (handled [.oack [], .ack 1, .ack 1]).log := by
    simp [hlog, hrecv]
  rw [log_again] at hsent hack
  rw [hbs] at hshort
  simp only [mem_cons, Event.sent.injEq, Event.received.injEq, reduceCtorEq, false_or,
    Packet.ack.injEq, Packet.data.injEq, not_mem_nil, or_false, or_self] at hsent hack
  subst hack
  cases hsent with
  | inl hfirst =>
    rw [hfirst.2, length_replicate] at hshort
    exact lt_irrefl _ hshort
  | inr hsecond => exact absurd hsecond.1 (by norm_num)

theorem tftpput_success_acked_two :
    (handled [.oack [], .ack 1, .ack 2]).client.net = .success ∧
      FinalAcked (handled [.oack [], .ack 1, .ack 2]) := by
  have hsecond : Answers (handled [.oack [], .ack 1]).log (.ack 2) :=
    @Answers.ack _ 2 (List.replicate 88 0) (by decide +kernel)
  have hflag : (handled [.oack []]).client.putFinalBlockSent = false := by decide +kernel
  have hrun : PutRuns smallUpload 2000 AcksFinal (Put.start smallUpload idleClient)
      (handled [.oack [], .ack 1, .ack 2]) := by
    refine handled_snoc [.oack [], .ack 1] (handled_two trivial ?_) (by decide +kernel) hsecond ?_
    · intro hf
      rw [hflag] at hf
      cases hf
    · intro _
      decide +kernel
  exact ⟨by decide +kernel, tftpput_success_acked hrun (by decide +kernel)⟩

end UBoot.Tftp
