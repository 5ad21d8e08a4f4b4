import UBoot.Net.Bootp

/-!
# Options inside the payload

The scans never compare with the end of the payload. They stay inside it exactly when all options on
the way, with the bytes taken of their values, do.
-/

namespace UBoot.Dhcp

open UBoot.Access
open Memory (Mem bytes)

def Allowed (len : ℕ) : Access → Prop
  | .read off n => off + n ≤ len
  | .hostname n => n ≤ hostnameSize
  | .rootPath n => n ≤ rootPathSize
  | .bootFileName n => n ≤ bootFileNameSize

section Conditions

variable (cfg : Config) (mem : Mem)

/- How many bytes are taken of the value of an option; mostly it does not depend on its length. -/
def taken (code oplen : ℕ) : ℕ :=
  match code with
  | 1 | 3 | 51 | 54 => 4
  | 2 => if cfg.timeOffset then 4 else 0
  | 42 => if cfg.ntpServer then 4 else 0
  | 6 => if cfg.dns2 ∧ 4 < oplen then 8 else 4
  | 12 => truncateSz hostnameSize oplen
  | 17 => truncateSz rootPathSize oplen
  | 67 => truncateSz bootFileNameSize oplen
  | 52 => 1
  | _ => 0

/- The options from a position on to the end marker or the limit `fin`. -/
inductive Listed (len fin : ℕ) : ℕ → Prop where
  | limit {pos : ℕ} (h : fin ≤ pos) : Listed len fin pos
  | marker {pos : ℕ} (below : pos < fin) (inside : pos < len) (h : mem pos = 255) :
      Listed len fin pos
  | option {pos : ℕ} (below : pos < fin) (h : mem pos ≠ 255)
      (value : pos + 2 + taken cfg (mem pos).toNat (mem (pos + 1)).toNat ≤ len)
      (rest : Listed len fin (nextOption mem pos)) : Listed len fin pos

inductive Typed (len : ℕ) : ℕ → Prop where
  | marker {pos : ℕ} (inside : pos < len) (h : mem pos = 255) : Typed len pos
  | messageType {pos : ℕ} (inside : pos + 2 < len) (h : mem pos = 53) : Typed len pos
  | pad {pos : ℕ} (inside : pos < len) (h : mem pos = 0) (rest : Typed len (pos + 1)) :
      Typed len pos
  | option {pos : ℕ} (inside : pos + 1 < len) (end_ : mem pos ≠ 255) (type : mem pos ≠ 53)
      (pad : mem pos ≠ 0) (rest : Typed len (pos + ((mem (pos + 1)).toNat + 2))) : Typed len pos

def overloadOf (popt fin : ℕ) (overload : UInt8) : UInt8 :=
  if _h : popt < fin then
    if mem popt = 255 then overload
    else overloadOf (nextOption mem popt) fin (if mem popt = 52 then mem (popt + 2) else overload)
  else overload
termination_by fin - popt
decreasing_by
  have := lt_nextOption mem popt
  lia

/- The overload options tell which of the two fields hold further options. -/
def PacketListed (len : ℕ) : Prop :=
  bpVend + 4 ≤ len ∧
    (bytes mem bpVend 4 = vendorMagic →
      let overload := overloadOf mem (bpVend + 4) (bpVend + 4 + bootpHdrSize) 0
      let overload' := if overload &&& 1 ≠ 0 then overloadOf mem bpFile (bpFile + 128) overload
        else overload
      Listed cfg mem len (bpVend + 4 + bootpHdrSize) (bpVend + 4) ∧
      (overload &&& 1 ≠ 0 → Listed cfg mem len (bpFile + 128) bpFile) ∧
      (overload' &&& 2 ≠ 0 → Listed cfg mem len (bpSname + 64) bpSname))

def PacketTyped (len : ℕ) : Prop :=
  bpVend + 4 ≤ len ∧ (bytes mem bpVend 4 = vendorMagic → Typed mem len (bpVend + 4))

end Conditions

section Process

variable {cfg : Config} {mem : Mem} {len : ℕ}

theorem truncateSz_le {maxlen : ℕ} (h : 0 < maxlen) (curlen : ℕ) :
    truncateSz maxlen curlen + 1 ≤ maxlen := by
  rw [truncateSz]
  split
  · lia
  · lia

theorem within_option (popt oplen : ℕ) (p : Params) (hlen : popt + 2 ≤ len) :
    Within (Allowed len) (dhcpProcessOption cfg mem popt oplen p) ↔
      popt + 2 + taken cfg (mem popt).toNat oplen ≤ len := by
  have hhost := truncateSz_le (show 0 < hostnameSize by decide) oplen
  have hroot := truncateSz_le (show 0 < rootPathSize by decide) oplen
  have hfile := truncateSz_le (show 0 < bootFileNameSize by decide) oplen
  unfold dhcpProcessOption taken
  generalize (mem popt).toNat = code
  split
  case h_2 =>
    by_cases hflag : cfg.timeOffset = true
    · simp only [if_pos hflag, within_bind, within_touch, within_pure, Allowed, and_true]
    · simp only [if_neg hflag, within_pure, Nat.add_zero, hlen]
  case h_7 =>
    by_cases hflag : cfg.ntpServer = true
    · simp only [if_pos hflag, within_bind, within_touch, within_pure, Allowed, and_true]
    · simp only [if_neg hflag, within_pure, Nat.add_zero, hlen]
  case h_4 =>
    by_cases hsecond : cfg.dns2 = true ∧ 4 < oplen
    · simp only [if_pos hsecond, within_bind, within_touch, within_pure, Allowed, and_true]
      lia
    · simp only [if_neg hsecond, within_bind, within_touch, within_pure, Allowed, and_true]
  all_goals
    simp only [within_bind, within_touch, within_pure, Allowed, and_true, Nat.add_zero, hlen, hhost,
      hroot, hfile]

theorem within_options {fin : ℕ} (popt : ℕ) (p : Params) :
    Within (Allowed len) (dhcpProcessOptions cfg mem popt fin p) ↔ Listed cfg mem len fin popt := by
  induction popt, p using dhcpProcessOptions.induct mem fin with
  | case1 popt p hlt ih =>
    rw [dhcpProcessOptions, dif_pos hlt]
    simp only [within_bind, within_touch, within_ite, within_pure, Allowed, ih, implies_true,
      true_and]
    constructor
    · rintro ⟨hcode, hoption⟩
      by_cases hend : mem popt = 255
      · exact Listed.marker hlt hcode hend
      · obtain ⟨hsize, hvalue, hrest⟩ := hoption hend
        rw [within_option popt _ p hsize] at hvalue
        exact Listed.option hlt hend hvalue hrest
    · intro hlisted
      cases hlisted with
      | limit hge => exact absurd hlt (Nat.not_lt.mpr hge)
      | marker _ hin hend => exact ⟨hin, fun hne => absurd hend hne⟩
      | option _ _ hvalue hrest =>
        have hsize : popt + 2 ≤ len := by lia
        exact ⟨by lia, fun _ => ⟨hsize, (within_option popt _ p hsize).mpr hvalue, hrest⟩⟩
  | case2 popt p hge =>
    rw [dhcpProcessOptions, dif_neg hge]
    simp only [within_pure, true_iff]
    exact Listed.limit (Nat.not_lt.mp hge)

theorem option_overload (popt oplen : ℕ) (p : Params) :
    (dhcpProcessOption cfg mem popt oplen p).val.overload =
      if mem popt = 52 then mem (popt + 2) else p.overload := by
  by_cases hcode : mem popt = 52
  · rw [if_pos hcode, dhcpProcessOption, hcode]
    rfl
  · have hne : (mem popt).toNat ≠ 52 := fun h => hcode (UInt8.toNat_inj.mp h)
    rw [if_neg hcode]
    unfold dhcpProcessOption
    split
    case h_9 hover => exact absurd hover hne
    case h_2 =>
      split
      · rfl
      · rfl
    case h_4 =>
      rw [val_bind, val_ite]
      split
      · rfl
      · rfl
    case h_7 =>
      split
      · rfl
      · rfl
    all_goals rfl

theorem options_overload {fin : ℕ} (popt : ℕ) (p : Params) :
    (dhcpProcessOptions cfg mem popt fin p).val.overload = overloadOf mem popt fin p.overload := by
  induction popt, p using dhcpProcessOptions.induct mem fin with
  | case1 popt p hlt ih =>
    rw [dhcpProcessOptions, dif_pos hlt, overloadOf, dif_pos hlt]
    simp only [val_bind, val_ite, val_pure]
    split
    · rfl
    · rw [ih, option_overload]
  | case2 popt p hge =>
    rw [dhcpProcessOptions, dif_neg hge, overloadOf, dif_neg hge, val_pure]

theorem within_packet (p : Params) :
    Within (Allowed len) (dhcpPacketProcessOptions cfg mem p) ↔ PacketListed cfg mem len := by
  rw [dhcpPacketProcessOptions, PacketListed]
  by_cases hmagic : bytes mem bpVend 4 = vendorMagic
  · simp only [within_bind, within_touch, within_ite, within_pure, Allowed, within_options, hmagic,
      ne_eq, not_true_eq_false, not_false_eq_true, true_imp_iff, true_and, and_true, implies_true,
      options_overload, val_pure]
    by_cases hfile : overloadOf mem (bpVend + 4) (bpVend + 4 + bootpHdrSize) 0 &&& 1 = 0
    · simp only [hfile, not_true_eq_false, not_false_eq_true, if_false, true_imp_iff, true_and,
        false_imp_iff]
    · simp only [hfile, not_true_eq_false, not_false_eq_true, if_true, true_imp_iff, and_true,
        false_imp_iff]
  · simp only [within_bind, within_touch, within_ite, within_pure, Allowed, hmagic, ne_eq,
      not_false_eq_true, not_true_eq_false, false_imp_iff, and_true, implies_true]

end Process

section MessageType

variable {mem : Mem} {len : ℕ}

theorem typed_of_loop (turns : ℕ) : ∀ {popt : ℕ}, (messageTypeLoop mem turns popt).val ≠ none →
    Within (Allowed len) (messageTypeLoop mem turns popt) → Typed mem len popt := by
  induction turns with
  | zero => exact fun hval _ => absurd rfl hval
  | succ turns ih =>
    intro popt hval hin
    rw [messageTypeLoop] at hval hin
    simp only [within_bind, within_touch, within_ite, within_pure, Allowed, val_bind, val_ite,
      implies_true, true_and] at hval hin
    obtain ⟨hcode, hmore⟩ := hin
    by_cases hend : mem popt = 255
    · exact Typed.marker hcode hend
    rw [if_neg hend] at hval
    obtain ⟨htype, hmore⟩ := hmore hend
    by_cases hfound : mem popt = 53
    · exact Typed.messageType (htype hfound).1 hfound
    rw [if_neg hfound] at hval
    obtain ⟨hpad, hoption⟩ := hmore hfound
    by_cases hzero : mem popt = 0
    · rw [if_pos hzero] at hval
      exact Typed.pad hcode hzero (ih hval (hpad hzero))
    · rw [if_neg hzero] at hval
      obtain ⟨hsize, hrest⟩ := hoption hzero
      exact Typed.option hsize hend hfound hzero (ih hval hrest)

theorem loop_of_typed {popt : ℕ} (h : Typed mem len popt) : ∃ turns,
    (messageTypeLoop mem turns popt).val ≠ none ∧
      Within (Allowed len) (messageTypeLoop mem turns popt) := by
  induction h with
  | marker hin hend =>
    refine ⟨1, ?_⟩
    rw [messageTypeLoop]
    simp only [if_pos hend, within_bind, within_touch, within_pure, Allowed, val_bind, val_pure,
      and_true]
    exact ⟨Option.some_ne_none _, hin⟩
  | messageType hin htype =>
    refine ⟨1, ?_⟩
    have hend : ¬ (53 : UInt8) = 255 := by decide
    rw [messageTypeLoop]
    simp only [htype, if_neg hend, if_true, within_bind, within_touch, within_pure, Allowed,
      val_bind, val_pure, and_true]
    exact ⟨Option.some_ne_none _, by lia, hin⟩
  | pad hin hzero _ ih =>
    obtain ⟨turns, hval, hwithin⟩ := ih
    refine ⟨turns + 1, ?_⟩
    have hend : ¬ (0 : UInt8) = 255 := by decide
    have htype : ¬ (0 : UInt8) = 53 := by decide
    rw [messageTypeLoop]
    simp only [hzero, if_neg hend, if_neg htype, if_true, within_bind, within_touch, Allowed,
      val_bind]
    exact ⟨hval, hin, hwithin⟩
  | option hin hend htype hzero _ ih =>
    obtain ⟨turns, hval, hwithin⟩ := ih
    refine ⟨turns + 1, ?_⟩
    rw [messageTypeLoop]
    simp only [if_neg hend, if_neg htype, if_neg hzero, within_bind, within_touch, Allowed, val_bind]
    exact ⟨hval, by lia, hin, hwithin⟩

theorem within_messageType :
    (∃ turns, (dhcpMessageType mem turns).val ≠ none ∧
      Within (Allowed len) (dhcpMessageType mem turns)) ↔ PacketTyped mem len := by
  simp only [dhcpMessageType, PacketTyped, within_bind, within_touch, within_ite, within_pure,
    val_bind, val_ite, val_pure, Allowed]
  by_cases hmagic : bytes mem bpVend 4 = vendorMagic
  · simp only [hmagic, ne_eq, not_true_eq_false, if_false, not_false_eq_true, true_imp_iff,
      false_imp_iff, true_and]
    constructor
    · rintro ⟨turns, hval, hmagicIn, hloop⟩
      exact ⟨hmagicIn, typed_of_loop turns hval hloop⟩
    · rintro ⟨hmagicIn, htyped⟩
      obtain ⟨turns, hval, hloop⟩ := loop_of_typed htyped
      exact ⟨turns, hval, hmagicIn, hloop⟩
  · simp only [hmagic, ne_eq, not_false_eq_true, if_true, not_true_eq_false, false_imp_iff,
      and_true, implies_true, reduceCtorEq, true_and, exists_const]

end MessageType

/- The scan for the message type ends, and no access of the two functions leaves the payload or the
buffers. -/
def Inside (cfg : Config) (p : Params) (pkt : Payload) : Prop :=
  (∃ turns, (dhcpMessageType pkt.mem turns).val ≠ none ∧
    Within (Allowed pkt.len) (dhcpMessageType pkt.mem turns)) ∧
  Within (Allowed pkt.len) (dhcpPacketProcessOptions cfg pkt.mem p)

theorem dhcp_inside_iff (cfg : Config) (p : Params) (pkt : Payload) :
    Inside cfg p pkt ↔ PacketTyped pkt.mem pkt.len ∧ PacketListed cfg pkt.mem pkt.len :=
  and_congr within_messageType (within_packet p)

/- A reply that ends with `bp_file`. -/
def shortReply : Payload :=
  ⟨236, fun i => if i = 0 then 2 else if i = 1 then 1 else if i = 2 then 6 else 0⟩

def noParams : Params := ⟨[], [], [], [], [], [], [], [], [], [], 0, []⟩

theorem dhcp_not_inside :
    checkReplyPacket [[0, 0, 0, 0]] [0, 0, 0, 0, 0, 0] shortReply 68 67 = 0 ∧
      ¬ Inside ⟨false, false, false⟩ noParams shortReply := by
  refine ⟨by decide, fun hin => ?_⟩
  obtain ⟨hvend, -⟩ := within_messageType.mp hin.1
  exact absurd hvend (by decide)

end UBoot.Dhcp
