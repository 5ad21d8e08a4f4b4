import UBoot.Net.LinkLocal

/-!
# Probing before use

An address is announced or taken only after enough probes that nobody answered. After many conflicts
in a row the next announcement waits, up to the first packet that reaches the limit.
-/

namespace UBoot.LinkLocal

open List Option

abbrev History := List (ℕ × Obs)

/- The ARP packets against which an address is probed: its address as the source, or a probe for
it, from another hardware address. -/
def conflicting (netEthaddr : EthAddr) (a : InAddr) (p : Arp) : Bool :=
  (p.op = arpopRequest ∨ p.op = arpopReply) ∧ p.sha ≠ netEthaddr ∧
    (p.spa = a ∨ p.op = arpopRequest ∧ p.spa = 0 ∧ p.tpa = a)

def lastPicked : History → Option InAddr
  | [] => none
  | (_, .picked a) :: _ => some a
  | (_, .sent ..) :: past => lastPicked past
  | (_, .received _) :: past => lastPicked past
  | (_, .assigned _) :: past => lastPicked past

def taken : History → Bool
  | [] => false
  | (_, .picked _) :: _ => false
  | (_, .sent ..) :: past => taken past
  | (_, .received _) :: past => taken past
  | (_, .assigned _) :: _ => true

def probesFor (a : InAddr) : History → ℕ
  | [] => 0
  | (_, .picked _) :: _ => 0
  | (_, .sent source _ target) :: past =>
    if source = 0 ∧ target = a then probesFor a past + 1 else probesFor a past
  | (_, .received _) :: past => probesFor a past
  | (_, .assigned _) :: past => probesFor a past

/- The packet conflicts with the address picked last, which is still probed or announced. -/
def clash (netEthaddr : EthAddr) (past : History) (p : Arp) : Bool :=
  !taken past && (lastPicked past).any (conflicting netEthaddr · p)

def clashed (netEthaddr : EthAddr) : History → Bool
  | [] => false
  | (_, .picked _) :: _ => false
  | (_, .sent ..) :: past => clashed netEthaddr past
  | (_, .received p) :: past => clash netEthaddr past p || clashed netEthaddr past
  | (_, .assigned _) :: past => clashed netEthaddr past

def inARow (netEthaddr : EthAddr) : History → ℕ
  | [] => 0
  | (_, .picked _) :: past => inARow netEthaddr past
  | (_, .sent ..) :: past => inARow netEthaddr past
  | (_, .received p) :: past =>
    if clash netEthaddr past p then inARow netEthaddr past + 1 else inARow netEthaddr past
  | (_, .assigned _) :: _ => 0

def lastConflict (netEthaddr : EthAddr) : History → Option ℕ
  | [] => none
  | (_, .picked _) :: past => lastConflict netEthaddr past
  | (_, .sent ..) :: past => lastConflict netEthaddr past
  | (t, .received p) :: past =>
    if clash netEthaddr past p then some t else lastConflict netEthaddr past
  | (_, .assigned _) :: past => lastConflict netEthaddr past

def Obs.Announces (a : InAddr) (o : Obs) : Prop := ∃ ether, o = .sent a ether a

def Obs.Uses (a : InAddr) (o : Obs) : Prop := o.Announces a ∨ o = .assigned a

/- Every use is of the address picked last, after enough probes for it and no conflict; an
announcement after too many conflicts in a row keeps its distance. -/
structure Safe (netEthaddr : EthAddr) (log : History) : Prop where
  probed : ∀ t o past a, (t, o) :: past <:+ log → o.Uses a →
    lastPicked past = some a ∧ probeNum ≤ probesFor a past ∧ clashed netEthaddr past = false
  rateLimited : ∀ t o past a t₀, (t, o) :: past <:+ log → o.Announces a →
    maxConflicts ≤ inARow netEthaddr past → lastConflict netEthaddr past = some t₀ →
    t₀ + rateLimitInterval * 1000 ≤ t

/- Runs from `link_local_start`, over any timeouts, packets and random values. -/
inductive Run (netEthaddr : EthAddr) (ok : Machine → Input → Prop) : Machine → Prop where
  | start {llipaddr netIp : InAddr} {rnd : Rand} {now : ℕ} {m : Machine}
      (h : start llipaddr netIp rnd now = some m) : Run netEthaddr ok m
  | step {m m' : Machine} {i : Input} (h : Run netEthaddr ok m) (meets : ok m i)
      (next : step netEthaddr m i = some m') : Run netEthaddr ok m'

def LlState.acquiring : LlState → Bool
  | .probe | .rateLimitProbe | .announce => true
  | .monitor | .defend | .disabled => false

def BelowLimit (netEthaddr : EthAddr) (m : Machine) : Input → Prop
  | .timeout .. => True
  | .arp _ _ p => m.vars.state.acquiring → conflicting netEthaddr m.vars.ip p →
      m.vars.conflicts + 1 < maxConflicts

structure Core where
  state : LlState
  ip : InAddr
  conflicts : ℕ
  nprobes : ℕ

def Statics.core (s : Statics) : Core := ⟨s.state, s.ip, s.conflicts, s.nprobes⟩

/- The steps below the limit, with what is seen of them, the newest first. -/
inductive Move (netEthaddr : EthAddr) : Core → List Obs → Core → Prop where
  | probe {a : InAddr} {k n : ℕ} (more : n < probeNum) :
      Move netEthaddr ⟨.probe, a, k, n⟩ [.sent 0 netNullEthaddr a] ⟨.probe, a, k, n + 1⟩
  | probed {a : InAddr} {k n : ℕ} (enough : probeNum ≤ n) :
      Move netEthaddr ⟨.probe, a, k, n⟩ [.sent a netEthaddr a] ⟨.announce, a, k, n⟩
  | announce {a : InAddr} {k n : ℕ} :
      Move netEthaddr ⟨.announce, a, k, n⟩ [.sent a netEthaddr a] ⟨.announce, a, k, n⟩
  | assign {a : InAddr} {k n : ℕ} :
      Move netEthaddr ⟨.announce, a, k, n⟩ [.assigned a] ⟨.monitor, a, 0, n⟩
  | won {a : InAddr} {k n : ℕ} :
      Move netEthaddr ⟨.defend, a, k, n⟩ [] ⟨.monitor, a, 0, n⟩
  | restart {c : Core} {b : InAddr} (ne : b ≠ 0) :
      Move netEthaddr c [.picked b] ⟨.probe, b, c.conflicts, 0⟩
  | ignore {c : Core} {p : Arp}
      (clean : c.state.acquiring → conflicting netEthaddr c.ip p = false) :
      Move netEthaddr c [.received p] c
  | conflict {c : Core} {b : InAddr} {p : Arp} (acquiring : c.state.acquiring)
      (hit : conflicting netEthaddr c.ip p) (few : c.conflicts + 1 < maxConflicts) (ne : b ≠ 0) :
      Move netEthaddr c [.picked b, .received p] ⟨.probe, b, c.conflicts + 1, 0⟩
  | defend {a : InAddr} {k n : ℕ} {p : Arp} :
      Move netEthaddr ⟨.monitor, a, k, n⟩ [.sent a netEthaddr a, .received p] ⟨.defend, a, k, n⟩
  | lost {a b : InAddr} {k n : ℕ} {p : Arp} (ne : b ≠ 0) :
      Move netEthaddr ⟨.defend, a, k, n⟩ [.picked b, .received p] ⟨.probe, b, k, 0⟩

section Handlers

variable {netEthaddr : EthAddr} {rnd : Rand} {now : ℕ} {s : Statics} {p : Arp}

@[simp] theorem core_mk (state : LlState) (ip netIp : InAddr) (timeoutMs : ℤ)
    (deadlineMs conflicts nprobes nclaims : ℕ) (ready : Bool) (timer : Option (ℕ × ℕ)) :
    Statics.core ⟨state, ip, timeoutMs, deadlineMs, conflicts, nprobes, nclaims, ready, netIp,
      timer⟩ = ⟨state, ip, conflicts, nprobes⟩ :=
  rfl

@[simp] theorem core_configureWait : (configureWait rnd now s).core = s.core := by
  unfold configureWait
  split
  · rfl
  · simp only [Statics.core]

@[simp] theorem core_adjustTimeout : (adjustTimeout now s).core = s.core := by
  unfold adjustTimeout
  split
  · simp only [Statics.core]
  · rfl

@[simp] theorem core_restart (state : LlState) :
    (restart rnd state s).core = ⟨state, pick rnd, s.conflicts, 0⟩ :=
  rfl

theorem pick_ne_zero (rnd : Rand) : pick rnd ≠ 0 := by
  intro h
  have hle := rnd.tmp_le
  have hnat := congrArg BitVec.toNat h
  simp only [pick, linklocalAddr, inClassbHost, BitVec.toNat_ofNat, BitVec.ofNat_eq_ofNat] at hnat hle
  lia

theorem conflict_iff {a : InAddr} (hop : ¬(p.op ≠ arpopRequest ∧ p.op ≠ arpopReply)) :
    (sourceIpConflict netEthaddr a p ∨ targetIpConflict netEthaddr a p) ↔ conflicting netEthaddr a p := by
  have hop' : p.op = arpopRequest ∨ p.op = arpopReply := by tauto
  simp only [sourceIpConflict, targetIpConflict, conflicting, decide_eq_true_eq]
  tauto

theorem linkLocalTimeout_moves (hlim : s.state ≠ .rateLimitProbe) :
    Move netEthaddr s.core (linkLocalTimeout netEthaddr rnd now s).2.toList
      (linkLocalTimeout netEthaddr rnd now s).1.core := by
  obtain ⟨state, ip, timeoutMs, deadlineMs, conflicts, nprobes, nclaims, ready, netIp, timer⟩ := s
  cases state with
  | probe =>
    by_cases hmore : nprobes < probeNum
    · simpa [linkLocalTimeout, hmore] using Move.probe hmore
    · simpa [linkLocalTimeout, hmore, announce] using Move.probed (by lia)
  | rateLimitProbe => exact absurd rfl hlim
  | announce =>
    by_cases hmore : nclaims < announceNum
    · simpa [linkLocalTimeout, hmore, announce] using Move.announce
    · simpa [linkLocalTimeout, hmore] using Move.assign
  | defend => simpa [linkLocalTimeout] using Move.won
  | monitor => simpa [linkLocalTimeout] using Move.restart (pick_ne_zero rnd)
  | disabled => simpa [linkLocalTimeout] using Move.restart (pick_ne_zero rnd)

theorem handleArp_conflict (hacq : s.state = .probe ∨ s.state = .announce)
    (hfew : s.conflicts + 1 < maxConflicts)
    (hhit : sourceIpConflict netEthaddr s.ip p ∨ targetIpConflict netEthaddr s.ip p) :
    (handleArp netEthaddr rnd p s).2 = some (.picked (pick rnd)) ∧
      (handleArp netEthaddr rnd p s).1.core = ⟨.probe, pick rnd, s.conflicts + 1, 0⟩ := by
  have hmod : (s.conflicts + 1) % 2 ^ 32 = s.conflicts + 1 :=
    Nat.mod_eq_of_lt (by simp only [maxConflicts] at hfew; lia)
  have hnot : ¬maxConflicts ≤ s.conflicts + 1 := by lia
  rcases hacq with hstate | hstate
  · simp only [handleArp, hstate, if_pos hhit, hmod, if_neg hnot, core_restart, and_self]
  · simp only [handleArp, hstate, if_pos hhit, hmod, if_neg hnot, core_restart, and_self]

theorem handleArp_quiet (hacq : s.state = .probe ∨ s.state = .announce)
    (hmiss : ¬(sourceIpConflict netEthaddr s.ip p ∨ targetIpConflict netEthaddr s.ip p)) :
    handleArp netEthaddr rnd p s = (s, none) := by
  rcases hacq with hstate | hstate
  · simp only [handleArp, hstate, if_neg hmiss]
  · simp only [handleArp, hstate, if_neg hmiss]

theorem handleArp_moves (hop : ¬(p.op ≠ arpopRequest ∧ p.op ≠ arpopReply))
    (hlim : s.state ≠ .rateLimitProbe) (hdis : s.state ≠ .disabled)
    (hbelow : s.state.acquiring → conflicting netEthaddr s.ip p → s.conflicts + 1 < maxConflicts) :
    Move netEthaddr s.core ((handleArp netEthaddr rnd p s).2.toList ++ [.received p])
      (handleArp netEthaddr rnd p s).1.core := by
  have hacquiring : s.state = .probe ∨ s.state = .announce →
      Move netEthaddr s.core ((handleArp netEthaddr rnd p s).2.toList ++ [.received p])
        (handleArp netEthaddr rnd p s).1.core := by
    intro hacq
    have hac : s.state.acquiring = true := by rcases hacq with h | h <;> rw [h] <;> rfl
    by_cases hhit : sourceIpConflict netEthaddr s.ip p ∨ targetIpConflict netEthaddr s.ip p
    · have hconf := (conflict_iff hop).mp hhit
      obtain ⟨hsent, hcore⟩ : (handleArp netEthaddr rnd p s).2 = _ ∧ _ :=
        handleArp_conflict hacq (hbelow hac hconf) hhit
      rw [hsent, hcore]
      exact .conflict (c := s.core) hac hconf (hbelow hac hconf) (pick_ne_zero rnd)
    · rw [handleArp_quiet hacq hhit]
      rw [conflict_iff hop, Bool.not_eq_true] at hhit
      exact .ignore fun _ => hhit
  cases hstate : s.state with
  | probe => exact hacquiring (.inl hstate)
  | announce => exact hacquiring (.inr hstate)
  | rateLimitProbe => exact absurd hstate hlim
  | disabled => exact absurd hstate hdis
  | monitor =>
    have hcore : s.core = ⟨.monitor, s.ip, s.conflicts, s.nprobes⟩ := by rw [Statics.core, hstate]
    by_cases hhit : sourceIpConflict netEthaddr s.ip p
    · simp only [handleArp, hstate, hhit, if_true, hcore]
      exact .defend
    · simp only [handleArp, hstate, hhit]
      exact .ignore fun h => absurd h (by simp [Statics.core, hstate, LlState.acquiring])
  | defend =>
    have hcore : s.core = ⟨.defend, s.ip, s.conflicts, s.nprobes⟩ := by rw [Statics.core, hstate]
    by_cases hhit : sourceIpConflict netEthaddr s.ip p
    · simp only [handleArp, hstate, hhit, if_true, hcore]
      exact .lost (pick_ne_zero rnd)
    · simp only [handleArp, hstate, hhit]
      exact .ignore fun h => absurd h (by simp [Statics.core, hstate, LlState.acquiring])

theorem linkLocalReceiveArp_moves (hlim : s.state ≠ .rateLimitProbe) (hdis : s.state ≠ .disabled)
    (hbelow : s.state.acquiring → conflicting netEthaddr s.ip p → s.conflicts + 1 < maxConflicts) :
    Move netEthaddr s.core
      ((linkLocalReceiveArp netEthaddr rnd now p s).2.toList ++ [.received p])
      (linkLocalReceiveArp netEthaddr rnd now p s).1.core := by
  unfold linkLocalReceiveArp
  rw [if_neg hdis]
  by_cases hop : p.op ≠ arpopRequest ∧ p.op ≠ arpopReply
  · rw [if_pos hop, core_configureWait, core_adjustTimeout]
    refine .ignore fun _ => ?_
    simp only [conflicting, decide_eq_false_iff_not]
    tauto
  · rw [if_neg hop]
    -- adjusting the wait leaves everything that the switch reads
    have hcore : (adjustTimeout now s).core = s.core := core_adjustTimeout
    obtain ⟨hstate, hip, hconf, -⟩ := Core.mk.inj hcore
    have hmoves : Move netEthaddr _
        ((handleArp netEthaddr rnd p (adjustTimeout now s)).2.toList ++ _) _ :=
      handleArp_moves hop (by rwa [hstate]) (by rwa [hstate]) (by rwa [hstate, hip, hconf])
    rw [hcore] at hmoves
    simpa only [Prod.map_fst, Prod.map_snd, id, core_configureWait] using hmoves

end Handlers

theorem step_moves {netEthaddr : EthAddr} {m m' : Machine} {i : Input}
    (h : step netEthaddr m i = some m') (hlim : m.vars.state ≠ .rateLimitProbe)
    (hdis : m.vars.state ≠ .disabled) (hbelow : BelowLimit netEthaddr m i) :
    ∃ t es, Move netEthaddr m.vars.core es m'.vars.core ∧ m'.log = es.map (fun o => (t, o)) ++ m.log := by
  cases i with
  | timeout now rnd =>
    simp only [step] at h
    split at h
    · obtain rfl := some.inj h
      exact ⟨now, _, linkLocalTimeout_moves (s := { m.vars with timer := none }) hlim, rfl⟩
    · cases h
  | arp now rnd p =>
    simp only [step] at h
    split at h
    · obtain rfl := some.inj h
      refine ⟨now, _, linkLocalReceiveArp_moves hlim hdis hbelow, ?_⟩
      simp only [map_append, map_cons, map_nil, append_assoc, cons_append, nil_append]
    · cases h

def Core.Fits (c : Core) (log : History) : Prop :=
  match c.state with
  | .probe => c.nprobes ≤ probesFor c.ip log ∧ taken log = false
  | .announce => probeNum ≤ probesFor c.ip log ∧ taken log = false
  | .monitor | .defend => probeNum ≤ probesFor c.ip log ∧ taken log = true ∧ c.conflicts = 0
  | .rateLimitProbe | .disabled => False

structure Inv (netEthaddr : EthAddr) (c : Core) (log : History) : Prop where
  picked : lastPicked log = some c.ip
  ne : c.ip ≠ 0
  fits : c.Fits log
  counted : inARow netEthaddr log = c.conflicts
  few : c.conflicts < maxConflicts
  clean : clashed netEthaddr log = false
  safe : Safe netEthaddr log

section Invariant

variable {netEthaddr : EthAddr} {c c' : Core} {log : History} {t : ℕ}

variable {o : Obs}

theorem Safe.cons (h : Safe netEthaddr log)
    (hprobed : ∀ a, o.Uses a → lastPicked log = some a ∧ probeNum ≤ probesFor a log ∧
      clashed netEthaddr log = false)
    (hfew : inARow netEthaddr log < maxConflicts) : Safe netEthaddr ((t, o) :: log) := by
  constructor
  · intro t' o' past a hpast huse
    rcases suffix_cons_iff.mp hpast with heq | hsuf
    · obtain ⟨hto, rfl⟩ := List.cons.inj heq
      obtain ⟨-, rfl⟩ := Prod.mk.inj hto
      exact hprobed a huse
    · exact h.probed t' o' past a hsuf huse
  · intro t' o' past a t₀ hpast hann hmany hlast
    rcases suffix_cons_iff.mp hpast with heq | hsuf
    · obtain ⟨-, rfl⟩ := List.cons.inj heq
      exact absurd hmany (Nat.not_le.mpr hfew)
    · exact h.rateLimited t' o' past a t₀ hsuf hann hmany hlast

theorem Safe.cons_idle (h : Safe netEthaddr log) (ho : ∀ a, ¬o.Uses a)
    (hfew : inARow netEthaddr log < maxConflicts) : Safe netEthaddr ((t, o) :: log) :=
  h.cons (fun a huse => absurd huse (ho a)) hfew

theorem not_uses_picked (a b : InAddr) : ¬(Obs.picked b).Uses a := by
  rintro (⟨_, h⟩ | h)
  · cases h
  · cases h

theorem not_uses_received (a : InAddr) (p : Arp) : ¬(Obs.received p).Uses a := by
  rintro (⟨_, h⟩ | h)
  · cases h
  · cases h

variable {b : InAddr}

theorem not_uses_probe (ne : b ≠ 0) (a : InAddr) (ether : EthAddr) : ¬(Obs.sent 0 ether b).Uses a := by
  rintro (⟨_, h⟩ | h)
  · obtain ⟨rfl, -, hb⟩ := Obs.sent.inj h
    exact ne hb
  · cases h

variable {a : InAddr}

theorem Safe.cons_use (h : Safe netEthaddr log)
    (ho : o = .sent a netEthaddr a ∨ o = .assigned a) (hpicked : lastPicked log = some a)
    (hprobes : probeNum ≤ probesFor a log) (hclean : clashed netEthaddr log = false)
    (hfew : inARow netEthaddr log < maxConflicts) : Safe netEthaddr ((t, o) :: log) := by
  refine h.cons (fun b huse => ?_) hfew
  have hab : b = a := by
    rcases ho with rfl | rfl
    · rcases huse with ⟨_, huse⟩ | huse
      · exact (Obs.sent.inj huse).1.symm
      · cases huse
    · rcases huse with ⟨_, huse⟩ | huse
      · cases huse
      · exact (Obs.assigned.inj huse).symm
  subst hab
  exact ⟨hpicked, hprobes, hclean⟩

theorem Inv.clash_eq (h : Inv netEthaddr c log) (p : Arp) :
    clash netEthaddr log p = (!taken log && conflicting netEthaddr c.ip p) := by
  rw [clash, h.picked, any_some]

theorem Inv.few_log (h : Inv netEthaddr c log) : inARow netEthaddr log < maxConflicts := by
  rw [h.counted]
  exact h.few

theorem Inv.taken_eq (h : Inv netEthaddr c log) : taken log = !c.state.acquiring := by
  obtain ⟨state, a, k, n⟩ := c
  have hfits := h.fits
  cases state with
  | probe => exact hfits.2
  | announce => exact hfits.2
  | monitor => exact hfits.2.1
  | defend => exact hfits.2.1
  | rateLimitProbe => exact hfits.elim
  | disabled => exact hfits.elim

theorem Inv.pick {k : ℕ} (hne : b ≠ 0) (hcounted : inARow netEthaddr log = k)
    (hfew : k < maxConflicts) (hsafe : Safe netEthaddr log) :
    Inv netEthaddr ⟨.probe, b, k, 0⟩ ((t, .picked b) :: log) where
  picked := rfl
  ne := hne
  fits := ⟨Nat.zero_le _, rfl⟩
  counted := hcounted
  few := hfew
  clean := rfl
  safe := hsafe.cons_idle (fun a => not_uses_picked a b) (by rwa [hcounted])

theorem Inv.ignore {p : Arp} (h : Inv netEthaddr c log) (hmiss : clash netEthaddr log p = false) :
    Inv netEthaddr c ((t, .received p) :: log) where
  picked := h.picked
  ne := h.ne
  fits := h.fits
  counted := by rw [inARow, hmiss]; exact h.counted
  few := h.few
  clean := by rw [clashed, hmiss, h.clean]; rfl
  safe := h.safe.cons_idle (fun a => not_uses_received a p) h.few_log

theorem Inv.announced {k n : ℕ} {state state' : LlState}
    (h : Inv netEthaddr ⟨state, a, k, n⟩ log) (hprobes : probeNum ≤ probesFor a log)
    (hfits : Core.Fits ⟨state', a, k, n⟩ ((t, .sent a netEthaddr a) :: log)) :
    Inv netEthaddr ⟨state', a, k, n⟩ ((t, .sent a netEthaddr a) :: log) where
  picked := h.picked
  ne := h.ne
  fits := hfits
  counted := h.counted
  few := h.few
  clean := h.clean
  safe := h.safe.cons_use (.inl rfl) h.picked hprobes h.clean h.few_log

theorem probesFor_announced {ether : EthAddr} (hne : b ≠ 0) :
    probesFor a ((t, .sent b ether b) :: log) = probesFor a log := by
  rw [probesFor, if_neg fun h => hne h.1]

/-- One step below the limit keeps the invariant. -/
theorem Inv.move {es : List Obs} (h : Inv netEthaddr c log) (hmove : Move netEthaddr c es c') :
    Inv netEthaddr c' (es.map (fun o => (t, o)) ++ log) := by
  cases hmove with
  | @probe a k n more =>
    obtain ⟨hprobes, htaken⟩ := h.fits
    refine ⟨h.picked, h.ne, ⟨?_, htaken⟩, h.counted, h.few, h.clean, ?_⟩
    · change n + 1 ≤ probesFor a ((t, .sent 0 netNullEthaddr a) :: log)
      rw [probesFor, if_pos ⟨rfl, rfl⟩]
      exact Nat.succ_le_succ hprobes
    · exact h.safe.cons_idle (fun b => not_uses_probe h.ne b _) h.few_log
  | @probed a k n enough =>
    obtain ⟨hprobes, htaken⟩ := h.fits
    have henough : probeNum ≤ probesFor a log := enough.trans hprobes
    refine h.announced henough ⟨?_, htaken⟩
    rwa [probesFor_announced h.ne]
  | @announce a k n =>
    obtain ⟨hprobes, htaken⟩ := h.fits
    refine h.announced hprobes ⟨?_, htaken⟩
    rwa [probesFor_announced h.ne]
  | @assign a k n =>
    obtain ⟨hprobes, htaken⟩ := h.fits
    refine ⟨h.picked, h.ne, ⟨hprobes, rfl, rfl⟩, rfl, Nat.zero_lt_succ _, h.clean, ?_⟩
    exact h.safe.cons_use (.inr rfl) h.picked hprobes h.clean h.few_log
  | @won a k n =>
    obtain ⟨hprobes, htaken, hzero⟩ := h.fits
    exact ⟨h.picked, h.ne, ⟨hprobes, htaken, rfl⟩, h.counted.trans hzero, Nat.zero_lt_succ _,
      h.clean, h.safe⟩
  | restart ne => exact .pick ne h.counted h.few h.safe
  | @ignore _ p clean =>
    refine h.ignore ?_
    rw [h.clash_eq, h.taken_eq, Bool.not_not]
    cases hac : c.state.acquiring with
    | true => rw [clean hac]; rfl
    | false => rfl
  | @conflict _ b p acquiring hit few ne =>
    have hclash : clash netEthaddr log p = true := by
      rw [h.clash_eq, h.taken_eq, acquiring, hit]
      rfl
    have hcount : inARow netEthaddr ((t, .received p) :: log) = c.conflicts + 1 := by
      rw [inARow, hclash, if_pos rfl, h.counted]
    exact .pick ne hcount few (h.safe.cons_idle (fun a => not_uses_received a p) h.few_log)
  | @defend a k n p =>
    obtain ⟨hprobes, htaken, hzero⟩ := h.fits
    have hmiss : clash netEthaddr log p = false := by rw [h.clash_eq, htaken]; rfl
    refine (h.ignore hmiss).announced hprobes ⟨?_, htaken, hzero⟩
    rwa [probesFor_announced h.ne]
  | @lost a b k n p ne =>
    have hmiss : clash netEthaddr log p = false := by rw [h.clash_eq, h.fits.2.1]; rfl
    have hrest : Inv netEthaddr _ ((t, .received p) :: log) := h.ignore hmiss
    exact .pick ne hrest.counted hrest.few hrest.safe

theorem start_inv {llipaddr netIp : InAddr} {rnd : Rand} {now : ℕ} {m : Machine}
    (h : start llipaddr netIp rnd now = some m) : Inv netEthaddr m.vars.core m.log := by
  unfold start linkLocalStart at h
  split at h
  · cases h
  · obtain rfl := some.inj h
    simp only [core_configureWait]
    have hne : (if llipaddr = 0 then pick rnd else llipaddr) ≠ 0 := by
      split
      · exact pick_ne_zero rnd
      · assumption
    have hip : ∀ s : Statics, (configureWait rnd now s).ip = s.ip := by
      intro s
      have hcore : (configureWait rnd now s).core = s.core := core_configureWait
      exact congrArg Core.ip hcore
    simp only [hip]
    have hempty : Safe netEthaddr [] := by
      constructor
      · intro t o past a hsuf
        exact absurd (suffix_nil.mp hsuf) (cons_ne_nil _ _)
      · intro t o past a t₀ hsuf
        exact absurd (suffix_nil.mp hsuf) (cons_ne_nil _ _)
    exact .pick hne rfl (Nat.zero_lt_succ _) hempty

/-- Every run below the limit keeps the invariant. -/
theorem Run.inv {m : Machine} (h : Run netEthaddr (BelowLimit netEthaddr) m) :
    Inv netEthaddr m.vars.core m.log := by
  induction h with
  | start hstart => exact start_inv hstart
  | @step m m' i hrun meets next ih =>
    have hstate : m.vars.state ≠ .rateLimitProbe ∧ m.vars.state ≠ .disabled := by
      have hfits := ih.fits
      constructor
      · intro hlim
        rw [Core.Fits, Statics.core, hlim] at hfits
        exact hfits
      · intro hdis
        rw [Core.Fits, Statics.core, hdis] at hfits
        exact hfits
    obtain ⟨t, es, hmove, hlog⟩ := step_moves next hstate.1 hstate.2 meets
    rw [hlog]
    exact ih.move hmove

end Invariant

theorem run_steps {netEthaddr : EthAddr} {ok : Machine → Input → Prop} {inputs : List Input}
    (hok : ∀ i ∈ inputs, ∀ m, ok m i) {m m' : Machine} (h : Run netEthaddr ok m)
    (hsteps : inputs.foldlM (step netEthaddr) m = some m') : Run netEthaddr ok m' := by
  induction inputs generalizing m with
  | nil =>
    obtain rfl := some.inj hsteps
    exact h
  | cons i rest ih =>
    obtain ⟨m₁, hnext, hrest⟩ := bind_eq_some_iff.mp hsteps
    have hstep : Run netEthaddr ok m₁ := h.step (hok i mem_cons_self m) hnext
    exact ih (fun j hj => hok j (mem_cons_of_mem _ hj)) hstep hrest

/-- Below the limit every address that is announced or taken was probed. -/
theorem probed_before_use {netEthaddr : EthAddr} {m : Machine}
    (h : Run netEthaddr (BelowLimit netEthaddr) m) : Safe netEthaddr m.log :=
  h.inv.safe

/- The generator picks the `k`th address. -/
def draw (k : ℕ) : Rand := ⟨min k 100, 500, (Nat.min_le_right k 100).trans (by decide)⟩

/- Another host answers for the first address. -/
def conflictRun : Option Machine :=
  (start 0 0 (draw 7) 0).bind fun m =>
    (step 1 m (.arp 1 (draw 9) ⟨arpopReply, 2, pick (draw 7), pick (draw 7)⟩)).bind fun m =>
      ((List.range 7).map fun k => Input.timeout (2100 * (k + 1)) (draw 0)).foldlM (step 1) m

theorem conflictRun_assigns :
    (conflictRun.map fun m => (m.vars.netIp, m.log.head?)) =
        some (pick (draw 9), some (14700, .assigned (pick (draw 9)))) ∧
      ((start 0 0 (draw 7) 0).map fun m => m.vars.conflicts) = some 0 := by
  decide +kernel

theorem probed_before_use_conflict : ∃ m, conflictRun = some m ∧ Safe 1 m.log := by
  obtain ⟨hassigned, hzero⟩ := conflictRun_assigns
  obtain ⟨m, hm, -⟩ := map_eq_some_iff.mp hassigned
  obtain ⟨m₀, hstart, hnext⟩ := bind_eq_some_iff.mp hm
  obtain ⟨m₁, harp, hsteps⟩ := bind_eq_some_iff.mp hnext
  have hbelow : m₀.vars.conflicts + 1 < maxConflicts := by
    rw [hstart] at hzero
    rw [show m₀.vars.conflicts = 0 from some.inj hzero]
    decide
  have hok : BelowLimit 1 m₀ (.arp 1 (draw 9) ⟨arpopReply, 2, pick (draw 7), pick (draw 7)⟩) :=
    fun _ _ => hbelow
  have hrun : Run 1 (BelowLimit 1) m₁ := (Run.start hstart).step hok harp
  refine ⟨m, hm, probed_before_use (run_steps ?_ hrun hsteps)⟩
  intro i hi m'
  obtain ⟨k, -, rfl⟩ := mem_map.mp hi
  trivial

def unluckyRun : Option Machine :=
  (start 0 0 (draw 0) 0).bind fun m =>
    (((List.range 10).map fun k =>
        Input.arp (k + 1) (draw (k + 1)) ⟨arpopReply, 2, pick (draw k), pick (draw k)⟩) ++
      [Input.timeout 1000 (draw 0)]).foldlM (step 1) m

theorem unluckyRun_announces :
    (unluckyRun.map fun m => (m.log.head?, probesFor (pick (draw 10)) m.log.tail,
      inARow 1 m.log.tail, lastConflict 1 m.log.tail)) =
      some (some (1000, .sent (pick (draw 10)) 1 (pick (draw 10))), 0, maxConflicts, some 10) := by
  decide +kernel

theorem limit_skips_probes : ∃ (m : Machine) (past : History) (a : InAddr),
    Run 1 (fun _ _ => True) m ∧ m.log = (1000, .sent a 1 a) :: past ∧ probesFor a past = 0 ∧
      inARow 1 past = maxConflicts ∧ lastConflict 1 past = some 10 ∧ ¬Safe 1 m.log := by
  obtain ⟨m, hm, hlog⟩ := map_eq_some_iff.mp unluckyRun_announces
  obtain ⟨m₀, hstart, hsteps⟩ := bind_eq_some_iff.mp hm
  simp only [Prod.mk.injEq] at hlog
  obtain ⟨hhead, hprobes, hmany, hlast⟩ := hlog
  obtain ⟨past, hpast⟩ := head?_eq_some_iff.mp hhead
  rw [hpast, tail_cons] at hprobes hmany hlast
  refine ⟨m, past, _, run_steps (fun _ _ _ => trivial) (.start hstart) hsteps, hpast, hprobes,
    hmany, hlast, fun hsafe => ?_⟩
  have henough := (hsafe.probed _ _ _ _ ⟨[], hpast.symm⟩ (.inl ⟨_, rfl⟩)).2.1
  rw [hprobes] at henough
  exact absurd henough (by decide)

end UBoot.LinkLocal
