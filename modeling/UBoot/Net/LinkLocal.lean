import Mathlib.Data.BitVec
import Mathlib.Data.Nat.Bitwise

/-!
# The link-local address machine

`link_local_timeout` and `link_local_receive_arp` both end in `configure_wait`, which turns the shared
`timeout_ms` into a timer of the network loop.
-/

namespace UBoot.LinkLocal

abbrev InAddr := BitVec 32

abbrev EthAddr := BitVec 48

def linklocalAddr : ℕ := 0xa9fe0000
def inClassbNet : InAddr := 0xffff0000
def inClassbHost : ℕ := 0x0000ffff

def probeWait : ℕ := 1
def probeMin : ℕ := 1
def probeMax : ℕ := 2
def probeNum : ℕ := 3
def maxConflicts : ℕ := 10
def rateLimitInterval : ℕ := 60
def announceNum : ℕ := 2
def announceInterval : ℕ := 2
def defendInterval : ℕ := 10

def arpopRequest : ℕ := 1
def arpopReply : ℕ := 2

def netNullEthaddr : EthAddr := 0

inductive LlState where
  | probe
  | rateLimitProbe
  | announce
  | monitor
  | defend
  | disabled
  deriving DecidableEq, Repr

/- `timer` is the network loop's handler: the time it was set and the delay. -/
structure Statics where
  state : LlState
  ip : InAddr
  timeoutMs : ℤ
  deadlineMs : ℕ
  conflicts : ℕ
  nprobes : ℕ
  nclaims : ℕ
  ready : Bool
  netIp : InAddr
  timer : Option (ℕ × ℕ)
  deriving DecidableEq

def Statics.initial (netIp : InAddr) : Statics := ⟨.disabled, 0, -1, 0, 0, 0, 0, false, netIp, none⟩

structure Arp where
  op : ℕ
  sha : EthAddr
  spa : InAddr
  tpa : InAddr
  deriving DecidableEq

/- What one handler takes from `rand_r`: the value at which the loop of `pick` stops and the
value of a delay. No handler draws more than one of each. -/
structure Rand where
  tmp : ℕ
  delay : ℕ
  tmp_le : tmp ≤ inClassbHost - 0x0200

inductive Obs where
  | picked (a : InAddr)
  -- `arp_raw_request`
  | sent (source : InAddr) (targetEther : EthAddr) (target : InAddr)
  | received (p : Arp)
  -- the copy to `net_ip`
  | assigned (a : InAddr)
  deriving DecidableEq

def pick (rnd : Rand) : InAddr := BitVec.ofNat 32 (linklocalAddr + 0x0100 + rnd.tmp)

def randomDelayMs (rnd : Rand) (secs : ℕ) : ℕ := rnd.delay % (secs * 1000)

def monotonicMs (now : ℕ) : ℕ := now % 2 ^ 32

/- `net_set_timeout_handler` with the machine's handler. -/
def netSetTimeoutHandler (now iv : ℕ) : Option (ℕ × ℕ) :=
  if iv = 0 then none else some (now, iv)

def configureWait (rnd : Rand) (now : ℕ) (s : Statics) : Statics :=
  if s.timeoutMs = -1 then s
  else
    let timeoutMs := if s.timeoutMs = 0 then (randomDelayMs rnd probeWait : ℤ) else s.timeoutMs
    { s with
      timeoutMs := timeoutMs
      deadlineMs := ((monotonicMs now + timeoutMs) % 2 ^ 32).toNat
      timer := netSetTimeoutHandler now timeoutMs.toNat }

def restart (rnd : Rand) (state : LlState) (s : Statics) : Statics :=
  { s with state := state, ip := pick rnd, timeoutMs := 0, nprobes := 0, nclaims := 0 }

/- `llipaddr` is the variable's address, zero when it is not set. -/
def linkLocalStart (llipaddr : InAddr) (rnd : Rand) (now : ℕ) (s : Statics) :
    Option Statics :=
  if llipaddr ≠ 0 ∧ llipaddr &&& inClassbNet ≠ BitVec.ofNat 32 linklocalAddr then none
  else
    some (configureWait rnd now
      { s with
        ip := if llipaddr = 0 then pick rnd else llipaddr
        state := .probe
        timeoutMs := 0
        conflicts := 0
        nprobes := 0
        nclaims := 0
        ready := false })

def announce (netEthaddr : EthAddr) (s : Statics) : Statics × Option Obs :=
  ({ s with timeoutMs := announceInterval * 1000 }, some (.sent s.ip netEthaddr s.ip))

def linkLocalTimeout (netEthaddr : EthAddr) (rnd : Rand) (now : ℕ) (s : Statics) :
    Statics × Option Obs :=
  match s.state with
  | .probe =>
    if s.nprobes < probeNum then
      (configureWait rnd now
        { s with
          nprobes := s.nprobes + 1
          timeoutMs := probeMin * 1000 + randomDelayMs rnd (probeMax - probeMin) },
        some (.sent 0 netNullEthaddr s.ip))
    else
      (announce netEthaddr { s with state := .announce, nclaims := 0 }).map
        (configureWait rnd now) id
  | .rateLimitProbe =>
    (announce netEthaddr { s with state := .announce, nclaims := 0 }).map (configureWait rnd now) id
  | .announce =>
    if s.nclaims < announceNum then
      (announce netEthaddr { s with nclaims := s.nclaims + 1 }).map (configureWait rnd now) id
    else
      ({ s with
          state := .monitor
          netIp := s.ip
          ready := true
          conflicts := 0
          timeoutMs := -1
          timer := none },
        some (.assigned s.ip))
  | .defend =>
    (configureWait rnd now { s with state := .monitor, timeoutMs := -1, conflicts := 0 }, none)
  | .monitor | .disabled =>
    (configureWait rnd now (restart rnd .probe s), some (.picked (pick rnd)))

def adjustTimeout (now : ℕ) (s : Statics) : Statics :=
  if 0 < s.timeoutMs then
    let diff := (s.deadlineMs + 2 ^ 32 - monotonicMs now) % 2 ^ 32
    { s with timeoutMs := if 2 ^ 31 ≤ diff then 0 else ((diff ||| 1 : ℕ) : ℤ) }
  else s

def sourceIpConflict (netEthaddr : EthAddr) (ip : InAddr) (arp : Arp) : Bool :=
  arp.spa = ip ∧ arp.sha ≠ netEthaddr

def targetIpConflict (netEthaddr : EthAddr) (ip : InAddr) (arp : Arp) : Bool :=
  arp.op = arpopRequest ∧ arp.spa = 0 ∧ arp.tpa = ip ∧ arp.sha ≠ netEthaddr

/- The switch of `link_local_receive_arp`. -/
def handleArp (netEthaddr : EthAddr) (rnd : Rand) (arp : Arp) (s : Statics) :
    Statics × Option Obs :=
  match s.state with
  | .probe | .announce =>
    if sourceIpConflict netEthaddr s.ip arp ∨ targetIpConflict netEthaddr s.ip arp then
      let conflicts := (s.conflicts + 1) % 2 ^ 32
      let limited : Statics :=
        if maxConflicts ≤ conflicts then
          { s with
            conflicts := conflicts
            timeoutMs := rateLimitInterval * 1000
            state := .rateLimitProbe }
        else { s with conflicts := conflicts, state := .probe }
      -- the assignment to `timeout_ms` that follows undoes the one above
      (restart rnd limited.state limited, some (.picked (pick rnd)))
    else (s, none)
  | .monitor =>
    if sourceIpConflict netEthaddr s.ip arp then
      ({ s with state := .defend, timeoutMs := defendInterval * 1000 },
        some (.sent s.ip netEthaddr s.ip))
    else (s, none)
  | .defend =>
    if sourceIpConflict netEthaddr s.ip arp then
      (restart rnd .probe { s with ready := false, netIp := 0 }, some (.picked (pick rnd)))
    else (s, none)
  | .rateLimitProbe | .disabled => (restart rnd .probe s, some (.picked (pick rnd)))

def linkLocalReceiveArp (netEthaddr : EthAddr) (rnd : Rand) (now : ℕ) (arp : Arp)
    (s : Statics) : Statics × Option Obs :=
  if s.state = .disabled then (s, none)
  else if arp.op ≠ arpopRequest ∧ arp.op ≠ arpopReply then
    (configureWait rnd now (adjustTimeout now s), none)
  else (handleArp netEthaddr rnd arp (adjustTimeout now s)).map (configureWait rnd now) id

/- The machine with the clock and everything that was seen, the newest first. -/
structure Machine where
  vars : Statics
  now : ℕ
  log : List (ℕ × Obs)
  deriving DecidableEq

inductive Input where
  | timeout (now : ℕ) (rnd : Rand)
  | arp (now : ℕ) (rnd : Rand) (p : Arp)

def expired (timer : Option (ℕ × ℕ)) (now : ℕ) : Bool := timer.any fun t => t.1 + t.2 < now

def step (netEthaddr : EthAddr) (m : Machine) : Input → Option Machine
  | .timeout now rnd =>
    if m.now ≤ now ∧ expired m.vars.timer now then
      let r := linkLocalTimeout netEthaddr rnd now { m.vars with timer := none }
      some ⟨r.1, now, (r.2.toList.map fun o => (now, o)) ++ m.log⟩
    else none
  | .arp now rnd p =>
    if m.now ≤ now then
      let r := linkLocalReceiveArp netEthaddr rnd now p m.vars
      some ⟨r.1, now, (r.2.toList.map fun o => (now, o)) ++ (now, .received p) :: m.log⟩
    else none

def start (llipaddr netIp : InAddr) (rnd : Rand) (now : ℕ) : Option Machine :=
  (linkLocalStart llipaddr rnd now (Statics.initial netIp)).map fun s =>
    ⟨s, now, [(now, .picked s.ip)]⟩

end UBoot.LinkLocal
