import UBoot.Lib.Access
import UBoot.Lib.Memory

/-!
# DHCP options (net/bootp.c)

The filter for replies and the scans over options, on the payload of a datagram. The scans record
what they read and how far they write into the buffers for names. Built with `CONFIG_CMD_DHCP` and
without `CONFIG_BOOTP_VENDOREX`; the other settings are a parameter.
-/

namespace UBoot.Dhcp

open Access
open Memory (Mem bytes)

inductive Access where
  | read (off len : ℕ)
  -- written, from the start of the buffer on
  | hostname (len : ℕ)
  | rootPath (len : ℕ)
  | bootFileName (len : ℕ)
deriving DecidableEq

structure Config where
  -- `CONFIG_CMD_SNTP` with `CONFIG_BOOTP_TIMEOFFSET` or `CONFIG_BOOTP_NTPSERVER`
  timeOffset : Bool
  ntpServer : Bool
  dns2 : Bool

structure Params where
  netmask : List UInt8
  ntpTimeOffset : List UInt8
  gateway : List UInt8
  dnsServer : List UInt8
  dnsServer2 : List UInt8
  hostname : List UInt8
  rootPath : List UInt8
  bootFileName : List UInt8
  ntpServer : List UInt8
  leasetime : List UInt8
  overload : UInt8
  serverIp : List UInt8

def bootpHdrSize : ℕ := 548
def optFieldSize : ℕ := 312
-- offsets of `bp_id`, `bp_chaddr`, `bp_sname`, `bp_file` and `bp_vend`
def bpId : ℕ := 4
def bpChaddr : ℕ := 28
def bpSname : ℕ := 44
def bpFile : ℕ := 108
def bpVend : ℕ := 236
def hostnameSize : ℕ := 32
def rootPathSize : ℕ := 64
def bootFileNameSize : ℕ := 1024
def vendorMagic : List UInt8 := [99, 130, 83, 99]

def truncateSz (maxlen curlen : ℕ) : ℕ := if maxlen ≤ curlen then maxlen - 1 else curlen

def checkReplyPacket (ids : List (List UInt8)) (ethaddr : List UInt8) (pkt : Payload)
    (dest src : ℕ) : ℤ :=
  if dest ≠ 68 ∨ src ≠ 67 then -1
  else if pkt.len < bootpHdrSize - optFieldSize then -2
  else if pkt.mem 0 ≠ 2 then -3
  else if pkt.mem 1 ≠ 1 then -4
  else if pkt.mem 2 ≠ 6 then -5
  else if bytes pkt.mem bpId 4 ∉ ids then -6
  else if bytes pkt.mem bpChaddr 6 ≠ ethaddr then -7
  else 0

section Options

variable (cfg : Config) (mem : Mem)

/- The `switch` for the option at `popt`. -/
def dhcpProcessOption (popt oplen : ℕ) (p : Params) : Traced Access Params :=
  match (mem popt).toNat with
  | 1 => do
    touch (.read (popt + 2) 4)
    pure { p with netmask := bytes mem (popt + 2) 4 }
  | 2 =>
    if cfg.timeOffset then do
      touch (.read (popt + 2) 4)
      pure { p with ntpTimeOffset := bytes mem (popt + 2) 4 }
    else pure p
  | 3 => do
    touch (.read (popt + 2) 4)
    pure { p with gateway := bytes mem (popt + 2) 4 }
  | 6 => do
    touch (.read (popt + 2) 4)
    if cfg.dns2 ∧ 4 < oplen then
      touch (.read (popt + 6) 4)
      pure { p with
        dnsServer := bytes mem (popt + 2) 4
        dnsServer2 := bytes mem (popt + 6) 4 }
    else pure { p with dnsServer := bytes mem (popt + 2) 4 }
  | 12 => do
    let size := truncateSz hostnameSize oplen
    touch (.read (popt + 2) size)
    touch (.hostname (size + 1))
    pure { p with hostname := bytes mem (popt + 2) size }
  | 17 => do
    let size := truncateSz rootPathSize oplen
    touch (.read (popt + 2) size)
    touch (.rootPath (size + 1))
    pure { p with rootPath := bytes mem (popt + 2) size }
  | 42 =>
    if cfg.ntpServer then do
      touch (.read (popt + 2) 4)
      pure { p with ntpServer := bytes mem (popt + 2) 4 }
    else pure p
  | 51 => do
    touch (.read (popt + 2) 4)
    pure { p with leasetime := bytes mem (popt + 2) 4 }
  | 52 => do
    touch (.read (popt + 2) 1)
    pure { p with overload := mem (popt + 2) }
  | 54 => do
    touch (.read (popt + 2) 4)
    pure { p with serverIp := bytes mem (popt + 2) 4 }
  | 67 => do
    let size := truncateSz bootFileNameSize oplen
    touch (.read (popt + 2) size)
    touch (.bootFileName (size + 1))
    pure { p with bootFileName := bytes mem (popt + 2) size }
  | _ => pure p

def nextOption (popt : ℕ) : ℕ :=
  if mem popt = 0 then popt + 1 else popt + ((mem (popt + 1)).toNat + 2)

theorem lt_nextOption (popt : ℕ) : popt < nextOption mem popt := by
  rw [nextOption]
  split
  · omega
  · omega

def dhcpProcessOptions (popt fin : ℕ) (p : Params) : Traced Access Params :=
  if _h : popt < fin then do
    touch (.read popt 1)
    if mem popt = 255 then pure p
    else
      touch (.read (popt + 1) 1)
      let p ← dhcpProcessOption cfg mem popt (mem (popt + 1)).toNat p
      dhcpProcessOptions (nextOption mem popt) fin p
  else pure p
termination_by fin - popt
decreasing_by
  have := lt_nextOption mem popt
  omega

/- `options` first, `file` next, `sname` last. -/
def dhcpPacketProcessOptions (p : Params) : Traced Access Params := do
  touch (.read bpVend 4)
  if bytes mem bpVend 4 ≠ vendorMagic then pure p
  else
    let popt := bpVend + 4
    let p ← dhcpProcessOptions cfg mem popt (popt + bootpHdrSize) { p with overload := 0 }
    let p ← if p.overload &&& 1 ≠ 0 then dhcpProcessOptions cfg mem bpFile (bpFile + 128) p else pure p
    if p.overload &&& 2 ≠ 0 then dhcpProcessOptions cfg mem bpSname (bpSname + 64) p else pure p

/- The loop has no limit; `none` when it has not ended after so many turns. -/
def messageTypeLoop : ℕ → ℕ → Traced Access (Option ℤ)
  | 0, _ => pure none
  | turns + 1, popt => do
    touch (.read popt 1)
    if mem popt = 255 then pure (some (-1))
    else if mem popt = 53 then
      touch (.read (popt + 2) 1)
      pure (some (mem (popt + 2)).toNat)
    else if mem popt = 0 then messageTypeLoop turns (popt + 1)
    else
      touch (.read (popt + 1) 1)
      messageTypeLoop turns (popt + ((mem (popt + 1)).toNat + 2))

def dhcpMessageType (turns : ℕ) : Traced Access (Option ℤ) := do
  touch (.read bpVend 4)
  if bytes mem bpVend 4 ≠ vendorMagic then pure (some (-1))
  else messageTypeLoop mem turns (bpVend + 4)

end Options

end UBoot.Dhcp
