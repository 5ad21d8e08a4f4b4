import UBoot.Lib.Memory
import UBoot.Lib.DList

/-!
# IP reassembly (net/net.c)

The payload of `pkt_buff` doubles as a linked list of hole descriptors, each in the first 8 bytes of
its hole. An access that the source does not guard fails here, and so does a walk that does not end.
-/

namespace UBoot.Defrag

open Memory

/- `CONFIG_NET_MAXDEFRAG` has its default; an RPC reply has 100 bytes. -/
def ipPktSize : ℕ := 16384 + 100
def ipHdrSize : ℕ := 20
def ipUdpHdrSize : ℕ := 28
def ipMaxUdp : ℕ := ipPktSize - ipHdrSize

/- `struct ip_hdr`, in host order. -/
structure Header where
  hlV : ℕ
  tos : ℕ
  len : ℕ
  id : ℕ
  off : ℕ
  ttl : ℕ
  p : ℕ
  sum : ℕ
  src : ℕ
  dst : ℕ
deriving DecidableEq, Repr

/- `data` is what the frame holds behind the header. -/
structure IpPacket where
  hdr : Header
  data : List UInt8

def swap16 (v : ℕ) : ℕ := v % 256 * 256 + v / 256 % 256

def Header.words (h : Header) : List ℕ :=
  [h.hlV * 256 + h.tos, h.len, h.id, h.off, h.ttl * 256 + h.p, h.sum,
    h.src / 2 ^ 16, h.src % 2 ^ 16, h.dst / 2 ^ 16, h.dst % 2 ^ 16]

def computeIpChecksum (words : List ℕ) : ℕ :=
  let sum := (words.map swap16).sum
  let sum₁ := sum / 2 ^ 16 + sum % 2 ^ 16
  let sum₂ := sum₁ + sum₁ / 2 ^ 16
  2 ^ 16 - 1 - sum₂ % 2 ^ 16

/- `!(compute_ip_checksum(addr, nbytes) & 0xfffe)`. -/
def ipChecksumOk (h : Header) : Bool := computeIpChecksum h.words / 2 = 0

/- The length and checksum checks, and the widths of the fields that reassembly reads. -/
def IpPacket.Accepted (ip : IpPacket) : Prop :=
  ip.hdr.len < 2 ^ 16 ∧ ip.hdr.id < 2 ^ 16 ∧ ip.hdr.off < 2 ^ 16 ∧
    ipUdpHdrSize ≤ ipHdrSize + ip.data.length ∧ ip.hdr.len ≤ ipHdrSize + ip.data.length ∧
    ipChecksumOk ip.hdr = true

instance (ip : IpPacket) : Decidable ip.Accepted := inferInstanceAs (Decidable (_ ∧ _))

/- A `u16` of the little-endian target. -/
def word16 (mem : Mem) (a : ℕ) : ℕ := (mem a).toNat + 256 * (mem (a + 1)).toNat

def setWord16 (mem : Mem) (a v : ℕ) : Mem := store mem a [UInt8.ofNat v, UInt8.ofNat (v / 256)]

/- `struct hole` at index `i` of the payload: `last_byte`, `next_hole`, `prev_hole`. -/
def hole (mem : Mem) (i : ℕ) : DList.Node ℕ :=
  ⟨word16 mem (8 * i), word16 mem (8 * i + 2), word16 mem (8 * i + 4)⟩

/- The static variables. `holes` and `finished` are not in the source: the indices that hold
a descriptor written since the last reset, and whether a packet was returned since. -/
structure State where
  hdr : Header
  mem : Mem
  firstHole : ℕ
  totalLen : ℕ
  holes : ℕ → Bool
  finished : Bool

inductive Fault
  | outside | notHole | negativeCopy | endless
deriving DecidableEq, Repr

section Operations

variable (s : State)

/- `payload[i]` is used as a descriptor. -/
def access (i : ℕ) : Except Fault Unit :=
  if ipMaxUdp < 8 * i + 8 then .error .outside
  else if s.holes i then .ok () else .error .notHole

/- A field of `payload[i]`, at the offset `o` of the structure. -/
def setField (o i v : ℕ) : Except Fault State :=
  (access s i).map fun _ => { s with mem := setWord16 s.mem (8 * i + o) v }

def setLast (i v : ℕ) : Except Fault State := setField s 0 i v
def setNext (i v : ℕ) : Except Fault State := setField s 2 i v
def setPrev (i v : ℕ) : Except Fault State := setField s 4 i v

/- `*newh = *h`. -/
def copyHole (newh : ℤ) (i : ℕ) : Except Fault State :=
  if newh < 0 ∨ (ipMaxUdp : ℤ) < 8 * newh + 8 then .error .outside
  else .ok { s with
    mem := store s.mem (8 * newh.toNat) (bytes s.mem (8 * i) 8)
    holes := Function.update s.holes newh.toNat true }

/- `memcpy(thisfrag, indata + IP_HDR_SIZE, len)`. -/
def copyData (offset8 : ℕ) (len : ℤ) (data : List UInt8) : Except Fault State :=
  if len < 0 then .error .negativeCopy
  else if (ipMaxUdp : ℤ) < 8 * offset8 + len then .error .outside
  else .ok { s with
    mem := store s.mem (8 * offset8) (data.take len.toNat)
    holes := fun c => s.holes c && !decide (8 * offset8 < 8 * c + 8 ∧ 8 * c < 8 * offset8 + len.toNat) }

/- `while (h->last_byte < start)`. -/
def walk (start : ℕ) : ℕ → ℕ → Except Fault (Option ℕ)
  | 0, _ => .error .endless
  | fuel + 1, i => do
    access s i
    if (hole s.mem i).val < start then
      if (hole s.mem i).next = 0 then .ok none
      else walk start fuel (hole s.mem i).next
    else .ok (some i)

/- Complete overlap with the hole; returns whether it was the last one. -/
def removeHole (i : ℕ) : Except Fault (State × Bool) :=
  let h := hole s.mem i
  if h.prev = 0 ∧ h.next = 0 then .ok (s, true)
  else if h.prev = 0 then do
    let s₁ ← setPrev { s with firstHole := h.next } h.next 0
    .ok (s₁, false)
  else if h.next = 0 then do
    let s₁ ← setNext s h.prev 0
    .ok (s₁, false)
  else do
    let s₁ ← setPrev s h.next h.prev
    let s₂ ← setNext s₁ h.prev h.next
    .ok (s₂, false)

/- `if (n) payload[n].prev_hole = q` -/
def linkBack (n q : ℕ) : Except Fault State :=
  if n ≠ 0 then setPrev s n q else .ok s

/- `if (p) payload[p].next_hole = m; else first_hole = m` -/
def linkForward (p m : ℕ) : Except Fault State :=
  if p ≠ 0 then setNext s p m else .ok { s with firstHole := m }

def moveHole (i : ℕ) (newh : ℤ) : Except Fault (State × Bool) := do
  let s₁ ← copyHole s newh i
  let h := newh.toNat
  let s₂ ← linkBack s₁ (hole s₁.mem h).next h
  let s₃ ← linkForward s₂ (hole s₂.mem h).prev h
  .ok (s₃, false)

def splitHole (i start : ℕ) (newh : ℤ) : Except Fault (State × Bool) := do
  let s₁ ← copyHole s newh i
  let s₂ ← setLast s₁ i start
  let s₃ ← setNext s₂ i newh.toNat
  let s₄ ← setPrev s₃ newh.toNat i
  let s₅ ← linkBack s₄ (hole s₄.mem newh.toNat).next newh.toNat
  .ok (s₅, false)

def fixHoles (i offset8 : ℕ) (len : ℤ) : Except Fault (State × Bool) :=
  let start := 8 * offset8
  let last := (hole s.mem i).val
  if offset8 ≤ i ∧ (last : ℤ) ≤ start + len then removeHole s i
  else if (last : ℤ) ≤ start + len then (setLast s i start).map fun s₁ => (s₁, false)
  else if offset8 ≤ i then moveHole s i (offset8 + len.tdiv 8)
  else splitHole s i start (offset8 + len.tdiv 8)

def reset (hdr : Header) : State where
  hdr := hdr
  mem := setWord16 (setWord16 (setWord16 s.mem 0 0xffff) 2 0) 4 0
  firstHole := 0
  totalLen := 0xffff
  holes := fun i => i == 0
  finished := false

end Operations

section Fragments

variable (s : State) (ip : IpPacket)

def IpPacket.offset8 : ℕ := ip.hdr.off % 2 ^ 13
def IpPacket.start : ℕ := 8 * ip.offset8
def IpPacket.moreFragments : Bool := ip.hdr.off / 2 ^ 13 % 2 = 1
def IpPacket.fragLen : ℤ := ip.hdr.len - ipHdrSize

/- The comparison with `IP_MAXUDP` is one of unsigned numbers. -/
def IpPacket.tooFar : Prop :=
  (ip.start : ℤ) + ip.fragLen < 0 ∨ (ipMaxUdp : ℤ) < ip.start + ip.fragLen

instance : Decidable ip.tooFar := inferInstanceAs (Decidable (_ ∨ _))

def begin : State := if s.totalLen = 0 ∨ s.hdr.id ≠ ip.hdr.id then reset s ip.hdr else s

/- `total_len` and the end of the hole, when there are no more fragments. -/
def truncate (i : ℕ) : Except Fault State :=
  if ip.moreFragments then .ok s
  else setLast { s with totalLen := (ip.start + ip.fragLen).toNat % 2 ^ 16 } i
    (ip.start + ip.fragLen).toNat

/- The part after the overlap with hole `i` is known. -/
def place (i : ℕ) : Except Fault (State × Option ℕ) := do
  let s₁ ← truncate s ip i
  let (s₂, done) ← fixHoles s₁ i ip.offset8 ip.fragLen
  let s₃ ← copyData s₂ ip.offset8 ip.fragLen ip.data
  if done then
    .ok ({ s₃ with hdr := { s₃.hdr with len := s₃.totalLen }, finished := true },
      some (s₃.totalLen + ipHdrSize))
  else .ok (s₃, none)

def overlapped : Except Fault (Option ℕ) :=
  (walk s ip.start (ipMaxUdp / 8 + 1) s.firstHole).map fun found =>
    found.filter fun i => ¬(ip.offset8 : ℤ) + (ip.fragLen + 7).tdiv 8 ≤ i

/- `__net_defragment`: returns `*lenp` with the packet, which is then in the buffer. -/
def netDefragment : Except Fault (State × Option ℕ) :=
  if ip.tooFar then .ok (s, none)
  else do
    let s₁ := begin s ip
    let found ← overlapped s₁ ip
    match found with
    | none => .ok (s₁, none)
    | some i => place s₁ ip i

end Fragments

end UBoot.Defrag
