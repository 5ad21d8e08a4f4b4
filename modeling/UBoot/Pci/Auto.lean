import Mathlib.Tactic

/-!
# PCI auto-configuration (drivers/pci/pci_auto.c, pci_auto_common.c)

`dm_pciauto_setup_device` with `enum_only` clear. The hardware is a list of base address registers
of one or two dwords, of which some bits can be written. Addresses and sizes have 32 bits, or 64
with CONFIG_SYS_PCI_64BIT.
-/

namespace UBoot.Pci

/- A dword of the configuration space: the bits that can be written and the fixed ones. -/
structure Reg where
  mask : ℕ
  fixed : ℕ
deriving DecidableEq, Repr

/- What is read behind a write of `v`. -/
def Reg.read (r : Reg) (v : ℕ) : ℕ := (v &&& r.mask) ||| r.fixed

/- A base address register for `2 ^ log` bytes. The high half of an I/O register may be
   missing. -/
inductive Bar where
  | unused
  | io (log : ℕ) (wide : Bool)
  | mem32 (log : ℕ) (prefetch : Bool)
  | mem64 (log : ℕ) (prefetch : Bool)
deriving DecidableEq, Repr

def prefetchBit (prefetch : Bool) : ℕ := if prefetch then 8 else 0

def Bar.regs : Bar → List Reg
  | .unused => [⟨0, 0⟩]
  | .io log wide => [⟨2 ^ (if wide then 32 else 16) - 2 ^ log, 1⟩]
  | .mem32 log prefetch => [⟨2 ^ 32 - 2 ^ log, prefetchBit prefetch⟩]
  | .mem64 log prefetch =>
    [⟨(2 ^ 64 - 2 ^ log) % 2 ^ 32, 4 + prefetchBit prefetch⟩, ⟨(2 ^ 64 - 2 ^ log) / 2 ^ 32, 0⟩]

def Bar.Valid : Bar → Prop
  | .unused => True
  | .io log _ => 2 ≤ log ∧ log ≤ 16
  | .mem32 log _ => 4 ≤ log ∧ log < 32
  | .mem64 log _ => 4 ≤ log ∧ log < 64

structure Device where
  bars : List Bar
  -- the expansion ROM
  rom : Option ℕ
  headerType : ℕ
  classDevice : ℕ
  command : ℕ
deriving DecidableEq, Repr

def Device.regs (dev : Device) : List Reg := dev.bars.flatMap Bar.regs

def Device.read (dev : Device) (i v : ℕ) : ℕ := ((dev.regs.getD i ⟨0, 0⟩).read v)

def Device.romReg (dev : Device) : Reg :=
  match dev.rom with
  | some log => ⟨2 ^ 32 - 2 ^ log, 0⟩
  | none => ⟨0, 0⟩

structure Device.Valid (dev : Device) : Prop where
  bars : ∀ bar ∈ dev.bars, bar.Valid
  rom : ∀ log, dev.rom = some log → 11 ≤ log ∧ log < 32

structure Region where
  busStart : ℕ
  size : ℕ
  busLower : ℕ
deriving DecidableEq, Repr

/- The bits of `pci_addr_t` and `pci_size_t`. -/
def bits (pci64 : Bool) : ℕ := if pci64 then 64 else 32

variable (pci64 : Bool)

def pciautoRegionInit (res : Region) : Region :=
  { res with busLower := if res.busStart ≠ 0 then res.busStart else 0x1000 }

def sub (a b : ℕ) : ℕ := (a + 2 ^ bits pci64 - b) % 2 ^ bits pci64

/- The address and the region behind it; `none` is the answer -1. -/
def pciautoRegionAllocate (res : Option Region) (size : ℕ) : Option (ℕ × Region) :=
  match res with
  | none => none
  | some res =>
    let addr := ((sub pci64 res.busLower 1 ||| sub pci64 size 1) + 1) % 2 ^ bits pci64
    if res.size < (sub pci64 addr res.busStart + size) % 2 ^ bits pci64 then none
    else some (addr, { res with busLower := (addr + size) % 2 ^ bits pci64 })

inductive Res where
  | mem
  | prefetch
  | io
deriving DecidableEq, Repr

structure Regions where
  mem : Option Region
  prefetch : Option Region
  io : Option Region
deriving DecidableEq, Repr

def Regions.get (r : Regions) : Res → Option Region
  | .mem => r.mem
  | .prefetch => r.prefetch
  | .io => r.io

def Regions.set (r : Regions) (region : Region) : Res → Regions
  | .mem => { r with mem := some region }
  | .prefetch => { r with prefetch := some region }
  | .io => { r with io := some region }

inductive Place where
  | bar (i : ℕ)
  | rom
deriving DecidableEq, Repr

/- A dword is sized as a register, or an address from a region is written to one. -/
inductive Event where
  | sized (place : Place)
  | assigned (res : Res) (place : Place) (addr : ℕ)
deriving DecidableEq, Repr

structure State where
  regions : Regions
  cmdstat : ℕ
  events : List Event
deriving DecidableEq, Repr

def State.log (s : State) (e : Event) : State := { s with events := s.events ++ [e] }

/- What the response of a register says: the size as a `pci_size_t`, the region and
   `found_mem64`. -/
def decode (dev : Device) (r : Regions) (i response : ℕ) : ℕ × Res × Bool :=
  if response &&& 1 ≠ 0 then
    -- `~` and the masks have 64 bits
    (((2 ^ 64 - 1 - (response &&& (2 ^ 64 - 1 - 3))) &&& 0xffff) + 1, .io, false)
  else
    let res := if r.prefetch.isSome ∧ response &&& 8 ≠ 0 then Res.prefetch else Res.mem
    if response &&& 6 = 4 then
      let upper := dev.read (i + 1) 0xffffffff
      let bar64 := upper * 2 ^ 32 + response
      ((2 ^ 64 - (bar64 &&& (2 ^ 64 - 1 - 15))) % 2 ^ 64 % 2 ^ bits pci64, res, true)
    else ((2 ^ 64 - (response &&& (2 ^ 64 - 1 - 15))) % 2 ^ 64 % 2 ^ 32, res, false)

/- The loop over the `barsNum` dwords, from the one with number `i` on. -/
def barLoop (dev : Device) (barsNum : ℕ) : ℕ → ℕ → State → State
  | 0, _, s => s
  | fuel + 1, i, s =>
    if barsNum ≤ i then s
    else
      let response := dev.read i 0xffffffff
      let s := s.log (.sized (.bar i))
      -- not implemented
      if response = 0 then barLoop dev barsNum fuel (i + 1) s
      else
        let (size, res, mem64) := decode pci64 dev s.regions i response
        let enable := if response &&& 1 ≠ 0 then 1 else 2
        match pciautoRegionAllocate pci64 (s.regions.get res) size with
        | some (addr, region) =>
          -- the upper half of a 64-bit register is written too
          let written := if mem64 then addr else addr % 2 ^ 32
          let next := if mem64 then i + 2 else i + 1
          barLoop dev barsNum fuel next
            { s.log (.assigned res (.bar i) written) with
              regions := s.regions.set region res
              cmdstat := s.cmdstat ||| enable }
        | none => barLoop dev barsNum fuel (i + 1) { s with cmdstat := s.cmdstat ||| enable }

def setupRom (dev : Device) (s : State) : State :=
  if dev.headerType &&& 0x7f = 2 then s
  else
    let response := dev.romReg.read 0xfffffffe
    let s := s.log (.sized .rom)
    if response = 0 then s
    else
      let size := (2 ^ 32 - (response &&& (2 ^ 32 - 2))) % 2 ^ 32
      match pciautoRegionAllocate pci64 (s.regions.get .mem) size with
      | some (addr, region) =>
        { s.log (.assigned .mem .rom (addr % 2 ^ 32)) with
          regions := s.regions.set region .mem
          cmdstat := s.cmdstat ||| 2 }
      | none => { s with cmdstat := s.cmdstat ||| 2 }

def dmPciautoSetupDevice (dev : Device) (barsNum : ℕ) (r : Regions) : State :=
  -- I/O and memory off, bus master on
  let cmdstat := (dev.command &&& (2 ^ 16 - 1 - 3)) ||| 4
  let s := setupRom pci64 dev (barLoop pci64 dev barsNum barsNum 0 ⟨r, cmdstat, []⟩)
  -- a VGA device
  if dev.classDevice = 0x0300 then { s with cmdstat := s.cmdstat ||| 1 } else s

def setupAll : Regions → List (Device × ℕ) → List (List Event)
  | _, [] => []
  | r, (dev, barsNum) :: rest =>
    let s := dmPciautoSetupDevice pci64 dev barsNum r
    s.events :: setupAll s.regions rest

end UBoot.Pci
