import UBoot.Pci.Auto

/-!
# The ranges that are assigned

`nextAddr` is the address without the modulus. An allocation is right as long as the end of its range
does not pass `bus_start + 2 ^ bits`.
-/

namespace UBoot.Pci

open List Nat Option

variable (pci64 : Bool)

/- `bus_lower`; it has wrapped to 0 when the last address is taken. -/
def floorOf (res : Region) : ℕ := sub pci64 res.busLower 1 + 1

def nextAddr (res : Region) (size : ℕ) : ℕ := (sub pci64 res.busLower 1 / size + 1) * size

def Fits (res : Region) (size : ℕ) : Prop :=
  nextAddr pci64 res size + size ≤ res.busStart + res.size

instance (res : Region) (size : ℕ) : Decidable (Fits pci64 res size) :=
  inferInstanceAs (Decidable (_ ≤ _))

structure Region.Ok (res : Region) : Prop where
  size : res.size < 2 ^ bits pci64
  stop : res.busStart + res.size ≤ 2 ^ bits pci64
  lower : res.busLower < 2 ^ bits pci64
  floor : res.busStart ≤ floorOf pci64 res

section Allocate

variable {pci64} {res : Region} {k : ℕ}

theorem sub_lt (a b : ℕ) : sub pci64 a b < 2 ^ bits pci64 := mod_lt _ (Nat.two_pow_pos _)

theorem sub_of_le {a b : ℕ} (h : b ≤ a) (ha : a < 2 ^ bits pci64) : sub pci64 a b = a - b := by
  rw [sub, show a + 2 ^ bits pci64 - b = a - b + 2 ^ bits pci64 by lia, add_mod_right,
    mod_eq_of_lt (by lia)]

variable (pci64 res) in
theorem floorOf_pos : 0 < floorOf pci64 res := succ_pos _

theorem lor_low (x k : ℕ) : (x ||| (2 ^ k - 1)) + 1 = (x / 2 ^ k + 1) * 2 ^ k := by
  have hlow : x ||| (2 ^ k - 1) = x / 2 ^ k * 2 ^ k + (2 ^ k - 1) := by
    apply eq_of_testBit_eq
    intro i
    have hlt : 2 ^ k - 1 < 2 ^ k := Nat.sub_lt (Nat.two_pow_pos k) Nat.one_pos
    rw [testBit_or, testBit_two_pow_sub_one, Nat.mul_comm, testBit_two_pow_mul_add _ hlt,
      testBit_two_pow_sub_one, testBit_div_two_pow]
    by_cases hi : i < k
    · simp [hi]
    · simp [hi, Nat.sub_add_cancel (not_lt.mp hi)]
  have hpos := Nat.two_pow_pos k
  rw [hlow, Nat.add_mul]
  lia

variable (pci64 res k) in
theorem floorOf_le_nextAddr : floorOf pci64 res ≤ nextAddr pci64 res (2 ^ k) := by
  have h := lt_div_mul_add (a := sub pci64 res.busLower 1) (Nat.two_pow_pos k)
  rw [floorOf, nextAddr, Nat.add_mul]
  lia

variable (res) in
theorem nextAddr_le (hk : k ≤ bits pci64) : nextAddr pci64 res (2 ^ k) ≤ 2 ^ bits pci64 := by
  have hlt : sub pci64 res.busLower 1 / 2 ^ k < 2 ^ (bits pci64 - k) := by
    rw [Nat.div_lt_iff_lt_mul (Nat.two_pow_pos k), ← pow_add, Nat.sub_add_cancel hk]
    exact sub_lt _ _
  calc nextAddr pci64 res (2 ^ k) ≤ 2 ^ (bits pci64 - k) * 2 ^ k := Nat.mul_le_mul_right _ hlt
    _ = 2 ^ bits pci64 := by rw [← pow_add, Nat.sub_add_cancel hk]

theorem addr_eq (hk : k < bits pci64) :
    ((sub pci64 res.busLower 1 ||| sub pci64 (2 ^ k) 1) + 1) % 2 ^ bits pci64 =
      nextAddr pci64 res (2 ^ k) % 2 ^ bits pci64 := by
  rw [sub_of_le (Nat.two_pow_pos k) (Nat.pow_lt_pow_right (by norm_num) hk), lor_low, nextAddr]

theorem allocate_fits (h : res.Ok pci64) (hk : k < bits pci64) (hfits : Fits pci64 res (2 ^ k)) :
    pciautoRegionAllocate pci64 (some res) (2 ^ k) = some (nextAddr pci64 res (2 ^ k),
      { res with busLower := (nextAddr pci64 res (2 ^ k) + 2 ^ k) % 2 ^ bits pci64 }) := by
  have hstop := h.stop
  have hsize := h.size
  have hpos := Nat.two_pow_pos k
  have hfloor := h.floor.trans (floorOf_le_nextAddr pci64 res k)
  unfold Fits at hfits
  have haddr : nextAddr pci64 res (2 ^ k) < 2 ^ bits pci64 := by lia
  simp only [pciautoRegionAllocate, addr_eq hk, mod_eq_of_lt haddr]
  rw [sub_of_le hfloor haddr, mod_eq_of_lt (by lia), if_neg (by lia)]

theorem allocate_full (h : res.Ok pci64) (hk : k < bits pci64) (hfull : ¬ Fits pci64 res (2 ^ k))
    (hwrap : nextAddr pci64 res (2 ^ k) + 2 ^ k < res.busStart + 2 ^ bits pci64) :
    pciautoRegionAllocate pci64 (some res) (2 ^ k) = none := by
  have hpos := Nat.two_pow_pos k
  have hfloor := h.floor.trans (floorOf_le_nextAddr pci64 res k)
  unfold Fits at hfull
  simp only [pciautoRegionAllocate, addr_eq hk]
  cases Nat.lt_or_eq_of_le (nextAddr_le res hk.le) with
  | inl haddr =>
    rw [mod_eq_of_lt haddr, sub_of_le hfloor haddr, mod_eq_of_lt (by lia), if_pos (by lia)]
  | inr htop =>
    -- the address wraps to 0
    have hzero : sub pci64 0 res.busStart = 2 ^ bits pci64 - res.busStart := by
      rw [sub, Nat.zero_add, mod_eq_of_lt (by lia)]
    rw [htop, mod_self, hzero, mod_eq_of_lt (by lia), if_pos (by lia)]

end Allocate

def Bar.size : Bar → ℕ
  | .unused => 0
  | .io log _ | .mem32 log _ | .mem64 log _ => 2 ^ log

def Regions.memRes (r : Regions) (prefetch : Bool) : Res :=
  if r.prefetch.isSome ∧ prefetch then .prefetch else .mem

theorem response_io : ∀ log < 17, 2 ≤ log → ∀ wide : Bool,
    Reg.read ⟨2 ^ (if wide then 32 else 16) - 2 ^ log, 1⟩ 0xffffffff &&& 1 ≠ 0 ∧
    ((2 ^ 64 - 1 - (Reg.read ⟨2 ^ (if wide then 32 else 16) - 2 ^ log, 1⟩ 0xffffffff &&&
      (2 ^ 64 - 1 - 3))) &&& 0xffff) + 1 = 2 ^ log := by
  decide +kernel

theorem response_mem32 : ∀ log < 32, 4 ≤ log → ∀ prefetch : Bool,
    let response := Reg.read ⟨2 ^ 32 - 2 ^ log, prefetchBit prefetch⟩ 0xffffffff
    response ≠ 0 ∧ response &&& 1 = 0 ∧ response &&& 6 ≠ 4 ∧
      (response &&& 8 ≠ 0 ↔ prefetch = true) ∧
      (2 ^ 64 - (response &&& (2 ^ 64 - 1 - 15))) % 2 ^ 64 % 2 ^ 32 = 2 ^ log := by
  decide +kernel

theorem response_mem64 : ∀ log < 64, 4 ≤ log → ∀ prefetch : Bool,
    let response := Reg.read ⟨(2 ^ 64 - 2 ^ log) % 2 ^ 32, 4 + prefetchBit prefetch⟩ 0xffffffff
    let upper := Reg.read ⟨(2 ^ 64 - 2 ^ log) / 2 ^ 32, 0⟩ 0xffffffff
    response ≠ 0 ∧ response &&& 1 = 0 ∧ response &&& 6 = 4 ∧
      (response &&& 8 ≠ 0 ↔ prefetch = true) ∧
      (2 ^ 64 - ((upper * 2 ^ 32 + response) &&& (2 ^ 64 - 1 - 15))) % 2 ^ 64 = 2 ^ log := by
  decide +kernel

theorem response_rom : ∀ log < 32, 11 ≤ log →
    let response := Reg.read ⟨2 ^ 32 - 2 ^ log, 0⟩ 0xfffffffe
    response ≠ 0 ∧ (2 ^ 32 - (response &&& (2 ^ 32 - 2))) % 2 ^ 32 = 2 ^ log := by
  decide +kernel

/- The register that starts at a dword; `none` at the upper half of a 64-bit one. -/
def barAt : List Bar → ℕ → Option Bar
  | [], _ => none
  | bar :: rest, i =>
    if i = 0 then some bar
    else if i < bar.regs.length then none
    else barAt rest (i - bar.regs.length)

theorem regs_pos (bar : Bar) : 0 < bar.regs.length := by
  cases bar <;> simp [Bar.regs]

theorem barAt_append (front rest : List Bar) (bar : Bar) :
    barAt (front ++ bar :: rest) (front.flatMap Bar.regs).length = some bar := by
  induction front with
  | nil => simp [barAt]
  | cons b front ih =>
    have hpos := regs_pos b
    rw [cons_append, barAt, flatMap_cons, length_append, if_neg (by lia),
      if_neg (by lia), Nat.add_sub_cancel_left]
    exact ih

/- A range for a register of 32 bits: below 4 GiB when there is room, and no carry past
   `bus_start + 2 ^ bits` when there is none. -/
def NarrowClear (region : Option Region) (size : ℕ) : Prop :=
  match region with
  | none => True
  | some res =>
    if Fits pci64 res size then nextAddr pci64 res size + size ≤ 2 ^ 32
    else nextAddr pci64 res size + size < res.busStart + 2 ^ bits pci64

def BarClear (r : Regions) : Bar → Prop
  | .unused => True
  | .io log _ => NarrowClear pci64 r.io (2 ^ log)
  | .mem32 log prefetch => NarrowClear pci64 (r.get (r.memRes prefetch)) (2 ^ log)
  | .mem64 log prefetch =>
    match r.get (r.memRes prefetch) with
    | none => False
    | some res => Fits pci64 res (2 ^ log)

def afterAllocate (r : Regions) (kind : Res) (size : ℕ) : Regions :=
  match pciautoRegionAllocate pci64 (r.get kind) size with
  | some (_, region) => r.set region kind
  | none => r

def afterBar (r : Regions) : Bar → Regions
  | .unused => r
  | .io log _ => afterAllocate pci64 r .io (2 ^ log)
  | .mem32 log prefetch | .mem64 log prefetch =>
    afterAllocate pci64 r (r.memRes prefetch) (2 ^ log)

def BarsClear : Regions → List Bar → Prop
  | _, [] => True
  | r, bar :: rest => BarClear pci64 r bar ∧ BarsClear (afterBar pci64 r bar) rest

def RomClear (r : Regions) (dev : Device) : Prop :=
  match dev.rom with
  | none => True
  | some log => dev.headerType &&& 0x7f ≠ 2 → NarrowClear pci64 r.mem (2 ^ log)

def DeviceClear (r : Regions) (dev : Device) : Prop :=
  BarsClear pci64 r dev.bars ∧ RomClear pci64 (dev.bars.foldl (afterBar pci64) r) dev

def DevicesClear : Regions → List (Device × ℕ) → Prop
  | _, [] => True
  | r, (dev, barsNum) :: rest => DeviceClear pci64 r dev ∧
      DevicesClear (dmPciautoSetupDevice pci64 dev barsNum r).regions rest

instance (region : Option Region) (size : ℕ) : Decidable (NarrowClear pci64 region size) :=
  match region with
  | none => isTrue trivial
  | some res => inferInstanceAs (Decidable
      (if Fits pci64 res size then nextAddr pci64 res size + size ≤ 2 ^ 32
      else nextAddr pci64 res size + size < res.busStart + 2 ^ bits pci64))

instance (r : Regions) (bar : Bar) : Decidable (BarClear pci64 r bar) :=
  match bar with
  | .unused => isTrue trivial
  | .io _ _ | .mem32 _ _ => inferInstanceAs (Decidable (NarrowClear pci64 _ _))
  | .mem64 log prefetch =>
    match h : r.get (r.memRes prefetch) with
    | none => isFalse fun hc => by simp [BarClear, h] at hc
    | some res => decidable_of_iff (Fits pci64 res (2 ^ log)) (by simp [BarClear, h])

instance decidableBarsClear : (r : Regions) → (bars : List Bar) → Decidable (BarsClear pci64 r bars)
  | _, [] => isTrue trivial
  | r, bar :: rest =>
    have := decidableBarsClear (afterBar pci64 r bar) rest
    inferInstanceAs (Decidable (BarClear pci64 r bar ∧ BarsClear pci64 (afterBar pci64 r bar) rest))

instance (r : Regions) (dev : Device) : Decidable (RomClear pci64 r dev) :=
  match h : dev.rom with
  | none => isTrue (by simp [RomClear, h])
  | some log => decidable_of_iff
      (dev.headerType &&& 0x7f ≠ 2 → NarrowClear pci64 r.mem (2 ^ log)) (by simp [RomClear, h])

instance decidableDevicesClear :
    (r : Regions) → (devs : List (Device × ℕ)) → Decidable (DevicesClear pci64 r devs)
  | _, [] => isTrue trivial
  | r, (dev, barsNum) :: rest =>
    have := decidableDevicesClear (dmPciautoSetupDevice pci64 dev barsNum r).regions rest
    inferInstanceAs (Decidable ((BarsClear pci64 r dev.bars ∧
      RomClear pci64 (dev.bars.foldl (afterBar pci64) r) dev) ∧ DevicesClear pci64 _ rest))

def sizeAt (dev : Device) : Place → ℕ
  | .bar i => ((barAt dev.bars i).map Bar.size).getD 0
  | .rom => (dev.rom.map (2 ^ ·)).getD 0

def rangeOf (dev : Device) (kind : Res) : Event → Option (ℕ × ℕ)
  | .sized _ => none
  | .assigned res place addr => if res = kind then some (addr, sizeAt dev place) else none

def ranges (dev : Device) (events : List Event) (kind : Res) : List (ℕ × ℕ) :=
  events.filterMap (rangeOf dev kind)

def Event.place : Event → Place
  | .sized place => place
  | .assigned _ place _ => place

def Own (dev : Device) (e : Event) : Prop := ∀ i, e.place = .bar i → (barAt dev.bars i).isSome

def Placed (res : Region) (x : ℕ × ℕ) : Prop :=
  x.2 ∣ x.1 ∧ x.1 ≠ 0 ∧ res.busStart ≤ x.1 ∧ x.1 + x.2 ≤ res.busStart + res.size

def Apart (x y : ℕ × ℕ) : Prop := x.1 + x.2 ≤ y.1 ∨ y.1 + y.2 ≤ x.1

structure RegionSound (res : Region) (l : List (ℕ × ℕ)) : Prop where
  placed : ∀ x ∈ l, Placed res x
  apart : l.Pairwise Apart

structure Taken (res₀ res : Region) (l : List (ℕ × ℕ)) : Prop extends RegionSound res₀ l where
  start : res.busStart = res₀.busStart
  size : res.size = res₀.size
  ok : res.Ok pci64
  below : ∀ x ∈ l, x.1 + x.2 ≤ floorOf pci64 res

/- `taken` lists the ranges of each region. -/
structure Inv (r₀ r : Regions) (taken : Res → List (ℕ × ℕ)) : Prop where
  absent : ∀ kind, r₀.get kind = none → r.get kind = none ∧ taken kind = []
  present : ∀ kind res₀, r₀.get kind = some res₀ →
    ∃ res, r.get kind = some res ∧ Taken pci64 res₀ res (taken kind)

section Steps

variable {pci64} {r₀ r : Regions} {taken : Res → List (ℕ × ℕ)}

@[simp] theorem get_set_same (r : Regions) (res : Region) (kind : Res) :
    (r.set res kind).get kind = some res := by
  cases kind <;> rfl

variable {kind : Res}

theorem get_set_apart (r : Regions) (res : Region) {other : Res} (h : other ≠ kind) :
    (r.set res kind).get other = r.get other := by
  cases kind <;> cases other <;> first | rfl | exact absurd rfl h

variable {res : Region}

theorem Inv.region (h : Inv pci64 r₀ r taken) (hr : r.get kind = some res) :
    ∃ res₀, r₀.get kind = some res₀ ∧ Taken pci64 res₀ res (taken kind) := by
  cases h₀ : r₀.get kind with
  | none =>
    rw [(h.absent kind h₀).1] at hr
    cases hr
  | some res₀ =>
    obtain ⟨res', hres', htaken⟩ := h.present kind res₀ h₀
    rw [hr] at hres'
    obtain rfl := some.inj hres'
    exact ⟨res₀, rfl, htaken⟩

theorem floorOf_after (res : Region) {stop : ℕ} (hpos : 0 < stop) (hle : stop ≤ 2 ^ bits pci64) :
    floorOf pci64 { res with busLower := stop % 2 ^ bits pci64 } = stop := by
  simp only [floorOf, sub]
  cases Nat.lt_or_eq_of_le hle with
  | inl hlt =>
    rw [mod_eq_of_lt hlt, show stop + 2 ^ bits pci64 - 1 = stop - 1 + 2 ^ bits pci64 by lia,
      add_mod_right, mod_eq_of_lt (by lia)]
    lia
  | inr heq =>
    rw [heq, mod_self, Nat.zero_add, mod_eq_of_lt (by lia)]
    lia

variable {k : ℕ}

theorem Taken.allocate {res₀ : Region} {l : List (ℕ × ℕ)} (h : Taken pci64 res₀ res l)
    (hfits : Fits pci64 res (2 ^ k)) :
    Taken pci64 res₀
      { res with busLower := (nextAddr pci64 res (2 ^ k) + 2 ^ k) % 2 ^ bits pci64 }
      (l ++ [(nextAddr pci64 res (2 ^ k), 2 ^ k)]) := by
  have hpos := Nat.two_pow_pos k
  have hfloor := floorOf_le_nextAddr pci64 res k
  have hstart := h.ok.floor
  have hstop : nextAddr pci64 res (2 ^ k) + 2 ^ k ≤ 2 ^ bits pci64 := hfits.trans h.ok.stop
  have hafter := floorOf_after res (Nat.add_pos_right _ hpos) hstop
  have hnew : Placed res₀ (nextAddr pci64 res (2 ^ k), 2 ^ k) := by
    refine ⟨Dvd.intro_left _ rfl, ?_, ?_, ?_⟩
    · have := floorOf_pos pci64 res
      simp only
      lia
    · rw [← h.start]
      exact hstart.trans hfloor
    · rw [← h.start, ← h.size]
      exact hfits
  refine ⟨⟨?_, ?_⟩, h.start, h.size, ⟨h.ok.size, h.ok.stop, mod_lt _ (Nat.two_pow_pos _), ?_⟩, ?_⟩
  · intro x hx
    cases mem_append.mp hx with
    | inl hold => exact h.placed x hold
    | inr hx =>
      rw [mem_singleton.mp hx]
      exact hnew
  · refine pairwise_append.mpr ⟨h.apart, pairwise_singleton _ _, ?_⟩
    intro x hx y hy
    rw [mem_singleton.mp hy]
    exact .inl ((h.below x hx).trans hfloor)
  · rw [hafter]
    simp only
    lia
  · intro x hx
    rw [hafter]
    cases mem_append.mp hx with
    | inl hold =>
      have := h.below x hold
      lia
    | inr hx => rw [mem_singleton.mp hx]

theorem Inv.allocate (h : Inv pci64 r₀ r taken)
    (hr : r.get kind = some res) (hfits : Fits pci64 res (2 ^ k)) :
    Inv pci64 r₀
      (r.set { res with busLower := (nextAddr pci64 res (2 ^ k) + 2 ^ k) % 2 ^ bits pci64 } kind)
      fun other => taken other ++
        if kind = other then [(nextAddr pci64 res (2 ^ k), 2 ^ k)] else [] := by
  obtain ⟨res₀, h₀, htaken⟩ := h.region hr
  refine ⟨fun other hother => ?_, fun other res₁ hother => ?_⟩
  · have hne : other ≠ kind := by
      rintro rfl
      rw [h₀] at hother
      cases hother
    rw [get_set_apart _ _ hne, if_neg (Ne.symm hne), append_nil]
    exact h.absent other hother
  · by_cases hkind : other = kind
    · subst hkind
      rw [h₀] at hother
      obtain rfl := some.inj hother
      rw [if_pos rfl]
      exact ⟨_, get_set_same _ _ _, htaken.allocate hfits⟩
    · rw [get_set_apart _ _ hkind, if_neg (Ne.symm hkind), append_nil]
      exact h.present other res₁ hother

theorem NarrowClear.cases (kind : Res) (h : NarrowClear pci64 (r.get kind) (2 ^ k))
    (hinv : Inv pci64 r₀ r taken) (hk : k < 32) :
    pciautoRegionAllocate pci64 (r.get kind) (2 ^ k) = none ∨
    ∃ res, r.get kind = some res ∧ Fits pci64 res (2 ^ k) ∧ nextAddr pci64 res (2 ^ k) < 2 ^ 32 ∧
      pciautoRegionAllocate pci64 (r.get kind) (2 ^ k) = some (nextAddr pci64 res (2 ^ k),
        { res with busLower := (nextAddr pci64 res (2 ^ k) + 2 ^ k) % 2 ^ bits pci64 }) := by
  have hbits : k < bits pci64 := by
    rw [bits]
    split <;> lia
  cases hr : r.get kind with
  | none => exact .inl rfl
  | some res =>
    obtain ⟨res₀, -, htaken⟩ := hinv.region hr
    have hclear := h
    rw [hr, NarrowClear] at hclear
    by_cases hfits : Fits pci64 res (2 ^ k)
    · rw [if_pos hfits] at hclear
      have hpos := Nat.two_pow_pos k
      exact .inr ⟨res, rfl, hfits, by lia, allocate_fits htaken.ok hbits hfits⟩
    · rw [if_neg hfits] at hclear
      exact .inl (allocate_full htaken.ok hbits hfits hclear)

/- What holds while `dev` is set up; `before` are the ranges of the devices before it. -/
structure Track (pci64 : Bool) (r₀ : Regions) (before : Res → List (ℕ × ℕ)) (dev : Device)
    (s : State) : Prop where
  inv : Inv pci64 r₀ s.regions fun kind => before kind ++ ranges dev s.events kind
  own : ∀ e ∈ s.events, Own dev e

variable {before : Res → List (ℕ × ℕ)} {dev : Device} {s : State}

theorem Track.command (h : Track pci64 r₀ before dev s) (c : ℕ) :
    Track pci64 r₀ before dev { s with cmdstat := c } := ⟨h.inv, h.own⟩

theorem own_append {l : List Event} {e : Event} (h : ∀ e ∈ l, Own dev e) (he : Own dev e) :
    ∀ e' ∈ l ++ [e], Own dev e' := by
  intro e' hmem
  cases mem_append.mp hmem with
  | inl hold => exact h e' hold
  | inr hnew => exact mem_singleton.mp hnew ▸ he

theorem Track.sized {place : Place} (h : Track pci64 r₀ before dev s)
    (hown : Own dev (.sized place)) : Track pci64 r₀ before dev (s.log (.sized place)) := by
  refine ⟨?_, own_append h.own hown⟩
  have hranges : ∀ kind, ranges dev (s.events ++ [Event.sized place]) kind =
      ranges dev s.events kind := by
    intro kind
    simp [ranges, rangeOf]
  simpa only [State.log, hranges] using h.inv

theorem Track.assigned {place : Place} (h : Track pci64 r₀ before dev s)
    (hown : Own dev (.sized place)) (hsize : sizeAt dev place = 2 ^ k)
    (hr : s.regions.get kind = some res) (hfits : Fits pci64 res (2 ^ k)) (c : ℕ) :
    Track pci64 r₀ before dev
      { s.log (.assigned kind place (nextAddr pci64 res (2 ^ k))) with
        regions := s.regions.set
          { res with busLower := (nextAddr pci64 res (2 ^ k) + 2 ^ k) % 2 ^ bits pci64 } kind
        cmdstat := c } := by
  refine ⟨?_, own_append h.own fun i hi => hown i hi⟩
  have hranges : ∀ other,
      ranges dev (s.events ++ [.assigned kind place (nextAddr pci64 res (2 ^ k))]) other =
      ranges dev s.events other ++
        if kind = other then [(nextAddr pci64 res (2 ^ k), 2 ^ k)] else [] := by
    intro other
    rw [ranges, filterMap_append, ← ranges]
    congr 1
    by_cases hkind : kind = other <;> simp [rangeOf, hkind, hsize]
  have hinv := h.inv.allocate hr hfits
  simpa only [State.log, hranges, append_assoc] using hinv

theorem narrow_turn {barsNum fuel i response : ℕ} (h : Track pci64 r₀ before dev s)
    (hlt : i < barsNum) (hread : dev.read i 0xffffffff = response) (hne : response ≠ 0)
    (hdecode : decode pci64 dev s.regions i response = (2 ^ k, kind, false))
    (hclear : NarrowClear pci64 (s.regions.get kind) (2 ^ k)) (hk : k < 32)
    (hsize : sizeAt dev (.bar i) = 2 ^ k) (hown : Own dev (.sized (.bar i))) :
    ∃ s', barLoop pci64 dev barsNum (fuel + 1) i s = barLoop pci64 dev barsNum fuel (i + 1) s' ∧
      Track pci64 r₀ before dev s' ∧ s'.regions = afterAllocate pci64 s.regions kind (2 ^ k) := by
  have hs := h.sized hown
  have hregions : (s.log (.sized (.bar i))).regions = s.regions := rfl
  rw [barLoop, if_neg (by lia)]
  simp only [hread, if_neg hne, hregions, hdecode, afterAllocate]
  cases NarrowClear.cases kind hclear h.inv hk with
  | inl hnone =>
    simp only [hnone]
    exact ⟨_, rfl, hs.command _, rfl⟩
  | inr hsome =>
    obtain ⟨res, hres, hfits, haddr, hsome⟩ := hsome
    simp only [hsome, Bool.false_eq_true, if_false, mod_eq_of_lt haddr]
    exact ⟨_, rfl, hs.assigned hown hsize hres hfits _, rfl⟩

theorem wide_turn {barsNum fuel i response : ℕ} (h : Track pci64 r₀ before dev s)
    (hlt : i < barsNum) (hread : dev.read i 0xffffffff = response) (hne : response ≠ 0)
    (hdecode : decode pci64 dev s.regions i response = (2 ^ k % 2 ^ bits pci64, kind, true))
    (hres : s.regions.get kind = some res) (hfits : Fits pci64 res (2 ^ k))
    (hsize : sizeAt dev (.bar i) = 2 ^ k) (hown : Own dev (.sized (.bar i))) :
    ∃ s', barLoop pci64 dev barsNum (fuel + 1) i s = barLoop pci64 dev barsNum fuel (i + 2) s' ∧
      Track pci64 r₀ before dev s' ∧ s'.regions = afterAllocate pci64 s.regions kind (2 ^ k) := by
  have hs := h.sized hown
  have hregions : (s.log (.sized (.bar i))).regions = s.regions := rfl
  obtain ⟨res₀, -, htaken⟩ := h.inv.region hres
  -- a size that fits the region fits the type
  have hk : k < bits pci64 := by
    have hle : 2 ^ k ≤ res.size := by
      have hfloor := htaken.ok.floor.trans (floorOf_le_nextAddr pci64 res k)
      unfold Fits at hfits
      lia
    exact (Nat.pow_lt_pow_iff_right (by norm_num)).mp (lt_of_le_of_lt hle htaken.ok.size)
  have hmod : 2 ^ k % 2 ^ bits pci64 = 2 ^ k := mod_eq_of_lt (Nat.pow_lt_pow_right (by norm_num) hk)
  have halloc := allocate_fits htaken.ok hk hfits
  rw [barLoop, if_neg (by lia)]
  simp only [hread, if_neg hne, hregions, hdecode, hmod, afterAllocate, hres, halloc, if_true]
  exact ⟨_, rfl, hs.assigned hown hsize hres hfits _, rfl⟩

variable {rest : List Bar}

theorem read_bar {front : List Bar} {bar : Bar} (hsplit : dev.bars = front ++ bar :: rest)
    {j : ℕ} (hj : j < bar.regs.length) (v : ℕ) :
    dev.read ((front.flatMap Bar.regs).length + j) v = (bar.regs.getD j ⟨0, 0⟩).read v := by
  have hregs : dev.regs = front.flatMap Bar.regs ++ (bar.regs ++ rest.flatMap Bar.regs) := by
    rw [Device.regs, hsplit, flatMap_append, flatMap_cons]
  rw [Device.read, hregs, getD_eq_getElem?_getD, getElem?_append_right (by lia),
    Nat.add_sub_cancel_left, getElem?_append_left hj, ← getD_eq_getElem?_getD]

section Decode

variable {i response size : ℕ} {prefetch : Bool}

theorem decode_io (hio : response &&& 1 ≠ 0)
    (hsize : ((2 ^ 64 - 1 - (response &&& (2 ^ 64 - 1 - 3))) &&& 0xffff) + 1 = size) :
    decode pci64 dev r i response = (size, .io, false) := by
  rw [decode, if_pos hio, hsize]

theorem decode_mem32 (hmem : response &&& 1 = 0) (htype : response &&& 6 ≠ 4)
    (hpref : response &&& 8 ≠ 0 ↔ prefetch = true)
    (hsize : (2 ^ 64 - (response &&& (2 ^ 64 - 1 - 15))) % 2 ^ 64 % 2 ^ 32 = size) :
    decode pci64 dev r i response = (size, r.memRes prefetch, false) := by
  rw [decode, if_neg (not_not_intro hmem)]
  simp only [hpref, if_neg htype, hsize, Regions.memRes]

theorem decode_mem64 {upper : ℕ} (hupper : dev.read (i + 1) 0xffffffff = upper)
    (hmem : response &&& 1 = 0) (htype : response &&& 6 = 4)
    (hpref : response &&& 8 ≠ 0 ↔ prefetch = true)
    (hsize : (2 ^ 64 - ((upper * 2 ^ 32 + response) &&& (2 ^ 64 - 1 - 15))) % 2 ^ 64 = size) :
    decode pci64 dev r i response = (size % 2 ^ bits pci64, r.memRes prefetch, true) := by
  rw [decode, if_neg (not_not_intro hmem)]
  simp only [hpref, if_pos htype, hupper, hsize, Regions.memRes]

end Decode

theorem bar_turn {front : List Bar} {bar : Bar} (fuel : ℕ)
    (hsplit : dev.bars = front ++ bar :: rest) (hvalid : bar.Valid)
    (hclear : BarClear pci64 s.regions bar) (h : Track pci64 r₀ before dev s) :
    ∃ s', barLoop pci64 dev dev.regs.length (fuel + 1) (front.flatMap Bar.regs).length s =
        barLoop pci64 dev dev.regs.length fuel
          ((front.flatMap Bar.regs).length + bar.regs.length) s' ∧
      Track pci64 r₀ before dev s' ∧ s'.regions = afterBar pci64 s.regions bar := by
  have hread := fun j (hj : j < bar.regs.length) => read_bar hsplit hj 0xffffffff
  have hbar : barAt dev.bars (front.flatMap Bar.regs).length = some bar := by
    rw [hsplit]
    exact barAt_append front rest bar
  have hlt : (front.flatMap Bar.regs).length < dev.regs.length := by
    have hpos := regs_pos bar
    rw [Device.regs, hsplit, flatMap_append, flatMap_cons, length_append, length_append]
    lia
  generalize (front.flatMap Bar.regs).length = i at hread hbar hlt ⊢
  have hown : Own dev (.sized (.bar i)) := by
    intro j hj
    cases hj
    rw [hbar]
    rfl
  have hsize : sizeAt dev (.bar i) = bar.size := by simp [sizeAt, hbar]
  cases bar with
  | unused =>
    have hzero : dev.read i 0xffffffff = 0 := hread 0 (by decide)
    refine ⟨s.log (.sized (.bar i)), ?_, h.sized hown, rfl⟩
    rw [barLoop, if_neg (by lia)]
    simp only [hzero, if_true]
    rfl
  | io log wide =>
    obtain ⟨hio, hlog⟩ := response_io log (lt_succ_of_le hvalid.2) hvalid.1 wide
    exact narrow_turn h hlt (hread 0 Nat.one_pos) (fun hz => hio (hz ▸ zero_and 1))
      (decode_io hio hlog) hclear (lt_of_le_of_lt hvalid.2 (by norm_num)) hsize hown
  | mem32 log prefetch =>
    obtain ⟨hne, hmem, htype, hpref, hlog⟩ := response_mem32 log hvalid.2 hvalid.1 prefetch
    exact narrow_turn h hlt (hread 0 Nat.one_pos) hne (decode_mem32 hmem htype hpref hlog) hclear
      hvalid.2 hsize hown
  | mem64 log prefetch =>
    obtain ⟨hne, hmem, htype, hpref, hlog⟩ := response_mem64 log hvalid.2 hvalid.1 prefetch
    cases hres : s.regions.get (s.regions.memRes prefetch) with
    | none => simp [BarClear, hres] at hclear
    | some res =>
      simp only [BarClear, hres] at hclear
      exact wide_turn h hlt (hread 0 Nat.two_pos) hne
        (decode_mem64 (hread 1 Nat.one_lt_two) hmem htype hpref hlog) hres hclear hsize hown

theorem barLoop_tracks : ∀ (front : List Bar) (fuel : ℕ) {s : State},
    dev.bars = front ++ rest → (∀ bar ∈ rest, bar.Valid) → BarsClear pci64 s.regions rest →
    (rest.flatMap Bar.regs).length ≤ fuel → Track pci64 r₀ before dev s →
    ∃ s', barLoop pci64 dev dev.regs.length fuel (front.flatMap Bar.regs).length s = s' ∧
      Track pci64 r₀ before dev s' ∧ s'.regions = rest.foldl (afterBar pci64) s.regions := by
  induction rest with
  | nil =>
    intro front fuel s hsplit _ _ _ h
    have hend : dev.regs.length = (front.flatMap Bar.regs).length := by
      rw [Device.regs, hsplit, append_nil]
    refine ⟨s, ?_, h, rfl⟩
    cases fuel with
    | zero => rfl
    | succ fuel => rw [barLoop, if_pos hend.le]
  | cons bar rest ih =>
    intro front fuel s hsplit hvalid hclear hfuel h
    have hpos := regs_pos bar
    rw [flatMap_cons, length_append] at hfuel
    obtain _ | fuel := fuel
    · lia
    obtain ⟨s₁, hturn, h₁, hregions⟩ := bar_turn fuel hsplit (hvalid bar mem_cons_self) hclear.1 h
    have hsplit₁ : dev.bars = (front ++ [bar]) ++ rest := by simpa using hsplit
    obtain ⟨s', hloop, h', hregions'⟩ := ih (front ++ [bar]) fuel hsplit₁
      (fun b hb => hvalid b (mem_cons_of_mem _ hb)) (by rw [hregions]; exact hclear.2)
      (by lia) h₁
    refine ⟨s', ?_, h', ?_⟩
    · rw [hturn]
      simpa using hloop
    · rw [hregions', hregions, foldl_cons]

theorem setupRom_tracks (hvalid : dev.Valid) (h : Track pci64 r₀ before dev s)
    (hclear : RomClear pci64 s.regions dev) : Track pci64 r₀ before dev (setupRom pci64 dev s) := by
  have hown : Own dev (.sized .rom) := by
    intro i hi
    cases hi
  have hs := h.sized hown
  rw [setupRom]
  by_cases hcard : dev.headerType &&& 0x7f = 2
  · rw [if_pos hcard]
    exact h
  rw [if_neg hcard]
  cases hrom : dev.rom with
  | none =>
    have hzero : dev.romReg.read 0xfffffffe = 0 := by
      rw [Device.romReg, hrom]
      rfl
    simp only [hzero, if_true]
    exact hs
  | some log =>
    have hread : dev.romReg.read 0xfffffffe = Reg.read ⟨2 ^ 32 - 2 ^ log, 0⟩ 0xfffffffe := by
      rw [Device.romReg, hrom]
    obtain ⟨hne, hlog⟩ := response_rom log (hvalid.rom log hrom).2 (hvalid.rom log hrom).1
    have hsize : sizeAt dev .rom = 2 ^ log := by simp [sizeAt, hrom]
    have hregions : (s.log (.sized .rom)).regions = s.regions := rfl
    rw [RomClear, hrom] at hclear
    simp only [hread, if_neg hne, hlog, hregions]
    cases NarrowClear.cases .mem (hclear hcard) h.inv (hvalid.rom log hrom).2 with
    | inl hnone =>
      simp only [hnone]
      exact hs.command _
    | inr hsome =>
      obtain ⟨res, hres, hfits, haddr, hsome⟩ := hsome
      simp only [hsome, mod_eq_of_lt haddr]
      exact hs.assigned hown hsize hres hfits _

theorem setupDevice_tracks {r : Regions} (hvalid : dev.Valid) (hclear : DeviceClear pci64 r dev)
    (h : Inv pci64 r₀ r before) :
    Track pci64 r₀ before dev (dmPciautoSetupDevice pci64 dev dev.regs.length r) := by
  have hstart : Track pci64 r₀ before dev
      ⟨r, (dev.command &&& (2 ^ 16 - 1 - 3)) ||| 4, []⟩ := by
    refine ⟨?_, by simp⟩
    simpa only [ranges, filterMap_nil, append_nil] using h
  obtain ⟨s, hloop, hs, hregions⟩ := barLoop_tracks [] dev.regs.length
    (by simp) hvalid.bars hclear.1 le_rfl hstart
  have hrom := setupRom_tracks hvalid hs (by rw [hregions]; exact hclear.2)
  rw [dmPciautoSetupDevice]
  rw [show barLoop pci64 dev dev.regs.length dev.regs.length 0 _ = s from hloop]
  split
  · exact hrom.command _
  · exact hrom

end Steps

/- The regions as `pciauto_config_init` leaves them. -/
def Regions.init (r : Regions) : Regions :=
  ⟨r.mem.map pciautoRegionInit, r.prefetch.map pciautoRegionInit, r.io.map pciautoRegionInit⟩

structure Region.NoWrap (res : Region) : Prop where
  start : res.busStart < 2 ^ bits pci64
  size : res.size < 2 ^ bits pci64
  stop : res.busStart + res.size ≤ 2 ^ bits pci64

def allRanges (devs : List (Device × ℕ)) (log : List (List Event)) (kind : Res) : List (ℕ × ℕ) :=
  (devs.zip log).flatMap fun x => ranges x.1.1 x.2 kind

structure Sound (r : Regions) (devs : List (Device × ℕ)) (log : List (List Event)) : Prop where
  present : ∀ kind res, r.get kind = some res → RegionSound res (allRanges devs log kind)
  absent : ∀ kind, r.get kind = none → allRanges devs log kind = []
  own : ∀ x ∈ devs.zip log, ∀ e ∈ x.2, Own x.1.1 e

section All

variable {pci64} {r₀ : Regions}

theorem init_ok {res : Region} (h : res.NoWrap pci64) : (pciautoRegionInit res).Ok pci64 := by
  have hstart := h.start
  have hpage : 0x1000 < 2 ^ bits pci64 := by
    cases pci64 <;> decide
  by_cases hzero : res.busStart = 0
  · refine ⟨h.size, h.stop, ?_, ?_⟩
    · simpa [pciautoRegionInit, hzero] using hpage
    · simp [pciautoRegionInit, hzero]
  · refine ⟨h.size, h.stop, ?_, ?_⟩
    · simpa [pciautoRegionInit, hzero] using hstart
    · have hsub := sub_of_le (one_le_iff_ne_zero.mpr hzero) hstart
      simp only [pciautoRegionInit, hzero, ne_eq, not_false_eq_true, if_true, floorOf, hsub]
      lia

theorem get_init (r : Regions) (kind : Res) : r.init.get kind = (r.get kind).map pciautoRegionInit := by
  cases kind <;> rfl

theorem inv_init {r : Regions} (h : ∀ kind res, r.get kind = some res → res.NoWrap pci64) :
    Inv pci64 r r.init fun _ => [] := by
  refine ⟨fun kind hkind => ?_, fun kind res hkind => ?_⟩
  · rw [get_init, hkind]
    exact ⟨rfl, rfl⟩
  · rw [get_init, hkind]
    refine ⟨_, rfl, ⟨by simp, List.Pairwise.nil⟩, rfl, rfl, init_ok (h kind res hkind), by simp⟩

theorem setupAll_sound {devs : List (Device × ℕ)} :
    ∀ {r : Regions} {before : Res → List (ℕ × ℕ)},
      (∀ d ∈ devs, d.1.Valid ∧ d.2 = d.1.regs.length) → DevicesClear pci64 r devs →
      Inv pci64 r₀ r before →
      (∃ r', Inv pci64 r₀ r' fun kind =>
        before kind ++ allRanges devs (setupAll pci64 r devs) kind) ∧
      ∀ x ∈ devs.zip (setupAll pci64 r devs), ∀ e ∈ x.2, Own x.1.1 e := by
  induction devs with
  | nil =>
    intro r before _ _ h
    exact ⟨⟨r, by simpa [allRanges] using h⟩, by simp⟩
  | cons d devs ih =>
    intro r before hdevs hclear h
    obtain ⟨dev, barsNum⟩ := d
    obtain ⟨hvalid, hnum⟩ := hdevs _ mem_cons_self
    dsimp only at hvalid hnum
    subst hnum
    have htrack := setupDevice_tracks hvalid hclear.1 h
    obtain ⟨⟨r', hinv⟩, hown⟩ := ih (fun d hd => hdevs d (mem_cons_of_mem _ hd)) hclear.2
      htrack.inv
    refine ⟨⟨r', ?_⟩, ?_⟩
    · simpa only [setupAll, allRanges, zip_cons_cons, flatMap_cons, append_assoc] using hinv
    · intro x hx
      rw [setupAll, zip_cons_cons] at hx
      cases mem_cons.mp hx with
      | inl heq =>
        rw [heq]
        exact htrack.own
      | inr hmem => exact hown x hmem

theorem pciauto_bars_sound {r : Regions} {devs : List (Device × ℕ)}
    (hr : ∀ kind res, r.get kind = some res → res.NoWrap pci64)
    (hdevs : ∀ d ∈ devs, d.1.Valid ∧ d.2 = d.1.regs.length)
    (hclear : DevicesClear pci64 r.init devs) : Sound r devs (setupAll pci64 r.init devs) := by
  obtain ⟨⟨r', hinv⟩, hown⟩ := setupAll_sound hdevs hclear (inv_init hr)
  simp only [nil_append] at hinv
  refine ⟨fun kind res hkind => ?_, fun kind hkind => (hinv.absent kind hkind).2, hown⟩
  obtain ⟨_, _, htaken⟩ := hinv.present kind res hkind
  exact htaken.toRegionSound

end All

/- A disk controller with four kinds of registers and a ROM, set up twice. -/
def controller : Device where
  bars := [.mem32 20 false, .io 8 true, .mem64 24 true, .unused, .unused]
  rom := some 16
  headerType := 0
  classDevice := 0x0106
  command := 0

def pciRegions (memSize : ℕ) : Regions where
  mem := some ⟨0x20000000, memSize, 0⟩
  prefetch := none
  io := some ⟨0x1000, 0x1000, 0⟩

theorem pciRegions_noWrap {memSize : ℕ} (h : memSize ≤ 0x10000000) :
    ∀ kind res, (pciRegions memSize).get kind = some res → res.NoWrap false := by
  intro kind res hres
  cases kind with
  | mem =>
    obtain rfl := some.inj hres
    have hbits : 2 ^ bits false = 0x100000000 := rfl
    refine ⟨?_, ?_, ?_⟩ <;> simp only [hbits] <;> lia
  | prefetch => cases hres
  | io =>
    obtain rfl := some.inj hres
    exact ⟨by decide, by decide, by decide⟩

theorem pciauto_bars_sound_controllers :
    Sound (pciRegions 0x10000000) [(controller, 6), (controller, 6)]
      (setupAll false (pciRegions 0x10000000).init [(controller, 6), (controller, 6)]) := by
  refine pciauto_bars_sound (pciRegions_noWrap le_rfl) ?_ (by decide +kernel)
  have hvalid : controller.Valid := ⟨by simp [controller, Bar.Valid], by simp [controller]⟩
  simpa using ⟨hvalid, rfl⟩

/- There is no room for the 16 MiB of the 64-bit register of dword 2: dword 3, its upper half,
   is taken for an I/O register and gets four ports. -/
theorem upper_half_assigned :
    setupAll false (pciRegions 0x800000).init [(controller, 6)] =
      [[.sized (.bar 0), .assigned .mem (.bar 0) 0x20000000, .sized (.bar 1),
        .assigned .io (.bar 1) 0x1000, .sized (.bar 2), .sized (.bar 3),
        .assigned .io (.bar 3) 0x1100, .sized (.bar 4), .sized (.bar 5), .sized .rom,
        .assigned .mem .rom 0x20100000]] ∧
    (∀ kind res, (pciRegions 0x800000).get kind = some res → res.NoWrap false) ∧
    ¬ Sound (pciRegions 0x800000) [(controller, 6)]
      (setupAll false (pciRegions 0x800000).init [(controller, 6)]) := by
  refine ⟨by decide +kernel, pciRegions_noWrap (by decide), fun h => ?_⟩
  have hown := h.own ((controller, 6), _) mem_cons_self (.sized (.bar 3)) (by decide +kernel) 3 rfl
  revert hown
  decide

end UBoot.Pci
