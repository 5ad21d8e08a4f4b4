import UBoot.Lib.ListSort

/-!
# The EFI memory map (lib/efi_loader/efi_memory.c)

The list `efi_mem` is a list of descriptors. 64-bit values are natural numbers
below `2^64`; every operation that can wrap in the source is taken modulo `2^64`
here. `calloc` always succeeds, as the source assumes without a check.
-/

namespace UBoot.Efi.Memory
open Lib.ListSort

/-- A `uint64_t` result. -/
def u64 (x : ℕ) : ℕ := x % 2 ^ 64

/-- `EFI_PAGE_SIZE` (`include/efi.h:142`). -/
def efiPageSize : ℕ := 4096

/-- `pages << EFI_PAGE_SHIFT` in 64 bits. -/
def bytesOf (pages : ℕ) : ℕ := u64 (pages * efiPageSize)

/-- `len >> EFI_PAGE_SHIFT`. -/
def pagesOf (len : ℕ) : ℕ := len / efiPageSize

def efiRuntimeServicesCode : ℕ := 5
def efiRuntimeServicesData : ℕ := 6
def efiConventionalMemory : ℕ := 7
def efiMmapIo : ℕ := 11

inductive Status where
  | success
  | invalidParameter
  | outOfResources
  | notFound
  deriving Repr, DecidableEq

/-- `struct efi_mem_desc` (`include/efi.h:145-152`). -/
structure MemDesc where
  type : ℕ
  reserved : ℕ
  physicalStart : ℕ
  virtualStart : ℕ
  numPages : ℕ
  attr : ℕ
  deriving Repr, DecidableEq

/-- `map_end` and `carve_end` (`efi_memory.c:70-73`), as computed in 64 bits. -/
def MemDesc.stop (d : MemDesc) : ℕ := u64 (d.physicalStart + bytesOf d.numPages)

/-- `efi_mem_cmp` (`efi_memory.c:37-48`). -/
def efiMemCmp (a b : MemDesc) : ℤ :=
  if a.physicalStart = b.physicalStart then 0
  else if a.physicalStart < b.physicalStart then 1
  else -1

/-- `efi_mem_sort` (`efi_memory.c:50-53`). -/
def efiMemSort (efiMem : List MemDesc) : List MemDesc := listSort efiMemCmp efiMem

/-- What `efi_mem_carve_out` returns and leaves behind: the return value, the
entry it was called on (`none` after `list_del`) and the entry it appended. -/
structure Carved where
  ret : ℤ
  map : Option MemDesc
  newmap : Option MemDesc
  deriving Repr, DecidableEq

/-- `efi_mem_carve_out` (`efi_memory.c:63-117`). -/
def efiMemCarveOut (map carveDesc : MemDesc) (overlapOnlyRam : Bool) : Carved :=
  let mapStart := map.physicalStart
  let mapEnd := map.stop
  let carveStart := carveDesc.physicalStart
  let carveEnd := carveDesc.stop
  if carveEnd ≤ mapStart ∨ mapEnd ≤ carveStart then ⟨0, some map, none⟩
  else if overlapOnlyRam ∧ map.type ≠ efiConventionalMemory then ⟨-1, some map, none⟩
  else
    let carveStart := max carveStart mapStart
    let carveEnd := min carveEnd mapEnd
    if carveStart = mapStart then
      if mapEnd = carveEnd then ⟨1, none, none⟩
      else ⟨1, some { map with
              physicalStart := carveEnd
              numPages := pagesOf (mapEnd - carveEnd) }, none⟩
    else
      ⟨1, some { map with numPages := pagesOf (carveStart - mapStart) },
        some { map with
          physicalStart := carveStart
          numPages := pagesOf (mapEnd - carveStart) }⟩

/-- One `list_for_each` over `efi_mem` (`efi_memory.c:152-165`): the walk stops at
the first entry whose carving does not return 0. The last component collects
what `list_add_tail` appended. -/
def carvePass (carveDesc : MemDesc) (overlapOnlyRam : Bool) :
    List MemDesc → ℤ × List MemDesc × List MemDesc
  | [] => (0, [], [])
  | lmem :: rest =>
    let c := efiMemCarveOut lmem carveDesc overlapOnlyRam
    if c.ret = 0 then
      let r := carvePass carveDesc overlapOnlyRam rest
      (r.1, lmem :: r.2.1, r.2.2)
    else (c.ret, c.map.toList ++ rest, c.newmap.toList)

/-- The `do ... while (do_carving)` loop (`efi_memory.c:150-166`). `some true` is
the normal end, `some false` the early `return 0`; `none` means that `fuel`
passes were not enough. -/
def carveLoop (carveDesc : MemDesc) (overlapOnlyRam : Bool) :
    ℕ → List MemDesc → Option (Bool × List MemDesc)
  | 0, _ => none
  | fuel + 1, efiMem =>
    let r := carvePass carveDesc overlapOnlyRam efiMem
    if r.1 < 0 then some (false, r.2.1 ++ r.2.2)
    else if r.1 = 0 then some (true, r.2.1 ++ r.2.2)
    else carveLoop carveDesc overlapOnlyRam fuel (r.2.1 ++ r.2.2)

/-- The attribute word of a new descriptor (`efi_memory.c:135-147`). -/
def attributeOf (memoryType : ℕ) : ℕ :=
  if memoryType = efiRuntimeServicesCode ∨ memoryType = efiRuntimeServicesData then 2 ^ 3 + 2 ^ 63
  else if memoryType = efiMmapIo then 2 ^ 63
  else 2 ^ 3

/-- The descriptor `newlist->desc` (`efi_memory.c:129-147`). -/
def newDesc (start pages memoryType : ℕ) : MemDesc where
  type := memoryType
  reserved := 0
  physicalStart := start
  virtualStart := start
  numPages := pages
  attr := attributeOf memoryType

/-- `efi_add_memory_map` (`efi_memory.c:119-175`) with a bound on the number of
passes of its carving loop: the returned address and the new list. -/
def addMemoryMapFuel (fuel : ℕ) (efiMem : List MemDesc) (start pages memoryType : ℕ)
    (overlapOnlyRam : Bool) : Option (ℕ × List MemDesc) :=
  if pages = 0 then some (start, efiMem)
  else
    let newlist := newDesc start pages memoryType
    match carveLoop newlist overlapOnlyRam fuel efiMem with
    | none => none
    | some (false, l) => some (0, l)
    | some (true, l) => some (start, efiMemSort (l ++ [newlist]))

/-- `efi_add_memory_map`, given two passes for every entry and one more. That this
is always enough is `efiAddMemoryMap_terminates`. -/
def efiAddMemoryMap (efiMem : List MemDesc) (start pages memoryType : ℕ)
    (overlapOnlyRam : Bool) : Option (ℕ × List MemDesc) :=
  addMemoryMapFuel (2 * efiMem.length + 1) efiMem start pages memoryType overlapOnlyRam

/-- `efi_find_free_memory` (`efi_memory.c:177-211`). -/
def efiFindFreeMemory (len maxAddr : ℕ) : List MemDesc → ℕ
  | [] => 0
  | desc :: rest =>
    let descEnd := desc.stop
    let curmax := min maxAddr descEnd
    let ret := u64 (curmax + 2 ^ 64 - len)
    if desc.type ≠ efiConventionalMemory then efiFindFreeMemory len maxAddr rest
    else if maxAddr < u64 (ret + len) then efiFindFreeMemory len maxAddr rest
    else if descEnd < u64 (ret + len) then efiFindFreeMemory len maxAddr rest
    else if ret < desc.physicalStart then efiFindFreeMemory len maxAddr rest
    else ret

/-- The machine the loader runs on: the width of `unsigned long` and the stack
pointer `gd->start_addr_sp`. -/
structure Machine where
  bitsPerLong : ℕ
  startAddrSp : ℕ

/-- `pages << EFI_PAGE_SHIFT` in `unsigned long` (`efi_memory.c:216`). -/
def Machine.len (gd : Machine) (pages : ℕ) : ℕ := pages * efiPageSize % 2 ^ gd.bitsPerLong

/-- An address of 0 from `efi_find_free_memory` means that nothing was found. -/
def foundAddr (addr : ℕ) : Except Status ℕ := if addr = 0 then .error .notFound else .ok addr

/-- The `switch (type)` of `efi_allocate_pages` (`efi_memory.c:220-245`): the
address that is going to be reserved, or the status of the failed request. -/
def chooseAddr (gd : Machine) (efiMem : List MemDesc) (type pages memory : ℕ) :
    Except Status ℕ :=
  match type with
  | 0 => foundAddr (efiFindFreeMemory (gd.len pages) gd.startAddrSp efiMem)
  | 1 => foundAddr (efiFindFreeMemory (gd.len pages) memory efiMem)
  | 2 => .ok memory
  | _ => .error .invalidParameter

/-- The status, the value stored through `memory` and the list after the call. -/
structure Allocated where
  status : Status
  memory : ℕ
  efiMem : List MemDesc
  deriving Repr, DecidableEq

/-- `efi_allocate_pages` (`efi_memory.c:213-261`). -/
def efiAllocatePages (gd : Machine) (efiMem : List MemDesc) (type memoryType pages memory : ℕ) :
    Option Allocated :=
  match chooseAddr gd efiMem type pages memory with
  | .error r => some ⟨r, memory, efiMem⟩
  | .ok addr =>
    match efiAddMemoryMap efiMem addr pages memoryType true with
    | none => none
    | some (ret, l) =>
      if ret = addr then some ⟨.success, addr, l⟩ else some ⟨.outOfResources, memory, l⟩

end UBoot.Efi.Memory

/-!
## The carving loop of efi_add_memory_map

What one pass over `efi_mem` can do is said once, by the relation `Cut`: the first entry that meets the
new range is swallowed, moved up or split.
-/

namespace UBoot.Efi.Memory

open List

/-- The overlap test of `efi_mem_carve_out` (`efi_memory.c:76`), with the ends
computed in 64 bits. -/
def MemDesc.Meets (d c : MemDesc) : Prop := d.physicalStart < c.stop ∧ c.physicalStart < d.stop

instance (d c : MemDesc) : Decidable (d.Meets c) := inferInstanceAs (Decidable (_ ∧ _))

/-- The piece of a descriptor from address `a` on. -/
def MemDesc.above (d : MemDesc) (a : ℕ) : MemDesc :=
  { d with physicalStart := a, numPages := pagesOf (d.stop - a) }

/-- The piece of a descriptor before address `a`. -/
def MemDesc.below (d : MemDesc) (a : ℕ) : MemDesc :=
  { d with numPages := pagesOf (a - d.physicalStart) }

@[simp] theorem above_start (d : MemDesc) (a : ℕ) : (d.above a).physicalStart = a := rfl
@[simp] theorem above_type (d : MemDesc) (a : ℕ) : (d.above a).type = d.type := rfl
@[simp] theorem below_start (d : MemDesc) (a : ℕ) :
    (d.below a).physicalStart = d.physicalStart := rfl
@[simp] theorem below_type (d : MemDesc) (a : ℕ) : (d.below a).type = d.type := rfl

theorem u64_lt (x : ℕ) : u64 x < 2 ^ 64 := Nat.mod_lt _ (by norm_num)

theorem u64_of_lt {x : ℕ} (h : x < 2 ^ 64) : u64 x = x := Nat.mod_eq_of_lt h

theorem stop_lt (d : MemDesc) : d.stop < 2 ^ 64 := u64_lt _

theorem pagesOf_mul_le (x : ℕ) : pagesOf x * efiPageSize ≤ x := Nat.div_mul_le_self x _

variable {d : MemDesc}

/-- A piece of at most `x` bytes that starts low enough does not wrap. -/
theorem stop_of_pagesOf {x : ℕ} (hp : d.numPages = pagesOf x) (hx : d.physicalStart + x < 2 ^ 64) :
    d.stop = d.physicalStart + pagesOf x * efiPageSize := by
  have hle := pagesOf_mul_le x
  have hb : bytesOf (pagesOf x) = pagesOf x * efiPageSize := u64_of_lt (by lia)
  rw [MemDesc.stop, hp, hb, u64_of_lt (by lia)]

theorem below_stop_le {a : ℕ} (h : d.physicalStart ≤ a) (ha : a < 2 ^ 64) : (d.below a).stop ≤ a := by
  have he := stop_of_pagesOf (d := d.below a) (x := a - d.physicalStart) rfl
    (by rw [below_start]; lia)
  have hle := pagesOf_mul_le (a - d.physicalStart)
  rw [he, below_start]
  lia

/-- One carving of `efi_mem`: `d` is the first entry that meets the new range, and
with `overlap_only_ram` it is conventional memory. -/
inductive Cut (c : MemDesc) (ram : Bool) : List MemDesc → List MemDesc → Prop where
  | swallow (pre : List MemDesc) (d : MemDesc) (post : List MemDesc)
      (hpre : ∀ e ∈ pre, ¬e.Meets c) (hd : d.Meets c)
      (hram : ram = true → d.type = efiConventionalMemory)
      (hs : c.physicalStart ≤ d.physicalStart) (he : d.stop ≤ c.stop) :
      Cut c ram (pre ++ d :: post) (pre ++ post)
  | move (pre : List MemDesc) (d : MemDesc) (post : List MemDesc)
      (hpre : ∀ e ∈ pre, ¬e.Meets c) (hd : d.Meets c)
      (hram : ram = true → d.type = efiConventionalMemory)
      (hs : c.physicalStart ≤ d.physicalStart) (he : c.stop < d.stop) :
      Cut c ram (pre ++ d :: post) (pre ++ d.above c.stop :: post)
  | split (pre : List MemDesc) (d : MemDesc) (post : List MemDesc)
      (hpre : ∀ e ∈ pre, ¬e.Meets c) (hd : d.Meets c)
      (hram : ram = true → d.type = efiConventionalMemory)
      (hs : d.physicalStart < c.physicalStart) :
      Cut c ram (pre ++ d :: post)
        (pre ++ d.below c.physicalStart :: post ++ [d.above c.physicalStart])

/-- The first entry that meets the range is not RAM: the walk gives up. -/
def Refused (c : MemDesc) (ram : Bool) (l : List MemDesc) : Prop :=
  ram = true ∧ ∃ pre d post, l = pre ++ d :: post ∧ (∀ e ∈ pre, ¬e.Meets c) ∧ d.Meets c ∧
    d.type ≠ efiConventionalMemory

variable {c : MemDesc}

theorem carveOut_miss (ram : Bool) (h : ¬d.Meets c) : efiMemCarveOut d c ram = ⟨0, some d, none⟩ := by
  have hc : c.stop ≤ d.physicalStart ∨ d.stop ≤ c.physicalStart := by
    unfold MemDesc.Meets at h
    lia
  simp only [efiMemCarveOut, if_pos hc]

theorem carveOut_refuse (h : d.Meets c) (ht : d.type ≠ efiConventionalMemory) :
    efiMemCarveOut d c true = ⟨-1, some d, none⟩ := by
  have hc : ¬(c.stop ≤ d.physicalStart ∨ d.stop ≤ c.physicalStart) := by
    unfold MemDesc.Meets at h
    lia
  simp only [efiMemCarveOut, if_neg hc, ht, ne_eq, not_false_eq_true, and_self, if_true]

variable {ram : Bool}

theorem carveOut_hit (h : d.Meets c) (ht : ram = true → d.type = efiConventionalMemory) :
    (c.physicalStart ≤ d.physicalStart ∧ d.stop ≤ c.stop ∧
      efiMemCarveOut d c ram = ⟨1, none, none⟩) ∨
    (c.physicalStart ≤ d.physicalStart ∧ c.stop < d.stop ∧
      efiMemCarveOut d c ram = ⟨1, some (d.above c.stop), none⟩) ∨
    (d.physicalStart < c.physicalStart ∧
      efiMemCarveOut d c ram =
        ⟨1, some (d.below c.physicalStart), some (d.above c.physicalStart)⟩) := by
  have hc : ¬(c.stop ≤ d.physicalStart ∨ d.stop ≤ c.physicalStart) := by
    unfold MemDesc.Meets at h
    lia
  have hr : ¬(ram = true ∧ d.type ≠ efiConventionalMemory) := fun hh => hh.2 (ht hh.1)
  simp only [efiMemCarveOut, if_neg hc, if_neg hr]
  by_cases hs : c.physicalStart ≤ d.physicalStart
  · rw [if_pos (max_eq_right hs)]
    by_cases he : d.stop ≤ c.stop
    · rw [if_pos (min_eq_right he).symm]
      exact .inl ⟨hs, he, rfl⟩
    · have hlt : c.stop < d.stop := by lia
      rw [min_eq_left hlt.le, if_neg (by lia)]
      exact .inr (.inl ⟨hs, hlt, rfl⟩)
  · have hlt : d.physicalStart < c.physicalStart := by lia
    rw [max_eq_left hlt.le, if_neg (by lia)]
    exact .inr (.inr ⟨hlt, rfl⟩)

theorem carvePass_skip (ram : Bool) {pre : List MemDesc} (post : List MemDesc)
    (hpre : ∀ e ∈ pre, ¬e.Meets c) :
    carvePass c ram (pre ++ post) =
      ((carvePass c ram post).1, pre ++ (carvePass c ram post).2.1,
        (carvePass c ram post).2.2) := by
  induction pre with
  | nil => rfl
  | cons e pre ih =>
    obtain ⟨he, ht⟩ := forall_mem_cons.mp hpre
    simp only [cons_append, carvePass, carveOut_miss ram he, if_true, ih ht]

variable {l : List MemDesc}

theorem carvePass_clear (ram : Bool) (h : ∀ e ∈ l, ¬e.Meets c) : carvePass c ram l = (0, l, []) := by
  have hs := carvePass_skip ram [] h
  simpa [carvePass] using hs

/-- The three outcomes of a pass. -/
theorem carvePass_cases (c : MemDesc) (ram : Bool) (l : List MemDesc) :
    ((∀ e ∈ l, ¬e.Meets c) ∧ carvePass c ram l = (0, l, [])) ∨
    (Refused c ram l ∧ carvePass c ram l = (-1, l, [])) ∨
    (∃ l' t, carvePass c ram l = (1, l', t) ∧ Cut c ram l (l' ++ t)) := by
  by_cases hall : ∀ e ∈ l, ¬e.Meets c
  · exact .inl ⟨hall, carvePass_clear ram hall⟩
  right
  obtain ⟨pre, d, post, rfl, hd, hpre⟩ :
      ∃ pre d post, l = pre ++ d :: post ∧ d.Meets c ∧ ∀ e ∈ pre, ¬e.Meets c := by
    have hf : (l.find? fun e => decide (e.Meets c)).isSome := by
      push Not at hall
      simpa using hall
    obtain ⟨d, hd⟩ := Option.isSome_iff_exists.mp hf
    obtain ⟨hm, pre, post, hl, hpre⟩ := find?_eq_some_iff_append.mp hd
    exact ⟨pre, d, post, hl, by simpa using hm, by simpa using hpre⟩
  rw [carvePass_skip ram (d :: post) hpre]
  by_cases ht : ram = true → d.type = efiConventionalMemory
  · right
    obtain ⟨hs, he, hc⟩ | ⟨hs, he, hc⟩ | ⟨hs, hc⟩ := carveOut_hit hd ht
    · refine ⟨pre ++ post, [], by simp [carvePass, hc], ?_⟩
      simpa using Cut.swallow pre d post hpre hd ht hs he
    · refine ⟨pre ++ d.above c.stop :: post, [], by simp [carvePass, hc], ?_⟩
      simpa using Cut.move pre d post hpre hd ht hs he
    · exact ⟨pre ++ d.below c.physicalStart :: post, [d.above c.physicalStart],
        by simp [carvePass, hc], Cut.split pre d post hpre hd ht hs⟩
  · left
    push Not at ht
    obtain ⟨rfl, hn⟩ := ht
    exact ⟨⟨rfl, pre, d, post, rfl, hpre, hd, hn⟩, by simp [carvePass, carveOut_refuse hd hn]⟩

/-- Carvings an entry still needs: two when it has to be split first. -/
def weight (c d : MemDesc) : ℕ :=
  if d.Meets c then if c.physicalStart ≤ d.physicalStart then 1 else 2 else 0

def totalWeight (c : MemDesc) (l : List MemDesc) : ℕ := (l.map (weight c)).sum

theorem weight_le (c d : MemDesc) : weight c d ≤ 2 := by
  unfold weight
  split
  · split <;> lia
  · lia

theorem totalWeight_le (c : MemDesc) (l : List MemDesc) : totalWeight c l ≤ 2 * l.length := by
  induction l with
  | nil => simp [totalWeight]
  | cons d l ih =>
    have h := weight_le c d
    simp only [totalWeight, map_cons, sum_cons, length_cons] at ih ⊢
    lia

theorem weight_miss (h : ¬d.Meets c) : weight c d = 0 := if_neg h

theorem cut_decreases {l' : List MemDesc} (h : Cut c ram l l') : totalWeight c l' < totalWeight c l := by
  cases h with
  | swallow pre d post hpre hd hram hs he =>
    have hw : weight c d = 1 := by rw [weight, if_pos hd, if_pos hs]
    simp only [totalWeight, map_append, map_cons, sum_append, sum_cons, hw]
    lia
  | move pre d post hpre hd hram hs he =>
    have hw : weight c d = 1 := by rw [weight, if_pos hd, if_pos hs]
    have hm : weight c (d.above c.stop) = 0 := weight_miss (by simp [MemDesc.Meets])
    simp only [totalWeight, map_append, map_cons, sum_append, sum_cons, hw, hm]
    lia
  | split pre d post hpre hd hram hs =>
    have hw : weight c d = 2 := by rw [weight, if_pos hd, if_neg (by lia)]
    have hcs : c.physicalStart < 2 ^ 64 := hd.2.trans (stop_lt d)
    have hb : weight c (d.below c.physicalStart) = 0 := by
      have hle := below_stop_le (d := d) hs.le hcs
      exact weight_miss fun hm => absurd hm.2 (by lia)
    have ha : weight c (d.above c.physicalStart) ≤ 1 := by
      rw [weight]
      split
      · simp
      · lia
    simp only [totalWeight, map_append, map_cons, sum_append, sum_cons, hw, hb, map_nil, sum_nil]
    lia

theorem carveLoop_terminates (c : MemDesc) (ram : Bool) (fuel : ℕ) (l : List MemDesc)
    (h : totalWeight c l < fuel) : ∃ r, carveLoop c ram fuel l = some r := by
  induction fuel generalizing l with
  | zero => lia
  | succ fuel ih =>
    obtain ⟨-, hp⟩ | ⟨-, hp⟩ | ⟨l', t, hp, hcut⟩ := carvePass_cases c ram l
    · exact ⟨(true, l), by simp [carveLoop, hp]⟩
    · exact ⟨(false, l), by simp [carveLoop, hp]⟩
    · have hd := cut_decreases hcut
      obtain ⟨r, hr⟩ := ih (l' ++ t) (by lia)
      exact ⟨r, by simpa [carveLoop, hp] using hr⟩

/-- A finished loop is a sequence of cuts that ends in a list where nothing meets
the range, or where the next entry that does is refused. -/
theorem carveLoop_run {fuel : ℕ} {l' : List MemDesc} {b : Bool}
    (h : carveLoop c ram fuel l = some (b, l')) :
    Relation.ReflTransGen (Cut c ram) l l' ∧
      (b = true → ∀ e ∈ l', ¬e.Meets c) ∧ (b = false → Refused c ram l') := by
  induction fuel generalizing l with
  | zero => simp [carveLoop] at h
  | succ fuel ih =>
    obtain ⟨hc, hp⟩ | ⟨hr, hp⟩ | ⟨l₁, t, hp, hcut⟩ := carvePass_cases c ram l
    · have he : true = b ∧ l = l' := by simpa [carveLoop, hp] using h
      obtain ⟨rfl, rfl⟩ := he
      exact ⟨.refl, fun _ => hc, by simp⟩
    · have he : false = b ∧ l = l' := by simpa [carveLoop, hp] using h
      obtain ⟨rfl, rfl⟩ := he
      exact ⟨.refl, by simp, fun _ => hr⟩
    · have hn : carveLoop c ram fuel (l₁ ++ t) = some (b, l') := by simpa [carveLoop, hp] using h
      obtain ⟨hrun, hend⟩ := ih hn
      exact ⟨.head hcut hrun, hend⟩

end UBoot.Efi.Memory
