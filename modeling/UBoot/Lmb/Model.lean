import Mathlib.Tactic

/-!
# Logical memory blocks (lib/lmb.c)

A table is an array of `MAX_LMB_REGIONS + 1` entries of which the first `cnt` are in use; those behind
keep what was last stored there. An access outside the array gives `none`. Addresses and sizes are
natural numbers below `2 ^ physBits`; sums and differences wrap as in the source.
-/

namespace UBoot.Lmb

open Function

/-- The widths of `phys_addr_t` and of `unsigned long`. They differ on 32-bit
machines built with `CONFIG_PHYS_64BIT` (`arch/arm/include/asm/types.h:48-55`). -/
structure Abi where
  physBits : ℕ
  longBits : ℕ
  long_ge : 32 ≤ longBits
  long_le : longBits ≤ physBits

/-- The build of this board: both types are 32 bits wide. -/
def arm32 : Abi := ⟨32, 32, by decide, by decide⟩

/-- `MAX_LMB_REGIONS` (`include/lmb.h:14`). -/
def maxLmbRegions : ℕ := 8

/-- `struct lmb_property`. -/
structure LmbProperty where
  base : ℕ
  size : ℕ
  deriving Repr, DecidableEq

/-- `struct lmb_region`, with the whole array `region[MAX_LMB_REGIONS + 1]`. The
field `size` of the source is written by `lmb_init` only. -/
structure LmbRegion where
  cnt : ℕ
  region : ℕ → LmbProperty

/-- A store to `rgn->region[i]`. -/
def LmbRegion.set (rgn : LmbRegion) (i : ℕ) (x : LmbProperty) : LmbRegion :=
  { rgn with region := update rgn.region i x }

/-- `struct lmb`. -/
structure LmbState where
  memory : LmbRegion
  reserved : LmbRegion

/-- An index inside the array. -/
def InArray (i : ℕ) : Prop := i < maxLmbRegions + 1

instance (i : ℕ) : Decidable (InArray i) := inferInstanceAs (Decidable (_ < _))

section Words

variable (abi : Abi)

/-- A sum in `phys_addr_t`. -/
def Abi.add (x y : ℕ) : ℕ := (x + y) % 2 ^ abi.physBits

/-- A difference in `phys_addr_t`. -/
def Abi.sub (x y : ℕ) : ℕ := (x + 2 ^ abi.physBits - y) % 2 ^ abi.physBits

/-- `cnt - 1` in `unsigned long`. -/
def Abi.pred (cnt : ℕ) : ℕ := (cnt + 2 ^ abi.longBits - 1) % 2 ^ abi.longBits

/-- `lmb_align_down` (`lmb.c:273-276`): the mask is a `phys_size_t`. -/
def lmbAlignDown (addr size : ℕ) : ℕ := addr &&& (2 ^ abi.physBits - 1 - (size - 1))

/-- `lmb_align_up` (`lmb.c:278-281`): the mask is an `unsigned long`. -/
def lmbAlignUp (addr size : ℕ) : ℕ :=
  abi.add addr (size - 1) &&& (2 ^ abi.longBits - 1 - (size - 1))

end Words

section Tables

variable (abi : Abi)

/-- `lmb_addrs_overlap` (`lmb.c:44-48`). -/
def lmbAddrsOverlap (base1 size1 base2 size2 : ℕ) : Prop :=
  base1 < abi.add base2 size2 ∧ base2 < abi.add base1 size1

instance (base1 size1 base2 size2 : ℕ) :
    Decidable (lmbAddrsOverlap abi base1 size1 base2 size2) :=
  inferInstanceAs (Decidable (_ ∧ _))

/-- `lmb_addrs_adjacent` (`lmb.c:50-59`). -/
def lmbAddrsAdjacent (base1 size1 base2 size2 : ℕ) : ℤ :=
  if base2 = abi.add base1 size1 then 1
  else if base1 = abi.add base2 size2 then -1
  else 0

/-- `lmb_regions_adjacent` (`lmb.c:61-70`). -/
def lmbRegionsAdjacent (rgn : LmbRegion) (r1 r2 : ℕ) : ℤ :=
  lmbAddrsAdjacent abi (rgn.region r1).base (rgn.region r1).size
    (rgn.region r2).base (rgn.region r2).size

/-- The shifting loop of `lmb_remove_region`: `fuel` entries starting at `i`. The
loop ends at `limit`, or runs off the array. -/
def shiftDown (limit : ℕ) : ℕ → ℕ → (ℕ → LmbProperty) → Option (ℕ → LmbProperty)
  | 0, _, _ => none
  | fuel + 1, i, region =>
    if i < limit then
      if InArray (i + 1) then shiftDown limit fuel (i + 1) (update region i (region (i + 1)))
      else none
    else some region

/-- `lmb_remove_region` (`lmb.c:72-81`). -/
def lmbRemoveRegion (rgn : LmbRegion) (r : ℕ) : Option LmbRegion :=
  match shiftDown (abi.pred rgn.cnt) (maxLmbRegions + 2) r rgn.region with
  | none => none
  | some region => some ⟨abi.pred rgn.cnt, region⟩

/-- `lmb_coalesce_regions` (`lmb.c:84-89`). -/
def lmbCoalesceRegions (rgn : LmbRegion) (r1 r2 : ℕ) : Option LmbRegion :=
  let x := rgn.region r1
  lmbRemoveRegion abi (rgn.set r1 ⟨x.base, abi.add x.size (rgn.region r2).size⟩) r2

/-- How the first loop of `lmb_add_region` (`lmb.c:121-141`) is left: at an entry
equal to the new range, at one that was extended downwards or upwards, or at the
end of the table. -/
inductive Coalesced where
  | same
  | front (i : ℕ)
  | back (i : ℕ)
  | none
  deriving Repr, DecidableEq

/-- The first loop, at index `i` with `n` entries to go. -/
def findCoalesce (rgn : LmbRegion) (base size : ℕ) : ℕ → ℕ → Coalesced
  | 0, _ => .none
  | n + 1, i =>
    let x := rgn.region i
    if x.base = base ∧ x.size = size then .same
    else if 0 < lmbAddrsAdjacent abi base size x.base x.size then .front i
    else if lmbAddrsAdjacent abi base size x.base x.size < 0 then .back i
    else findCoalesce rgn base size n (i + 1)

/-- The loop that makes room in the sorted table (`lmb.c:154-163`), at `i = k - 1`. -/
def insertSorted (base size : ℕ) : ℕ → (ℕ → LmbProperty) → ℕ → LmbProperty
  | 0, region => region
  | i + 1, region =>
    if base < (region i).base then
      insertSorted base size i (update region (i + 1) (region i))
    else update region (i + 1) ⟨base, size⟩

/-- The rest of `lmb_add_region` after its first loop was left at index `i` with
`coalesced` (`lmb.c:143-172`). -/
def addRegionTail (rgn : LmbRegion) (base size i : ℕ) (coalesced : ℤ) : Option (ℤ × LmbRegion) :=
  if i < abi.pred rgn.cnt ∧ lmbRegionsAdjacent abi rgn i (i + 1) ≠ 0 then
    match lmbCoalesceRegions abi rgn i (i + 1) with
    | none => none
    | some rgn' => some (coalesced + 1, rgn')
  else if coalesced ≠ 0 then some (coalesced, rgn)
  else if maxLmbRegions ≤ rgn.cnt then some (-1, rgn)
  else
    let region := insertSorted base size rgn.cnt rgn.region
    let region := if base < (region 0).base then update region 0 ⟨base, size⟩ else region
    some (0, ⟨rgn.cnt + 1, region⟩)

/-- `lmb_add_region` (`lmb.c:109-173`). -/
def lmbAddRegion (rgn : LmbRegion) (base size : ℕ) : Option (ℤ × LmbRegion) :=
  if rgn.cnt = 1 ∧ (rgn.region 0).size = 0 then
    some (0, rgn.set 0 ⟨base, size⟩)
  else
    match findCoalesce abi rgn base size rgn.cnt 0 with
    | .same => some (0, rgn)
    | .front i =>
      let x := rgn.region i
      addRegionTail abi (rgn.set i ⟨abi.sub x.base size, abi.add x.size size⟩) base size i 1
    | .back i =>
      let x := rgn.region i
      addRegionTail abi (rgn.set i ⟨x.base, abi.add x.size size⟩) base size i 1
    | .none => addRegionTail abi rgn base size rgn.cnt 0

/-- `lmb_overlaps_region` (`lmb.c:239-253`) from index `i` on; `none` is -1. -/
def overlapsFrom (rgn : LmbRegion) (base size : ℕ) : ℕ → ℕ → Option ℕ
  | 0, _ => none
  | n + 1, i =>
    if lmbAddrsOverlap abi base size (rgn.region i).base (rgn.region i).size then some i
    else overlapsFrom rgn base size n (i + 1)

def lmbOverlapsRegion (rgn : LmbRegion) (base size : ℕ) : Option ℕ :=
  overlapsFrom abi rgn base size rgn.cnt 0

/-- The loop of `lmb_free` that looks for the entry `[base, end)` belongs to. -/
def findHolder (rgn : LmbRegion) (base stop : ℕ) : ℕ → ℕ → Option ℕ
  | 0, _ => none
  | n + 1, i =>
    let x := rgn.region i
    if x.base ≤ base ∧ stop ≤ abi.add x.base x.size then some i
    else findHolder rgn base stop n (i + 1)

end Tables

section Operations

variable (abi : Abi)

/-- A table with the dummy entry of `lmb_init`. -/
def initRegion (rgn : LmbRegion) : LmbRegion := ⟨1, update rgn.region 0 ⟨0, 0⟩⟩

/-- `lmb_init` (`lmb.c:91-106`). -/
def lmbInit (lmb : LmbState) : LmbState := ⟨initRegion lmb.memory, initRegion lmb.reserved⟩

/-- An lmb in zeroed memory. -/
def zeroLmb : LmbState := ⟨⟨0, fun _ => ⟨0, 0⟩⟩, ⟨0, fun _ => ⟨0, 0⟩⟩⟩

/-- `lmb_add` (`lmb.c:176-181`). -/
def lmbAdd (lmb : LmbState) (base size : ℕ) : Option (ℤ × LmbState) :=
  (lmbAddRegion abi lmb.memory base size).map fun r => (r.1, { lmb with memory := r.2 })

/-- `lmb_reserve` (`lmb.c:232-237`). -/
def lmbReserve (lmb : LmbState) (base size : ℕ) : Option (ℤ × LmbState) :=
  (lmbAddRegion abi lmb.reserved base size).map fun r => (r.1, { lmb with reserved := r.2 })

/-- `lmb_free` (`lmb.c:183-230`) on the reserved table. -/
def freeRegion (rgn : LmbRegion) (base size : ℕ) : Option (ℤ × LmbRegion) :=
  let stop := abi.add base size
  match findHolder abi rgn base stop rgn.cnt 0 with
  | none => some (-1, rgn)
  | some i =>
    let x := rgn.region i
    let rgnend := abi.add x.base x.size
    if x.base = base ∧ rgnend = stop then
      (lmbRemoveRegion abi rgn i).map fun r => (0, r)
    else if x.base = base then
      some (0, rgn.set i ⟨stop, abi.sub x.size size⟩)
    else if rgnend = stop then
      some (0, rgn.set i ⟨x.base, abi.sub x.size size⟩)
    else
      lmbAddRegion abi (rgn.set i ⟨x.base, abi.sub base x.base⟩) stop (abi.sub rgnend stop)

def lmbFree (lmb : LmbState) (base size : ℕ) : Option (ℤ × LmbState) :=
  (freeRegion abi lmb.reserved base size).map fun r => (r.1, { lmb with reserved := r.2 })

/-- The `while` loop of `__lmb_alloc_base` (`lmb.c:306-320`): `some (some base)` is
a range that meets no reserved one, `some none` the end of the loop; `none` means
that `fuel` rounds were not enough. -/
def searchDown (reserved : LmbRegion) (size align lmbbase : ℕ) : ℕ → ℕ → Option (Option ℕ)
  | 0, _ => none
  | fuel + 1, base =>
    if base ≠ 0 ∧ lmbbase ≤ base then
      match lmbOverlapsRegion abi reserved base size with
      | none => some (some base)
      | some j =>
        let resBase := (reserved.region j).base
        if resBase < size then some none
        else searchDown reserved size align lmbbase fuel
          (lmbAlignDown abi (abi.sub resBase size) align)
    else some none

/-- Where the search in one memory region starts (`lmb.c:293-304`); `none` is
`continue`. -/
def searchStart (x : LmbProperty) (size align maxAddr : ℕ) : Option ℕ :=
  if x.size < size then none
  else if maxAddr = 0 then some (lmbAlignDown abi (abi.sub (abi.add x.base x.size) size) align)
  else if x.base < maxAddr then
    let base := abi.add x.base x.size
    let base := if base < x.base then 2 ^ abi.physBits - 1 else base
    some (lmbAlignDown abi (abi.sub (min base maxAddr) size) align)
  else none

/-- `__lmb_alloc_base` (`lmb.c:283-323`) for the memory regions below index `k`. -/
def allocFrom (lmb : LmbState) (size align maxAddr : ℕ) : ℕ → Option (ℕ × LmbState)
  | 0 => some (0, lmb)
  | i + 1 =>
    match searchStart abi (lmb.memory.region i) size align maxAddr with
    | none => allocFrom lmb size align maxAddr i
    | some base =>
      match searchDown abi lmb.reserved size align (lmb.memory.region i).base (base + 1) base with
      | none => none
      | some none => allocFrom lmb size align maxAddr i
      | some (some base) =>
        match lmbAddRegion abi lmb.reserved base (lmbAlignUp abi size align) with
        | none => none
        | some (ret, reserved) =>
          if ret < 0 then some (0, { lmb with reserved := reserved })
          else some (base, { lmb with reserved := reserved })

/-- `lmb_alloc_base` (`lmb.c:260-271`), which adds a message to `__lmb_alloc_base`. -/
def lmbAllocBase (lmb : LmbState) (size align maxAddr : ℕ) : Option (ℕ × LmbState) :=
  allocFrom abi lmb size align maxAddr lmb.memory.cnt

end Operations

end UBoot.Lmb
