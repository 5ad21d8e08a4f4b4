import Mathlib.Tactic

/-!
# MTD devices and their partitions (cmd/mtdparts.c)

Devices live on a heap and are named by their addresses; a partition is told from another by the address
`addr` of its `struct part_info`. `none` is an access through a NULL pointer. `part->dev`, `jffs2_priv`
and what the functions print are left out.
-/

namespace UBoot.Mtd

def u64 (n : ℕ) : ℕ := n % 2 ^ 64

inductive DevType where
  | nor
  | nand
  | onenand
deriving DecidableEq, Repr

/- The macro `MTD_DEV_TYPE`. -/
def DevType.text : DevType → List Char
  | .nand => "nand".toList
  | .onenand => "onenand".toList
  | .nor => "nor".toList

structure MtdIds where
  type : DevType
  num : ℕ
  size : ℕ
  mtdId : List Char
deriving DecidableEq, Repr

structure PartInfo where
  addr : ℕ
  name : List Char
  autoName : Bool
  size : ℕ
  offset : ℕ
  maskFlags : ℕ
  sectorSize : ℕ
deriving DecidableEq, Repr

structure MtdDevice where
  id : MtdIds
  -- a `u16`
  numParts : ℕ
  parts : List PartInfo
deriving DecidableEq, Repr

structure EraseRegion where
  offset : ℕ
  erasesize : ℕ
  numblocks : ℕ
deriving DecidableEq, Repr

structure MtdInfo where
  erasesize : ℕ
  eraseregions : List EraseRegion
deriving DecidableEq, Repr

/- The flash chips behind the ids and the width of `ulong`. -/
structure Flash where
  ulongBits : ℕ
  getMtdDeviceNm : DevType → ℕ → Option MtdInfo

structure State where
  heap : ℕ → MtdDevice
  devices : List ℕ
  currentMtdDev : Option ℕ
  -- a `u8`
  currentMtdPartnum : ℕ
  lastPartition : List Char
  -- variables of the environment
  partition : Option (List Char)
  mtddevnum : Option ℕ
  mtddevname : Option (List Char)

def State.setDev (s : State) (d : ℕ) (dev : MtdDevice) : State :=
  { s with heap := Function.update s.heap d dev }

/- Where the blocks of a region start, as `start` counts them. -/
def EraseRegion.starts (w : ℕ) (r : EraseRegion) : List ℕ :=
  (List.range r.numblocks).map fun j => (r.offset + j * r.erasesize) % 2 ^ w

def EraseRegion.stop (w : ℕ) (r : EraseRegion) : ℕ := (r.offset + r.numblocks * r.erasesize) % 2 ^ w

def partValidateEraseblock (f : Flash) (id : MtdIds) (part : PartInfo) : Option PartInfo :=
  match f.getMtdDeviceNm id.type id.num with
  | none => none
  | some mtd =>
    let part := { part with sectorSize := mtd.erasesize }
    match mtd.eraseregions.getLast? with
    | none =>
      if part.offset % mtd.erasesize ≠ 0 then none
      else if part.size % mtd.erasesize ≠ 0 then none
      else some part
    | some last =>
      let starts := mtd.eraseregions.flatMap (EraseRegion.starts f.ulongBits)
      let stop := u64 (part.offset + part.size)
      if part.offset ∉ starts then none
      else if stop ∈ starts ∨ stop = last.stop f.ulongBits then some part
      else none

def sizeRemaining : ℕ := 2 ^ 64 - 1

/- The partition with all the remaining space when it asks for that. -/
def withRemaining (id : MtdIds) (part : PartInfo) : PartInfo :=
  if part.size = sizeRemaining then { part with size := u64 (id.size + 2 ^ 64 - part.offset) }
  else part

def partValidate (f : Flash) (id : MtdIds) (part : PartInfo) : Option PartInfo :=
  let part := withRemaining id part
  if id.size < part.offset then none
  else if u64 (part.offset + part.size) ≤ part.offset then none
  else if id.size < u64 (part.offset + part.size) then none
  else partValidateEraseblock f id part

theorem partValidateEraseblock_eq {f : Flash} {id : MtdIds} {part p : PartInfo}
    (h : partValidateEraseblock f id part = some p) : ∃ n, p = { part with sectorSize := n } := by
  rw [partValidateEraseblock] at h
  cases hm : f.getMtdDeviceNm id.type id.num with
  | none => simp [hm] at h
  | some mtd =>
    simp only [hm] at h
    refine ⟨mtd.erasesize, ?_⟩
    cases hr : mtd.eraseregions.getLast? with
    | none =>
      simp only [hr] at h
      repeat' split at h
      all_goals simp_all
    | some last =>
      simp only [hr] at h
      repeat' split at h
      all_goals simp_all

theorem partValidate_eq {f : Flash} {id : MtdIds} {part p : PartInfo}
    (h : partValidate f id part = some p) :
    ∃ n size, p = { part with sectorSize := n, size := size } := by
  have hsized : ∃ size, withRemaining id part = { part with size := size } := by
    rw [withRemaining]
    split
    · exact ⟨_, rfl⟩
    · exact ⟨part.size, rfl⟩
  obtain ⟨size, hsize⟩ := hsized
  simp only [partValidate, hsize] at h
  split at h
  · cases h
  split at h
  · cases h
  split at h
  · cases h
  obtain ⟨n, hn⟩ := partValidateEraseblock_eq h
  exact ⟨n, size, hn⟩

def mtdPartInfo (dev : MtdDevice) (partNum : ℕ) : Option PartInfo :=
  if dev.numParts ≤ partNum then none else dev.parts[partNum]?

/- The loop of `index_partitions`; `none` when the device is not on the list. -/
def devNum (heap : ℕ → MtdDevice) (d partnum : ℕ) : ℕ → List ℕ → Option ℕ
  | _, [] => none
  | num, e :: es =>
    if e = d then some ((num + partnum) % 2 ^ 16)
    else devNum heap d partnum ((num + (heap e).numParts) % 2 ^ 16) es

def indexPartitions (s : State) : Option State :=
  match s.currentMtdDev with
  | some d =>
    match mtdPartInfo (s.heap d) s.currentMtdPartnum with
    -- `part->name`
    | none => none
    | some part => some { s with
        mtddevnum := (devNum s.heap d s.currentMtdPartnum 0 s.devices).or s.mtddevnum
        mtddevname := some part.name }
  | none => some { s with mtddevnum := none, mtddevname := none }

def currentSave (s : State) : Option State :=
  match s.currentMtdDev with
  | some d =>
    let id := (s.heap d).id
    let buf := id.type.text ++ Nat.toDigits 10 id.num ++ ',' :: Nat.toDigits 10 s.currentMtdPartnum
    indexPartitions { s with partition := some buf, lastPartition := buf }
  | none => indexPartitions { s with partition := none, lastPartition := [] }

/- The loop of `part_sort_add`: the list with the new partition and the entry it was put in
   front of. -/
def insertSorted (part : PartInfo) : List PartInfo → Option (List PartInfo × Option PartInfo)
  | [] => some ([part], none)
  | pi :: rest =>
    -- allow only one partition at offset zero
    if part.offset = pi.offset ∧ pi.offset = 0 then none
    else if part.offset ≤ pi.offset then some (part :: pi :: rest, some pi)
    else
      match insertSorted part rest with
      | none => none
      | some (parts, before) => some (pi :: parts, before)

def partSortAdd (s : State) (d : ℕ) (part : PartInfo) : Option (ℤ × State) :=
  let dev := s.heap d
  let grown (parts : List PartInfo) : State :=
    s.setDev d { dev with parts := parts, numParts := (dev.numParts + 1) % 2 ^ 16 }
  if dev.parts = [] then (indexPartitions (grown [part])).map ((0, ·))
  else
    let curr := if s.currentMtdDev = some d then mtdPartInfo dev s.currentMtdPartnum else none
    match insertSorted part dev.parts with
    | none => some (1, s)
    | some (parts, before) =>
      match before, curr with
      | some pi, some c =>
        if pi.offset ≤ c.offset then
          (currentSave { grown parts with
            currentMtdPartnum := (s.currentMtdPartnum + 1) % 2 ^ 8 }).map ((0, ·))
        else (indexPartitions (grown parts)).map ((0, ·))
      | _, _ => (indexPartitions (grown parts)).map ((0, ·))

def partAdd (f : Flash) (s : State) (d : ℕ) (part : PartInfo) : Option (ℤ × State) :=
  match partValidate f (s.heap d).id part with
  | none => some (1, s)
  | some part => partSortAdd s d part

def deviceDel (s : State) (d : ℕ) : Option (ℤ × State) :=
  let s₁ := { s with devices := s.devices.erase d }
  if s.currentMtdDev = some d then
    match s₁.devices with
    | [] => (currentSave { s₁ with currentMtdDev := none }).map ((0, ·))
    | first :: _ =>
      (currentSave { s₁ with currentMtdDev := some first, currentMtdPartnum := 0 }).map ((0, ·))
  else (indexPartitions s₁).map ((0, ·))

def deviceAdd (s : State) (d : ℕ) : Option State :=
  if s.devices = [] then
    currentSave { s with currentMtdDev := some d, currentMtdPartnum := 0, devices := [d] }
  else indexPartitions { s with devices := s.devices ++ [d] }

/- The current number behind the deletion of `part`, and whether it is saved. -/
def currentAfterDel (s : State) (d : ℕ) (part : PartInfo) : ℕ × Bool :=
  if s.currentMtdDev = some d then
    match mtdPartInfo (s.heap d) s.currentMtdPartnum with
    | some curr =>
      if curr.addr = part.addr then (0, true)
      else if part.offset ≤ curr.offset then ((s.currentMtdPartnum + 2 ^ 8 - 1) % 2 ^ 8, true)
      else (s.currentMtdPartnum, true)
    | none => (s.currentMtdPartnum, false)
  else (s.currentMtdPartnum, false)

/- `addr` is the partition; it is on the list of the device. -/
def partDel (s : State) (d addr : ℕ) : Option (ℤ × State) :=
  let dev := s.heap d
  -- if there is only one partition, remove whole device
  if dev.numParts = 1 then deviceDel s d
  else
    match dev.parts.find? (·.addr = addr) with
    | none => none
    | some part =>
      let (partnum, currentSaveNeeded) := currentAfterDel s d part
      let s₁ := { s.setDev d { dev with
          parts := dev.parts.eraseP (·.addr = addr)
          numParts := (dev.numParts + 2 ^ 16 - 1) % 2 ^ 16 } with
        currentMtdPartnum := partnum }
      (if currentSaveNeeded then currentSave s₁ else indexPartitions s₁).map ((0, ·))

end UBoot.Mtd
