import UBoot.Lib.Memory
import UBoot.Lib.Limbs

/-!
# Flat device trees (lib/libfdt)

The tags of the structure block and what the read-only functions find in it. Memory is the address space
as seen from the first byte of the blob. A property whose length makes its tag end where it starts holds
up every loop over the tags: such a call does not return, which is `none`.
-/

namespace UBoot.Fit

open Memory

/- A version 17 blob: its header fields and the memory behind its first byte. -/
structure Fdt where
  mem : Mem
  offDtStruct : ℕ
  sizeDtStruct : ℕ
  offDtStrings : ℕ
  sizeDtStrings : ℕ
  inside : offDtStruct + sizeDtStruct < 2 ^ 31

def be32 (mem : Mem) (a : ℕ) : ℕ :=
  (mem a).toNat * 2 ^ 24 + (mem (a + 1)).toNat * 2 ^ 16 + (mem (a + 2)).toNat * 2 ^ 8 +
    (mem (a + 3)).toNat

def chars (s : String) : List UInt8 := s.toList.map fun c => UInt8.ofNat c.toNat

/- `strcmp(p, s) == 0` for a constant `s`. -/
def stringAt (mem : Mem) (p : ℕ) (s : List UInt8) : Bool :=
  bytes mem p s.length == s && mem (p + s.length) == 0

inductive Tag
  | beginNode | endNode | prop | nop | fin
deriving DecidableEq, Repr

def fdtErrNotfound : ℤ := -1
def fdtErrNospace : ℤ := -3
def fdtErrBadoffset : ℤ := -4
def fdtErrTruncated : ℤ := -8
def fdtErrBadstructure : ℤ := -11
def fdtErrBadlayout : ℤ := -12

def tagAlign (n : ℕ) : ℕ := (n + 3) / 4 * 4

section Tags

variable (fdt : Fdt)

def Fdt.ptr (offset : ℕ) : ℕ := fdt.offDtStruct + offset

/- `fdt_offset_ptr(fdt, offset, len)` is not NULL. -/
def Fdt.has (offset len : ℕ) : Prop := offset + len ≤ fdt.sizeDtStruct

instance (offset len : ℕ) : Decidable (fdt.has offset len) := inferInstanceAs (Decidable (_ ≤ _))

/- The length of the name at the offset, if it ends inside the block. -/
def Fdt.nameLength (offset : ℕ) : Option ℕ :=
  (List.range (fdt.sizeDtStruct - offset)).find? fun k => fdt.mem (fdt.ptr (offset + k)) == 0

def Fdt.propLen (offset : ℕ) : ℕ := be32 fdt.mem (fdt.ptr (offset + 4))
def Fdt.propNameoff (offset : ℕ) : ℕ := be32 fdt.mem (fdt.ptr (offset + 8))
def Fdt.propData (offset : ℕ) : ℕ := fdt.ptr (offset + 12)

/- How many bytes the tag takes, before the alignment; the sum for a property is one of
32-bit numbers. -/
def Fdt.tagAt (offset : ℕ) : Option (Tag × ℕ) :=
  match be32 fdt.mem (fdt.ptr offset) with
  | 1 => (fdt.nameLength (offset + 4)).map fun k => (.beginNode, 4 + k + 1)
  | 2 => some (.endNode, 4)
  | 3 => if fdt.has (offset + 4) 4 then some (.prop, (12 + fdt.propLen offset) % 2 ^ 32) else none
  | 4 => some (.nop, 4)
  | 9 => some (.fin, 4)
  | _ => none

/- `fdt_next_tag`: the tag and the offset of the next one. -/
def fdtNextTag (offset : ℕ) : Tag × ℤ :=
  if fdt.has offset 4 then
    match fdt.tagAt offset with
    | none => (.fin, fdtErrBadstructure)
    | some (tag, n) =>
      if fdt.has offset n then (tag, tagAlign (offset + n)) else (.fin, fdtErrBadstructure)
  else (.fin, fdtErrTruncated)

def fdtCheckNodeOffset (offset : ℤ) : ℤ :=
  if offset < 0 ∨ offset % 4 ≠ 0 ∨ (fdtNextTag fdt offset.toNat).1 ≠ .beginNode then fdtErrBadoffset
  else (fdtNextTag fdt offset.toNat).2

/- The loop of `fdt_next_node`; the second number is `*depth`. -/
def nextNodeLoop : ℕ → ℕ → ℤ → Option (ℤ × ℤ)
  | 0, _, _ => none
  | fuel + 1, offset, depth =>
    let (tag, next) := fdtNextTag fdt offset
    match tag with
    | .prop | .nop => nextNodeLoop fuel next.toNat depth
    | .beginNode => some (offset, depth + 1)
    | .endNode =>
      if depth - 1 < 0 then some (next, depth - 1) else nextNodeLoop fuel next.toNat (depth - 1)
    | .fin => some (if 0 ≤ next then fdtErrNotfound else next, depth)

def fdtNextNode (offset depth : ℤ) : Option (ℤ × ℤ) :=
  if 0 ≤ offset then
    let next := fdtCheckNodeOffset fdt offset
    if next < 0 then some (next, depth) else nextNodeLoop fdt (fdt.sizeDtStruct + 1) next.toNat depth
  else nextNodeLoop fdt (fdt.sizeDtStruct + 1) 0 depth

def fdtFirstSubnode (offset : ℤ) : Option ℤ :=
  (fdtNextNode fdt offset 0).map fun (off, depth) =>
    if off < 0 ∨ depth ≠ 1 then fdtErrNotfound else off

def nextSubnodeLoop : ℕ → ℤ → ℤ → Option ℤ
  | 0, _, _ => none
  | fuel + 1, offset, depth => do
    let (off, d) ← fdtNextNode fdt offset depth
    if off < 0 ∨ d < 1 then some fdtErrNotfound
    else if 1 < d then nextSubnodeLoop fuel off d
    else some off

def fdtNextSubnode (offset : ℤ) : Option ℤ := nextSubnodeLoop fdt (fdt.sizeDtStruct + 1) offset 1

/- The nodes that `fdt_for_each_subnode` goes through; `none` when the loop does not get to
the next one. -/
def subnodesFrom : ℕ → Option ℤ → List (Option ℕ)
  | _, none => [none]
  | 0, some _ => [none]
  | fuel + 1, some offset =>
    if offset < 0 then [] else some offset.toNat :: subnodesFrom fuel (fdtNextSubnode fdt offset)

def subnodes (parent : ℤ) : List (Option ℕ) :=
  subnodesFrom fdt (fdt.sizeDtStruct + 1) (fdtFirstSubnode fdt parent)

/- `strncmp(fit_get_name(fdt, offset, NULL), s, strlen(s)) == 0` -/
def nameStarts (offset : ℕ) (s : List UInt8) : Bool :=
  bytes fdt.mem (fdt.ptr (offset + 4)) s.length == s

def fdtNodenameEq (offset : ℕ) (s : List UInt8) : Bool :=
  decide (fdt.has (offset + 4) (s.length + 1)) && nameStarts fdt offset s &&
    (fdt.mem (fdt.ptr (offset + 4 + s.length)) == 0 ||
      (!s.contains 64 && fdt.mem (fdt.ptr (offset + 4 + s.length)) == 64))

def subnodeOffsetLoop (name : List UInt8) : ℕ → ℤ → ℤ → Option ℤ
  | 0, _, _ => none
  | fuel + 1, offset, depth =>
    if 0 ≤ offset ∧ 0 ≤ depth then
      if depth = 1 ∧ fdtNodenameEq fdt offset.toNat name then some offset
      else do
        let (off, d) ← fdtNextNode fdt offset depth
        subnodeOffsetLoop name fuel off d
    else some (if depth < 0 then fdtErrNotfound else offset)

def fdtSubnodeOffset (parent : ℤ) (name : List UInt8) : Option ℤ :=
  subnodeOffsetLoop fdt name (fdt.sizeDtStruct + 2) parent 0

def fdtString (nameoff : ℕ) : ℕ := (fdt.offDtStrings + nameoff) % 2 ^ 32

/- `_nextprop` -/
def nextProp : ℕ → ℕ → Option ℤ
  | 0, _ => none
  | fuel + 1, offset =>
    let (tag, next) := fdtNextTag fdt offset
    match tag with
    | .fin => some (if 0 ≤ next then fdtErrBadstructure else next)
    | .prop => some offset
    | .nop => nextProp fuel next.toNat
    | _ => some fdtErrNotfound

def fdtFirstPropertyOffset (node : ℤ) : Option ℤ :=
  let offset := fdtCheckNodeOffset fdt node
  if offset < 0 then some offset else nextProp fdt (fdt.sizeDtStruct + 1) offset.toNat

def fdtNextPropertyOffset (offset : ℕ) : Option ℤ :=
  let (tag, next) := fdtNextTag fdt offset
  if tag ≠ .prop then some fdtErrBadoffset else nextProp fdt (fdt.sizeDtStruct + 1) next.toNat

/- The loop of `fdt_get_property_namelen`: the offset of the property with the name. -/
def getPropertyLoop (name : List UInt8) : ℕ → ℤ → Option (Option ℕ)
  | 0, _ => none
  | fuel + 1, offset =>
    if offset < 0 then some none
    else if stringAt fdt.mem (fdtString fdt (fdt.propNameoff offset.toNat)) name then
      some (some offset.toNat)
    else do
      let next ← fdtNextPropertyOffset fdt offset.toNat
      getPropertyLoop name fuel next

/- `fdt_getprop`: where the data is and its length, or NULL. -/
def fdtGetprop (node : ℤ) (name : String) : Option (Option (ℕ × ℕ)) := do
  let first ← fdtFirstPropertyOffset fdt node
  let found ← getPropertyLoop fdt (chars name) (fdt.sizeDtStruct + 1) first
  some (found.map fun offset => (fdt.propData offset, fdt.propLen offset))

/- `fdtdec_get_int`, as the 32 bits of the result; the length is compared as an unsigned
number. -/
def fdtdecGetInt (node : ℤ) (name : String) (default : ℕ) : Option ℕ := do
  let prop ← fdtGetprop fdt node name
  match prop with
  | some (data, len) => some (if 4 ≤ len then be32 fdt.mem data else default)
  | none => some default

end Tags

inductive Item
  | beginNode (name : String)
  | prop (name : String) (value : List UInt8)
  | endNode

def be32Bytes (n : ℕ) : List UInt8 :=
  [UInt8.ofNat (n / 2 ^ 24), UInt8.ofNat (n / 2 ^ 16), UInt8.ofNat (n / 2 ^ 8), UInt8.ofNat n]

def padded (bs : List UInt8) : List UInt8 := bs ++ List.replicate ((4 - bs.length % 4) % 4) 0

def cString (s : String) : List UInt8 := chars s ++ [0]

section Write

variable (names : List String) (items : List Item)

def nameOffset (name : String) : ℕ :=
  ((names.takeWhile (· ≠ name)).map fun s => (cString s).length).sum

def itemBytes : Item → List UInt8
  | .beginNode name => be32Bytes 1 ++ padded (cString name)
  | .prop name value =>
    be32Bytes 3 ++ be32Bytes value.length ++ be32Bytes (nameOffset names name) ++ padded value
  | .endNode => be32Bytes 2

def structBytes : List UInt8 := items.flatMap (itemBytes names) ++ be32Bytes 9

/- The bytes are kept as one number: a byte of a long list is then a quotient. -/
def byteAt (bs : List UInt8) (i : ℕ) : UInt8 :=
  UInt8.ofNat (Limbs.beValue bs / 256 ^ (bs.length - 1 - i))

def writeFdt (h : 40 + (structBytes names items).length < 2 ^ 31) : Fdt where
  mem := fun a => byteAt (structBytes names items ++ names.flatMap cString) (a - 40)
  offDtStruct := 40
  sizeDtStruct := (structBytes names items).length
  offDtStrings := 40 + (structBytes names items).length
  sizeDtStrings := (names.flatMap cString).length
  inside := h

end Write

end UBoot.Fit
