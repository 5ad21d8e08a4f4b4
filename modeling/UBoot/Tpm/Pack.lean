import UBoot.Tpm.Bytes
import UBoot.Lib.Memory

/-!
# Packing and unpacking with any format (lib/tpm.c)

`pack_byte_string` and `unpack_byte_string` with the formats 'b', 'w', 'd' and 's'. The test whether
a datum fits adds in `size_t`, where the sum may wrap. The bytes that are touched are recorded; what
memory holds after one behind its end is left open.
-/

namespace UBoot.Tpm.Format

open Access Limbs List
open Memory (Mem store)

/- A character of the format, with the length that is passed for an 's'. -/
inductive Kind where
  | b
  | w
  | d
  | s (length : UInt32)

def Kind.length : Kind → ℕ
  | .b => 1
  | .w => 2
  | .d => 4
  | .s length => length.toNat

inductive Item where
  | num (value : ℕ)
  | str (data : List UInt8)
  deriving DecidableEq

/- The offsets are `size_t`. -/
structure Slot (bits : ℕ) where
  kind : Kind
  offset : Fin (2 ^ bits)

/- A datum to be packed. Numbers are stored in a `uint32_t` first. -/
inductive Field (bits : ℕ) where
  | b (offset : Fin (2 ^ bits)) (value : UInt32)
  | w (offset : Fin (2 ^ bits)) (value : UInt32)
  | d (offset : Fin (2 ^ bits)) (value : UInt32)
  | s (offset : Fin (2 ^ bits)) (data : List UInt8) (short : data.length < 2 ^ 32)

section Format

variable {bits : ℕ}

def Field.slot : Field bits → Slot bits
  | .b offset _ => ⟨.b, offset⟩
  | .w offset _ => ⟨.w, offset⟩
  | .d offset _ => ⟨.d, offset⟩
  | .s offset data _ => ⟨.s (UInt32.ofNat data.length), offset⟩

/- `put_unaligned_be16` and `put_unaligned_be32` drop what a number has more. -/
def Field.bytes : Field bits → List UInt8
  | .b _ value => beBytes 1 value.toNat
  | .w _ value => beBytes 2 value.toNat
  | .d _ value => beBytes 4 value.toNat
  | .s _ data _ => data

def Field.item : Field bits → Item
  | .b _ value => .num (value.toNat % 2 ^ 8)
  | .w _ value => .num (value.toNat % 2 ^ 16)
  | .d _ value => .num value.toNat
  | .s _ data _ => .str data

def Slot.item (slot : Slot bits) (data : List UInt8) : Item :=
  match slot.kind with
  | .b | .w | .d => .num (beValue data)
  | .s _ => .str data

/- `offset + length`, as it is compared with the size. -/
def Slot.last (slot : Slot bits) : ℕ := (slot.offset + slot.kind.length) % 2 ^ bits

def Slot.access (slot : Slot bits) : Traced ℕ Unit :=
  ⟨(List.range slot.kind.length).map fun i => (slot.offset + i) % 2 ^ bits, ()⟩

def packByteString (size : Fin (2 ^ bits)) : List (Field bits) → Mem → Traced ℕ (ℤ × Mem)
  | [], str => pure (0, str)
  | f :: fields, str =>
    if size < f.slot.last then pure (-1, str)
    else do
      f.slot.access
      packByteString size fields (store str f.slot.offset f.bytes)

def unpackByteString (size : Fin (2 ^ bits)) (str : Mem) :
    List (Slot bits) → Traced ℕ (ℤ × List Item)
  | [] => pure (0, [])
  | slot :: slots =>
    if size < slot.last then pure (-1, [])
    else do
      slot.access
      let (ret, items) ← unpackByteString size str slots
      pure (ret, slot.item (Memory.bytes str slot.offset slot.kind.length) :: items)

def Slot.Fits (size : ℕ) (slot : Slot bits) : Prop := slot.offset + slot.kind.length ≤ size

instance (size : ℕ) (slot : Slot bits) : Decidable (slot.Fits size) :=
  inferInstanceAs (Decidable (_ ≤ _))

def Field.Apart (f g : Field bits) : Prop :=
  f.slot.offset + f.slot.kind.length ≤ (g.slot.offset : ℕ) ∨
    g.slot.offset + g.slot.kind.length ≤ (f.slot.offset : ℕ)

structure Undoes (size : Fin (2 ^ bits)) (fields : List (Field bits)) : Prop where
  refused : ∀ str, (∃ f ∈ fields, ¬ f.slot.Fits size) →
    (packByteString size fields str).val.1 = -1 ∧
      (unpackByteString size str (fields.map Field.slot)).val.1 = -1
  within : ∀ str, Within (· < (size : ℕ)) (packByteString size fields str) ∧
    Within (· < (size : ℕ)) (unpackByteString size str (fields.map Field.slot))
  undone : ∀ str, (∀ f ∈ fields, f.slot.Fits size) → fields.Pairwise Field.Apart →
    (packByteString size fields str).val.1 = 0 ∧
      (unpackByteString size (packByteString size fields str).val.2 (fields.map Field.slot)).val =
        (0, fields.map Field.item)

def Caught (size : Fin (2 ^ bits)) (fields : List (Field bits)) : Prop :=
  ∀ f, fields.find? (fun f => ¬ f.slot.Fits size) = some f → size < f.slot.last

section Fields

variable {size : Fin (2 ^ bits)} {fields : List (Field bits)} {f : Field bits} {slot : Slot bits}
  {str : Mem}

@[simp] theorem length_bytes (f : Field bits) : f.bytes.length = f.slot.kind.length := by
  cases f with
  | b offset value => exact length_beBytes 1 _
  | w offset value => exact length_beBytes 2 _
  | d offset value => exact length_beBytes 4 _
  | s offset data short => exact (UInt32.toNat_ofNat_of_lt' short).symm

theorem item_bytes (f : Field bits) : f.slot.item f.bytes = f.item := by
  cases f with
  | b offset value => exact congrArg Item.num (beValue_beBytes 1 _)
  | w offset value => exact congrArg Item.num (beValue_beBytes 2 _)
  | d offset value =>
    exact congrArg Item.num ((beValue_beBytes 4 _).trans (Nat.mod_eq_of_lt value.toNat_lt))
  | s offset data short => rfl

theorem last_eq (h : slot.Fits size) : slot.last = slot.offset + slot.kind.length :=
  Nat.mod_eq_of_lt (h.trans_lt size.isLt)

theorem not_lt_last (h : slot.Fits size) : ¬(size : ℕ) < slot.last := by
  rw [last_eq h]
  exact Nat.not_lt.mpr h

theorem within_access (h : slot.Fits size) : Within (· < (size : ℕ)) slot.access := by
  intro a ha
  obtain ⟨i, hi, rfl⟩ := mem_map.mp ha
  have hin : i < slot.kind.length := mem_range.mp hi
  have hend : slot.offset + slot.kind.length ≤ (size : ℕ) := h
  exact (Nat.mod_le _ _).trans_lt (by lia)

theorem access_outside (h : ¬ slot.Fits size) (hpass : ¬(size : ℕ) < slot.last) :
    ¬ Within (· < (size : ℕ)) slot.access := by
  have hoffset := slot.offset.isLt
  have hwrap : 2 ^ bits ≤ slot.offset + slot.kind.length := by
    by_contra hlt
    rw [Slot.last, Nat.mod_eq_of_lt (not_le.mp hlt)] at hpass
    exact h (not_lt.mp hpass)
  intro hw
  have hlast : (2 ^ bits - 1) % 2 ^ bits < (size : ℕ) := by
    refine hw _ (mem_map.mpr ⟨2 ^ bits - 1 - slot.offset, mem_range.mpr (by lia), ?_⟩)
    exact congrArg (· % 2 ^ bits) (by lia)
  rw [Nat.mod_eq_of_lt (by lia)] at hlast
  lia

theorem packByteString_fits (h : f.slot.Fits size) : packByteString size (f :: fields) str =
    (do f.slot.access; packByteString size fields (store str f.slot.offset f.bytes)) :=
  if_neg (not_lt_last h)

theorem packByteString_refused (h : (size : ℕ) < f.slot.last) :
    packByteString size (f :: fields) str = pure (-1, str) :=
  if_pos h

theorem unpackByteString_fits {slots : List (Slot bits)} (h : slot.Fits size) :
    unpackByteString size str (slot :: slots) = (do
      slot.access
      let (ret, items) ← unpackByteString size str slots
      pure (ret, slot.item (Memory.bytes str slot.offset slot.kind.length) :: items)) :=
  if_neg (not_lt_last h)

theorem unpackByteString_refused {slots : List (Slot bits)} (h : (size : ℕ) < slot.last) :
    unpackByteString size str (slot :: slots) = pure (-1, []) :=
  if_pos h

theorem caught_fits (h : f.slot.Fits size) : Caught size (f :: fields) ↔ Caught size fields := by
  unfold Caught
  rw [find?_cons_of_neg (by simpa using h)]

theorem caught_not_fits (h : ¬ f.slot.Fits size) :
    Caught size (f :: fields) ↔ (size : ℕ) < f.slot.last := by
  unfold Caught
  rw [find?_cons_of_pos (by simpa using h)]
  exact ⟨fun hc => hc f rfl, fun hlt g hg => Option.some.inj hg ▸ hlt⟩

theorem Caught.pack (h : Caught size fields) (str : Mem) :
    Within (· < (size : ℕ)) (packByteString size fields str) ∧
      ((∃ f ∈ fields, ¬ f.slot.Fits size) → (packByteString size fields str).val.1 = -1) := by
  induction fields generalizing str with
  | nil => exact ⟨within_pure _, fun ⟨f, hf, _⟩ => absurd hf not_mem_nil⟩
  | cons f fields ih =>
    by_cases hfits : f.slot.Fits size
    · obtain ⟨hwithin, hret⟩ := ih ((caught_fits hfits).mp h) (store str f.slot.offset f.bytes)
      rw [packByteString_fits hfits]
      refine ⟨(within_bind _ _).mpr ⟨within_access hfits, hwithin⟩, ?_⟩
      rintro ⟨g, hg, hnot⟩
      rcases mem_cons.mp hg with rfl | hg
      · exact absurd hfits hnot
      · exact hret ⟨g, hg, hnot⟩
    · rw [packByteString_refused ((caught_not_fits hfits).mp h)]
      exact ⟨within_pure _, fun _ => rfl⟩

theorem Caught.unpack (h : Caught size fields) (str : Mem) :
    Within (· < (size : ℕ)) (unpackByteString size str (fields.map Field.slot)) ∧
      ((∃ f ∈ fields, ¬ f.slot.Fits size) →
        (unpackByteString size str (fields.map Field.slot)).val.1 = -1) := by
  induction fields with
  | nil => exact ⟨within_pure _, fun ⟨f, hf, _⟩ => absurd hf not_mem_nil⟩
  | cons f fields ih =>
    rw [map_cons]
    by_cases hfits : f.slot.Fits size
    · obtain ⟨hwithin, hret⟩ := ih ((caught_fits hfits).mp h)
      rw [unpackByteString_fits hfits]
      refine ⟨(within_bind _ _).mpr ⟨within_access hfits, (within_bind _ _).mpr
        ⟨hwithin, within_pure _⟩⟩, ?_⟩
      rintro ⟨g, hg, hnot⟩
      rcases mem_cons.mp hg with rfl | hg
      · exact absurd hfits hnot
      · exact hret ⟨g, hg, hnot⟩
    · rw [unpackByteString_refused ((caught_not_fits hfits).mp h)]
      exact ⟨within_pure _, fun _ => rfl⟩

theorem caught_of_within (h : Within (· < (size : ℕ)) (packByteString size fields str)) :
    Caught size fields := by
  induction fields generalizing str with
  | nil => exact fun g hg => by cases hg
  | cons f fields ih =>
    by_cases hfits : f.slot.Fits size
    · rw [packByteString_fits hfits, within_bind] at h
      exact (caught_fits hfits).mpr (ih h.2)
    · refine (caught_not_fits hfits).mpr ?_
      by_contra hpass
      rw [packByteString, if_neg hpass, within_bind] at h
      exact access_outside hfits hpass h.1

theorem packByteString_val (h : ∀ f ∈ fields, f.slot.Fits size) (str : Mem) :
    (packByteString size fields str).val =
      (0, fields.foldl (fun str f => store str f.slot.offset f.bytes) str) := by
  induction fields generalizing str with
  | nil => rfl
  | cons f fields ih =>
    rw [packByteString_fits (h f mem_cons_self), val_bind, foldl_cons]
    exact ih (fun g hg => h g (mem_cons_of_mem _ hg)) _

theorem unpackByteString_val (h : ∀ f ∈ fields, f.slot.Fits size) (str : Mem) :
    (unpackByteString size str (fields.map Field.slot)).val =
      (0, fields.map fun f => f.slot.item (Memory.bytes str f.slot.offset f.slot.kind.length)) := by
  induction fields with
  | nil => rfl
  | cons f fields ih =>
    have hrest := ih fun g hg => h g (mem_cons_of_mem _ hg)
    rw [map_cons, unpackByteString_fits (h f mem_cons_self), val_bind, val_bind, hrest]
    rfl

theorem bytes_foldl_store {a n : ℕ}
    (h : ∀ f ∈ fields, a + n ≤ f.slot.offset ∨ f.slot.offset + f.slot.kind.length ≤ a) (str : Mem) :
    Memory.bytes (fields.foldl (fun str f => store str f.slot.offset f.bytes) str) a n =
      Memory.bytes str a n := by
  induction fields generalizing str with
  | nil => rfl
  | cons f fields ih =>
    rw [foldl_cons, ih fun g hg => h g (mem_cons_of_mem _ hg)]
    refine Memory.bytes_store_apart _ _ _ _ _ ?_
    rw [length_bytes]
    exact h f mem_cons_self

theorem bytes_packed (h : fields.Pairwise Field.Apart) (str : Mem) : ∀ f ∈ fields,
    Memory.bytes (fields.foldl (fun str f => store str f.slot.offset f.bytes) str) f.slot.offset
      f.slot.kind.length = f.bytes := by
  induction h generalizing str with
  | nil => exact fun f hf => absurd hf not_mem_nil
  | @cons g fields hg _ ih =>
    intro f hf
    rw [foldl_cons]
    rcases mem_cons.mp hf with rfl | hf
    · rw [bytes_foldl_store hg, ← length_bytes]
      exact Memory.bytes_store_same _ _ _
    · exact ih _ f hf

/-- Unpacking undoes packing, and both refuse what does not fit without touching anything outside,
exactly if the sum of offset and length shows it for the first field that does not fit. -/
theorem undoes_iff (size : Fin (2 ^ bits)) (fields : List (Field bits)) :
    Undoes size fields ↔ Caught size fields := by
  constructor
  · exact fun h => caught_of_within (h.within fun _ => 0).1
  · intro h
    refine ⟨fun str hnot => ⟨(h.pack str).2 hnot, (h.unpack str).2 hnot⟩,
      fun str => ⟨(h.pack str).1, (h.unpack str).1⟩, fun str hfits hapart => ?_⟩
    rw [packByteString_val hfits, unpackByteString_val hfits]
    refine ⟨rfl, congrArg (Prod.mk 0) (map_congr_left fun f hf => ?_)⟩
    rw [bytes_packed hapart str f hf, item_bytes]

end Fields

end Format

section Datums

variable {host : Host} {d : Datum}

theorem be32_eq (value : ℕ) : be32 value = beBytes 4 value := by
  have hlast : value / 256 ^ 0 = value := Nat.div_one value
  simp only [beBytes, be32, hlast]
  rfl

end Datums

end UBoot.Tpm.Format
