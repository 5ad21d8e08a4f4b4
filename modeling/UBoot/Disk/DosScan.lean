import UBoot.Disk.Dos
import UBoot.Lib.Walks

/-!
# When the scans end

The listing follows every extended entry of a record and the lookup only the first one. Neither keeps an
account of where it has been.
-/

namespace UBoot.Dos

open Memory Walks Relation List Option

def numbered (sector : ℕ) : ℕ → List DosPartition → List (ℕ × DosPartition)
  | _, [] => []
  | partNum, p :: ps => (partNum, p) :: numbered sector (bump sector partNum p) ps

/- `part_num` after the entries. -/
def lastNum (sector partNum : ℕ) (ps : List DosPartition) : ℕ := ps.foldl (bump sector) partNum

/- The entry that the lookup of `whichPart` takes. -/
def sought (whichPart : ℤ) (x : ℕ × DosPartition) : Bool :=
  usable x.2 && decide ((x.1 : ℤ) = whichPart)

section Slots

variable (d : BlkDesc) (sector sig partNum : ℕ) (whichPart : ℤ) (ps : List DosPartition)

theorem printSlots_eq : printSlots d sector sig partNum ps =
    (((numbered sector partNum ps).filter fun x => shown sector x.2).map
      (fun x => printOnePart d x.2 sector x.1 sig), lastNum sector partNum ps) := by
  induction ps generalizing partNum with
  | nil => rfl
  | cons p ps ih =>
    simp only [printSlots, numbered, ih, filter_cons, lastNum, foldl_cons]
    split
    · rfl
    · rfl

theorem findSlot_eq : findSlot d sector sig whichPart partNum ps =
    match (numbered sector partNum ps).find? (sought whichPart) with
    | some x => .inl (infoOf d x.2 sector x.1 sig)
    | none => .inr (lastNum sector partNum ps) := by
  induction ps generalizing partNum with
  | nil => rfl
  | cons p ps ih =>
    simp only [findSlot, numbered, find?_cons, lastNum, foldl_cons, ih]
    cases hs : usable p && decide ((partNum : ℤ) = whichPart) with
    | true => simp [sought, hs]
    | false => simp [sought, hs]

end Slots

/- A sector and the `relative` it is read with. -/
abbrev Position := ℕ × ℕ

def extendedSlots (buffer : Mem) : List DosPartition :=
  (slots buffer).filter fun p => isExtended p.sysInd

def printNext (d : BlkDesc) (pos : Position) : List Position :=
  match d.read pos.1 with
  | none => []
  | some buffer =>
    if testBlockType buffer ≠ .mbr then []
    else (extendedSlots buffer).map (d.follow pos.1 pos.2)

def lookupNext (d : BlkDesc) (pos : Position) : List Position :=
  match d.read pos.1 with
  | none => []
  | some buffer =>
    if signed buffer = false then []
    else ((extendedSlots buffer).head?.map (d.follow pos.1 pos.2)).toList

theorem isSome_mapM {α β : Type} (f : α → Option β) (l : List α) :
    (l.mapM f).isSome = true ↔ ∀ x ∈ l, (f x).isSome = true := by
  induction l with
  | nil => simp
  | cons x l ih =>
    rw [mapM_cons, forall_mem_cons, ← ih]
    cases f x with
    | none => simp
    | some b =>
      cases l.mapM f with
      | none => simp
      | some bs => simp

section Ends

variable (d : BlkDesc)

theorem isSome_print_iff (depth : ℕ) (pos : Position) (partNum sig : ℕ) :
    (printPartitionExtended d depth pos partNum sig).isSome = true ↔ Short (printNext d) depth pos := by
  induction depth generalizing pos partNum sig with
  | zero => simp [printPartitionExtended, Short]
  | succ depth ih =>
    obtain ⟨sector, relative⟩ := pos
    have hshort : Short (printNext d) (depth + 1) (sector, relative) ↔
        ∀ q ∈ printNext d (sector, relative), Short (printNext d) depth q := Iff.rfl
    rw [hshort]
    unfold printPartitionExtended
    cases hread : d.read sector with
    | none => simp [printNext, hread]
    | some buffer =>
      by_cases htype : testBlockType buffer = .mbr
      · simp only [htype, ne_eq, not_true_eq_false, if_false, isSome_map, isSome_mapM, ih,
          printNext, hread, extendedSlots, List.forall_mem_map]
      · simp [printNext, hread, htype]

theorem follow_lt (sector relative : ℕ) (p : DosPartition) (h : relative < 2 ^ d.lbaBits) :
    (d.follow sector relative p).1 < 2 ^ d.lbaBits ∧ (d.follow sector relative p).2 < 2 ^ d.lbaBits := by
  have hadd : d.add p.start relative < 2 ^ d.lbaBits := Nat.mod_lt _ (Nat.two_pow_pos _)
  unfold BlkDesc.follow
  refine ⟨hadd, ?_⟩
  split
  · exact hadd
  · exact h

theorem finite_reachable (next : Position → List Position)
    (hnext : ∀ pos q, Edge next pos q → ∃ p, q = d.follow pos.1 pos.2 p) :
    {x | ReflTransGen (Edge next) (0, 0) x}.Finite := by
  have hbound : ∀ x, ReflTransGen (Edge next) (0, 0) x →
      x.1 < 2 ^ d.lbaBits ∧ x.2 < 2 ^ d.lbaBits := by
    intro x hx
    induction hx with
    | refl => exact ⟨Nat.two_pow_pos _, Nat.two_pow_pos _⟩
    | tail _ he ih =>
      obtain ⟨p, rfl⟩ := hnext _ _ he
      exact follow_lt d _ _ p ih.2
  apply Set.Finite.subset ((Set.finite_Iio (2 ^ d.lbaBits)).prod (Set.finite_Iio (2 ^ d.lbaBits)))
  intro x hx
  exact hbound x hx

theorem edge_printNext (pos q : Position) (h : Edge (printNext d) pos q) :
    ∃ p, q = d.follow pos.1 pos.2 p := by
  unfold Edge printNext at h
  cases hr : d.read pos.1 with
  | none => simp [hr] at h
  | some buffer =>
    simp only [hr] at h
    split at h
    · simp at h
    · obtain ⟨p, -, rfl⟩ := mem_map.mp h
      exact ⟨p, rfl⟩

theorem edge_lookupNext (pos q : Position) (h : Edge (lookupNext d) pos q) :
    ∃ p, q = d.follow pos.1 pos.2 p := by
  unfold Edge lookupNext at h
  cases hr : d.read pos.1 with
  | none => simp [hr] at h
  | some buffer =>
    simp only [hr] at h
    split at h
    · simp at h
    · simp only [mem_toList, map_eq_some_iff] at h
      obtain ⟨p, -, rfl⟩ := h
      exact ⟨p, rfl⟩

theorem print_ends_iff :
    (∃ depth, (partPrintDos d depth).isSome = true) ↔ NoCycle (printNext d) (0, 0) := by
  rw [← exists_short_iff (finite_reachable d _ (edge_printNext d))]
  exact exists_congr fun depth => isSome_print_iff d depth (0, 0) 1 0

end Ends

/- The records along the first extended entries, with `part_num` and `disksig`. -/
inductive Chain (d : BlkDesc) : Position → ℕ → ℕ → Prop where
  | mbr : Chain d (0, 0) 1 0
  | next {pos partNum sig buffer p} (h : Chain d pos partNum sig)
      (hread : d.read pos.1 = some buffer) (hsigned : signed buffer = true)
      (hfirst : (extendedSlots buffer).head? = some p) :
      Chain d (d.follow pos.1 pos.2 p) (lastNum pos.1 partNum (slots buffer))
        (recordSig buffer pos.1 sig)

/- A record of the chain has a usable entry with the number `part`. -/
def OnChain (d : BlkDesc) (part : ℤ) : Prop :=
  ∃ pos partNum sig buffer, Chain d pos partNum sig ∧ d.read pos.1 = some buffer ∧
    signed buffer = true ∧
      ((numbered pos.1 partNum (slots buffer)).find? (sought part)).isSome = true

section Lookup

variable {d : BlkDesc} {part : ℤ} {pos : Position} {partNum sig depth : ℕ} {buffer : Mem}

theorem lookup_succ : partGetInfoExtended d part (depth + 1) pos partNum sig =
    match d.read pos.1 with
    | none => some none
    | some buffer =>
      if signed buffer = false then some none
      else
        match (numbered pos.1 partNum (slots buffer)).find? (sought part) with
        | some x => some (some (infoOf d x.2 pos.1 x.1 (recordSig buffer pos.1 sig)))
        | none =>
          match (extendedSlots buffer).head? with
          | some p =>
            partGetInfoExtended d part depth (d.follow pos.1 pos.2 p)
              (lastNum pos.1 partNum (slots buffer)) (recordSig buffer pos.1 sig)
          | none =>
            if testBlockType buffer = .pbr then some (some (wholeDisk d)) else some none := by
  obtain ⟨sector, relative⟩ := pos
  simp only [partGetInfoExtended, findSlot_eq, extendedSlots, head?_filter]
  cases d.read sector with
  | none => rfl
  | some buffer =>
    simp only
    split
    · rfl
    · cases (numbered sector partNum (slots buffer)).find? (sought part) with
      | none => rfl
      | some x => rfl

theorem lookupNext_eq (hread : d.read pos.1 = some buffer) (hsigned : signed buffer = true) :
    lookupNext d pos = ((extendedSlots buffer).head?.map (d.follow pos.1 pos.2)).toList := by
  simp [lookupNext, hread, hsigned]

theorem isSome_lookup_of_short (h : Short (lookupNext d) depth pos) :
    (partGetInfoExtended d part depth pos partNum sig).isSome = true := by
  induction depth generalizing pos partNum sig with
  | zero => exact absurd h id
  | succ depth ih =>
    rw [lookup_succ]
    cases hread : d.read pos.1 with
    | none => rfl
    | some buffer =>
      simp only
      cases hsigned : signed buffer with
      | false => rfl
      | true =>
        rw [if_neg (by decide)]
        cases (numbered pos.1 partNum (slots buffer)).find? (sought part) with
        | some x => rfl
        | none =>
          cases hfirst : (extendedSlots buffer).head? with
          | none =>
            simp only
            split
            · rfl
            · rfl
          | some p =>
            apply ih
            apply h
            rw [lookupNext_eq hread hsigned, hfirst]
            exact mem_singleton_self _

theorem short_of_isSome_lookup (hchain : Chain d pos partNum sig) (hnot : ¬ OnChain d part)
    (h : (partGetInfoExtended d part depth pos partNum sig).isSome = true) :
    Short (lookupNext d) depth pos := by
  induction depth generalizing pos partNum sig with
  | zero => simp [partGetInfoExtended] at h
  | succ depth ih =>
    intro q hq
    rw [lookup_succ] at h
    cases hread : d.read pos.1 with
    | none => simp [lookupNext, hread] at hq
    | some buffer =>
      cases hsigned : signed buffer with
      | false => simp [lookupNext, hread, hsigned] at hq
      | true =>
        rw [lookupNext_eq hread hsigned, mem_toList, map_eq_some_iff] at hq
        obtain ⟨p, hfirst, rfl⟩ := hq
        have hmiss : (numbered pos.1 partNum (slots buffer)).find? (sought part) = none := by
          by_contra hne
          exact hnot ⟨pos, partNum, sig, buffer, hchain, hread, hsigned, isSome_iff_ne_none.mpr hne⟩
        simp only [hread, hsigned, hmiss, hfirst, Bool.true_eq_false, if_false] at h
        exact ih (hchain.next hread hsigned hfirst) h

theorem lookup_ends_of_chain (hchain : Chain d pos partNum sig)
    (h : ∃ depth, (partGetInfoExtended d part depth pos partNum sig).isSome = true) :
    ∃ depth, (partGetInfoDos d depth part).isSome = true := by
  induction hchain with
  | mbr => exact h
  | next hchain hread hsigned hfirst ih =>
    obtain ⟨depth, hdepth⟩ := h
    apply ih
    refine ⟨depth + 1, ?_⟩
    rw [lookup_succ]
    simp only [hread, hsigned, hfirst, Bool.true_eq_false, if_false]
    split
    · rfl
    · exact hdepth

theorem lookup_ends_iff :
    (∃ depth, (partGetInfoDos d depth part).isSome = true) ↔
      NoCycle (lookupNext d) (0, 0) ∨ OnChain d part := by
  rw [← exists_short_iff (finite_reachable d _ (edge_lookupNext d))]
  constructor
  · intro h
    obtain ⟨depth, hdepth⟩ := h
    by_cases hon : OnChain d part
    · exact .inr hon
    · exact .inl ⟨depth, short_of_isSome_lookup Chain.mbr hon hdepth⟩
  · intro h
    cases h with
    | inl h =>
      obtain ⟨depth, hdepth⟩ := h
      exact ⟨depth, isSome_lookup_of_short hdepth⟩
    | inr h =>
      obtain ⟨pos, partNum, sig, buffer, hchain, hread, hsigned, hfound⟩ := h
      apply lookup_ends_of_chain hchain
      refine ⟨1, ?_⟩
      rw [lookup_succ]
      obtain ⟨x, hx⟩ := isSome_iff_exists.mp hfound
      simp only [hread, hsigned, hx, Bool.true_eq_false, if_false]
      rfl

end Lookup

/- The lookup of a partition ends if and only if the chain along the first extended entries
does not come back to one of its records, or the partition is met on it; the listing if and
only if no record that it reaches leads back to itself. -/
theorem dos_scans_end_iff (d : BlkDesc) (part : ℤ) :
    ((∃ depth, (partGetInfoDos d depth part).isSome = true) ↔
      NoCycle (lookupNext d) (0, 0) ∨ OnChain d part) ∧
    ((∃ depth, (partPrintDos d depth).isSome = true) ↔ NoCycle (printNext d) (0, 0)) :=
  ⟨lookup_ends_iff, print_ends_iff d⟩

/- A record with the given entries: boot indicator, type, start and size. -/
def tableRecord (entries : List (UInt8 × UInt8 × UInt8 × UInt8)) : Mem := fun a =>
  if a = 0x1fe then 0x55
  else if a = 0x1ff then 0xaa
  else if a < 0x1be then 0
  else
    match entries[(a - 0x1be) / 16]?, (a - 0x1be) % 16 with
    | some e, 0 => e.1
    | some e, 4 => e.2.1
    | some e, 8 => e.2.2.1
    | some e, 12 => e.2.2.2
    | _, _ => 0

def selfLink : BlkDesc where
  ifType := .mmc
  devnum := 0
  lba := 8
  lbaBits := 32
  read := fun sector => some (tableRecord [(0, 5, if sector = 0 then 1 else 0, 4)])

theorem edge_selfLink : Edge (printNext selfLink) (1, 1) (1, 1) := by
  unfold Edge
  decide +kernel

theorem lookup_selfLink (depth sig : ℕ) : partGetInfoExtended selfLink 5 depth (1, 1) 5 sig = none := by
  induction depth generalizing sig with
  | zero => rfl
  | succ depth ih =>
    rw [lookup_succ]
    exact ih _

/- Neither scan ends on this disk, for no bound on the depth. -/
theorem self_link_never_ends :
    (¬ ∃ depth, (partGetInfoDos selfLink depth 5).isSome = true) ∧
      ¬ ∃ depth, (partPrintDos selfLink depth).isSome = true := by
  constructor
  · intro h
    obtain ⟨depth, hdepth⟩ := h
    cases depth with
    | zero => simp [partGetInfoDos, partGetInfoExtended] at hdepth
    | succ depth =>
      unfold partGetInfoDos at hdepth
      rw [lookup_succ] at hdepth
      have hloop := lookup_selfLink depth 0
      change (partGetInfoExtended selfLink 5 depth (1, 1) 5 0).isSome = true at hdepth
      rw [hloop] at hdepth
      cases hdepth
  · rw [print_ends_iff]
    intro h
    have hedge : Edge (printNext selfLink) (0, 0) (1, 1) := by
      unfold Edge
      decide +kernel
    exact h (1, 1) (ReflTransGen.single hedge) (TransGen.single edge_selfLink)

end UBoot.Dos
