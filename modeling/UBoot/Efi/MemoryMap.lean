import UBoot.Efi.Memory

/-!
# The EFI memory map is a partition

For page-aligned, non-wrapping ranges every call of `efi_add_memory_map(start, pages, type, false)`
updates `typeAt` on the new range only, and keeps `efi_mem` a sorted partition.
-/

namespace UBoot.Efi.Memory

open List
open Lib.ListSort

/-- The addresses of a descriptor. -/
def MemDesc.Covers (d : MemDesc) (a : ℕ) : Prop := d.physicalStart ≤ a ∧ a < d.stop

instance (d : MemDesc) (a : ℕ) : Decidable (d.Covers a) := inferInstanceAs (Decidable (_ ∧ _))

/-- The type the map gives to address `a`: that of the first entry covering it. -/
def typeAt (efiMem : List MemDesc) (a : ℕ) : Option ℕ :=
  (efiMem.find? fun d => decide (d.Covers a)).map (·.type)

/-- Two descriptors have no address in common, whichever of them is higher. -/
def MemDesc.Apart (d e : MemDesc) : Prop := d.stop ≤ e.physicalStart ∨ e.stop ≤ d.physicalStart

variable {d : MemDesc}

theorem apart_comm {e : MemDesc} : d.Apart e ↔ e.Apart d := Or.comm

variable {a : ℕ}

theorem apart_not_both {e : MemDesc} (h : d.Apart e) (hd : d.Covers a) : ¬e.Covers a := by
  intro he
  unfold MemDesc.Apart MemDesc.Covers at *
  lia

variable {m : List MemDesc}

/-- Where the entries are apart, the order of the list does not matter. -/
theorem typeAt_eq_some (hm : m.Pairwise MemDesc.Apart) (a t : ℕ) :
    typeAt m a = some t ↔ ∃ d ∈ m, d.Covers a ∧ d.type = t := by
  induction m with
  | nil => simp [typeAt]
  | cons d m ih =>
    obtain ⟨hd, hm⟩ := pairwise_cons.mp hm
    by_cases hc : d.Covers a
    · have hno : ¬∃ e ∈ m, e.Covers a ∧ e.type = t := by
        rintro ⟨e, he, hea, -⟩
        exact apart_not_both (hd e he) hc hea
      simp only [typeAt, find?_cons, hc, decide_true, Option.map_some, Option.some.injEq,
        exists_mem_cons_iff, hno, or_false, true_and]
    · have hf : typeAt (d :: m) a = typeAt m a := by simp [typeAt, hc]
      rw [hf, ih hm]
      simp [hc]

/-- A page-aligned, non-empty descriptor that does not wrap. -/
structure MemDesc.Paged (d : MemDesc) : Prop where
  aligned : d.physicalStart % efiPageSize = 0
  nonempty : 0 < d.numPages
  fits : d.physicalStart + d.numPages * efiPageSize < 2 ^ 64

theorem MemDesc.Paged.stop_eq (h : d.Paged) : d.stop = d.physicalStart + d.numPages * efiPageSize := by
  have hf := h.fits
  have hb : bytesOf d.numPages = d.numPages * efiPageSize := u64_of_lt (by lia)
  rw [MemDesc.stop, hb, u64_of_lt hf]

theorem MemDesc.Paged.start_lt_stop (h : d.Paged) : d.physicalStart < d.stop := by
  have hn := h.nonempty
  rw [h.stop_eq]
  unfold efiPageSize
  lia

theorem MemDesc.Paged.stop_aligned (h : d.Paged) : d.stop % efiPageSize = 0 := by
  have ha := h.aligned
  rw [h.stop_eq]
  unfold efiPageSize at *
  lia

theorem above_paged (hd : d.Paged) (ha : a % efiPageSize = 0)
    (h : a < d.stop) : (d.above a).Paged ∧ (d.above a).stop = d.stop := by
  have hsa := hd.stop_aligned
  have hlt := stop_lt d
  have hdiv : pagesOf (d.stop - a) * efiPageSize = d.stop - a := by
    unfold pagesOf efiPageSize at *
    lia
  have hst := stop_of_pagesOf (d := d.above a) (x := d.stop - a) rfl (by rw [above_start]; lia)
  rw [hdiv, above_start] at hst
  refine ⟨⟨ha, ?_, ?_⟩, by lia⟩
  · change 0 < pagesOf (d.stop - a)
    unfold efiPageSize at hdiv
    lia
  · change a + pagesOf (d.stop - a) * efiPageSize < 2 ^ 64
    lia

theorem below_paged (hd : d.Paged) (ha : a % efiPageSize = 0) (h : d.physicalStart < a)
    (hlt : a < 2 ^ 64) : (d.below a).Paged ∧ (d.below a).stop = a := by
  have hda := hd.aligned
  have hdiv : pagesOf (a - d.physicalStart) * efiPageSize = a - d.physicalStart := by
    unfold pagesOf efiPageSize at *
    lia
  have hst := stop_of_pagesOf (d := d.below a) (x := a - d.physicalStart) rfl
    (by rw [below_start]; lia)
  rw [hdiv, below_start] at hst
  refine ⟨⟨hda, ?_, ?_⟩, by lia⟩
  · change 0 < pagesOf (a - d.physicalStart)
    unfold efiPageSize at hdiv
    lia
  · change d.physicalStart + pagesOf (a - d.physicalStart) * efiPageSize < 2 ^ 64
    lia

/-- The pieces a cut leaves of the entry it hits. -/
inductive Pieces (c d : MemDesc) : List MemDesc → Prop where
  | swallow : c.physicalStart ≤ d.physicalStart → d.stop ≤ c.stop → Pieces c d []
  | move : c.physicalStart ≤ d.physicalStart → c.stop < d.stop → Pieces c d [d.above c.stop]
  | split : d.physicalStart < c.physicalStart →
      Pieces c d [d.below c.physicalStart, d.above c.physicalStart]

variable {c : MemDesc} {ram : Bool} {l l' : List MemDesc}

/-- A cut replaces one entry by its pieces; the order is restored later. -/
theorem cut_perm (h : Cut c ram l l') :
    ∃ d rest ps, l.Perm (d :: rest) ∧ l'.Perm (ps ++ rest) ∧ d.Meets c ∧ Pieces c d ps := by
  cases h with
  | swallow pre d post hpre hd hram hs he =>
    exact ⟨d, pre ++ post, [], perm_middle, .refl _, hd, .swallow hs he⟩
  | move pre d post hpre hd hram hs he =>
    exact ⟨d, pre ++ post, [d.above c.stop], perm_middle, perm_middle, hd, .move hs he⟩
  | split pre d post hpre hd hram hs =>
    refine ⟨d, pre ++ post, _, perm_middle, ?_, hd, .split hs⟩
    have h1 : (pre ++ d.below c.physicalStart :: post ++ [d.above c.physicalStart]).Perm
        (d.above c.physicalStart :: (pre ++ d.below c.physicalStart :: post)) :=
      perm_append_singleton _ _
    exact h1.trans ((perm_middle.cons _).trans (List.Perm.swap _ _ _))

/-- The entries are paged and pairwise apart. -/
structure Partition (m : List MemDesc) : Prop where
  paged : ∀ d ∈ m, d.Paged
  apart : m.Pairwise MemDesc.Apart

theorem Partition.perm {m' : List MemDesc} (h : Partition m) (hp : m.Perm m') :
    Partition m' where
  paged d hd := h.paged d (hp.mem_iff.mpr hd)
  apart := hp.pairwise h.apart fun h => apart_comm.mp h

theorem typeAt_perm {m' : List MemDesc} (h : Partition m) (hp : m.Perm m') (a : ℕ) :
    typeAt m' a = typeAt m a := by
  apply Option.ext
  intro t
  rw [typeAt_eq_some (h.perm hp).apart, typeAt_eq_some h.apart]
  simp only [hp.mem_iff]

/-- What the pieces of a paged entry look like for a paged range. -/
theorem pieces_spec {ps : List MemDesc} (hc : c.Paged) (hd : d.Paged)
    (hm : d.Meets c) (hp : Pieces c d ps) :
    Partition ps ∧ (∀ p ∈ ps, d.physicalStart ≤ p.physicalStart ∧ p.stop ≤ d.stop) ∧
      ∀ a t, ¬c.Covers a → ((∃ p ∈ ps, p.Covers a ∧ p.type = t) ↔ d.Covers a ∧ d.type = t) := by
  obtain ⟨hm1, hm2⟩ := hm
  cases hp with
  | swallow hs he =>
    refine ⟨⟨by simp, .nil⟩, by simp, fun a t ha => ?_⟩
    simp only [not_mem_nil, false_and, exists_false, false_iff]
    rintro ⟨h, -⟩
    unfold MemDesc.Covers at *
    lia
  | move hs he =>
    obtain ⟨hpa, hst⟩ := above_paged hd hc.stop_aligned he
    refine ⟨⟨by simpa using hpa, pairwise_singleton _ _⟩, ?_, fun a t ha => ?_⟩
    · intro p hp
      rw [mem_singleton.mp hp, above_start]
      exact ⟨hm1.le, hst.le⟩
    · unfold MemDesc.Covers at *
      simp only [mem_singleton, exists_eq_left, above_start, above_type, hst]
      constructor
      · rintro ⟨h, ht⟩
        exact ⟨by lia, ht⟩
      · rintro ⟨h, ht⟩
        exact ⟨by lia, ht⟩
  | split hs =>
    have hlt : c.physicalStart < 2 ^ 64 := hm2.trans (stop_lt d)
    obtain ⟨hpa, hsa⟩ := above_paged hd hc.aligned hm2
    obtain ⟨hpb, hsb⟩ := below_paged hd hc.aligned hs hlt
    refine ⟨⟨?_, ?_⟩, ?_, fun a t ha => ?_⟩
    · intro p hp
      rcases mem_pair.mp hp with rfl | rfl
      · exact hpb
      · exact hpa
    · exact pairwise_pair.mpr (.inl hsb.le)
    · intro p hp
      rcases mem_pair.mp hp with rfl | rfl
      · exact ⟨le_rfl, by lia⟩
      · exact ⟨hs.le, hsa.le⟩
    · unfold MemDesc.Covers at *
      simp only [mem_cons, not_mem_nil, or_false, exists_eq_or_imp, exists_eq_left,
        above_start, above_type, below_start, below_type, hsa, hsb]
      constructor
      · rintro (⟨h, ht⟩ | ⟨h, ht⟩)
        · exact ⟨by lia, ht⟩
        · exact ⟨by lia, ht⟩
      · rintro ⟨h, ht⟩
        by_cases hlow : a < c.physicalStart
        · exact .inl ⟨by lia, ht⟩
        · exact .inr ⟨by lia, ht⟩

/-- One cut keeps the partition and every type outside the new range. -/
theorem cut_preserves (hc : c.Paged) (h : Cut c ram l l') (hl : Partition l) :
    Partition l' ∧ ∀ a, ¬c.Covers a → typeAt l' a = typeAt l a := by
  obtain ⟨d, rest, ps, hp, hp', hm, hps⟩ := cut_perm h
  have hl1 := hl.perm hp
  obtain ⟨hd, hrest⟩ := forall_mem_cons.mp hl1.paged
  obtain ⟨hdr, hrr⟩ := pairwise_cons.mp hl1.apart
  obtain ⟨hpp, hin, hty⟩ := pieces_spec hc hd hm hps
  have hl2 : Partition (ps ++ rest) := by
    refine ⟨?_, pairwise_append.mpr ⟨hpp.apart, hrr, ?_⟩⟩
    · intro e he
      rcases mem_append.mp he with he | he
      · exact hpp.paged e he
      · exact hrest e he
    · intro p hp e he
      have hde := hdr e he
      obtain ⟨h1, h2⟩ := hin p hp
      unfold MemDesc.Apart at *
      lia
  refine ⟨hl2.perm hp'.symm, fun a ha => ?_⟩
  rw [typeAt_perm hl2 hp'.symm, typeAt_perm hl1 hp.symm]
  apply Option.ext
  intro t
  rw [typeAt_eq_some hl2.apart, typeAt_eq_some hl1.apart]
  simp only [mem_append, or_and_right, exists_or, mem_cons, exists_eq_left, hty a t ha]

theorem cuts_preserve (hc : c.Paged)
    (h : Relation.ReflTransGen (Cut c ram) l l') (hl : Partition l) :
    Partition l' ∧ ∀ a, ¬c.Covers a → typeAt l' a = typeAt l a := by
  induction h with
  | refl => exact ⟨hl, fun _ _ => rfl⟩
  | tail _ hcut ih =>
    obtain ⟨h1, h2⟩ := cut_preserves hc hcut ih.1
    exact ⟨h1, fun a ha => (h2 a ha).trans (ih.2 a ha)⟩

/-- Every entry lies above the entries after it. -/
def Descending (m : List MemDesc) : Prop := m.Pairwise fun d e => e.stop ≤ d.physicalStart

theorem efiMemSort_perm (m : List MemDesc) : (efiMemSort m).Perm m := listSort_perm _ m

theorem efiMemCmp_le {a b : MemDesc} : efiMemCmp a b ≤ 0 ↔ b.physicalStart ≤ a.physicalStart := by
  unfold efiMemCmp
  split
  · lia
  · split <;> lia

theorem efiMemSort_sorted (m : List MemDesc) :
    (efiMemSort m).Pairwise fun d e => e.physicalStart ≤ d.physicalStart := by
  have hs := listSort_sorted efiMemCmp
    (fun a b => by simp only [efiMemCmp_le]; lia)
    (fun a b c => by simp only [efiMemCmp_le]; lia) m
  exact hs.imp fun h => efiMemCmp_le.mp h

theorem sort_descending (hm : Partition m) : Descending (efiMemSort m) := by
  have hp := hm.perm (efiMemSort_perm m).symm
  have hand := (efiMemSort_sorted m).and hp.apart
  refine hand.imp_of_mem fun {d e} hd he h => ?_
  have h1 := (hp.paged d hd).start_lt_stop
  rcases h.2 with h | h <;> lia

/-- The arguments of `efi_add_memory_map(start, pages, type, false)`. -/
structure AddCall where
  start : ℕ
  pages : ℕ
  type : ℕ
  deriving Repr, DecidableEq

/-- A page-aligned range that does not wrap. -/
def AddCall.Valid (c : AddCall) : Prop :=
  c.start % efiPageSize = 0 ∧ c.start + c.pages * efiPageSize < 2 ^ 64

instance (c : AddCall) : Decidable c.Valid := inferInstanceAs (Decidable (_ ∧ _))

/-- `a` lies in `[start, start + pages * 4096)`. -/
def AddCall.Range (c : AddCall) (a : ℕ) : Prop := c.start ≤ a ∧ a < c.start + c.pages * efiPageSize

instance (c : AddCall) (a : ℕ) : Decidable (c.Range a) := inferInstanceAs (Decidable (_ ∧ _))

def addCall (m : List MemDesc) (c : AddCall) : Option (List MemDesc) :=
  (efiAddMemoryMap m c.start c.pages c.type false).map (·.2)

/-- A sequence of calls; `none` if one of them did not return. -/
def runAdds (m : List MemDesc) (calls : List AddCall) : Option (List MemDesc) :=
  calls.foldlM addCall m

/-- The map between two calls. -/
structure MapInv (m : List MemDesc) : Prop where
  partition : Partition m
  descending : Descending m

theorem mapInv_nil : MapInv [] := ⟨⟨by simp, .nil⟩, .nil⟩

theorem addCall_spec {c : AddCall} (hm : MapInv m) (hc : c.Valid) :
    ∃ m', efiAddMemoryMap m c.start c.pages c.type false = some (c.start, m') ∧ MapInv m' ∧
      ∀ a, typeAt m' a = if c.Range a then some c.type else typeAt m a := by
  obtain ⟨hal, hfit⟩ := hc
  by_cases hp : c.pages = 0
  · refine ⟨m, by simp [efiAddMemoryMap, addMemoryMapFuel, hp], hm, fun a => ?_⟩
    rw [if_neg (by unfold AddCall.Range; rw [hp]; lia)]
  set nd := newDesc c.start c.pages c.type with hnd
  have hpg : nd.Paged := ⟨hal, Nat.pos_of_ne_zero hp, hfit⟩
  have hcov : ∀ a, nd.Covers a ↔ c.Range a := fun a => by
    unfold MemDesc.Covers AddCall.Range
    rw [hpg.stop_eq]
    rfl
  have hw := totalWeight_le nd m
  obtain ⟨⟨b, l⟩, hl⟩ := carveLoop_terminates nd false (2 * m.length + 1) m (by lia)
  obtain ⟨hrun, hclear, href⟩ := carveLoop_run hl
  obtain ⟨hpl, htl⟩ := cuts_preserve hpg hrun hm.partition
  have hb : b = true := by
    cases b with
    | true => rfl
    | false => exact absurd (href rfl).1 (by simp)
  subst hb
  have hclear := hclear rfl
  have hnew : Partition (l ++ [nd]) := by
    refine ⟨?_, pairwise_append.mpr ⟨hpl.apart, pairwise_singleton _ _, ?_⟩⟩
    · intro d hd
      rcases mem_append.mp hd with hd | hd
      · exact hpl.paged d hd
      · rw [mem_singleton.mp hd]
        exact hpg
    · intro d hd e he
      have hno := hclear d hd
      rw [mem_singleton.mp he]
      unfold MemDesc.Meets at hno
      unfold MemDesc.Apart
      lia
  have hsort := efiMemSort_perm (l ++ [nd])
  refine ⟨efiMemSort (l ++ [nd]), ?_, ⟨hnew.perm hsort.symm, sort_descending hnew⟩, fun a => ?_⟩
  · simp only [efiAddMemoryMap, addMemoryMapFuel, hp, if_false, ← hnd, hl]
  · rw [typeAt_perm hnew hsort.symm]
    by_cases ha : c.Range a
    · rw [if_pos ha, typeAt_eq_some hnew.apart]
      exact ⟨nd, by simp, (hcov a).mpr ha, rfl⟩
    · have hna : ¬nd.Covers a := fun h => ha ((hcov a).mp h)
      rw [if_neg ha, ← htl a hna]
      apply Option.ext
      intro t
      rw [typeAt_eq_some hnew.apart, typeAt_eq_some hpl.apart]
      simp [or_and_right, exists_or, hna]

theorem runAdds_inv (hm : MapInv m) (calls : List AddCall)
    (hc : ∀ c ∈ calls, c.Valid) : ∃ m', runAdds m calls = some m' ∧ MapInv m' := by
  induction calls generalizing m with
  | nil => exact ⟨m, rfl, hm⟩
  | cons c calls ih =>
    obtain ⟨h0, ht⟩ := forall_mem_cons.mp hc
    obtain ⟨m1, h1, hi, -⟩ := addCall_spec hm h0
    obtain ⟨m', h2, hi'⟩ := ih hi ht
    refine ⟨m', ?_, hi'⟩
    have hstep : addCall m c = some m1 := by simp [addCall, h1]
    simpa [runAdds, foldlM_cons, hstep] using h2

/-- Every run of page-aligned, non-wrapping calls ends in a partition sorted from
the highest address down, and the next such call returns its start address and
changes the types on its own range only. -/
theorem memory_map_is_partition (calls : List AddCall) (hv : ∀ c ∈ calls, c.Valid) :
    ∃ m, runAdds [] calls = some m ∧ MapInv m ∧
      ∀ c : AddCall, c.Valid →
        ∃ m', efiAddMemoryMap m c.start c.pages c.type false = some (c.start, m') ∧ MapInv m' ∧
          ∀ a, typeAt m' a = if c.Range a then some c.type else typeAt m a := by
  obtain ⟨m, hr, hi⟩ := runAdds_inv mapInv_nil calls hv
  exact ⟨m, hr, hi, fun c hc => addCall_spec hi hc⟩

/-- Two banks of RAM and a range across both of them. -/
theorem memory_map_is_partition_banks :
    ∃ m, runAdds [] [⟨0x1000, 4, 7⟩, ⟨0x8000, 4, 7⟩, ⟨0x3000, 6, 2⟩] = some m ∧ MapInv m := by
  obtain ⟨m, hr, hi, -⟩ := memory_map_is_partition
    [⟨0x1000, 4, 7⟩, ⟨0x8000, 4, 7⟩, ⟨0x3000, 6, 2⟩] (by decide)
  exact ⟨m, hr, hi⟩

end UBoot.Efi.Memory

/-!
## The memory map for the caller

`efi_get_memory_map` stores the needed size over the caller's size and compares the two afterwards,
so the buffer never counts as too small. The entries are stored from the last place downwards.
-/

namespace UBoot.Efi.Memory

open List

/- `sizeof(struct efi_mem_desc)`: two 32-bit words and four 64-bit words. -/
def sizeofMemDesc : ℕ := 40

inductive MapStatus where
  | success
  | bufferTooSmall
  deriving Repr, DecidableEq

/- What a call leaves: the status, `*memory_map_size`, `*descriptor_size` where it was asked for, and
the stores to `memory_map[i]` in order. -/
structure MapResult where
  status : MapStatus
  memoryMapSize : ℕ
  descriptorSize : Option ℕ
  stores : List (ℤ × MemDesc)
  deriving Repr, DecidableEq

/- The copy loop (`efi_memory.c:309-315`) with `memory_map` at index `i`. -/
def copyDown : ℤ → List MemDesc → List (ℤ × MemDesc)
  | _, [] => []
  | i, lmem :: rest => (i, lmem) :: copyDown (i - 1) rest

/- `efi_get_memory_map` (`efi_memory.c:282-319`); `map` and `size` say whether `memory_map` and
`descriptor_size` are given. The caller's `memoryMapSize` is not read before it is overwritten. -/
def efiGetMemoryMap (efiMem : List MemDesc) (_memoryMapSize : ℕ) (map size : Bool) : MapResult :=
  let mapEntries := efiMem.length
  let mapSize := mapEntries * sizeofMemDesc
  let memoryMapSize := mapSize
  let descriptorSize := if size then some sizeofMemDesc else none
  if memoryMapSize < mapSize then ⟨.bufferTooSmall, memoryMapSize, descriptorSize, []⟩
  else ⟨.success, memoryMapSize, descriptorSize, if map then copyDown (mapEntries - 1) efiMem else []⟩

def storesOf (arr : List MemDesc) : List (ℤ × MemDesc) := arr.zipIdx.map fun p => (p.2, p.1)

/- The descriptors of the list in ascending order, each stored once, at the front of the buffer. -/
structure Listed (efiMem : List MemDesc) (capacity : ℕ) (stores : List (ℤ × MemDesc)) : Prop where
  contents : ∃ arr : List MemDesc, arr.Perm efiMem ∧
    arr.Pairwise (fun d e => d.physicalStart ≤ e.physicalStart) ∧ stores.Perm (storesOf arr)
  within : ∀ s, s ∈ stores → 0 ≤ s.1 ∧ (s.1 + 1) * sizeofMemDesc ≤ capacity

/- A buffer that is too small is refused with the needed size; another one gets the map. -/
def RespectsBuffer (efiMem : List MemDesc) (capacity : ℕ) (map size : Bool) : Prop :=
  let r := efiGetMemoryMap efiMem capacity map size
  if capacity < efiMem.length * sizeofMemDesc then
    r.status = .bufferTooSmall ∧ r.memoryMapSize = efiMem.length * sizeofMemDesc ∧ r.stores = []
  else
    r.status = .success ∧ (map = true → Listed efiMem capacity r.stores)

/- The order that `efi_mem_sort` leaves. -/
def FromHighest (efiMem : List MemDesc) : Prop :=
  efiMem.Pairwise fun d e => e.physicalStart ≤ d.physicalStart

section Stores

variable {efiMem arr arr' : List MemDesc}

theorem getMemoryMap_eq (efiMem : List MemDesc) (capacity : ℕ) (map size : Bool) :
    efiGetMemoryMap efiMem capacity map size =
      ⟨.success, efiMem.length * sizeofMemDesc, if size then some sizeofMemDesc else none,
        if map then copyDown (efiMem.length - 1) efiMem else []⟩ :=
  if_neg (lt_irrefl _)

theorem copyDown_eq (efiMem : List MemDesc) :
    copyDown (efiMem.length - 1) efiMem = (storesOf efiMem.reverse).reverse := by
  induction efiMem with
  | nil => rfl
  | cons d rest ih =>
    have hstart : ((d :: rest).length : ℤ) - 1 = rest.length := by
      rw [length_cons]
      lia
    have hsplit : storesOf (d :: rest).reverse = storesOf rest.reverse ++ [((rest.length : ℤ), d)] := by
      simp [storesOf, zipIdx_append]
    rw [hstart, copyDown, ih, hsplit, reverse_append, reverse_singleton, singleton_append]

theorem mem_storesOf {i : ℤ} {d : MemDesc} :
    (i, d) ∈ storesOf arr ↔ ∃ k : ℕ, i = k ∧ arr[k]? = some d := by
  unfold storesOf
  constructor
  · intro h
    obtain ⟨⟨e, k⟩, hmem, heq⟩ := mem_map.mp h
    obtain ⟨rfl, rfl⟩ := Prod.mk.inj heq
    exact ⟨k, rfl, mem_zipIdx_iff_getElem?.mp hmem⟩
  · rintro ⟨k, rfl, hk⟩
    exact mem_map.mpr ⟨(d, k), mem_zipIdx_iff_getElem?.mpr hk, rfl⟩

theorem storesOf_inj (h : (storesOf arr).Perm (storesOf arr')) : arr = arr' := by
  apply ext_getElem?
  intro k
  apply Option.ext
  intro d
  have hiff := h.mem_iff (a := ((k : ℤ), d))
  rw [mem_storesOf, mem_storesOf] at hiff
  constructor
  · intro hd
    obtain ⟨k', hk, hd'⟩ := hiff.mp ⟨k, rfl, hd⟩
    rwa [Int.ofNat_inj.mp hk]
  · intro hd
    obtain ⟨k', hk, hd'⟩ := hiff.mpr ⟨k, rfl, hd⟩
    rwa [Int.ofNat_inj.mp hk]

theorem listed_iff {capacity : ℕ} (hroom : efiMem.length * sizeofMemDesc ≤ capacity) :
    Listed efiMem capacity (copyDown (efiMem.length - 1) efiMem) ↔ FromHighest efiMem := by
  rw [copyDown_eq]
  constructor
  · rintro ⟨⟨arr, -, hsorted, hstores⟩, -⟩
    have harr : efiMem.reverse = arr := storesOf_inj ((reverse_perm _).symm.trans hstores)
    rw [← harr] at hsorted
    exact pairwise_reverse.mp hsorted
  · intro h
    refine ⟨⟨efiMem.reverse, reverse_perm _, pairwise_reverse.mpr h, reverse_perm _⟩, ?_⟩
    rintro ⟨i, d⟩ hs
    obtain ⟨k, rfl, hk⟩ := mem_storesOf.mp (mem_reverse.mp hs)
    obtain ⟨hlt, -⟩ := List.getElem?_eq_some_iff.mp hk
    rw [length_reverse] at hlt
    have hle : (k + 1) * sizeofMemDesc ≤ capacity := (Nat.mul_le_mul_right _ hlt).trans hroom
    refine ⟨Int.natCast_nonneg k, ?_⟩
    show ((k : ℤ) + 1) * (sizeofMemDesc : ℤ) ≤ (capacity : ℤ)
    exact_mod_cast hle

end Stores

/-- The caller's buffer is respected exactly when it is large enough and the list, if it is copied,
is in the order that `efi_mem_sort` leaves. -/
theorem get_memory_map_iff (efiMem : List MemDesc) (capacity : ℕ) (map size : Bool) :
    RespectsBuffer efiMem capacity map size ↔
      efiMem.length * sizeofMemDesc ≤ capacity ∧ (map = true → FromHighest efiMem) := by
  unfold RespectsBuffer
  rw [getMemoryMap_eq]
  by_cases hsmall : capacity < efiMem.length * sizeofMemDesc
  · rw [if_pos hsmall]
    exact ⟨fun h => MapStatus.noConfusion h.1, fun h => absurd h.1 (not_le.mpr hsmall)⟩
  · rw [if_neg hsmall]
    have hroom := not_lt.mp hsmall
    constructor
    · rintro ⟨-, hlisted⟩
      refine ⟨hroom, fun hmap => ?_⟩
      have h := hlisted hmap
      rw [if_pos hmap] at h
      exact (listed_iff hroom).mp h
    · rintro ⟨-, horder⟩
      refine ⟨rfl, fun hmap => ?_⟩
      rw [if_pos hmap]
      exact (listed_iff hroom).mpr (horder hmap)

/- A map of two entries and a buffer for one: both are stored, the second one behind the buffer. -/
theorem get_memory_map_overruns :
    ¬ RespectsBuffer [newDesc 0x3000 2 7, newDesc 0x1000 2 2] 40 true true ∧
      (1, newDesc 0x3000 2 7) ∈
        (efiGetMemoryMap [newDesc 0x3000 2 7, newDesc 0x1000 2 2] 40 true true).stores := by
  refine ⟨fun h => absurd h.1 (by decide), by decide⟩

end UBoot.Efi.Memory
