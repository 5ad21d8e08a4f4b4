import UBoot.Efi.AllocatePages

/-!
# Searching free memory

`efi_find_free_memory` subtracts `len` from a limit in 64 bits and checks the sum of the two again, so both
upper tests always pass.
-/

namespace UBoot.Efi.Memory

open List Option

/- The end of a descriptor as a number: `2 ^ 64` for the last one of the address space. -/
def MemDesc.top (d : MemDesc) : ℕ := d.physicalStart + d.numPages * efiPageSize

/- Page-aligned descriptors that end within the address space and share no address. -/
structure AlignedMap (m : List MemDesc) : Prop where
  start : ∀ d, d ∈ m → d.physicalStart < 2 ^ 64 ∧ efiPageSize ∣ d.physicalStart
  fits : ∀ d, d ∈ m → d.top ≤ 2 ^ 64
  disjoint : m.Pairwise fun d e => d.top ≤ e.physicalStart ∨ e.top ≤ d.physicalStart

/- `len` bytes at `a` are whole pages of free RAM below `maxAddr`. -/
structure FreeRange (m : List MemDesc) (len maxAddr a : ℕ) : Prop where
  aligned : efiPageSize ∣ a
  nowrap : a + len < 2 ^ 64
  below : a + len ≤ maxAddr
  inside : ∃ d, d ∈ m ∧ d.type = efiConventionalMemory ∧ d.physicalStart ≤ a ∧ a + len ≤ d.top

def SearchExact (m : List MemDesc) (len maxAddr : ℕ) : Prop :=
  (efiFindFreeMemory len maxAddr m ≠ 0 → FreeRange m len maxAddr (efiFindFreeMemory len maxAddr m)) ∧
    (efiFindFreeMemory len maxAddr m = 0 → ∀ a, ¬ FreeRange m len maxAddr a)

/- The search stops at `d`: its start is not above the difference, which has a borrow if `len` is
more than the limit. -/
def StopsAt (len maxAddr : ℕ) (d : MemDesc) : Prop :=
  d.type = efiConventionalMemory ∧ d.physicalStart + len ≤
    if len ≤ min maxAddr d.stop then min maxAddr d.stop else min maxAddr d.stop + 2 ^ 64

instance (len maxAddr : ℕ) (d : MemDesc) : Decidable (StopsAt len maxAddr d) :=
  inferInstanceAs (Decidable (_ ∧ _))

/- The limit of the first descriptor that the search stops at is more than `len`, and page-aligned. -/
def LimitOk (m : List MemDesc) (len maxAddr : ℕ) : Prop :=
  ∀ d, d ∈ m.find? (fun d => decide (StopsAt len maxAddr d)) →
    len < min maxAddr d.stop ∧ efiPageSize ∣ min maxAddr d.stop

section Search

variable {m : List MemDesc} {d : MemDesc} {len maxAddr : ℕ}

theorem difference_eq {limit : ℕ} (hlimit : limit < 2 ^ 64) (hlen : len < 2 ^ 64) :
    u64 (limit + 2 ^ 64 - len) + len = if len ≤ limit then limit else limit + 2 ^ 64 := by
  split
  next h =>
    have he : limit + 2 ^ 64 - len = (limit - len) + 2 ^ 64 := by lia
    rw [u64, he, Nat.add_mod_right, Nat.mod_eq_of_lt (by lia)]
    lia
  next h =>
    rw [u64_of_lt (by lia)]
    lia

theorem difference_add {limit : ℕ} (hlimit : limit < 2 ^ 64) (hlen : len < 2 ^ 64) :
    u64 (u64 (limit + 2 ^ 64 - len) + len) = limit := by
  rw [difference_eq hlimit hlen]
  split
  · exact u64_of_lt hlimit
  · rw [u64, Nat.add_mod_right, Nat.mod_eq_of_lt hlimit]

theorem findFree_eq (m : List MemDesc) (maxAddr : ℕ) (hlen : len < 2 ^ 64) :
    efiFindFreeMemory len maxAddr m =
      match m.find? (fun d => decide (StopsAt len maxAddr d)) with
      | none => 0
      | some d => u64 (min maxAddr d.stop + 2 ^ 64 - len) := by
  induction m with
  | nil => rfl
  | cons d m ih =>
    have hlimit : min maxAddr d.stop < 2 ^ 64 := (min_le_right _ _).trans_lt (stop_lt d)
    have hsum := difference_add hlimit hlen
    have hret := difference_eq hlimit hlen
    rw [find?_cons, efiFindFreeMemory]
    simp only [hsum]
    rw [if_neg (not_lt.mpr (min_le_left _ _)), if_neg (not_lt.mpr (min_le_right _ _))]
    by_cases htype : d.type = efiConventionalMemory
    · have hstops : StopsAt len maxAddr d ↔
          ¬ u64 (min maxAddr d.stop + 2 ^ 64 - len) < d.physicalStart := by
        unfold StopsAt
        rw [← hret]
        simp only [htype, true_and]
        lia
      rw [if_neg (not_not.mpr htype)]
      by_cases hstop : StopsAt len maxAddr d
      · simp only [hstop, decide_true, if_neg (hstops.mp hstop)]
      · simp only [hstop, decide_false, if_pos (not_not.mp (mt hstops.mpr hstop)), ih]
    · have hstop : ¬ StopsAt len maxAddr d := fun h => htype h.1
      simp only [if_pos htype, hstop, decide_false, ih]

theorem stop_of_top (hd : d.top ≤ 2 ^ 64) : d.stop = if d.top < 2 ^ 64 then d.top else 0 := by
  have htop : d.top = d.physicalStart + d.numPages * efiPageSize := rfl
  by_cases hbytes : d.numPages * efiPageSize < 2 ^ 64
  · rw [MemDesc.stop, bytesOf, u64_of_lt hbytes, ← htop]
    split
    next h => exact u64_of_lt h
    next h => rw [u64, show d.top = 2 ^ 64 by lia, Nat.mod_self]
  · have hall : d.numPages * efiPageSize = 2 ^ 64 := by lia
    have hstart : d.physicalStart = 0 := by lia
    rw [if_neg (by lia), MemDesc.stop, bytesOf, hall, hstart]
    rfl

theorem none_of_passed (hd : d.top ≤ 2 ^ 64) (hpos : 0 < len)
    (htype : d.type = efiConventionalMemory) (hpass : ¬ StopsAt len maxAddr d) {a : ℕ}
    (ha : d.physicalStart ≤ a) (htop : a + len ≤ d.top) (hbelow : a + len ≤ maxAddr) : False := by
  refine hpass ⟨htype, ?_⟩
  have hstop := stop_of_top hd
  by_cases hend : d.top < 2 ^ 64
  · rw [if_pos hend] at hstop
    rw [if_pos (by lia)]
    lia
  · -- the end is 0, so the difference has a borrow
    rw [if_neg hend] at hstop
    rw [if_neg (by lia)]
    lia

theorem stopped_exact (hd : d ∈ m) (hfit : d.top ≤ 2 ^ 64) (hstop : StopsAt len maxAddr d)
    (hlen : efiPageSize ∣ len) (hlen64 : len < 2 ^ 64)
    (hfound : efiFindFreeMemory len maxAddr m = u64 (min maxAddr d.stop + 2 ^ 64 - len)) :
    SearchExact m len maxAddr ↔ len < min maxAddr d.stop ∧ efiPageSize ∣ min maxAddr d.stop := by
  have hlimit : min maxAddr d.stop < 2 ^ 64 := (min_le_right _ _).trans_lt (stop_lt d)
  have hret := difference_eq hlimit hlen64
  rw [← hfound] at hret
  obtain ⟨htype, hlow⟩ := hstop
  rw [← hret] at hlow
  constructor
  · rintro ⟨hsound, hcomplete⟩
    by_cases hzero : efiFindFreeMemory len maxAddr m = 0
    · -- the range is at address 0, which the caller takes for a failure
      exfalso
      rw [hzero] at hret hlow
      have hle : len ≤ min maxAddr d.stop := by
        by_contra hgt
        rw [if_neg hgt] at hret
        lia
      rw [if_pos hle] at hret
      have hmax := min_le_left maxAddr d.stop
      have hend := min_le_right maxAddr d.stop
      have htop := stop_of_top hfit
      refine hcomplete hzero 0 ⟨dvd_zero _, by lia, by lia, d, hd, htype, by lia, ?_⟩
      split at htop <;> lia
    · have hfree := hsound hzero
      have hnowrap := hfree.nowrap
      have hle : len ≤ min maxAddr d.stop := by
        by_contra hgt
        rw [if_neg hgt] at hret
        lia
      rw [if_pos hle] at hret
      exact ⟨by lia, hret ▸ Nat.dvd_add hfree.aligned hlen⟩
  · rintro ⟨hlt, haligned⟩
    rw [if_pos hlt.le] at hret
    have hmax := min_le_left maxAddr d.stop
    have hend := min_le_right maxAddr d.stop
    have htop := stop_of_top hfit
    have hinside : efiFindFreeMemory len maxAddr m + len ≤ d.top := by
      split at htop <;> lia
    refine ⟨fun _ => ⟨?_, by lia, by lia, d, hd, htype, by lia, hinside⟩, fun hzero => by lia⟩
    exact (Nat.dvd_add_iff_left hlen).mpr (hret ▸ haligned)

end Search

/-- The search is exact exactly when the descriptor it stops at, if there is one, has a limit that
is more than `len` and a multiple of the page size. -/
theorem find_free_memory_exact_iff (m : List MemDesc) (len maxAddr : ℕ) (hm : AlignedMap m)
    (hpos : 0 < len) (hlen : efiPageSize ∣ len) (hlen64 : len < 2 ^ 64) :
    SearchExact m len maxAddr ↔ LimitOk m len maxAddr := by
  have hfound := findFree_eq m maxAddr hlen64
  unfold LimitOk
  cases hfirst : m.find? (fun d => decide (StopsAt len maxAddr d)) with
  | none =>
    rw [hfirst] at hfound
    refine ⟨fun _ d hd => absurd hd (not_mem_none d), fun _ => ⟨fun h => absurd hfound h, ?_⟩⟩
    rintro - a ⟨-, -, hbelow, d, hd, htype, ha, htop⟩
    have hpass := find?_eq_none.mp hfirst d hd
    exact none_of_passed (hm.fits d hd) hpos htype (by simpa using hpass) ha htop hbelow
  | some d =>
    rw [hfirst] at hfound
    have hd := mem_of_find?_eq_some hfirst
    have hstop : StopsAt len maxAddr d := by simpa using find?_some hfirst
    rw [stopped_exact hd (hm.fits d hd) hstop hlen hlen64 hfound]
    constructor
    · intro h e he
      obtain rfl := some.inj he
      exact h
    · intro h
      exact h d rfl

theorem ramAboveLoader_aligned : AlignedMap ramAboveLoader := by
  refine ⟨?_, ?_, pairwise_pair.mpr (.inr (by decide))⟩
  · intro d hd
    rcases mem_pair.mp hd with rfl | rfl
    · exact ⟨by decide, by decide⟩
    · exact ⟨by decide, by decide⟩
  · intro d hd
    rcases mem_pair.mp hd with rfl | rfl
    · decide
    · decide

/- One page below the end of the RAM. -/
theorem find_free_memory_exact_ram : SearchExact ramAboveLoader 0x1000 0xffffffff := by
  refine (find_free_memory_exact_iff ramAboveLoader 0x1000 0xffffffff ramAboveLoader_aligned (by decide)
    (by decide) (by decide)).mpr ?_
  intro d hd
  obtain rfl : newDesc 0x3000 2 7 = d := some.inj hd
  decide

/- Two pages of RAM at 0x3000. For three pages below 0x2000 the result is at the top of the address
space; below 0x4800 the page that is found begins inside a page. -/
theorem find_free_memory_wraps : AlignedMap ramAboveLoader ∧
    ¬ SearchExact ramAboveLoader 0x3000 0x2000 ∧ ¬ SearchExact ramAboveLoader 0x1000 0x4800 := by
  refine ⟨ramAboveLoader_aligned, fun h => ?_, fun h => ?_⟩
  · exact absurd (h.1 (by decide)).nowrap (by decide)
  · exact absurd (h.1 (by decide)).aligned (by decide)

end UBoot.Efi.Memory
