import UBoot.Lmb.Alloc

/-!
# The highest place that is free

With `max_addr` 0 the loops of `__lmb_alloc_base` reach the highest base that meets no reserved range.
`lmb_addrs_overlap` counts an empty reserved range strictly inside the candidate as one that is met.
-/

namespace UBoot.Lmb

open Words Option

section Regions

variable (abi : Abi)

/- The loops of `__lmb_alloc_base` for the memory regions below index `k`, without the reservation
behind them: `some (some base)` is the base they stop at, `none` that the rounds were not enough. -/
def searchRegions (lmb : LmbState) (size align maxAddr : ℕ) : ℕ → Option (Option ℕ)
  | 0 => some none
  | i + 1 =>
    match searchStart abi (lmb.memory.region i) size align maxAddr with
    | none => searchRegions lmb size align maxAddr i
    | some base =>
      match searchDown abi lmb.reserved size align (lmb.memory.region i).base (base + 1) base with
      | none => none
      | some none => searchRegions lmb size align maxAddr i
      | some (some base) => some (some base)

/- What `__lmb_alloc_base` does with the base that the loops found. -/
def takeBase (lmb : LmbState) (size align : ℕ) : Option ℕ → Option (ℕ × LmbState)
  | none => some (0, lmb)
  | some base =>
    match lmbAddRegion abi lmb.reserved base (lmbAlignUp abi size align) with
    | none => none
    | some (ret, reserved) =>
      if ret < 0 then some (0, { lmb with reserved := reserved })
      else some (base, { lmb with reserved := reserved })

theorem allocFrom_search (lmb : LmbState) (size align maxAddr n : ℕ) :
    allocFrom abi lmb size align maxAddr n =
      (searchRegions abi lmb size align maxAddr n).bind (takeBase abi lmb size align) := by
  induction n with
  | zero => rfl
  | succ i ih =>
    rw [allocFrom, searchRegions]
    cases searchStart abi (lmb.memory.region i) size align maxAddr with
    | none => exact ih
    | some base =>
      simp only
      cases searchDown abi lmb.reserved size align (lmb.memory.region i).base (base + 1) base with
      | none => rfl
      | some found =>
        cases found with
        | none => exact ih
        | some base => rfl

end Regions

/- A non-zero multiple of `align` whose range lies in memory region `i` and has no reserved address. -/
structure FreeAt (lmb : LmbState) (size align i b : ℕ) : Prop where
  nonzero : b ≠ 0
  aligned : align ∣ b
  low : (lmb.memory.region i).base ≤ b
  high : b + size ≤ (lmb.memory.region i).stop
  free : ∀ a, a ∈ covered lmb.reserved.entries → ¬ (b ≤ a ∧ a < b + size)

/- The highest such base in the highest-numbered memory region that has one. -/
structure Highest (lmb : LmbState) (size align i b : ℕ) : Prop where
  index : i < lmb.memory.cnt
  free : FreeAt lmb size align i b
  top : ∀ b', FreeAt lmb size align i b' → b' ≤ b
  above : ∀ j, i < j → j < lmb.memory.cnt → ∀ b', ¬ FreeAt lmb size align j b'

/- The loops end, and where there is a free place they end at the highest one. -/
def HighestFit (abi : Abi) (lmb : LmbState) (size align : ℕ) : Prop :=
  ∃ found, searchRegions abi lmb size align 0 lmb.memory.cnt = some found ∧
    lmbAllocBase abi lmb size align 0 = takeBase abi lmb size align found ∧
    ((∃ i, i < lmb.memory.cnt ∧ ∃ b, FreeAt lmb size align i b) →
      ∃ i b, found = some b ∧ Highest lmb size align i b)

/- No empty reserved range lies strictly inside the highest free place. -/
def Unsplit (lmb : LmbState) (size align : ℕ) : Prop :=
  ∀ i b, Highest lmb size align i b → ∀ x, x ∈ lmb.reserved.entries → x.size = 0 →
    ¬ (b < x.base ∧ x.base < b + size)

structure TablesFit (abi : Abi) (lmb : LmbState) : Prop where
  memory : ∀ i, i < lmb.memory.cnt → (lmb.memory.region i).Fits abi
  reserved : ∀ x, x ∈ lmb.reserved.entries → x.Fits abi

theorem exists_greatest {P : ℕ → Prop} {n : ℕ} (h : ∃ i, P i) (hn : ∀ i, P i → i ≤ n) :
    ∃ i, P i ∧ ∀ j, P j → j ≤ i := by
  have hbdd : BddAbove {i | P i} := ⟨n, hn⟩
  exact ⟨sSup {i | P i}, Nat.sSup_mem h hbdd, fun j hj => le_csSup hbdd hj⟩

theorem exists_highest {lmb : LmbState} {size align : ℕ}
    (h : ∃ i, i < lmb.memory.cnt ∧ ∃ b, FreeAt lmb size align i b) :
    ∃ i b, Highest lmb size align i b := by
  obtain ⟨i, ⟨hi, hfree⟩, hlast⟩ := exists_greatest h fun i hi => hi.1.le
  obtain ⟨b, hb, htop⟩ := exists_greatest (n := (lmb.memory.region i).stop) hfree fun b hb => by
    have hhigh := hb.high
    lia
  exact ⟨i, b, hi, hb, htop, fun j hij hj b' hb' => absurd (hlast j ⟨hj, b', hb'⟩) (by lia)⟩

theorem Highest.unique {lmb : LmbState} {size align i i' b b' : ℕ} (h : Highest lmb size align i b)
    (h' : Highest lmb size align i' b') : i = i' ∧ b = b' := by
  have hle : ¬ i < i' := fun hlt => h.above i' hlt h'.index b' h'.free
  have hge : ¬ i' < i := fun hlt => h'.above i hlt h.index b h.free
  obtain rfl : i = i' := by lia
  exact ⟨rfl, Nat.le_antisymm (h'.top b h.free) (h.top b' h'.free)⟩

structure ClearAt (lmb : LmbState) (size align i b : ℕ) : Prop where
  free : FreeAt lmb size align i b
  clear : ∀ x, x ∈ lmb.reserved.entries → ¬ (b < x.stop ∧ x.base < b + size)

section Search

variable {abi : Abi} {lmb : LmbState} {size k i b : ℕ}

theorem clear_of_unsplit (h : FreeAt lmb size (2 ^ k) i b) (hs : 0 < size)
    (hempty : ∀ x, x ∈ lmb.reserved.entries → x.size = 0 → ¬ (b < x.base ∧ x.base < b + size)) :
    ClearAt lmb size (2 ^ k) i b := by
  refine ⟨h, fun x hx hover => ?_⟩
  by_cases hsize : x.size = 0
  · refine hempty x hx hsize ⟨?_, hover.2⟩
    have hstop : x.stop = x.base + x.size := rfl
    lia
  · -- a range that is not empty has an address in common
    have hcov : x.Covers (max b x.base) := by
      unfold LmbProperty.Covers LmbProperty.stop at *
      lia
    exact h.free _ ⟨x, hx, hcov⟩ (by lia)

theorem searchDown_complete (hf : ∀ x, x ∈ lmb.reserved.entries → x.Fits abi)
    (hk : k ≤ abi.physBits) (hb : ClearAt lmb size (2 ^ k) i b) {fuel base : ℕ} (hfuel : base < fuel)
    (hdvd : 2 ^ k ∣ base) (hle : b ≤ base) (hend : base + size < 2 ^ abi.physBits) :
    ∃ b', searchDown abi lmb.reserved size (2 ^ k) (lmb.memory.region i).base fuel base =
      some (some b') ∧ b ≤ b' := by
  induction fuel generalizing base with
  | zero => lia
  | succ fuel ih =>
    have hlow := hb.free.low
    have hnonzero := hb.free.nonzero
    rw [searchDown, if_pos ⟨by lia, by lia⟩]
    cases hover : lmbOverlapsRegion abi lmb.reserved base size with
    | none => exact ⟨base, rfl, hle⟩
    | some j =>
      have hspec := overlapsFrom_spec abi lmb.reserved base size lmb.reserved.cnt 0
      rw [← lmbOverlapsRegion, hover] at hspec
      obtain ⟨hj, hmeets⟩ := hspec
      have hmem : lmb.reserved.region j ∈ lmb.reserved.entries := mem_entries.mpr ⟨j, by lia, rfl⟩
      have hfit := hf _ hmem
      rw [lmbAddrsOverlap, abi.add_fits hfit, abi.add_of_lt hend] at hmeets
      -- the free place ends below the entry, so there is room below it
      have hbelow : b + size ≤ (lmb.reserved.region j).base := by
        have hclear := hb.clear _ hmem
        lia
      have hsub : abi.sub (lmb.reserved.region j).base size = (lmb.reserved.region j).base - size := by
        apply abi.sub_of_le
        · unfold LmbProperty.Fits LmbProperty.stop at hfit
          lia
        · lia
      have hnext := search_next_lt (2 ^ k) hover hf (by lia)
      have halign : lmbAlignDown abi (abi.sub (lmb.reserved.region j).base size) (2 ^ k) =
          ((lmb.reserved.region j).base - size) / 2 ^ k * 2 ^ k := by
        rw [hsub]
        apply lmbAlignDown_eq abi _ hk
        unfold LmbProperty.Fits LmbProperty.stop at hfit
        lia
      have hreach : b ≤ ((lmb.reserved.region j).base - size) / 2 ^ k * 2 ^ k :=
        (Nat.div_mul_cancel hb.free.aligned).symm.trans_le
          (Nat.mul_le_mul_right _ (Nat.div_le_div_right (by lia)))
      simp only [if_neg (show ¬ (lmb.reserved.region j).base < size by lia)]
      refine ih (by lia) ?_ ?_ (by lia)
      · rw [halign]
        exact Nat.dvd_mul_left _ _
      · rw [halign]
        exact hreach

theorem searchStart_anywhere {x : LmbProperty} (hx : x.Fits abi) (hk : k ≤ abi.physBits) :
    searchStart abi x size (2 ^ k) 0 =
      if x.size < size then none else some ((x.stop - size) / 2 ^ k * 2 ^ k) := by
  rw [searchStart]
  by_cases hsize : x.size < size
  · rw [if_pos hsize, if_pos hsize]
  · have hle : size ≤ x.stop := by
      unfold LmbProperty.stop
      lia
    have hsub : abi.sub x.stop size = x.stop - size := abi.sub_of_le hx hle
    have hlt : x.stop - size < 2 ^ abi.physBits := (Nat.sub_le _ _).trans_lt hx
    rw [if_neg hsize, if_neg hsize, if_pos rfl, abi.add_fits hx, hsub, lmbAlignDown_eq abi hlt hk]

theorem start_end {x : LmbProperty} (hsize : size ≤ x.stop) :
    (x.stop - size) / 2 ^ k * 2 ^ k + size ≤ x.stop := by
  have hle := Nat.div_mul_le_self (x.stop - size) (2 ^ k)
  lia

theorem searchDown_clear (hf : ∀ x, x ∈ lmb.reserved.entries → x.Fits abi) (hk : k ≤ abi.physBits)
    (hx : (lmb.memory.region i).Fits abi) (hsize : size ≤ (lmb.memory.region i).stop) {fuel : ℕ}
    (h : searchDown abi lmb.reserved size (2 ^ k) (lmb.memory.region i).base fuel
      (((lmb.memory.region i).stop - size) / 2 ^ k * 2 ^ k) = some (some b)) :
    ClearAt lmb size (2 ^ k) i b := by
  obtain ⟨hb, hlow, hle, hdvd, hno⟩ := searchDown_found hf hk (Nat.dvd_mul_left _ _) h
  have hend := start_end (k := k) hsize
  have hfit : b + size < 2 ^ abi.physBits := by
    unfold LmbProperty.Fits at hx
    lia
  refine ⟨⟨hb, hdvd, hlow, by lia, fun a ha => overlaps_none hno hf hfit ha⟩, fun x hx => ?_⟩
  exact overlaps_none_entry hno hf hfit hx

/- What the loops over the regions below index `n` should end with, for the clear places. -/
structure StopsAt (lmb : LmbState) (size align n : ℕ) (found : Option ℕ) : Prop where
  nothing : found = none → ∀ i, i < n → ∀ b, ¬ ClearAt lmb size align i b
  base : ∀ b, found = some b → ∃ i, i < n ∧ ClearAt lmb size align i b ∧
    (∀ b', ClearAt lmb size align i b' → b' ≤ b) ∧
    ∀ j, i < j → j < n → ∀ b', ¬ ClearAt lmb size align j b'

theorem StopsAt.skip {align n : ℕ} {found : Option ℕ} (h : StopsAt lmb size align n found)
    (hno : ∀ b, ¬ ClearAt lmb size align n b) : StopsAt lmb size align (n + 1) found := by
  refine ⟨fun hf i hi b => ?_, fun b hb => ?_⟩
  · by_cases hin : i = n
    · rw [hin]
      exact hno b
    · exact h.nothing hf i (by lia) b
  · obtain ⟨i, hi, hclear, htop, habove⟩ := h.base b hb
    refine ⟨i, by lia, hclear, htop, fun j hij hj b' => ?_⟩
    by_cases hjn : j = n
    · rw [hjn]
      exact hno b'
    · exact habove j hij (by lia) b'

theorem StopsAt.found {align n : ℕ} (hclear : ClearAt lmb size align n b)
    (htop : ∀ b', ClearAt lmb size align n b' → b' ≤ b) : StopsAt lmb size align (n + 1) (some b) := by
  refine ⟨fun h => absurd h (some_ne_none b), fun b₁ hb₁ => ?_⟩
  obtain rfl := some.inj hb₁
  exact ⟨n, Nat.lt_succ_self n, hclear, htop, fun j hnj hj => absurd hj (by lia)⟩

theorem searchRegions_spec (ht : TablesFit abi lmb) (hk : k ≤ abi.physBits) {n : ℕ}
    (hn : n ≤ lmb.memory.cnt) :
    ∃ found, searchRegions abi lmb size (2 ^ k) 0 n = some found ∧ StopsAt lmb size (2 ^ k) n found := by
  induction n with
  | zero =>
    refine ⟨none, rfl, fun _ i hi => absurd hi (Nat.not_lt_zero i), fun b h => ?_⟩
    exact absurd h.symm (some_ne_none b)
  | succ n ih =>
    obtain ⟨found, hfound, hstops⟩ := ih (by lia)
    have hx := ht.memory n (by lia)
    rw [searchRegions, searchStart_anywhere hx hk]
    by_cases hsize : (lmb.memory.region n).size < size
    · rw [if_pos hsize]
      refine ⟨found, hfound, hstops.skip fun b hb => ?_⟩
      have hlow := hb.free.low
      have hhigh := hb.free.high
      unfold LmbProperty.stop at hhigh
      lia
    · have hroom : size ≤ (lmb.memory.region n).stop := by
        unfold LmbProperty.stop
        lia
      have hend := start_end (k := k) hroom
      have hlimit : (lmb.memory.region n).stop < 2 ^ abi.physBits := hx
      obtain ⟨r, hr⟩ := searchDown_returns ht.reserved size (2 ^ k) (lmb.memory.region n).base
        (((lmb.memory.region n).stop - size) / 2 ^ k * 2 ^ k + 1)
        (((lmb.memory.region n).stop - size) / 2 ^ k * 2 ^ k) (by lia)
      -- the search in this region misses no clear place
      have hall : ∀ b, ClearAt lmb size (2 ^ k) n b → ∃ b', r = some b' ∧ b ≤ b' := by
        intro b hb
        have hhigh := hb.free.high
        have hreach : b ≤ ((lmb.memory.region n).stop - size) / 2 ^ k * 2 ^ k :=
          (Nat.div_mul_cancel hb.free.aligned).symm.trans_le
            (Nat.mul_le_mul_right _ (Nat.div_le_div_right (by lia)))
        obtain ⟨b', hb', hle⟩ := searchDown_complete ht.reserved hk hb (Nat.lt_succ_self _)
          (Nat.dvd_mul_left _ _) hreach (by lia)
        rw [hr] at hb'
        exact ⟨b', some.inj hb', hle⟩
      simp only [if_neg hsize, hr]
      cases r with
      | none =>
        refine ⟨found, hfound, hstops.skip fun b hb => ?_⟩
        obtain ⟨b', hb', -⟩ := hall b hb
        cases hb'
      | some b =>
        refine ⟨some b, rfl, .found (searchDown_clear ht.reserved hk hx hroom hr) fun b' hb' => ?_⟩
        obtain ⟨b₂, hb₂, hle⟩ := hall b' hb'
        exact hle.trans (some.inj hb₂).ge

end Search

/-- With `max_addr` 0 the search ends, and it finds the highest free place exactly when no empty
reserved range splits that place. -/
theorem highest_fit_iff (abi : Abi) (lmb : LmbState) (size k : ℕ) (ht : TablesFit abi lmb)
    (hs : 0 < size) (hk : k < abi.longBits) :
    HighestFit abi lmb size (2 ^ k) ↔ Unsplit lmb size (2 ^ k) := by
  have hkp : k ≤ abi.physBits := hk.le.trans abi.long_le
  obtain ⟨found, hfound, hstops⟩ := @searchRegions_spec abi lmb size k ht hkp _ le_rfl
  constructor
  · rintro ⟨found', hfound', -, hfit⟩ i b hbest x hx hempty hsplit
    obtain rfl : found = found' := some.inj (hfound.symm.trans hfound')
    obtain ⟨i', b', hb', hbest'⟩ := hfit ⟨i, hbest.index, b, hbest.free⟩
    obtain ⟨rfl, rfl⟩ := hbest.unique hbest'
    obtain ⟨i', -, hclear, -⟩ := hstops.base b hb'
    refine hclear.clear x hx ⟨?_, hsplit.2⟩
    have hstop : x.stop = x.base + x.size := rfl
    lia
  · intro hunsplit
    have halloc : lmbAllocBase abi lmb size (2 ^ k) 0 = takeBase abi lmb size (2 ^ k) found := by
      rw [lmbAllocBase, allocFrom_search, hfound, bind_some]
    refine ⟨found, hfound, halloc, fun hex => ?_⟩
    obtain ⟨i, b, hbest⟩ := exists_highest hex
    have hclear := clear_of_unsplit hbest.free hs (hunsplit i b hbest)
    cases found with
    | none => exact absurd hclear (hstops.nothing rfl i hbest.index b)
    | some b' =>
      obtain ⟨i', hi', hclear', htop, habove⟩ := hstops.base b' rfl
      have hle : ¬ i < i' := fun hlt => hbest.above i' hlt hi' b' hclear'.free
      have hge : ¬ i' < i := fun hlt => habove i hlt hbest.index b hclear
      obtain rfl : i = i' := by lia
      obtain rfl : b = b' := Nat.le_antisymm (htop b hclear) (hbest.top b' hclear'.free)
      exact ⟨i, b, rfl, hbest⟩

/- A bank whose end is reserved: the place below the reservation is found. -/
theorem highest_fit_bank : HighestFit arm32
    ⟨⟨1, fun _ => ⟨0x80000000, 0x10000000⟩⟩, ⟨1, fun _ => ⟨0x8ff00000, 0x100000⟩⟩⟩ 0x800 (2 ^ 12) := by
  refine (highest_fit_iff arm32 _ 0x800 12 ⟨by decide, by decide⟩ (by decide) (by decide)).mpr ?_
  intro i b _ x hx hempty
  rw [List.mem_singleton.mp hx] at hempty
  exact absurd hempty (by decide)

/- All of [0x4000, 0x6000) is free, but 0x2000 bytes are refused: a reservation of no bytes at 0x5000
counts as met. -/
theorem empty_range_splits : ∃ lmb, Built arm32 (fun _ _ => True) lmb [⟨0x5000, 0⟩] ∧
    TablesFit arm32 lmb ∧ ¬ HighestFit arm32 lmb 0x2000 (2 ^ 0) := by
  have h0 : Built arm32 (fun _ _ => True) (lmbInit zeroLmb) [] := .init zeroLmb
  have h1 := h0.add (show 0x4000 + 0x2000 < 2 ^ 32 by decide) rfl
  have h2 := h1.reserve (show 0x5000 + 0 < 2 ^ 32 by decide) trivial rfl
  refine ⟨_, h2, ⟨by decide, by decide⟩, ?_⟩
  rintro ⟨found, hfound, -, hfit⟩
  obtain rfl : none = found := some.inj hfound
  obtain ⟨i, b, hb, -⟩ := hfit ⟨0, by decide, 0x4000, by decide, by decide, by decide, by decide, by
    rintro a ⟨x, hx, hcov⟩
    obtain rfl : x = ⟨0x5000, 0⟩ := List.mem_singleton.mp hx
    have hlow : 0x5000 ≤ a := hcov.1
    have hhigh : a < 0x5000 := hcov.2
    lia⟩
  cases hb

end UBoot.Lmb
