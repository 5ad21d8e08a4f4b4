import UBoot.Lmb.Reserved
import UBoot.Lmb.Search

/-!
# Runs of reserve, allocate and free

The reserved addresses at a point of a run are a set: a reservation or an allocation adds its range,
a free takes it out. `lmb_free` can leave a table without entries, and `lmb_add_region` then reads
what was there before.
-/

namespace UBoot.Lmb

open Words List Option

/-- A call that changes an lmb. -/
inductive Call where
  | add (base size : ℕ)
  | reserve (base size : ℕ)
  | alloc (size align maxAddr : ℕ)
  | free (base size : ℕ)

/-- A successful call and its effect on the set of reserved addresses. Ranges are not
empty and do not wrap, reservations are disjoint from what is reserved, and only reserved
addresses are freed. An allocation counts with its size rounded up to the alignment. -/
inductive Step (abi : Abi) : LmbState → Set ℕ → Call → LmbState → Set ℕ → Prop where
  | add {lmb lmb' : LmbState} {S : Set ℕ} {base size : ℕ} {ret : ℤ}
      (h : lmbAdd abi lmb base size = some (ret, lmb')) :
      Step abi lmb S (.add base size) lmb' S
  | reserve {lmb lmb' : LmbState} {S : Set ℕ} {base size : ℕ} {ret : ℤ} (hs : 0 < size)
      (hw : base + size ≤ 2 ^ abi.physBits) (hd : ∀ a ∈ Set.Ico base (base + size), a ∉ S)
      (h : lmbReserve abi lmb base size = some (ret, lmb')) (hr : 0 ≤ ret) :
      Step abi lmb S (.reserve base size) lmb' (S ∪ Set.Ico base (base + size))
  | alloc {lmb lmb' : LmbState} {S : Set ℕ} {size k maxAddr base : ℕ} (hs : 0 < size)
      (hk : k < abi.longBits)
      (h : lmbAllocBase abi lmb size (2 ^ k) maxAddr = some (base, lmb')) (hr : base ≠ 0) :
      Step abi lmb S (.alloc size (2 ^ k) maxAddr) lmb'
        (S ∪ Set.Ico base (base + roundUp size (2 ^ k)))
  | free {lmb lmb' : LmbState} {S : Set ℕ} {base size : ℕ} {ret : ℤ} (hs : 0 < size)
      (hw : base + size ≤ 2 ^ abi.physBits) (hin : ∀ a ∈ Set.Ico base (base + size), a ∈ S)
      (h : lmbFree abi lmb base size = some (ret, lmb')) (hr : 0 ≤ ret) :
      Step abi lmb S (.free base size) lmb' (S \ Set.Ico base (base + size))

/-- The states reached from `lmb_init`, on an lmb with any contents, by calls that
meet `ok` in the state they are made in. -/
inductive Run (abi : Abi) (ok : LmbState → Call → Prop) : LmbState → Set ℕ → Prop where
  | init (lmb : LmbState) : Run abi ok (lmbInit lmb) ∅
  | call {lmb lmb' : LmbState} {S S' : Set ℕ} {c : Call} (h : Run abi ok lmb S)
      (hok : ok lmb c) (hs : Step abi lmb S c lmb' S') : Run abi ok lmb' S'

/-- The table holds exactly the addresses of `S`; each of its `cnt` entries is a range,
apart from the dummy entry of `lmb_init`. -/
structure Exact (rgn : LmbRegion) (S : Set ℕ) : Prop where
  union : ∀ a, a ∈ S ↔ ∃ i < rgn.cnt, (rgn.region i).Covers a
  valid : (∀ i < rgn.cnt, 0 < (rgn.region i).size) ∨ (rgn.cnt = 1 ∧ (rgn.region 0).size = 0)
  bound : rgn.cnt ≤ maxLmbRegions

/-- In a table without entries the stale entries 0 and 1 are not adjacent, and the
range is stored over entry 0 or is already there. -/
def StaleOk (abi : Abi) (rgn : LmbRegion) (base size : ℕ) : Prop :=
  lmbRegionsAdjacent abi rgn 0 1 = 0 ∧ (base < (rgn.region 0).base ∨ rgn.region 0 = ⟨base, size⟩)

instance (abi : Abi) (rgn : LmbRegion) (base size : ℕ) : Decidable (StaleOk abi rgn base size) :=
  inferInstanceAs (Decidable (_ ∧ _))

/-- The range ends below the top, and the table has an entry or the stale entries do no harm. An
allocation also needs a rounded size that fits the `unsigned long` of `lmb_align_up`, and room for it
where the search, which looks at the size as it is given, ends. -/
def CallOk (abi : Abi) (lmb : LmbState) : Call → Prop
  | .add _ _ => True
  | .reserve base size => base + size < 2 ^ abi.physBits ∧
    (0 < lmb.reserved.cnt ∨ StaleOk abi lmb.reserved base size)
  | .alloc size align maxAddr => roundUp size align < 2 ^ abi.longBits ∧
    ∀ base ∈ foundStart abi lmb size align maxAddr lmb.memory.cnt,
      base + roundUp size align < 2 ^ abi.physBits ∧
      (∀ i < lmb.reserved.cnt, base + roundUp size align ≤ (lmb.reserved.region i).base ∨
        (lmb.reserved.region i).stop ≤ base) ∧
      (0 < lmb.reserved.cnt ∨ StaleOk abi lmb.reserved base (roundUp size align))
  | .free base size => base + size < 2 ^ abi.physBits

/-- The table is in order, or holds nothing but the dummy entry. -/
structure Tracks (abi : Abi) (rgn : LmbRegion) (S : Set ℕ) : Prop where
  table : InOrder abi rgn.entries ∨ ∃ x, rgn.entries = [x] ∧ x.size = 0 ∧ x.Fits abi
  union : ∀ a, a ∈ S ↔ a ∈ covered rgn.entries
  bound : rgn.cnt ≤ maxLmbRegions

theorem mem_Ico_covers {x : LmbProperty} {a : ℕ} : a ∈ Set.Ico x.base x.stop ↔ x.Covers a := Iff.rfl

theorem tracks_init (abi : Abi) (rgn : LmbRegion) : Tracks abi (initRegion rgn) ∅ := by
  have he : (initRegion rgn).entries = [⟨0, 0⟩] := by simp [initRegion, LmbRegion.entries]
  refine ⟨.inr ⟨⟨0, 0⟩, he, rfl, Nat.two_pow_pos _⟩, fun a => ?_, ?_⟩
  · rw [he]
    simp [covered, LmbProperty.Covers, LmbProperty.stop]
  · simp [initRegion, maxLmbRegions]

variable {abi : Abi} {rgn : LmbRegion} {S : Set ℕ}

theorem tracks_fits (h : Tracks abi rgn S) : ∀ x ∈ rgn.entries, x.Fits abi := by
  rcases h.table with ho | ⟨x, he, -, hf⟩
  · exact ho.fits
  · rw [he]
    simpa using hf

/-- An add to a table without entries. -/
theorem lmbAddRegion_empty {base size : ℕ} (hc : rgn.cnt = 0)
    (hs : StaleOk abi rgn base size) : ∃ rgn', lmbAddRegion abi rgn base size = some (0, rgn') ∧
      rgn'.entries = [⟨base, size⟩] := by
  have hm : ¬maxLmbRegions ≤ 0 := by decide
  refine ⟨_, by simp only [lmbAddRegion, addRegionTail, findCoalesce, hc, hs.1, hm, ne_eq,
    zero_ne_one, not_true_eq_false, and_false, false_and, if_false]; rfl, ?_⟩
  simp only [LmbRegion.entries, insertSorted, zero_add, range_one, map_cons, map_nil]
  rcases hs.2 with hb | hb
  · simp [hb]
  · simp [hb]

/-- `lmb_add_region` of a range that is not reserved. -/
theorem tracks_add {rgn' : LmbRegion} {ret : ℤ} (new : LmbProperty)
    (h : Tracks abi rgn S) (hp : 0 < new.size) (hf : new.Fits abi)
    (hd : ∀ a, new.Covers a → a ∉ S) (hok : 0 < rgn.cnt ∨ StaleOk abi rgn new.base new.size)
    (hadd : lmbAddRegion abi rgn new.base new.size = some (ret, rgn')) (hr : 0 ≤ ret) :
    Tracks abi rgn' (S ∪ Set.Ico new.base new.stop) := by
  have hsingle : ∀ a, a ∈ covered [new] ↔ new.Covers a := by simp [covered]
  have hone : InOrder abi [new] := ⟨by simpa using hp, by simpa using hf, pairwise_singleton _ _⟩
  rcases Nat.eq_zero_or_pos rgn.cnt with hc | hc
  · -- the emptied table
    obtain ⟨rgn₁, hadd₁, he⟩ := lmbAddRegion_empty hc (hok.resolve_left (by lia))
    obtain ⟨-, rfl⟩ : (0 : ℤ) = ret ∧ rgn₁ = rgn' := by simpa [hadd] using hadd₁.symm
    have hnil : rgn.entries = [] := by
      rw [← length_eq_zero_iff, entries_length, hc]
    have hempty : ∀ a, a ∉ S := by
      intro a
      rw [h.union a, hnil]
      simp [covered]
    refine ⟨.inl (he ▸ hone), fun a => ?_, ?_⟩
    · rw [he, hsingle, Set.mem_union, mem_Ico_covers]
      exact or_iff_right (hempty a)
    · rw [← entries_length, he, length_singleton]
      decide
  · obtain ⟨ret₁, rgn₁, hadd₁, had⟩ := lmbAddRegion_added hc h.bound hf (tracks_fits h)
    obtain ⟨rfl, rfl⟩ : ret₁ = ret ∧ rgn₁ = rgn' := by simpa [hadd] using hadd₁.symm
    have hlen : rgn₁.cnt ≤ maxLmbRegions := by
      have hl := added_length had (by rw [entries_length]; exact h.bound)
      rwa [entries_length] at hl
    rcases h.table with ho | ⟨x, he, hx, -⟩
    · obtain ⟨ho', hcov⟩ := added_inOrder had hr ho hp hf fun a ha => by
        rw [← h.union a]
        exact hd a ha
      refine ⟨.inl ho', fun a => ?_, hlen⟩
      rw [hcov a, Set.mem_union, h.union a, mem_Ico_covers]
    · -- the first range replaces the dummy entry
      have hdm : rgn.cnt = 1 ∧ (rgn.region 0).size = 0 := by
        have hlx := congrArg List.length he
        rw [entries_length] at hlx
        have h0 : rgn.region 0 = x := entries_region (l := []) he
        exact ⟨hlx, by rw [h0, hx]⟩
      have hset : rgn₁ = rgn.set 0 new := by
        have hd : lmbAddRegion abi rgn new.base new.size = some (0, rgn.set 0 new) := by
          rw [lmbAddRegion, if_pos hdm]
        rw [hd] at hadd
        exact (congrArg Prod.snd (some.inj hadd)).symm
      have he₁ : rgn₁.entries = [new] := by
        rw [hset]
        exact entries_set (l := []) he new
      refine ⟨.inl (he₁ ▸ hone), fun a => ?_, hlen⟩
      have hcx : a ∉ S := by
        rw [h.union a, he]
        simp only [mem_covered, LmbProperty.Covers, LmbProperty.stop, mem_singleton,
          exists_eq_left, hx]
        lia
      rw [he₁, hsingle, Set.mem_union, mem_Ico_covers]
      exact or_iff_right hcx

theorem tracks_free {rgn' : LmbRegion} {ret : ℤ} (gone : LmbProperty) (h : Tracks abi rgn S)
    (hp : 0 < gone.size) (hf : gone.Fits abi) (hin : ∀ a, gone.Covers a → a ∈ S)
    (hfree : freeRegion abi rgn gone.base gone.size = some (ret, rgn')) (hr : 0 ≤ ret) :
    Tracks abi rgn' (S \ Set.Ico gone.base gone.stop) := by
  have hin' : ∀ a, gone.Covers a → a ∈ covered rgn.entries := fun a ha => (h.union a).mp (hin a ha)
  -- a free needs something reserved, so the table holds more than the dummy entry
  have ho : InOrder abi rgn.entries := by
    rcases h.table with ho | ⟨x, he, hx, -⟩
    · exact ho
    · obtain ⟨y, hy, hya⟩ := hin' _ (covers_base hp)
      rw [he, mem_singleton] at hy
      subst hy
      unfold LmbProperty.Covers LmbProperty.stop at hya
      lia
  obtain ⟨ret₁, rgn₁, hfree₁, hlen, hspec⟩ := freeRegion_inOrder ho h.bound hp hf hin'
  obtain ⟨rfl, rfl⟩ : ret₁ = ret ∧ rgn₁ = rgn' := by simpa [hfree] using hfree₁.symm
  obtain ⟨ho', hcov⟩ := hspec hr
  refine ⟨.inl ho', fun a => ?_, hlen⟩
  rw [hcov a, Set.mem_sdiff, h.union a, mem_Ico_covers]

/-- One call keeps the invariant. -/
theorem tracks_step {lmb lmb' : LmbState} {S' : Set ℕ} {c : Call} (h : Tracks abi lmb.reserved S)
    (hok : CallOk abi lmb c) (hs : Step abi lmb S c lmb' S') : Tracks abi lmb'.reserved S' := by
  cases hs with
  | add hadd =>
    obtain ⟨r, -, he⟩ := map_eq_some_iff.mp hadd
    rw [Prod.mk.injEq] at he
    rw [← he.2]
    exact h
  | @reserve _ _ base size ret hp _ hd hres hr =>
    obtain ⟨r, hadd, he⟩ := map_eq_some_iff.mp hres
    obtain ⟨rfl, rfl⟩ := Prod.mk.inj he
    exact tracks_add ⟨base, size⟩ h hp hok.1 hd hok.2 hadd hr
  | @alloc _ _ size k maxAddr base hp hk halloc hr =>
    obtain ⟨hlong, hplace⟩ := hok
    obtain ⟨hfound, -, -, -, -, -, ret, hadd, hret, -⟩ := allocFrom_found halloc hr
    obtain ⟨hw, hd, hok⟩ := hplace base hfound
    have hup : lmbAlignUp abi size (2 ^ k) = roundUp size (2 ^ k) := lmbAlignUp_eq abi hk.le hlong
    rw [hup] at hadd
    have hpos : 0 < roundUp size (2 ^ k) := lt_of_lt_of_le hp (le_roundUp (Nat.two_pow_pos k))
    refine tracks_add ⟨base, roundUp size (2 ^ k)⟩ h hpos hw (fun a ha has => ?_) hok hadd hret
    obtain ⟨x, hx, hxa⟩ := (h.union a).mp has
    obtain ⟨i, hi, rfl⟩ := mem_entries.mp hx
    obtain ⟨hba, has⟩ := ha
    obtain ⟨hxb, hxs⟩ := hxa
    rcases hd i hi with hlow | hhigh
    · exact absurd (lt_of_lt_of_le has hlow) (Nat.not_lt_of_le hxb)
    · exact absurd (lt_of_lt_of_le hxs hhigh) (Nat.not_lt_of_le hba)
  | @free _ _ base size ret hp _ hin hfree hr =>
    obtain ⟨r, hrgn, he⟩ := map_eq_some_iff.mp hfree
    obtain ⟨rfl, rfl⟩ := Prod.mk.inj he
    exact tracks_free ⟨base, size⟩ h hp hok hin hrgn hr

theorem tracks_run {lmb : LmbState} (h : Run abi (CallOk abi) lmb S) : Tracks abi lmb.reserved S := by
  induction h with
  | init lmb => exact tracks_init abi lmb.reserved
  | call _ hok hs ih => exact tracks_step ih hok hs

theorem exact_of_tracks (h : Tracks abi rgn S) : Exact rgn S := by
  refine ⟨fun a => ?_, ?_, h.bound⟩
  · rw [h.union a]
    constructor
    · rintro ⟨x, hx, ha⟩
      obtain ⟨i, hi, rfl⟩ := mem_entries.mp hx
      exact ⟨i, hi, ha⟩
    · rintro ⟨i, hi, ha⟩
      exact ⟨rgn.region i, mem_entries.mpr ⟨i, hi, rfl⟩, ha⟩
  · rcases h.table with ho | ⟨x, he, hx, -⟩
    · exact .inl fun i hi => ho.pos _ (mem_entries.mpr ⟨i, hi, rfl⟩)
    · have hl := congrArg List.length he
      rw [entries_length] at hl
      have h0 : rgn.region 0 = x := entries_region (l := []) he
      exact .inr ⟨hl, by rw [h0, hx]⟩

/-- In every run whose calls are served, the reserved table holds exactly the addresses
reserved or allocated and not freed since. -/
theorem reserved_tracked_exactly (abi : Abi) (lmb : LmbState) (S : Set ℕ)
    (h : Run abi (CallOk abi) lmb S) : Exact lmb.reserved S :=
  exact_of_tracks (tracks_run h)

/-- Memory, a reservation that is split by a free, and an allocation above it. -/
theorem reserved_tracked_exactly_split : ∃ lmb S, Run arm32 (CallOk arm32) lmb S ∧
    Exact lmb.reserved S ∧ 0x80001800 ∈ S ∧ 0x80002800 ∉ S ∧ 0x8ffff800 ∈ S := by
  have h0 : Run arm32 (CallOk arm32) (lmbInit zeroLmb) ∅ := .init zeroLmb
  have h1 := h0.call (c := .add 0x80000000 0x10000000) trivial (.add rfl)
  have h2 := h1.call (c := .reserve 0x80001000 0x3000) ⟨by decide, .inl (by decide)⟩
    (.reserve (by decide) (by decide) (by simp) rfl le_rfl)
  have h3 := h2.call (c := .free 0x80002000 0x1000) (show _ < _ by decide)
    (.free (by decide) (by decide) (by intro a ha; simp at ha ⊢; lia) rfl le_rfl)
  have h4 := h3.call (c := .alloc 0x800 (2 ^ 12) 0) (show _ ∧ _ by decide +kernel)
    (.alloc (k := 12) (by decide) (by decide)
      (show lmbAllocBase arm32 _ 0x800 (2 ^ 12) 0 = some (0x8ffff000, _) from rfl) (by decide))
  refine ⟨_, _, h4, reserved_tracked_exactly arm32 _ _ h4, ?_, ?_, ?_⟩
  · simp
  · simp [roundUp]
  · simp [roundUp]

/-- After the only range is freed, the next reservation above it is lost: the table
holds the freed range again. -/
theorem reserved_not_tracked_after_empty :
    ¬∀ lmb S, Run arm32 (fun _ _ => True) lmb S → Exact lmb.reserved S := by
  intro hall
  have h0 : Run arm32 (fun _ _ => True) (lmbInit zeroLmb) ∅ := .init zeroLmb
  have h1 := h0.call (c := .reserve 0x1000 0x1000) trivial
    (.reserve (by decide) (by decide) (by simp) rfl le_rfl)
  have h2 := h1.call (c := .free 0x1000 0x1000) trivial
    (.free (by decide) (by decide) (by intro a ha; simp at ha ⊢; lia) rfl le_rfl)
  have h3 := h2.call (c := .reserve 0x5000 0x1000) trivial
    (.reserve (by decide) (by decide) (by simp) rfl le_rfl)
  obtain ⟨i, hi, hc⟩ := ((hall _ _ h3).union 0x5000).mp (by simp)
  revert i
  decide

end UBoot.Lmb
