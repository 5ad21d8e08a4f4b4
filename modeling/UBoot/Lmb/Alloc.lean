import UBoot.Lmb.Reserved
import UBoot.Lmb.Search

/-!
# Where allocations are placed

An lmb is built by `lmb_add` and `lmb_reserve` calls whose ranges may meet each other in any way.
The tables need not be sorted then, but every merge is one of ranges that touch.
-/

namespace UBoot.Lmb

open Words List Option

/- Neighbours in a table: the first starts below the end of the second, or at the
place of an empty second. Sorted tables are linked; a table stays linked when an
entry grows downwards past its predecessor. -/
def LmbProperty.Linked (x y : LmbProperty) : Prop :=
  x.base < y.stop ∨ (y.size = 0 ∧ x.base ≤ y.base)

structure Linked (abi : Abi) (es : List LmbProperty) : Prop where
  fits : ∀ x ∈ es, x.Fits abi
  chain : es.IsChain LmbProperty.Linked

variable {abi : Abi} {x : LmbProperty}

theorem linked_split {l r : List LmbProperty} :
    Linked abi (l ++ x :: r) ↔ Linked abi l ∧ Linked abi r ∧ x.Fits abi ∧
      (∀ y ∈ l.getLast?, y.Linked x) ∧ ∀ z ∈ r.head?, x.Linked z := by
  constructor
  · rintro ⟨hf, hc⟩
    obtain ⟨hl, hxr, hlx⟩ := isChain_append.mp hc
    obtain ⟨hxz, hr⟩ := isChain_cons.mp hxr
    exact ⟨⟨fun y hy => hf y (by simp [hy]), hl⟩, ⟨fun y hy => hf y (by simp [hy]), hr⟩,
      hf x (by simp), fun y hy => hlx y hy x (by simp), hxz⟩
  · rintro ⟨⟨hlf, hl⟩, ⟨hrf, hr⟩, hxf, hlx, hxz⟩
    refine ⟨fun y hy => ?_, isChain_append.mpr ⟨hl, isChain_cons.mpr ⟨hxz, hr⟩, ?_⟩⟩
    · rcases mem_append.mp hy with hy | hy
      · exact hlf y hy
      · rcases mem_cons.mp hy with rfl | hy
        · exact hxf
        · exact hrf y hy
    · intro y hy z hz
      obtain rfl : x = z := by simpa using hz
      exact hlx y hy

section Linking

variable {abi : Abi} {new x x' y : LmbProperty} {l r : List LmbProperty}

theorem grow_linked (h : Linked abi (l ++ x :: r)) (hf : new.Fits abi)
    (hl : ∀ y ∈ l, ¬new.Touches y) (hx : Grown new x x') : Linked abi (l ++ x' :: r) := by
  obtain ⟨hll, hlr, hxf, hlx, hxz⟩ := linked_split.mp h
  refine linked_split.mpr ⟨hll, hlr, grown_fits hf hxf hx, fun y hy => ?_, fun z hz => ?_⟩
  · have h1 := hlx y hy
    have h2 := hl y (mem_of_getLast? hy)
    unfold LmbProperty.Linked LmbProperty.Touches LmbProperty.stop at *
    rcases hx with ⟨hb, rfl⟩ | ⟨hb, rfl⟩
    · unfold LmbProperty.stop at hb
      simp only
      lia
    · unfold LmbProperty.stop at hb
      simp only
      lia
  · have h1 := hxz z hz
    unfold LmbProperty.Linked at *
    rcases hx with ⟨hb, rfl⟩ | ⟨hb, rfl⟩
    · unfold LmbProperty.stop at hb
      simp only
      lia
    · exact h1

theorem linked_touches (h : x.Linked y) (ht : x.Touches y) :
    y.base = x.stop ∨ (y.size = 0 ∧ y.base = x.base) := by
  unfold LmbProperty.Linked LmbProperty.Touches LmbProperty.stop at *
  lia

theorem merged_covers (h : x.Linked y) (ht : x.Touches y) (a : ℕ) :
    LmbProperty.Covers ⟨x.base, x.size + y.size⟩ a ↔ x.Covers a ∨ y.Covers a := by
  have hcases := linked_touches h ht
  unfold LmbProperty.Covers LmbProperty.stop at *
  simp only
  lia

theorem bridge_linked (h : Linked abi (l ++ x :: y :: r)) (ht : x.Touches y) :
    Linked abi (l ++ ⟨x.base, x.size + y.size⟩ :: r) := by
  obtain ⟨hll, hlr, hxf, hlx, hxz⟩ := linked_split.mp h
  obtain ⟨-, hlr', hyf, -, hyz⟩ := (linked_split (l := [])).mp hlr
  have hcases := linked_touches (hxz y (by simp)) ht
  refine linked_split.mpr ⟨hll, hlr', ?_, fun w hw => ?_, fun z hz => ?_⟩
  · unfold LmbProperty.Fits LmbProperty.stop at *
    simp only
    lia
  · have h1 := hlx w hw
    unfold LmbProperty.Linked LmbProperty.stop at *
    simp only
    lia
  · have h1 := hyz z hz
    unfold LmbProperty.Linked LmbProperty.stop at *
    simp only
    lia

theorem insert_linked (h : Linked abi (l ++ r)) (hf : new.Fits abi)
    (hr : ∀ y ∈ r, new.base < y.base) (hl : ∀ y ∈ l.getLast?, y.base ≤ new.base) :
    Linked abi (l ++ new :: r) := by
  obtain ⟨hcl, hcr, -⟩ := isChain_append.mp h.chain
  refine linked_split.mpr ⟨⟨fun y hy => h.fits y (by simp [hy]), hcl⟩,
    ⟨fun y hy => h.fits y (by simp [hy]), hcr⟩, hf, fun y hy => ?_, fun z hz => ?_⟩
  · have h1 := hl y hy
    unfold LmbProperty.Linked LmbProperty.stop
    lia
  · have h1 := hr z (mem_of_head? hz)
    unfold LmbProperty.Linked LmbProperty.stop
    lia

theorem storeFirst_linked {es : List LmbProperty} (h : Linked abi es) (hf : new.Fits abi) :
    Linked abi (storeFirst new es) := by
  cases es with
  | nil => exact h
  | cons z zs =>
    rw [storeFirst]
    by_cases hb : new.base < z.base
    · rw [if_pos hb]
      obtain ⟨hz, hzs⟩ := isChain_cons.mp h.chain
      refine ⟨forall_mem_cons.mpr ⟨hf, fun y hy => h.fits y (by simp [hy])⟩,
        isChain_cons.mpr ⟨fun y hy => ?_, hzs⟩⟩
      have h1 := hz y hy
      unfold LmbProperty.Linked at *
      lia
    · rw [if_neg hb]
      exact h

theorem added_linked {es es' : List LmbProperty} {ret : ℤ} (h : Added new es ret es')
    (hl : Linked abi es) (hf : new.Fits abi) : Linked abi es' := by
  cases h with
  | dummy x hx => exact ⟨by simpa using hf, isChain_singleton _⟩
  | same _ _ => exact hl
  | full _ _ => exact hl
  | grow l x x' r hnl hx hr => exact grow_linked hl hf hnl hx
  | bridge l x x' y r hnl hx hy => exact bridge_linked (grow_linked hl hf hnl hx) hy
  | insert l r _ _ hr hlast _ => exact storeFirst_linked (insert_linked hl hf hr hlast) hf

/- The insertion that loses an entry: the new range starts below entry 0, but not
below all entries. -/
def Overwrites (new : LmbProperty) (es : List LmbProperty) : Prop :=
  (∀ y ∈ es, ¬new.Touches y) ∧ new ∉ es ∧ es.length < maxLmbRegions ∧
    (∃ z ∈ es.head?, new.base < z.base) ∧ ∃ y ∈ es, y.base ≤ new.base

theorem added_covers {es es' : List LmbProperty} {ret : ℤ} (h : Added new es ret es')
    (hret : 0 ≤ ret) (hl : Linked abi es) (hf : new.Fits abi) (ho : ¬Overwrites new es) {a : ℕ}
    (ha : a ∈ covered es ∨ new.Covers a) : a ∈ covered es' := by
  cases h with
  | dummy x hx =>
    rcases ha with ⟨y, hy, hya⟩ | ha
    · rw [mem_singleton] at hy
      subst hy
      unfold LmbProperty.Covers LmbProperty.stop at hya
      lia
    · exact ⟨new, by simp, ha⟩
  | same _ hmem => exact ha.elim id fun ha => ⟨new, hmem, ha⟩
  | full _ _ => lia
  | grow l x x' r hnl hx hr =>
    rw [mem_covered_split] at ha ⊢
    rw [grown_covers hx]
    tauto
  | bridge l x x' y r hnl hx hy =>
    have hl' := grow_linked hl hf hnl hx
    obtain ⟨-, -, -, -, hxz⟩ := linked_split.mp hl'
    have hyr : a ∈ covered (y :: r) ↔ y.Covers a ∨ a ∈ covered r := by simp [covered]
    rw [mem_covered_split, hyr] at ha
    rw [mem_covered_split, merged_covers (hxz y (by simp)) hy, grown_covers hx]
    tauto
  | insert l r hnt hnew hr hlast hlen =>
    have hstore : storeFirst new (l ++ new :: r) = l ++ new :: r := by
      cases l with
      | nil => simp [storeFirst]
      | cons z l =>
        rw [cons_append, storeFirst]
        refine if_neg fun hb => ho ⟨hnt, hnew, hlen, ⟨z, rfl, hb⟩, ?_⟩
        have hne : (z :: l) ≠ [] := by simp
        have hlast' := getLast?_eq_some_getLast hne
        exact ⟨_, mem_append_left r (getLast_mem hne), hlast _ hlast'⟩
    rw [hstore, mem_covered_split]
    rw [mem_covered_append] at ha
    tauto

end Linking

/- The states that `lmb_add` and `lmb_reserve` calls build from `lmb_init`, with the
ranges that were reserved with success. The reservations meet `ok`. -/
inductive Built (abi : Abi) (ok : LmbProperty → List LmbProperty → Prop) :
    LmbState → List LmbProperty → Prop where
  | init (lmb : LmbState) : Built abi ok (lmbInit lmb) []
  | add {lmb lmb' : LmbState} {R : List LmbProperty} {base size : ℕ} {ret : ℤ}
      (h : Built abi ok lmb R) (hw : base + size < 2 ^ abi.physBits)
      (hadd : lmbAdd abi lmb base size = some (ret, lmb')) : Built abi ok lmb' R
  | reserve {lmb lmb' : LmbState} {R : List LmbProperty} {base size : ℕ} {ret : ℤ}
      (h : Built abi ok lmb R) (hw : base + size < 2 ^ abi.physBits)
      (hok : ok ⟨base, size⟩ lmb.reserved.entries)
      (hres : lmbReserve abi lmb base size = some (ret, lmb')) :
      Built abi ok lmb' (if 0 ≤ ret then ⟨base, size⟩ :: R else R)

/-- `__lmb_alloc_base` returns, and an address it returns is a multiple of `align`,
inside one memory region, below `max_addr`, and clear of everything reserved. -/
def WellPlaced (abi : Abi) (lmb : LmbState) (R : List LmbProperty) (size align maxAddr : ℕ) : Prop :=
  ∃ b lmb', lmbAllocBase abi lmb size align maxAddr = some (b, lmb') ∧
    (b ≠ 0 → align ∣ b ∧
      (∃ i < lmb.memory.cnt, (lmb.memory.region i).base ≤ b ∧
        b + size ≤ (lmb.memory.region i).stop) ∧
      (maxAddr ≠ 0 → b + size ≤ maxAddr) ∧
      ∀ x ∈ R, ∀ a, x.Covers a → ¬(b ≤ a ∧ a < b + size))

structure TableOk (abi : Abi) (rgn : LmbRegion) : Prop where
  pos : 0 < rgn.cnt
  bound : rgn.cnt ≤ maxLmbRegions
  linked : Linked abi rgn.entries

theorem tableOk_init (abi : Abi) (rgn : LmbRegion) : TableOk abi (initRegion rgn) := by
  have he : (initRegion rgn).entries = [⟨0, 0⟩] := by simp [initRegion, LmbRegion.entries]
  refine ⟨by simp [initRegion], by simp [initRegion, maxLmbRegions], ?_⟩
  rw [he]
  refine ⟨fun x hx => ?_, isChain_singleton _⟩
  rw [mem_singleton.mp hx]
  exact Nat.two_pow_pos _

variable {ret : ℤ}

theorem added_ne_nil {new : LmbProperty} {es es' : List LmbProperty}
    (h : Added new es ret es') (hne : es ≠ []) : es' ≠ [] := by
  cases h with
  | dummy x hx => simp
  | same _ _ => exact hne
  | full _ _ => exact hne
  | grow l x x' r _ _ _ => simp
  | bridge l x x' y r _ _ _ => simp
  | insert l r _ _ _ _ _ =>
    cases l with
    | nil => simp [storeFirst]
    | cons z l =>
      rw [cons_append, storeFirst]
      split
      · simp
      · simp

variable {rgn : LmbRegion} {base size : ℕ}

theorem tableOk_add {rgn' : LmbRegion} (h : TableOk abi rgn) (hw : base + size < 2 ^ abi.physBits)
    (hadd : lmbAddRegion abi rgn base size = some (ret, rgn')) :
    TableOk abi rgn' ∧ Added ⟨base, size⟩ rgn.entries ret rgn'.entries := by
  obtain ⟨ret₁, rgn₁, hadd₁, had⟩ :=
    @lmbAddRegion_added abi rgn ⟨base, size⟩ h.pos h.bound hw h.linked.fits
  obtain ⟨rfl, rfl⟩ : ret₁ = ret ∧ rgn₁ = rgn' := by simpa [hadd] using hadd₁.symm
  refine ⟨⟨?_, ?_, added_linked had h.linked hw⟩, had⟩
  · have hne : rgn.entries ≠ [] := by
      rw [← length_pos_iff, entries_length]
      exact h.pos
    rw [← entries_length]
    exact length_pos_iff.mpr (added_ne_nil had hne)
  · have hl := added_length had (by rw [entries_length]; exact h.bound)
    rwa [entries_length] at hl

theorem added_failed {new : LmbProperty} {es es' : List LmbProperty}
    (h : Added new es ret es') (hret : ret < 0) : es' = es := by
  cases h with
  | dummy => lia
  | same => lia
  | full => rfl
  | grow => lia
  | bridge => lia
  | insert => lia

structure BuiltInv (abi : Abi) (lmb : LmbState) (R : List LmbProperty) : Prop where
  memory : TableOk abi lmb.memory
  reserved : TableOk abi lmb.reserved
  kept : ∀ x ∈ R, ∀ a, x.Covers a → a ∈ covered lmb.reserved.entries

variable {lmb : LmbState}

theorem built_inv {R : List LmbProperty}
    (h : Built abi (fun new es => ¬Overwrites new es) lmb R) : BuiltInv abi lmb R := by
  induction h with
  | init lmb => exact ⟨tableOk_init abi _, tableOk_init abi _, by simp⟩
  | add _ hw hadd ih =>
    obtain ⟨r, hr, he⟩ := map_eq_some_iff.mp hadd
    obtain ⟨-, rfl⟩ := Prod.mk.inj he
    exact ⟨(tableOk_add ih.memory hw hr).1, ih.reserved, ih.kept⟩
  | reserve _ hw hok hres ih =>
    obtain ⟨r, hr, he⟩ := map_eq_some_iff.mp hres
    obtain ⟨rfl, rfl⟩ := Prod.mk.inj he
    obtain ⟨hok', had⟩ := tableOk_add ih.reserved hw hr
    refine ⟨ih.memory, hok', fun x hx a ha => ?_⟩
    by_cases hret : 0 ≤ r.1
    · have hcov := fun hc => added_covers had hret ih.reserved.linked hw hok (a := a) hc
      rw [if_pos hret, mem_cons] at hx
      rcases hx with rfl | hx
      · exact hcov (.inr ha)
      · exact hcov (.inl (ih.kept x hx a ha))
    · -- a full table is left as it was
      rw [if_neg hret] at hx
      rw [show r.2.entries = _ from added_failed had (by lia)]
      exact ih.kept x hx a ha

theorem overlapsFrom_spec (abi : Abi) (rgn : LmbRegion) (base size n i : ℕ) :
    match overlapsFrom abi rgn base size n i with
    | some j => j < i + n ∧ lmbAddrsOverlap abi base size (rgn.region j).base (rgn.region j).size
    | none => ∀ j, i ≤ j → j < i + n →
        ¬lmbAddrsOverlap abi base size (rgn.region j).base (rgn.region j).size := by
  induction n generalizing i with
  | zero =>
    intro j h1 h2
    lia
  | succ n ih =>
    rw [overlapsFrom]
    by_cases ho : lmbAddrsOverlap abi base size (rgn.region i).base (rgn.region i).size
    · rw [if_pos ho]
      exact ⟨by lia, ho⟩
    · rw [if_neg ho]
      have hrec := ih (i + 1)
      cases hr : overlapsFrom abi rgn base size n (i + 1) with
      | some j =>
        rw [hr] at hrec
        exact ⟨by lia, hrec.2⟩
      | none =>
        rw [hr] at hrec
        intro j h1 h2
        by_cases hj : j = i
        · rw [hj]
          exact ho
        · exact hrec j (by lia) (by lia)

theorem overlaps_none_entry (h : lmbOverlapsRegion abi rgn base size = none)
    (hf : ∀ x ∈ rgn.entries, x.Fits abi) (hb : base + size < 2 ^ abi.physBits)
    (hx : x ∈ rgn.entries) : ¬(base < x.stop ∧ x.base < base + size) := by
  obtain ⟨i, hi, rfl⟩ := mem_entries.mp hx
  have hspec := overlapsFrom_spec abi rgn base size rgn.cnt 0
  rw [lmbOverlapsRegion] at h
  rw [h] at hspec
  have hno := hspec i (Nat.zero_le i) (by lia)
  rwa [lmbAddrsOverlap, abi.add_fits (hf _ hx), abi.add_of_lt hb] at hno

theorem overlaps_none (h : lmbOverlapsRegion abi rgn base size = none)
    (hf : ∀ x ∈ rgn.entries, x.Fits abi) (hb : base + size < 2 ^ abi.physBits) {a : ℕ}
    (ha : a ∈ covered rgn.entries) : ¬(base ≤ a ∧ a < base + size) := by
  obtain ⟨x, hx, hxa⟩ := ha
  have hno := overlaps_none_entry h hf hb hx
  unfold LmbProperty.Covers at hxa
  lia

theorem search_next_lt {j : ℕ} (align : ℕ) (h : lmbOverlapsRegion abi rgn base size = some j)
    (hf : ∀ x ∈ rgn.entries, x.Fits abi) (hs : size ≤ (rgn.region j).base) :
    lmbAlignDown abi (abi.sub (rgn.region j).base size) align < base := by
  have hspec := overlapsFrom_spec abi rgn base size rgn.cnt 0
  rw [lmbOverlapsRegion] at h
  rw [h] at hspec
  obtain ⟨hj, -, hlt⟩ := hspec
  have hfit := hf _ (mem_entries.mpr ⟨j, by lia, rfl⟩)
  have hadd : abi.add base size ≤ base + size := Nat.mod_le _ _
  have hsub : abi.sub (rgn.region j).base size = (rgn.region j).base - size := by
    apply abi.sub_of_le _ hs
    unfold LmbProperty.Fits LmbProperty.stop at hfit
    lia
  calc lmbAlignDown abi (abi.sub (rgn.region j).base size) align
      ≤ abi.sub (rgn.region j).base size := Nat.and_le_left
    _ = (rgn.region j).base - size := hsub
    _ < base := by lia

section Search

variable {abi : Abi} {rgn : LmbRegion} {size k lmbbase : ℕ}

theorem searchDown_returns (hf : ∀ x ∈ rgn.entries, x.Fits abi) (size align lmbbase fuel base : ℕ)
    (h : base < fuel) : ∃ r, searchDown abi rgn size align lmbbase fuel base = some r := by
  induction fuel generalizing base with
  | zero => lia
  | succ fuel ih =>
    rw [searchDown]
    by_cases hb : base ≠ 0 ∧ lmbbase ≤ base
    · rw [if_pos hb]
      cases ho : lmbOverlapsRegion abi rgn base size with
      | none => exact ⟨_, rfl⟩
      | some j =>
        by_cases hs : (rgn.region j).base < size
        · exact ⟨none, by simp only [if_pos hs]⟩
        · simp only [if_neg hs]
          have hnext := search_next_lt align ho hf (by lia)
          exact ih _ (by lia)
    · rw [if_neg hb]
      exact ⟨none, rfl⟩

theorem searchDown_found (hf : ∀ x ∈ rgn.entries, x.Fits abi) (hk : k ≤ abi.physBits)
    {fuel base b : ℕ} (hd : 2 ^ k ∣ base)
    (h : searchDown abi rgn size (2 ^ k) lmbbase fuel base = some (some b)) :
    b ≠ 0 ∧ lmbbase ≤ b ∧ b ≤ base ∧ 2 ^ k ∣ b ∧ lmbOverlapsRegion abi rgn b size = none := by
  induction fuel generalizing base with
  | zero => simp [searchDown] at h
  | succ fuel ih =>
    rw [searchDown] at h
    by_cases hb : base ≠ 0 ∧ lmbbase ≤ base
    · rw [if_pos hb] at h
      cases ho : lmbOverlapsRegion abi rgn base size with
      | none =>
        obtain rfl : base = b := by simpa [ho] using h
        exact ⟨hb.1, hb.2, le_rfl, hd, ho⟩
      | some j =>
        simp only [ho] at h
        by_cases hs : (rgn.region j).base < size
        · simp [hs] at h
        · rw [if_neg hs] at h
          have hnext := search_next_lt (2 ^ k) ho hf (by lia)
          have hlt : abi.sub (rgn.region j).base size < 2 ^ abi.physBits :=
            Nat.mod_lt _ (Nat.two_pow_pos _)
          have hdvd : 2 ^ k ∣ lmbAlignDown abi (abi.sub (rgn.region j).base size) (2 ^ k) := by
            rw [lmbAlignDown_eq abi hlt hk]
            exact Nat.dvd_mul_left _ _
          obtain ⟨h1, h2, h3, h4, h5⟩ := ih hdvd h
          exact ⟨h1, h2, by lia, h4, h5⟩
    · rw [if_neg hb] at h
      simp at h

end Search

/- The arguments for which no subtraction of the search start wraps, or the wrapped
start is rounded down to 0. -/
def ArgsOk (abi : Abi) (size align maxAddr : ℕ) : Prop :=
  maxAddr = 0 ∨ size ≤ maxAddr ∨ 2 ^ abi.physBits + maxAddr - size < align

variable {k maxAddr : ℕ}

theorem searchStart_spec {start : ℕ} (hx : x.Fits abi)
    (hk : k ≤ abi.physBits) (hok : ArgsOk abi size (2 ^ k) maxAddr)
    (h : searchStart abi x size (2 ^ k) maxAddr = some start) :
    2 ^ k ∣ start ∧ (start ≠ 0 → start + size ≤ x.stop ∧ (maxAddr ≠ 0 → start + size ≤ maxAddr)) := by
  have hdown : ∀ y < 2 ^ abi.physBits, 2 ^ k ∣ lmbAlignDown abi y (2 ^ k) ∧
      lmbAlignDown abi y (2 ^ k) ≤ y := by
    intro y hy
    rw [lmbAlignDown_eq abi hy hk]
    exact ⟨Nat.dvd_mul_left _ _, Nat.div_mul_le_self _ _⟩
  have hlt : ∀ y z, abi.sub y z < 2 ^ abi.physBits := fun y z => Nat.mod_lt _ (Nat.two_pow_pos _)
  have hxb : x.base ≤ x.stop := Nat.le_add_right _ _
  have hxs : x.size ≤ x.stop := Nat.le_add_left _ _
  unfold LmbProperty.Fits at hx
  simp only [searchStart, abi.add_fits hx] at h
  by_cases hsz : x.size < size
  · simp [hsz] at h
  rw [if_neg hsz] at h
  by_cases hm : maxAddr = 0
  · rw [if_pos hm] at h
    obtain rfl := some.inj h
    obtain ⟨h1, h2⟩ := hdown _ (hlt x.stop size)
    have hsub := abi.sub_of_le hx (show size ≤ x.stop by lia)
    exact ⟨h1, fun _ => ⟨by lia, fun h0 => absurd hm h0⟩⟩
  rw [if_neg hm] at h
  by_cases hb : x.base < maxAddr
  swap
  · simp [hb] at h
  rw [if_pos hb, if_neg (by lia)] at h
  obtain rfl := some.inj h
  obtain ⟨h1, h2⟩ := hdown _ (hlt (min x.stop maxAddr) size)
  refine ⟨h1, fun hne => ?_⟩
  by_cases hle : size ≤ maxAddr
  · have hsub := abi.sub_of_le (show min x.stop maxAddr < 2 ^ abi.physBits by lia)
      (show size ≤ min x.stop maxAddr by lia)
    exact ⟨by lia, fun _ => by lia⟩
  · -- the difference wraps, and the result is below `align`
    have hmin : min x.stop maxAddr = maxAddr := by lia
    have hsmall : 2 ^ abi.physBits + maxAddr - size < 2 ^ k := by
      rcases hok with h | h | h
      · exact absurd h hm
      · exact absurd h hle
      · exact h
    have hsub : abi.sub maxAddr size = 2 ^ abi.physBits + maxAddr - size := by
      rw [Abi.sub, Nat.add_comm maxAddr, Nat.mod_eq_of_lt (by lia)]
    rw [hmin, hsub] at h1 h2 hne
    exact absurd (Nat.eq_zero_of_dvd_of_lt h1 (by lia)) hne

theorem addRegionTail_returns (abi : Abi) (rgn : LmbRegion) (h0 : 0 < rgn.cnt)
    (hc : rgn.cnt ≤ maxLmbRegions) (base size i : ℕ) (coalesced : ℤ) :
    ∃ r, addRegionTail abi rgn base size i coalesced = some r := by
  have hbig := abi.long_large
  have hm : maxLmbRegions = 8 := rfl
  obtain ⟨n, hn⟩ : ∃ n, rgn.cnt = n + 1 := ⟨rgn.cnt - 1, by lia⟩
  have hpred : abi.pred rgn.cnt = n := by
    rw [hn]
    exact abi.pred_succ (by lia)
  unfold addRegionTail
  by_cases hadj : i < abi.pred rgn.cnt ∧ lmbRegionsAdjacent abi rgn i (i + 1) ≠ 0
  · rw [if_pos hadj]
    obtain ⟨region', hr, -⟩ := shiftDown_spec n (maxLmbRegions + 2) (i + 1)
      (rgn.set i ⟨(rgn.region i).base, abi.add (rgn.region i).size (rgn.region (i + 1)).size⟩).region
      (by lia) (by lia) (by lia)
    simp only [lmbCoalesceRegions, lmbRemoveRegion, set_cnt, hpred, hr]
    exact ⟨_, rfl⟩
  · rw [if_neg hadj]
    split
    · exact ⟨_, rfl⟩
    · split
      · exact ⟨_, rfl⟩
      · exact ⟨_, rfl⟩

theorem lmbAddRegion_returns (abi : Abi) (h0 : 0 < rgn.cnt) (hc : rgn.cnt ≤ maxLmbRegions)
    (base size : ℕ) : ∃ r, lmbAddRegion abi rgn base size = some r := by
  unfold lmbAddRegion
  split
  · exact ⟨_, rfl⟩
  · cases findCoalesce abi rgn base size rgn.cnt 0 with
    | same => exact ⟨_, rfl⟩
    | front i => exact addRegionTail_returns abi (rgn.set i _) h0 hc _ _ _ _
    | back i => exact addRegionTail_returns abi (rgn.set i _) h0 hc _ _ _ _
    | none => exact addRegionTail_returns abi rgn h0 hc _ _ _ _

theorem allocFrom_returns (h : TableOk abi lmb.reserved)
    (size align maxAddr n : ℕ) : ∃ r, allocFrom abi lmb size align maxAddr n = some r := by
  induction n with
  | zero => exact ⟨_, rfl⟩
  | succ i ih =>
    rw [allocFrom]
    cases hs : searchStart abi (lmb.memory.region i) size align maxAddr with
    | none => exact ih
    | some start =>
      obtain ⟨found, hd⟩ := searchDown_returns h.linked.fits size align
        (lmb.memory.region i).base (start + 1) start (by lia)
      simp only [hd]
      cases found with
      | none => exact ih
      | some base =>
        obtain ⟨r, hr⟩ := lmbAddRegion_returns abi h.pos h.bound base (lmbAlignUp abi size align)
        simp only [hr]
        split
        · exact ⟨_, rfl⟩
        · exact ⟨_, rfl⟩

theorem built_wellPlaced {R : List LmbProperty} (h : BuiltInv abi lmb R) (hk : k ≤ abi.physBits)
    (hok : ArgsOk abi size (2 ^ k) maxAddr) : WellPlaced abi lmb R size (2 ^ k) maxAddr := by
  obtain ⟨⟨b, lmb'⟩, halloc⟩ := allocFrom_returns h.reserved size (2 ^ k) maxAddr lmb.memory.cnt
  refine ⟨b, lmb', halloc, fun hb => ?_⟩
  obtain ⟨-, i, hi, start, hs, hd, -⟩ := allocFrom_found halloc hb
  have hxf := h.memory.linked.fits _ (mem_entries.mpr ⟨i, hi, rfl⟩)
  obtain ⟨hdvd, hstart⟩ := searchStart_spec hxf hk hok hs
  obtain ⟨-, hlow, hle, hbd, hno⟩ := searchDown_found h.reserved.linked.fits hk hdvd hd
  obtain ⟨htop, hmax⟩ := hstart (by lia)
  have hfit : b + size < 2 ^ abi.physBits := by
    unfold LmbProperty.Fits at hxf
    lia
  refine ⟨hbd, ⟨i, hi, hlow, by lia⟩, fun hm => ?_, fun x hx a ha => ?_⟩
  · have h1 := hmax hm
    lia
  · exact overlaps_none hno h.reserved.linked.fits hfit (h.kept x hx a ha)

/- One memory region `[0, size)` and nothing reserved. -/
def lowMemory (size : ℕ) : LmbState :=
  ⟨(initRegion zeroLmb.memory).set 0 ⟨0, size⟩, initRegion zeroLmb.reserved⟩

theorem lowMemory_built (abi : Abi) (ok : LmbProperty → List LmbProperty → Prop)
    (h : size < 2 ^ abi.physBits) : Built abi ok (lowMemory size) [] := by
  have hadd : lmbAdd abi (lmbInit zeroLmb) 0 size = some (0, lowMemory size) := rfl
  exact .add (.init zeroLmb) (by lia) hadd

/- With `0 < max_addr < size` the start of the search wraps to the top of the address
space, which the check against the start of the region does not notice. -/
theorem lowMemory_misplaced (hs : size < 2 ^ abi.physBits)
    (hk : k ≤ abi.physBits) (hok : ¬ArgsOk abi size (2 ^ k) maxAddr) :
    ¬WellPlaced abi (lowMemory size) [] size (2 ^ k) maxAddr := by
  unfold ArgsOk at hok
  push Not at hok
  obtain ⟨hm, hlt, hbig⟩ := hok
  have hsub : abi.sub maxAddr size = 2 ^ abi.physBits + maxAddr - size := by
    rw [Abi.sub, Nat.add_comm maxAddr, Nat.mod_eq_of_lt (by lia)]
  obtain ⟨b, hb⟩ : ∃ b, b = lmbAlignDown abi (abi.sub maxAddr size) (2 ^ k) := ⟨_, rfl⟩
  have hb0 : b ≠ 0 := by
    rw [hb, hsub, lmbAlignDown_eq abi (by lia) hk]
    have hdiv : 0 < (2 ^ abi.physBits + maxAddr - size) / 2 ^ k :=
      Nat.div_pos hbig (Nat.two_pow_pos k)
    exact (Nat.mul_pos hdiv (Nat.two_pow_pos k)).ne'
  have hreg : (lowMemory size).memory.region 0 = ⟨0, size⟩ := by
    simp [lowMemory, set_region]
  have hstart : searchStart abi ((lowMemory size).memory.region 0) size (2 ^ k) maxAddr = some b := by
    have hadd : abi.add 0 size = size := by simpa using abi.add_of_lt (show 0 + size < _ by lia)
    rw [hreg, searchStart]
    simp only [hadd, lt_irrefl, if_false, hm, Nat.pos_of_ne_zero hm, if_true, not_lt_zero]
    rw [min_eq_right hlt.le, hb]
  have hno : lmbOverlapsRegion abi (lowMemory size).reserved b size = none := by
    have hadd : abi.add 0 0 = 0 := Nat.zero_mod _
    simp [lmbOverlapsRegion, lowMemory, initRegion, overlapsFrom, lmbAddrsOverlap, hadd]
  have hadd : lmbAddRegion abi (lowMemory size).reserved b (lmbAlignUp abi size (2 ^ k)) =
      some (0, (lowMemory size).reserved.set 0 ⟨b, lmbAlignUp abi size (2 ^ k)⟩) := rfl
  rintro ⟨b', lmb', halloc, hplaced⟩
  have hcnt : (lowMemory size).memory.cnt = 1 := rfl
  rw [lmbAllocBase, hcnt, allocFrom, hstart] at halloc
  simp only [searchDown, hreg, hb0, hno, hadd, ne_eq, not_false_eq_true, Nat.zero_le, and_self,
    if_true, lt_irrefl, if_false, some.injEq, Prod.mk.injEq] at halloc
  obtain ⟨rfl, -⟩ := halloc
  obtain ⟨-, ⟨i, hi, -, htop⟩, -, -⟩ := hplaced hb0
  obtain rfl : i = 0 := by lia
  rw [hreg] at htop
  unfold LmbProperty.stop at htop
  simp only at htop
  lia

/-- Allocations are well placed in every lmb, whatever was added and reserved, exactly
when `max_addr` is 0, or not below `size`, or so close below it that the wrapped start
is rounded down to 0. The reservations must not overwrite an entry. -/
theorem alloc_well_placed_iff (abi : Abi) (size k maxAddr : ℕ) (hs : size < 2 ^ abi.physBits)
    (hk : k < abi.longBits) :
    (∀ lmb R, Built abi (fun new es => ¬Overwrites new es) lmb R →
      WellPlaced abi lmb R size (2 ^ k) maxAddr) ↔ ArgsOk abi size (2 ^ k) maxAddr := by
  have hkp : k ≤ abi.physBits := hk.le.trans abi.long_le
  constructor
  · intro h
    by_contra hok
    exact lowMemory_misplaced hs hkp hok (h _ _ (lowMemory_built abi _ hs))
  · intro hok lmb R hb
    exact built_wellPlaced (built_inv hb) hkp hok

/- An allocation below the end of a bank, with the kernel image reserved. -/
theorem alloc_well_placed_bank : ∃ lmb,
    Built arm32 (fun new es => ¬Overwrites new es) lmb [⟨0x80008000, 0x400000⟩] ∧
      WellPlaced arm32 lmb [⟨0x80008000, 0x400000⟩] 0x3000 (2 ^ 12) 0x90000000 := by
  have h0 : Built arm32 (fun new es => ¬Overwrites new es) (lmbInit zeroLmb) [] := .init zeroLmb
  have h1 := h0.add (show 0x80000000 + 0x20000000 < 2 ^ 32 by decide) rfl
  have h2 := h1.reserve (show 0x80008000 + 0x400000 < 2 ^ 32 by decide)
    (fun ho => by obtain ⟨-, -, -, ⟨z, hz, hlt⟩, -⟩ := ho; revert z; decide) rfl
  exact ⟨_, h2, (alloc_well_placed_iff arm32 0x3000 12 0x90000000 (by decide) (by decide)).mpr
    (.inr (.inl (by decide))) _ _ h2⟩

/- 0x2000 bytes below 0x1000 are put at 0xfffff000, outside all memory; and 0x800 bytes are put at
0x8000, inside a range whose entry a later reservation overwrote. -/
theorem alloc_misplaced :
    (∃ lmb, Built arm32 (fun _ _ => True) lmb [] ∧ ¬WellPlaced arm32 lmb [] 0x2000 0x1000 0x1000) ∧
    ∃ lmb R, Built arm32 (fun _ _ => True) lmb R ∧ ¬WellPlaced arm32 lmb R 0x800 0x800 0x8800 := by
  have h0 : Built arm32 (fun _ _ => True) (lmbInit zeroLmb) [] := .init zeroLmb
  have h1 := h0.add (show 0 + 0x80000000 < 2 ^ 32 by decide) rfl
  refine ⟨⟨_, h1, ?_⟩, ?_⟩
  · rintro ⟨b, lmb', halloc, hplaced⟩
    obtain rfl : 0xfffff000 = b := congrArg Prod.fst (some.inj halloc)
    obtain ⟨-, -, hmax, -⟩ := hplaced (by decide)
    exact absurd (hmax (by decide)) (by decide)
  · have h2 := h1.reserve (show 0x5000 + 0x4000 < 2 ^ 32 by decide) trivial rfl
    have h3 := h2.reserve (show 0x7000 + 0x1000 < 2 ^ 32 by decide) trivial rfl
    have h4 := h3.reserve (show 0x800 + 0x6800 < 2 ^ 32 by decide) trivial rfl
    have h5 := h4.reserve (show 0x900 + 0x10 < 2 ^ 32 by decide) trivial rfl
    refine ⟨_, _, h5, ?_⟩
    rintro ⟨b, lmb', halloc, hplaced⟩
    obtain rfl : 0x8000 = b := congrArg Prod.fst (some.inj halloc)
    obtain ⟨-, -, -, hclear⟩ := hplaced (by decide)
    exact hclear ⟨0x5000, 0x4000⟩ (by decide) 0x8000 (by decide) (by decide)

end UBoot.Lmb
