import UBoot.Lmb.Model

/-!
# The tables of lmb as lists

The entries in use of a table are a list. `Added` says what `lmb_add_region` does to that list; the
array, its stale part and the counters stay behind the lemma `lmbAddRegion_added`.
-/

namespace UBoot.Lmb

open Function List

/-- The end of a range, as a number. -/
def LmbProperty.stop (x : LmbProperty) : ℕ := x.base + x.size

/-- The addresses of a range. -/
def LmbProperty.Covers (x : LmbProperty) (a : ℕ) : Prop := x.base ≤ a ∧ a < x.stop

instance (x : LmbProperty) (a : ℕ) : Decidable (x.Covers a) := inferInstanceAs (Decidable (_ ∧ _))

/-- `base + size` does not wrap. -/
def LmbProperty.Fits (abi : Abi) (x : LmbProperty) : Prop := x.stop < 2 ^ abi.physBits

instance (abi : Abi) (x : LmbProperty) : Decidable (x.Fits abi) := inferInstanceAs (Decidable (_ < _))

/-- One range ends where the other begins. -/
def LmbProperty.Touches (x y : LmbProperty) : Prop := y.base = x.stop ∨ x.base = y.stop

theorem Abi.add_of_lt (abi : Abi) {x y : ℕ} (h : x + y < 2 ^ abi.physBits) : abi.add x y = x + y :=
  Nat.mod_eq_of_lt h

variable {x : LmbProperty}

theorem Abi.add_fits (abi : Abi) (h : x.Fits abi) : abi.add x.base x.size = x.stop := abi.add_of_lt h

theorem Abi.sub_of_le (abi : Abi) {x y : ℕ} (hx : x < 2 ^ abi.physBits) (h : y ≤ x) :
    abi.sub x y = x - y := by
  have he : x + 2 ^ abi.physBits - y = (x - y) + 2 ^ abi.physBits := by lia
  rw [Abi.sub, he, Nat.add_mod_right, Nat.mod_eq_of_lt (by lia)]

theorem Abi.pred_succ (abi : Abi) {n : ℕ} (h : n < 2 ^ abi.longBits) : abi.pred (n + 1) = n := by
  have he : n + 1 + 2 ^ abi.longBits - 1 = n + 2 ^ abi.longBits := by lia
  rw [Abi.pred, he, Nat.add_mod_right, Nat.mod_eq_of_lt h]

theorem Abi.long_large (abi : Abi) : 2 ^ 32 ≤ 2 ^ abi.longBits :=
  Nat.pow_le_pow_right (by norm_num) abi.long_ge

variable {abi : Abi}

/-- The adjacency test of two ranges that fit is exact. -/
theorem adjacent_ne_zero {y : LmbProperty} (hx : x.Fits abi) (hy : y.Fits abi) :
    lmbAddrsAdjacent abi x.base x.size y.base y.size ≠ 0 ↔ x.Touches y := by
  unfold lmbAddrsAdjacent LmbProperty.Touches
  rw [abi.add_fits hx, abi.add_fits hy]
  split_ifs with h1 h2
  · simp [h1]
  · simp [h2]
  · simp [h1, h2]

/-- The entries in use. -/
def LmbRegion.entries (rgn : LmbRegion) : List LmbProperty := (List.range rgn.cnt).map rgn.region

@[simp] theorem entries_length (rgn : LmbRegion) : rgn.entries.length = rgn.cnt := by
  simp [LmbRegion.entries]

theorem entries_getElem? (rgn : LmbRegion) (i : ℕ) :
    rgn.entries[i]? = if i < rgn.cnt then some (rgn.region i) else none := by
  by_cases h : i < rgn.cnt
  · simp [LmbRegion.entries, h]
  · simp [LmbRegion.entries, h]

variable {rgn : LmbRegion}

theorem mem_entries : x ∈ rgn.entries ↔ ∃ i < rgn.cnt, rgn.region i = x := by
  simp [LmbRegion.entries]

variable {l : List LmbProperty}

theorem entries_eq_of_getElem?
    (h : ∀ i, l[i]? = if i < rgn.cnt then some (rgn.region i) else none) : rgn.entries = l := by
  apply ext_getElem?
  intro i
  rw [entries_getElem?, h]

@[simp] theorem set_cnt (rgn : LmbRegion) (i : ℕ) (x : LmbProperty) :
    (rgn.set i x).cnt = rgn.cnt := rfl

theorem set_region (rgn : LmbRegion) (i j : ℕ) (x : LmbProperty) :
    (rgn.set i x).region j = if j = i then x else rgn.region j := by
  simp [LmbRegion.set, update_apply]

variable {r : List LmbProperty}

/-- A store to entry `l.length` replaces the element after `l`. -/
theorem entries_set {y : LmbProperty} (h : rgn.entries = l ++ y :: r) (x : LmbProperty) :
    (rgn.set l.length x).entries = l ++ x :: r := by
  apply entries_eq_of_getElem?
  intro i
  have hi := entries_getElem? rgn i
  rw [h, getElem?_append] at hi
  rw [getElem?_append, set_region, set_cnt]
  have hc : rgn.cnt = l.length + (r.length + 1) := by
    have hl := congrArg List.length h
    simpa using hl
  by_cases h1 : i < l.length
  · have hne : i ≠ l.length := by lia
    simpa only [if_pos h1, if_neg hne] using hi
  · rw [if_neg h1] at hi ⊢
    by_cases h2 : i = l.length
    · subst h2
      simp [hc]
    · obtain ⟨k, hk⟩ : ∃ k, i - l.length = k + 1 := ⟨i - l.length - 1, by lia⟩
      rw [hk, getElem?_cons_succ] at hi ⊢
      rw [hi, if_neg h2]

theorem entries_region (h : rgn.entries = l ++ x :: r) : rgn.region l.length = x := by
  have hi := entries_getElem? rgn l.length
  have hc := congrArg List.length h
  simp only [entries_length, length_append, length_cons] at hc
  rw [h, if_pos (by lia)] at hi
  simpa using hi.symm

theorem shiftDown_spec (limit fuel i : ℕ) (region : ℕ → LmbProperty)
    (hl : limit ≤ maxLmbRegions) (hi : i ≤ limit) (hf : limit < i + fuel) :
    ∃ region', shiftDown limit fuel i region = some region' ∧
      ∀ j, region' j = if i ≤ j ∧ j < limit then region (j + 1) else region j := by
  induction fuel generalizing i region with
  | zero => lia
  | succ fuel ih =>
    by_cases hi : i < limit
    · obtain ⟨region', hr, hs⟩ := ih (i + 1) (update region i (region (i + 1))) hi (by lia)
      have ha : InArray (i + 1) := by
        unfold InArray
        lia
      refine ⟨region', by simp only [shiftDown, hi, ha, if_true, hr], fun j => ?_⟩
      rw [hs j]
      by_cases hj : j = i
      · subst hj
        rw [if_neg (by lia), if_pos (by lia), update_self]
      · rw [update_of_ne hj]
        by_cases hr : i ≤ j ∧ j < limit
        · rw [if_pos hr, if_pos (by lia), update_of_ne (by lia)]
        · rw [if_neg hr, if_neg (by lia)]
    · refine ⟨region, by simp only [shiftDown, hi, if_false], fun j => ?_⟩
      rw [if_neg (by lia)]

theorem cnt_split (abi : Abi) (h : rgn.entries = l ++ x :: r) (hc : rgn.cnt ≤ maxLmbRegions) :
    rgn.cnt = l.length + r.length + 1 ∧ abi.pred rgn.cnt = l.length + r.length := by
  have hlen : rgn.cnt = l.length + r.length + 1 := by
    have hl := congrArg List.length h
    simp only [entries_length, length_append, length_cons] at hl
    lia
  have hbig := abi.long_large
  have hm : maxLmbRegions = 8 := rfl
  refine ⟨hlen, ?_⟩
  rw [hlen]
  exact abi.pred_succ (by lia)

/-- `lmb_remove_region` on a table that is not empty. -/
theorem lmbRemoveRegion_spec (abi : Abi) (h : rgn.entries = l ++ x :: r) (hc : rgn.cnt ≤ maxLmbRegions) :
    ∃ rgn', lmbRemoveRegion abi rgn l.length = some rgn' ∧ rgn'.entries = l ++ r ∧
      rgn'.cnt + 1 = rgn.cnt := by
  have hm : maxLmbRegions = 8 := rfl
  obtain ⟨hlen, hpred⟩ := cnt_split abi h hc
  obtain ⟨region', hr, hs⟩ := shiftDown_spec (l.length + r.length) (maxLmbRegions + 2)
    l.length rgn.region (by lia) (by lia) (by lia)
  refine ⟨⟨l.length + r.length, region'⟩, ?_, ?_, ?_⟩
  · simp only [lmbRemoveRegion, hpred, hr]
  · apply entries_eq_of_getElem?
    intro j
    have hj := entries_getElem? rgn j
    have hj1 := entries_getElem? rgn (j + 1)
    rw [h, getElem?_append] at hj hj1
    change (l ++ r)[j]? = if j < l.length + r.length then some (region' j) else none
    rw [getElem?_append, hs j]
    by_cases h1 : j < l.length
    · have h2 : ¬(l.length ≤ j ∧ j < l.length + r.length) := by lia
      have h3 : j < l.length + r.length := by lia
      have h4 : j < rgn.cnt := by lia
      simpa only [if_pos h1, if_neg h2, if_pos h3, if_pos h4] using hj
    · have h2 : ¬j + 1 < l.length := by lia
      rw [if_neg h2, show j + 1 - l.length = j - l.length + 1 by lia, getElem?_cons_succ] at hj1
      rw [if_neg h1, hj1]
      by_cases h3 : j < l.length + r.length
      · have h4 : l.length ≤ j ∧ j < l.length + r.length := by lia
        rw [if_pos (by lia), if_pos h3, if_pos h4]
      · rw [if_neg (by lia), if_neg h3]
  · simp only
    lia

/-- An entry next to the new range, before and after it took the range in. -/
def Grown (new x x' : LmbProperty) : Prop :=
  (x.base = new.stop ∧ x' = ⟨new.base, x.size + new.size⟩) ∨
    (new.base = x.stop ∧ x' = ⟨x.base, x.size + new.size⟩)

/-- The last store of `lmb_add_region` (`lmb.c:165-168`). -/
def storeFirst (new : LmbProperty) : List LmbProperty → List LmbProperty
  | [] => []
  | z :: zs => if new.base < z.base then new :: zs else z :: zs

/-- What `lmb_add_region` returns and does to the entries in use. -/
inductive Added (new : LmbProperty) : List LmbProperty → ℤ → List LmbProperty → Prop where
  | dummy (x : LmbProperty) (h : x.size = 0) : Added new [x] 0 [new]
  | same (es : List LmbProperty) (h : new ∈ es) : Added new es 0 es
  | grow (l : List LmbProperty) (x x' : LmbProperty) (r : List LmbProperty)
      (hl : ∀ y ∈ l, ¬new.Touches y) (hx : Grown new x x') (hr : ∀ y ∈ r.head?, ¬x'.Touches y) :
      Added new (l ++ x :: r) 1 (l ++ x' :: r)
  | bridge (l : List LmbProperty) (x x' y : LmbProperty) (r : List LmbProperty)
      (hl : ∀ y ∈ l, ¬new.Touches y) (hx : Grown new x x') (hy : x'.Touches y) :
      Added new (l ++ x :: y :: r) 2 (l ++ ⟨x'.base, x'.size + y.size⟩ :: r)
  | full (es : List LmbProperty) (h : es.length = maxLmbRegions) : Added new es (-1) es
  | insert (l r : List LmbProperty) (hn : ∀ y ∈ l ++ r, ¬new.Touches y) (hnew : new ∉ l ++ r)
      (hr : ∀ y ∈ r, new.base < y.base) (hl : ∀ y ∈ l.getLast?, y.base ≤ new.base)
      (hlen : (l ++ r).length < maxLmbRegions) :
      Added new (l ++ r) 0 (storeFirst new (l ++ new :: r))

variable {new : LmbProperty}

/-- What the first loop found, on the list of entries from index `i` on. -/
theorem findCoalesce_spec (hn : new.Fits abi) (n i : ℕ) (es : List LmbProperty)
    (hes : es = (List.range' i n).map rgn.region) (hf : ∀ x ∈ es, x.Fits abi) :
    match findCoalesce abi rgn new.base new.size n i with
    | .same => new ∈ es
    | .front j => ∃ l x r, es = l ++ x :: r ∧ j = i + l.length ∧ (∀ y ∈ l, ¬new.Touches y) ∧
        x.base = new.stop
    | .back j => ∃ l x r, es = l ++ x :: r ∧ j = i + l.length ∧ (∀ y ∈ l, ¬new.Touches y) ∧
        new.base = x.stop
    | .none => (∀ y ∈ es, ¬new.Touches y) ∧ new ∉ es := by
  induction n generalizing i es with
  | zero =>
    subst hes
    simp [findCoalesce]
  | succ n ih =>
    have hcons : es = rgn.region i :: (List.range' (i + 1) n).map rgn.region := by
      rw [hes, range'_succ, map_cons]
    obtain ⟨hfx, hft⟩ := forall_mem_cons.mp (hcons ▸ hf)
    have hadd := abi.add_fits hfx
    have hnew := abi.add_fits hn
    simp only [findCoalesce, lmbAddrsAdjacent, hadd, hnew]
    by_cases hsame : (rgn.region i).base = new.base ∧ (rgn.region i).size = new.size
    · rw [if_pos hsame, hcons]
      have he : rgn.region i = new := by
        cases hx : rgn.region i
        cases new
        simpa [hx] using hsame
      simp [he]
    rw [if_neg hsame]
    by_cases hfront : (rgn.region i).base = new.stop
    · simp only [hfront, if_true]
      exact ⟨[], rgn.region i, _, hcons, rfl, by simp, hfront⟩
    by_cases hback : new.base = (rgn.region i).stop
    · simp only [hfront, hback, if_true, if_false]
      exact ⟨[], rgn.region i, _, hcons, rfl, by simp, rfl⟩
    simp only [hfront, hback, if_false]
    have hnt : ¬new.Touches (rgn.region i) := fun h => h.elim hfront hback
    have hrec := ih (i + 1) _ rfl hft
    cases hr : findCoalesce abi rgn new.base new.size n (i + 1) with
    | same =>
      rw [hr] at hrec
      simpa [hcons] using Or.inr hrec
    | front j =>
      rw [hr] at hrec
      obtain ⟨l, x, r, he, hj, hl, hx⟩ := hrec
      refine ⟨rgn.region i :: l, x, r, by rw [hcons, he, cons_append], ?_, ?_, hx⟩
      · simp only [length_cons]
        lia
      · exact forall_mem_cons.mpr ⟨hnt, hl⟩
    | back j =>
      rw [hr] at hrec
      obtain ⟨l, x, r, he, hj, hl, hx⟩ := hrec
      refine ⟨rgn.region i :: l, x, r, by rw [hcons, he, cons_append], ?_, ?_, hx⟩
      · simp only [length_cons]
        lia
      · exact forall_mem_cons.mpr ⟨hnt, hl⟩
    | none =>
      rw [hr] at hrec
      rw [hcons]
      refine ⟨forall_mem_cons.mpr ⟨hnt, hrec.1⟩, ?_⟩
      rw [mem_cons]
      rintro (rfl | hmem)
      · exact hsame ⟨rfl, rfl⟩
      · exact hrec.2 hmem

/-- Where the insertion loop puts the new range: entries from `p` on move up. -/
theorem insertSorted_spec (base size k : ℕ) (region : ℕ → LmbProperty) :
    ∃ p ≤ k, (∀ j, p ≤ j → j < k → base < (region j).base) ∧
      (p ≠ 0 → (region (p - 1)).base ≤ base) ∧
      ∀ j, insertSorted base size k region j =
        if j < p then region j else if p ≠ 0 ∧ j = p then ⟨base, size⟩
        else if p < j ∧ j ≤ k then region (j - 1) else region j := by
  induction k generalizing region with
  | zero => exact ⟨0, le_rfl, by lia, by lia, fun j => by simp [insertSorted]; lia⟩
  | succ k ih =>
    by_cases hb : base < (region k).base
    · obtain ⟨p, hp, hlow, hlast, hr⟩ := ih (update region (k + 1) (region k))
      have hold : ∀ j, j ≤ k → update region (k + 1) (region k) j = region j :=
        fun j hj => update_of_ne (by lia) _ _
      refine ⟨p, by lia, fun j h1 h2 => ?_, fun h0 => ?_, fun j => ?_⟩
      · by_cases hj : j = k
        · rw [hj]
          exact hb
        · have h := hlow j h1 (by lia)
          rwa [hold j (by lia)] at h
      · have h := hlast h0
        rwa [hold (p - 1) (by lia)] at h
      · rw [insertSorted, if_pos hb, hr j]
        by_cases h1 : j < p
        · rw [if_pos h1, if_pos h1, hold j (by lia)]
        rw [if_neg h1, if_neg h1]
        by_cases h2 : p ≠ 0 ∧ j = p
        · rw [if_pos h2, if_pos h2]
        rw [if_neg h2, if_neg h2]
        by_cases h3 : p < j ∧ j ≤ k
        · rw [if_pos h3, if_pos (by lia), hold (j - 1) (by lia)]
        rw [if_neg h3]
        by_cases h4 : j = k + 1
        · rw [if_pos (by lia), h4, update_self, Nat.add_sub_cancel]
        · rw [update_of_ne h4]
          by_cases h5 : p < j ∧ j ≤ k + 1
          · lia
          · rw [if_neg h5]
    · refine ⟨k + 1, le_rfl, by lia, fun _ => ?_, fun j => ?_⟩
      · rw [Nat.add_sub_cancel]
        lia
      · rw [insertSorted, if_neg hb, update_apply]
        by_cases h1 : j = k + 1
        · rw [if_pos h1, if_neg (by lia), if_pos (by lia)]
        · rw [if_neg h1]
          by_cases h2 : j < k + 1
          · rw [if_pos h2]
          · rw [if_neg h2, if_neg (by lia), if_neg (by lia)]

theorem storeFirst_getElem? (new z : LmbProperty) (zs : List LmbProperty) (j : ℕ) :
    (storeFirst new (z :: zs))[j]? = if j = 0 ∧ new.base < z.base then some new else (z :: zs)[j]? := by
  unfold storeFirst
  by_cases hb : new.base < z.base
  · cases j with
    | zero => simp [hb]
    | succ j => simp [hb]
  · simp [hb]

theorem inserted_getElem? (rgn : LmbRegion) (new : LmbProperty) {p : ℕ} (hp : p ≤ rgn.cnt) (j : ℕ) :
    (rgn.entries.take p ++ new :: rgn.entries.drop p)[j]? =
      if j < rgn.cnt + 1 then some (if j < p then rgn.region j else if j = p then new
        else rgn.region (j - 1)) else none := by
  rw [getElem?_append]
  simp only [length_take, entries_length]
  by_cases h1 : j < p
  · rw [if_pos (by lia), getElem?_take_of_lt h1, entries_getElem?, if_pos (by lia),
      if_pos (by lia), if_pos h1]
  · rw [if_neg (by lia), if_neg h1, min_eq_left hp]
    by_cases h2 : j = p
    · simp [h2, Nat.lt_succ_of_le hp]
    · rw [show j - p = (j - 1 - p) + 1 by lia, getElem?_cons_succ, getElem?_drop,
        entries_getElem?, if_neg h2, show p + (j - 1 - p) = j - 1 by lia]
      by_cases h3 : j < rgn.cnt + 1
      · rw [if_pos h3, if_pos (by lia)]
      · rw [if_neg h3, if_neg (by lia)]

/-- The insertion, on the list of entries. -/
theorem insert_entries (rgn : LmbRegion) (new : LmbProperty) (hc : 0 < rgn.cnt) :
    ∃ l r, rgn.entries = l ++ r ∧ (∀ y ∈ r, new.base < y.base) ∧
      (∀ y ∈ l.getLast?, y.base ≤ new.base) ∧
      LmbRegion.entries ⟨rgn.cnt + 1,
        let region := insertSorted new.base new.size rgn.cnt rgn.region
        if new.base < (region 0).base then update region 0 ⟨new.base, new.size⟩
        else region⟩ = storeFirst new (l ++ new :: r) := by
  obtain ⟨p, hp, hlow, hlast, hr⟩ := insertSorted_spec new.base new.size rgn.cnt rgn.region
  refine ⟨rgn.entries.take p, rgn.entries.drop p, (take_append_drop _ _).symm, ?_, ?_, ?_⟩
  · intro y hy
    obtain ⟨j, hj, rfl⟩ := mem_iff_getElem.mp hy
    simp only [length_drop, entries_length] at hj
    have h := hlow (p + j) (by lia) (by lia)
    simpa [LmbRegion.entries] using h
  · intro y hy
    by_cases h0 : p = 0
    · simp [h0] at hy
    · have h := hlast h0
      rw [getLast?_take, if_neg h0, entries_getElem?, if_pos (by lia)] at hy
      have he : rgn.region (p - 1) = y := by simpa using hy
      rwa [he] at h
  · -- entry `j` of the new table, compared with element `j` of the list
    apply entries_eq_of_getElem?
    intro j
    obtain ⟨z, zs, hz⟩ : ∃ z zs, rgn.entries.take p ++ new :: rgn.entries.drop p = z :: zs :=
      exists_cons_of_ne_nil (by simp)
    have hz0 : z = if p = 0 then new else rgn.region 0 := by
      have h := inserted_getElem? rgn new hp 0
      rw [hz, getElem?_cons_zero, if_pos (by lia)] at h
      rw [Option.some.inj h]
      by_cases h0 : p = 0
      · simp [h0]
      · simp [h0, Nat.pos_of_ne_zero h0]
    rw [hz, storeFirst_getElem?, ← hz, inserted_getElem? rgn new hp, hz0]
    -- the store to entry 0 replaces an old entry, unless everything moved up
    have hreg : ∀ region0, insertSorted new.base new.size rgn.cnt rgn.region 0 = region0 →
        j < rgn.cnt + 1 → ¬(j = 0 ∧ new.base < region0.base) → ¬(p = 0 ∧ j = 0) →
        (if new.base < region0.base then
          update (insertSorted new.base new.size rgn.cnt rgn.region) 0 new
          else insertSorted new.base new.size rgn.cnt rgn.region) j =
        if j < p then rgn.region j else if j = p then new else rgn.region (j - 1) := by
      intro region0 _ hjc hb hp0
      have hj : (if new.base < region0.base then
          update (insertSorted new.base new.size rgn.cnt rgn.region) 0 new
          else insertSorted new.base new.size rgn.cnt rgn.region) j =
          insertSorted new.base new.size rgn.cnt rgn.region j := by
        split
        · exact update_of_ne (by tauto) _ _
        · rfl
      rw [hj, hr j]
      by_cases h1 : j < p
      · rw [if_pos h1, if_pos h1]
      rw [if_neg h1, if_neg h1]
      by_cases h2 : j = p
      · rw [if_pos h2, if_pos (by lia)]
      · rw [if_neg h2, if_neg (by lia), if_pos (by lia)]
    by_cases hjc : j < rgn.cnt + 1
    swap
    · rw [if_neg (by lia), if_neg hjc, if_neg hjc]
    rw [if_pos hjc, if_pos hjc]
    have hz1 := hr 0
    by_cases h0 : p = 0
    · have hfirst := hlow 0 (by lia) hc
      simp only [h0, if_false, ne_eq, not_true_eq_false, false_and, lt_irrefl] at hz1
      by_cases hj : j = 0
      · simp [h0, hj, hz1, hfirst]
      · rw [if_neg (fun h => hj h.1)]
        exact congrArg some (hreg _ rfl hjc (by lia) (by lia)).symm
    · rw [if_pos (Nat.pos_of_ne_zero h0)] at hz1
      rw [if_neg h0]
      by_cases hb : j = 0 ∧ new.base < (rgn.region 0).base
      · simp [hb.1, hb.2, hz1]
      · rw [if_neg hb]
        rw [← hz1] at hb
        exact congrArg some (hreg _ rfl hjc hb (by lia)).symm

variable {x' : LmbProperty}

/-- The part of `lmb_add_region` after an entry has taken the range in. -/
theorem addRegionTail_grown (base size : ℕ) (h : rgn.entries = l ++ x' :: r)
    (hc : rgn.cnt ≤ maxLmbRegions) (hf : ∀ y ∈ rgn.entries, y.Fits abi) :
    (∃ rgn', addRegionTail abi rgn base size l.length 1 = some (1, rgn') ∧
      rgn'.entries = l ++ x' :: r ∧ ∀ y ∈ r.head?, ¬x'.Touches y) ∨
    (∃ y r' rgn', r = y :: r' ∧ x'.Touches y ∧
      addRegionTail abi rgn base size l.length 1 = some (2, rgn') ∧
      rgn'.entries = l ++ ⟨x'.base, x'.size + y.size⟩ :: r') := by
  obtain ⟨hlen, hpred⟩ := cnt_split abi h hc
  have hx := entries_region h
  cases r with
  | nil =>
    left
    refine ⟨rgn, ?_, h, by simp⟩
    simp [addRegionTail, hpred]
  | cons y r' =>
    have h' : rgn.entries = (l ++ [x']) ++ y :: r' := by simpa using h
    have hy : rgn.region (l.length + 1) = y := by simpa using entries_region h'
    have hfx : x'.Fits abi := hf x' (by simp [h])
    have hfy : y.Fits abi := hf y (by simp [h])
    have hadj : lmbRegionsAdjacent abi rgn l.length (l.length + 1) ≠ 0 ↔ x'.Touches y := by
      rw [lmbRegionsAdjacent, hx, hy]
      exact adjacent_ne_zero hfx hfy
    by_cases ht : x'.Touches y
    · right
      have hsum : abi.add x'.size y.size = x'.size + y.size := by
        apply abi.add_of_lt
        unfold LmbProperty.Touches LmbProperty.Fits LmbProperty.stop at *
        lia
      have hset : (rgn.set l.length ⟨x'.base, x'.size + y.size⟩).entries =
          (l ++ [⟨x'.base, x'.size + y.size⟩]) ++ y :: r' := by
        simpa using entries_set h ⟨x'.base, x'.size + y.size⟩
      obtain ⟨rgn', hrm, he, -⟩ := lmbRemoveRegion_spec abi hset hc
      refine ⟨y, r', rgn', rfl, ht, ?_, by simpa using he⟩
      have hlt : l.length < abi.pred rgn.cnt := by
        rw [hpred, length_cons]
        lia
      have hcoal : lmbCoalesceRegions abi rgn l.length (l.length + 1) = some rgn' := by
        simpa [lmbCoalesceRegions, hx, hy, hsum] using hrm
      simp [addRegionTail, hlt, hadj.mpr ht, hcoal]
    · left
      refine ⟨rgn, ?_, h, by simpa using ht⟩
      have hno : ¬(l.length < abi.pred rgn.cnt ∧
          lmbRegionsAdjacent abi rgn l.length (l.length + 1) ≠ 0) := fun hh => ht (hadj.mp hh.2)
      simp only [addRegionTail, if_neg hno]
      simp

theorem grown_fits (hn : new.Fits abi) (hx : x.Fits abi) (h : Grown new x x') : x'.Fits abi := by
  unfold LmbProperty.Fits LmbProperty.stop at *
  rcases h with ⟨h, rfl⟩ | ⟨h, rfl⟩
  · unfold LmbProperty.stop at h
    simp only
    lia
  · unfold LmbProperty.stop at h
    simp only
    lia

theorem added_of_grown {rgn₁ : LmbRegion} (h : rgn.entries = l ++ x :: r) (h₁ : rgn₁.entries = l ++ x' :: r)
    (hc : rgn.cnt ≤ maxLmbRegions) (hn : new.Fits abi) (hf : ∀ y ∈ rgn.entries, y.Fits abi)
    (hl : ∀ y ∈ l, ¬new.Touches y) (hx : Grown new x x') :
    ∃ ret rgn', addRegionTail abi rgn₁ new.base new.size l.length 1 = some (ret, rgn') ∧
      Added new rgn.entries ret rgn'.entries := by
  have hc₁ : rgn₁.cnt ≤ maxLmbRegions := by
    have e1 := congrArg List.length h
    have e2 := congrArg List.length h₁
    simp only [entries_length, length_append, length_cons] at e1 e2
    lia
  have hf₁ : ∀ y ∈ rgn₁.entries, y.Fits abi := by
    intro y hy
    rw [h₁, mem_append, mem_cons] at hy
    rcases hy with hy | rfl | hy
    · exact hf y (by simp [h, hy])
    · exact grown_fits hn (hf x (by simp [h])) hx
    · exact hf y (by simp [h, hy])
  obtain ⟨rgn', ht, he, hr⟩ | ⟨y, r', rgn', rfl, hty, ht, he⟩ :=
    addRegionTail_grown new.base new.size h₁ hc₁ hf₁
  · exact ⟨1, rgn', ht, h ▸ he ▸ .grow l x x' r hl hx hr⟩
  · exact ⟨2, rgn', ht, h ▸ he ▸ .bridge l x x' y r' hl hx hty⟩

/-- `lmb_add_region` on a table with at least one entry. -/
theorem lmbAddRegion_added (h0 : 0 < rgn.cnt)
    (hc : rgn.cnt ≤ maxLmbRegions) (hn : new.Fits abi) (hf : ∀ y ∈ rgn.entries, y.Fits abi) :
    ∃ ret rgn', lmbAddRegion abi rgn new.base new.size = some (ret, rgn') ∧
      Added new rgn.entries ret rgn'.entries := by
  unfold lmbAddRegion
  by_cases hd : rgn.cnt = 1 ∧ (rgn.region 0).size = 0
  · rw [if_pos hd]
    have he : rgn.entries = [] ++ rgn.region 0 :: [] := by simp [LmbRegion.entries, hd.1]
    have hs := entries_set he new
    refine ⟨0, rgn.set 0 new, rfl, ?_⟩
    rw [he]
    simp only [nil_append, length_nil] at hs ⊢
    rw [hs]
    exact .dummy _ hd.2
  rw [if_neg hd]
  have hfind := findCoalesce_spec hn rgn.cnt 0 rgn.entries
    (by rw [LmbRegion.entries, range_eq_range']) hf
  cases hr : findCoalesce abi rgn new.base new.size rgn.cnt 0 with
  | same =>
    rw [hr] at hfind
    exact ⟨0, rgn, rfl, .same _ hfind⟩
  | front j =>
    rw [hr] at hfind
    obtain ⟨l, x, r, he, hj, hl, hx⟩ := hfind
    obtain rfl : j = l.length := by lia
    have hreg := entries_region he
    have hfx : x.Fits abi := hf x (by simp [he])
    have hsub : abi.sub x.base new.size = new.base := by
      unfold LmbProperty.Fits LmbProperty.stop at *
      rw [abi.sub_of_le (by lia) (by lia)]
      lia
    have hadd : abi.add x.size new.size = x.size + new.size := by
      apply abi.add_of_lt
      unfold LmbProperty.Fits LmbProperty.stop at *
      lia
    simp only [hreg, hsub, hadd]
    exact added_of_grown he (entries_set he _) hc hn hf hl (.inl ⟨hx, rfl⟩)
  | back j =>
    rw [hr] at hfind
    obtain ⟨l, x, r, he, hj, hl, hx⟩ := hfind
    obtain rfl : j = l.length := by lia
    have hreg := entries_region he
    have hadd : abi.add x.size new.size = x.size + new.size := by
      apply abi.add_of_lt
      unfold LmbProperty.Fits LmbProperty.stop at *
      lia
    simp only [hreg, hadd]
    exact added_of_grown he (entries_set he _) hc hn hf hl (.inr ⟨hx, rfl⟩)
  | none =>
    rw [hr] at hfind
    have hbig := abi.long_large
    have hm : maxLmbRegions = 8 := rfl
    have hpred : ¬rgn.cnt < abi.pred rgn.cnt := by
      obtain ⟨n, hn⟩ : ∃ n, rgn.cnt = n + 1 := ⟨rgn.cnt - 1, by lia⟩
      rw [hn, abi.pred_succ (by lia)]
      lia
    by_cases hfull : maxLmbRegions ≤ rgn.cnt
    · refine ⟨-1, rgn, by simp [addRegionTail, hpred, hfull], .full _ ?_⟩
      rw [entries_length]
      lia
    · obtain ⟨l, r, he, hrr, hll, hins⟩ := insert_entries rgn new h0
      refine ⟨0, _, by simp only [addRegionTail, hpred, false_and, if_false, hfull]; rfl, ?_⟩
      rw [hins, he]
      refine .insert l r (he ▸ hfind.1) (he ▸ hfind.2) hrr hll ?_
      rw [← he, entries_length]
      lia

end UBoot.Lmb
