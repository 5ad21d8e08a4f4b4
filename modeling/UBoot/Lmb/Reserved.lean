import UBoot.Lmb.Table

/-!
# The set of reserved addresses

A table whose entries are non-empty, in order and never next to each other tracks a set of addresses
exactly. The calls keep such a table, unless they add to the empty one that freeing the last range
leaves.
-/

namespace UBoot.Lmb

open List

/-- The first range ends before the second and does not touch it. -/
def LmbProperty.Apart (x y : LmbProperty) : Prop := x.stop < y.base

/-- The addresses of a list of ranges. -/
def covered (es : List LmbProperty) : Set ℕ := {a | ∃ x ∈ es, x.Covers a}

variable {es : List LmbProperty} {a : ℕ}

theorem mem_covered : a ∈ covered es ↔ ∃ x ∈ es, x.Covers a := Iff.rfl

variable {l r : List LmbProperty}

theorem mem_covered_append : a ∈ covered (l ++ r) ↔ a ∈ covered l ∨ a ∈ covered r := by
  simp only [mem_covered, mem_append, or_and_right, exists_or]

variable {x : LmbProperty}

theorem mem_covered_split : a ∈ covered (l ++ x :: r) ↔ a ∈ covered l ∨ x.Covers a ∨ a ∈ covered r := by
  rw [mem_covered_append]
  simp only [mem_covered, mem_cons, exists_eq_or_imp]

theorem covers_base (h : 0 < x.size) : x.Covers x.base := by
  unfold LmbProperty.Covers LmbProperty.stop
  lia

/-- A table in order: no entry is empty, and the entries are apart. -/
structure InOrder (abi : Abi) (es : List LmbProperty) : Prop where
  pos : ∀ x ∈ es, 0 < x.size
  fits : ∀ x ∈ es, x.Fits abi
  apart : es.Pairwise LmbProperty.Apart

variable {abi : Abi}

theorem inOrder_split :
    InOrder abi (l ++ x :: r) ↔ InOrder abi l ∧ InOrder abi r ∧ 0 < x.size ∧ x.Fits abi ∧
      (∀ y ∈ l, y.Apart x) ∧ (∀ z ∈ r, x.Apart z) ∧ ∀ y ∈ l, ∀ z ∈ r, y.Apart z := by
  constructor
  · rintro ⟨hp, hf, ha⟩
    obtain ⟨hal, har, hx⟩ := pairwise_append.mp ha
    obtain ⟨hxr, hrr⟩ := pairwise_cons.mp har
    refine ⟨⟨fun y hy => hp y (by simp [hy]), fun y hy => hf y (by simp [hy]), hal⟩,
      ⟨fun y hy => hp y (by simp [hy]), fun y hy => hf y (by simp [hy]), hrr⟩,
      hp x (by simp), hf x (by simp), fun y hy => hx y hy x (by simp), hxr,
      fun y hy z hz => hx y hy z (by simp [hz])⟩
  · rintro ⟨⟨hlp, hlf, hla⟩, ⟨hrp, hrf, hra⟩, hx, hxf, hlx, hxr, hlr⟩
    refine ⟨fun y hy => ?_, fun y hy => ?_, ?_⟩
    · rcases mem_append.mp hy with hy | hy
      · exact hlp y hy
      · rcases mem_cons.mp hy with rfl | hy
        · exact hx
        · exact hrp y hy
    · rcases mem_append.mp hy with hy | hy
      · exact hlf y hy
      · rcases mem_cons.mp hy with rfl | hy
        · exact hxf
        · exact hrf y hy
    · refine pairwise_append.mpr ⟨hla, pairwise_cons.mpr ⟨hxr, hra⟩, fun y hy z hz => ?_⟩
      exact (forall_mem_cons.mpr ⟨hlx y hy, hlr y hy⟩) z hz

/-- Two entries that cover addresses next to each other are one entry. -/
theorem inOrder_same (h : InOrder abi es) {y : LmbProperty} (hx : x ∈ es) (hy : y ∈ es) {b : ℕ}
    (ha : x.Covers a) (hb : y.Covers b) (hab : a ≤ b) (hba : b ≤ a + 1) : x = y := by
  by_contra hne
  have hap : x.Apart y ∨ y.Apart x := by
    have hor : es.Pairwise fun u v => u.Apart v ∨ v.Apart u := h.apart.imp .inl
    have hsymm : Std.Symm fun u v : LmbProperty => u.Apart v ∨ v.Apart u := ⟨fun _ _ => Or.symm⟩
    exact hor.forall hx hy hne
  unfold LmbProperty.Covers LmbProperty.Apart at *
  rcases hap with h | h
  · lia
  · lia

variable {base size : ℕ}

/-- A range whose addresses are all covered lies in one entry. -/
theorem inOrder_holds (h : InOrder abi es)
    (hs : 0 < size) (hc : ∀ a, base ≤ a → a < base + size → a ∈ covered es) :
    ∃ x ∈ es, x.base ≤ base ∧ base + size ≤ x.stop := by
  obtain ⟨x, hx, hxb⟩ := hc base le_rfl (by lia)
  have hall : ∀ n, n < size → x.Covers (base + n) := by
    intro n
    induction n with
    | zero => exact fun _ => hxb
    | succ n ih =>
      intro hn
      have hxn := ih (by lia)
      obtain ⟨y, hy, hyc⟩ := hc (base + (n + 1)) (by lia) (by lia)
      rw [inOrder_same h hx hy hxn hyc (by lia) (by lia)]
      exact hyc
  have hlast := hall (size - 1) (by lia)
  unfold LmbProperty.Covers at hxb hlast
  exact ⟨x, hx, hxb.1, by lia⟩

variable {new : LmbProperty}

theorem apart_of_disjoint (hx : 0 < x.size) (hn : 0 < new.size)
    (hd : ∀ a, new.Covers a → ¬x.Covers a) : x.stop ≤ new.base ∨ new.stop ≤ x.base := by
  by_contra hc
  push Not at hc
  have h1 := hd (max x.base new.base)
  unfold LmbProperty.Covers LmbProperty.stop at *
  lia

theorem grown_covers {x' : LmbProperty} (h : Grown new x x') (a : ℕ) :
    x'.Covers a ↔ x.Covers a ∨ new.Covers a := by
  unfold LmbProperty.Covers LmbProperty.stop
  rcases h with ⟨h, rfl⟩ | ⟨h, rfl⟩
  · unfold LmbProperty.stop at h
    simp only
    lia
  · unfold LmbProperty.stop at h
    simp only
    lia

/-- A range that no entry meets lies on one side of each. -/
def Beside (new : LmbProperty) (es : List LmbProperty) : Prop :=
  ∀ y ∈ es, 0 < y.size ∧ (y.stop ≤ new.base ∨ new.stop ≤ y.base)

section Adding

variable {abi : Abi} {new x x' : LmbProperty} {l r : List LmbProperty}

theorem grow_inOrder (ho : InOrder abi (l ++ x :: r)) (hsep : Beside new (l ++ x :: r))
    (hf : new.Fits abi) (hl : ∀ y ∈ l, ¬new.Touches y) (hx : Grown new x x')
    (hr : ∀ y ∈ r.head?, ¬x'.Touches y) : InOrder abi (l ++ x' :: r) := by
  obtain ⟨hol, hor, hxp, hxf, hlx, hxr, hlr⟩ := inOrder_split.mp ho
  refine inOrder_split.mpr ⟨hol, hor, ?_, grown_fits hf hxf hx, ?_, ?_, hlr⟩
  · rcases hx with ⟨-, rfl⟩ | ⟨-, rfl⟩
    · exact Nat.add_pos_left hxp _
    · exact Nat.add_pos_left hxp _
  · intro y hy
    have h1 := hlx y hy
    have h2 := hsep y (by simp [hy])
    have h3 := hl y hy
    rcases hx with ⟨h, rfl⟩ | ⟨h, rfl⟩
    · unfold LmbProperty.Apart LmbProperty.Touches LmbProperty.stop at *
      simp only
      lia
    · exact h1
  · -- only the entry behind `x` can touch the grown entry
    cases r with
    | nil => simp
    | cons z r =>
      have hz := hr z (by simp)
      have h1 := hxr z (by simp)
      have h2 := hsep z (by simp)
      have hzx : x'.Apart z := by
        rcases hx with ⟨h, rfl⟩ | ⟨h, rfl⟩
        · unfold LmbProperty.Apart LmbProperty.stop at *
          simp only
          lia
        · unfold LmbProperty.Apart LmbProperty.Touches LmbProperty.stop at *
          simp only at hz ⊢
          lia
      refine forall_mem_cons.mpr ⟨hzx, fun w hw => ?_⟩
      have hzw := (pairwise_cons.mp hor.apart).1 w hw
      unfold LmbProperty.Apart LmbProperty.stop at *
      lia

variable {y : LmbProperty}

/-- When two entries are joined, the new range was the gap between them. -/
theorem bridge_gap (hxy : x.Apart y) (hy : 0 < y.size) (hn : 0 < new.size) (hx : Grown new x x')
    (ht : x'.Touches y) : x' = ⟨x.base, x.size + new.size⟩ ∧ new.base = x.stop ∧ y.base = new.stop := by
  rcases hx with ⟨h, rfl⟩ | ⟨h, rfl⟩
  · unfold LmbProperty.Apart LmbProperty.Touches LmbProperty.stop at *
    simp only at ht
    lia
  · refine ⟨rfl, h, ?_⟩
    unfold LmbProperty.Apart LmbProperty.Touches LmbProperty.stop at *
    simp only at ht
    lia

theorem bridge_inOrder (ho : InOrder abi (l ++ x :: y :: r)) (hb : new.base = x.stop)
    (hyb : y.base = new.stop) : InOrder abi (l ++ ⟨x.base, x.size + new.size + y.size⟩ :: r) := by
  obtain ⟨hol, hor, hxp, hxf, hlx, hxr, hlr⟩ := inOrder_split.mp ho
  obtain ⟨-, hor', hyp, hyf, -, hyr, -⟩ := (inOrder_split (l := [])).mp hor
  refine inOrder_split.mpr ⟨hol, hor', ?_, ?_, hlx, ?_, ?_⟩
  · exact Nat.add_pos_right _ hyp
  · unfold LmbProperty.Fits LmbProperty.stop at *
    simp only
    lia
  · intro w hw
    have h1 := hyr w hw
    unfold LmbProperty.Apart LmbProperty.stop at *
    simp only
    lia
  · exact fun u hu w hw => hlr u hu w (by simp [hw])

theorem bridge_covered (hb : new.base = x.stop) (hyb : y.base = new.stop)
    (a : ℕ) : a ∈ covered (l ++ ⟨x.base, x.size + new.size + y.size⟩ :: r) ↔
      a ∈ covered (l ++ x :: y :: r) ∨ new.Covers a := by
  have hcov : LmbProperty.Covers ⟨x.base, x.size + new.size + y.size⟩ a ↔
      x.Covers a ∨ new.Covers a ∨ y.Covers a := by
    unfold LmbProperty.Covers LmbProperty.stop at *
    simp only
    lia
  have hyr : a ∈ covered (y :: r) ↔ y.Covers a ∨ a ∈ covered r := by
    simp [covered]
  rw [mem_covered_split, mem_covered_split, hyr, hcov]
  simp only [or_comm, or_left_comm]

/-- The entries in front of the place found start below the new range, as the last
of them does. -/
theorem insert_front (ha : l.Pairwise LmbProperty.Apart) (hl : ∀ y ∈ l.getLast?, y.base ≤ new.base) :
    ∀ y ∈ l, y.base ≤ new.base := by
  intro y hy
  obtain ⟨l', z, rfl⟩ := eq_nil_or_concat l |>.resolve_left (ne_nil_of_mem hy)
  have hz := hl z (by simp)
  rw [concat_eq_append, mem_append, mem_singleton] at hy
  rcases hy with hy | rfl
  · rw [concat_eq_append] at ha
    have h1 := (pairwise_append.mp ha).2.2 y hy z (by simp)
    unfold LmbProperty.Apart LmbProperty.stop at h1
    lia
  · exact hz

theorem storeFirst_of_le (h : ∀ y ∈ l, y.base ≤ new.base) :
    storeFirst new (l ++ new :: r) = l ++ new :: r := by
  cases l with
  | nil => simp [storeFirst]
  | cons z l =>
    have hz := h z (by simp)
    rw [cons_append, storeFirst, if_neg (by lia)]

theorem insert_inOrder (ho : InOrder abi (l ++ r)) (hsep : Beside new (l ++ r)) (hn : 0 < new.size)
    (hf : new.Fits abi) (hnt : ∀ y ∈ l ++ r, ¬new.Touches y) (hr : ∀ y ∈ r, new.base < y.base)
    (hl : ∀ y ∈ l, y.base ≤ new.base) : InOrder abi (l ++ new :: r) := by
  obtain ⟨hal, har, hlr⟩ := pairwise_append.mp ho.apart
  refine inOrder_split.mpr ⟨?_, ?_, hn, hf, fun y hy => ?_, fun y hy => ?_, hlr⟩
  · exact ⟨fun y hy => ho.pos y (by simp [hy]), fun y hy => ho.fits y (by simp [hy]), hal⟩
  · exact ⟨fun y hy => ho.pos y (by simp [hy]), fun y hy => ho.fits y (by simp [hy]), har⟩
  · have h1 := hl y hy
    have h2 := hsep y (by simp [hy])
    have h3 := hnt y (by simp [hy])
    unfold LmbProperty.Apart LmbProperty.Touches LmbProperty.stop at *
    lia
  · have h1 := hr y hy
    have h2 := hsep y (by simp [hy])
    have h3 := hnt y (by simp [hy])
    unfold LmbProperty.Apart LmbProperty.Touches LmbProperty.stop at *
    lia

/-- What an add does to a table in order, for a range that is not covered. -/
theorem added_inOrder {es es' : List LmbProperty} {ret : ℤ} (h : Added new es ret es')
    (hret : 0 ≤ ret) (ho : InOrder abi es) (hn : 0 < new.size) (hf : new.Fits abi)
    (hd : ∀ a, new.Covers a → a ∉ covered es) :
    InOrder abi es' ∧ ∀ a, a ∈ covered es' ↔ a ∈ covered es ∨ new.Covers a := by
  have hsep : Beside new es := fun y hy =>
    ⟨ho.pos y hy, apart_of_disjoint (ho.pos y hy) hn fun a ha hya => hd a ha ⟨y, hy, hya⟩⟩
  cases h with
  | dummy x hx =>
    have hpos := ho.pos x (by simp)
    lia
  | same _ hmem => exact absurd ⟨new, hmem, covers_base hn⟩ (hd _ (covers_base hn))
  | full _ _ => lia
  | grow l x x' r hl hx hr =>
    refine ⟨grow_inOrder ho hsep hf hl hx hr, fun a => ?_⟩
    rw [mem_covered_split, mem_covered_split, grown_covers hx]
    simp only [or_comm, or_left_comm]
  | bridge l x x' y r hl hx hy =>
    obtain ⟨-, -, -, -, -, hxr, -⟩ := inOrder_split.mp ho
    obtain ⟨rfl, hb, hyb⟩ := bridge_gap (hxr y (by simp)) (ho.pos y (by simp)) hn hx hy
    exact ⟨bridge_inOrder ho hb hyb, bridge_covered hb hyb⟩
  | insert l r hnt hnew hr hl hlen =>
    have hlb := insert_front (pairwise_append.mp ho.apart).1 hl
    rw [storeFirst_of_le hlb]
    refine ⟨insert_inOrder ho hsep hn hf hnt hr hlb, fun a => ?_⟩
    rw [mem_covered_split, mem_covered_append]
    simp only [or_assoc, or_comm]

end Adding

variable {ret : ℤ}

theorem added_length {es' : List LmbProperty}
    (h : Added new es ret es') (hl : es.length ≤ maxLmbRegions) : es'.length ≤ maxLmbRegions := by
  cases h with
  | dummy x hx => exact hl
  | same _ hm => exact hl
  | full _ hf => exact hl
  | grow l x x' r _ _ _ => simpa using hl
  | bridge l x x' y r _ _ _ =>
    simp only [length_append, length_cons] at hl ⊢
    lia
  | insert l r _ _ _ _ hlen =>
    have hs : (storeFirst new (l ++ new :: r)).length = (l ++ r).length + 1 := by
      cases l with
      | nil => simp [storeFirst]
      | cons z l =>
        rw [cons_append, storeFirst]
        split
        · simp only [length_cons, length_append]
          lia
        · simp only [length_cons, length_append, cons_append]
          lia
    lia

variable {rgn : LmbRegion}

/-- Where the loop of `lmb_free` stops, on the list of entries from index `i` on. -/
theorem findHolder_spec {stop : ℕ} (n i : ℕ)
    (es : List LmbProperty) (hes : es = (List.range' i n).map rgn.region)
    (hf : ∀ x ∈ es, x.Fits abi) (hx : ∃ x ∈ es, x.base ≤ base ∧ stop ≤ x.stop) :
    ∃ l x r, es = l ++ x :: r ∧ findHolder abi rgn base stop n i = some (i + l.length) ∧
      x.base ≤ base ∧ stop ≤ x.stop := by
  induction n generalizing i es with
  | zero =>
    subst hes
    simp at hx
  | succ n ih =>
    have hcons : es = rgn.region i :: (List.range' (i + 1) n).map rgn.region := by
      rw [hes, range'_succ, map_cons]
    rw [hcons] at hf hx
    obtain ⟨hfx, hft⟩ := forall_mem_cons.mp hf
    simp only [findHolder, abi.add_fits hfx]
    by_cases hh : (rgn.region i).base ≤ base ∧ stop ≤ (rgn.region i).stop
    · exact ⟨[], rgn.region i, _, hcons, by rw [if_pos hh]; rfl, hh⟩
    · rw [if_neg hh]
      have hx' : ∃ x ∈ (List.range' (i + 1) n).map rgn.region, x.base ≤ base ∧ stop ≤ x.stop := by
        obtain ⟨x, hx, hxx⟩ := hx
        rcases mem_cons.mp hx with rfl | hx
        · exact absurd hxx hh
        · exact ⟨x, hx, hxx⟩
      obtain ⟨l, x, r, he, hr, hxx⟩ := ih (i + 1) _ rfl hft hx'
      refine ⟨rgn.region i :: l, x, r, by rw [hcons, he, cons_append], ?_, hxx⟩
      rw [hr, length_cons]
      congr 1
      lia

/-- An entry may shrink in place. -/
theorem inOrder_shrink {x' : LmbProperty} (h : InOrder abi (l ++ x :: r)) (hp : 0 < x'.size)
    (hb : x.base ≤ x'.base) (hs : x'.stop ≤ x.stop) : InOrder abi (l ++ x' :: r) := by
  obtain ⟨hol, hor, -, hxf, hlx, hxr, hlr⟩ := inOrder_split.mp h
  refine inOrder_split.mpr ⟨hol, hor, hp, lt_of_le_of_lt hs hxf, fun y hy => ?_, fun z hz => ?_, hlr⟩
  · exact lt_of_lt_of_le (hlx y hy) hb
  · exact lt_of_le_of_lt hs (hxr z hz)

theorem inOrder_remove (h : InOrder abi (l ++ x :: r)) : InOrder abi (l ++ r) := by
  refine ⟨fun y hy => h.pos y ?_, fun y hy => h.fits y ?_, h.apart.sublist ?_⟩
  · rcases mem_append.mp hy with hy | hy
    · simp [hy]
    · simp [hy]
  · rcases mem_append.mp hy with hy | hy
    · simp [hy]
    · simp [hy]
  · exact List.Sublist.append_left (sublist_cons_self x r) l

/-- The other entries cover nothing of an entry. -/
theorem inOrder_others
    (h : InOrder abi (l ++ x :: r)) (ha : x.Covers a) : a ∉ covered l ∧ a ∉ covered r := by
  obtain ⟨-, -, -, -, hlx, hxr, -⟩ := inOrder_split.mp h
  constructor
  · rintro ⟨y, hy, hya⟩
    have h1 := hlx y hy
    unfold LmbProperty.Covers LmbProperty.Apart at *
    lia
  · rintro ⟨z, hz, hza⟩
    have h1 := hxr z hz
    unfold LmbProperty.Covers LmbProperty.Apart at *
    lia

variable {gone : LmbProperty}

/-- The addresses left when a range is taken out of the entry `x`, in terms of what
covers the rest of it. -/
theorem covered_without
    (h : InOrder abi (l ++ x :: r)) (hg : ∀ a, gone.Covers a → x.Covers a) (a : ℕ) :
    a ∈ covered (l ++ x :: r) ∧ ¬gone.Covers a ↔
      a ∈ covered l ∨ (x.Covers a ∧ ¬gone.Covers a) ∨ a ∈ covered r := by
  rw [mem_covered_split]
  constructor
  · rintro ⟨ha | ha | ha, hn⟩
    · exact .inl ha
    · exact .inr (.inl ⟨ha, hn⟩)
    · exact .inr (.inr ha)
  · rintro (ha | ⟨ha, hn⟩ | ha)
    · exact ⟨.inl ha, fun hga => (inOrder_others h (hg a hga)).1 ha⟩
    · exact ⟨.inr (.inl ha), hn⟩
    · exact ⟨.inr (.inr ha), fun hga => (inOrder_others h (hg a hga)).2 ha⟩

/- The ways in which `lmb_free` takes a range with the computed end `stop` out of the entry `x`, which
stands between `l` and `r` in the table. -/
inductive Freed (abi : Abi) (rgn : LmbRegion) (l : List LmbProperty) (x : LmbProperty)
    (r : List LmbProperty) (base size stop : ℕ) : ℤ → LmbRegion → Prop where
  | whole (rgn' : LmbRegion) (hb : x.base = base) (hs : x.stop = stop) (he : rgn'.entries = l ++ r)
      (hc : rgn'.cnt + 1 = rgn.cnt) : Freed abi rgn l x r base size stop 0 rgn'
  | front (hb : x.base = base) (hs : stop < x.stop) :
      Freed abi rgn l x r base size stop 0 (rgn.set l.length ⟨stop, abi.sub x.size size⟩)
  | back (hb : x.base < base) (hs : x.stop = stop) :
      Freed abi rgn l x r base size stop 0 (rgn.set l.length ⟨x.base, abi.sub x.size size⟩)
  | middle (ret : ℤ) (rgn' : LmbRegion) (hb : x.base < base) (hs : stop < x.stop)
      (hrun : lmbAddRegion abi (rgn.set l.length ⟨x.base, base - x.base⟩) stop (x.stop - stop) =
        some (ret, rgn'))
      (hadd : Added ⟨stop, x.stop - stop⟩ (l ++ ⟨x.base, base - x.base⟩ :: r) ret rgn'.entries) :
      Freed abi rgn l x r base size stop ret rgn'

theorem freeRegion_held (he : rgn.entries = l ++ x :: r) (hc : rgn.cnt ≤ maxLmbRegions)
    (hf : ∀ y ∈ rgn.entries, y.Fits abi) (hbase : base < 2 ^ abi.physBits)
    (hfind : findHolder abi rgn base (abi.add base size) rgn.cnt 0 = some l.length)
    (hxb : x.base ≤ base) (hxs : abi.add base size ≤ x.stop) :
    ∃ ret rgn', freeRegion abi rgn base size = some (ret, rgn') ∧
      Freed abi rgn l x r base size (abi.add base size) ret rgn' := by
  have hxf : x.Fits abi := hf x (by simp [he])
  have hreg := entries_region he
  simp only [freeRegion, hfind, hreg, abi.add_fits hxf]
  by_cases hall : x.base = base ∧ x.stop = abi.add base size
  · -- the whole entry goes
    rw [if_pos hall]
    obtain ⟨rgn', hrm, he', hcnt⟩ := lmbRemoveRegion_spec abi he hc
    exact ⟨0, rgn', by rw [hrm]; rfl, .whole rgn' hall.1 hall.2 he' hcnt⟩
  rw [if_neg hall]
  by_cases hfront : x.base = base
  · rw [if_pos hfront]
    exact ⟨0, _, rfl, .front hfront (by lia)⟩
  rw [if_neg hfront]
  by_cases hback : x.stop = abi.add base size
  · rw [if_pos hback]
    exact ⟨0, _, rfl, .back (by lia) hback⟩
  -- the entry keeps its front, its back is added again
  rw [if_neg hback, abi.sub_of_le hbase hxb, abi.sub_of_le hxf hxs]
  have h0 : 0 < rgn.cnt := by
    rw [← entries_length, he]
    simp
  have hset : (rgn.set l.length ⟨x.base, base - x.base⟩).entries =
      l ++ ⟨x.base, base - x.base⟩ :: r := entries_set he _
  have hnewf : LmbProperty.Fits abi ⟨abi.add base size, x.stop - abi.add base size⟩ := by
    unfold LmbProperty.Fits LmbProperty.stop at *
    simp only
    lia
  have hfits : ∀ y ∈ (rgn.set l.length ⟨x.base, base - x.base⟩).entries, y.Fits abi := by
    intro y hy
    rw [hset, mem_append, mem_cons] at hy
    rcases hy with hy | rfl | hy
    · exact hf y (by simp [he, hy])
    · unfold LmbProperty.Fits LmbProperty.stop
      simp only
      lia
    · exact hf y (by simp [he, hy])
  obtain ⟨ret, rgn', hrun, hadd⟩ := @lmbAddRegion_added abi
    (rgn.set l.length ⟨x.base, base - x.base⟩) ⟨abi.add base size, x.stop - abi.add base size⟩
    h0 hc hnewf hfits
  rw [hset] at hadd
  exact ⟨ret, rgn', hrun, .middle ret rgn' (by lia) (by lia) hrun hadd⟩

theorem freed_inOrder {rgn' : LmbRegion} (he : rgn.entries = l ++ x :: r) (ho : InOrder abi rgn.entries)
    (hxb : x.base ≤ gone.base) (hxs : gone.stop ≤ x.stop)
    (h : Freed abi rgn l x r gone.base gone.size gone.stop ret rgn') (hret : 0 ≤ ret) :
    InOrder abi rgn'.entries ∧
      ∀ a, a ∈ covered rgn'.entries ↔ a ∈ covered rgn.entries ∧ ¬gone.Covers a := by
  have hxf : x.Fits abi := ho.fits x (by simp [he])
  have hsub : ∀ a, gone.Covers a → x.Covers a := by
    intro a ha
    unfold LmbProperty.Covers LmbProperty.stop at *
    lia
  have hgone : gone.stop = gone.base + gone.size := rfl
  have hxstop : x.stop = x.base + x.size := rfl
  have hxlt : x.stop < 2 ^ abi.physBits := hxf
  have hsz : abi.sub x.size gone.size = x.size - gone.size := abi.sub_of_le (by lia) (by lia)
  rw [he] at ho ⊢
  have hleft := covered_without ho hsub
  cases h with
  | whole _ hb hs he' _ =>
    rw [he']
    refine ⟨inOrder_remove ho, fun a => ?_⟩
    have hx : ¬(x.Covers a ∧ ¬gone.Covers a) := by
      unfold LmbProperty.Covers at *
      lia
    rw [hleft a, mem_covered_append, or_iff_right hx]
  | front hb hs =>
    rw [entries_set he, hsz]
    have hstop : LmbProperty.stop ⟨gone.stop, x.size - gone.size⟩ = x.stop := by
      unfold LmbProperty.stop at *
      simp only
      lia
    refine ⟨inOrder_shrink ho (show 0 < x.size - gone.size by lia) (show x.base ≤ gone.stop by lia)
      hstop.le, fun a => ?_⟩
    have hx : LmbProperty.Covers ⟨gone.stop, x.size - gone.size⟩ a ↔ x.Covers a ∧ ¬gone.Covers a := by
      unfold LmbProperty.Covers
      rw [hstop]
      simp only
      lia
    rw [hleft a, mem_covered_split, hx]
  | back hb hs =>
    rw [entries_set he, hsz]
    have hstop : LmbProperty.stop ⟨x.base, x.size - gone.size⟩ = gone.base := by
      unfold LmbProperty.stop at *
      simp only
      lia
    refine ⟨inOrder_shrink ho (show 0 < x.size - gone.size by lia) le_rfl (by lia), fun a => ?_⟩
    have hx : LmbProperty.Covers ⟨x.base, x.size - gone.size⟩ a ↔ x.Covers a ∧ ¬gone.Covers a := by
      unfold LmbProperty.Covers
      rw [hstop]
      simp only
      lia
    rw [hleft a, mem_covered_split, hx]
  | middle _ _ hb hs _ hadd =>
    have ho' : InOrder abi (l ++ ⟨x.base, gone.base - x.base⟩ :: r) := by
      refine inOrder_shrink ho (show 0 < gone.base - x.base by lia) le_rfl ?_
      unfold LmbProperty.stop at *
      simp only
      lia
    have hbf : LmbProperty.Fits abi ⟨gone.stop, x.stop - gone.stop⟩ := by
      unfold LmbProperty.Fits
      rw [show LmbProperty.stop ⟨gone.stop, x.stop - gone.stop⟩ = x.stop from Nat.add_sub_cancel' hxs]
      exact hxlt
    have hfb : ∀ a, LmbProperty.Covers ⟨x.base, gone.base - x.base⟩ a ∨
        LmbProperty.Covers ⟨gone.stop, x.stop - gone.stop⟩ a ↔ x.Covers a ∧ ¬gone.Covers a := by
      intro a
      unfold LmbProperty.Covers LmbProperty.stop at *
      simp only
      lia
    have hd : ∀ a, LmbProperty.Covers ⟨gone.stop, x.stop - gone.stop⟩ a →
        a ∉ covered (l ++ ⟨x.base, gone.base - x.base⟩ :: r) := by
      intro a ha
      obtain ⟨hla, hra⟩ := inOrder_others ho ((hfb a).mp (.inr ha)).1
      rw [mem_covered_split]
      have hno : ¬LmbProperty.Covers ⟨x.base, gone.base - x.base⟩ a := by
        unfold LmbProperty.Covers LmbProperty.stop at *
        simp only at ha ⊢
        lia
      rintro (h | h | h)
      · exact hla h
      · exact hno h
      · exact hra h
    obtain ⟨hord, hcov⟩ := added_inOrder hadd hret ho' (show 0 < x.stop - gone.stop by lia) hbf hd
    refine ⟨hord, fun a => ?_⟩
    rw [hcov a, mem_covered_split, hleft a, ← hfb a]
    simp only [or_assoc, or_comm]

theorem freed_cnt {rgn' : LmbRegion}
    {stop : ℕ} (he : rgn.entries = l ++ x :: r) (hc : rgn.cnt ≤ maxLmbRegions)
    (h : Freed abi rgn l x r base size stop ret rgn') : rgn'.cnt ≤ maxLmbRegions := by
  cases h with
  | whole _ _ _ _ hcnt => lia
  | front => exact hc
  | back => exact hc
  | middle _ _ hb hs _ hadd =>
    have hlen := added_length hadd (by rw [← entries_set he, entries_length]; exact hc)
    rwa [entries_length] at hlen

/-- `lmb_free` of a range inside one entry. A split is an add, and fails when the
table is full. -/
theorem freeRegion_inOrder (ho : InOrder abi rgn.entries) (hc : rgn.cnt ≤ maxLmbRegions)
    (hp : 0 < gone.size) (hf : gone.Fits abi) (hin : ∀ a, gone.Covers a → a ∈ covered rgn.entries) :
    ∃ ret rgn', freeRegion abi rgn gone.base gone.size = some (ret, rgn') ∧
      rgn'.cnt ≤ maxLmbRegions ∧ (0 ≤ ret → InOrder abi rgn'.entries ∧
        ∀ a, a ∈ covered rgn'.entries ↔ a ∈ covered rgn.entries ∧ ¬gone.Covers a) := by
  have hholds := inOrder_holds ho hp fun a h1 h2 => hin a ⟨h1, h2⟩
  obtain ⟨l, x, r, he, hfind, hxb, hxs⟩ := findHolder_spec rgn.cnt 0 rgn.entries
    (by rw [LmbRegion.entries, range_eq_range']) ho.fits hholds
  have hstop : abi.add gone.base gone.size = gone.base + gone.size := abi.add_fits hf
  have hbase : gone.base < 2 ^ abi.physBits := (Nat.le_add_right _ _).trans_lt hf
  rw [Nat.zero_add, ← hstop] at hfind
  rw [← hstop] at hxs
  obtain ⟨ret, rgn', hfree, hfreed⟩ := freeRegion_held he hc ho.fits hbase hfind hxb hxs
  have hcnt := freed_cnt he hc hfreed
  rw [hstop] at hfreed hxs
  exact ⟨ret, rgn', hfree, hcnt, freed_inOrder he ho hxb hxs hfreed⟩

end UBoot.Lmb
