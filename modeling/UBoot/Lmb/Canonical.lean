import UBoot.Lmb.Accepts
import UBoot.Lmb.Tracking

/-!
# The memory table as a canonical form

A table in order is determined by the addresses it covers. A range that ends at the top of the
address space is taken for a neighbour of a range at 0.
-/

namespace UBoot.Lmb

open List

section Unique

variable {abi : Abi} {es es' : List LmbProperty} {x : LmbProperty}

theorem inOrder_tail (h : InOrder abi (x :: es)) : InOrder abi es ∧ 0 < x.size ∧ ∀ y, y ∈ es → x.Apart y :=
  ⟨⟨fun y hy => h.pos y (mem_cons_of_mem x hy), fun y hy => h.fits y (mem_cons_of_mem x hy),
    (pairwise_cons.mp h.apart).2⟩, h.pos x mem_cons_self, (pairwise_cons.mp h.apart).1⟩

theorem inOrder_head (h : InOrder abi (x :: es)) {a : ℕ} (ha : a ∈ covered (x :: es)) :
    x.base ≤ a ∧ a ≠ x.stop := by
  obtain ⟨-, -, hapart⟩ := inOrder_tail h
  obtain ⟨y, hy, hcov⟩ := ha
  have hstop : x.stop = x.base + x.size := rfl
  unfold LmbProperty.Covers at hcov
  rcases mem_cons.mp hy with rfl | hy
  · exact ⟨hcov.1, by lia⟩
  · have h1 := hapart y hy
    unfold LmbProperty.Apart at h1
    exact ⟨by lia, by lia⟩

theorem covered_head (es : List LmbProperty) (h : 0 < x.size) : x.base ∈ covered (x :: es) :=
  ⟨x, mem_cons_self, covers_base h⟩

theorem inOrder_head_le {y : LmbProperty} (h : InOrder abi (x :: es)) (h' : InOrder abi (y :: es'))
    (hc : covered (x :: es) = covered (y :: es')) : x.base ≤ y.base ∧ (x.base = y.base → x.stop ≤ y.stop) := by
  obtain ⟨-, hx, -⟩ := inOrder_tail h
  obtain ⟨-, hy, -⟩ := inOrder_tail h'
  have hystop : y.stop = y.base + y.size := rfl
  refine ⟨(inOrder_head h (hc ▸ covered_head es' hy)).1, fun hbase => ?_⟩
  by_contra hlt
  -- the address behind the shorter one of the two is covered by the longer one
  have hmem : y.stop ∈ covered (x :: es) := ⟨x, mem_cons_self, by lia, by lia⟩
  exact (inOrder_head h' (hc ▸ hmem)).2 rfl

theorem covered_tail (h : InOrder abi (x :: es)) (hc : covered (x :: es) = covered (x :: es')) :
    covered es ⊆ covered es' := by
  intro a ha
  obtain ⟨z, hz, hza⟩ := ha
  have hmem : a ∈ covered (x :: es') := hc ▸ ⟨z, mem_cons_of_mem x hz, hza⟩
  obtain ⟨w, hw, hwa⟩ := hmem
  rcases mem_cons.mp hw with rfl | hw
  · have h1 := (inOrder_tail h).2.2 z hz
    unfold LmbProperty.Apart LmbProperty.Covers at *
    lia
  · exact ⟨w, hw, hwa⟩

theorem inOrder_unique (h : InOrder abi es) (h' : InOrder abi es') (hc : covered es = covered es') :
    es = es' := by
  induction es generalizing es' with
  | nil =>
    cases es' with
    | nil => rfl
    | cons y es' =>
      have hmem := covered_head es' (inOrder_tail h').2.1
      rw [← hc] at hmem
      obtain ⟨z, hz, -⟩ := hmem
      cases hz
  | cons x es ih =>
    cases es' with
    | nil =>
      have hmem := covered_head es (inOrder_tail h).2.1
      rw [hc] at hmem
      obtain ⟨z, hz, -⟩ := hmem
      cases hz
    | cons y es' =>
      obtain ⟨hle, hstop⟩ := inOrder_head_le h h' hc
      obtain ⟨hge, hstop'⟩ := inOrder_head_le h' h hc.symm
      have hbase : x.base = y.base := by lia
      have hend : x.stop = y.stop := by
        lia
      obtain rfl : x = y := by
        obtain ⟨b, s⟩ := x
        obtain ⟨b', s'⟩ := y
        unfold LmbProperty.stop at hend
        simp only at hbase hend
        rw [hbase, show s = s' by lia]
      rw [ih (inOrder_tail h).1 (inOrder_tail h').1
        (Set.Subset.antisymm (covered_tail h hc) (covered_tail h' hc.symm))]

theorem inOrder_insert (h : InOrder abi es) (hx : 0 < x.size) (hf : x.Fits abi)
    (hd : ∀ a, x.Covers a → a ∉ covered es) (hnt : ∀ y, y ∈ es → ¬ x.Touches y) :
    ∃ es', InOrder abi es' ∧ (∀ a, a ∈ covered es' ↔ a ∈ covered es ∨ x.Covers a) ∧
      es'.length = es.length + 1 := by
  have hsplit : ∃ l r, es = l ++ r ∧ (∀ y, y ∈ r → x.base < y.base) ∧ ∀ y, y ∈ l → y.base ≤ x.base := by
    clear hd hnt
    induction es with
    | nil => exact ⟨[], [], rfl, by simp, by simp⟩
    | cons y es ih =>
      obtain ⟨htail, -, hapart⟩ := inOrder_tail h
      by_cases hy : y.base ≤ x.base
      · obtain ⟨l, r, rfl, hr, hl⟩ := ih htail
        exact ⟨y :: l, r, rfl, hr, forall_mem_cons.mpr ⟨hy, hl⟩⟩
      · refine ⟨[], y :: es, rfl, forall_mem_cons.mpr ⟨by lia, fun z hz => ?_⟩, by simp⟩
        have h1 := hapart z hz
        unfold LmbProperty.Apart LmbProperty.stop at h1
        lia
  obtain ⟨l, r, rfl, hr, hl⟩ := hsplit
  have hbeside : Beside x (l ++ r) := fun y hy =>
    ⟨h.pos y hy, apart_of_disjoint (h.pos y hy) hx fun a ha hya => hd a ha ⟨y, hy, hya⟩⟩
  refine ⟨l ++ x :: r, insert_inOrder h hbeside hx hf hnt hr hl, fun a => ?_, ?_⟩
  · rw [mem_covered_split, mem_covered_append]
    simp only [or_assoc, or_comm]
  · rw [length_append, length_append, length_cons]
    lia

end Unique

/- `lmb_add` of one range after the other. -/
def addAll (abi : Abi) (lmb : LmbState) : List LmbProperty → Option LmbState
  | [] => some lmb
  | x :: rest =>
    match lmbAdd abi lmb x.base x.size with
    | none => none
    | some (_, lmb') => addAll abi lmb' rest

/- The ranges added so far can be held in a table of `MAX_LMB_REGIONS` entries at every point. -/
def NeverOverflows (ranges : List LmbProperty) : Prop :=
  ∀ added, added <+: ranges → ∃ es : List LmbProperty, (∀ x ∈ es, 0 < x.size) ∧
    es.Pairwise LmbProperty.Apart ∧ covered es = covered added ∧ es.length ≤ maxLmbRegions

/- No range ends at the top of the address space, or none begins at 0. -/
def Clear (abi : Abi) (ranges : List LmbProperty) : Prop :=
  (∀ x ∈ ranges, x.stop ≠ 2 ^ abi.physBits) ∨ ∀ x ∈ ranges, x.base ≠ 0

/- Sorted by base, disjoint, not adjacent, and covering `S`. -/
structure Canonical (es : List LmbProperty) (S : Set ℕ) : Prop where
  sorted : es.Pairwise fun x y => x.base < y.base
  disjoint : es.Pairwise fun x y => ∀ a, x.Covers a → ¬ y.Covers a
  separate : es.Pairwise fun x y => ¬ x.Touches y
  union : covered es = S

section Wider

/- One bit more, so that no range wraps. -/
def Abi.wider (abi : Abi) : Abi :=
  ⟨abi.physBits + 1, abi.longBits, abi.long_ge, abi.long_le.trans (Nat.le_succ _)⟩

/- The ranges for which the additions of the table code do not wrap. -/
structure Unwrapped (abi : Abi) (es : List LmbProperty) : Prop where
  pos : ∀ x ∈ es, 0 < x.size
  within : ∀ x ∈ es, x.stop ≤ 2 ^ abi.physBits
  clear : Clear abi es

variable {abi : Abi} {es : List LmbProperty} {x y : LmbProperty} {rgn : LmbRegion}

theorem Unwrapped.mono {es' : List LmbProperty} (h : Unwrapped abi es) (hsub : es' ⊆ es) :
    Unwrapped abi es' :=
  ⟨fun x hx => h.pos x (hsub hx), fun x hx => h.within x (hsub hx),
    h.clear.imp (fun hx x hmem => hx x (hsub hmem)) fun hx x hmem => hx x (hsub hmem)⟩

theorem Unwrapped.fits (h : Unwrapped abi es) (hx : x ∈ es) : x.Fits abi.wider := by
  have hw : 2 ^ abi.wider.physBits = 2 * 2 ^ abi.physBits := Nat.pow_succ'
  have hpos := Nat.two_pow_pos abi.physBits
  have hle := h.within x hx
  unfold LmbProperty.Fits
  lia

theorem Unwrapped.next_iff (h : Unwrapped abi es) (hx : x ∈ es) (hy : y ∈ es) :
    y.base = abi.add x.base x.size ↔ y.base = x.stop := by
  have hle := h.within x hx
  have hyle := h.within y hy
  have hypos := h.pos y hy
  have hstop : x.stop = x.base + x.size := rfl
  unfold LmbProperty.stop at hyle
  rw [Abi.add, ← hstop]
  rcases Nat.lt_or_eq_of_le hle with hlt | htop
  · rw [Nat.mod_eq_of_lt hlt]
  · have hbase : y.base ≠ 0 := (h.clear.resolve_left fun hne => hne x hx htop) y hy
    rw [htop, Nat.mod_self]
    lia

theorem Unwrapped.adjacent (h : Unwrapped abi es) (hx : x ∈ es) (hy : y ∈ es) :
    lmbAddrsAdjacent abi.wider x.base x.size y.base y.size =
      lmbAddrsAdjacent abi x.base x.size y.base y.size := by
  simp only [lmbAddrsAdjacent, h.next_iff hx hy, h.next_iff hy hx, abi.wider.add_fits (h.fits hx),
    abi.wider.add_fits (h.fits hy)]

theorem Unwrapped.touching (h : Unwrapped abi es) (hx : x ∈ es) (hy : y ∈ es) (ht : y.base = x.stop) :
    x.size + y.size < 2 ^ abi.physBits ∧ Unwrapped abi (⟨x.base, x.size + y.size⟩ :: es) := by
  have hxpos := h.pos x hx
  have hyle := h.within y hy
  have hstop : (LmbProperty.mk x.base (x.size + y.size)).stop = y.stop := by
    unfold LmbProperty.stop at *
    lia
  refine ⟨?_, forall_mem_cons.mpr ⟨?_, h.pos⟩, forall_mem_cons.mpr ⟨hstop ▸ hyle, h.within⟩, ?_⟩
  · rcases h.clear with htop | hzero
    · have hne := htop y hy
      unfold LmbProperty.stop at *
      lia
    · have hne := hzero x hx
      unfold LmbProperty.stop at *
      lia
  · change 0 < x.size + y.size
    lia
  · exact h.clear.imp (fun htop => forall_mem_cons.mpr ⟨hstop ▸ htop y hy, htop⟩)
      fun hzero => forall_mem_cons.mpr ⟨hzero x hx, hzero⟩

theorem pred_cnt (abi : Abi) (h0 : 0 < rgn.cnt) (hc : rgn.cnt ≤ maxLmbRegions) :
    abi.pred rgn.cnt = rgn.cnt - 1 := by
  obtain ⟨n, hn⟩ := Nat.exists_eq_succ_of_ne_zero h0.ne'
  have hbig := abi.long_large
  have hm : maxLmbRegions = 8 := rfl
  rw [hn, Nat.succ_eq_add_one, abi.pred_succ (by lia), Nat.add_sub_cancel]

theorem add_wider {m n : ℕ} (h : m + n < 2 ^ abi.physBits) : abi.wider.add m n = abi.add m n := by
  have hle : 2 ^ abi.physBits ≤ 2 ^ abi.wider.physBits :=
    Nat.pow_le_pow_right (by decide) (Nat.le_succ _)
  rw [abi.add_of_lt h, abi.wider.add_of_lt (h.trans_le hle)]

theorem addRegionTail_wider (h0 : 0 < rgn.cnt) (hc : rgn.cnt ≤ maxLmbRegions)
    (h : Unwrapped abi rgn.entries) (base size i : ℕ) (coalesced : ℤ) :
    addRegionTail abi.wider rgn base size i coalesced = addRegionTail abi rgn base size i coalesced := by
  have hpred : abi.wider.pred rgn.cnt = abi.pred rgn.cnt := rfl
  unfold addRegionTail
  rw [hpred]
  by_cases hi : i < abi.pred rgn.cnt
  · rw [pred_cnt abi h0 hc] at hi
    have hx : rgn.region i ∈ rgn.entries := mem_entries.mpr ⟨i, by lia, rfl⟩
    have hy : rgn.region (i + 1) ∈ rgn.entries := mem_entries.mpr ⟨i + 1, by lia, rfl⟩
    have hadj : lmbRegionsAdjacent abi.wider rgn i (i + 1) = lmbRegionsAdjacent abi rgn i (i + 1) :=
      h.adjacent hx hy
    rw [hadj]
    by_cases htouch : lmbRegionsAdjacent abi rgn i (i + 1) ≠ 0
    · have hlt : (rgn.region i).size + (rgn.region (i + 1)).size < 2 ^ abi.physBits := by
        rw [← hadj] at htouch
        rcases (adjacent_ne_zero (h.fits hx) (h.fits hy)).mp htouch with ht | ht
        · exact (h.touching hx hy ht).1
        · rw [Nat.add_comm]
          exact (h.touching hy hx ht).1
      have hcoal : lmbCoalesceRegions abi.wider rgn i (i + 1) = lmbCoalesceRegions abi rgn i (i + 1) := by
        unfold lmbCoalesceRegions
        dsimp only
        rw [add_wider hlt]
        rfl
      rw [hcoal]
    · simp only [htouch, and_false, if_false]
  · simp only [hi, false_and, if_false]

theorem findCoalesce_wider {new : LmbProperty} (n i : ℕ)
    (h : Unwrapped abi (new :: (range' i n).map rgn.region)) :
    findCoalesce abi.wider rgn new.base new.size n i = findCoalesce abi rgn new.base new.size n i := by
  induction n generalizing i with
  | zero => rfl
  | succ n ih =>
    rw [range'_succ, map_cons] at h
    have hadj := h.adjacent mem_cons_self (mem_cons_of_mem _ mem_cons_self)
    simp only [findCoalesce, hadj]
    rw [ih (i + 1) (h.mono (cons_subset_cons _ (subset_cons_self _ _)))]

/- In ranges that do not wrap, `lmb_add_region` is the same as with one bit more. -/
theorem lmbAddRegion_wider {new : LmbProperty} (h0 : 0 < rgn.cnt) (hc : rgn.cnt ≤ maxLmbRegions)
    (h : (∃ x, rgn.entries = [x] ∧ x.size = 0) ∨ Unwrapped abi (new :: rgn.entries)) :
    lmbAddRegion abi.wider rgn new.base new.size = lmbAddRegion abi rgn new.base new.size := by
  unfold lmbAddRegion
  by_cases hd : rgn.cnt = 1 ∧ (rgn.region 0).size = 0
  · rw [if_pos hd, if_pos hd]
  replace h := h.resolve_left fun ⟨x, he, hx⟩ => hd ⟨by rw [← entries_length, he]; rfl, by
    rw [show rgn.region 0 = x from entries_region (l := []) he, hx]⟩
  rw [if_neg hd, if_neg hd, findCoalesce_wider _ _ (by rw [← range_eq_range']; exact h)]
  have htail := h.mono (subset_cons_self _ _)
  have hnew : new.Fits abi.wider := h.fits mem_cons_self
  have hfind := findCoalesce_spec hnew rgn.cnt 0 rgn.entries
    (by rw [LmbRegion.entries, range_eq_range']) fun x hx => h.fits (mem_cons_of_mem _ hx)
  rw [findCoalesce_wider _ _ (by rw [← range_eq_range']; exact h)] at hfind
  cases hr : findCoalesce abi rgn new.base new.size rgn.cnt 0 with
  | same => rfl
  | front j =>
    rw [hr] at hfind
    obtain ⟨l, x, r, he, hj, -, hx⟩ := hfind
    obtain rfl : j = l.length := by lia
    have hmem : x ∈ rgn.entries := he ▸ mem_append_right l mem_cons_self
    obtain ⟨hlt, hgrown⟩ := h.touching mem_cons_self (mem_cons_of_mem _ hmem) hx
    have hle := htail.within x hmem
    have hpos := htail.pos x hmem
    rw [Nat.add_comm] at hlt hgrown
    unfold LmbProperty.stop at hx hle
    have hw : 2 ^ abi.wider.physBits = 2 * 2 ^ abi.physBits := Nat.pow_succ'
    simp only [entries_region he]
    rw [add_wider hlt, abi.sub_of_le (by lia) (by lia), abi.wider.sub_of_le (by lia) (by lia),
      abi.add_of_lt hlt]
    refine @addRegionTail_wider abi (rgn.set _ _) h0 hc ?_ _ _ _ _
    rw [entries_set he, show x.base - new.size = new.base by lia]
    exact hgrown.mono (by simp [he, subset_def]; tauto)
  | back j =>
    rw [hr] at hfind
    obtain ⟨l, x, r, he, hj, -, hx⟩ := hfind
    obtain rfl : j = l.length := by lia
    have hmem : x ∈ rgn.entries := he ▸ mem_append_right l mem_cons_self
    obtain ⟨hlt, hgrown⟩ := h.touching (mem_cons_of_mem _ hmem) mem_cons_self hx
    simp only [entries_region he]
    rw [add_wider hlt, abi.add_of_lt hlt]
    refine @addRegionTail_wider abi (rgn.set _ _) h0 hc ?_ _ _ _ _
    rw [entries_set he]
    exact hgrown.mono (by simp [he, subset_def]; tauto)
  | none => exact addRegionTail_wider h0 hc htail _ _ _ _

end Wider

section Adding

variable {abi : Abi} {lmb : LmbState}

theorem InOrder.canonical {es : List LmbProperty} (h : InOrder abi es) : Canonical es (covered es) := by
  refine ⟨h.apart.imp fun {x y} hxy => ?_, h.apart.imp fun {x y} hxy a hx hy => ?_, ?_, rfl⟩
  · unfold LmbProperty.Apart LmbProperty.stop at hxy
    lia
  · unfold LmbProperty.Apart LmbProperty.Covers at *
    lia
  · refine (List.Pairwise.and_mem.mp h.apart).imp fun {x y} hxy htouch => ?_
    have hpos := h.pos y hxy.2.1
    unfold LmbProperty.Apart LmbProperty.Touches LmbProperty.stop at *
    lia

theorem lmbAdd_tracks {S : Set ℕ} {x : LmbProperty} (ht : TableOk abi lmb.memory)
    (h : Tracks abi lmb.memory S) (hx : 0 < x.size) (hf : x.Fits abi) (hd : ∀ a, x.Covers a → a ∉ S)
    (hroom : ∃ es, InOrder abi es ∧ (∀ a, a ∈ covered es ↔ a ∈ S ∨ x.Covers a) ∧
      es.length ≤ maxLmbRegions) :
    ∃ ret lmb', lmbAdd abi lmb x.base x.size = some (ret, lmb') ∧ TableOk abi lmb'.memory ∧
      Tracks abi lmb'.memory (S ∪ Set.Ico x.base x.stop) := by
  obtain ⟨⟨ret, rgn⟩, hadd⟩ := lmbAddRegion_returns abi ht.pos ht.bound x.base x.size
  have hok := (tableOk_add ht hf hadd).1
  have hret : 0 ≤ ret := by
    by_contra hneg
    have hrefused : ¬ Accepts lmb.memory.entries x := fun haccept =>
      hneg (lmbAddRegion_accepts ht hf haccept hadd)
    have hfull : maxLmbRegions ≤ lmb.memory.entries.length := by
      by_contra hlt
      exact hrefused (.inl (by lia))
    -- the table in order with the range in it would need one entry more
    obtain ⟨es, hes, hcov, hlen⟩ := hroom
    rcases h.table with ho | ⟨y, he, -, -⟩
    · have hd' : ∀ a, x.Covers a → a ∉ covered lmb.memory.entries := by
        intro a ha
        rw [← h.union]
        exact hd a ha
      obtain ⟨es', hes', hcov', hlen'⟩ := inOrder_insert ho hx hf hd' fun y hy htouch =>
        hrefused (.inr (.inr ⟨y, hy, htouch⟩))
      have hsame : es = es' := inOrder_unique hes hes' (Set.ext fun a => by rw [hcov, hcov', h.union])
      rw [hsame] at hlen
      lia
    · rw [he, length_singleton] at hfull
      exact absurd hfull (by decide)
  exact ⟨ret, { lmb with memory := rgn }, by rw [lmbAdd, hadd, Option.map_some], hok,
    tracks_add x h hx hf hd (.inl ht.pos) hadd hret⟩

theorem Unwrapped.covered {added es : List LmbProperty} {x : LmbProperty} (h : Unwrapped abi added)
    (hx : x ∈ added) (hpos : ∀ y ∈ es, 0 < y.size) (hcov : ∀ a, a ∈ covered es → a ∈ covered added) :
    Unwrapped abi (x :: es) := by
  have hlast : ∀ y ∈ es, ∃ z ∈ added, y.stop ≤ z.stop := by
    intro y hy
    have hsize := hpos y hy
    obtain ⟨z, hz, hza⟩ := hcov (y.stop - 1) ⟨y, hy, by unfold LmbProperty.stop; lia,
      by unfold LmbProperty.stop; lia⟩
    exact ⟨z, hz, by have := hza.2; lia⟩
  refine ⟨forall_mem_cons.mpr ⟨h.pos x hx, hpos⟩, forall_mem_cons.mpr ⟨h.within x hx, fun y hy => ?_⟩, ?_⟩
  · obtain ⟨z, hz, hle⟩ := hlast y hy
    exact hle.trans (h.within z hz)
  · refine h.clear.imp (fun htop => forall_mem_cons.mpr ⟨htop x hx, fun y hy hy' => ?_⟩)
      fun hzero => forall_mem_cons.mpr ⟨hzero x hx, fun y hy hy' => ?_⟩
    · obtain ⟨z, hz, hle⟩ := hlast y hy
      exact htop z hz (le_antisymm (h.within z hz) (hy' ▸ hle))
    · obtain ⟨z, hz, hza⟩ := hcov y.base ⟨y, hy, covers_base (hpos y hy)⟩
      exact hzero z hz (Nat.le_zero.mp (hy' ▸ hza.1))

theorem addAll_tracks {added rest : List LmbProperty} (ht : TableOk abi.wider lmb.memory)
    (h : Tracks abi.wider lmb.memory (covered added)) (hun : Unwrapped abi (added ++ rest))
    (hd : (added ++ rest).Pairwise fun x y => ∀ a, x.Covers a → ¬ y.Covers a)
    (hroom : NeverOverflows (added ++ rest)) :
    ∃ lmb', addAll abi lmb rest = some lmb' ∧ Tracks abi.wider lmb'.memory (covered (added ++ rest)) := by
  induction rest generalizing added lmb with
  | nil =>
    refine ⟨lmb, rfl, ?_⟩
    rw [append_nil]
    exact h
  | cons x rest ih =>
    have happ : added ++ x :: rest = (added ++ [x]) ++ rest := by simp
    have hx : x ∈ added ++ x :: rest := mem_append_right added mem_cons_self
    have hunion : ∀ a, a ∈ covered (added ++ [x]) ↔ a ∈ covered added ∨ x.Covers a := by
      intro a
      rw [mem_covered_append]
      simp [covered]
    have hsub : ∀ a, a ∈ covered (added ++ [x]) → a ∈ covered (added ++ x :: rest) := by
      intro a ha
      rw [happ, mem_covered_append]
      exact .inl ha
    have hclear : ∀ a, x.Covers a → a ∉ covered added := by
      rintro a hxa ⟨y, hy, hya⟩
      exact (pairwise_append.mp hd).2.2 y hy x mem_cons_self a hya hxa
    obtain ⟨es, hpos, hapart, hcov, hlen⟩ := hroom (added ++ [x]) (by rw [happ]; exact prefix_append _ _)
    have hes : InOrder abi.wider es := ⟨hpos, fun y hy => (hun.covered hx hpos fun a ha =>
      hsub a (hcov ▸ ha)).fits (mem_cons_of_mem x hy), hapart⟩
    obtain ⟨ret, lmb', hadd, ht', h'⟩ := lmbAdd_tracks ht h (hun.pos x hx) (hun.fits hx) hclear
      ⟨es, hes, fun a => by rw [hcov, hunion], hlen⟩
    have hcode : lmbAdd abi lmb x.base x.size = some (ret, lmb') := by
      rw [← hadd, lmbAdd, lmbAdd, lmbAddRegion_wider ht.pos ht.bound]
      rcases h.table with ho | ⟨y, he, hy, -⟩
      · exact .inr (hun.covered hx ho.pos fun a ha => hsub a ((hunion a).mpr (.inl ((h.union a).mpr ha))))
      · exact .inl ⟨y, he, hy⟩
    have hset : covered added ∪ Set.Ico x.base x.stop = covered (added ++ [x]) :=
      Set.ext fun a => (hunion a).symm
    rw [hset] at h'
    rw [happ] at hun hd hroom ⊢
    rw [addAll, hcode]
    exact ih ht' h' hun hd hroom

end Adding

/- The two orders leave the same table, which is canonical. -/
def SameTable (abi : Abi) (lmb : LmbState) (ranges order : List LmbProperty) : Prop :=
  ∃ t t', addAll abi (lmbInit lmb) ranges = some t ∧ addAll abi (lmbInit lmb) order = some t' ∧
    t.memory.entries = t'.memory.entries ∧ Canonical t.memory.entries (covered ranges)

theorem addAll_init {abi : Abi} (lmb : LmbState) {ranges : List LmbProperty} (hun : Unwrapped abi ranges)
    (hdisjoint : ranges.Pairwise fun x y => ∀ a, x.Covers a → ¬ y.Covers a)
    (hroom : NeverOverflows ranges) :
    ∃ t, addAll abi (lmbInit lmb) ranges = some t ∧ Tracks abi.wider t.memory (covered ranges) := by
  have hempty : covered [] = ∅ := by simp [covered]
  have hinit : Tracks abi.wider (lmbInit lmb).memory (covered []) := hempty ▸ tracks_init _ lmb.memory
  exact @addAll_tracks abi _ [] _ (tableOk_init _ lmb.memory) hinit hun hdisjoint hroom

theorem sameTable {abi : Abi} {lmb : LmbState} {ranges order : List LmbProperty}
    (hperm : ranges.Perm order) (hun : Unwrapped abi ranges)
    (hdisjoint : ranges.Pairwise fun x y => ∀ a, x.Covers a → ¬ y.Covers a)
    (hroom : NeverOverflows ranges) (hroom' : NeverOverflows order) : SameTable abi lmb ranges order := by
  have hcov : covered order = covered ranges := by
    ext a
    simp only [mem_covered, hperm.mem_iff]
  have hdisjoint' : order.Pairwise fun x y => ∀ a, x.Covers a → ¬ y.Covers a :=
    hperm.pairwise hdisjoint fun hxy a hy hx => hxy a hx hy
  obtain ⟨t, ht, htracks⟩ := addAll_init lmb hun hdisjoint hroom
  obtain ⟨t', ht', htracks'⟩ := addAll_init lmb (hun.mono hperm.symm.subset) hdisjoint' hroom'
  have hunion : covered t.memory.entries = covered ranges := Set.ext fun a => (htracks.union a).symm
  have hunion' : covered t'.memory.entries = covered ranges :=
    (Set.ext fun a => (htracks'.union a).symm).trans hcov
  refine ⟨t, t', ht, ht', ?_⟩
  cases ranges with
  | nil =>
    obtain rfl := nil_perm.mp hperm
    obtain rfl := Option.some.inj ht
    obtain rfl := Option.some.inj ht'
    have he : (lmbInit lmb).memory.entries = [⟨0, 0⟩] := by simp [lmbInit, initRegion, LmbRegion.entries]
    refine ⟨rfl, ?_, ?_, ?_, hunion⟩
    · rw [he]
      exact pairwise_singleton _ _
    · rw [he]
      exact pairwise_singleton _ _
    · rw [he]
      exact pairwise_singleton _ _
  | cons x ranges =>
    have hnonempty : x.base ∈ covered (x :: ranges) := covered_head ranges (hun.pos x mem_cons_self)
    -- a table that covers something is not the dummy one
    have horder : ∀ {t : LmbState} {S : Set ℕ}, Tracks abi.wider t.memory S →
        covered t.memory.entries = covered (x :: ranges) → InOrder abi.wider t.memory.entries := by
      intro t S h hc
      rcases h.table with ho | ⟨y, he, hy, -⟩
      · exact ho
      · rw [← hc, he] at hnonempty
        obtain ⟨z, hz, hcov⟩ := hnonempty
        rw [mem_singleton.mp hz] at hcov
        unfold LmbProperty.Covers LmbProperty.stop at hcov
        lia
    have ho := horder htracks hunion
    exact ⟨inOrder_unique ho (horder htracks' hunion') (hunion.trans hunion'.symm), hunion ▸ ho.canonical⟩

section Top

variable {abi : Abi} {lmb : LmbState}

theorem addAll_append {t : LmbState} {l r : List LmbProperty} (h : addAll abi lmb l = some t) :
    addAll abi lmb (l ++ r) = addAll abi t r := by
  induction l generalizing lmb with
  | nil => rw [Option.some.inj h, nil_append]
  | cons x l ih =>
    rw [addAll] at h
    rw [cons_append, addAll]
    cases hx : lmbAdd abi lmb x.base x.size with
    | none => simp [hx] at h
    | some r => exact ih (by simpa [hx] using h)

theorem addRegionTail_bases {rgn rgn' : LmbRegion} {base size : ℕ} {ret : ℤ} (h0 : 0 < rgn.cnt)
    (hc : rgn.cnt ≤ maxLmbRegions) (h : ∀ x ∈ rgn.entries, x.base ≠ 0)
    (htail : addRegionTail abi rgn base size 0 1 = some (ret, rgn')) :
    ∀ x ∈ rgn'.entries, x.base ≠ 0 := by
  unfold addRegionTail at htail
  split at htail
  next hi =>
    rw [pred_cnt abi h0 hc] at hi
    obtain ⟨x, y, r, he⟩ : ∃ x y r, rgn.entries = x :: y :: r := by
      have hlen := entries_length rgn
      rcases hes : rgn.entries with _ | ⟨x, _ | ⟨y, r⟩⟩
      · rw [hes, length_nil] at hlen
        lia
      · rw [hes, length_singleton] at hlen
        lia
      · exact ⟨x, y, r, rfl⟩
    have hx : rgn.region 0 = x := entries_region (l := []) he
    have hset := entries_set (l := []) he ⟨x.base, abi.add x.size (rgn.region 1).size⟩
    obtain ⟨rgn₁, hrm, he₁, -⟩ := lmbRemoveRegion_spec abi (l := [_]) (r := r) hset hc
    have hcoal : lmbCoalesceRegions abi rgn 0 (0 + 1) = some rgn₁ := by
      rw [← hrm, ← hx]
      rfl
    rw [hcoal] at htail
    obtain ⟨-, rfl⟩ := Prod.mk.inj (Option.some.inj htail)
    rw [he] at h
    rw [he₁]
    exact forall_mem_cons.mpr ⟨(forall_mem_cons.mp h).1, (forall_mem_cons.mp (forall_mem_cons.mp h).2).2⟩
  next _ =>
    rw [if_pos (by decide)] at htail
    obtain ⟨-, rfl⟩ := Prod.mk.inj (Option.some.inj htail)
    exact h

/- A range at the top is added to the entry that begins at 0, which then begins with the range. -/
theorem lmbAdd_top {x : LmbProperty} {t : LmbState} {ret : ℤ} (ho : InOrder abi.wider lmb.memory.entries)
    (h0 : 0 ∈ covered lmb.memory.entries) (hc : lmb.memory.cnt ≤ maxLmbRegions)
    (hx : x.stop = 2 ^ abi.physBits) (hxs : 0 < x.size) (hxb : x.base ≠ 0)
    (hlast : lmbAdd abi lmb x.base x.size = some (ret, t)) : 0 ∉ covered t.memory.entries := by
  obtain ⟨⟨_, rgn'⟩, hadd, hret⟩ := Option.map_eq_some_iff.mp hlast
  obtain ⟨rfl, rfl⟩ := Prod.mk.inj hret
  obtain ⟨e, es, he⟩ : ∃ e es, lmb.memory.entries = e :: es := by
    obtain ⟨f, hf, -⟩ := h0
    exact exists_cons_of_ne_nil (ne_nil_of_mem hf)
  rw [he] at ho h0
  obtain ⟨-, hsize, hapart⟩ := inOrder_tail ho
  have hbase : e.base = 0 := Nat.le_zero.mp (inOrder_head ho h0).1
  have hcnt : lmb.memory.cnt = es.length + 1 := by rw [← entries_length, he, length_cons]
  have hreg : lmb.memory.region 0 = e := entries_region (l := []) he
  unfold LmbProperty.stop at hx
  have hwrap : abi.add x.base x.size = 0 := by rw [Abi.add, hx, Nat.mod_self]
  have hsub : abi.sub 0 x.size = x.base := by
    rw [Abi.sub, show 0 + 2 ^ abi.physBits - x.size = x.base by lia, Nat.mod_eq_of_lt (by lia)]
  have hfind : findCoalesce abi lmb.memory x.base x.size (es.length + 1) 0 = .front 0 := by
    rw [findCoalesce, hreg, hbase, if_neg fun h => hxb h.1.symm, lmbAddrsAdjacent, hwrap, if_pos rfl,
      if_pos Int.one_pos]
  unfold lmbAddRegion at hadd
  rw [hreg, if_neg fun h => hsize.ne' h.2, hcnt, hfind] at hadd
  dsimp only at hadd
  rw [hreg, hbase, hsub] at hadd
  have hset := entries_set (l := []) he ⟨x.base, abi.add e.size x.size⟩
  have hbases := @addRegionTail_bases abi (lmb.memory.set 0 _) _ _ _ _ (by rw [set_cnt]; lia) hc (by
    rw [show (lmb.memory.set 0 _).entries = _ from hset]
    refine forall_mem_cons.mpr ⟨hxb, fun f hf => ?_⟩
    have hlt := hapart f hf
    unfold LmbProperty.Apart at hlt
    lia) hadd
  rintro ⟨f, hf, hcov⟩
  exact hbases f hf (Nat.le_zero.mp hcov.1)

end Top

/-- Ranges that are disjoint, not empty and do not wrap leave the same canonical memory table in
every order in which the table never overflows, if none of them ends at the top of the address space
or none begins at 0; otherwise some order leaves another table. -/
theorem lmb_add_canonical_iff (abi : Abi) (lmb : LmbState) (ranges : List LmbProperty)
    (hpos : ∀ x ∈ ranges, 0 < x.size ∧ x.size < 2 ^ abi.physBits)
    (hwithin : ∀ x ∈ ranges, x.stop ≤ 2 ^ abi.physBits)
    (hdisjoint : ranges.Pairwise fun x y => ∀ a, x.Covers a → ¬ y.Covers a) :
    (Clear abi ranges → ∀ order, ranges.Perm order → NeverOverflows ranges → NeverOverflows order →
      SameTable abi lmb ranges order) ∧
    ((∀ order, ranges.Perm order → NeverOverflows order) →
      ((∀ order, ranges.Perm order → SameTable abi lmb ranges order) ↔ Clear abi ranges)) := by
  have hsame : Clear abi ranges → ∀ order, ranges.Perm order → NeverOverflows ranges →
      NeverOverflows order → SameTable abi lmb ranges order := fun hclear order hperm =>
    sameTable hperm ⟨fun x hx => (hpos x hx).1, hwithin, hclear⟩ hdisjoint
  refine ⟨hsame, fun hroom => ⟨fun hall => ?_, fun hclear order hperm =>
    hsame hclear order hperm (hroom _ (.refl _)) (hroom order hperm)⟩⟩
  by_contra hclear
  unfold Clear at hclear
  push Not at hclear
  obtain ⟨⟨x, hx, htop⟩, y, hy, hzero⟩ := hclear
  obtain ⟨hxs, hxw⟩ := hpos x hx
  have hys := (hpos y hy).1
  have hxstop : x.stop = x.base + x.size := rfl
  -- the range at the top comes last
  have hperm : ranges.Perm (ranges.erase x ++ [x]) :=
    (perm_cons_erase hx).trans (perm_append_singleton x _).symm
  obtain ⟨hrest, -, hapart⟩ := pairwise_append.mp
    (hperm.pairwise hdisjoint fun hzw a hw hz => hzw a hz hw)
  have hun : Unwrapped abi (ranges.erase x) := by
    refine ⟨fun z hz => (hpos z (mem_of_mem_erase hz)).1, fun z hz => hwithin z (mem_of_mem_erase hz),
      .inl fun z hz hz' => ?_⟩
    have hzs := (hpos z (mem_of_mem_erase hz)).1
    have hzstop : z.stop = z.base + z.size := rfl
    exact hapart z hz x (mem_singleton_self x) (2 ^ abi.physBits - 1) ⟨by lia, by lia⟩ ⟨by lia, by lia⟩
  obtain ⟨t₁, hadd₁, htracks⟩ := addAll_init lmb hun hrest fun added hadded =>
    hroom _ hperm added (hadded.trans (prefix_append _ _))
  have hye : y ∈ ranges.erase x := (mem_erase_of_ne fun h => by rw [h] at hzero; lia).mpr hy
  have h0 : 0 ∈ covered t₁.memory.entries :=
    (htracks.union 0).mp ⟨y, hye, hzero.le, by unfold LmbProperty.stop; lia⟩
  have ho : InOrder abi.wider t₁.memory.entries := htracks.table.resolve_right fun ⟨d, he, hd, _⟩ => by
    rw [he] at h0
    obtain ⟨z, hz, hcov⟩ := h0
    rw [mem_singleton.mp hz] at hcov
    unfold LmbProperty.Covers LmbProperty.stop at hcov
    lia
  obtain ⟨t, t', -, hadd', heq, hcanon⟩ := hall _ hperm
  rw [addAll_append hadd₁, addAll] at hadd'
  cases hlast : lmbAdd abi t₁ x.base x.size with
  | none => simp [hlast] at hadd'
  | some r =>
    rw [hlast] at hadd'
    refine lmbAdd_top ho h0 htracks.bound htop hxs (by lia) hlast ?_
    rw [Option.some.inj hadd', ← heq, hcanon.union]
    exact ⟨y, hy, hzero.le, by unfold LmbProperty.stop; lia⟩

theorem neverOverflows_separate {ranges : List LmbProperty} (hpos : ∀ x ∈ ranges, 0 < x.size)
    (hsep : ranges.Pairwise fun x y => x.Apart y ∨ y.Apart x) (hlen : ranges.length ≤ maxLmbRegions) :
    NeverOverflows ranges := by
  intro added hstart
  have : Std.Total fun x y : LmbProperty => x.base ≤ y.base := ⟨fun x y => Nat.le_total x.base y.base⟩
  have : IsTrans LmbProperty fun x y => x.base ≤ y.base := ⟨fun x y z => Nat.le_trans⟩
  have hperm := perm_insertionSort (fun x y : LmbProperty => x.base ≤ y.base) added
  refine ⟨_, fun x hx => hpos x (hstart.subset (hperm.mem_iff.mp hx)), ?_,
    Set.ext fun a => by simp only [mem_covered, hperm.mem_iff], ?_⟩
  · have hapart := hperm.symm.pairwise (hsep.sublist hstart.sublist) Or.symm
    refine ((pairwise_insertionSort _ added).and hapart).imp fun {x y} hxy => hxy.2.resolve_right ?_
    unfold LmbProperty.Apart LmbProperty.stop
    lia
  · rw [hperm.length_eq]
    exact hstart.length_le.trans hlen

/- A bank that ends at the top of the address space with another one, and with one at 0. -/
theorem lmb_add_canonical_top :
    (∀ order, [⟨0xf0000000, 0x10000000⟩, ⟨0x80000000, 0x1000⟩].Perm order →
      SameTable arm32 zeroLmb [⟨0xf0000000, 0x10000000⟩, ⟨0x80000000, 0x1000⟩] order) ∧
    ¬∀ order, [⟨0xf0000000, 0x10000000⟩, ⟨0x80000000, 0x1000⟩, ⟨0, 0x1000⟩].Perm order →
      SameTable arm32 zeroLmb [⟨0xf0000000, 0x10000000⟩, ⟨0x80000000, 0x1000⟩, ⟨0, 0x1000⟩] order := by
  have hnever : ∀ {ranges : List LmbProperty}, (∀ x ∈ ranges, 0 < x.size) →
      (ranges.Pairwise fun x y => x.Apart y ∨ y.Apart x) → ranges.length ≤ maxLmbRegions →
      ∀ order, ranges.Perm order → NeverOverflows order := fun hpos hsep hlen order hperm =>
    neverOverflows_separate (fun x hx => hpos x (hperm.mem_iff.mpr hx))
      (hperm.pairwise hsep Or.symm) (hperm.length_eq ▸ hlen)
  have hdisjoint : ∀ {ranges : List LmbProperty}, (ranges.Pairwise fun x y => x.Apart y ∨ y.Apart x) →
      ranges.Pairwise fun x y => ∀ a, x.Covers a → ¬ y.Covers a := fun hsep => hsep.imp fun hxy a hx hy => by
    unfold LmbProperty.Apart LmbProperty.Covers at *
    lia
  have htwo : [⟨0xf0000000, 0x10000000⟩, ⟨0x80000000, 0x1000⟩].Pairwise
      fun x y : LmbProperty => x.Apart y ∨ y.Apart x := by
    unfold LmbProperty.Apart
    decide
  have hthree : [⟨0xf0000000, 0x10000000⟩, ⟨0x80000000, 0x1000⟩, ⟨0, 0x1000⟩].Pairwise
      fun x y : LmbProperty => x.Apart y ∨ y.Apart x := by
    unfold LmbProperty.Apart
    decide
  constructor
  · exact ((lmb_add_canonical_iff arm32 zeroLmb _ (by decide) (by decide) (hdisjoint htwo)).2
      (hnever (by decide) htwo (by decide))).mpr (.inr (by decide))
  · rw [(lmb_add_canonical_iff arm32 zeroLmb _ (by decide) (by decide) (hdisjoint hthree)).2
      (hnever (by decide) hthree (by decide))]
    rintro (htop | hzero)
    · exact htop _ mem_cons_self rfl
    · exact hzero ⟨0, 0x1000⟩ (by decide) rfl

/- The table then holds one entry that begins at the upper range and counts both sizes. -/
theorem lmb_add_not_canonical :
    ¬∀ ranges : List LmbProperty, (∀ x ∈ ranges, 0 < x.size ∧ x.size < 2 ^ 32) →
      (∀ x ∈ ranges, x.stop ≤ 2 ^ 32) →
      (ranges.Pairwise fun x y => ∀ a, x.Covers a → ¬ y.Covers a) →
      (∀ order, ranges.Perm order → NeverOverflows order) →
      ∀ order, ranges.Perm order → SameTable arm32 zeroLmb ranges order := by
  intro hall
  have hsep : [⟨0xf0000000, 0x10000000⟩, ⟨0, 0x1000⟩].Pairwise
      fun x y : LmbProperty => x.Apart y ∨ y.Apart x := by
    unfold LmbProperty.Apart
    decide
  obtain ⟨t, t', ht, -, -, hcanon⟩ := hall [⟨0xf0000000, 0x10000000⟩, ⟨0, 0x1000⟩] (by decide)
    (by decide) (pairwise_pair.mpr fun a h h' => absurd (h.1.trans_lt h'.2) (by decide))
    (fun order hperm => neverOverflows_separate
      (fun x hx => (show ∀ x ∈ [⟨0xf0000000, 0x10000000⟩, ⟨0, 0x1000⟩], 0 < LmbProperty.size x by decide)
        x (hperm.mem_iff.mpr hx))
      (hperm.pairwise hsep Or.symm) (hperm.length_eq ▸ by decide)) _ (.refl _)
  have hentries : t.memory.entries = [⟨0xf0000000, 0x10001000⟩] := by
    rw [← Option.some.inj ht]
    rfl
  have hzero : 0 ∈ covered t.memory.entries := hcanon.union ▸ ⟨⟨0, 0x1000⟩, by decide, by decide⟩
  rw [hentries] at hzero
  obtain ⟨x, hx, hcov⟩ := hzero
  rw [mem_singleton.mp hx] at hcov
  exact absurd hcov (by decide)

end UBoot.Lmb
