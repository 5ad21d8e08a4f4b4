import UBoot.Fit.Marks

/-!
# Reading a nested block (lib/libfdt)

In a block that is nested up to its end the loops over tags return. `Rest fdt n offset` says that at
most `n` tags are left from `offset` on; each loop takes some of them.
-/

namespace UBoot.Fit

open Memory

/- At most `n` tags from `offset` to the end. -/
def Rest (fdt : Fdt) (n offset : ℕ) : Prop :=
  4 ∣ offset ∧ n ≤ fdt.sizeDtStruct + 1 ∧
    ∃ path nodes ms, marksFrom fdt n offset path nodes = some ms

section Rest

variable {fdt : Fdt} {n offset : ℕ}

theorem rest_marks {ms : List Mark} (h : marks fdt = some ms) : Rest fdt (fdt.sizeDtStruct + 1) 0 :=
  ⟨Nat.dvd_zero 4, Nat.le_refl _, [], [], ms, h⟩

theorem Rest.step (h : Rest fdt n offset) :
    ∃ k, n = k + 1 ∧ ∃ tag next, fdtNextTag fdt offset = (tag, next) ∧
      (tag = .fin ∧ next = fdt.sizeDtStruct ∨
        ∃ a : ℕ, next = a ∧ tag ≠ .fin ∧ offset < a ∧ Rest fdt k a) := by
  obtain ⟨hal, hn, path, nodes, ms, hms⟩ := h
  cases n with
  | zero => cases hms
  | succ k =>
    obtain ⟨m, rest, rfl, rfl, hnext, hrest⟩ := marksFrom_cons hms
    have hwhole := marksFrom_whole hms hal m List.mem_cons_self
    have hlong := hwhole.long
    obtain ⟨len, -, heq⟩ := hwhole.tagAt
    refine ⟨k, rfl, m.tag, m.next, hnext, ?_⟩
    cases hrest with
    | inl hfin =>
      obtain ⟨hfin, -, hsize⟩ := hfin
      exact .inl ⟨hfin, by rw [hsize]⟩
    | inr hmore =>
      obtain ⟨hne, path', nodes', hrest⟩ := hmore
      refine .inr ⟨m.next, rfl, hne, by lia, ?_, by lia, path', nodes', rest, hrest⟩
      rw [heq]
      exact tagAlign_dvd _

structure NodeAt (fdt : Fdt) (n : ℕ) (offset : ℤ) : Prop where
  nonneg : 0 ≤ offset
  rest : Rest fdt n offset.toNat
  tag : (fdtNextTag fdt offset.toNat).1 = .beginNode

structure PropAt (fdt : Fdt) (n : ℕ) (offset : ℤ) : Prop where
  nonneg : 0 ≤ offset
  rest : Rest fdt n offset.toNat
  tag : (fdtNextTag fdt offset.toNat).1 = .prop

theorem NodeAt.check {node : ℤ} (h : NodeAt fdt n node) :
    ∃ k a : ℕ, n = k + 1 ∧ fdtNextTag fdt node.toNat = (.beginNode, (a : ℤ)) ∧
      fdtCheckNodeOffset fdt node = a ∧ Rest fdt k a := by
  obtain ⟨k, hk, tag, next, htag, hcase⟩ := h.rest.step
  have hbegin : tag = .beginNode := by rw [← h.tag, htag]
  rcases hcase with ⟨hfin, -⟩ | ⟨a, rfl, -, -, hrest⟩
  · rw [hbegin] at hfin
    cases hfin
  · have hal : node % 4 = 0 := by
      have hnat : ((node.toNat : ℕ) : ℤ) = node := Int.toNat_of_nonneg h.nonneg
      have hdvd := h.rest.1
      lia
    refine ⟨k, a, hk, by rw [htag, hbegin], ?_, hrest⟩
    rw [fdtCheckNodeOffset, htag, if_neg]
    intro hbad
    rcases hbad with hneg | hmis | hne
    · exact absurd h.nonneg (by lia)
    · exact hmis hal
    · exact hne hbegin

theorem nextNodeLoop_returns {fuel : ℕ} {depth : ℤ} (h : Rest fdt n offset) (hfuel : n ≤ fuel) :
    ∃ r d, nextNodeLoop fdt fuel offset depth = some (r, d) ∧
      (r < 0 ∨ d < 0 ∨ ∃ k ≤ n, NodeAt fdt k r) := by
  induction fuel generalizing n offset depth with
  | zero =>
    obtain ⟨k, hk, -⟩ := h.step
    lia
  | succ fuel ih =>
    obtain ⟨k, rfl, tag, next, htag, hcase⟩ := h.step
    have hnext : ∀ {d : ℤ}, tag ≠ .fin → ∃ r d', nextNodeLoop fdt fuel next.toNat d = some (r, d') ∧
        (r < 0 ∨ d' < 0 ∨ ∃ k' ≤ k + 1, NodeAt fdt k' r) := by
      intro d hne
      rcases hcase with ⟨hfin, -⟩ | ⟨a, rfl, -, -, hrest⟩
      · exact absurd hfin hne
      · obtain ⟨r, d', hloop, hr⟩ := @ih k a d hrest (by lia)
        refine ⟨r, d', hloop, hr.imp_right (Or.imp_right ?_)⟩
        intro hnode
        obtain ⟨k', hk', hnode⟩ := hnode
        exact ⟨k', by lia, hnode⟩
    unfold nextNodeLoop
    simp only [htag]
    cases tag with
    | prop => exact hnext (by decide)
    | nop => exact hnext (by decide)
    | beginNode =>
      refine ⟨offset, depth + 1, rfl, .inr (.inr ⟨k + 1, Nat.le_refl _, ?_⟩)⟩
      exact ⟨Int.natCast_nonneg offset, h, by rw [Int.toNat_natCast, htag]⟩
    | endNode =>
      by_cases hd : depth - 1 < 0
      · simp only [if_pos hd]
        exact ⟨next, depth - 1, rfl, .inr (.inl hd)⟩
      · simp only [if_neg hd]
        exact hnext (by decide)
    | fin =>
      refine ⟨_, depth, rfl, .inl ?_⟩
      split
      · decide
      · lia

theorem fdtNextNode_returns {node depth : ℤ} (h : NodeAt fdt n node) :
    ∃ r d, fdtNextNode fdt node depth = some (r, d) ∧ (r < 0 ∨ d < 0 ∨ ∃ k < n, NodeAt fdt k r) := by
  obtain ⟨k, a, rfl, -, hcheck, hrest⟩ := h.check
  obtain ⟨r, d, hloop, hr⟩ := @nextNodeLoop_returns fdt k a (fdt.sizeDtStruct + 1) depth hrest
    hrest.2.1
  refine ⟨r, d, ?_, hr.imp_right (Or.imp_right ?_)⟩
  · simp only [fdtNextNode, if_pos h.nonneg, hcheck, if_neg (Int.not_lt.mpr (Int.natCast_nonneg a)),
      Int.toNat_natCast, hloop]
  · intro hnode
    obtain ⟨k', hk', hnode⟩ := hnode
    exact ⟨k', by lia, hnode⟩

theorem subnodeOffsetLoop_returns {name : List UInt8} {fuel : ℕ} {node depth : ℤ}
    (h : NodeAt fdt n node) (hfuel : n < fuel) :
    ∃ r, subnodeOffsetLoop fdt name fuel node depth = some r ∧ (r < 0 ∨ ∃ k ≤ n, NodeAt fdt k r) := by
  induction fuel generalizing n node depth with
  | zero => lia
  | succ fuel ih =>
    obtain ⟨r, d, hnext, hr⟩ := @fdtNextNode_returns fdt n node depth h
    have hstep : ∃ s, subnodeOffsetLoop fdt name fuel r d = some s ∧
        (s < 0 ∨ ∃ k ≤ n, NodeAt fdt k s) := by
      have hpos : 0 < fuel := by
        obtain ⟨k, -, hk, -⟩ := h.check
        lia
      obtain ⟨fuel', rfl⟩ : ∃ fuel', fuel = fuel' + 1 := ⟨fuel - 1, by lia⟩
      rcases hr with hneg | hneg | ⟨k, hk, hnode⟩
      · rw [subnodeOffsetLoop, if_neg (by lia)]
        refine ⟨_, rfl, .inl ?_⟩
        split
        · decide
        · exact hneg
      · rw [subnodeOffsetLoop, if_neg (by lia), if_pos hneg]
        exact ⟨_, rfl, .inl (by decide)⟩
      · obtain ⟨s, hs, hcase⟩ := @ih k r d hnode (by lia)
        refine ⟨s, hs, hcase.imp_right ?_⟩
        intro hex
        obtain ⟨k', hk', hnode'⟩ := hex
        exact ⟨k', by lia, hnode'⟩
    rw [subnodeOffsetLoop]
    split
    · split
      · exact ⟨node, rfl, .inr ⟨n, Nat.le_refl n, h⟩⟩
      · rw [hnext]
        exact hstep
    · refine ⟨_, rfl, .inl ?_⟩
      split
      · decide
      · have := h.nonneg
        lia

theorem fdtSubnodeOffset_returns {parent : ℤ} (h : NodeAt fdt n parent) (name : List UInt8) :
    ∃ r, fdtSubnodeOffset fdt parent name = some r ∧ (r < 0 ∨ ∃ k ≤ n, NodeAt fdt k r) := by
  have hn := h.rest.2.1
  exact subnodeOffsetLoop_returns h (by lia)

theorem nextProp_returns {fuel : ℕ} (h : Rest fdt n offset) (hfuel : n ≤ fuel) :
    ∃ r, nextProp fdt fuel offset = some r ∧ (r < 0 ∨ ∃ k ≤ n, PropAt fdt k r) := by
  induction fuel generalizing n offset with
  | zero =>
    obtain ⟨k, hk, -⟩ := h.step
    lia
  | succ fuel ih =>
    obtain ⟨k, rfl, tag, next, htag, hcase⟩ := h.step
    unfold nextProp
    simp only [htag]
    cases tag with
    | fin =>
      refine ⟨_, rfl, .inl ?_⟩
      split
      · decide
      · lia
    | prop =>
      exact ⟨offset, rfl, .inr ⟨k + 1, Nat.le_refl _, Int.natCast_nonneg offset, h,
        by rw [Int.toNat_natCast, htag]⟩⟩
    | nop =>
      rcases hcase with ⟨hfin, -⟩ | ⟨a, rfl, -, -, hrest⟩
      · cases hfin
      · obtain ⟨r, hr, hprop⟩ := ih hrest (by lia)
        refine ⟨r, hr, hprop.imp_right ?_⟩
        intro hex
        obtain ⟨k', hk', hprop⟩ := hex
        exact ⟨k', by lia, hprop⟩
    | beginNode => exact ⟨_, rfl, .inl (by decide)⟩
    | endNode => exact ⟨_, rfl, .inl (by decide)⟩

theorem fdtNextPropertyOffset_returns {prop : ℤ} (h : PropAt fdt n prop) :
    ∃ r, fdtNextPropertyOffset fdt prop.toNat = some r ∧ (r < 0 ∨ ∃ k < n, PropAt fdt k r) := by
  obtain ⟨k, rfl, tag, next, htag, hcase⟩ := h.rest.step
  have hprop : tag = .prop := by rw [← h.tag, htag]
  rcases hcase with ⟨hfin, -⟩ | ⟨a, rfl, -, -, hrest⟩
  · rw [hprop] at hfin
    cases hfin
  · obtain ⟨r, hr, hnext⟩ := nextProp_returns hrest (show k ≤ fdt.sizeDtStruct + 1 from hrest.2.1)
    refine ⟨r, ?_, hnext.imp_right ?_⟩
    · simp only [fdtNextPropertyOffset, htag, hprop, ne_eq, not_true_eq_false, if_false,
        Int.toNat_natCast, hr]
    · intro hex
      obtain ⟨k', hk', hprop'⟩ := hex
      exact ⟨k', by lia, hprop'⟩

theorem getPropertyLoop_returns {name : List UInt8} {fuel : ℕ} {prop : ℤ}
    (h : prop < 0 ∨ PropAt fdt n prop) (hfuel : n < fuel) :
    ∃ found, getPropertyLoop fdt name fuel prop = some found := by
  induction fuel generalizing n prop with
  | zero => lia
  | succ fuel ih =>
    rw [getPropertyLoop]
    split
    · exact ⟨none, rfl⟩
    · next hneg =>
      split
      · exact ⟨_, rfl⟩
      · obtain ⟨r, hr, hcase⟩ := fdtNextPropertyOffset_returns (h.resolve_left hneg)
        rw [hr]
        rcases hcase with hneg | ⟨k, hk, hprop⟩
        · exact @ih (n - 1) r (.inl hneg) (by
            obtain ⟨k, hk, -⟩ := (h.resolve_left (by assumption)).rest.step
            lia)
        · exact @ih k r (.inr hprop) (by lia)

theorem fdtGetprop_returns {node : ℤ} (h : NodeAt fdt n node) (name : String) :
    ∃ found, fdtGetprop fdt node name = some found := by
  obtain ⟨k, a, rfl, -, hcheck, hrest⟩ := h.check
  have hn := h.rest.2.1
  obtain ⟨r, hr, hcase⟩ := nextProp_returns hrest (show k ≤ fdt.sizeDtStruct + 1 by lia)
  have hfirst : fdtFirstPropertyOffset fdt node = some r := by
    simp only [fdtFirstPropertyOffset, hcheck, if_neg (Int.not_lt.mpr (Int.natCast_nonneg a)),
      Int.toNat_natCast, hr]
  have hfound : ∃ found,
      getPropertyLoop fdt (chars name) (fdt.sizeDtStruct + 1) r = some found := by
    rcases hcase with hneg | ⟨k', hk', hprop⟩
    · exact @getPropertyLoop_returns fdt k (chars name) _ r (.inl hneg) (by lia)
    · exact @getPropertyLoop_returns fdt k' (chars name) _ r (.inr hprop) (by lia)
  obtain ⟨found, hfound⟩ := hfound
  refine ⟨found.map fun offset => (fdt.propData offset, fdt.propLen offset), ?_⟩
  simp only [fdtGetprop, hfirst, hfound, bind, Option.bind]

structure Tree (fdt : Fdt) : Prop where
  nested : ∃ ms, marks fdt = some ms
  root : (fdtNextTag fdt 0).1 = .beginNode

theorem Tree.nodeAt (h : Tree fdt) : NodeAt fdt (fdt.sizeDtStruct + 1) 0 := by
  obtain ⟨ms, hms⟩ := h.nested
  exact ⟨Int.le_refl 0, rest_marks hms, h.root⟩

end Rest

end UBoot.Fit
