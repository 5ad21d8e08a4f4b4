import Mathlib.Tactic

/-!
# Gaps

A set of natural numbers as the list of its maximal intervals, in order. Taking a number out of the
set shortens, splits or removes the interval it lies in.
-/

namespace UBoot.Gaps

open List

/- Non-empty intervals `[i, j)`, in order and not adjacent. -/
structure Sep (gs : List (ℕ × ℕ)) : Prop where
  nonempty : ∀ g ∈ gs, g.1 < g.2
  sorted : gs.Pairwise fun a b => a.2 < b.1

def Covered (gs : List (ℕ × ℕ)) (x : ℕ) : Prop := ∃ g ∈ gs, g.1 ≤ x ∧ x < g.2

/- `[i, j)` without `x`. -/
def rest (i j x : ℕ) : List (ℕ × ℕ) :=
  if i = x then (if j = x + 1 then [] else [(x + 1, j)])
  else (if j = x + 1 then [(i, x)] else [(i, x), (x + 1, j)])

section

variable {gs as bs : List (ℕ × ℕ)} {i j x y : ℕ}

theorem covered_append : Covered (as ++ bs) y ↔ Covered as y ∨ Covered bs y := by
  simp only [Covered, mem_append, or_and_right, exists_or]

theorem covered_cons {g : ℕ × ℕ} : Covered (g :: bs) y ↔ (g.1 ≤ y ∧ y < g.2) ∨ Covered bs y := by
  simp only [Covered, exists_mem_cons_iff]

theorem Covered.split (h : Covered gs x) : ∃ as i j bs, gs = as ++ (i, j) :: bs ∧ i ≤ x ∧ x < j := by
  obtain ⟨g, hg, hx⟩ := h
  obtain ⟨as, bs, rfl⟩ := append_of_mem hg
  exact ⟨as, g.1, g.2, bs, rfl, hx.1, hx.2⟩

theorem mem_rest {g : ℕ × ℕ} (hg : g ∈ rest i j x) (hi : i ≤ x) (hj : x < j) :
    g.1 < g.2 ∧ i ≤ g.1 ∧ g.2 ≤ j ∧ ¬(g.1 ≤ x ∧ x < g.2) := by
  unfold rest at hg
  split at hg
  · split at hg
    · cases hg
    · rw [mem_singleton.mp hg]
      simp only
      lia
  · split at hg
    · rw [mem_singleton.mp hg]
      simp only
      lia
    · simp only [mem_cons, not_mem_nil, or_false] at hg
      cases hg with
      | inl hg =>
        rw [hg]
        simp only
        lia
      | inr hg =>
        rw [hg]
        simp only
        lia

theorem covered_rest (hi : i ≤ x) (hj : x < j) : Covered (rest i j x) y ↔ i ≤ y ∧ y < j ∧ y ≠ x := by
  unfold rest Covered
  split
  · split
    · simp only [not_mem_nil, false_and, exists_false, false_iff]
      lia
    · simp only [mem_singleton, exists_eq_left]
      lia
  · split
    · simp only [mem_singleton, exists_eq_left]
      lia
    · simp only [mem_cons, not_mem_nil, or_false, exists_eq_or_imp, exists_eq_left]
      lia

theorem Sep.outside (h : Sep (as ++ (i, j) :: bs)) : (∀ a ∈ as, a.2 < i) ∧ (∀ b ∈ bs, j < b.1) := by
  obtain ⟨-, hcons, hacross⟩ := pairwise_append.mp h.sorted
  exact ⟨fun a ha => hacross a ha (i, j) mem_cons_self, (pairwise_cons.mp hcons).1⟩

theorem Sep.take_out (h : Sep (as ++ (i, j) :: bs)) (hi : i ≤ x) (hj : x < j) :
    Sep (as ++ rest i j x ++ bs) := by
  obtain ⟨hbefore, hbehind⟩ := h.outside
  obtain ⟨has, hcons, hacross⟩ := pairwise_append.mp h.sorted
  constructor
  · intro g hg
    simp only [mem_append] at hg
    cases hg with
    | inl hg =>
      cases hg with
      | inl hg => exact h.nonempty g (by simp [hg])
      | inr hg => exact (mem_rest hg hi hj).1
    | inr hg => exact h.nonempty g (by simp [hg])
  · have hrest : (rest i j x).Pairwise fun a b => a.2 < b.1 := by
      unfold rest
      split
      · split
        · exact List.Pairwise.nil
        · exact pairwise_singleton _ _
      · split
        · exact pairwise_singleton _ _
        · exact pairwise_pair.mpr (Nat.lt_succ_self x)
    refine pairwise_append.mpr ⟨pairwise_append.mpr ⟨has, hrest, ?_⟩,
      (pairwise_cons.mp hcons).2, ?_⟩
    · intro a ha g hg
      exact (hbefore a ha).trans_le (mem_rest hg hi hj).2.1
    · intro g hg b hb
      cases mem_append.mp hg with
      | inl hg => exact hacross g hg b (mem_cons_of_mem _ hb)
      | inr hg => exact (mem_rest hg hi hj).2.2.1.trans_lt (hbehind b hb)

theorem Sep.covered_take_out (h : Sep (as ++ (i, j) :: bs)) (hi : i ≤ x) (hj : x < j) :
    Covered (as ++ rest i j x ++ bs) y ↔ Covered (as ++ (i, j) :: bs) y ∧ y ≠ x := by
  obtain ⟨hbefore, hbehind⟩ := h.outside
  have ha : Covered as y → y ≠ x := by
    intro hc
    obtain ⟨a, ha, -, hlt⟩ := hc
    have := hbefore a ha
    lia
  have hb : Covered bs y → y ≠ x := by
    intro hc
    obtain ⟨b, hb, hle, -⟩ := hc
    have := hbehind b hb
    lia
  rw [covered_append, covered_append, covered_append, covered_cons, covered_rest hi hj]
  tauto

end

end UBoot.Gaps
