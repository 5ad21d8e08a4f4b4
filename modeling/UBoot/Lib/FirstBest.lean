import Mathlib.Data.List.Basic

/-!
# The first of the best

Each candidate may match at several positions. The best one so far is replaced only by a candidate
that matches at a smaller one.
-/

namespace UBoot.FirstBest

open List

variable {α : Type*} (m : α → ℕ → Prop)

/- `c` matches at `i`, no candidate at a smaller position, and none in front of `c` at `i`. -/
structure IsBest (xs : List α) (c : α) (i : ℕ) : Prop where
  holds : m c i
  least : ∀ d ∈ xs, ∀ j, m d j → i ≤ j
  first : ∃ before after, xs = before ++ c :: after ∧ ∀ d ∈ before, ¬ m d i

def Best (xs : List α) : Option (α × ℕ) → Prop
  | none => ∀ d ∈ xs, ∀ j, ¬ m d j
  | some (c, i) => IsBest m xs c i

variable {m} {xs : List α} {c : α} {i : ℕ} {r : Option (α × ℕ)}

theorem best_nil : Best m [] none := fun _ hd => absurd hd not_mem_nil

theorem Best.replace (h : Best m xs r) (hc : m c i) (hmin : ∀ j, m c j → i ≤ j)
    (hless : ∀ d b, r = some (d, b) → i < b) : Best m (xs ++ [c]) (some (c, i)) := by
  have hxs : ∀ d ∈ xs, ∀ j, m d j → i < j := by
    intro d hd j hj
    cases r with
    | none => exact absurd hj (h d hd j)
    | some best =>
      obtain ⟨e, b⟩ := best
      exact Nat.lt_of_lt_of_le (hless e b rfl) (h.least d hd j hj)
  refine ⟨hc, ?_, xs, [], rfl, fun d hd hi => absurd (hxs d hd i hi) (Nat.lt_irrefl i)⟩
  intro d hd j hj
  cases mem_append.mp hd with
  | inl hd => exact Nat.le_of_lt (hxs d hd j hj)
  | inr hd =>
    rw [mem_singleton.mp hd] at hj
    exact hmin j hj

theorem Best.keep (h : Best m xs r) (hc : ∀ j, m c j → ∃ d b, r = some (d, b) ∧ b ≤ j) :
    Best m (xs ++ [c]) r := by
  cases r with
  | none =>
    intro d hd j hj
    cases mem_append.mp hd with
    | inl hd => exact h d hd j hj
    | inr hd =>
      rw [mem_singleton.mp hd] at hj
      obtain ⟨_, _, hnone, -⟩ := hc j hj
      cases hnone
  | some best =>
    obtain ⟨e, b⟩ := best
    obtain ⟨before, after, hxs, hbefore⟩ := h.first
    refine ⟨h.holds, ?_, before, after ++ [c], by rw [hxs, append_assoc, cons_append], hbefore⟩
    intro d hd j hj
    cases mem_append.mp hd with
    | inl hd => exact h.least d hd j hj
    | inr hd =>
      rw [mem_singleton.mp hd] at hj
      obtain ⟨_, _, hsome, hle⟩ := hc j hj
      rwa [← (Prod.mk.inj (Option.some.inj hsome)).2] at hle

end UBoot.FirstBest
