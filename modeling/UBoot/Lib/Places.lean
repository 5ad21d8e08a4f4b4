import Mathlib.Tactic

/-!
# The usable places of a range

The numbers from `a` on that a predicate accepts, and how far one has to go to get `k` of them.
-/

namespace UBoot.Places

open List

def places (q : ℕ → Bool) (a n : ℕ) : List ℕ := (List.range' a n).filter q

/- `u` numbers from `a` on are just enough for `k` places. -/
structure Needs (q : ℕ → Bool) (a k u : ℕ) : Prop where
  length : (places q a u).length = k
  least : ∀ v, v < u → (places q a v).length < k

section Lists

variable {q q' : ℕ → Bool} {a n m : ℕ}

theorem mem_places {x : ℕ} : x ∈ places q a n ↔ (a ≤ x ∧ x < a + n) ∧ q x = true := by
  simp [places, mem_filter, mem_range'_1]

theorem places_append : places q a (n + m) = places q a n ++ places q (a + n) m := by
  unfold places
  rw [← filter_append, range'_append_1]

theorem places_none (h : ∀ x, a ≤ x → x < a + n → q x = false) : places q a n = [] := by
  refine filter_eq_nil_iff.mpr fun x hx => ?_
  obtain ⟨hlo, hhi⟩ := mem_range'_1.mp hx
  simp [h x hlo hhi]

theorem places_all (h : ∀ x, a ≤ x → x < a + n → q x = true) : places q a n = List.range' a n := by
  refine filter_eq_self.mpr fun x hx => ?_
  obtain ⟨hlo, hhi⟩ := mem_range'_1.mp hx
  exact h x hlo hhi

theorem places_congr (h : ∀ x, a ≤ x → x < a + n → q x = q' x) : places q a n = places q' a n := by
  refine filter_congr fun x hx => ?_
  obtain ⟨hlo, hhi⟩ := mem_range'_1.mp hx
  exact h x hlo hhi

theorem length_le : (places q a n).length ≤ n := by
  have h := length_filter_le q (List.range' a n)
  rwa [length_range'] at h

theorem length_mono (h : n ≤ m) : (places q a n).length ≤ (places q a m).length := by
  obtain ⟨d, rfl⟩ := Nat.exists_eq_add_of_le h
  rw [places_append, length_append]
  exact Nat.le_add_right _ _

end Lists

namespace Needs

variable {q q' : ℕ → Bool} {a k u v n : ℕ}

theorem le (h : Needs q a k u) : k ≤ u := by
  rw [← h.length]
  exact length_le

theorem lt_of_short (h : Needs q a k u) (hn : (places q a n).length < k) : n < u := by
  by_contra hle
  have hmono := length_mono (q := q) (a := a) (Nat.not_lt.mp hle)
  rw [h.length] at hmono
  lia

theorem le_of_enough (h : Needs q a k u) (hv : k ≤ (places q a v).length) : u ≤ v := by
  by_contra hlt
  have hleast := h.least v (Nat.not_le.mp hlt)
  lia

theorem unique (h : Needs q a k u) (h' : Needs q a k v) : u = v :=
  Nat.le_antisymm (h.le_of_enough (Nat.le_of_eq h'.length.symm))
    (h'.le_of_enough (Nat.le_of_eq h.length.symm))

theorem zero_iff : Needs q a 0 u ↔ u = 0 := by
  constructor
  · intro h
    by_contra hne
    exact absurd (h.least 0 (Nat.pos_of_ne_zero hne)) (by simp)
  · rintro rfl
    exact ⟨rfl, fun v hv => absurd hv (Nat.not_lt_zero v)⟩

theorem drop (h : Needs q a k u) (hv : v ≤ u) : Needs q (a + v) (k - (places q a v).length) (u - v) := by
  have hsplit := places_append (q := q) (a := a) (n := v) (m := u - v)
  have hlen : (places q a u).length = (places q a v).length + (places q (a + v) (u - v)).length := by
    rw [← length_append, ← hsplit, Nat.add_sub_cancel' hv]
  have hk := h.length
  refine ⟨by lia, fun w hw => ?_⟩
  have hleast := h.least (v + w) (by lia)
  rw [places_append, length_append] at hleast
  lia

theorem append (h : Needs q (a + n) (k - (places q a n).length) u)
    (hn : ∀ v, v < n → (places q a v).length < k) (hk : (places q a n).length ≤ k) :
    Needs q a k (n + u) := by
  have hlen := h.length
  refine ⟨?_, fun v hv => ?_⟩
  · rw [places_append, length_append]
    lia
  · rcases Nat.lt_or_ge v n with hlt | hge
    · exact hn v hlt
    · obtain ⟨w, rfl⟩ := Nat.exists_eq_add_of_le hge
      have hleast := h.least w (by lia)
      rw [places_append, length_append]
      lia

theorem skip (h : Needs q (a + n) k u) (hk : 0 < k) (hn : ∀ x, a ≤ x → x < a + n → q x = false) :
    Needs q a k (n + u) := by
  have hnone := places_none hn
  refine append (by rwa [hnone]) (fun v hv => ?_) (by rw [hnone]; exact Nat.zero_le k)
  rw [places_none fun x hlo hhi => hn x hlo (by lia)]
  exact hk

theorem take (h : Needs q (a + n) (k - n) u) (hk : n ≤ k)
    (hn : ∀ x, a ≤ x → x < a + n → q x = true) : Needs q a k (n + u) := by
  have hall : (places q a n).length = n := by rw [places_all hn, length_range']
  refine append (by rwa [hall]) (fun v hv => ?_) (by rwa [hall])
  exact Nat.lt_of_le_of_lt length_le (by lia)

theorem all (h : ∀ x, a ≤ x → x < a + k → q x = true) : Needs q a k k := by
  refine ⟨by rw [places_all h, length_range'], fun v hv => ?_⟩
  exact Nat.lt_of_le_of_lt length_le hv

theorem congr (h : Needs q a k u) (hq : ∀ x, a ≤ x → x < a + u → q x = q' x) : Needs q' a k u := by
  refine ⟨by rw [← places_congr hq, h.length], fun v hv => ?_⟩
  rw [← places_congr fun x hlo hhi => hq x hlo (by lia)]
  exact h.least v hv

theorem exists_of_enough (h : k ≤ (places q a v).length) : ∃ u, u ≤ v ∧ Needs q a k u := by
  induction v with
  | zero => exact ⟨0, Nat.le_refl 0, by rw [Nat.le_zero.mp h, zero_iff]⟩
  | succ v ih =>
    by_cases hv : k ≤ (places q a v).length
    · obtain ⟨u, hu, hneeds⟩ := ih hv
      exact ⟨u, Nat.le_succ_of_le hu, hneeds⟩
    · have hone : (places q (a + v) 1).length ≤ 1 := length_le
      have hlen : (places q a (v + 1)).length
          = (places q a v).length + (places q (a + v) 1).length := by
        rw [places_append, length_append]
      refine ⟨v + 1, Nat.le_refl _, by lia, fun w hw => ?_⟩
      have hmono := length_mono (q := q) (a := a) (show w ≤ v by lia)
      lia

end Needs

end UBoot.Places
