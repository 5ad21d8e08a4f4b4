import Mathlib.Tactic

/-!
# Addition with end-around carry

Words from 0 to `m` are added, and a carry out of the top is added at the bottom. The result is the
representative of their sum modulo `m` from 1 to `m`, or 0 if all the words are.
-/

namespace UBoot.EndAround

variable {m x y s : ℕ} {words : List ℕ}

def endAround (m x y : ℕ) : ℕ := if x + y ≤ m then x + y else x + y - m

def endAroundSum (m : ℕ) (words : List ℕ) : ℕ := words.foldl (endAround m) 0

/- The representative of `s` modulo `m` that is 0 only for 0. -/
def rep (m s : ℕ) : ℕ := if s = 0 then 0 else (s - 1) % m + 1

theorem rep_pos (h : 0 < s) : 0 < rep m s := by
  rw [rep, if_neg (by lia)]
  lia

theorem rep_le (hm : 0 < m) : rep m s ≤ m := by
  unfold rep
  split
  · exact hm.le
  · exact Nat.mod_lt _ hm

theorem rep_of_le (h : s ≤ m) : rep m s = s := by
  unfold rep
  split
  next h0 => exact h0.symm
  next h0 => rw [Nat.mod_eq_of_lt (by lia), Nat.sub_add_cancel (by lia)]

theorem rep_add_mul (h : 0 < s) (k : ℕ) : rep m (s + m * k) = rep m s := by
  rw [rep, rep, if_neg (by lia), if_neg (by lia), show s + m * k - 1 = s - 1 + m * k by lia,
    Nat.add_mul_mod_self_left]

theorem endAround_rep (hm : 0 < m) (hx : x ≤ m) : endAround m (rep m s) x = rep m (s + x) := by
  rcases Nat.eq_zero_or_pos s with rfl | hs
  · rw [Nat.zero_add, rep_of_le hx, endAround, rep, if_pos rfl, Nat.zero_add, if_pos hx]
  · have hle : rep m s ≤ m := rep_le hm
    have hpos : 0 < rep m s := rep_pos hs
    have hrep : rep m s = (s - 1) % m + 1 := if_neg (by lia)
    have hdiv := Nat.div_add_mod (s - 1) m
    -- the sum is that of the representative, plus the multiples of `m` that were carried around
    have hsum : s + x = rep m s + x + m * ((s - 1) / m) := by lia
    rw [hsum, rep_add_mul (by lia), endAround]
    split
    next h => rw [rep_of_le h]
    next h =>
      obtain ⟨t, ht⟩ : ∃ t, rep m s + x = t + m := ⟨rep m s + x - m, by lia⟩
      have hcarry : rep m (t + m * 1) = rep m t := rep_add_mul (by lia) 1
      rw [Nat.mul_one] at hcarry
      rw [ht, hcarry, Nat.add_sub_cancel, rep_of_le (by lia)]

theorem foldl_endAround (hm : 0 < m) (hw : ∀ x, x ∈ words → x ≤ m) :
    words.foldl (endAround m) (rep m s) = rep m (s + words.sum) := by
  induction words generalizing s with
  | nil => rfl
  | cons x words ih =>
    obtain ⟨hx, hrest⟩ := List.forall_mem_cons.mp hw
    rw [List.foldl_cons, endAround_rep hm hx, ih hrest, List.sum_cons, Nat.add_assoc]

theorem endAroundSum_eq (hm : 0 < m) (hw : ∀ x, x ∈ words → x ≤ m) :
    endAroundSum m words = rep m words.sum := by
  have h := foldl_endAround (s := 0) hm hw
  rwa [Nat.zero_add] at h

end UBoot.EndAround
