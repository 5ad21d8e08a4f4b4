import Mathlib.Tactic

/-!
# Bitmaps

A set of numbers in the bits of a buffer of bytes, lowest bit first. Marking and clearing are
exact, and marking takes one from the number of clear bits.
-/

namespace UBoot.Bitmap

open List

def bit (m : List (BitVec 8)) (n : ℕ) : Bool := (m.getD (n / 8) 0).getLsbD (n % 8)

def mark (m : List (BitVec 8)) (n : ℕ) : List (BitVec 8) :=
  m.set (n / 8) (m.getD (n / 8) 0 ||| 1#8 <<< (n % 8))

def clear (m : List (BitVec 8)) (n : ℕ) : List (BitVec 8) :=
  m.set (n / 8) (m.getD (n / 8) 0 &&& ~~~(1#8 <<< (n % 8)))

def zeros (m : List (BitVec 8)) (limit : ℕ) : ℕ := (List.range limit).countP fun n => !bit m n

variable {m : List (BitVec 8)} {n k limit : ℕ}

@[simp] theorem length_mark : (mark m n).length = m.length := length_set

theorem getLsbD_one_shift (i j : ℕ) (hi : i < 8) : (1#8 <<< i).getLsbD j = decide (j = i) := by
  rw [← BitVec.twoPow_eq, BitVec.getLsbD_twoPow]
  simp only [hi, decide_true, Bool.true_and, eq_comm]

theorem bit_mark (h : n / 8 < m.length) : bit (mark m n) k = (bit m k || decide (k = n)) := by
  have hmod : n % 8 < 8 := Nat.mod_lt _ (by decide)
  by_cases hsame : n / 8 = k / 8
  · have hiff : k % 8 = n % 8 ↔ k = n := by lia
    simp only [bit, mark, getD_eq_getElem?_getD]
    rw [← hsame, getElem?_set_self h]
    simp only [Option.getD_some, BitVec.getLsbD_or, getLsbD_one_shift _ _ hmod, hiff]
  · have hne : k ≠ n := fun hk => hsame (by rw [hk])
    simp only [bit, mark, getD_eq_getElem?_getD, getElem?_set_ne hsame, hne, decide_false,
      Bool.or_false]

theorem clear_mark (hbit : bit m n = false) (h : n / 8 < m.length) : clear (mark m n) n = m := by
  have hmod : n % 8 < 8 := Nat.mod_lt _ (by decide)
  have hbyte : (mark m n).getD (n / 8) 0 &&& ~~~(1#8 <<< (n % 8)) = m.getD (n / 8) 0 := by
    rw [mark, getD_eq_getElem?_getD, getElem?_set_self h, Option.getD_some]
    apply BitVec.eq_of_getLsbD_eq
    intro i hi
    simp only [BitVec.getLsbD_and, BitVec.getLsbD_or, BitVec.getLsbD_not,
      getLsbD_one_shift _ _ hmod, hi, decide_true, Bool.true_and]
    by_cases hin : i = n % 8
    · subst hin
      simpa [bit] using hbit
    · simp [hin]
  rw [clear, hbyte, mark, set_set]
  apply ext_getElem?
  intro i
  by_cases hi : n / 8 = i
  · subst hi
    rw [getElem?_set_self h, getD_eq_getElem?_getD, getElem?_eq_getElem h]
    rfl
  · rw [getElem?_set_ne hi]

theorem zeros_ne_zero : zeros m limit ≠ 0 ↔ ∃ n < limit, bit m n = false := by
  rw [zeros, ← Nat.pos_iff_ne_zero, countP_pos_iff]
  simp only [mem_range, Bool.not_eq_eq_eq_not, Bool.not_true]

theorem exists_lowest (h : zeros m limit ≠ 0) :
    ∃ n < limit, bit m n = false ∧ ∀ k < n, bit m k = true := by
  rw [zeros_ne_zero] at h
  refine ⟨Nat.find h, (Nat.find_spec h).1, (Nat.find_spec h).2, ?_⟩
  intro k hk
  have hmin := Nat.find_min h hk
  have hlt := (Nat.find_spec h).1
  rw [not_and] at hmin
  simpa using hmin (by lia)

theorem zeros_le (m : List (BitVec 8)) (limit : ℕ) : zeros m limit ≤ limit := by
  refine countP_le_length.trans ?_
  rw [length_range]

theorem zeros_mark (hbit : bit m n = false) (hlt : n < limit) (h : n / 8 < m.length) :
    zeros (mark m n) limit + 1 = zeros m limit := by
  induction limit with
  | zero => lia
  | succ limit ih =>
    simp only [zeros, range_succ, countP_append, countP_singleton] at ih ⊢
    by_cases heq : n = limit
    · subst heq
      have hbelow : (List.range n).countP (fun k => !bit (mark m n) k) =
          (List.range n).countP fun k => !bit m k := by
        apply countP_congr
        intro k hk
        rw [bit_mark h, decide_eq_false (Nat.ne_of_lt (mem_range.mp hk)), Bool.or_false]
      rw [hbelow, bit_mark h, hbit]
      simp
    · have hrest := ih (by lia)
      have hlast : bit (mark m n) limit = bit m limit := by
        rw [bit_mark h, decide_eq_false (Ne.symm heq), Bool.or_false]
      rw [hlast]
      lia

theorem bit_replicate_zero (n k : ℕ) : bit (List.replicate n 0) k = false := by
  rw [bit, getD_eq_getElem?_getD, getElem?_replicate]
  split <;> simp

theorem zeros_replicate_zero (n limit : ℕ) : zeros (List.replicate n 0) limit = limit := by
  rw [zeros, countP_eq_length.mpr, length_range]
  intro k _
  rw [bit_replicate_zero]
  rfl

theorem byte_full {i : ℕ} (h : m.getD i 0 = 255#8) {j : ℕ} (hj : j < 8) : bit m (8 * i + j) = true := by
  have hdiv : (8 * i + j) / 8 = i := by lia
  have hmod : (8 * i + j) % 8 = j := by lia
  rw [bit, hdiv, hmod, h]
  interval_cases j <;> rfl

theorem byte_eq_full {i : ℕ} (h : ∀ j < 8, bit m (8 * i + j) = true) : m.getD i 0 = 255#8 := by
  apply BitVec.eq_of_getLsbD_eq
  intro j hj
  have hbit := h j hj
  have hdiv : (8 * i + j) / 8 = i := by lia
  have hmod : (8 * i + j) % 8 = j := by lia
  rw [bit, hdiv, hmod] at hbit
  rw [hbit]
  interval_cases j <;> rfl

end UBoot.Bitmap
