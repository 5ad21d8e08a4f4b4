import Mathlib.Tactic

/-!
# Masks and rounding

Machine code rounds to a power of two with a mask whose low bits are clear. On
natural numbers that is a division and a multiplication.
-/

namespace UBoot.Words

/-- `x` rounded up to a multiple of `align`. -/
def roundUp (x align : ℕ) : ℕ := (x + (align - 1)) / align * align

/-- A mask of width `n` that clears the low `k` bits rounds down. -/
theorem land_highMask {x n k : ℕ} (hx : x < 2 ^ n) (hk : k ≤ n) :
    x &&& (2 ^ n - 1 - (2 ^ k - 1)) = x / 2 ^ k * 2 ^ k := by
  have hkn : 2 ^ k ≤ 2 ^ n := Nat.pow_le_pow_right (by norm_num) hk
  have hkp : 0 < 2 ^ k := Nat.two_pow_pos k
  have hmask : 2 ^ n - 1 - (2 ^ k - 1) = 2 ^ n - (2 ^ k - 1 + 1) := by lia
  rw [hmask, ← Nat.shiftRight_eq_div_pow, ← Nat.shiftLeft_eq]
  apply Nat.eq_of_testBit_eq
  intro i
  rw [Nat.testBit_and, Nat.testBit_two_pow_sub_succ (by lia), Nat.testBit_two_pow_sub_one,
    Nat.testBit_shiftLeft, Nat.testBit_shiftRight]
  by_cases hi : k ≤ i
  · rw [show k + (i - k) = i by lia]
    by_cases hin : i < n
    · simp [hi, hin]
    · have hz : x.testBit i = false :=
        Nat.testBit_lt_two_pow (lt_of_lt_of_le hx (Nat.pow_le_pow_right (by norm_num) (by lia)))
      simp [hz]
  · simp [hi, not_le.mp hi]

theorem le_roundUp {x align : ℕ} (ha : 0 < align) : x ≤ roundUp x align := by
  have h := Nat.div_add_mod (x + (align - 1)) align
  have hm := Nat.mod_lt (x + (align - 1)) ha
  unfold roundUp
  rw [Nat.mul_comm] at h
  lia

/-- A multiple below another multiple leaves room for one more step. -/
theorem roundUp_room {x align n : ℕ} (ha : 0 < align) (hd : align ∣ n) (h : roundUp x align < n) :
    x + (align - 1) < n := by
  obtain ⟨m, rfl⟩ := hd
  unfold roundUp at h
  have hq : (x + (align - 1)) / align < m := by
    rw [Nat.mul_comm align m] at h
    exact Nat.lt_of_mul_lt_mul_right h
  exact (Nat.div_lt_iff_lt_mul ha).mp hq |>.trans_eq (Nat.mul_comm _ _)

end UBoot.Words
