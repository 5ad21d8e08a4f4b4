import UBoot.Lib.Words
import UBoot.Lmb.Table

/-!
# The search of `__lmb_alloc_base`

What a successful allocation did: which memory region it searched, where the
search ended, and the range it then added to the reserved table.
-/

namespace UBoot.Lmb

open Words Option

section Align

variable (abi : Abi)

theorem lmbAlignDown_eq {addr k : ℕ} (h : addr < 2 ^ abi.physBits) (hk : k ≤ abi.physBits) :
    lmbAlignDown abi addr (2 ^ k) = addr / 2 ^ k * 2 ^ k :=
  land_highMask h hk

/-- `lmb_align_up` rounds up while the result fits an `unsigned long`. -/
theorem lmbAlignUp_eq {size k : ℕ} (hk : k ≤ abi.longBits)
    (h : roundUp size (2 ^ k) < 2 ^ abi.longBits) :
    lmbAlignUp abi size (2 ^ k) = roundUp size (2 ^ k) := by
  have hroom : size + (2 ^ k - 1) < 2 ^ abi.longBits :=
    roundUp_room (Nat.two_pow_pos k) (Nat.pow_dvd_pow 2 hk) h
  have hle : 2 ^ abi.longBits ≤ 2 ^ abi.physBits := Nat.pow_le_pow_right (by norm_num) abi.long_le
  rw [lmbAlignUp, abi.add_of_lt (by lia), land_highMask hroom hk]
  rfl

end Align

section Search

variable {abi : Abi} {lmb lmb' : LmbState} {size align maxAddr : ℕ}

/-- Where the search of the memory regions below index `n` ends. -/
def foundStart (abi : Abi) (lmb : LmbState) (size align maxAddr : ℕ) : ℕ → Option ℕ
  | 0 => none
  | i + 1 =>
    match searchStart abi (lmb.memory.region i) size align maxAddr with
    | none => foundStart abi lmb size align maxAddr i
    | some start =>
      match searchDown abi lmb.reserved size align (lmb.memory.region i).base (start + 1) start with
      | some (some base) => some base
      | _ => foundStart abi lmb size align maxAddr i

/-- An allocation that returns an address found it in the search of one memory
region and added the rounded range there. -/
theorem allocFrom_found {n b : ℕ}
    (h : allocFrom abi lmb size align maxAddr n = some (b, lmb')) (hb : b ≠ 0) :
    foundStart abi lmb size align maxAddr n = some b ∧
      ∃ i < n, ∃ start, searchStart abi (lmb.memory.region i) size align maxAddr = some start ∧
        searchDown abi lmb.reserved size align (lmb.memory.region i).base (start + 1) start =
          some (some b) ∧
        ∃ ret, lmbAddRegion abi lmb.reserved b (lmbAlignUp abi size align) =
          some (ret, lmb'.reserved) ∧ 0 ≤ ret ∧ lmb'.memory = lmb.memory := by
  induction n with
  | zero =>
    simp only [allocFrom, some.injEq, Prod.mk.injEq] at h
    exact absurd h.1.symm hb
  | succ i ih =>
    cases hs : searchStart abi (lmb.memory.region i) size align maxAddr with
    | none =>
      simp only [allocFrom, hs] at h
      simp only [foundStart, hs]
      exact (ih h).imp_right fun hfound => hfound.imp fun j hj => ⟨by lia, hj.2⟩
    | some start =>
      cases hd : searchDown abi lmb.reserved size align (lmb.memory.region i).base
          (start + 1) start with
      | none => simp [allocFrom, hs, hd] at h
      | some found =>
        cases found with
        | none =>
          simp only [allocFrom, hs, hd] at h
          simp only [foundStart, hs, hd]
          exact (ih h).imp_right fun hfound => hfound.imp fun j hj => ⟨by lia, hj.2⟩
        | some base =>
          simp only [allocFrom, hs, hd] at h
          simp only [foundStart, hs, hd]
          cases ha : lmbAddRegion abi lmb.reserved base (lmbAlignUp abi size align) with
          | none => simp [ha] at h
          | some p =>
            obtain ⟨ret, reserved⟩ := p
            simp only [ha] at h
            by_cases hr : ret < 0
            · rw [if_pos hr, some.injEq, Prod.mk.injEq] at h
              exact absurd h.1.symm hb
            · rw [if_neg hr, some.injEq, Prod.mk.injEq] at h
              obtain ⟨rfl, rfl⟩ := h
              exact ⟨rfl, i, by lia, start, hs, hd, ret, ha, by lia, rfl⟩

end Search

end UBoot.Lmb
