import Mathlib.Tactic

/-!
# Little-endian numbers
-/

namespace UBoot.LittleEndian

def leValue : List UInt8 → ℕ
  | [] => 0
  | b :: bs => b.toNat + 256 * leValue bs

/- The lowest `n` bytes of a number, the lowest first. -/
def leBytes : ℕ → ℕ → List UInt8
  | 0, _ => []
  | n + 1, x => UInt8.ofNat x :: leBytes n (x / 256)

@[simp] theorem length_leBytes (n x : ℕ) : (leBytes n x).length = n := by
  induction n generalizing x with
  | zero => rfl
  | succ n ih => simp [leBytes, ih]

theorem leValue_leBytes (n x : ℕ) : leValue (leBytes n x) = x % 256 ^ n := by
  induction n generalizing x with
  | zero => simp [leBytes, leValue, Nat.mod_one]
  | succ n ih =>
    have hb : (UInt8.ofNat x).toNat = x % 256 := by simp
    rw [leBytes, leValue, ih, hb, pow_succ, Nat.mul_comm (256 ^ n) 256, Nat.mod_mul]

theorem leValue_lt (bs : List UInt8) : leValue bs < 256 ^ bs.length := by
  induction bs with
  | nil => simp [leValue]
  | cons b bs ih =>
    have hb := b.toNat_lt
    rw [leValue, List.length_cons, pow_succ]
    omega

theorem leBytes_add (n m x : ℕ) : leBytes (n + m) x = leBytes n x ++ leBytes m (x / 256 ^ n) := by
  induction n generalizing x with
  | zero => simp [leBytes]
  | succ n ih =>
    rw [Nat.succ_add, leBytes, leBytes, ih, List.cons_append, Nat.div_div_eq_div_mul, pow_succ,
      Nat.mul_comm 256]

theorem leBytes_mod {n m : ℕ} (h : n ≤ m) (x : ℕ) : leBytes n (x % 256 ^ m) = leBytes n x := by
  induction n generalizing m x with
  | zero => rfl
  | succ n ih =>
    obtain _ | m := m
    · lia
    have hlow : UInt8.ofNat (x % 256 ^ (m + 1)) = UInt8.ofNat x := by
      apply UInt8.toNat_inj.mp
      simp only [UInt8.toNat_ofNat']
      exact Nat.mod_mod_of_dvd x (by rw [pow_succ]; exact Dvd.intro_left _ rfl)
    have hhigh : x % 256 ^ (m + 1) / 256 = x / 256 % 256 ^ m := by
      rw [pow_succ, Nat.mul_comm, Nat.mod_mul_right_div_self]
    rw [leBytes, leBytes, hlow, hhigh, ih (by omega)]

end UBoot.LittleEndian
