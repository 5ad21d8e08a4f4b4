import Mathlib.Tactic

/-!
# Numbers as words

Little endian lists of 32-bit words, big endian byte strings, and the step of Montgomery's reduction
that clears the low word and shifts it out.
-/

namespace UBoot.Limbs

open List

def value : List UInt32 → ℕ
  | [] => 0
  | w :: ws => w.toNat + 2 ^ 32 * value ws

def beValue (bs : List UInt8) : ℕ := bs.foldl (fun acc b => acc * 256 + b.toNat) 0

theorem value_append (as bs : List UInt32) :
    value (as ++ bs) = value as + 2 ^ (32 * as.length) * value bs := by
  induction as with
  | nil => simp [value]
  | cons a as ih =>
    rw [cons_append, value, ih, value, length_cons,
      show 32 * (as.length + 1) = 32 + 32 * as.length by ring, pow_add]
    ring

theorem value_lt (ws : List UInt32) : value ws < 2 ^ (32 * ws.length) := by
  induction ws with
  | nil => simp [value]
  | cons w ws ih =>
    have hw := w.toNat_lt
    rw [value, length_cons, show 32 * (ws.length + 1) = 32 + 32 * ws.length by ring, pow_add]
    have hle : value ws + 1 ≤ 2 ^ (32 * ws.length) := ih
    calc w.toNat + 2 ^ 32 * value ws < 2 ^ 32 * (value ws + 1) := by lia
      _ ≤ 2 ^ 32 * 2 ^ (32 * ws.length) := Nat.mul_le_mul_left _ hle

theorem value_replicate_zero (n : ℕ) : value (List.replicate n 0) = 0 := by
  induction n with
  | zero => rfl
  | succ n ih => simp [replicate_succ, value, ih]

theorem beValue_snoc (bs : List UInt8) (b : UInt8) :
    beValue (bs ++ [b]) = beValue bs * 256 + b.toNat := by
  simp [beValue]

theorem beValue_append (as bs : List UInt8) :
    beValue (as ++ bs) = beValue as * 256 ^ bs.length + beValue bs := by
  induction bs using List.reverseRecOn with
  | nil => simp [beValue]
  | append_singleton bs b ih =>
    rw [← append_assoc, beValue_snoc, beValue_snoc, ih, length_append, length_singleton, pow_succ]
    ring

/- The low `n` bytes of a number, highest first. -/
def beBytes : ℕ → ℕ → List UInt8
  | 0, _ => []
  | n + 1, x => UInt8.ofNat (x / 256 ^ n) :: beBytes n x

@[simp] theorem length_beBytes (n x : ℕ) : (beBytes n x).length = n := by
  induction n with
  | zero => rfl
  | succ n ih => simp [beBytes, ih]

theorem beValue_cons (b : UInt8) (bs : List UInt8) :
    beValue (b :: bs) = b.toNat * 256 ^ bs.length + beValue bs := by
  have happ := beValue_append [b] bs
  simpa [beValue] using happ

theorem beValue_lt (bs : List UInt8) : beValue bs < 256 ^ bs.length := by
  induction bs with
  | nil => simp [beValue]
  | cons b bs ih =>
    have hb : b.toNat + 1 ≤ 256 := b.toNat_lt
    rw [beValue_cons, length_cons, pow_succ']
    calc b.toNat * 256 ^ bs.length + beValue bs < (b.toNat + 1) * 256 ^ bs.length := by linarith
      _ ≤ 256 * 256 ^ bs.length := Nat.mul_le_mul_right _ hb

theorem beValue_beBytes (n x : ℕ) : beValue (beBytes n x) = x % 256 ^ n := by
  induction n with
  | zero => exact (Nat.mod_one x).symm
  | succ n ih =>
    have hpow : x % 256 ^ (n + 1) = x % 256 ^ n + 256 ^ n * (x / 256 ^ n % 256) := Nat.mod_pow_succ
    rw [beBytes, beValue_cons, ih, length_beBytes, UInt8.toNat_ofNat', hpow, Nat.add_comm,
      Nat.mul_comm]

section Reduction

variable {B R n t a b d s : ℕ}

theorem low_word_clear {x m₀ inv : ℕ} (hinv : (inv * m₀ + 1) % B = 0) (hd : d = x * inv % B) :
    (d * m₀ + x) % B = 0 := by
  have hmod : d * m₀ + x ≡ x * (inv * m₀ + 1) [MOD B] := by
    have h₁ : d ≡ x * inv [MOD B] := by
      rw [hd]
      exact Nat.mod_modEq _ _
    have h₂ := (h₁.mul_right m₀).add_right x
    rw [show x * (inv * m₀ + 1) = x * inv * m₀ + x by ring]
    exact h₂
  rw [hmod, Nat.mul_mod, hinv]
  simp

theorem step_lt (h : B * s = t + a * b + d * n) (ht : t < R) (ha : a < B) (hb : b < R)
    (hd : d < B) : s < R + n := by
  have h₁ : a * b ≤ (B - 1) * (R - 1) := Nat.mul_le_mul (by lia) (by lia)
  have h₂ : d * n ≤ (B - 1) * n := Nat.mul_le_mul_right n (by lia)
  have hB : B - 1 + 1 = B := by lia
  have hR : R - 1 + 1 = R := by lia
  have hlt : B * s < B * (R + n) := by
    calc B * s ≤ (R - 1) + (B - 1) * (R - 1) + (B - 1) * n := by lia
      _ = (B - 1 + 1) * (R - 1) + (B - 1) * n := by ring
      _ = B * (R - 1) + (B - 1) * n := by rw [hB]
      _ < B * (R - 1) + (B - 1 + 1) * n + B := by
        lia
      _ = B * (R - 1 + 1) + B * n := by
        rw [hB]
        ring
      _ = B * (R + n) := by
        rw [hR]
        ring
  exact Nat.lt_of_mul_lt_mul_left hlt

end Reduction

end UBoot.Limbs
