import UBoot.Rsa.Montgomery
import Mathlib.Data.Nat.Bitwise

/-!
# What pow_mod computes

The value comes in below `R`, and every intermediate result is only known modulo the key. The last
product is below `R`, which is at most twice the modulus, so one subtraction reduces it.
-/

namespace UBoot.Rsa

open Limbs List Nat

theorem getBe32_word (b0 b1 b2 b3 : UInt8) :
    (b0.toUInt32 <<< 24 ||| b1.toUInt32 <<< 16 ||| b2.toUInt32 <<< 8 ||| b3.toUInt32).toNat =
      ((b0.toNat * 256 + b1.toNat) * 256 + b2.toNat) * 256 + b3.toNat := by
  have h0 := b0.toNat_lt
  have h1 := b1.toNat_lt
  have h2 := b2.toNat_lt
  have h3 := b3.toNat_lt
  simp only [UInt32.toNat_or, UInt32.toNat_shiftLeft, UInt8.toNat_toUInt32]
  have e0 : b0.toNat <<< (UInt32.toNat 24 % 32) % 2 ^ 32 = b0.toNat <<< 24 := by
    simp [shiftLeft_eq]
    lia
  have e1 : b1.toNat <<< (UInt32.toNat 16 % 32) % 2 ^ 32 = b1.toNat <<< 16 := by
    simp [shiftLeft_eq]
    lia
  have e2 : b2.toNat <<< (UInt32.toNat 8 % 32) % 2 ^ 32 = b2.toNat <<< 8 := by
    simp [shiftLeft_eq]
    lia
  have l2 : b2.toNat <<< 8 + b3.toNat < 2 ^ 16 := by
    rw [shiftLeft_eq]
    lia
  have l1 : b1.toNat <<< 16 + (b2.toNat <<< 8 + b3.toNat) < 2 ^ 24 := by
    rw [shiftLeft_eq]
    lia
  rw [e0, e1, e2, Nat.or_assoc, Nat.or_assoc, ← shiftLeft_add_eq_or_of_lt h3,
    ← shiftLeft_add_eq_or_of_lt l2, ← shiftLeft_add_eq_or_of_lt l1]
  simp only [shiftLeft_eq]
  lia

theorem beValue_cons_four (b0 b1 b2 b3 : UInt8) (bs : List UInt8) :
    beValue (b0 :: b1 :: b2 :: b3 :: bs) =
      (((b0.toNat * 256 + b1.toNat) * 256 + b2.toNat) * 256 + b3.toNat) * 256 ^ bs.length +
        beValue bs := by
  have happ := beValue_append [b0, b1, b2, b3] bs
  simpa [beValue] using happ

variable {bs : List UInt8} {n : ℕ}

theorem words_induction {P : ℕ → List UInt8 → Prop} (nil : P 0 [])
    (word : ∀ n b0 b1 b2 b3 bs, bs.length = 4 * n → P n bs → P (n + 1) (b0 :: b1 :: b2 :: b3 :: bs)) (h : bs.length = 4 * n) : P n bs := by
  induction n generalizing bs with
  | zero =>
    rw [length_eq_zero_iff.mp h]
    exact nil
  | succ n ih =>
    match bs, h with
    | b0 :: b1 :: b2 :: b3 :: bs, h =>
      have hlen : bs.length = 4 * n := by
        simp only [length_cons] at h
        lia
      exact word n b0 b1 b2 b3 bs hlen (ih hlen)

theorem length_getBe32 (h : bs.length = 4 * n) : (getBe32 bs).length = n := by
  refine words_induction (P := fun n bs => (getBe32 bs).length = n) rfl ?_ h
  intro n b0 b1 b2 b3 bs hlen ih
  rw [getBe32, length_cons, ih]

theorem value_getBe32 (h : bs.length = 4 * n) : value (getBe32 bs).reverse = beValue bs := by
  refine words_induction (P := fun _ bs => value (getBe32 bs).reverse = beValue bs) rfl ?_ h
  intro n b0 b1 b2 b3 bs hlen ih
  rw [getBe32, reverse_cons, value_append, ih, length_reverse,
    length_getBe32 hlen, beValue_cons_four, hlen, value, value, getBe32_word,
    show (256 : ℕ) = 2 ^ 8 by norm_num, ← pow_mul, show 8 * (4 * n) = 32 * n by ring]
  ring

theorem beValue_putBe32 (w : UInt32) : beValue (putBe32 w) = w.toNat := by
  have h := w.toNat_lt
  simp [beValue, putBe32, shiftRight_eq_div_pow]
  lia

theorem length_putBe32 (ws : List UInt32) : (ws.flatMap putBe32).length = 4 * ws.length := by
  induction ws with
  | nil => rfl
  | cons w ws ih =>
    rw [flatMap_cons, length_append, ih, length_cons]
    simp [putBe32]
    lia

theorem beValue_words (ws : List UInt32) : beValue (ws.reverse.flatMap putBe32) = value ws := by
  induction ws with
  | nil => rfl
  | cons w ws ih =>
    rw [reverse_cons, flatMap_append, beValue_append, ih, value]
    simp only [flatMap_cons, flatMap_nil, append_nil, beValue_putBe32]
    simp [putBe32]
    lia

section Exponent

variable (key : RsaPublicKey)

theorem exponentBitsLoop_some (left bits : ℕ) {e : UInt64} (he : e.toNat ≠ 0)
    (hlt : e.toNat < 2 ^ left) :
    ∃ j, exponentBitsLoop left bits e = some (bits + j) ∧ e.toNat / 2 ^ j = 1 := by
  induction left generalizing bits e with
  | zero => lia
  | succ left ih =>
    have hshift : (e >>> 1).toNat = e.toNat / 2 := by
      rw [UInt64.toNat_shiftRight]
      simp [shiftRight_eq_div_pow]
    unfold exponentBitsLoop
    by_cases h0 : e >>> 1 = 0
    · have hz : e.toNat / 2 = 0 := by
        rw [← hshift, h0]
        rfl
      exact ⟨0, by simp [h0], by simp; lia⟩
    · have hne : (e >>> 1).toNat ≠ 0 := by
        intro hz
        exact h0 (UInt64.toNat_inj.mp hz)
      obtain ⟨j, hj, hdiv⟩ := ih (bits + 1) hne (by rw [hshift]; lia)
      refine ⟨j + 1, ?_, ?_⟩
      · simp only [h0, if_false, hj]
        congr 1
        lia
      · rw [pow_succ', ← Nat.div_div_eq_div_mul, ← hshift, hdiv]

theorem numPublicExponentBits_some (he : key.exponent.toNat ≠ 0) :
    ∃ j, numPublicExponentBits key = some (1 + j) ∧ key.exponent.toNat / 2 ^ j = 1 := by
  have hne : key.exponent ≠ 0 := by
    intro h0
    simp [h0] at he
  obtain ⟨j, hj, hdiv⟩ := exponentBitsLoop_some 64 1 he key.exponent.toNat_lt
  exact ⟨j, by simp [numPublicExponentBits, hne, hj], hdiv⟩

theorem isPublicExponentBitSet_iff {pos : ℕ} (h : pos < 64) :
    isPublicExponentBitSet key pos ≠ 0 ↔ pos < 32 ∧ key.exponent.toNat.testBit pos = true := by
  have hval : (isPublicExponentBitSet key pos).toNat =
      (key.exponent.toNat.testBit pos).toNat * 2 ^ pos % 2 ^ 32 := by
    have hone : (1 <<< UInt64.ofNat pos : UInt64).toNat = 2 ^ pos := by
      have hpos : (UInt64.ofNat pos).toNat = pos := by
        rw [UInt64.toNat_ofNat']
        lia
      have hlt : 2 ^ pos < 2 ^ 64 := Nat.pow_lt_pow_right (by norm_num) h
      rw [UInt64.toNat_shiftLeft, hpos, mod_eq_of_lt h, shiftLeft_eq, UInt64.toNat_one,
        Nat.one_mul, mod_eq_of_lt hlt]
    rw [isPublicExponentBitSet, UInt64.toNat_toUInt32, UInt64.toNat_and, hone, and_two_pow]
  have hzero : isPublicExponentBitSet key pos = 0 ↔
      (key.exponent.toNat.testBit pos).toNat * 2 ^ pos % 2 ^ 32 = 0 := by
    rw [← hval]
    exact UInt32.toNat_inj.symm
  rw [ne_eq, hzero]
  cases hbit : key.exponent.toNat.testBit pos with
  | false => simp
  | true =>
    by_cases hpos : pos < 32
    · have hlt : 2 ^ pos < 2 ^ 32 := Nat.pow_lt_pow_right (by norm_num) hpos
      have hp : 0 < 2 ^ pos := Nat.two_pow_pos pos
      simp only [hpos, true_and, iff_true, Bool.toNat_true, Nat.one_mul, mod_eq_of_lt hlt]
      exact Nat.pos_iff_ne_zero.mp hp
    · have hdvd : 2 ^ 32 ∣ 2 ^ pos := pow_dvd_pow 2 (by lia)
      simp only [hpos, false_and, iff_false, not_not, Bool.toNat_true, Nat.one_mul]
      exact mod_eq_zero_of_dvd hdvd

end Exponent

section Powers

variable {key : RsaPublicKey}

theorem montgomeryMul_scaled (h : WellFormed key) {a b : List UInt32} {x y : ℕ}
    (ha : a.length = key.len) (hb : b.length = key.len)
    (hx : value a ≡ x * 2 ^ (32 * key.len) [MOD value key.modulus])
    (hy : value b ≡ y * 2 ^ (32 * key.len) [MOD value key.modulus]) :
    value (montgomeryMul key a b) ≡ x * y * 2 ^ (32 * key.len) [MOD value key.modulus] := by
  have hmul := (montgomeryMul_spec h ha hb).2
  apply Nat.ModEq.cancel_left_of_coprime h.coprime
  calc 2 ^ (32 * key.len) * value (montgomeryMul key a b)
      ≡ value a * value b [MOD value key.modulus] := hmul
    _ ≡ x * 2 ^ (32 * key.len) * (y * 2 ^ (32 * key.len)) [MOD value key.modulus] := hx.mul hy
    _ = 2 ^ (32 * key.len) * (x * y * 2 ^ (32 * key.len)) := by ring

theorem montgomeryMul_unscaled (h : WellFormed key) {a b : List UInt32} {x : ℕ}
    (ha : a.length = key.len) (hb : b.length = key.len)
    (hx : value a ≡ x * 2 ^ (32 * key.len) [MOD value key.modulus]) :
    value (montgomeryMul key a b) ≡ x * value b [MOD value key.modulus] := by
  have hmul := (montgomeryMul_spec h ha hb).2
  apply Nat.ModEq.cancel_left_of_coprime h.coprime
  calc 2 ^ (32 * key.len) * value (montgomeryMul key a b)
      ≡ value a * value b [MOD value key.modulus] := hmul
    _ ≡ x * 2 ^ (32 * key.len) * value b [MOD value key.modulus] := hx.mul_right _
    _ = 2 ^ (32 * key.len) * (x * value b) := by ring

theorem powLoop_spec (h : WellFormed key) {aScaled acc : List UInt32} {v j e : ℕ}
    (ha : aScaled.length = key.len)
    (hv : value aScaled ≡ v * 2 ^ (32 * key.len) [MOD value key.modulus])
    (hacc : acc.length = key.len)
    (hpow : value acc ≡ v ^ (e / 2 ^ (j + 1)) * 2 ^ (32 * key.len) [MOD value key.modulus])
    (hbits : ∀ i, 1 ≤ i → i ≤ j → (isPublicExponentBitSet key i ≠ 0 ↔ e.testBit i = true)) :
    (powLoop key aScaled j acc).length = key.len ∧
      value (powLoop key aScaled j acc) ≡ v ^ (e / 2) * 2 ^ (32 * key.len)
        [MOD value key.modulus] := by
  induction j generalizing acc with
  | zero =>
    rw [Nat.zero_add, pow_one] at hpow
    exact ⟨hacc, hpow⟩
  | succ j ih =>
    have hsquare := montgomeryMul_scaled h hacc hacc hpow hpow
    have hlen := (montgomeryMul_spec h hacc hacc).1
    have hbit := hbits (j + 1) (by lia) (by lia)
    have hrest : ∀ i, 1 ≤ i → i ≤ j → (isPublicExponentBitSet key i ≠ 0 ↔ e.testBit i = true) :=
      fun i h₁ h₂ => hbits i h₁ (by lia)
    have hhalf : e / 2 ^ (j + 1 + 1) = e / 2 ^ (j + 1) / 2 := by
      rw [pow_succ, Nat.div_div_eq_div_mul]
    rw [testBit_eq_decide_div_mod_eq, decide_eq_true_eq] at hbit
    rw [hhalf, ← pow_add] at hsquare
    simp only [powLoop]
    by_cases hset : isPublicExponentBitSet key (j + 1) ≠ 0
    · have hmod := hbit.mp hset
      have hprod := montgomeryMul_scaled h hlen ha hsquare hv
      rw [← pow_succ, show e / 2 ^ (j + 1) / 2 + e / 2 ^ (j + 1) / 2 + 1 = e / 2 ^ (j + 1) by
        lia] at hprod
      rw [if_pos hset]
      exact ih (montgomeryMul_spec h hlen ha).1 hprod hrest
    · have hmod : e / 2 ^ (j + 1) % 2 = 0 := by
        lia
      rw [show e / 2 ^ (j + 1) / 2 + e / 2 ^ (j + 1) / 2 = e / 2 ^ (j + 1) by lia] at hsquare
      rw [if_neg hset]
      exact ih hlen hsquare hrest

theorem reduced (h : WellFormed key) {result : List UInt32} (hlen : result.length = key.len) :
    let out := if greaterEqualModulus key result then subtractModulus key result else result
    out.length = key.len ∧ value out = value result % value key.modulus := by
  have hlt := value_lt result
  have htop := h.top_bit
  have hR : 0 < 2 ^ (32 * key.len) := Nat.two_pow_pos _
  rw [hlen] at hlt
  by_cases hge : value key.modulus ≤ value result
  · have hge' := (greaterEqualModulus_iff hlen).mpr hge
    have hsub : value (subtractModulus key result) = value result - value key.modulus := by
      have hw : value result - value key.modulus + value key.modulus =
          value result + 2 ^ (32 * key.len) * 0 := by lia
      exact value_subtractModulus hlen hw (by lia)
    simp only [if_pos hge']
    refine ⟨by rw [subtractModulus, length_subtractLoop, hlen], ?_⟩
    rw [hsub, mod_eq_sub_mod hge, mod_eq_of_lt (by lia)]
  · have hge' : ¬ greaterEqualModulus key result = true :=
      mt (greaterEqualModulus_iff hlen).mp hge
    simp only [if_neg hge']
    exact ⟨hlen, (mod_eq_of_lt (by lia)).symm⟩

theorem power_spec (h : WellFormed key) {val : List UInt32} {j e : ℕ}
    (hval : val.length = key.len) (hj : 1 ≤ j) (htop : e / 2 ^ j = 1) (hodd : e % 2 = 1)
    (hbits : ∀ i, 1 ≤ i → i ≤ j - 1 → (isPublicExponentBitSet key i ≠ 0 ↔ e.testBit i = true)) :
    (power key (1 + j) val).length = key.len ∧
      value (power key (1 + j) val) = value val ^ e % value key.modulus := by
  obtain ⟨aScaled, ha⟩ : ∃ a, a = montgomeryMul key val key.rr := ⟨_, rfl⟩
  obtain ⟨hlenA, hmulA⟩ := montgomeryMul_spec h hval key.rr_length
  rw [← ha] at hlenA hmulA
  have hscaled : value aScaled ≡ value val * 2 ^ (32 * key.len) [MOD value key.modulus] := by
    rw [h.square] at hmulA
    apply Nat.ModEq.cancel_left_of_coprime h.coprime
    calc 2 ^ (32 * key.len) * value aScaled
        ≡ value val * ((2 ^ (32 * key.len)) ^ 2 % value key.modulus)
            [MOD value key.modulus] := hmulA
      _ ≡ value val * (2 ^ (32 * key.len)) ^ 2 [MOD value key.modulus] := (mod_modEq _ _).mul_left _
      _ = 2 ^ (32 * key.len) * (value val * 2 ^ (32 * key.len)) := by ring
  -- the loop starts below the top bit
  have hstart : value aScaled ≡ value val ^ (e / 2 ^ (j - 1 + 1)) * 2 ^ (32 * key.len)
      [MOD value key.modulus] := by
    rw [show j - 1 + 1 = j by lia, htop, pow_one]
    exact hscaled
  obtain ⟨acc, hacc⟩ : ∃ a, a = powLoop key aScaled (j - 1) aScaled := ⟨_, rfl⟩
  obtain ⟨hlenL, hloop⟩ := powLoop_spec h hlenA hscaled hlenA hstart hbits
  rw [← hacc] at hlenL hloop
  -- the last square and the last factor
  have hsquare := montgomeryMul_scaled h hlenL hlenL hloop hloop
  obtain ⟨hlenQ, -⟩ := montgomeryMul_spec h hlenL hlenL
  have hlast := montgomeryMul_unscaled h hlenQ hval hsquare
  obtain ⟨hlenR, -⟩ := montgomeryMul_spec h hlenQ hval
  rw [← pow_add, ← pow_succ, show e / 2 + e / 2 + 1 = e by lia] at hlast
  obtain ⟨hlenO, hout⟩ := reduced h hlenR
  have heq : power key (1 + j) val =
      if greaterEqualModulus key (montgomeryMul key (montgomeryMul key acc acc) val) then
        subtractModulus key (montgomeryMul key (montgomeryMul key acc acc) val)
      else montgomeryMul key (montgomeryMul key acc acc) val := by
    rw [hacc, ha, power, show 1 + j - 2 = j - 1 by lia]
  rw [heq]
  exact ⟨hlenO, hout.trans hlast⟩

end Powers

/- The exponent is read bit by bit through an `int`, which is why its bits from 32 up to the
one below its top bit have to be clear. A key of more than 4096 bits is refused. -/
theorem powMod_exact {key : RsaPublicKey} (h : WellFormed key) {inout : List UInt8}
    (hin : inout.length = 4 * key.len) (hodd : key.exponent.toNat % 2 = 1)
    (h3 : 3 ≤ key.exponent.toNat) :
    (maxKeyWords < key.len → powMod key inout = (einval, inout)) ∧
    (key.len ≤ maxKeyWords →
      (∀ i, 32 ≤ i → 2 ^ (i + 1) ≤ key.exponent.toNat → key.exponent.toNat.testBit i = false) →
      ∃ out, powMod key inout = (0, out) ∧ out.length = 4 * key.len ∧
        beValue out = beValue inout ^ key.exponent.toNat % value key.modulus) := by
  constructor
  · intro hlong
    simp [powMod, hlong]
  · intro hlen hclear
    obtain ⟨j, hbits, htop⟩ := numPublicExponentBits_some key (by lia)
    have hej : 2 ^ j ≤ key.exponent.toNat := by
      by_contra hej
      rw [div_eq_of_lt (by lia)] at htop
      lia
    have hj : j < 64 := (Nat.pow_lt_pow_iff_right (by norm_num)).mp
      (hej.trans_lt key.exponent.toNat_lt)
    have hj1 : 1 ≤ j := by
      by_contra hj
      rw [show j = 0 by lia, pow_zero, Nat.div_one] at htop
      lia
    have hlow : isPublicExponentBitSet key 0 ≠ 0 := by
      rw [isPublicExponentBitSet_iff key (by norm_num), testBit_zero]
      exact ⟨by norm_num, by simpa using hodd⟩
    have hseen : ∀ i, 1 ≤ i → i ≤ j - 1 →
        (isPublicExponentBitSet key i ≠ 0 ↔ key.exponent.toNat.testBit i = true) := by
      intro i hi hij
      rw [isPublicExponentBitSet_iff key (by lia)]
      by_cases h32 : i < 32
      · simp [h32]
      · have hle : 2 ^ (i + 1) ≤ 2 ^ j := Nat.pow_le_pow_right (by norm_num) (by lia)
        simp [h32, hclear i (by lia) (hle.trans hej)]
    have hval : (getBe32 inout).reverse.length = key.len := by
      rw [length_reverse, length_getBe32 hin]
    obtain ⟨hlenP, hpow⟩ := power_spec h hval hj1 htop hodd hseen
    refine ⟨(power key (1 + j) (getBe32 inout).reverse).reverse.flatMap putBe32, ?_, ?_, ?_⟩
    · simp [powMod, show ¬ maxKeyWords < key.len by lia, hbits, show ¬ 1 + j < 2 by lia, hlow]
    · rw [length_putBe32, length_reverse, hlenP]
    · rw [beValue_words, hpow, value_getBe32 hin]

/- A modulus `v ^ 2 + v + 1`, so that `v ^ 3` is 1 for `v = 65535`. -/
def cubeKey (exponent : UInt64) : RsaPublicKey :=
  ⟨4294901759, [4294901761], [4294836225], exponent, rfl⟩

theorem cubeKey_wellFormed (exponent : UInt64) : WellFormed (cubeKey exponent) :=
  ⟨show 0 < 1 by decide,
    show 2 ^ (32 * 1) ≤ 2 * value [4294901761] by decide +kernel,
    show (4294901759 * value [4294901761] + 1) % 2 ^ 32 = 0 by decide +kernel,
    show value [4294836225] = (2 ^ (32 * 1)) ^ 2 % value [4294901761] by decide +kernel⟩

/- The modulus `R - 1` of `n + 1` words. -/
def onesKey (n : ℕ) : RsaPublicKey :=
  ⟨1, List.replicate (n + 1) 4294967295, 1 :: List.replicate n 0, 65537, by simp⟩

theorem value_ones (n : ℕ) : value (List.replicate n 4294967295) + 1 = 2 ^ (32 * n) := by
  induction n with
  | zero => rfl
  | succ n ih =>
    rw [replicate_succ, value, show 32 * (n + 1) = 32 + 32 * n by ring, pow_add, ← ih]
    simp
    lia

theorem onesKey_wellFormed (n : ℕ) : WellFormed (onesKey n) := by
  have hlen : (onesKey n).len = n + 1 := by simp [onesKey, RsaPublicKey.len]
  have hones : value (onesKey n).modulus + 1 = 2 ^ (32 * (n + 1)) := value_ones (n + 1)
  have hrr : value (onesKey n).rr = 1 := by simp [onesKey, value, value_replicate_zero]
  constructor
  · lia
  · rw [hlen]
    lia
  · have hinv : (onesKey n).n0inv.toNat = 1 := rfl
    rw [hinv, Nat.one_mul, hones]
    exact mod_eq_zero_of_dvd (pow_dvd_pow 2 (by lia))
  · rw [hlen, hrr, ← hones, show (value (onesKey n).modulus + 1) ^ 2 =
      1 + value (onesKey n).modulus * (value (onesKey n).modulus + 2) by ring,
      add_mul_mod_self_left, mod_eq_of_lt (by lia)]

theorem powMod_exact_cube :
    ∃ out, powMod (cubeKey 65537) [0, 0, 255, 255] = (0, out) ∧
      beValue out = beValue [0, 0, 255, 255] ^ (cubeKey 65537).exponent.toNat %
        value (cubeKey 65537).modulus := by
  have hclear : ∀ i, 32 ≤ i → 2 ^ (i + 1) ≤ (cubeKey 65537).exponent.toNat →
      (cubeKey 65537).exponent.toNat.testBit i = false := by
    intro i hi hle
    have hpow : 2 ^ 33 ≤ 2 ^ (i + 1) := Nat.pow_le_pow_right (by norm_num) (by lia)
    have hexp : (cubeKey 65537).exponent.toNat = 65537 := rfl
    lia
  obtain ⟨out, heq, -, hval⟩ := (powMod_exact (cubeKey_wellFormed 65537)
    (show [0, 0, 255, 255].length = 4 * (cubeKey 65537).len from rfl) (by decide) (by decide)).2 (by decide) hclear
  exact ⟨out, heq, hval⟩

theorem cube_pow (q : ℕ) : 65535 ^ (3 * q + 1) % 4294901761 = 65535 := by
  rw [pow_succ, pow_mul, mul_mod, pow_mod]
  norm_num

/- Bit 32 of the exponent 2^33 + 2^32 + 1 is not seen, and a key of 129 words is refused. -/
theorem powMod_misses_bit :
    (∃ key, WellFormed key ∧ key.exponent.toNat = 2 ^ 33 + 2 ^ 32 + 1 ∧
      powMod key [0, 0, 255, 255] = (0, [0, 0, 0, 1]) ∧
      beValue [0, 0, 0, 1] ≠ beValue [0, 0, 255, 255] ^ key.exponent.toNat % value key.modulus) ∧
    WellFormed (onesKey 128) ∧ ∀ inout, powMod (onesKey 128) inout = (einval, inout) := by
  have hlong : maxKeyWords < (onesKey 128).len := by
    simp [maxKeyWords, onesKey, RsaPublicKey.len]
  have hexp : (cubeKey 12884901889).exponent.toNat = 3 * 4294967296 + 1 := rfl
  have hval : beValue [0, 0, 255, 255] = 65535 := rfl
  have hmod : value (cubeKey 12884901889).modulus = 4294901761 := rfl
  refine ⟨⟨cubeKey 12884901889, cubeKey_wellFormed _, rfl, by decide +kernel, ?_⟩,
    onesKey_wellFormed 128, fun inout => if_pos hlong⟩
  rw [hexp, hval, hmod, cube_pow]
  decide

end UBoot.Rsa
