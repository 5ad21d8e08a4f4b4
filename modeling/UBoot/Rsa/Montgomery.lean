import UBoot.Lib.Limbs

/-!
# RSA public exponentiation (lib/rsa/rsa-mod-exp.c)

`pow_mod` raises a number to the public exponent modulo the key, with Montgomery
multiplication on arrays of 32-bit words, low word first. Numbers come in and go out as
big endian bytes.
-/

namespace UBoot.Rsa

open Limbs

def einval : ℤ := -22

/- `RSA_MAX_KEY_BITS / 32`. -/
def maxKeyWords : ℕ := 4096 / 32

/- `struct rsa_public_key`; `len` is the length of both arrays. -/
structure RsaPublicKey where
  n0inv : UInt32
  modulus : List UInt32
  rr : List UInt32
  exponent : UInt64
  rr_length : rr.length = modulus.length

def RsaPublicKey.len (key : RsaPublicKey) : ℕ := key.modulus.length

/- The loop of `subtract_modulus`; `acc >>= 32` keeps the sign. -/
def subtractLoop : ℤ → List UInt32 → List UInt32 → List UInt32
  | acc, m :: ms, x :: xs =>
    let acc := acc + ((x.toNat : ℤ) - m.toNat)
    UInt32.ofNat (acc % 2 ^ 32).toNat :: subtractLoop (acc / 2 ^ 32) ms xs
  | _, _, xs => xs

def subtractModulus (key : RsaPublicKey) (num : List UInt32) : List UInt32 :=
  subtractLoop 0 key.modulus num

def greaterEqualLoop : List UInt32 → List UInt32 → Bool
  | m :: ms, x :: xs =>
    if x < m then false else if m < x then true else greaterEqualLoop ms xs
  | _, _ => true

def greaterEqualModulus (key : RsaPublicKey) (num : List UInt32) : Bool :=
  greaterEqualLoop key.modulus.reverse num.reverse

/- The turns `1 ≤ i < len` of `montgomery_mul_add_step`: the words stored, and both
accumulators after the last turn. -/
def mulAddLoop (a d0 : UInt32) : UInt64 → UInt64 → List UInt32 → List UInt32 → List UInt32 →
    List UInt32 × UInt64 × UInt64
  | accA, accB, b :: bs, m :: ms, r :: rs =>
    let accA := (accA >>> 32) + a.toUInt64 * b.toUInt64 + r.toUInt64
    let accB := (accB >>> 32) + d0.toUInt64 * m.toUInt64 + accA.toUInt32.toUInt64
    let (out, accA', accB') := mulAddLoop a d0 accA accB bs ms rs
    (accB.toUInt32 :: out, accA', accB')
  | accA, accB, _, _, _ => ([], accA, accB)

def montgomeryMulAddStep (key : RsaPublicKey) (result : List UInt32) (a : UInt32)
    (b : List UInt32) : List UInt32 :=
  match b, key.modulus, result with
  | b0 :: bs, m0 :: ms, r0 :: rs =>
    let accA := a.toUInt64 * b0.toUInt64 + r0.toUInt64
    let d0 := accA.toUInt32 * key.n0inv
    let accB := d0.toUInt64 * m0.toUInt64 + accA.toUInt32.toUInt64
    let (out, accA, accB) := mulAddLoop a d0 accA accB bs ms rs
    let accA := (accA >>> 32) + (accB >>> 32)
    let result := out ++ [accA.toUInt32]
    if accA >>> 32 ≠ 0 then subtractModulus key result else result
  | _, _, _ => result

def montgomeryMul (key : RsaPublicKey) (a b : List UInt32) : List UInt32 :=
  a.foldl (fun result ai => montgomeryMulAddStep key result ai b) (List.replicate key.len 0)

/- `for (exponent_bits = 1; exponent_bits < max_bits + 1; ++exponent_bits)`. -/
def exponentBitsLoop : ℕ → ℕ → UInt64 → Option ℕ
  | 0, _, _ => none
  | left + 1, bits, exponent =>
    let exponent := exponent >>> 1
    if exponent = 0 then some bits else exponentBitsLoop left (bits + 1) exponent

def numPublicExponentBits (key : RsaPublicKey) : Option ℕ :=
  if key.exponent = 0 then some 0 else exponentBitsLoop 64 1 key.exponent

/- The result is an `int`: it has the low 32 bits of the `uint64_t`. -/
def isPublicExponentBitSet (key : RsaPublicKey) (pos : ℕ) : UInt32 :=
  (key.exponent &&& (1 <<< UInt64.ofNat pos)).toUInt32

/- `for (j = k - 2; j > 0; --j)`. -/
def powLoop (key : RsaPublicKey) (aScaled : List UInt32) : ℕ → List UInt32 → List UInt32
  | 0, acc => acc
  | j + 1, acc =>
    let tmp := montgomeryMul key acc acc
    powLoop key aScaled j
      (if isPublicExponentBitSet key (j + 1) ≠ 0 then montgomeryMul key tmp aScaled else tmp)

/- `pow_mod` between its two conversions, for an exponent of `k` bits. -/
def power (key : RsaPublicKey) (k : ℕ) (val : List UInt32) : List UInt32 :=
  -- the bit at e[k-1] is 1 by definition
  let aScaled := montgomeryMul key val key.rr
  let acc := powLoop key aScaled (k - 2) aScaled
  let tmp := montgomeryMul key acc acc
  let result := montgomeryMul key tmp val
  if greaterEqualModulus key result then subtractModulus key result else result

/- The words of a big endian byte array in the order of the array (`get_unaligned_be32`). -/
def getBe32 : List UInt8 → List UInt32
  | b0 :: b1 :: b2 :: b3 :: bs =>
    (b0.toUInt32 <<< 24 ||| b1.toUInt32 <<< 16 ||| b2.toUInt32 <<< 8 ||| b3.toUInt32) :: getBe32 bs
  | _ => []

/- `put_unaligned_be32`. -/
def putBe32 (w : UInt32) : List UInt8 :=
  [(w >>> 24).toUInt8, (w >>> 16).toUInt8, (w >>> 8).toUInt8, w.toUInt8]

def powMod (key : RsaPublicKey) (inout : List UInt8) : ℤ × List UInt8 :=
  if maxKeyWords < key.len then (einval, inout)
  else
    let val := (getBe32 inout).reverse
    match numPublicExponentBits key with
    | none => (einval, inout)
    | some k =>
      if k < 2 then (einval, inout)
      else if isPublicExponentBitSet key 0 = 0 then (einval, inout)
      else (0, (power key k val).reverse.flatMap putBe32)

end UBoot.Rsa

/-!
## Montgomery multiplication on words

A multiply-add step leaves a number below `R = 2 ^ (32 * len)`. A product of `len` steps is the product of
its factors divided by `R`, modulo the key, and not yet reduced.
-/

namespace UBoot.Rsa

open Limbs List Nat

theorem toNat_ofNat_emod (x : ℤ) : ((UInt32.ofNat (x % 2 ^ 32).toNat).toNat : ℤ) = x % 2 ^ 32 := by
  have h₁ := Int.emod_nonneg x (show (2 ^ 32 : ℤ) ≠ 0 by norm_num)
  rw [UInt32.toNat_ofNat']
  lia

theorem length_subtractLoop (c : ℤ) (ms xs : List UInt32) :
    (subtractLoop c ms xs).length = xs.length := by
  induction ms generalizing c xs with
  | nil => simp [subtractLoop]
  | cons m ms ih =>
    cases xs with
    | nil => rfl
    | cons x xs => simp [subtractLoop, ih]

theorem value_subtractLoop (c : ℤ) (ms xs : List UInt32) (h : ms.length = xs.length) :
    ∃ k : ℤ, (value (subtractLoop c ms xs) : ℤ) + 2 ^ (32 * xs.length) * k = value xs - value ms + c := by
  induction ms generalizing c xs with
  | nil =>
    have hx : xs = [] := length_eq_zero_iff.mp h.symm
    subst hx
    exact ⟨c, by simp [subtractLoop, value]⟩
  | cons m ms ih =>
    cases xs with
    | nil => cases h
    | cons x xs =>
      simp only [subtractLoop, value]
      obtain ⟨k, hk⟩ := ih ((c + ((x.toNat : ℤ) - m.toNat)) / 2 ^ 32) xs (by simpa using h)
      refine ⟨k, ?_⟩
      have hdm := Int.emod_add_mul_ediv (c + ((x.toNat : ℤ) - m.toNat)) (2 ^ 32)
      have hpow : (2 : ℤ) ^ (32 * (x :: xs).length) = 2 ^ 32 * 2 ^ (32 * xs.length) := by
        rw [length_cons, show 32 * (xs.length + 1) = 32 + 32 * xs.length by ring, pow_add]
      rw [cast_add, toNat_ofNat_emod, hpow, cast_mul, cast_add, cast_mul,
        cast_add, cast_mul, cast_pow, cast_ofNat]
      linear_combination 2 ^ 32 * hk + hdm

theorem value_subtractModulus {key : RsaPublicKey} {num : List UInt32} {carry w : ℕ}
    (hlen : num.length = key.len)
    (hw : w + value key.modulus = value num + 2 ^ (32 * key.len) * carry)
    (hlt : w < 2 ^ (32 * key.len)) : value (subtractModulus key num) = w := by
  obtain ⟨k, hk⟩ := value_subtractLoop 0 key.modulus num hlen.symm
  have hbound := value_lt (subtractModulus key num)
  rw [subtractModulus, length_subtractLoop, hlen] at hbound
  rw [hlen] at hk
  unfold subtractModulus
  -- both are residues of the same number
  have hmod : (value (subtractLoop 0 key.modulus num) : ℤ) ≡ w [ZMOD 2 ^ (32 * key.len)] := by
    have hdiff : (w : ℤ) - value (subtractLoop 0 key.modulus num) =
        2 ^ (32 * key.len) * (k + carry) := by
      have hw' : (w : ℤ) + value key.modulus = value num + 2 ^ (32 * key.len) * carry := by
        exact_mod_cast hw
      linear_combination hw' - hk
    exact Int.modEq_iff_dvd.mpr ⟨k + carry, hdiff⟩
  have hnat : value (subtractLoop 0 key.modulus num) ≡ w [MOD 2 ^ (32 * key.len)] := by
    exact_mod_cast hmod
  exact Nat.ModEq.eq_of_lt_of_lt hnat hbound hlt

theorem greaterEqualLoop_iff (ms xs : List UInt32) (h : ms.length = xs.length) :
    greaterEqualLoop ms xs = true ↔ value ms.reverse ≤ value xs.reverse := by
  induction ms generalizing xs with
  | nil =>
    have hx : xs = [] := length_eq_zero_iff.mp h.symm
    subst hx
    simp [greaterEqualLoop]
  | cons m ms ih =>
    cases xs with
    | nil => cases h
    | cons x xs =>
      have hlen : ms.length = xs.length := by simpa using h
      have hm := value_lt ms.reverse
      have hx := value_lt xs.reverse
      rw [length_reverse, hlen] at hm
      rw [length_reverse] at hx
      rw [reverse_cons, reverse_cons, value_append, value_append, length_reverse,
        length_reverse, hlen]
      simp only [greaterEqualLoop, value, Nat.mul_zero, Nat.add_zero, UInt32.lt_iff_toNat_lt]
      split
      · next hlt =>
        have hle : 2 ^ (32 * xs.length) * (x.toNat + 1) ≤ 2 ^ (32 * xs.length) * m.toNat :=
          Nat.mul_le_mul_left _ hlt
        simp only [Bool.false_eq_true, false_iff, not_le]
        linarith
      · split
        · next hgt =>
          have hle : 2 ^ (32 * xs.length) * (m.toNat + 1) ≤ 2 ^ (32 * xs.length) * x.toNat :=
            Nat.mul_le_mul_left _ hgt
          simp only [true_iff]
          linarith
        · have heq : m.toNat = x.toNat := by lia
          rw [ih xs hlen, heq, Nat.add_le_add_iff_right]

theorem greaterEqualModulus_iff {key : RsaPublicKey} {num : List UInt32}
    (h : num.length = key.len) :
    greaterEqualModulus key num = true ↔ value key.modulus ≤ value num := by
  have hlen : key.modulus.reverse.length = num.reverse.length := by
    rw [length_reverse, length_reverse, h, RsaPublicKey.len]
  rw [greaterEqualModulus, greaterEqualLoop_iff _ _ hlen, reverse_reverse, reverse_reverse]

theorem toNat_high (x : UInt64) : (x >>> 32).toNat = x.toNat / 2 ^ 32 := by
  rw [UInt64.toNat_shiftRight]
  simp [shiftRight_eq_div_pow]

theorem toNat_low (x : UInt64) : x.toUInt32.toNat = x.toNat % 2 ^ 32 := by
  simp

theorem toNat_mulAdd (c : UInt64) (a b r : UInt32) (hc : c.toNat < 2 ^ 32) :
    (c + a.toUInt64 * b.toUInt64 + r.toUInt64).toNat = c.toNat + a.toNat * b.toNat + r.toNat := by
  have ha := a.toNat_lt
  have hb := b.toNat_lt
  have hr := r.toNat_lt
  have hab : a.toNat * b.toNat ≤ (2 ^ 32 - 1) * (2 ^ 32 - 1) := Nat.mul_le_mul (by lia) (by lia)
  rw [UInt64.toNat_add, UInt64.toNat_add, UInt64.toNat_mul, UInt32.toNat_toUInt64,
    UInt32.toNat_toUInt64, UInt32.toNat_toUInt64,
    mod_eq_of_lt (show a.toNat * b.toNat < 2 ^ 64 by lia),
    mod_eq_of_lt (show c.toNat + a.toNat * b.toNat < 2 ^ 64 by lia),
    mod_eq_of_lt (by lia)]

theorem length_mulAddLoop (a d0 : UInt32) (accA accB : UInt64) (bs ms rs : List UInt32)
    (hb : bs.length = ms.length) (hr : rs.length = ms.length) :
    (mulAddLoop a d0 accA accB bs ms rs).1.length = ms.length := by
  induction ms generalizing accA accB bs rs with
  | nil =>
    have hb' : bs = [] := length_eq_zero_iff.mp hb
    subst hb'
    rfl
  | cons m ms ih =>
    cases bs with
    | nil => cases hb
    | cons b bs =>
      cases rs with
      | nil => cases hr
      | cons r rs => simp [mulAddLoop, ih _ _ bs rs (by simpa using hb) (by simpa using hr)]

theorem value_mulAddLoop (a d0 : UInt32) (accA accB : UInt64) (bs ms rs : List UInt32)
    (hb : bs.length = ms.length) (hr : rs.length = ms.length) :
    let out := mulAddLoop a d0 accA accB bs ms rs
    value out.1 + 2 ^ (32 * ms.length) * (out.2.1.toNat / 2 ^ 32 + out.2.2.toNat / 2 ^ 32) =
      accA.toNat / 2 ^ 32 + accB.toNat / 2 ^ 32 + a.toNat * value bs + d0.toNat * value ms +
        value rs := by
  induction ms generalizing accA accB bs rs with
  | nil =>
    have hb' : bs = [] := length_eq_zero_iff.mp hb
    have hr' : rs = [] := length_eq_zero_iff.mp hr
    subst hb' hr'
    simp [mulAddLoop, value]
  | cons m ms ih =>
    cases bs with
    | nil => cases hb
    | cons b bs =>
      cases rs with
      | nil => cases hr
      | cons r rs =>
        have hA := accA.toNat_lt
        have hB := accB.toNat_lt
        obtain ⟨accA', hA'⟩ : ∃ acc, acc = (accA >>> 32) + a.toUInt64 * b.toUInt64 + r.toUInt64 :=
          ⟨_, rfl⟩
        obtain ⟨accB', hB'⟩ : ∃ acc, acc = (accB >>> 32) + d0.toUInt64 * m.toUInt64 +
          accA'.toUInt32.toUInt64 := ⟨_, rfl⟩
        have hvA : accA'.toNat = accA.toNat / 2 ^ 32 + a.toNat * b.toNat + r.toNat := by
          rw [hA', toNat_mulAdd _ _ _ _ (by rw [toNat_high]; lia), toNat_high]
        have hvB : accB'.toNat = accB.toNat / 2 ^ 32 + d0.toNat * m.toNat +
            accA'.toNat % 2 ^ 32 := by
          rw [hB', toNat_mulAdd _ _ _ _ (by rw [toNat_high]; lia), toNat_high, toNat_low]
        have hrest := ih accA' accB' bs rs (by simpa using hb) (by simpa using hr)
        simp only [mulAddLoop, ← hA', ← hB', value, toNat_low, length_cons] at hrest ⊢
        rw [show 32 * (ms.length + 1) = 32 + 32 * ms.length by ring, pow_add]
        have hdA := mod_add_div accA'.toNat (2 ^ 32)
        have hdB := mod_add_div accB'.toNat (2 ^ 32)
        linear_combination 2 ^ 32 * hrest + hdA + hdB + hvA + hvB

/- What `pow_mod` relies on in a key: `n0inv` is minus the inverse of the modulus, `rr` is
`R ^ 2` modulo it, and its top bit is set. The modulus is then odd. -/
structure WellFormed (key : RsaPublicKey) : Prop where
  len_pos : 0 < key.len
  top_bit : 2 ^ (32 * key.len) ≤ 2 * value key.modulus
  inverse : (key.n0inv.toNat * value key.modulus + 1) % 2 ^ 32 = 0
  square : value key.rr = (2 ^ (32 * key.len)) ^ 2 % value key.modulus

section Step

variable {key : RsaPublicKey}

theorem WellFormed.coprime (h : WellFormed key) :
    Nat.Coprime (value key.modulus) (2 ^ (32 * key.len)) := by
  apply Nat.Coprime.pow_right
  rw [coprime_two_right]
  by_contra heven
  rw [not_odd_iff_even] at heven
  obtain ⟨m, hm⟩ := heven
  have hinv := h.inverse
  rw [hm, show key.n0inv.toNat * (m + m) + 1 = 2 * (key.n0inv.toNat * m) + 1 by ring] at hinv
  lia

theorem montgomeryMulAddStep_sum (h : WellFormed key) {result b : List UInt32} (a : UInt32)
    (hr : result.length = key.len) (hb : b.length = key.len) :
    ∃ (out : List UInt32) (accA : UInt64) (d0 : UInt32), out.length + 1 = key.len ∧
      montgomeryMulAddStep key result a b =
        (if accA >>> 32 ≠ 0 then subtractModulus key (out ++ [accA.toUInt32])
          else out ++ [accA.toUInt32]) ∧
      2 ^ 32 * (value (out ++ [accA.toUInt32]) +
          2 ^ (32 * key.len) * (accA.toNat / 2 ^ 32)) =
        value result + a.toNat * value b + d0.toNat * value key.modulus := by
  have hinv := h.inverse
  have hpos := h.len_pos
  obtain ⟨m0, ms, hm⟩ : ∃ m0 ms, key.modulus = m0 :: ms := exists_cons_of_length_pos hpos
  obtain ⟨r0, rs, rfl⟩ : ∃ r0 rs, result = r0 :: rs := exists_cons_of_length_pos (by lia)
  obtain ⟨b0, bs, rfl⟩ : ∃ b0 bs, b = b0 :: bs := exists_cons_of_length_pos (by lia)
  simp only [RsaPublicKey.len, hm, length_cons] at hr hb ⊢
  obtain ⟨accA, hA⟩ : ∃ acc, acc = a.toUInt64 * b0.toUInt64 + r0.toUInt64 := ⟨_, rfl⟩
  obtain ⟨d0, hd⟩ : ∃ d, d = accA.toUInt32 * key.n0inv := ⟨_, rfl⟩
  obtain ⟨accB, hB⟩ : ∃ acc, acc = d0.toUInt64 * m0.toUInt64 + accA.toUInt32.toUInt64 := ⟨_, rfl⟩
  have hvA : accA.toNat = a.toNat * b0.toNat + r0.toNat := by
    have hzero := toNat_mulAdd 0 a b0 r0 (by decide)
    simpa [hA] using hzero
  have hvB : accB.toNat = d0.toNat * m0.toNat + accA.toNat % 2 ^ 32 := by
    have hzero := toNat_mulAdd 0 d0 m0 accA.toUInt32 (by decide)
    rw [toNat_low] at hzero
    simpa [hB] using hzero
  -- the choice of d0 makes the low word zero
  have hlow : accB.toNat % 2 ^ 32 = 0 := by
    have hinv₀ : (key.n0inv.toNat * m0.toNat + 1) % 2 ^ 32 = 0 := by
      rw [hm, value] at hinv
      rw [← hinv]
      ring_nf
      lia
    have hd₀ : d0.toNat = accA.toNat % 2 ^ 32 * key.n0inv.toNat % 2 ^ 32 := by
      rw [hd, UInt32.toNat_mul, toNat_low]
    rw [hvB]
    exact low_word_clear hinv₀ hd₀
  have hloop := value_mulAddLoop a d0 accA accB bs ms rs (by lia) (by lia)
  have hlen := length_mulAddLoop a d0 accA accB bs ms rs (by lia) (by lia)
  simp only at hloop
  refine ⟨(mulAddLoop a d0 accA accB bs ms rs).1,
    ((mulAddLoop a d0 accA accB bs ms rs).2.1 >>> 32) +
      ((mulAddLoop a d0 accA accB bs ms rs).2.2 >>> 32), d0, by lia, ?_, ?_⟩
  · simp only [montgomeryMulAddStep, hm, ← hA, ← hd, ← hB]
  · obtain ⟨s, hs⟩ : ∃ s, s = (mulAddLoop a d0 accA accB bs ms rs).2.1.toNat / 2 ^ 32 +
        (mulAddLoop a d0 accA accB bs ms rs).2.2.toNat / 2 ^ 32 := ⟨_, rfl⟩
    have hsum : ((mulAddLoop a d0 accA accB bs ms rs).2.1 >>> 32 +
        (mulAddLoop a d0 accA accB bs ms rs).2.2 >>> 32).toNat = s := by
      have hlt₁ := (mulAddLoop a d0 accA accB bs ms rs).2.1.toNat_lt
      have hlt₂ := (mulAddLoop a d0 accA accB bs ms rs).2.2.toNat_lt
      rw [UInt64.toNat_add, toNat_high, toNat_high, ← hs]
      exact mod_eq_of_lt (by lia)
    have hdm := mod_add_div s (2 ^ 32)
    have htop : value ((mulAddLoop a d0 accA accB bs ms rs).1 ++
          [((mulAddLoop a d0 accA accB bs ms rs).2.1 >>> 32 +
            (mulAddLoop a d0 accA accB bs ms rs).2.2 >>> 32).toUInt32]) +
          2 ^ (32 * (ms.length + 1)) * (s / 2 ^ 32) =
        value (mulAddLoop a d0 accA accB bs ms rs).1 + 2 ^ (32 * ms.length) * s := by
      rw [value_append, hlen, value, value, toNat_low, hsum,
        show 32 * (ms.length + 1) = 32 + 32 * ms.length by ring, pow_add]
      linear_combination 2 ^ (32 * ms.length) * hdm
    have hdA := mod_add_div accA.toNat (2 ^ 32)
    have hdB := mod_add_div accB.toNat (2 ^ 32)
    rw [hsum, htop, hs, hloop]
    simp only [value]
    linarith

theorem montgomeryMulAddStep_spec (h : WellFormed key) {result b : List UInt32} (a : UInt32)
    (hr : result.length = key.len) (hb : b.length = key.len) :
    (montgomeryMulAddStep key result a b).length = key.len ∧
      2 ^ 32 * value (montgomeryMulAddStep key result a b) ≡
        value result + a.toNat * value b [MOD value key.modulus] := by
  obtain ⟨out, accA, d0, hlen, heq, hsum⟩ := montgomeryMulAddStep_sum h a hr hb
  have hlen' : (out ++ [accA.toUInt32]).length = key.len := by simpa using hlen
  have hvr := value_lt result
  have hvb := value_lt b
  rw [hr] at hvr
  rw [hb] at hvb
  have hlt := step_lt hsum hvr a.toNat_lt hvb d0.toNat_lt
  have hmodulus := value_lt key.modulus
  obtain ⟨R, hR⟩ : ∃ R, R = 2 ^ (32 * key.len) := ⟨_, rfl⟩
  have hmod : 2 ^ 32 * (value (out ++ [accA.toUInt32]) + R * (accA.toNat / 2 ^ 32)) ≡
      value result + a.toNat * value b [MOD value key.modulus] := by
    rw [hR, hsum]
    simp [Nat.ModEq]
  rw [heq]
  by_cases hc : accA >>> 32 = 0
  · have hz : accA.toNat / 2 ^ 32 = 0 := by
      rw [← toNat_high, hc]
      rfl
    rw [hz, Nat.mul_zero, Nat.add_zero] at hmod
    rw [if_neg (by simpa using hc)]
    exact ⟨hlen', hmod⟩
  · have hne : accA.toNat / 2 ^ 32 ≠ 0 := by
      intro hz
      apply hc
      apply UInt64.toNat_inj.mp
      rw [toNat_high, hz]
      rfl
    -- the sum is below R + n, so what is left after one subtraction is below R
    obtain ⟨w, hw⟩ : ∃ w, value (out ++ [accA.toUInt32]) + R * (accA.toNat / 2 ^ 32) =
        w + value key.modulus := by
      have hle : R * 1 ≤ R * (accA.toNat / 2 ^ 32) := Nat.mul_le_mul_left _ (by lia)
      rw [← RsaPublicKey.len, ← hR] at hmodulus
      exact ⟨value (out ++ [accA.toUInt32]) + R * (accA.toNat / 2 ^ 32) - value key.modulus,
        by lia⟩
    have hwR : w < R := by
      rw [← hR, hw] at hlt
      lia
    have hsub : value (subtractModulus key (out ++ [accA.toUInt32])) = w := by
      rw [hR] at hw hwR
      exact value_subtractModulus hlen' hw.symm hwR
    rw [if_pos (by simpa using hc), hsub]
    refine ⟨by rw [subtractModulus, length_subtractLoop, hlen'], ?_⟩
    rw [hw, Nat.mul_add] at hmod
    have hself : 2 ^ 32 * w ≡ 2 ^ 32 * w + 2 ^ 32 * value key.modulus [MOD value key.modulus] := by
      simp [Nat.ModEq]
    exact hself.trans hmod

theorem montgomeryMul_spec (h : WellFormed key) {a b : List UInt32} (ha : a.length = key.len)
    (hb : b.length = key.len) :
    (montgomeryMul key a b).length = key.len ∧
      2 ^ (32 * key.len) * value (montgomeryMul key a b) ≡ value a * value b
        [MOD value key.modulus] := by
  have hfold : ∀ as : List UInt32,
      (as.foldl (fun result ai => montgomeryMulAddStep key result ai b)
        (List.replicate key.len 0)).length = key.len ∧
      2 ^ (32 * as.length) * value (as.foldl (fun result ai => montgomeryMulAddStep key result ai b)
        (List.replicate key.len 0)) ≡ value as * value b [MOD value key.modulus] := by
    intro as
    induction as using List.reverseRecOn with
    | nil => simp [value, value_replicate_zero, Nat.ModEq]
    | append_singleton as x ih =>
      obtain ⟨hlen, hmod⟩ := ih
      obtain ⟨hlen', hstep⟩ := montgomeryMulAddStep_spec h x hlen hb
      rw [foldl_append, foldl_cons, foldl_nil, value_append, length_append,
        length_singleton, show 32 * (as.length + 1) = 32 * as.length + 32 by ring, pow_add]
      refine ⟨hlen', ?_⟩
      have h₁ := hstep.mul_left (2 ^ (32 * as.length))
      have h₂ := hmod.add_right (2 ^ (32 * as.length) * (x.toNat * value b))
      simp only [value]
      calc _ = 2 ^ (32 * as.length) * (2 ^ 32 * value (montgomeryMulAddStep key _ x b)) := by ring
        _ ≡ _ [MOD value key.modulus] := h₁
        _ = _ := by rw [Nat.mul_add]
        _ ≡ _ [MOD value key.modulus] := h₂
        _ = _ := by ring
  have hall := hfold a
  rw [ha] at hall
  exact hall

end Step

end UBoot.Rsa
