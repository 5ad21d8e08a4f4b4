import UBoot.Rsa.PowMod
import UBoot.Lib.Memory

/-!
# Checking a signature under one key (lib/rsa/rsa-verify.c)

The signature is raised to the public exponent and compared with the padding and the hash. How many
bytes are compared comes from the checksum algorithm.
-/

namespace UBoot.Rsa

open Limbs Memory List

def eacces : ℤ := -13
def efault : ℤ := -14
def rsaMaxSigBits : ℕ := 4096

/- `struct key_prop`; a pointer that may be NULL is an `Option`, the exponent is the number
that its bytes hold. -/
structure KeyProp where
  rr : Option (List UInt8)
  modulus : Option (List UInt8)
  publicExponent : Option UInt64
  n0inv : UInt32
  numBits : Int32

/- `struct checksum_algo`; `rsaPadding` has `padLen - checksumLen` bytes. -/
structure ChecksumAlgo where
  name : String
  checksumLen : ℕ
  padLen : ℕ
  rsaPadding : List UInt8
deriving DecidableEq

def sha1SumLen : ℕ := 20
def sha256SumLen : ℕ := 32
def rsa2048Bytes : ℕ := 2048 / 8
def rsa4096Bytes : ℕ := 4096 / 8

/- `00 01 ff .. ff 00` and the identifier of the digest. -/
def pkcs1Padding (ones : ℕ) (digestInfo : List UInt8) : List UInt8 :=
  [0x00, 0x01] ++ List.replicate ones 0xff ++ [0x00] ++ digestInfo

def sha1DigestInfo : List UInt8 :=
  [0x30, 0x21, 0x30, 0x09, 0x06, 0x05, 0x2b, 0x0e, 0x03, 0x02, 0x1a, 0x05, 0x00, 0x04, 0x14]

def sha256DigestInfo : List UInt8 :=
  [0x30, 0x31, 0x30, 0x0d, 0x06, 0x09, 0x60, 0x86, 0x48, 0x01, 0x65, 0x03, 0x04, 0x02, 0x01,
    0x05, 0x00, 0x04, 0x20]

def paddingSha1Rsa2048 : List UInt8 := pkcs1Padding 218 sha1DigestInfo
def paddingSha256Rsa2048 : List UInt8 := pkcs1Padding 202 sha256DigestInfo
def paddingSha256Rsa4096 : List UInt8 := pkcs1Padding 458 sha256DigestInfo

def checksumAlgos : List ChecksumAlgo :=
  [⟨"sha1", sha1SumLen, rsa2048Bytes, paddingSha1Rsa2048⟩,
    ⟨"sha256", sha256SumLen, rsa2048Bytes, paddingSha256Rsa2048⟩,
    ⟨"sha256", sha256SumLen, rsa4096Bytes, paddingSha256Rsa4096⟩]

/- The comparison with the padding, then with the hash; `none` is a byte read outside of
`buf`, the padding or the hash. -/
def checkPadding (sigLen : ℕ) (buf hash : List UInt8) (algo : ChecksumAlgo) : Option ℤ :=
  let padLen := algo.padLen - algo.checksumLen
  match memcmp buf algo.rsaPadding padLen with
  | none => none
  | some res =>
    if res ≠ 0 then some einval
    else
      -- the length is unsigned
      match memcmp (buf.drop padLen) hash (((sigLen : ℤ) - padLen) % 2 ^ 32).toNat with
      | none => none
      | some res => if res ≠ 0 then some eacces else some 0

/- `modExp` is the modular exponentiation device: its result and what it leaves in `buf`.
The callers pass no NULL, so the check for that is not here. -/
def rsaVerifyKey (modExp : KeyProp → List UInt8 → ℤ × List UInt8) (prop : KeyProp)
    (sig hash : List UInt8) (algo : ChecksumAlgo) : Option ℤ :=
  if (sig.length : ℤ) ≠ prop.numBits.toInt.tdiv 8 % 2 ^ 32 then some einval
  else if rsaMaxSigBits / 8 < sig.length then some einval
  else if (modExp prop sig).1 ≠ 0 then some (modExp prop sig).1
  else checkPadding sig.length (modExp prop sig).2 hash algo

def rsaDefaultPubexp : UInt64 := 65537

section Compare

variable {modExp : KeyProp → List UInt8 → ℤ × List UInt8} {prop : KeyProp}
  {sig hash buf : List UInt8} {algo : ChecksumAlgo}

structure AlgoFits (algo : ChecksumAlgo) : Prop where
  padding_length : algo.rsaPadding.length = algo.padLen - algo.checksumLen
  checksum_le : algo.checksumLen ≤ algo.padLen
  pad_le : algo.padLen ≤ 512

theorem length_pkcs1Padding (ones : ℕ) (digestInfo : List UInt8) :
    (pkcs1Padding ones digestInfo).length = ones + 3 + digestInfo.length := by
  simp [pkcs1Padding]
  lia

theorem checksumAlgos_fit (h : algo ∈ checksumAlgos) : AlgoFits algo := by
  simp only [checksumAlgos, mem_cons, not_mem_nil, or_false] at h
  obtain rfl | rfl | rfl := h <;>
    exact ⟨length_pkcs1Padding _ _, by decide, by decide⟩

theorem rsaVerifyKey_compare (hmod : modExp prop sig = (0, buf)) (hbuf : buf.length = sig.length)
    (hlen : (sig.length : ℤ) = prop.numBits.toInt.tdiv 8) (hmax : sig.length ≤ 512) :
    rsaVerifyKey modExp prop sig hash algo = checkPadding buf.length buf hash algo := by
  have hwrap : (sig.length : ℤ) = prop.numBits.toInt.tdiv 8 % 2 ^ 32 := by
    rw [← hlen]
    lia
  unfold rsaVerifyKey rsaMaxSigBits
  rw [if_neg (not_not.mpr hwrap), if_neg (by lia), hmod, if_neg (by simp), hbuf]

theorem numBits_quot (bits : Int32) : -2 ^ 31 ≤ bits.toInt.tdiv 8 ∧ bits.toInt.tdiv 8 < 2 ^ 31 := by
  have h₁ := bits.le_toInt
  have h₂ := bits.toInt_lt
  cases le_total 0 bits.toInt with
  | inl h0 =>
    rw [Int.tdiv_eq_ediv_of_nonneg h0]
    lia
  | inr h0 =>
    have hneg := Int.neg_tdiv (-bits.toInt) 8
    rw [neg_neg] at hneg
    rw [hneg, Int.tdiv_eq_ediv_of_nonneg (by lia)]
    lia

theorem rsaVerifyKey_refused (h : (sig.length : ℤ) ≠ prop.numBits.toInt.tdiv 8 ∨ 512 < sig.length) :
    rsaVerifyKey modExp prop sig hash algo = some einval := by
  unfold rsaVerifyKey rsaMaxSigBits
  split
  · rfl
  · next hwrap =>
    split
    · rfl
    · next hmax =>
      -- the quotient would have to wrap, and then the length is above 512
      have hrange := numBits_quot prop.numBits
      lia

variable (hfit : AlgoFits algo) (hhash : hash.length = algo.checksumLen)
include hfit hhash

theorem checkPadding_differ (hbuf : buf.length ≤ 512)
    (h : buf.take (min buf.length algo.padLen) ≠
      (algo.rsaPadding ++ hash).take (min buf.length algo.padLen)) :
    ∃ ret, checkPadding buf.length buf hash algo = some ret ∧ ret ≠ 0 := by
  obtain ⟨hpad, hle, hmax⟩ := hfit
  obtain ⟨p, hp⟩ : ∃ p, p = algo.padLen - algo.checksumLen := ⟨_, rfl⟩
  unfold checkPadding
  rw [← hp] at hpad ⊢
  by_cases hfirst : buf.take (min buf.length p) = algo.rsaPadding.take (min buf.length p)
  · have hlong : p < buf.length := by
      by_contra hshort
      apply h
      rw [show min buf.length algo.padLen = min buf.length p by lia, hfirst,
        take_append_of_le_length (by lia)]
    have hagree := memcmp_agree (n := p) (show min buf.length p = min p (min buf.length
      algo.rsaPadding.length) by lia) hfirst
    rw [if_pos (by lia)] at hagree
    have hrest : (buf.drop p).take (min (buf.length - p) algo.checksumLen) ≠
        hash.take (min (buf.length - p) algo.checksumLen) := by
      intro heq
      apply h
      rw [show min buf.length algo.padLen = p + min (buf.length - p) algo.checksumLen by lia,
        take_add, take_add, heq, take_append_of_le_length (by lia),
        drop_left' hpad]
      rw [show min buf.length p = p by lia] at hfirst
      rw [hfirst]
    obtain ⟨res, hres, hnz⟩ := memcmp_differ (n := buf.length - p) (by lia) hrest
      (by rw [length_drop]; lia) (by lia)
    have hcount : (((buf.length : ℤ) - p) % 2 ^ 32).toNat = buf.length - p := by lia
    refine ⟨eacces, ?_, by decide⟩
    simp only [hagree, hcount, hres, ne_eq, not_true_eq_false, if_false, hnz, not_false_eq_true,
      if_true]
  · obtain ⟨res, hres, hnz⟩ := memcmp_differ (n := p) (by lia) hfirst (by lia) (by lia)
    exact ⟨einval, by simp [hres, hnz], by decide⟩

theorem checkPadding_agree (hbuf : buf.length ≤ 512)
    (h : buf.take (min buf.length algo.padLen) =
      (algo.rsaPadding ++ hash).take (min buf.length algo.padLen)) :
    checkPadding buf.length buf hash algo =
      if algo.padLen - algo.checksumLen ≤ buf.length ∧ buf.length ≤ algo.padLen then some 0
      else none := by
  obtain ⟨hpad, hle, hmax⟩ := hfit
  obtain ⟨p, hp⟩ : ∃ p, p = algo.padLen - algo.checksumLen := ⟨_, rfl⟩
  unfold checkPadding
  rw [← hp] at hpad ⊢
  have hfirst : buf.take (min buf.length p) = algo.rsaPadding.take (min buf.length p) := by
    have htake := congrArg (List.take (min buf.length p)) h
    rw [take_take, take_take,
      show min (min buf.length p) (min buf.length algo.padLen) = min buf.length p by lia,
      take_append_of_le_length (by lia)] at htake
    exact htake
  have hagree := memcmp_agree (n := p) (show min buf.length p = min p (min buf.length
    algo.rsaPadding.length) by lia) hfirst
  by_cases hlong : p ≤ buf.length
  · rw [if_pos (by lia)] at hagree
    have hrest : (buf.drop p).take (min (buf.length - p) algo.checksumLen) =
        hash.take (min (buf.length - p) algo.checksumLen) := by
      have hdrop := congrArg (List.drop p) h
      rw [drop_take, drop_take, drop_left' hpad,
        show min buf.length algo.padLen - p = min (buf.length - p) algo.checksumLen by lia]
        at hdrop
      exact hdrop
    have hagree' := memcmp_agree (n := buf.length - p) (show min (buf.length - p) algo.checksumLen =
      min (buf.length - p) (min (buf.drop p).length hash.length) by
        rw [length_drop]; lia) hrest
    have hcount : (((buf.length : ℤ) - p) % 2 ^ 32).toNat = buf.length - p := by lia
    rw [length_drop] at hagree'
    simp only [hagree, hcount, hagree', ne_eq, not_true_eq_false, if_false]
    by_cases hshort : buf.length ≤ algo.padLen
    · rw [if_pos (by lia), if_pos ⟨hlong, hshort⟩]
      simp
    · rw [if_neg (by lia), if_neg (by lia)]
  · rw [if_neg (by lia)] at hagree
    rw [if_neg (by lia)]
    simp [hagree]

end Compare

/- The result of the exponentiation is what the algorithm asks for, or the signature is not
as long as the algorithm says and the two differ before either ends. -/
theorem rsaVerifyKey_exact_iff {modExp : KeyProp → List UInt8 → ℤ × List UInt8} {prop : KeyProp}
    {sig hash : List UInt8} {algo : ChecksumAlgo} {n e : ℕ} (halgo : algo ∈ checksumAlgos)
    (hhash : hash.length = algo.checksumLen)
    (hmod : modExp prop sig = (0, beBytes sig.length (beValue sig ^ e % n))) :
    (∃ ret, rsaVerifyKey modExp prop sig hash algo = some ret ∧
      (ret = 0 ↔ (sig.length : ℤ) = prop.numBits.toInt.tdiv 8 ∧ sig.length = algo.padLen ∧
        beBytes sig.length (beValue sig ^ e % n) = algo.rsaPadding ++ hash)) ↔
    ((sig.length : ℤ) ≠ prop.numBits.toInt.tdiv 8 ∨ 512 < sig.length ∨ sig.length = algo.padLen ∨
      (beBytes sig.length (beValue sig ^ e % n)).take (min sig.length algo.padLen) ≠
        (algo.rsaPadding ++ hash).take (min sig.length algo.padLen)) := by
  have hfit := checksumAlgos_fit halgo
  have hle := hfit.checksum_le
  have hmax := hfit.pad_le
  by_cases hrefuse : (sig.length : ℤ) ≠ prop.numBits.toInt.tdiv 8 ∨ 512 < sig.length
  · rw [rsaVerifyKey_refused hrefuse]
    constructor
    · intro _
      tauto
    · intro _
      refine ⟨einval, rfl, ?_⟩
      constructor
      · intro h0
        exact absurd h0 (by decide)
      · intro h0
        lia
  · obtain ⟨hlen, hmaxSig⟩ := not_or.mp hrefuse
    obtain ⟨buf, hb⟩ : ∃ buf, buf = beBytes sig.length (beValue sig ^ e % n) := ⟨_, rfl⟩
    have hbuf : buf.length = sig.length := by simp [hb]
    have htotal : (algo.rsaPadding ++ hash).length = algo.padLen := by
      rw [length_append, hfit.padding_length, hhash]
      lia
    rw [← hb] at hmod ⊢
    rw [rsaVerifyKey_compare hmod hbuf (not_not.mp hlen) (by lia)]
    rw [← hbuf] at hlen hmaxSig ⊢
    by_cases hagree : buf.take (min buf.length algo.padLen) =
        (algo.rsaPadding ++ hash).take (min buf.length algo.padLen)
    · rw [checkPadding_agree hfit hhash (by lia) hagree]
      constructor
      · intro hspec
        obtain ⟨ret, hret, hiff⟩ := hspec
        split at hret
        · obtain rfl := (Option.some.inj hret).symm
          obtain ⟨-, hpad, -⟩ := hiff.mp rfl
          exact .inr (.inr (.inl hpad))
        · cases hret
      · intro hcond
        have hpad : buf.length = algo.padLen := by
          obtain h | h | h | h := hcond
          · exact absurd h hlen
          · exact absurd h hmaxSig
          · exact h
          · exact absurd hagree h
        have heq : buf = algo.rsaPadding ++ hash := by
          rw [show min buf.length algo.padLen = buf.length by lia, take_length,
            hpad, ← htotal, take_length] at hagree
          exact hagree
        rw [if_pos (by lia)]
        exact ⟨0, rfl, fun _ => ⟨not_not.mp hlen, hpad, heq⟩, fun _ => rfl⟩
    · obtain ⟨ret, hret, hnz⟩ := checkPadding_differ hfit hhash (by lia) hagree
      rw [hret]
      constructor
      · intro _
        tauto
      · intro _
        refine ⟨ret, rfl, ?_⟩
        constructor
        · intro h0
          exact absurd h0 hnz
        · intro hall
          obtain ⟨-, hpad, heq⟩ := hall
          exact absurd (by rw [heq]) hagree

/- Exponentiation with 3 modulo `n`. -/
def cubeModExp (n : ℕ) (_ : KeyProp) (sig : List UInt8) : ℤ × List UInt8 :=
  (0, beBytes sig.length (beValue sig ^ 3 % n))

def cubeProp (numBits : Int32) (size n : ℕ) : KeyProp :=
  { rr := none, modulus := some (beBytes size n), publicExponent := some 3, n0inv := 0,
    numBits := numBits }

/- A 4096 bit modulus for which `5 * 2 ^ 1363` is a signature of this hash. -/
def sampleHash : List UInt8 := List.replicate 32 0x5b

def sampleModulus : ℕ := (5 * 2 ^ 1363) ^ 3 - beValue (paddingSha256Rsa4096 ++ sampleHash)

def sampleSig : List UInt8 := beBytes 512 (5 * 2 ^ 1363)

theorem rsaVerifyKey_accepts :
    rsaVerifyKey (cubeModExp sampleModulus) (cubeProp 4096 512 sampleModulus) sampleSig sampleHash
      ⟨"sha256", sha256SumLen, rsa4096Bytes, paddingSha256Rsa4096⟩ = some 0 := by
  have hlen : sampleSig.length = 512 := length_beBytes _ _
  have hpad : sampleSig.length = rsa4096Bytes := hlen
  have hbits : (sampleSig.length : ℤ) = (cubeProp 4096 512 sampleModulus).numBits.toInt.tdiv 8 := by
    rw [hlen]
    rfl
  have hcube : beBytes sampleSig.length (beValue sampleSig ^ 3 % sampleModulus) =
      paddingSha256Rsa4096 ++ sampleHash := by
    decide +kernel
  obtain ⟨ret, hret, hiff⟩ := (rsaVerifyKey_exact_iff
    (show (⟨"sha256", sha256SumLen, rsa4096Bytes, paddingSha256Rsa4096⟩ : ChecksumAlgo) ∈
      checksumAlgos by simp [checksumAlgos])
    (show sampleHash.length = sha256SumLen by decide)
    (show cubeModExp sampleModulus (cubeProp 4096 512 sampleModulus) sampleSig = _ from rfl)).mpr
     (.inr (.inr (.inl hpad)))
  rw [hret, hiff.mpr ⟨hbits, hpad, hcube⟩]

/- A key of 3840 bits: its signatures are as long as the padding for 4096 bits is. -/
def shortKeyModulus : ℕ := (2 ^ 1280 - 1) ^ 3 - beValue paddingSha256Rsa4096

def shortKeySig : List UInt8 := List.replicate 320 0 ++ List.replicate 160 0xff

/- The signature is accepted whatever the hash is, and is not as long as the algorithm says. -/
theorem rsaVerifyKey_any_hash :
    cubeModExp shortKeyModulus (cubeProp 3840 480 shortKeyModulus) shortKeySig =
      (0, beBytes shortKeySig.length (beValue shortKeySig ^ 3 % shortKeyModulus)) ∧
    shortKeySig.length ≠ rsa4096Bytes ∧
    ∀ hash : List UInt8, hash.length = sha256SumLen →
      rsaVerifyKey (cubeModExp shortKeyModulus) (cubeProp 3840 480 shortKeyModulus) shortKeySig hash
        ⟨"sha256", sha256SumLen, rsa4096Bytes, paddingSha256Rsa4096⟩ = some 0 := by
  have hlen : shortKeySig.length = 480 := by
    rw [shortKeySig, length_append, length_replicate, length_replicate]
  have hpad : paddingSha256Rsa4096.length = 480 := length_pkcs1Padding _ _
  have hcube : beBytes shortKeySig.length (beValue shortKeySig ^ 3 % shortKeyModulus) =
      paddingSha256Rsa4096 := by
    decide +kernel
  have hmod : cubeModExp shortKeyModulus (cubeProp 3840 480 shortKeyModulus) shortKeySig =
      (0, paddingSha256Rsa4096) := by
    rw [← hcube]
    rfl
  have hbits : (shortKeySig.length : ℤ) =
      (cubeProp 3840 480 shortKeyModulus).numBits.toInt.tdiv 8 := by
    rw [hlen]
    rfl
  refine ⟨rfl, by rw [hlen]; decide, ?_⟩
  intro hash hhash
  have hfit : AlgoFits ⟨"sha256", sha256SumLen, rsa4096Bytes, paddingSha256Rsa4096⟩ :=
    ⟨length_pkcs1Padding _ _, by decide, by decide⟩
  have hagree : paddingSha256Rsa4096.take (min paddingSha256Rsa4096.length rsa4096Bytes) =
      (paddingSha256Rsa4096 ++ hash).take (min paddingSha256Rsa4096.length rsa4096Bytes) := by
    rw [hpad, show min 480 rsa4096Bytes = 480 by decide, take_append_of_le_length (by lia)]
  rw [rsaVerifyKey_compare hmod (hpad.trans hlen.symm) hbits (by lia),
    checkPadding_agree hfit hhash (by lia) hagree, if_pos]
  rw [hpad]
  decide

end UBoot.Rsa
