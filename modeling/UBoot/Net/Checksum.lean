import UBoot.Lib.EndAround
import UBoot.Lib.Words

/-!
# The IP checksum (net/checksum.c)

The words are added in an `int` and folded twice. `ip_checksum_ok` ignores the lowest bit of the result.
On a big endian machine the odd byte is added as the highest byte of an `int`.
-/

namespace UBoot.Net.Checksum

open EndAround Words List Option

inductive Endian where
  | little
  | big
  deriving Repr, DecidableEq

section Code

variable (e : Endian)

/- `*ptr` for an `unsigned short` at the two bytes. -/
def halfword (b0 b1 : UInt8) : ℕ :=
  match e with
  | .little => b0.toNat + 256 * b1.toNat
  | .big => 256 * b0.toNat + b1.toNat

/- `oddbyte` with its first byte stored: the lowest one, or the highest one with the sign. -/
def oddbyte (b : UInt8) : ℤ :=
  match e with
  | .little => b.toNat
  | .big => if b.toNat < 128 then b.toNat * 2 ^ 24 else b.toNat * 2 ^ 24 - 2 ^ 32

/- `x + y` in `int`; `none` is an overflow. -/
def addInt (x y : ℤ) : Option ℤ := if -2 ^ 31 ≤ x + y ∧ x + y < 2 ^ 31 then some (x + y) else none

/- The loop of `compute_ip_checksum` and the odd byte (`checksum.c:19-29`). -/
def addWords : ℤ → List UInt8 → Option ℤ
  | sum, b0 :: b1 :: rest => (addInt sum (halfword e b0 b1)).bind fun sum => addWords sum rest
  | sum, [b] => addInt sum (oddbyte e b)
  | sum, [] => some sum

/- The two folds and the complement (`checksum.c:30-32`): `>> 16` rounds down. -/
def foldSum (sum : ℤ) : Option ℕ :=
  (addInt (sum / 2 ^ 16) (sum % 2 ^ 16)).bind fun sum =>
    (addInt sum (sum / 2 ^ 16)).map fun sum => ((-sum - 1) % 2 ^ 16).toNat

/- `compute_ip_checksum` (`checksum.c:14-35`). -/
def computeIpChecksum (buf : List UInt8) : Option ℕ := (addWords e 0 buf).bind foldSum

/- `ip_checksum_ok` (`checksum.c:57-60`). -/
def ipChecksumOk (buf : List UInt8) : Option Bool :=
  (computeIpChecksum e buf).map fun sum => decide (sum &&& 0xfffe = 0)

def halfwords : List UInt8 → List ℕ
  | b0 :: b1 :: rest => halfword e b0 b1 :: halfwords rest
  | [b] => [halfword e b 0]
  | [] => []

def onesSum (buf : List UInt8) : ℕ := endAroundSum 0xffff (halfwords e buf)

end Code

def flipBit (buf : List UInt8) (i : ℕ) (j : Fin 8) : List UInt8 :=
  buf.modify i fun b => b ^^^ UInt8.ofNat (2 ^ j.val)

/- The checksum is the complement of the sum, and what is accepted has the sum 0xffff and is the
only such buffer among those that differ in one bit. -/
structure ChecksumExact (e : Endian) (buf : List UInt8) : Prop where
  value : computeIpChecksum e buf = some (0xffff - onesSum e buf)
  accepts : ipChecksumOk e buf = some true ↔ onesSum e buf = 0xffff
  flips : ipChecksumOk e buf = some true → ∀ i j, i < buf.length →
    ipChecksumOk e (flipBit buf i j) ≠ some true

/- On a big endian machine the sum with the odd byte in the highest byte stays below 2 ^ 31. -/
def OddFits : Endian → ℕ → List UInt8 → Prop
  | e, sum, b0 :: b1 :: rest => OddFits e (sum + halfword e b0 b1) rest
  | .big, sum, [b] => sum + b.toNat * 2 ^ 24 < 2 ^ 31
  | _, _, _ => True

/- The sum is not 0xfffe, and where it is 0xffff, bit 0 of every halfword is clear. -/
structure ChecksumOk (e : Endian) (buf : List UInt8) : Prop where
  odd : OddFits e 0 buf
  sum : onesSum e buf ≠ 0xfffe
  even : onesSum e buf = 0xffff → ∀ w, w ∈ halfwords e buf → w % 2 = 0

section Sums

variable {e : Endian}

theorem halfword_le (e : Endian) (b0 b1 : UInt8) : halfword e b0 b1 ≤ 0xffff := by
  have h0 := b0.toNat_lt
  have h1 := b1.toNat_lt
  cases e with
  | little =>
    show b0.toNat + 256 * b1.toNat ≤ 0xffff
    lia
  | big =>
    show 256 * b0.toNat + b1.toNat ≤ 0xffff
    lia

theorem halfwords_le (e : Endian) (buf : List UInt8) : ∀ w, w ∈ halfwords e buf → w ≤ 0xffff := by
  induction buf using halfwords.induct with
  | case1 b0 b1 rest ih => exact forall_mem_cons.mpr ⟨halfword_le e b0 b1, ih⟩
  | case2 b => exact forall_mem_cons.mpr ⟨halfword_le e b 0, by simp⟩
  | case3 => simp [halfwords]

theorem onesSum_eq (e : Endian) (buf : List UInt8) : onesSum e buf = rep 0xffff (halfwords e buf).sum :=
  endAroundSum_eq (by decide) (halfwords_le e buf)

theorem rep_fold (s : ℕ) : rep 0xffff s = rep 0xffff (s / 2 ^ 16 + s % 2 ^ 16) := by
  rcases Nat.eq_zero_or_pos s with rfl | hs
  · rfl
  · have hsum : s = (s / 2 ^ 16 + s % 2 ^ 16) + 0xffff * (s / 2 ^ 16) := by lia
    nth_rewrite 1 [hsum]
    exact rep_add_mul (by lia) _

theorem rep_carry {t : ℕ} (ht : t < 2 ^ 17 - 1) :
    0xffff - rep 0xffff t = ((-((t : ℤ) + (t : ℤ) / 2 ^ 16) - 1) % 2 ^ 16).toNat := by
  by_cases hcarry : t < 2 ^ 16
  · have hneg : (-((t : ℤ) + (t : ℤ) / 2 ^ 16) - 1) % 2 ^ 16 = 0xffff - t := by omega
    rw [rep_of_le (by lia), hneg]
    lia
  · have hneg : (-((t : ℤ) + (t : ℤ) / 2 ^ 16) - 1) % 2 ^ 16 = 0x1fffe - t := by omega
    have hrep : rep 0xffff (t - 0xffff + 0xffff * 1) = rep 0xffff (t - 0xffff) := rep_add_mul (by lia) 1
    have hsmall : rep 0xffff (t - 0xffff) = t - 0xffff := rep_of_le (by lia)
    rw [show t - 0xffff + 0xffff * 1 = t by lia, hsmall] at hrep
    rw [hrep, hneg]
    omega

theorem foldSum_eq {s : ℕ} (hs : s < 2 ^ 31) : foldSum s = some (0xffff - rep 0xffff s) := by
  have hfirst : addInt ((s : ℤ) / 2 ^ 16) ((s : ℤ) % 2 ^ 16) = some ((s / 2 ^ 16 + s % 2 ^ 16 : ℕ) : ℤ) := by
    rw [addInt, if_pos (by lia)]
    push_cast
    rfl
  have ht : s / 2 ^ 16 + s % 2 ^ 16 < 2 ^ 17 - 1 := by lia
  rw [foldSum, hfirst, bind_some, rep_fold]
  generalize s / 2 ^ 16 + s % 2 ^ 16 = t at ht
  have hsecond : addInt (t : ℤ) ((t : ℤ) / 2 ^ 16) = some ((t : ℤ) + (t : ℤ) / 2 ^ 16) := if_pos (by lia)
  rw [hsecond, map_some, rep_carry ht]

theorem foldSum_negative {s b : ℕ} (hs : s < 2 ^ 31) (hb : 128 ≤ b) (hb' : b < 256) :
    foldSum (s + (b * 2 ^ 24 - 2 ^ 32)) = some (0x10000 - rep 0xffff (s + 256 * b)) ∨
      (foldSum (s + (b * 2 ^ 24 - 2 ^ 32)) = some 0 ∧ rep 0xffff (s + 256 * b) = 1) := by
  obtain ⟨t, ht⟩ : ∃ t, t = s / 2 ^ 16 + s % 2 ^ 16 + 256 * b := ⟨_, rfl⟩
  have hrep : rep 0xffff (t + 0xffff * (s / 2 ^ 16)) = rep 0xffff t := rep_add_mul (by lia) _
  rw [show t + 0xffff * (s / 2 ^ 16) = s + 256 * b by lia] at hrep
  have hfirst : addInt (((s : ℤ) + (b * 2 ^ 24 - 2 ^ 32)) / 2 ^ 16) (((s : ℤ) + (b * 2 ^ 24 - 2 ^ 32)) % 2 ^ 16) =
      some ((t : ℤ) - 0x10000) := by
    rw [addInt, if_pos (by lia)]
    refine congrArg some ?_
    lia
  have hsecond : addInt ((t : ℤ) - 0x10000) (((t : ℤ) - 0x10000) / 2 ^ 16) =
      some ((t : ℤ) - 0x10000 + ((t : ℤ) - 0x10000) / 2 ^ 16) := if_pos (by lia)
  rw [foldSum, hfirst, bind_some, hsecond, map_some, hrep]
  have hwrap : ∀ k, 0 < t - 0xffff * k → t - 0xffff * k ≤ 0xffff → rep 0xffff t = t - 0xffff * k := by
    intro k hpos hle
    have h : rep 0xffff (t - 0xffff * k + 0xffff * k) = rep 0xffff (t - 0xffff * k) := rep_add_mul hpos k
    rwa [Nat.sub_add_cancel (by lia), rep_of_le hle] at h
  have hbound : 0x8000 ≤ t ∧ t < 0x28000 := by lia
  clear ht hrep hfirst hsecond
  generalize hu : (t : ℤ) - 0x10000 = u
  rcases lt_or_ge t 0x10000 with h1 | h1
  · have hneg : (-(u + u / 2 ^ 16) - 1) % 2 ^ 16 = 0x10000 - t := by omega
    refine .inl (congrArg some ?_)
    rw [hneg, hwrap 0 (by lia) (by lia)]
    lia
  rcases lt_or_ge t 0x1ffff with h2 | h2
  · have hneg : (-(u + u / 2 ^ 16) - 1) % 2 ^ 16 = 0x1ffff - t := by omega
    refine .inl (congrArg some ?_)
    rw [hneg, hwrap 1 (by lia) (by lia)]
    omega
  rcases Nat.eq_or_lt_of_le h2 with h3 | h3
  · -- the first fold gives 0xffff, which the second one leaves
    have hneg : (-(u + u / 2 ^ 16) - 1) % 2 ^ 16 = 0 := by lia
    refine .inr ⟨by rw [hneg]; rfl, ?_⟩
    rw [hwrap 2 (by lia) (by lia)]
    lia
  · have hneg : (-(u + u / 2 ^ 16) - 1) % 2 ^ 16 = 0x2fffe - t := by omega
    refine .inl (congrArg some ?_)
    rw [hneg, hwrap 2 (by lia) (by lia)]
    omega

end Sums

def lastOdd : List UInt8 → Option UInt8
  | _ :: _ :: rest => lastOdd rest
  | [b] => some b
  | [] => none

section Loop

variable {e : Endian}

variable {s : ℕ} {buf : List UInt8}

theorem oddFits_mono {s' : ℕ} (hs : s ≤ s') (h : OddFits e s' buf) : OddFits e s buf := by
  induction buf using halfwords.induct generalizing s s' with
  | case1 b0 b1 rest ih =>
    rw [OddFits] at h ⊢
    exact ih (Nat.add_le_add_right hs _) h
  | case2 b =>
    cases e with
    | little => trivial
    | big =>
      rw [OddFits] at h ⊢
      lia
  | case3 => cases e <;> trivial

theorem oddFits_little (s : ℕ) (buf : List UInt8) : OddFits .little s buf := by
  induction buf using halfwords.induct generalizing s with
  | case1 b0 b1 rest ih =>
    rw [OddFits]
    exact ih _
  | case2 b => trivial
  | case3 => trivial

theorem oddFits_last {b : UInt8} (h : OddFits .big s buf) (hb : b ∈ lastOdd buf) : b.toNat < 128 := by
  induction buf using halfwords.induct generalizing s with
  | case1 b0 b1 rest ih =>
    rw [OddFits] at h
    exact ih h hb
  | case2 c =>
    obtain rfl : c = b := some.inj hb
    rw [OddFits] at h
    lia
  | case3 => cases hb

theorem addInt_nat {x y : ℕ} (h : x + y < 2 ^ 31) : addInt x y = some ((x + y : ℕ) : ℤ) := by
  rw [addInt, if_pos (by lia)]
  push_cast
  rfl

theorem addWords_fits (hs : s + 0xffff * ((buf.length + 1) / 2) < 2 ^ 31) (h : OddFits e s buf) :
    (addWords e s buf).bind foldSum = some (0xffff - rep 0xffff (s + (halfwords e buf).sum)) := by
  induction buf using halfwords.induct generalizing s with
  | case1 b0 b1 rest ih =>
    have hw := halfword_le e b0 b1
    simp only [length_cons] at hs
    rw [OddFits] at h
    rw [addWords, addInt_nat (by lia), bind_some, ih (by lia) h, halfwords, sum_cons,
      Nat.add_assoc]
  | case2 b =>
    have hlt := b.toNat_lt
    simp only [length_singleton] at hs
    cases e with
    | little =>
      have hsum : (halfwords .little [b]).sum = b.toNat := by simp [halfwords, halfword]
      rw [addWords, oddbyte, addInt_nat (by lia), bind_some, foldSum_eq (by lia), hsum]
    | big =>
      rw [OddFits] at h
      have hsum : (halfwords .big [b]).sum = 256 * b.toNat := by simp [halfwords, halfword]
      have hodd : oddbyte .big b = ((b.toNat * 2 ^ 24 : ℕ) : ℤ) := by
        rw [oddbyte, if_pos (by lia)]
        push_cast
        rfl
      rw [addWords, hodd, addInt_nat (by lia), bind_some, foldSum_eq (by lia), hsum]
      -- the odd byte in the highest byte folds to the same sum
      rcases Nat.eq_zero_or_pos (s + 256 * b.toNat) with hzero | hpos
      · rw [show s = 0 by lia, show b.toNat = 0 by lia]
        rfl
      · rw [show s + b.toNat * 2 ^ 24 = s + 256 * b.toNat + 0xffff * (256 * b.toNat) by lia,
          rep_add_mul hpos]
  | case3 =>
    rw [addWords, bind_some, foldSum_eq (by simpa using hs)]
    rfl

theorem addWords_negative (hs : s + 0xffff * ((buf.length + 1) / 2) < 2 ^ 31)
    (h : ¬ OddFits e s buf) : e = .big ∧ ∃ b, b ∈ lastOdd buf ∧ ((addWords e s buf).bind foldSum = none ∨
      128 ≤ b.toNat ∧ 0 < s + (halfwords e buf).sum ∧
        ((addWords e s buf).bind foldSum = some (0x10000 - rep 0xffff (s + (halfwords e buf).sum)) ∨
          (addWords e s buf).bind foldSum = some 0 ∧ rep 0xffff (s + (halfwords e buf).sum) = 1)) := by
  induction buf using halfwords.induct generalizing s with
  | case1 b0 b1 rest ih =>
    have hw := halfword_le e b0 b1
    simp only [length_cons] at hs
    rw [OddFits] at h
    rw [addWords, addInt_nat (by lia), bind_some, halfwords, sum_cons, ← Nat.add_assoc, lastOdd]
    exact ih (by lia) h
  | case2 b =>
    have hlt := b.toNat_lt
    simp only [length_singleton] at hs
    cases e with
    | little => exact absurd trivial h
    | big =>
      rw [OddFits] at h
      have hsum : (halfwords .big [b]).sum = 256 * b.toNat := by simp [halfwords, halfword]
      refine ⟨rfl, b, rfl, ?_⟩
      rw [addWords, hsum]
      by_cases hb : b.toNat < 128
      · have hover : addInt s (oddbyte .big b) = none := by
          rw [addInt, oddbyte, if_pos hb, if_neg (by lia)]
        exact .inl (by rw [hover, bind_none])
      · have hadd : addInt s (oddbyte .big b) = some ((s : ℤ) + (b.toNat * 2 ^ 24 - 2 ^ 32)) := by
          rw [addInt, oddbyte, if_neg hb, if_pos (by lia)]
        rw [hadd, bind_some]
        exact .inr ⟨by lia, by lia, foldSum_negative (by lia) (by lia) hlt⟩
  | case3 => cases e <;> exact absurd trivial h

end Loop

section Accept

variable {e : Endian} {buf : List UInt8}

theorem mask_eq_zero {c : ℕ} (hc : c < 2 ^ 16) : c &&& 0xfffe = 0 ↔ c ≤ 1 := by
  have hmask : c &&& (2 ^ 16 - 1 - (2 ^ 1 - 1)) = c / 2 ^ 1 * 2 ^ 1 := land_highMask hc (by decide)
  rw [show 0xfffe = 2 ^ 16 - 1 - (2 ^ 1 - 1) by decide, hmask]
  lia

theorem ipChecksumOk_iff {c : ℕ} (h : computeIpChecksum e buf = some c) (hc : c < 2 ^ 16) :
    ipChecksumOk e buf = some true ↔ c ≤ 1 := by
  rw [ipChecksumOk, h, map_some, some.injEq, decide_eq_true_iff, mask_eq_zero hc]

theorem compute_fits (hlen : buf.length ≤ 65535) (h : OddFits e 0 buf) :
    computeIpChecksum e buf = some (0xffff - onesSum e buf) := by
  have hloop := addWords_fits (s := 0) (by lia) h
  rw [Nat.zero_add] at hloop
  rw [onesSum_eq]
  exact hloop

theorem accepted_fits (hlen : buf.length ≤ 65535) (h : OddFits e 0 buf) :
    ipChecksumOk e buf = some true ↔ 0xfffe ≤ onesSum e buf := by
  rw [ipChecksumOk_iff (compute_fits hlen h) (by lia)]
  lia

theorem onesSum_le (e : Endian) (buf : List UInt8) : onesSum e buf ≤ 0xffff := by
  rw [onesSum_eq]
  exact rep_le (by decide)

theorem accepted_negative (hlen : buf.length ≤ 65535) (h : ¬ OddFits e 0 buf)
    (hok : ipChecksumOk e buf = some true) : e = .big ∧ (∃ b, b ∈ lastOdd buf ∧ 128 ≤ b.toNat) ∧
      (onesSum e buf = 0xffff ∨ onesSum e buf = 1) := by
  obtain ⟨he, b, hb, hcases⟩ := addWords_negative (s := 0) (by lia) h
  rw [Nat.zero_add, ← onesSum_eq] at hcases
  have hle := onesSum_le e buf
  refine ⟨he, ?_⟩
  rcases hcases with hnone | ⟨hneg, hpos, hvalue | ⟨-, hone⟩⟩
  · have hundef : computeIpChecksum e buf = none := hnone
    rw [ipChecksumOk, hundef] at hok
    cases hok
  · have hsum : 0 < onesSum e buf := by
      rw [onesSum_eq]
      exact rep_pos hpos
    have hone := (ipChecksumOk_iff hvalue (by lia)).mp hok
    exact ⟨⟨b, hb, hneg⟩, .inl (by lia)⟩
  · exact ⟨⟨b, hb, hneg⟩, .inr hone⟩

theorem fits_of_value (hlen : buf.length ≤ 65535)
    (h : computeIpChecksum e buf = some (0xffff - onesSum e buf)) : OddFits e 0 buf := by
  by_contra hfit
  obtain ⟨-, b, -, hcases⟩ := addWords_negative (s := 0) (by lia) hfit
  rw [Nat.zero_add, ← onesSum_eq] at hcases
  have hle := onesSum_le e buf
  rcases hcases with hnone | ⟨-, hpos, hvalue | ⟨hzero, hone⟩⟩
  · cases h.symm.trans hnone
  · have hsum : 0 < onesSum e buf := by
      rw [onesSum_eq]
      exact rep_pos hpos
    have heq := some.inj (h.symm.trans hvalue)
    lia
  · have heq := some.inj (h.symm.trans hzero)
    lia

end Accept

section Flip

variable {e : Endian}

theorem flip_byte (b : UInt8) (j : Fin 8) :
    (b ^^^ UInt8.ofNat (2 ^ j.val)).toNat = b.toNat + 2 ^ j.val ∨
      b.toNat = (b ^^^ UInt8.ofNat (2 ^ j.val)).toNat + 2 ^ j.val ∧ (j = 0 → b.toNat % 2 = 1) := by
  have hall : ∀ n : Fin 256, ∀ j : Fin 8,
      (UInt8.ofNat n ^^^ UInt8.ofNat (2 ^ j.val)).toNat = (UInt8.ofNat n).toNat + 2 ^ j.val ∨
        (UInt8.ofNat n).toNat = (UInt8.ofNat n ^^^ UInt8.ofNat (2 ^ j.val)).toNat + 2 ^ j.val ∧
          (j = 0 → (UInt8.ofNat n).toNat % 2 = 1) := by decide +kernel
  have h := hall ⟨b.toNat, b.toNat_lt⟩ j
  rwa [UInt8.ofNat_toNat] at h

/- The sum goes up or down by a power of two, down by one only if a halfword was odd; the odd byte of
a big endian machine is the high part of its halfword. -/
structure Flipped (e : Endian) (buf buf' : List UInt8) (k : ℕ) : Prop where
  bit : k < 16
  sum : (halfwords e buf').sum = (halfwords e buf).sum + 2 ^ k ∨
    (halfwords e buf).sum = (halfwords e buf').sum + 2 ^ k ∧ (k = 0 → ∃ w, w ∈ halfwords e buf ∧ w % 2 = 1)
  last : e = .big → lastOdd buf' = lastOdd buf ∨ 8 ≤ k

theorem flipped_first {b0 b1 c0 c1 : UInt8} {k : ℕ} (rest : List UInt8) (hk : k < 16)
    (h : halfword e c0 c1 = halfword e b0 b1 + 2 ^ k ∨
      halfword e b0 b1 = halfword e c0 c1 + 2 ^ k ∧ (k = 0 → halfword e b0 b1 % 2 = 1)) :
    Flipped e (b0 :: b1 :: rest) (c0 :: c1 :: rest) k := by
  refine ⟨hk, ?_, fun _ => .inl rfl⟩
  simp only [halfwords, sum_cons]
  rcases h with hup | ⟨hdown, hodd⟩
  · exact .inl (by lia)
  · exact .inr ⟨by lia, fun hzero => ⟨_, mem_cons_self, hodd hzero⟩⟩

theorem flipped_cons {b0 b1 : UInt8} {rest rest' : List UInt8} {k : ℕ} (h : Flipped e rest rest' k) :
    Flipped e (b0 :: b1 :: rest) (b0 :: b1 :: rest') k := by
  refine ⟨h.bit, ?_, h.last⟩
  simp only [halfwords, sum_cons]
  rcases h.sum with hup | ⟨hdown, hodd⟩
  · exact .inl (by lia)
  · refine .inr ⟨by lia, fun hzero => ?_⟩
    obtain ⟨w, hw, hbit⟩ := hodd hzero
    exact ⟨w, mem_cons_of_mem _ hw, hbit⟩

theorem halfword_flip (lo hi : UInt8) (j : Fin 8) :
    (lo ^^^ UInt8.ofNat (2 ^ j.val)).toNat + 256 * hi.toNat = lo.toNat + 256 * hi.toNat + 2 ^ j.val ∨
      lo.toNat + 256 * hi.toNat = (lo ^^^ UInt8.ofNat (2 ^ j.val)).toNat + 256 * hi.toNat + 2 ^ j.val ∧
        (j.val = 0 → (lo.toNat + 256 * hi.toNat) % 2 = 1) := by
  rcases flip_byte lo j with hup | ⟨hdown, hodd⟩
  · exact .inl (by lia)
  · refine .inr ⟨by lia, fun hzero => ?_⟩
    have h := hodd (Fin.ext hzero)
    lia

theorem halfword_flip_high (lo hi : UInt8) (j : Fin 8) :
    lo.toNat + 256 * (hi ^^^ UInt8.ofNat (2 ^ j.val)).toNat = lo.toNat + 256 * hi.toNat + 2 ^ (j.val + 8) ∨
      lo.toNat + 256 * hi.toNat = lo.toNat + 256 * (hi ^^^ UInt8.ofNat (2 ^ j.val)).toNat + 2 ^ (j.val + 8) ∧
        (j.val + 8 = 0 → (lo.toNat + 256 * hi.toNat) % 2 = 1) := by
  have hpow : 2 ^ (j.val + 8) = 256 * 2 ^ j.val := by
    rw [pow_add]
    lia
  rcases flip_byte hi j with hup | ⟨hdown, -⟩
  · exact .inl (by lia)
  · exact .inr ⟨by lia, fun hzero => by lia⟩

theorem flipBit_flipped {i : ℕ} {j : Fin 8} {buf : List UInt8} (hi : i < buf.length) :
    ∃ k, Flipped e buf (flipBit buf i j) k := by
  induction buf using halfwords.induct generalizing i with
  | case1 b0 b1 rest ih =>
    rcases i with _ | _ | i
    · cases e with
      | little => exact ⟨j.val, flipped_first rest (by lia) (halfword_flip b0 b1 j)⟩
      | big =>
        refine ⟨j.val + 8, flipped_first rest (by lia) ?_⟩
        simp only [halfword, Nat.add_comm (256 * _)]
        exact halfword_flip_high b1 b0 j
    · cases e with
      | little => exact ⟨j.val + 8, flipped_first rest (by lia) (halfword_flip_high b0 b1 j)⟩
      | big =>
        refine ⟨j.val, flipped_first rest (by lia) ?_⟩
        simp only [halfword, Nat.add_comm (256 * _)]
        exact halfword_flip b1 b0 j
    · simp only [length_cons] at hi
      obtain ⟨k, h⟩ := ih (i := i) (by lia)
      exact ⟨k, flipped_cons h⟩
  | case2 b =>
    obtain rfl : i = 0 := by simpa using hi
    cases e with
    | little =>
      refine ⟨j.val, by lia, ?_, fun h => Endian.noConfusion h⟩
      have h := halfword_flip b 0 j
      simpa [halfwords, halfword, flipBit] using h
    | big =>
      refine ⟨j.val + 8, by lia, ?_, fun _ => .inr (by lia)⟩
      have h := halfword_flip_high 0 b j
      simpa [halfwords, halfword, flipBit] using h
  | case3 => exact absurd hi (Nat.not_lt_zero i)

theorem clear_byte {b : UInt8} (hb : b.toNat % 2 = 1) :
    b.toNat = (b ^^^ UInt8.ofNat (2 ^ (0 : Fin 8).val)).toNat + 1 := by
  have hall : ∀ n : Fin 256, (UInt8.ofNat n).toNat % 2 = 1 →
      (UInt8.ofNat n).toNat = (UInt8.ofNat n ^^^ UInt8.ofNat (2 ^ (0 : Fin 8).val)).toNat + 1 := by
    decide +kernel
  have h := hall ⟨b.toNat, b.toNat_lt⟩
  rw [UInt8.ofNat_toNat] at h
  exact h hb

theorem clear_first {b0 b1 c0 c1 : UInt8} (rest : List UInt8)
    (h : halfword e b0 b1 = halfword e c0 c1 + 1) :
    (halfwords e (b0 :: b1 :: rest)).sum = (halfwords e (c0 :: c1 :: rest)).sum + 1 ∧
      ∀ s, OddFits e s (b0 :: b1 :: rest) → OddFits e s (c0 :: c1 :: rest) := by
  simp only [halfwords, sum_cons]
  refine ⟨by lia, fun s hfits => ?_⟩
  rw [OddFits] at hfits ⊢
  exact oddFits_mono (by lia) hfits

theorem clear_bit {w : ℕ} {buf : List UInt8} (hw : w ∈ halfwords e buf) (hodd : w % 2 = 1) :
    ∃ i, i < buf.length ∧ (halfwords e buf).sum = (halfwords e (flipBit buf i 0)).sum + 1 ∧
      ∀ s, OddFits e s buf → OddFits e s (flipBit buf i 0) := by
  induction buf using halfwords.induct with
  | case1 b0 b1 rest ih =>
    rcases mem_cons.mp hw with rfl | hw
    · cases e with
      | little =>
        have hb : b0.toNat % 2 = 1 := by
          simp only [halfword] at hodd
          lia
        have hclear := clear_byte hb
        refine ⟨0, Nat.succ_pos _, clear_first rest ?_⟩
        simp only [halfword]
        lia
      | big =>
        have hb : b1.toNat % 2 = 1 := by
          simp only [halfword] at hodd
          lia
        have hclear := clear_byte hb
        refine ⟨1, by simp, clear_first rest ?_⟩
        simp only [halfword]
        lia
    · obtain ⟨i, hi, hsum, hfits⟩ := ih hw
      refine ⟨i + 2, by simp only [length_cons]; lia, ?_, fun s h => ?_⟩
      · show (halfwords e (b0 :: b1 :: rest)).sum = (halfwords e (b0 :: b1 :: flipBit rest i 0)).sum + 1
        simp only [halfwords, sum_cons]
        lia
      · rw [OddFits] at h
        exact hfits _ h
  | case2 b =>
    obtain rfl : w = halfword e b 0 := mem_singleton.mp hw
    cases e with
    | little =>
      have hb : b.toNat % 2 = 1 := by simpa [halfword] using hodd
      have hclear := clear_byte hb
      refine ⟨0, Nat.succ_pos _, ?_, fun s _ => oddFits_little s _⟩
      simpa [halfwords, halfword, flipBit] using hclear
    | big =>
      simp only [halfword, UInt8.toNat_zero] at hodd
      lia
  | case3 => cases hw

theorem rep_flipped {t t' k : ℕ} (hk : k < 16) (ht : rep 0xffff t = 0xffff)
    (h : t' = t + 2 ^ k ∨ t = t' + 2 ^ k) :
    rep 0xffff t' ≠ 0xffff ∧ (rep 0xffff t' = 0xfffe → t = t' + 2 ^ k ∧ k = 0) ∧
      (rep 0xffff t' = 1 → k = 0) := by
  have hrep : rep 0xffff t = if t = 0 then 0 else (t - 1) % 0xffff + 1 := rfl
  have hrep' : rep 0xffff t' = if t' = 0 then 0 else (t' - 1) % 0xffff + 1 := rfl
  rw [ht] at hrep
  split at hrep
  · lia
  · interval_cases k <;> split at hrep' <;> lia

theorem rep_pred {t t' : ℕ} (ht : rep 0xffff t = 0xffff) (h : t = t' + 1) : rep 0xffff t' = 0xfffe := by
  have hrep : rep 0xffff t = if t = 0 then 0 else (t - 1) % 0xffff + 1 := rfl
  have hrep' : rep 0xffff t' = if t' = 0 then 0 else (t' - 1) % 0xffff + 1 := rfl
  rw [ht] at hrep
  split at hrep <;> split at hrep' <;> lia

theorem flipBit_length (buf : List UInt8) (i : ℕ) (j : Fin 8) : (flipBit buf i j).length = buf.length :=
  length_modify ..

end Flip

/-- The checksum of a buffer up to 65535 bytes is exact exactly when the odd byte fits, the sum is not
0xfffe, and for a sum of 0xffff bit 0 of every halfword is clear. -/
theorem checksum_exact_iff (e : Endian) (buf : List UInt8) (hlen : buf.length ≤ 65535) :
    ChecksumExact e buf ↔ ChecksumOk e buf := by
  constructor
  · rintro ⟨hvalue, haccepts, hflips⟩
    have hfits := fits_of_value hlen hvalue
    have hok := accepted_fits hlen hfits
    refine ⟨hfits, fun hsum => ?_, fun hsum w hw => ?_⟩
    · have h := haccepts.mp (hok.mpr hsum.ge)
      lia
    · -- with bit 0 of an odd halfword cleared the sum is 0xfffe
      by_contra hodd
      obtain ⟨i, hi, hdown, hkeep⟩ := clear_bit hw (by lia : w % 2 = 1)
      refine hflips (haccepts.mpr hsum) i 0 hi ?_
      rw [onesSum_eq] at hsum
      rw [accepted_fits ((flipBit_length buf i 0).trans_le hlen) (hkeep 0 hfits), onesSum_eq,
        rep_pred hsum hdown]
  · rintro ⟨hfits, hsum, heven⟩
    have hle := onesSum_le e buf
    have haccepts : ipChecksumOk e buf = some true ↔ onesSum e buf = 0xffff := by
      rw [accepted_fits hlen hfits]
      lia
    refine ⟨compute_fits hlen hfits, haccepts, fun hok i j hi hok' => ?_⟩
    have hfull := haccepts.mp hok
    have hlen' := (flipBit_length buf i j).trans_le hlen
    obtain ⟨k, hflip⟩ := flipBit_flipped (e := e) (j := j) hi
    have hrep : rep 0xffff (halfwords e buf).sum = 0xffff := by rwa [← onesSum_eq]
    obtain ⟨hnot, hpred, hone⟩ := rep_flipped hflip.bit hrep (hflip.sum.imp_right And.left)
    rw [← onesSum_eq] at hnot hpred hone
    have hle' := onesSum_le e (flipBit buf i j)
    by_cases hfits' : OddFits e 0 (flipBit buf i j)
    · have hhigh := (accepted_fits hlen' hfits').mp hok'
      obtain ⟨hdown, rfl⟩ := hpred (by lia)
      rcases hflip.sum with hup | ⟨-, hodd⟩
      · lia
      · obtain ⟨w, hw, hbit⟩ := hodd rfl
        have hclear := heven hfull w hw
        lia
    · obtain ⟨rfl, ⟨b, hb, hneg⟩, hends⟩ := accepted_negative hlen' hfits' hok'
      obtain rfl := hone (hends.resolve_left hnot)
      rcases hflip.last rfl with hlast | hhigh
      · rw [hlast] at hb
        have hsmall := oddFits_last hfits hb
        lia
      · lia

/- An accepted buffer of even halfwords. -/
theorem checksum_exact_even : ChecksumExact .little [0x02, 0x00, 0xfe, 0xff, 0xfe, 0xff] := by
  refine (checksum_exact_iff .little _ (by decide)).mpr ⟨?_, by decide, fun _ => by decide⟩
  exact oddFits_little 0 _

/- A valid IPv4 header is accepted with the lowest bit of its first byte changed too. On a big endian
machine the checksum of the one byte 0x80 is one more than the complement of the sum. -/
theorem checksum_misses_bit :
    (∃ header, ipChecksumOk .little header = some true ∧ ipChecksumOk .little (flipBit header 0 0) = some true ∧
      ¬ ChecksumExact .little header) ∧ ¬ ChecksumExact .big [0x80] := by
  have hok : ipChecksumOk .little [0x45, 0x00, 0x00, 0x73, 0x00, 0x00, 0x40, 0x00, 0x40, 0x11,
      0xb8, 0x61, 0xc0, 0xa8, 0x00, 0x01, 0xc0, 0xa8, 0x00, 0xc7] = some true := by decide
  have hflip : ipChecksumOk .little (flipBit [0x45, 0x00, 0x00, 0x73, 0x00, 0x00, 0x40, 0x00, 0x40, 0x11,
      0xb8, 0x61, 0xc0, 0xa8, 0x00, 0x01, 0xc0, 0xa8, 0x00, 0xc7] 0 0) = some true := by decide
  refine ⟨⟨_, hok, hflip, fun h => ?_⟩, fun h => ?_⟩
  · exact h.flips hok 0 0 (by decide) hflip
  · exact absurd h.value (by decide)

end UBoot.Net.Checksum
