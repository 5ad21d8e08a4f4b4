import UBoot.Env.Mmc

/-!
# The checksum of the environment

`lib/crc32.c` takes a buffer byte by byte up to a word boundary, word by word from there and byte by byte
at the end, each time through a table, on a little-endian processor.
-/

namespace UBoot.Env.Crc

open Function List Mmc

section Code

/-- The exponents of the polynomial, but for 32. -/
def p : List ℕ := [0, 1, 2, 4, 5, 7, 8, 10, 11, 12, 16, 22, 23, 26]

def poly : BitVec 32 := p.foldl (fun poly n => poly ||| 1#32 <<< (31 - n)) 0

/-- One turn of the inner loop of `make_crc_table`. -/
def shift (c : BitVec 32) : BitVec 32 := if c.getLsbD 0 then poly ^^^ (c >>> 1) else c >>> 1

def crcTable (n : BitVec 32) : BitVec 32 := shift^[8] n

def doCrc (crc x : BitVec 32) : BitVec 32 := crcTable ((crc ^^^ x) &&& 255#32) ^^^ (crc >>> 8)

def byte (b : UInt8) : BitVec 32 := b.toBitVec.setWidth 32

/-- What a load of these bytes gives. -/
def word : List UInt8 → BitVec 32
  | [] => 0
  | b :: bs => byte b ^^^ (word bs <<< 8)

/-- The bytes at `a` up to the next word boundary. -/
def align (a : ℕ) : List UInt8 → BitVec 32 → List UInt8 × BitVec 32
  | [], crc => ([], crc)
  | b :: bs, crc => if a % 4 = 0 then (b :: bs, crc) else align (a + 1) bs (doCrc crc (byte b))

def words : List UInt8 → BitVec 32 → BitVec 32
  | b₀ :: b₁ :: b₂ :: b₃ :: bs, crc => words bs ((doCrc · 0)^[4] (crc ^^^ word [b₀, b₁, b₂, b₃]))
  | bs, crc => bs.foldl (fun crc b => doCrc crc (byte b)) crc

def crc32NoComp (a : ℕ) (crc : BitVec 32) (buf : List UInt8) : BitVec 32 :=
  words (align a buf crc).1 (align a buf crc).2

def crc32 (a : ℕ) (crc : BitVec 32) (p : List UInt8) : BitVec 32 :=
  crc32NoComp a (crc ^^^ 0xffffffff#32) p ^^^ 0xffffffff#32

/-- The sum of the data of a copy in a buffer at `a`. -/
def dataCrc (a : ℕ) (data : List UInt8) : UInt32 := ⟨crc32 a 0 data⟩

end Code

/-- The bits of the bytes, the lowest of each first, divided by the polynomial. -/
def bits (crc : BitVec 32) (bs : List UInt8) : BitVec 32 :=
  bs.foldl (fun crc b => shift^[8] (crc ^^^ byte b)) crc

section Division

variable {c d : BitVec 32} {bs xs ys : List UInt8} {n : ℕ}

theorem shift_xor (c d : BitVec 32) : shift (c ^^^ d) = shift c ^^^ shift d := by
  unfold shift
  rw [BitVec.getLsbD_xor, BitVec.ushiftRight_xor_distrib]
  cases hc : c.getLsbD 0 <;> cases hd : d.getLsbD 0 <;> simp only [Bool.xor_false, Bool.xor_true,
    Bool.not_true, Bool.not_false, if_true, if_false, Bool.false_eq_true]
  · ac_rfl
  · ac_rfl
  · have hcancel : poly ^^^ c >>> 1 ^^^ (poly ^^^ d >>> 1) =
        poly ^^^ poly ^^^ (c >>> 1 ^^^ d >>> 1) := by ac_rfl
    rw [hcancel, BitVec.xor_self, BitVec.zero_xor]

theorem shifts_xor (n : ℕ) (c d : BitVec 32) : shift^[n] (c ^^^ d) = shift^[n] c ^^^ shift^[n] d := by
  induction n generalizing c d with
  | zero => rfl
  | succ n ih => rw [iterate_succ_apply, shift_xor, ih, iterate_succ_apply, iterate_succ_apply]

/-- The highest bit tells whether the polynomial was added, and the polynomial has it. -/
theorem shift_injective : Injective shift := by
  have hmsb : ∀ c, (shift c).getLsbD 31 = c.getLsbD 0 := by
    intro c
    have hpoly : poly.getLsbD 31 = true := by decide
    unfold shift
    split
    · next h => rw [BitVec.getLsbD_xor, hpoly, h, BitVec.getLsbD_ushiftRight]; simp
    · next h => rw [BitVec.getLsbD_ushiftRight]; simpa using h
  intro c d h
  have hlow : c.getLsbD 0 = d.getLsbD 0 := by rw [← hmsb, h, hmsb]
  have hhigh : c >>> 1 = d >>> 1 := by
    unfold shift at h
    rw [hlow] at h
    split at h
    · exact (BitVec.xor_right_inj _).mp h
    · exact h
  ext i hi
  cases i with
  | zero => simpa [BitVec.getLsbD_eq_getElem] using hlow
  | succ i =>
    have hbit := congrArg (·.getLsbD i) hhigh
    simpa [BitVec.getLsbD_ushiftRight, Nat.add_comm 1 i, BitVec.getLsbD_eq_getElem hi] using hbit

theorem shifts_low (h : ∀ i < n, c.getLsbD i = false) : shift^[n] c = c >>> n := by
  induction n generalizing c with
  | zero => simp
  | succ n ih =>
    have hshift : shift c = c >>> 1 := by
      unfold shift
      rw [h 0 (Nat.succ_pos n)]
      rfl
    rw [iterate_succ_apply, hshift, ih fun i hi => ?_, ← BitVec.shiftRight_add, Nat.add_comm]
    rw [BitVec.getLsbD_ushiftRight]
    exact h (1 + i) (by lia)

theorem byte_high (b : UInt8) {i : ℕ} (hi : 8 ≤ i) : (byte b).getLsbD i = false := by
  rw [byte, BitVec.getLsbD_setWidth, BitVec.getLsbD_of_ge _ _ hi, Bool.and_false]

theorem word_high {i : ℕ} (h : 8 * bs.length ≤ i) : (word bs).getLsbD i = false := by
  induction bs generalizing i with
  | nil => simp [word]
  | cons b bs ih =>
    rw [length_cons] at h
    rw [word, BitVec.getLsbD_xor, byte_high b (by lia), BitVec.getLsbD_shiftLeft,
      ih (i := i - 8) (by lia), Bool.and_false, Bool.false_xor]

/-- A byte's shifts bring down what lies above the byte. -/
theorem shifts_up (h : ∀ i, 24 ≤ i → c.getLsbD i = false) : shift^[8] (c <<< 8) = c := by
  rw [shifts_low fun i hi => by simp [BitVec.getLsbD_shiftLeft, hi]]
  apply BitVec.eq_of_getLsbD_eq
  intro i hi
  rw [BitVec.getLsbD_ushiftRight, BitVec.getLsbD_shiftLeft]
  by_cases hlt : i < 24
  · simp [show 8 + i < 32 by lia]
  · simp [h i (by lia)]

theorem word_up (h : bs.length < 4) : shift^[8] (word bs <<< 8) = word bs :=
  shifts_up fun _ _ => word_high (by lia)

theorem doCrc_eq (c : BitVec 32) (b : UInt8) : doCrc c (byte b) = shift^[8] (c ^^^ byte b) := by
  have hmask : ∀ i, (255#32).getLsbD i = decide (i < 8) := by
    intro i
    rw [BitVec.getLsbD_ofNat, show 255 = 2 ^ 8 - 1 from rfl, Nat.testBit_two_pow_sub_one]
    simp only [Bool.and_eq_right_iff_imp, decide_eq_true_eq]
    lia
  have hsplit : c ^^^ byte b = ((c ^^^ byte b) &&& 255#32) ^^^ (c >>> 8 <<< 8) := by
    apply BitVec.eq_of_getLsbD_eq
    intro i hi
    rw [BitVec.getLsbD_xor, BitVec.getLsbD_xor, BitVec.getLsbD_and, hmask, BitVec.getLsbD_shiftLeft,
      BitVec.getLsbD_ushiftRight, BitVec.getLsbD_xor]
    by_cases h8 : i < 8
    · simp [h8]
    · rw [byte_high b (by lia), show 8 + (i - 8) = i by lia]
      simp [h8, hi]
  have hup : shift^[8] (c >>> 8 <<< 8) = c >>> 8 := by
    refine shifts_up fun i hi => ?_
    rw [BitVec.getLsbD_ushiftRight, BitVec.getLsbD_of_ge _ _ (by lia)]
  calc doCrc c (byte b) = shift^[8] ((c ^^^ byte b) &&& 255#32) ^^^ shift^[8] (c >>> 8 <<< 8) := by
        rw [hup, doCrc, crcTable]
    _ = shift^[8] (c ^^^ byte b) := by rw [← shifts_xor, ← hsplit]

theorem bits_append (c : BitVec 32) (xs ys : List UInt8) :
    bits c (xs ++ ys) = bits (bits c xs) ys := foldl_append ..

/-- Up to four bytes are one word added to the register. -/
theorem bits_word (h : bs.length ≤ 4) (c : BitVec 32) :
    bits c bs = shift^[8 * bs.length] (c ^^^ word bs) := by
  induction bs generalizing c with
  | nil => exact (BitVec.xor_zero ..).symm
  | cons b bs ih =>
    rw [length_cons] at h
    have hrest := ih (Nat.le_of_succ_le h) (shift^[8] (c ^^^ byte b))
    rw [← word_up h, ← shifts_xor, ← iterate_add_apply, BitVec.xor_assoc] at hrest
    exact hrest

theorem words_eq (bs : List UInt8) (c : BitVec 32) : words bs c = bits c bs := by
  have hfold : ∀ (bs : List UInt8) c, bs.foldl (fun crc b => doCrc crc (byte b)) c = bits c bs := by
    simp only [doCrc_eq, bits, implies_true]
  fun_induction words bs c with
  | case1 b₀ b₁ b₂ b₃ bs c ih =>
    have hzero : (doCrc · 0) = shift^[8] := by
      funext c
      have hbyte := doCrc_eq c 0
      have hnone : byte 0 = 0#32 := rfl
      rwa [hnone, BitVec.xor_zero] at hbyte
    have hword := @bits_word [b₀, b₁, b₂, b₃] le_rfl c
    rw [ih, hzero, ← iterate_mul]
    exact (congrArg (bits · bs) hword.symm).trans (bits_append c [b₀, b₁, b₂, b₃] bs).symm
  | case2 => exact hfold _ _

theorem align_eq (a : ℕ) (bs : List UInt8) (c : BitVec 32) :
    bits (align a bs c).2 (align a bs c).1 = bits c bs := by
  induction bs generalizing a c with
  | nil => rfl
  | cons b bs ih =>
    rw [align]
    split
    · rfl
    · rw [ih, doCrc_eq]
      rfl

theorem crc32_eq (a : ℕ) (c : BitVec 32) (bs : List UInt8) :
    crc32 a c bs = bits (c ^^^ 0xffffffff#32) bs ^^^ 0xffffffff#32 := by
  rw [crc32, crc32NoComp, words_eq, align_eq]

/-- Wherever the buffer lies, the sum is the one of its bits, and the sum of two buffers is that of
the second, begun with that of the first. -/
theorem crc32_bitwise (a b : ℕ) (c : BitVec 32) (xs ys : List UInt8) :
    crc32 a c xs = bits (c ^^^ 0xffffffff#32) xs ^^^ 0xffffffff#32 ∧
      crc32 b (crc32 a c xs) ys = crc32 a c (xs ++ ys) := by
  refine ⟨crc32_eq a c xs, ?_⟩
  rw [crc32_eq, crc32_eq, crc32_eq, bits_append, BitVec.xor_assoc, BitVec.xor_self, BitVec.xor_zero]

end Division

section Bursts

variable {c d : BitVec 32} {xs ys w w' : List UInt8}

theorem bits_injective (bs : List UInt8) : Injective fun c => bits c bs := by
  induction bs with
  | nil => exact fun c d h => h
  | cons b bs ih =>
    intro c d h
    exact (BitVec.xor_left_inj _).mp (shift_injective.iterate 8 (ih h))

theorem word_injective (hlen : w.length = w'.length) (h4 : w.length ≤ 4) (h : word w = word w') :
    w = w' := by
  induction w generalizing w' with
  | nil => exact (eq_nil_of_length_eq_zero hlen.symm).symm
  | cons b w ih =>
    obtain ⟨b', w', rfl⟩ := exists_cons_of_length_eq_add_one hlen.symm
    rw [length_cons] at h4
    have hlen' : w.length = w'.length := Nat.succ.inj hlen
    have hbyte : b = b' := by
      rw [← UInt8.toBitVec_inj]
      ext i hi
      have hbit := congrArg (·.getLsbD i) h
      simp only [word, byte, BitVec.getLsbD_xor, BitVec.getLsbD_shiftLeft, BitVec.getLsbD_setWidth,
        hi, decide_true, Bool.not_true, Bool.and_false, Bool.false_and, Bool.xor_false] at hbit
      simpa [show i < 32 by lia, BitVec.getLsbD_eq_getElem hi] using hbit
    subst hbyte
    have hup := congrArg shift^[8] ((BitVec.xor_right_inj _).mp h)
    rw [word_up h4, word_up (hlen' ▸ h4)] at hup
    rw [ih hlen' (Nat.le_of_succ_le h4) hup]

theorem burst_differs (hlen : w.length = w'.length) (h4 : w.length ≤ 4) (hne : w ≠ w') (a : ℕ)
    (c : BitVec 32) (xs ys : List UInt8) :
    crc32 a c (xs ++ (w ++ ys)) ≠ crc32 a c (xs ++ (w' ++ ys)) := by
  intro h
  rw [crc32_eq, crc32_eq, BitVec.xor_left_inj, bits_append, bits_append, bits_append,
    bits_append] at h
  have hw := bits_injective ys h
  rw [@bits_word w h4, @bits_word w' (hlen ▸ h4), ← hlen] at hw
  exact hne (word_injective hlen h4 ((BitVec.xor_right_inj _).mp (shift_injective.iterate _ hw)))

/-- A copy that got wrong within four bytes in a row is not loaded; the other copy is where it is
whole. -/
theorem burst_survived (a : ℕ) (card : Card (List UInt8)) (copy : Copy)
    (hdata : (card.get copy).data = xs ++ (w ++ ys)) (hlen : w.length = w'.length)
    (h4 : w.length ≤ 4) (hne : w ≠ w') (hok : crcOk (dataCrc a) (card.get copy) = true) :
    envRelocateSpec (dataCrc a) (card.set { card.get copy with data := xs ++ (w' ++ ys) } copy) =
      if crcOk (dataCrc a) (card.get copy.other) = true then
        (⟨copy.other, (card.get copy.other).flags⟩, some (card.get copy.other).data)
      else (⟨.first, 0⟩, none) := by
  obtain ⟨env, henv⟩ : ∃ env, env = { card.get copy with data := xs ++ (w' ++ ys) } := ⟨_, rfl⟩
  have hbad : crcOk (dataCrc a) env = false := by
    rw [crcOk, beq_iff_eq, hdata] at hok
    rw [henv, crcOk, ← hok]
    exact beq_false_of_ne fun h =>
      burst_differs hlen h4 hne a 0 xs ys (congrArg UInt32.toBitVec h).symm
  have hother : (card.set env copy).get copy.other = card.get copy.other := by
    cases copy with
    | first => rfl
    | redundant => rfl
  have hchosen := @chosen_of_other_bad _ (dataCrc a) (card.set env copy) copy.other
    (by rw [other_other, get_set_self]; exact hbad)
  rw [hother] at hchosen
  rw [← henv, envRelocateSpec, hchosen]
  cases crcOk (dataCrc a) (card.get copy.other) with
  | true => simp [hother]
  | false => rfl

theorem burst_survived_one : envRelocateSpec (dataCrc 0)
    (Card.set ⟨⟨dataCrc 0 [1], 1, [1]⟩, ⟨dataCrc 0 [3], 0, [3]⟩⟩ ⟨dataCrc 0 [1], 1, [2]⟩ .first) =
      (⟨.redundant, 0⟩, some [3]) := by
  have h := @burst_survived [] [] [1] [2] 0 ⟨⟨dataCrc 0 [1], 1, [1]⟩, ⟨dataCrc 0 [3], 0, [3]⟩⟩ .first
    rfl rfl (by decide) (by decide) (beq_self_eq_true _)
  exact h.trans (if_pos (beq_self_eq_true _))

end Bursts

end UBoot.Env.Crc
