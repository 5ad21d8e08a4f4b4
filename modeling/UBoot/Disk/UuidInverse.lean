import UBoot.Disk.Uuid

/-!
# The text and the binary form of a UUID (lib/uuid.c)

`uuid_str_to_bin` and `uuid_bin_to_str` undo each other in each format, and a string without the
five fields leaves the output buffer alone. CONFIG_PARTITION_TYPE_GUID is set for no board.
-/

namespace UBoot.Gpt

open LittleEndian List Strto

/- `uuid_str_to_bin` with the buffer it writes to and its return value. -/
def uuidStrToBuf (s : List ℕ) (uuidBin : List UInt8) (format : StrFormat) : ℤ × List UInt8 :=
  match uuidStrToBin s format with
  | none => (-22, uuidBin)
  | some bytes => (0, bytes ++ uuidBin.drop bytes.length)

theorem uuidStrToBuf_eq {s : List ℕ} {format : StrFormat} {bin : List UInt8} (uuidBin : List UInt8)
    (h : uuidStrToBin s format = some bin) :
    uuidStrToBuf s uuidBin format = (0, bin ++ uuidBin.drop 16) := by
  rw [uuidStrToBuf, h, ← length_uuidStrToBin h]

theorem validFrom_append {i n : ℕ} {g : List ℕ} (hg : Digits n g) (rest : List ℕ)
    (hdash : ∀ j, i ≤ j → j < i + n → isDash j = false) :
    uuidValidFrom i (g ++ rest) = uuidValidFrom (i + n) rest := by
  induction n generalizing i g with
  | zero =>
    obtain rfl : g = [] := length_eq_zero_iff.mp hg.length
    rfl
  | succ n ih =>
    cases g with
    | nil => cases hg.length
    | cons c cs =>
      have hcs : Digits n cs :=
        ⟨by have hlen := hg.length; simp only [length_cons] at hlen; lia,
          fun d hd => hg.digit d (mem_cons_of_mem c hd)⟩
      have hnext := @ih (i + 1) cs hcs (fun j hj hj' => hdash j (by lia) (by lia))
      rw [cons_append, uuidValidFrom, hdash i (Nat.le_refl i) (by lia),
        if_neg Bool.false_ne_true, hg.digit c mem_cons_self, Bool.true_and, hnext,
        show i + 1 + n = i + (n + 1) by lia]

theorem uuidStrValid_iff (s : List ℕ) :
    uuidStrValid s = true ↔ ∃ g₀ g₁ g₂ g₃ g₄, Fields s g₀ g₁ g₂ g₃ g₄ := by
  constructor
  · exact uuid_fields
  · intro hs
    obtain ⟨g₀, g₁, g₂, g₃, g₄, hs⟩ := hs
    have hdash : ∀ i n, (∀ j ∈ List.range n, isDash (i + j) = false) →
        ∀ j, i ≤ j → j < i + n → isDash j = false := by
      intro i n hall j hij hj
      have hin := hall (j - i) (mem_range.mpr (by lia))
      rwa [Nat.add_sub_cancel' hij] at hin
    have hlast : uuidValidFrom 24 g₄ = true := by
      have h := validFrom_append hs.d₄ [] (hdash 24 12 (by decide))
      rw [append_nil] at h
      rw [h]
      rfl
    rw [uuidStrValid, hs.eq, validFrom_append hs.d₀ _ (hdash 0 8 (by decide)), uuidValidFrom,
      validFrom_append hs.d₁ _ (hdash 9 4 (by decide)), uuidValidFrom,
      validFrom_append hs.d₂ _ (hdash 14 4 (by decide)), uuidValidFrom,
      validFrom_append hs.d₃ _ (hdash 19 4 (by decide)), uuidValidFrom, hlast]
    rfl

theorem hexByte_digits (b : UInt8) :
    hexByte b = [hexDigit (b.toNat / 16), hexDigit (b.toNat % 16)] ∧
      isxdigit (hexDigit (b.toNat / 16)) = true ∧ isxdigit (hexDigit (b.toNat % 16)) = true ∧
      UInt8.ofNat (16 * digitValue (hexDigit (b.toNat / 16)) +
        digitValue (hexDigit (b.toNat % 16))) = b := by
  have hb := b.toNat_lt
  have hdigit : ∀ n < 16, isxdigit (hexDigit n) = true ∧ digitValue (hexDigit n) = n := by decide
  obtain ⟨d₁, v₁⟩ := hdigit (b.toNat / 16) (by lia)
  obtain ⟨d₂, v₂⟩ := hdigit (b.toNat % 16) (Nat.mod_lt _ (by decide))
  have hsum : 16 * (b.toNat / 16) + b.toNat % 16 = b.toNat := Nat.div_add_mod _ _
  rw [v₁, v₂, hsum, UInt8.ofNat_toNat]
  exact ⟨rfl, d₁, d₂, rfl⟩

theorem digits_flatMap {n : ℕ} (p : List UInt8) (hp : p.length = n) :
    Digits (2 * n) (p.flatMap hexByte) ∧ pairBytes (p.flatMap hexByte) = p := by
  induction p generalizing n with
  | nil =>
    obtain rfl : n = 0 := hp.symm
    exact ⟨⟨rfl, fun c hc => absurd hc not_mem_nil⟩, rfl⟩
  | cons b p ih =>
    obtain ⟨heq, d₁, d₂, hval⟩ := hexByte_digits b
    obtain ⟨hdigits, hpair⟩ := ih rfl
    constructor
    · constructor
      · rw [flatMap_hexByte_length, hp]
      · intro c hc
        rw [flatMap_cons, heq, cons_append, cons_append, nil_append, mem_cons, mem_cons] at hc
        rcases hc with rfl | rfl | hc
        · exact d₁
        · exact d₂
        · exact hdigits.digit c hc
    · rw [flatMap_cons, heq, cons_append, cons_append, nil_append, pairBytes, hval, hpair]

theorem binOf_split (format : StrFormat) {b : List UInt8} (hb : b.length = 16) :
    ∃ p₀ p₁ p₂ p₃ p₄ : List UInt8, p₀.length = 4 ∧ p₁.length = 2 ∧ p₂.length = 2 ∧
      p₃.length = 2 ∧ p₄.length = 6 ∧ b = binOf format p₀ p₁ p₂ p₃ p₄ := by
  match b, hb with
  | [b₀, b₁, b₂, b₃, b₄, b₅, b₆, b₇, b₈, b₉, b₁₀, b₁₁, b₁₂, b₁₃, b₁₄, b₁₅], _ =>
    cases format with
    | std => exact ⟨[b₀, b₁, b₂, b₃], [b₄, b₅], [b₆, b₇], [b₈, b₉],
        [b₁₀, b₁₁, b₁₂, b₁₃, b₁₄, b₁₅], rfl, rfl, rfl, rfl, rfl, rfl⟩
    | guid => exact ⟨[b₃, b₂, b₁, b₀], [b₅, b₄], [b₇, b₆], [b₈, b₉],
        [b₁₀, b₁₁, b₁₂, b₁₃, b₁₄, b₁₅], rfl, rfl, rfl, rfl, rfl, rfl⟩

section Fields

variable {p₀ p₁ p₂ p₃ p₄ : List UInt8} (h₀ : p₀.length = 4) (h₁ : p₁.length = 2)
  (h₂ : p₂.length = 2) (h₃ : p₃.length = 2) (h₄ : p₄.length = 6)
include h₀ h₁ h₂ h₃ h₄

theorem uuidBinToStr_binOf (format : StrFormat) :
    uuidBinToStr (binOf format p₀ p₁ p₂ p₃ p₄) format = strOf p₀ p₁ p₂ p₃ p₄ := by
  cases format with
  | std => exact (uuidBinToStr_eq h₀ h₁ h₂ h₃ h₄).1
  | guid =>
    have r₀ : p₀.reverse.length = 4 := by rw [length_reverse, h₀]
    have r₁ : p₁.reverse.length = 2 := by rw [length_reverse, h₁]
    have r₂ : p₂.reverse.length = 2 := by rw [length_reverse, h₂]
    have hrev := (uuidBinToStr_eq r₀ r₁ r₂ h₃ h₄).2
    simp only [reverse_reverse] at hrev
    exact hrev

theorem uuidStrToBin_strOf (format : StrFormat) :
    uuidStrValid (strOf p₀ p₁ p₂ p₃ p₄) = true ∧
      uuidStrToBin (strOf p₀ p₁ p₂ p₃ p₄) format = some (binOf format p₀ p₁ p₂ p₃ p₄) := by
  obtain ⟨d₀, e₀⟩ := digits_flatMap p₀ h₀
  obtain ⟨d₁, e₁⟩ := digits_flatMap p₁ h₁
  obtain ⟨d₂, e₂⟩ := digits_flatMap p₂ h₂
  obtain ⟨d₃, e₃⟩ := digits_flatMap p₃ h₃
  obtain ⟨d₄, e₄⟩ := digits_flatMap p₄ h₄
  have hfields : Fields (strOf p₀ p₁ p₂ p₃ p₄) (p₀.flatMap hexByte) (p₁.flatMap hexByte)
      (p₂.flatMap hexByte) (p₃.flatMap hexByte) (p₄.flatMap hexByte) := ⟨rfl, d₀, d₁, d₂, d₃, d₄⟩
  have hvalid := (uuidStrValid_iff _).mpr ⟨_, _, _, _, _, hfields⟩
  have hbin := uuidStrToBin_eq hfields hvalid format
  rw [e₀, e₁, e₂, e₃, e₄] at hbin
  exact ⟨hvalid, hbin⟩

end Fields

theorem str_of_valid {s : List ℕ} (hvalid : uuidStrValid s = true) (format : StrFormat) :
    ∃ bin, uuidStrToBin s format = some bin ∧ bin.length = 16 ∧
      uuidBinToStr bin format = s.map lower := by
  obtain ⟨p₀, p₁, p₂, p₃, p₄, l₀, l₁, l₂, l₃, l₄, hstr, hbin⟩ := uuid_pairs hvalid
  rw [hstr]
  exact ⟨_, hbin format, length_uuidStrToBin (hbin format),
    uuidBinToStr_binOf l₀ l₁ l₂ l₃ l₄ format⟩

/- In each format the two conversions are inverse up to the case of the digits, and a string of
any other form is refused with the buffer as it was. -/
theorem uuid_forms_inverse (format : StrFormat) :
    (∀ b uuidBin : List UInt8, b.length = 16 →
      uuidStrValid (uuidBinToStr b format) = true ∧
      uuidStrToBuf (uuidBinToStr b format) uuidBin format = (0, b ++ uuidBin.drop 16)) ∧
    (∀ (s : List ℕ) (uuidBin : List UInt8), uuidStrValid s = true →
      ∃ b, b.length = 16 ∧ uuidStrToBuf s uuidBin format = (0, b ++ uuidBin.drop 16) ∧
        uuidBinToStr b format = s.map lower) ∧
    ∀ (s : List ℕ) (uuidBin : List UInt8), (¬ ∃ g₀ g₁ g₂ g₃ g₄, Fields s g₀ g₁ g₂ g₃ g₄) →
      uuidStrToBuf s uuidBin format = (-22, uuidBin) := by
  refine ⟨?_, ?_, ?_⟩
  · intro b uuidBin hb
    obtain ⟨p₀, p₁, p₂, p₃, p₄, h₀, h₁, h₂, h₃, h₄, rfl⟩ := binOf_split format hb
    rw [uuidBinToStr_binOf h₀ h₁ h₂ h₃ h₄]
    obtain ⟨hvalid, hbin⟩ := uuidStrToBin_strOf h₀ h₁ h₂ h₃ h₄ format
    exact ⟨hvalid, uuidStrToBuf_eq uuidBin hbin⟩
  · intro s uuidBin hvalid
    obtain ⟨b, hbin, hb, hstr⟩ := str_of_valid hvalid format
    exact ⟨b, hb, uuidStrToBuf_eq uuidBin hbin, hstr⟩
  · intro s uuidBin hform
    have hinvalid : uuidStrValid s = false := by
      cases hvalid : uuidStrValid s with
      | false => rfl
      | true => exact absurd (uuid_fields hvalid) hform
    have hnone : uuidStrToBin s format = none := if_pos hinvalid
    rw [uuidStrToBuf, hnone]

end UBoot.Gpt
