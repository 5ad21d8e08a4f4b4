import UBoot.Lib.LittleEndian
import UBoot.Lib.Strto

/-!
# UUID strings (lib/uuid.c)

A string of 36 characters and its 16 bytes. The first three fields are big-endian in the
standard format and little-endian in the GUID format; the other two are big-endian in both.
Strings are lists of characters without their end.
-/

namespace UBoot.Gpt

open LittleEndian List Strto

inductive StrFormat where
  | std | guid
deriving DecidableEq, Repr

def charOrder : StrFormat → List ℕ
  | .std => [0, 1, 2, 3, 4, 5, 6, 7, 8, 9, 10, 11, 12, 13, 14, 15]
  | .guid => [3, 2, 1, 0, 5, 4, 7, 6, 8, 9, 10, 11, 12, 13, 14, 15]

def hexDigit (n : ℕ) : ℕ := if n < 10 then 48 + n else 87 + n

/- `%02x`. -/
def hexByte (b : UInt8) : List ℕ := [hexDigit (b.toNat / 16), hexDigit (b.toNat % 16)]

def uuidBinToStr (uuidBin : List UInt8) (format : StrFormat) : List ℕ :=
  (charOrder format).zipIdx.flatMap fun (j, i) =>
    hexByte (uuidBin.getD j 0) ++ if i = 3 ∨ i = 5 ∨ i = 7 ∨ i = 9 then [45] else []

def isDash (i : ℕ) : Bool := i == 8 || i == 13 || i == 18 || i == 23

/- The loop of `uuid_str_valid`, with its `i`. -/
def uuidValidFrom : ℕ → List ℕ → Bool
  | i, [] => i == 36
  | i, c :: cs => (if isDash i then c == 45 else isxdigit c) && uuidValidFrom (i + 1) cs

def uuidStrValid (s : List ℕ) : Bool := uuidValidFrom 0 s

/- `simple_strtoul` and `simple_strtoull` with base 16, for `w` bits. -/
def readHex (w : ℕ) (s : List ℕ) : ℕ := (simpleStrtoul id w s 16).1

def beBytes (n x : ℕ) : List UInt8 := (leBytes n x).reverse

/-- The bytes that the five `memcpy` of `uuid_str_to_bin` put one behind the other. -/
def uuidStrToBin (s : List ℕ) (format : StrFormat) : Option (List UInt8) :=
  if uuidStrValid s = false then none
  else
    let field := match format with
      | .std => beBytes
      | .guid => leBytes
    some (List.flatten [field 4 (readHex 32 s), field 2 (readHex 32 (s.drop 9)),
      field 2 (readHex 32 (s.drop 14)), beBytes 2 (readHex 32 (s.drop 19)),
      (beBytes 8 (readHex 64 (s.drop 24))).drop 2])

variable {s : List ℕ}

theorem length_uuidStrToBin {format : StrFormat} {bin : List UInt8}
    (h : uuidStrToBin s format = some bin) : bin.length = 16 := by
  unfold uuidStrToBin at h
  split at h
  · cases h
  · obtain rfl := Option.some.inj h
    cases format <;> simp [beBytes]

theorem valid_of_uuidStrToBin {format : StrFormat} {bin : List UInt8}
    (h : uuidStrToBin s format = some bin) : uuidStrValid s = true := by
  unfold uuidStrToBin at h
  split at h
  · cases h
  · next hvalid => exact Bool.eq_true_of_not_eq_false hvalid

def lower (c : ℕ) : ℕ := if 65 ≤ c ∧ c ≤ 90 then c + 32 else c

def pairBytes : List ℕ → List UInt8
  | a :: b :: cs => UInt8.ofNat (16 * digitValue a + digitValue b) :: pairBytes cs
  | _ => []

/- `n` characters, all of them digits. -/
structure Digits (n : ℕ) (g : List ℕ) : Prop where
  length : g.length = n
  digit : ∀ c ∈ g, isxdigit c = true

theorem digitValue_spec {c : ℕ} (h : isxdigit c = true) :
    digitValue c < 16 ∧ hexDigit (digitValue c) = lower c := by
  have hlt : c < 103 := by
    unfold isxdigit at h
    simp only [Bool.or_eq_true, Bool.and_eq_true, decide_eq_true_eq] at h
    lia
  have hall : ∀ c < 103, isxdigit c = true →
      digitValue c < 16 ∧ hexDigit (digitValue c) = lower c := by decide
  exact hall c hlt h

theorem hexByte_pair {a b : ℕ} (ha : isxdigit a = true) (hb : isxdigit b = true) :
    hexByte (UInt8.ofNat (16 * digitValue a + digitValue b)) = [lower a, lower b] := by
  obtain ⟨hva, hda⟩ := digitValue_spec ha
  obtain ⟨hvb, hdb⟩ := digitValue_spec hb
  have hnat : (UInt8.ofNat (16 * digitValue a + digitValue b)).toNat = 16 * digitValue a + digitValue b := by
    simp only [UInt8.toNat_ofNat']
    lia
  rw [hexByte, hnat, ← hda, ← hdb]
  have hhigh : (16 * digitValue a + digitValue b) / 16 = digitValue a := by lia
  have hlow : (16 * digitValue a + digitValue b) % 16 = digitValue b := by lia
  rw [hhigh, hlow]

variable {g : List ℕ}

theorem flatMap_pairBytes (n : ℕ) (hg : Digits (2 * n) g) :
    (pairBytes g).flatMap hexByte = g.map lower ∧ (pairBytes g).length = n := by
  induction n generalizing g with
  | zero =>
    obtain rfl : g = [] := length_eq_zero_iff.mp hg.length
    exact ⟨rfl, rfl⟩
  | succ n ih =>
    obtain ⟨a, b, cs, rfl⟩ : ∃ a b cs, g = a :: b :: cs := by
      match g, hg.length with
      | a :: b :: cs, _ => exact ⟨a, b, cs, rfl⟩
    have hlen := hg.length
    have hdigit := hg.digit
    simp only [mem_cons, forall_eq_or_imp] at hdigit
    obtain ⟨hmap, hcount⟩ := ih ⟨by simp only [length_cons] at hlen; lia, hdigit.2.2⟩
    rw [pairBytes, flatMap_cons, hmap, hexByte_pair hdigit.1 hdigit.2.1]
    exact ⟨rfl, by rw [length_cons, hcount]⟩

variable {n : ℕ}

theorem pairBytes_append (hg : g.length = 2 * n) (a b : ℕ) :
    pairBytes (g ++ [a, b]) = pairBytes g ++ [UInt8.ofNat (16 * digitValue a + digitValue b)] := by
  induction n generalizing g with
  | zero =>
    obtain rfl : g = [] := length_eq_zero_iff.mp hg
    rfl
  | succ n ih =>
    match g, hg with
    | x :: y :: cs, hlen =>
      have hcs : cs.length = 2 * n := by
        simp only [length_cons] at hlen
        lia
      rw [cons_append, cons_append, pairBytes, pairBytes, ih hcs, cons_append]

theorem beBytes_value (n r : ℕ) (hg : Digits (2 * n) g) : beBytes n (value id 16 r g) = pairBytes g := by
  induction n generalizing g with
  | zero =>
    obtain rfl : g = [] := length_eq_zero_iff.mp hg.length
    rfl
  | succ n ih =>
    have hsplit : g = g.take (2 * n) ++ g.drop (2 * n) := (take_append_drop _ _).symm
    have htake : (g.take (2 * n)).length = 2 * n := by
      rw [length_take, hg.length]
      lia
    have hdrop : (g.drop (2 * n)).length = 2 := by
      rw [length_drop, hg.length]
      lia
    obtain ⟨a, b, hab⟩ := length_eq_two.mp hdrop
    rw [hab] at hsplit
    have hdig : Digits (2 * n) (g.take (2 * n)) :=
      ⟨htake, fun c hc => hg.digit c (mem_of_mem_take hc)⟩
    have hb : digitValue b < 16 := (digitValue_spec (hg.digit b (by rw [hsplit]; simp))).1
    have ha : digitValue a < 16 := (digitValue_spec (hg.digit a (by rw [hsplit]; simp))).1
    have hfold : value id 16 r g =
        (16 * digitValue a + digitValue b) + 256 * value id 16 r (g.take (2 * n)) := by
      rw [hsplit]
      simp only [value, id_eq, foldl_append, foldl_cons, foldl_nil, take_left' htake]
      ring
    have hlow : UInt8.ofNat (value id 16 r g) = UInt8.ofNat (16 * digitValue a + digitValue b) := by
      apply UInt8.toNat_inj.mp
      simp only [UInt8.toNat_ofNat', hfold]
      lia
    have hhigh : value id 16 r g / 256 = value id 16 r (g.take (2 * n)) := by lia
    rw [beBytes, leBytes, reverse_cons, hlow, hhigh]
    have hrest := ih hdig
    rw [beBytes] at hrest
    rw [hrest, ← pairBytes_append htake, ← hsplit]

theorem digits_from {i : ℕ} (n : ℕ) (hi : i + n ≤ 36)
    (hdash : ∀ j, i ≤ j → j < i + n → isDash j = false) (hs : uuidValidFrom i s = true) :
    ∃ g rest, s = g ++ rest ∧ Digits n g ∧ uuidValidFrom (i + n) rest = true := by
  induction n generalizing i s with
  | zero => exact ⟨[], s, rfl, ⟨rfl, by simp⟩, hs⟩
  | succ n ih =>
    cases s with
    | nil =>
      simp only [uuidValidFrom, beq_iff_eq] at hs
      lia
    | cons c cs =>
      rw [uuidValidFrom, hdash i (Nat.le_refl i) (by lia), Bool.and_eq_true] at hs
      obtain ⟨hc, hcs⟩ := hs
      obtain ⟨g, rest, rfl, hg, hrest⟩ := ih (by lia)
        (fun j hj hj' => hdash j (by lia) (by lia)) hcs
      refine ⟨c :: g, rest, rfl, ⟨by rw [length_cons, hg.length], ?_⟩, ?_⟩
      · intro d hd
        cases mem_cons.mp hd with
        | inl hd =>
          rw [hd]
          exact hc
        | inr hd => exact hg.digit d hd
      · rw [show i + (n + 1) = i + 1 + n by lia]
        exact hrest

theorem dash_from {i : ℕ} (hi : isDash i = true) (hs : uuidValidFrom i s = true) :
    ∃ rest, s = 45 :: rest ∧ uuidValidFrom (i + 1) rest = true := by
  cases s with
  | nil =>
    simp only [uuidValidFrom, beq_iff_eq] at hs
    rw [hs] at hi
    cases hi
  | cons c cs =>
    rw [uuidValidFrom, hi, Bool.and_eq_true, if_pos rfl, beq_iff_eq] at hs
    exact ⟨cs, by rw [hs.1], hs.2⟩

structure Fields (s g₀ g₁ g₂ g₃ g₄ : List ℕ) : Prop where
  eq : s = g₀ ++ 45 :: (g₁ ++ 45 :: (g₂ ++ 45 :: (g₃ ++ 45 :: g₄)))
  d₀ : Digits 8 g₀
  d₁ : Digits 4 g₁
  d₂ : Digits 4 g₂
  d₃ : Digits 4 g₃
  d₄ : Digits 12 g₄

theorem uuid_fields (hs : uuidStrValid s = true) : ∃ g₀ g₁ g₂ g₃ g₄, Fields s g₀ g₁ g₂ g₃ g₄ := by
  have hdash : ∀ i n, i + n ≤ 36 → (∀ j ∈ List.range n, isDash (i + j) = false) →
      ∀ j, i ≤ j → j < i + n → isDash j = false := by
    intro i n _ hall j hij hj
    have hin := hall (j - i) (mem_range.mpr (by lia))
    rwa [Nat.add_sub_cancel' hij] at hin
  obtain ⟨g₀, r₀, rfl, d₀, h₀⟩ := digits_from 8 (by decide) (hdash 0 8 (by decide) (by decide)) hs
  obtain ⟨s₁, rfl, h₁⟩ := dash_from (by decide) h₀
  obtain ⟨g₁, r₁, rfl, d₁, h₁⟩ := digits_from 4 (by decide) (hdash 9 4 (by decide) (by decide)) h₁
  obtain ⟨s₂, rfl, h₂⟩ := dash_from (by decide) h₁
  obtain ⟨g₂, r₂, rfl, d₂, h₂⟩ := digits_from 4 (by decide) (hdash 14 4 (by decide) (by decide)) h₂
  obtain ⟨s₃, rfl, h₃⟩ := dash_from (by decide) h₂
  obtain ⟨g₃, r₃, rfl, d₃, h₃⟩ := digits_from 4 (by decide) (hdash 19 4 (by decide) (by decide)) h₃
  obtain ⟨s₄, rfl, h₄⟩ := dash_from (by decide) h₃
  obtain ⟨g₄, r₄, rfl, d₄, h₄⟩ := digits_from 12 (by decide)
    (hdash 24 12 (by decide) (by decide)) h₄
  have hnil : r₄ = [] := by
    cases r₄ with
    | nil => rfl
    | cons c cs =>
      exfalso
      have hbound : ∀ (cs : List ℕ) (i : ℕ), 36 < i → uuidValidFrom i cs = false := by
        intro cs
        induction cs with
        | nil =>
          intro i hi
          simp only [uuidValidFrom, beq_eq_false_iff_ne]
          lia
        | cons c cs ih =>
          intro i hi
          rw [uuidValidFrom, ih (i + 1) (by lia), Bool.and_false]
      rw [uuidValidFrom, hbound cs _ (by decide), Bool.and_false] at h₄
      cases h₄
  rw [hnil, append_nil]
  exact ⟨g₀, g₁, g₂, g₃, g₄, rfl, d₀, d₁, d₂, d₃, d₄⟩

theorem readHex_digits {w : ℕ} {rest : List ℕ} (hg : Digits (n + 1) g) (hrest : Ends id rest) :
    readHex w (g ++ rest) = value id 16 0 g % 2 ^ w := by
  have hne : g ≠ [] := fun h => by simpa [h] using hg.length
  rw [readHex, simpleStrtoul_digits (by decide) hne (fun c hc => ?_) hrest]
  exact ⟨hg.digit c hc, (digitValue_spec (hg.digit c hc)).1⟩

def binOf (format : StrFormat) (p₀ p₁ p₂ p₃ p₄ : List UInt8) : List UInt8 :=
  match format with
  | .std => p₀ ++ (p₁ ++ (p₂ ++ (p₃ ++ p₄)))
  | .guid => p₀.reverse ++ (p₁.reverse ++ (p₂.reverse ++ (p₃ ++ p₄)))

def strOf (p₀ p₁ p₂ p₃ p₄ : List UInt8) : List ℕ :=
  p₀.flatMap hexByte ++ 45 :: (p₁.flatMap hexByte ++ 45 :: (p₂.flatMap hexByte ++
    45 :: (p₃.flatMap hexByte ++ 45 :: p₄.flatMap hexByte)))

section Formats

variable {s g₀ g₁ g₂ g₃ g₄ : List ℕ}

theorem field_bytes {n w : ℕ} {g rest : List ℕ} (hg : Digits (2 * (n + 1)) g) (hw : n + 1 ≤ w)
    (hrest : Ends id rest) :
    beBytes (n + 1) (readHex (8 * w) (g ++ rest)) = pairBytes g := by
  have hpow : 2 ^ (8 * w) = 256 ^ w := pow_mul 2 8 w
  have hcut := leBytes_mod hw (value id 16 0 g)
  rw [readHex_digits (n := 2 * n + 1) hg hrest, hpow, beBytes, hcut]
  exact beBytes_value (n + 1) 0 hg

theorem uuidStrToBin_eq (hs : Fields s g₀ g₁ g₂ g₃ g₄) (hvalid : uuidStrValid s = true)
    (format : StrFormat) :
    uuidStrToBin s format = some (binOf format (pairBytes g₀) (pairBytes g₁) (pairBytes g₂)
      (pairBytes g₃) (pairBytes g₄)) := by
  have hdash : ∀ cs : List ℕ, Ends id (45 :: cs) := by
    intro cs c hc
    rw [← Option.some.inj hc]
    decide
  have h0 : s = g₀ ++ 45 :: (g₁ ++ 45 :: (g₂ ++ 45 :: (g₃ ++ 45 :: g₄))) := hs.eq
  have h1 : s.drop 9 = g₁ ++ 45 :: (g₂ ++ 45 :: (g₃ ++ 45 :: g₄)) := by
    rw [h0, drop_append, hs.d₀.length, drop_eq_nil_of_le (by rw [hs.d₀.length]; decide)]
    rfl
  have h2 : s.drop 14 = g₂ ++ 45 :: (g₃ ++ 45 :: g₄) := by
    rw [show 14 = 9 + 5 by rfl, ← drop_drop, h1, drop_append, hs.d₁.length,
      drop_eq_nil_of_le (by rw [hs.d₁.length]; decide)]
    rfl
  have h3 : s.drop 19 = g₃ ++ 45 :: g₄ := by
    rw [show 19 = 14 + 5 by rfl, ← drop_drop, h2, drop_append, hs.d₂.length,
      drop_eq_nil_of_le (by rw [hs.d₂.length]; decide)]
    rfl
  have h4 : s.drop 24 = g₄ ++ [] := by
    rw [show 24 = 19 + 5 by rfl, ← drop_drop, h3, drop_append, hs.d₃.length,
      drop_eq_nil_of_le (by rw [hs.d₃.length]; decide), append_nil]
    rfl
  have f0 : beBytes 4 (readHex 32 s) = pairBytes g₀ := by
    rw [h0]
    exact @field_bytes 3 4 _ _ hs.d₀ (by decide) (hdash _)
  have f1 : beBytes 2 (readHex 32 (s.drop 9)) = pairBytes g₁ := by
    rw [h1]
    exact @field_bytes 1 4 _ _ hs.d₁ (by decide) (hdash _)
  have f2 : beBytes 2 (readHex 32 (s.drop 14)) = pairBytes g₂ := by
    rw [h2]
    exact @field_bytes 1 4 _ _ hs.d₂ (by decide) (hdash _)
  have f3 : beBytes 2 (readHex 32 (s.drop 19)) = pairBytes g₃ := by
    rw [h3]
    exact @field_bytes 1 4 _ _ hs.d₃ (by decide) (hdash _)
  have f4 : beBytes 6 (readHex 64 (s.drop 24)) = pairBytes g₄ := by
    rw [h4]
    exact @field_bytes 5 8 _ _ hs.d₄ (by decide) (fun c h => by cases h)
  have hlast : (beBytes 8 (readHex 64 (s.drop 24))).drop 2 = pairBytes g₄ := by
    rw [beBytes, leBytes_add 6 2, reverse_append, drop_left' (by simp)]
    exact f4
  have hle : ∀ n x, leBytes n x = (beBytes n x).reverse := fun n x => (reverse_reverse _).symm
  unfold uuidStrToBin
  rw [hvalid]
  cases format with
  | std =>
    simp only [Bool.true_eq_false, if_false, f0, f1, f2, f3, hlast, binOf, flatten_cons,
      flatten_nil, append_nil]
  | guid =>
    simp only [Bool.true_eq_false, if_false, hle 4, hle 2, f0, f1, f2, f3, hlast, binOf,
      flatten_cons, flatten_nil, append_nil]

theorem uuidBinToStr_eq {p₀ p₁ p₂ p₃ p₄ : List UInt8} (h₀ : p₀.length = 4) (h₁ : p₁.length = 2)
    (h₂ : p₂.length = 2) (h₃ : p₃.length = 2) (h₄ : p₄.length = 6) :
    uuidBinToStr (p₀ ++ (p₁ ++ (p₂ ++ (p₃ ++ p₄)))) .std = strOf p₀ p₁ p₂ p₃ p₄ ∧
      uuidBinToStr (p₀ ++ (p₁ ++ (p₂ ++ (p₃ ++ p₄)))) .guid =
        strOf p₀.reverse p₁.reverse p₂.reverse p₃ p₄ := by
  match p₀, h₀, p₁, h₁, p₂, h₂, p₃, h₃, p₄, h₄ with
  | [_, _, _, _], _, [_, _], _, [_, _], _, [_, _], _, [_, _, _, _, _, _], _ => exact ⟨rfl, rfl⟩

theorem hexByte_inj {a b : UInt8} (h : hexByte a = hexByte b) : a = b := by
  have hdigit : ∀ n < 16, ∀ m < 16, hexDigit n = hexDigit m → n = m := by decide
  have ha := a.toNat_lt
  have hb := b.toNat_lt
  simp only [hexByte, List.cons.injEq, and_true] at h
  have hhigh := hdigit _ (by lia) _ (by lia) h.1
  have hlow := hdigit _ (Nat.mod_lt _ (by decide)) _ (Nat.mod_lt _ (by decide)) h.2
  apply UInt8.toNat_inj.mp
  lia

theorem flatMap_hexByte_length (p : List UInt8) : (p.flatMap hexByte).length = 2 * p.length := by
  induction p with
  | nil => rfl
  | cons b p ih =>
    rw [flatMap_cons, length_append, ih, length_cons, hexByte]
    simp only [length_cons, length_nil]
    lia

theorem flatMap_hexByte_inj {p q : List UInt8} (h : p.flatMap hexByte = q.flatMap hexByte) : p = q := by
  have hlen := congrArg List.length h
  rw [flatMap_hexByte_length, flatMap_hexByte_length] at hlen
  induction p generalizing q with
  | nil =>
    cases q with
    | nil => rfl
    | cons b q =>
      simp only [length_cons, length_nil] at hlen
      lia
  | cons a p ih =>
    cases q with
    | nil =>
      simp only [length_cons, length_nil] at hlen
      lia
    | cons b q =>
      rw [flatMap_cons, flatMap_cons] at h
      obtain ⟨hhead, htail⟩ := append_inj h rfl
      rw [hexByte_inj hhead, ih htail (by simp only [length_cons] at hlen; lia)]

theorem uuid_pairs (hvalid : uuidStrValid s = true) :
    ∃ p₀ p₁ p₂ p₃ p₄, p₀.length = 4 ∧ p₁.length = 2 ∧ p₂.length = 2 ∧ p₃.length = 2 ∧
      p₄.length = 6 ∧ s.map lower = strOf p₀ p₁ p₂ p₃ p₄ ∧
      ∀ format, uuidStrToBin s format = some (binOf format p₀ p₁ p₂ p₃ p₄) := by
  obtain ⟨g₀, g₁, g₂, g₃, g₄, hs⟩ := uuid_fields hvalid
  obtain ⟨m₀, l₀⟩ := flatMap_pairBytes 4 hs.d₀
  obtain ⟨m₁, l₁⟩ := flatMap_pairBytes 2 hs.d₁
  obtain ⟨m₂, l₂⟩ := flatMap_pairBytes 2 hs.d₂
  obtain ⟨m₃, l₃⟩ := flatMap_pairBytes 2 hs.d₃
  obtain ⟨m₄, l₄⟩ := flatMap_pairBytes 6 hs.d₄
  refine ⟨_, _, _, _, _, l₀, l₁, l₂, l₃, l₄, ?_, uuidStrToBin_eq hs hvalid⟩
  rw [hs.eq, strOf, m₀, m₁, m₂, m₃, m₄]
  simp only [map_append, map_cons]
  rfl

theorem uuid_round_trip (hvalid : uuidStrValid s = true) :
    ∃ bin, uuidStrToBin s .std = some bin ∧ bin.length = 16 ∧
      (uuidBinToStr bin .guid = s.map lower ↔ uuidStrToBin s .std = uuidStrToBin s .guid) := by
  obtain ⟨p₀, p₁, p₂, p₃, p₄, l₀, l₁, l₂, l₃, l₄, hstr, hbin⟩ := uuid_pairs hvalid
  rw [hbin .std, hbin .guid, hstr]
  refine ⟨_, rfl, ?_, ?_⟩
  · simp only [binOf, length_append, l₀, l₁, l₂, l₃, l₄]
  · simp only [binOf]
    rw [(uuidBinToStr_eq l₀ l₁ l₂ l₃ l₄).2, Option.some.injEq]
    constructor
    · intro heq
      obtain ⟨e₀, heq⟩ := append_inj heq (by simp only [flatMap_hexByte_length, length_reverse])
      obtain ⟨e₁, heq⟩ := append_inj (List.cons.inj heq).2
        (by simp only [flatMap_hexByte_length, length_reverse])
      obtain ⟨e₂, heq⟩ := append_inj (List.cons.inj heq).2
        (by simp only [flatMap_hexByte_length, length_reverse])
      rw [flatMap_hexByte_inj e₀, flatMap_hexByte_inj e₁, flatMap_hexByte_inj e₂]
    · intro heq
      obtain ⟨e₀, heq⟩ := append_inj heq (length_reverse).symm
      obtain ⟨e₁, heq⟩ := append_inj heq (length_reverse).symm
      obtain ⟨e₂, heq⟩ := append_inj heq (length_reverse).symm
      rw [← e₀, ← e₁, ← e₂]

end Formats

end UBoot.Gpt
