import Mathlib.Tactic

/-!
# Numbers in texts (lib/strto.c)

`simple_strtoul` for a `long` of `w` bits, and with it `simple_strtoull`. The characters are of any
type that has their codes; the end of the list is the NUL.
-/

namespace UBoot.Strto

open List

variable {α : Type} (code : α → ℕ)

def isxdigit (c : ℕ) : Bool := (48 ≤ c && c ≤ 57) || (65 ≤ c && c ≤ 70) || (97 ≤ c && c ≤ 102)

/- The value of a character for which `isxdigit` holds. -/
def digitValue (c : ℕ) : ℕ :=
  if 48 ≤ c ∧ c ≤ 57 then c - 48 else (if 97 ≤ c ∧ c ≤ 122 then c - 32 else c) - 65 + 10

def behindZero (base : ℕ) (cp : List α) : ℕ × List α :=
  if cp.head?.map code = some 120 ∧ (cp.drop 1).head?.any (fun c => isxdigit (code c)) then
    (16, cp.drop 1)
  else (if base = 0 then 8 else base, cp)

def baseOf (base : ℕ) (cp : List α) : ℕ × List α :=
  if cp.head?.map code = some 48 then behindZero code base (cp.drop 1)
  else (if base = 0 then 10 else base, cp)

def digits (w base : ℕ) : ℕ → List α → ℕ × List α
  | result, [] => (result, [])
  | result, c :: cp =>
    if isxdigit (code c) ∧ digitValue (code c) < base then
      digits w base ((result * base + digitValue (code c)) % 2 ^ w) cp
    else (result, c :: cp)

/-- The number, and the text at `endp`. -/
def simpleStrtoul (w : ℕ) (cp : List α) (base : ℕ) : ℕ × List α :=
  digits code w (baseOf code base cp).1 0 (baseOf code base cp).2

/-- The number that digits stand for, behind the digits of `r`. -/
def value (base r : ℕ) (g : List α) : ℕ := g.foldl (fun r c => r * base + digitValue (code c)) r

section Digits

variable {code} {w base r : ℕ} {g rest : List α}

/-- The text goes on with neither a digit nor the x of a prefix. -/
def Ends (code : α → ℕ) (rest : List α) : Prop :=
  ∀ c, rest.head? = some c → isxdigit (code c) = false ∧ code c ≠ 120

theorem value_mod (m : ℕ) : value code base (r % m) g % m = value code base r g % m := by
  induction g generalizing r with
  | nil => exact Nat.mod_mod r m
  | cons c g ih =>
    have hhead : (r % m * base + digitValue (code c)) % m = (r * base + digitValue (code c)) % m := by
      rw [Nat.add_mod, Nat.mul_mod, Nat.mod_mod, ← Nat.mul_mod, ← Nat.add_mod]
    have hstep := @ih (r % m * base + digitValue (code c))
    rw [hhead, ih] at hstep
    exact hstep.symm

theorem value_lt (hg : ∀ c ∈ g, digitValue (code c) < base) :
    value code base r g < (r + 1) * base ^ g.length := by
  induction g generalizing r with
  | nil =>
    rw [value, foldl_nil, length_nil, pow_zero, mul_one]
    exact Nat.lt_succ_self r
  | cons c g ih =>
    obtain ⟨hc, hg⟩ := forall_mem_cons.mp hg
    have hstep : (r * base + digitValue (code c) + 1) * base ^ g.length ≤
        (r + 1) * base * base ^ g.length :=
      Nat.mul_le_mul_right _ (by lia)
    calc value code base r (c :: g)
      _ = value code base (r * base + digitValue (code c)) g := rfl
      _ < (r * base + digitValue (code c) + 1) * base ^ g.length := ih hg
      _ ≤ (r + 1) * base * base ^ g.length := hstep
      _ = (r + 1) * base ^ (g.length + 1) := by ring

theorem digits_append (hg : ∀ c ∈ g, isxdigit (code c) = true ∧ digitValue (code c) < base)
    (hrest : Ends code rest) (hr : r < 2 ^ w) :
    digits code w base r (g ++ rest) = (value code base r g % 2 ^ w, rest) := by
  induction g generalizing r with
  | nil =>
    rw [nil_append, value, foldl_nil, Nat.mod_eq_of_lt hr]
    cases rest with
    | nil => rfl
    | cons c rest => rw [digits, if_neg fun h => Bool.eq_false_iff.mp (hrest c rfl).1 h.1]
  | cons c g ih =>
    obtain ⟨hc, hg⟩ := forall_mem_cons.mp hg
    rw [cons_append, digits, if_pos hc, ih hg (Nat.mod_lt _ (by positivity)), value_mod]
    rfl

theorem baseOf_nonzero {c : α} (hc : code c ≠ 48) :
    baseOf code base (c :: g) = (if base = 0 then 10 else base, c :: g) := by
  rw [baseOf, head?_cons, Option.map_some, if_neg fun h => hc (Option.some.inj h)]

theorem baseOf_zero {c : α} (hc : code c = 48) (hx : ∀ d, g.head? = some d → code d ≠ 120) :
    baseOf code base (c :: g) = (if base = 0 then 8 else base, g) := by
  rw [baseOf, head?_cons, Option.map_some, if_pos (congrArg some hc), drop_succ_cons, drop_zero,
    behindZero, if_neg]
  rintro ⟨hhead, -⟩
  obtain ⟨d, hd, h120⟩ := Option.map_eq_some_iff.mp hhead
  exact hx d hd h120

/-- Digits of the base are read as their number. -/
theorem simpleStrtoul_digits (hbase : base ≠ 0) (hne : g ≠ [])
    (hg : ∀ c ∈ g, isxdigit (code c) = true ∧ digitValue (code c) < base) (hrest : Ends code rest) :
    simpleStrtoul code w (g ++ rest) base = (value code base 0 g % 2 ^ w, rest) := by
  obtain ⟨c, tail, rfl⟩ := exists_cons_of_ne_nil hne
  by_cases hzero : code c = 48
  · have hnext : ∀ d, (tail ++ rest).head? = some d → code d ≠ 120 := by
      intro d hd hx
      cases tail with
      | nil => exact (hrest d hd).2 hx
      | cons e tail =>
        have hdigit := (hg e (by simp)).1
        rw [Option.some.inj hd, hx] at hdigit
        cases hdigit
    have hlead : value code base 0 (c :: tail) = value code base 0 tail := by
      rw [value, foldl_cons, hzero, Nat.zero_mul]
      rfl
    rw [cons_append, simpleStrtoul, baseOf_zero hzero hnext, hlead, if_neg hbase]
    exact digits_append (fun d hd => hg d (mem_cons_of_mem c hd)) hrest (by positivity)
  · rw [cons_append, simpleStrtoul, baseOf_nonzero hzero, if_neg hbase]
    exact digits_append hg hrest (by positivity)

end Digits

end UBoot.Strto
