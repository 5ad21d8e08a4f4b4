import UBoot.Env.Flags
import UBoot.Lib.Strto

/-!
# Values of type ipaddr (common/env_flags.c, lib/net_utils.c)

The type check takes four groups of one to three digits. `string_to_ip` reads the groups as numbers
and keeps their low eight bits.
-/

namespace UBoot.Env

open List Option Strto

def dot : UInt8 := 46

def ipLoop (longBits : ℕ) : ℕ → Str → ℕ → ℕ
  | 0, _, addr => addr
  | n + 1, s, addr =>
    let (val, e) := simpleStrtoul UInt8.toNat longBits s 10
    -- the separator is skipped, whatever it is
    ipLoop longBits n (e.drop 1) ((addr <<< 8) % 2 ^ 32 ||| (val &&& 0xff))

/-- `string_to_ip`, before `htonl`. -/
def stringToIp (longBits : ℕ) : Option Str → ℕ
  | none => 0
  | some s => ipLoop longBits 4 s 0

def octets (addr : ℕ) : List ℕ :=
  [addr / 2 ^ 24 % 256, addr / 2 ^ 16 % 256, addr / 2 ^ 8 % 256, addr % 256]

def decimal (group : Str) : ℕ := value UInt8.toNat 10 0 group

def groups (value : Str) : List ℕ := (value.splitOn dot).map decimal

structure Group (g : Str) : Prop where
  nonempty : g ≠ []
  digits : ∀ c ∈ g, isdigit c = true
  short : g.length ≤ 3

section Groups

variable {g rest s : Str} {c : UInt8} {longBits : ℕ}

theorem isdigit_iff (c : UInt8) : isdigit c = true ↔ 48 ≤ c.toNat ∧ c.toNat ≤ 57 := by
  unfold isdigit
  rw [Bool.and_eq_true, decide_eq_true_eq, decide_eq_true_eq]
  exact Iff.rfl

theorem decimal_digit (h : isdigit c = true) :
    Strto.isxdigit c.toNat = true ∧ digitValue c.toNat < 10 := by
  have hc := (isdigit_iff c).mp h
  rw [digitValue, if_pos hc, Strto.isxdigit]
  exact ⟨by simp [hc], by lia⟩

theorem dropDigits_split (p : UInt8 → Bool) (n : ℕ) (value : Str) :
    ∃ d, value = d ++ dropDigits p n value ∧ (∀ c ∈ d, p c = true) ∧ d.length ≤ n := by
  induction n generalizing value with
  | zero => exact ⟨[], rfl, fun c hc => absurd hc not_mem_nil, le_rfl⟩
  | succ n ih =>
    cases value with
    | nil => exact ⟨[], rfl, fun c hc => absurd hc not_mem_nil, Nat.zero_le _⟩
    | cons c value =>
      rw [dropDigits]
      by_cases hc : p c = true
      · obtain ⟨d, hd, hall, hlen⟩ := ih value
        rw [if_pos hc]
        refine ⟨c :: d, congrArg (c :: ·) hd, forall_mem_cons.mpr ⟨hc, hall⟩, ?_⟩
        rw [length_cons]
        lia
      · rw [if_neg hc]
        exact ⟨[], rfl, fun c hc => absurd hc not_mem_nil, Nat.zero_le _⟩

theorem validateGroups_succ {n : ℕ} (h : validateGroups false dot 3 (n + 1) s = true) :
    ∃ g rest, s = g ++ rest ∧ Group g ∧
      (n = 0 ∧ rest = [] ∨ n ≠ 0 ∧ ∃ next, rest = dot :: next ∧ validateGroups false dot 3 n next = true) := by
  obtain ⟨g, hs, hdigits, hlen⟩ := dropDigits_split isdigit 3 s
  have hskip : skipNum false s (some 3) = dropDigits isdigit 3 s := rfl
  simp only [validateGroups, hskip] at h
  split at h
  · cases h
  next hne =>
    have hg : g ≠ [] := by
      rintro rfl
      exact hne (congrArg List.length hs).symm
    refine ⟨g, dropDigits isdigit 3 s, hs, ⟨hg, hdigits, hlen⟩, ?_⟩
    rw [if_neg (by simp)] at h
    cases hrest : dropDigits isdigit 3 s with
    | nil =>
      rw [hrest] at h
      exact .inl ⟨beq_iff_eq.mp h, rfl⟩
    | cons c next =>
      rw [hrest] at h
      simp only [Bool.and_eq_true, bne_iff_ne, beq_iff_eq] at h
      exact .inr ⟨h.1.1, next, by rw [h.1.2], h.2⟩

theorem read_group (hbits : 32 ≤ longBits) (hg : Group g)
    (hrest : ∀ c, rest.head? = some c → c = dot) :
    simpleStrtoul UInt8.toNat longBits (g ++ rest) 10 = (decimal g, rest) := by
  have hends : Strto.Ends UInt8.toNat rest := fun c hc => by
    rw [hrest c hc]
    decide
  have hlarge : 2 ^ 32 ≤ 2 ^ longBits := Nat.pow_le_pow_right (by decide) hbits
  have hshort : 10 ^ g.length ≤ 10 ^ 3 := Nat.pow_le_pow_right (by decide) hg.short
  have hless : decimal g < (0 + 1) * 10 ^ g.length :=
    value_lt fun c hc => (decimal_digit (hg.digits c hc)).2
  have hfit : decimal g < 2 ^ longBits := by lia
  rw [simpleStrtoul_digits (by decide) hg.nonempty (fun c hc => decimal_digit (hg.digits c hc)) hends]
  exact congrArg (·, rest) (Nat.mod_eq_of_lt hfit)

theorem shift_octet (addr val : ℕ) :
    (addr <<< 8) % 2 ^ 32 ||| (val &&& 0xff) = addr * 256 % 2 ^ 32 + val % 256 := by
  have hmask : val &&& 0xff = val % 256 := Nat.and_two_pow_sub_one_eq_mod val 8
  have hshift : (addr <<< 8) % 2 ^ 32 = (addr % 2 ^ 24) <<< 8 := by
    rw [Nat.shiftLeft_eq, Nat.shiftLeft_eq]
    lia
  have hlow : val % 256 < 2 ^ 8 := Nat.mod_lt _ (by decide)
  rw [hmask, hshift, ← Nat.shiftLeft_add_eq_or_of_lt hlow, Nat.shiftLeft_eq]
  lia

def pushOctet (addr group : ℕ) : ℕ := addr * 256 % 2 ^ 32 + group % 256

theorem ipLoop_groups (hbits : 32 ≤ longBits) (n : ℕ) (s : Str) (addr : ℕ)
    (h : validateGroups false dot 3 (n + 1) s = true) :
    (groups s).length = n + 1 ∧ ipLoop longBits (n + 1) s addr = (groups s).foldl pushOctet addr := by
  induction n generalizing s addr with
  | zero =>
    obtain ⟨g, rest, rfl, hg, ⟨-, rfl⟩ | ⟨hmore, -⟩⟩ := validateGroups_succ h
    · have hdot : dot ∉ g := fun hd => absurd (hg.digits dot hd) (by decide)
      have hread : simpleStrtoul UInt8.toNat longBits (g ++ []) 10 = (decimal g, []) :=
        read_group hbits hg fun c hc => by cases hc
      have hgroups : groups g = [decimal g] := by
        rw [groups, splitOn_eq_singleton hdot]
        rfl
      rw [append_nil] at hread ⊢
      rw [hgroups, ipLoop, hread]
      exact ⟨rfl, shift_octet addr (decimal g)⟩
    · exact absurd rfl hmore
  | succ n ih =>
    obtain ⟨g, rest, rfl, hg, ⟨hlast, -⟩ | ⟨-, next, rfl, hnext⟩⟩ := validateGroups_succ h
    · exact absurd hlast (Nat.succ_ne_zero n)
    · have hdot : dot ∉ g := fun hd => absurd (hg.digits dot hd) (by decide)
      have hread : simpleStrtoul UInt8.toNat longBits (g ++ dot :: next) 10 = (decimal g, dot :: next) :=
        read_group hbits hg fun c hc => (some.inj hc).symm
      have hgroups : groups (g ++ dot :: next) = decimal g :: groups next := by
        rw [groups, splitOn_append_cons_self_of_not_mem hdot]
        rfl
      obtain ⟨hlen, hloop⟩ := ih next (pushOctet addr (decimal g)) hnext
      have hpush : (addr <<< 8) % 2 ^ 32 ||| (decimal g &&& 0xff) = pushOctet addr (decimal g) :=
        shift_octet addr (decimal g)
      rw [hgroups, ipLoop, hread, length_cons, foldl_cons, hlen, ← hloop, ← hpush]
      exact ⟨rfl, rfl⟩

/-- An accepted address is read with the low eight bits of its groups, and so as its groups exactly
when none of them is over 255. -/
theorem octets_are_groups (longBits : ℕ) (hbits : 32 ≤ longBits) (value : Str)
    (h : validateType value Vartype.ipaddr.bin = true) :
    groups value = octets (stringToIp longBits (some value)) ↔ ∀ g ∈ groups value, g ≤ 255 := by
  obtain ⟨hlen, hloop⟩ := ipLoop_groups hbits 3 value 0 h
  obtain ⟨a, b, c, d, hgroups⟩ := length_eq_four.mp hlen
  have hoctets : octets (stringToIp longBits (some value)) = [a % 256, b % 256, c % 256, d % 256] := by
    rw [stringToIp, hloop, hgroups]
    simp only [foldl_cons, foldl_nil, pushOctet, octets]
    congr 1
    · lia
    congr 1
    · lia
    congr 1
    · lia
    congr 1
    lia
  rw [hoctets, hgroups]
  simp only [List.cons.injEq, and_true, forall_mem_cons, not_mem_nil, IsEmpty.forall_iff,
    implies_true]
  lia

theorem octets_are_groups_small :
    groups [49, 48, 46, 48, 46, 48, 50, 46, 50, 53, 53] =
      octets (stringToIp 32 (some [49, 48, 46, 48, 46, 48, 50, 46, 50, 53, 53])) :=
  (octets_are_groups 32 le_rfl _ (by decide)).mpr (by decide +kernel)

/- "256.0.0.1" and "0.0.0.1" are accepted, and are the same address. -/
theorem octets_cut_off : validateType [50, 53, 54, 46, 48, 46, 48, 46, 49] Vartype.ipaddr.bin = true ∧
    validateType [48, 46, 48, 46, 48, 46, 49] Vartype.ipaddr.bin = true ∧
    groups [50, 53, 54, 46, 48, 46, 48, 46, 49] = [256, 0, 0, 1] ∧
    octets (stringToIp 32 (some [50, 53, 54, 46, 48, 46, 48, 46, 49])) = [0, 0, 0, 1] ∧
    stringToIp 32 (some [50, 53, 54, 46, 48, 46, 48, 46, 49]) =
      stringToIp 32 (some [48, 46, 48, 46, 48, 46, 49]) := by
  refine ⟨by decide, by decide, by decide +kernel, by decide +kernel, by decide +kernel⟩

end Groups

end UBoot.Env
