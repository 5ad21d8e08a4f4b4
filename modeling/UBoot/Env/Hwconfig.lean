import Mathlib.Data.List.Basic
import Mathlib.Data.List.TakeWhile

/-!
# The hwconfig variable (common/hwconfig.c)

`hwconfig_parse` looks for an option by the places where its name occurs in the string. A string is
the list of its characters without the end marker; a pointer into it is an offset.
-/

namespace UBoot.Hwconfig

open List Option

/-! ### The code -/

section Model

variable {α : Type} [DecidableEq α]

/-- Where `s2` occurs first. -/
def strstr (s2 : List α) : List α → Option ℕ
  | [] => if s2 = [] then some 0 else none
  | c :: s1 => if s2 <+: c :: s1 then some 0 else (strstr s2 s1).map (· + 1)

/-- The first of these characters from an offset on. -/
def strpbrk (s ct : List α) (p : ℕ) : Option ℕ := ((s.drop p).findIdx? (· ∈ ct)).map (p + ·)

/-- What stands behind the name ends it. -/
def Ends (start stopchs : List α) (eqch : α) (p : ℕ) : Prop :=
  strpbrk start stopchs p = some p ∨ start[p]? = some eqch ∨ start[p]? = none

instance (start stopchs : List α) (eqch : α) (p : ℕ) : Decidable (Ends start stopchs eqch p) :=
  inferInstanceAs (Decidable (_ ∨ _ ∨ _))

/-- What is returned for an occurrence that counts, with the length where it is asked for. -/
def found (start : List α) (maxlen : ℕ) (opt stopchs : List α) (eqch : α) (arglen : Bool)
    (str : ℕ) : Option (ℕ × ℕ) :=
  if arglen = false then some (str, 0)
  else if start[str + opt.length]? ≠ some eqch then none
  else match strpbrk start stopchs str with
    | none => some (str + opt.length + 1, min maxlen (start.length - str) - opt.length - 1)
    | some argEnd => some (str + opt.length + 1, argEnd - (str + opt.length) - 1)

/-- The jumps to `next`, counted; `none` where they do not suffice, `some none` for NULL. -/
def hwconfigParse (start : List α) (maxlen : ℕ) (opt stopchs : List α) (eqch : α)
    (arglen : Bool) : ℕ → ℕ → Option (Option (ℕ × ℕ))
  | 0, _ => none
  | n + 1, opts =>
    match strstr opt (start.drop opts) with
    | none => some none
    | some i =>
      let str := opts + i
      let tail := str + opt.length
      if maxlen < tail then some none
      else if (str = opts ∨ strpbrk start stopchs (str - 1) = some (str - 1)) ∧
          Ends start stopchs eqch tail then
        some (found start maxlen opt stopchs eqch arglen str)
      else hwconfigParse start maxlen opt stopchs eqch arglen n tail

end Model

abbrev Str := List Char

def boardHwconfig : Str := []

def cpuHwconfig : Str := []

/-- GD_FLG_ENV_READY and the variable `hwconfig`. -/
structure Environment where
  ready : Bool
  hwconfig : Option Str

/-- The string that is searched before those of the board and the CPU. -/
def Environment.source (env : Environment) (buf : Option Str) : Option (Option Str) :=
  match buf with
  | some s => some (some s)
  | none => if env.ready then some env.hwconfig else none

/-- A pointer, as a string and an offset, with a length. -/
abbrev Arg := Str × ℕ × ℕ

/-- `hwconfig_parse` for a whole string. -/
def parseAll (n : ℕ) (s opt : Str) (arglen : Bool) : Option (Option Arg) :=
  (hwconfigParse s s.length opt [';'] ':' arglen n 0).map (·.map fun r => (s, r))

/-- `__hwconfig`. -/
def hwconfig (n : ℕ) (env : Environment) (opt : Str) (arglen : Bool) (buf : Option Str) :
    Option (Option Arg) :=
  match env.source buf with
  | none => some none
  | some envHwconfig => do
    let ret ← match envHwconfig with
      | some s => parseAll n s opt arglen
      | none => some none
    if ret.isSome then return ret
    let ret ← parseAll n boardHwconfig opt arglen
    if ret.isSome then return ret
    parseAll n cpuHwconfig opt arglen

def hwconfigF (n : ℕ) (env : Environment) (opt : Str) (buf : Option Str) : Option Bool :=
  (hwconfig n env opt false buf).map (·.isSome)

def hwconfigArgF (n : ℕ) (env : Environment) (opt : Str) (buf : Option Str) :
    Option (Option Arg) :=
  hwconfig n env opt true buf

/-- The search for a sub-option in an argument. -/
def parseArg (n : ℕ) (arg : Arg) (subopt : Str) (arglen : Bool) : Option (Option Arg) :=
  (hwconfigParse (arg.1.drop arg.2.1) arg.2.2 subopt [',', ';'] '=' arglen n 0).map
    (·.map fun r => (arg.1, arg.2.1 + r.1, r.2))

def hwconfigSubF (n : ℕ) (env : Environment) (opt subopt : Str) (buf : Option Str) :
    Option Bool :=
  (hwconfig n env opt true buf).bind fun arg => match arg with
    | none => some false
    | some arg => (parseArg n arg subopt false).map (·.isSome)

def hwconfigSubargF (n : ℕ) (env : Environment) (opt subopt : Str) (buf : Option Str) :
    Option (Option Arg) :=
  (hwconfig n env opt true buf).bind fun arg => match arg with
    | none => some none
    | some arg => parseArg n arg subopt true

/-! ### The tokens -/

section Tokens

variable {α : Type} [DecidableEq α]

/-- An option starts here. -/
def Starts (sep : α) (s : List α) (k : ℕ) : Prop := k ≤ s.length ∧ (k = 0 ∨ s[k - 1]? = some sep)

instance (sep : α) (s : List α) (k : ℕ) : Decidable (Starts sep s k) :=
  inferInstanceAs (Decidable (_ ∧ _))

/-- Where the options start, in the order of the string. -/
def options (sep : α) (s : List α) : List ℕ := (List.range (s.length + 1)).filter (Starts sep s)

def optionAt (sep : α) (s : List α) (k : ℕ) : List α := (s.drop k).takeWhile (· ≠ sep)

def key (sep eq : α) (s : List α) (k : ℕ) : List α := (optionAt sep s k).takeWhile (· ≠ eq)

/-- Where the arguments of an option start and how long they are. -/
def arguments (sep eq : α) (s : List α) (k : ℕ) : Option (ℕ × ℕ) :=
  if (key sep eq s k).length < (optionAt sep s k).length then
    some (k + (key sep eq s k).length + 1, (optionAt sep s k).length - (key sep eq s k).length - 1)
  else none

/-- The first option with a key. -/
def lookup (sep eq : α) (s opt : List α) : Option ℕ := (options sep s).find? (key sep eq s · = opt)

def argumentsOf (sep eq : α) (s opt : List α) : Option (ℕ × ℕ) :=
  (lookup sep eq s opt).bind (arguments sep eq s)

def IsKey (sep eq : α) (s opt : List α) (k : ℕ) : Prop := Starts sep s k ∧ key sep eq s k = opt

variable {eq sep : α} {opt s : List α}

theorem lookup_eq_some {k : ℕ} :
    lookup sep eq s opt = some k ↔ IsKey sep eq s opt k ∧ ∀ j < k, ¬ IsKey sep eq s opt j := by
  rw [lookup, options, find?_filter, find?_range_eq_some]
  simp only [IsKey, mem_range, Bool.not_eq_true', decide_eq_false_iff_not, decide_eq_true_eq]
  constructor
  · intro hfirst
    exact ⟨hfirst.1, hfirst.2.2⟩
  · intro hfirst
    exact ⟨hfirst.1, Nat.lt_succ_of_le hfirst.1.1.1, hfirst.2⟩

theorem lookup_eq_none : lookup sep eq s opt = none ↔ ∀ k, ¬ IsKey sep eq s opt k := by
  rw [lookup, find?_eq_none]
  simp only [options, mem_filter, mem_range, IsKey, decide_eq_true_eq]
  constructor
  · intro hnone k hkey
    exact hnone k ⟨by have := hkey.1.1; lia, hkey.1⟩ hkey.2
  · intro hnone k hk hkey
    exact hnone k ⟨hk.2, hkey⟩

/-- The character that ends a key stands here. -/
def Stops (sep eq : α) (s : List α) (p : ℕ) : Prop :=
  s[p]? = none ∨ s[p]? = some sep ∨ s[p]? = some eq

instance (sep eq : α) (s : List α) (p : ℕ) : Decidable (Stops sep eq s p) :=
  inferInstanceAs (Decidable (_ ∨ _ ∨ _))

theorem takeWhile_eq_iff (hfree : ∀ c ∈ opt, c ≠ sep ∧ c ≠ eq)
    (t : List α) : (t.takeWhile (· ≠ sep)).takeWhile (· ≠ eq) = opt ↔
      opt <+: t ∧ Stops sep eq t opt.length := by
  induction opt generalizing t with
  | nil =>
    cases t with
    | nil => simp [Stops]
    | cons c t =>
      by_cases hsep : c = sep
      · simp [Stops, hsep]
      · by_cases heq : c = eq
        · subst heq
          simp [Stops, hsep]
        · simp [Stops, hsep, heq]
  | cons d opt ih =>
    cases t with
    | nil => simp
    | cons c t =>
      have hd := hfree d mem_cons_self
      have ih := ih (fun c hc => hfree c (mem_cons_of_mem _ hc)) t
      simp only [cons_prefix_cons, length_cons, Stops, getElem?_cons_succ]
      by_cases hc : c = d
      · subst hc
        simpa [hd.1, hd.2, Stops] using ih
      · have hneither : ¬ d = c := Ne.symm hc
        by_cases hsep : c = sep
        · subst hsep
          simp [hneither]
        · by_cases heq : c = eq
          · subst heq
            simp [hsep, hneither]
          · simp [hsep, heq, hc, hneither]

theorem key_eq_iff (hfree : ∀ c ∈ opt, c ≠ sep ∧ c ≠ eq) {k : ℕ} :
    key sep eq s k = opt ↔ opt <+: s.drop k ∧ Stops sep eq s (k + opt.length) := by
  rw [key, optionAt, takeWhile_eq_iff hfree, Stops, Stops, getElem?_drop]

end Tokens

/-! ### The search in the searched text alone -/

section Search

variable {α : Type} [DecidableEq α] {opt s : List α}

theorem strstr_eq_some {i : ℕ} (hfirst : strstr opt s = some i) :
    i ≤ s.length ∧ opt <+: s.drop i ∧ ∀ j < i, ¬ opt <+: s.drop j := by
  induction s generalizing i with
  | nil =>
    rw [strstr] at hfirst
    split at hfirst
    · next hnil =>
      cases hfirst
      exact ⟨Nat.zero_le _, hnil ▸ nil_prefix, fun j hj => absurd hj (Nat.not_lt_zero j)⟩
    · cases hfirst
  | cons c s ih =>
    rw [strstr] at hfirst
    split at hfirst
    · next hhere =>
      cases hfirst
      exact ⟨Nat.zero_le _, hhere, fun j hj => absurd hj (Nat.not_lt_zero j)⟩
    · next hhere =>
      obtain ⟨i, hi, rfl⟩ := map_eq_some_iff.mp hfirst
      refine ⟨Nat.succ_le_succ (ih hi).1, (ih hi).2.1, fun j hj => ?_⟩
      cases j with
      | zero => exact hhere
      | succ j => exact (ih hi).2.2 j (Nat.lt_of_succ_lt_succ hj)

theorem strstr_eq_none (hnone : strstr opt s = none) (j : ℕ) : ¬ opt <+: s.drop j := by
  induction s generalizing j with
  | nil =>
    intro hpre
    rw [drop_nil, prefix_nil] at hpre
    simp [strstr, hpre] at hnone
  | cons c s ih =>
    rw [strstr] at hnone
    split at hnone
    · cases hnone
    · next hhere =>
      cases j with
      | zero => exact hhere
      | succ j => exact ih (map_eq_none_iff.mp hnone) j

variable {k o : ℕ}

omit [DecidableEq α] in
theorem mem_within (hpre : opt <+: s.drop o) (hk : o ≤ k)
    (hlt : k < o + opt.length) {c : α} (hc : s[k]? = some c) : c ∈ opt := by
  obtain ⟨rest, hrest⟩ := hpre
  have hat : (s.drop o)[k - o]? = opt[k - o]? := by
    rw [← hrest, getElem?_append_left (by lia)]
  rw [getElem?_drop, Nat.add_sub_cancel' hk, hc] at hat
  exact mem_of_getElem? hat.symm

omit [DecidableEq α] in
theorem prefix_length_le (hpre : opt <+: s.drop o) (ho : o ≤ s.length) : o + opt.length ≤ s.length := by
  have := hpre.length_le
  rw [length_drop] at this
  lia

variable (opt s) (sep eq : α)

/-- The places where the search goes on, from a place on. -/
inductive Resumes : ℕ → ℕ → Prop where
  | refl (o : ℕ) : Resumes o o
  | step {o i o' : ℕ} (hfirst : strstr opt (s.drop o) = some i)
      (hrest : Resumes (o + i + opt.length) o') : Resumes o o'

/-- An occurrence that counts where the search starts with it. -/
def Marked (o : ℕ) : Prop := opt <+: s.drop o ∧ Stops sep eq s (o + opt.length)

/-- The name occurs right behind an occurrence of itself, ends there, and no option has it as its
key up to this place. -/
def Doubled (o : ℕ) : Prop :=
  (∃ i, strstr opt s = some i ∧ Resumes opt s (i + opt.length) o) ∧ Marked opt s sep eq o ∧
    ∀ k ≤ o, ¬ IsKey sep eq s opt k

/-- `hwconfig_parse` without the text around the searched one. -/
def scan : ℕ → ℕ → Option (Option ℕ)
  | 0, _ => none
  | n + 1, o =>
    match strstr opt (s.drop o) with
    | none => some none
    | some i =>
      if (i = 0 ∨ s[o + i - 1]? = some sep) ∧ Stops sep eq s (o + i + opt.length) then
        some (some (o + i))
      else scan n (o + i + opt.length)

/-- An occurrence that the search from a place on takes for a key. -/
def Counts (o k : ℕ) : Prop := Marked opt s sep eq k ∧ (Starts sep s k ∨ Resumes opt s o k)

/-- The search from a place on ends with the first of them. -/
def Outcome (o : ℕ) (r : Option ℕ) : Prop :=
  (∀ h, r = some h → o ≤ h ∧ Counts opt s sep eq o h) ∧
    ∀ k ≥ o, Counts opt s sep eq o k → ∃ h ≤ k, r = some h

variable {opt s sep eq} (hfree : ∀ c ∈ opt, c ≠ sep ∧ c ≠ eq)

theorem Resumes.le {o' : ℕ} (h : Resumes opt s o o') : o ≤ o' := by
  induction h with
  | refl o => exact Nat.le_refl o
  | step _ _ ih => lia

include hfree in
theorem isKey_iff : IsKey sep eq s opt k ↔ Starts sep s k ∧ Marked opt s sep eq k :=
  and_congr_right fun _ => key_eq_iff hfree

section Step

variable {o i : ℕ} (hfirst : strstr opt (s.drop o) = some i)

include hfirst in
theorem occurs : opt <+: s.drop (o + i) ∧ ∀ j, o ≤ j → j < o + i → ¬ opt <+: s.drop j := by
  obtain ⟨-, hpre, hbefore⟩ := strstr_eq_some hfirst
  rw [drop_drop] at hpre
  refine ⟨hpre, fun j hj hlt => ?_⟩
  have := hbefore (j - o) (by lia)
  rwa [drop_drop, Nat.add_sub_cancel' hj] at this

include hfirst in
theorem accepted (hprev : i = 0 ∨ s[o + i - 1]? = some sep)
    (hstops : Stops sep eq s (o + i + opt.length)) : Outcome opt s sep eq o (some (o + i)) := by
  obtain ⟨hpre, hbefore⟩ := occurs hfirst
  refine ⟨fun h hh => ?_, fun k hk hcounts => ⟨o + i, ?_, rfl⟩⟩
  · cases hh
    refine ⟨Nat.le_add_right o i, ⟨hpre, hstops⟩, ?_⟩
    cases hprev with
    | inl hi =>
      subst hi
      exact .inr (Resumes.refl o)
    | inr hsep =>
      have hin := (List.getElem?_eq_some_iff.mp hsep).1
      exact .inl ⟨by lia, .inr hsep⟩
  · by_contra hlt
    exact hbefore k hk (by lia) hcounts.1.1

include hfirst hfree in
/- A key does not start inside of an occurrence of the name. -/
theorem rejected (hnot : ¬ ((i = 0 ∨ s[o + i - 1]? = some sep) ∧
      Stops sep eq s (o + i + opt.length))) {k : ℕ} (hk : o ≤ k)
    (hcounts : Counts opt s sep eq o k) :
    o + i + opt.length ≤ k ∧ Counts opt s sep eq (o + i + opt.length) k := by
  obtain ⟨hpre, hbefore⟩ := occurs hfirst
  obtain ⟨hmark, hwhere⟩ := hcounts
  have hle : o + i ≤ k := by
    by_contra hlt
    exact hbefore k hk (by lia) hmark.1
  cases hwhere with
  | inl hstart =>
    refine ⟨?_, hmark, .inl hstart⟩
    by_contra hlt
    by_cases hhere : k = o + i
    · subst hhere
      exact hnot ⟨hstart.2.imp_left (by lia), hmark.2⟩
    · have hsep := hstart.2.resolve_left (by lia)
      exact (hfree sep (mem_within hpre (by lia) (by lia) hsep)).1 rfl
  | inr hres =>
    cases hres with
    | refl =>
      obtain rfl : i = 0 := by lia
      exact absurd ⟨.inl rfl, hmark.2⟩ hnot
    | step hfirst' hrest =>
      cases hfirst.symm.trans hfirst'
      exact ⟨hrest.le, hmark, .inr hrest⟩

end Step

include hfree in
theorem scan_spec (hne : opt ≠ []) (o : ℕ) (ho : o ≤ s.length) :
    ∃ r, Outcome opt s sep eq o r ∧ ∀ n, s.length < n + o → scan opt s sep eq n o = some r := by
  induction hd : s.length - o using Nat.strongRecOn generalizing o with
  | ind d ih =>
    cases hfirst : strstr opt (s.drop o) with
    | none =>
      refine ⟨none, ⟨fun h hh => absurd hh.symm (some_ne_none h), fun k hk hcounts => ?_⟩, fun n hn => ?_⟩
      · have := strstr_eq_none hfirst (k - o)
        rw [drop_drop, Nat.add_sub_cancel' hk] at this
        exact absurd hcounts.1.1 this
      · cases n with
        | zero => lia
        | succ n => rw [scan, hfirst]
    | some i =>
      by_cases hcond : (i = 0 ∨ s[o + i - 1]? = some sep) ∧ Stops sep eq s (o + i + opt.length)
      · refine ⟨_, accepted hfirst hcond.1 hcond.2, fun n hn => ?_⟩
        cases n with
        | zero => lia
        | succ n => simp only [scan, hfirst, if_pos hcond]
      · have hin := (strstr_eq_some hfirst).1
        rw [length_drop] at hin
        have hnext := prefix_length_le (occurs hfirst).1 (by lia)
        have hlen := length_pos_iff.mpr hne
        obtain ⟨r, hout, hr⟩ := ih _ (by lia) (o + i + opt.length) hnext rfl
        refine ⟨r, ⟨fun h hh => ?_, fun k hk hcounts => ?_⟩, fun n hn => ?_⟩
        · obtain ⟨hle, hmark, hwhere⟩ := hout.1 h hh
          exact ⟨by lia, hmark, hwhere.imp_right (Resumes.step hfirst)⟩
        · obtain ⟨hle, hlater⟩ := rejected hfree hfirst hcond hk hcounts
          exact hout.2 k hle hlater
        · cases n with
          | zero => lia
          | succ n =>
            simp only [scan, hfirst, if_neg hcond]
            exact hr n (by lia)

theorem strstr_nil (s : List α) : strstr [] s = some 0 := by
  cases s with
  | nil => rfl
  | cons c s => simp [strstr]

include hfree in
theorem scan_settles (hempty : opt = [] → Stops sep eq s 0) :
    ∃ r, Outcome opt s sep eq 0 r ∧ ∀ n, s.length < n → scan opt s sep eq n 0 = some r := by
  by_cases hne : opt = []
  · subst hne
    refine ⟨some 0, accepted (strstr_nil _) (.inl rfl) (hempty rfl), fun n hn => ?_⟩
    cases n with
    | zero => lia
    | succ n => simp [scan, strstr_nil, hempty]
  · exact scan_spec hfree hne 0 (Nat.zero_le _)

theorem scan_loops (hnot : ¬ Stops sep eq s 0) (n : ℕ) : scan [] s sep eq n 0 = none := by
  induction n with
  | zero => rfl
  | succ n ih => simpa [scan, strstr_nil, hnot] using ih

include hfree in
/- Either the first key is found or the first doubled name. -/
theorem outcome_cases {r : Option ℕ} (hout : Outcome opt s sep eq 0 r) :
    (r = lookup sep eq s opt ∧ ∀ h, ¬ Doubled opt s sep eq h) ∨
      ∃ h, r = some h ∧ Doubled opt s sep eq h ∧ ∀ h' < h, ¬ Doubled opt s sep eq h' := by
  have hkeys : ∀ k, IsKey sep eq s opt k → ∃ h ≤ k, r = some h := by
    intro k hkey
    obtain ⟨hstart, hmark⟩ := (isKey_iff hfree).mp hkey
    exact hout.2 k (Nat.zero_le k) ⟨hmark, .inl hstart⟩
  have hdoubles : ∀ k, Doubled opt s sep eq k → ∃ h ≤ k, r = some h := by
    intro k hdoubled
    obtain ⟨⟨i, hfirst, hres⟩, hmark, -⟩ := hdoubled
    exact hout.2 k (Nat.zero_le k) ⟨hmark, .inr (Resumes.step hfirst (by rwa [Nat.zero_add]))⟩
  cases r with
  | none =>
    have hno : ∀ {k : ℕ}, ¬ ∃ h ≤ k, none = some h := by simp
    exact .inl ⟨(lookup_eq_none.mpr fun k hkey => hno (hkeys k hkey)).symm,
      fun h hdoubled => hno (hdoubles h hdoubled)⟩
  | some h =>
    have hleast : ∀ {k}, (∃ h' ≤ k, some h = some h') → h ≤ k := by
      intro k hk
      obtain ⟨h', hle, heq⟩ := hk
      cases heq
      exact hle
    obtain ⟨-, hmark, hwhere⟩ := hout.1 h rfl
    by_cases hstart : Starts sep s h
    · have hkey := (isKey_iff hfree).mpr ⟨hstart, hmark⟩
      refine .inl ⟨(lookup_eq_some.mpr ⟨hkey, fun j hj hkey' => ?_⟩).symm, fun k hdoubled => ?_⟩
      · exact absurd (hleast (hkeys j hkey')) (by lia)
      · exact hdoubled.2.2 h (hleast (hdoubles k hdoubled)) hkey
    · refine .inr ⟨h, rfl, ⟨?_, hmark, fun k hk hkey => ?_⟩, fun k hk hdoubled => ?_⟩
      · cases hwhere.resolve_left hstart with
        | refl => exact absurd ⟨Nat.zero_le _, .inl rfl⟩ hstart
        | step hfirst hrest => exact ⟨_, hfirst, by rwa [Nat.zero_add] at hrest⟩
      · obtain rfl := Nat.le_antisymm hk (hleast (hkeys k hkey))
        exact hstart hkey.1
      · exact absurd (hleast (hdoubles k hdoubled)) (by lia)

variable (opt s sep eq)

/-- The search finds what the tokens say. -/
def Sound : Prop :=
  (opt = [] → Stops sep eq s 0) ∧
    ∀ h, Doubled opt s sep eq h → (∀ h' < h, ¬ Doubled opt s sep eq h') →
      arguments sep eq s h = none ∧ (lookup sep eq s opt).isSome ∧ argumentsOf sep eq s opt = none

/-- The calls return this as soon as the jumps suffice. -/
def Settles {β : Type} (f : ℕ → Option β) (r : β) : Prop := ∃ n₀, ∀ n ≥ n₀, f n = some r

variable {opt s sep eq}

theorem Settles.unique {β : Type} {f : ℕ → Option β} {r r' : β} (h : Settles f r)
    (h' : Settles f r') : r = r' := by
  obtain ⟨n, hn⟩ := h
  obtain ⟨n', hn'⟩ := h'
  exact some.inj ((hn (max n n') (Nat.le_max_left _ _)).symm.trans
    (hn' (max n n') (Nat.le_max_right _ _)))

theorem arguments_of_key {r : ℕ × ℕ} (hkey : key sep eq s k = opt)
    (hargs : arguments sep eq s k = some r) : r.1 = k + opt.length + 1 := by
  rw [arguments, hkey] at hargs
  split at hargs
  · cases hargs
    rfl
  · cases hargs

include hfree in
theorem scan_right : (Settles (fun n => (scan opt s sep eq n 0).map (·.isSome))
      (lookup sep eq s opt).isSome ∧
    Settles (fun n => (scan opt s sep eq n 0).map (·.bind (arguments sep eq s)))
      (argumentsOf sep eq s opt)) ↔ Sound opt s sep eq := by
  by_cases hempty : opt = [] → Stops sep eq s 0
  · obtain ⟨r, hout, hscan⟩ := scan_settles hfree hempty
    have hsettles : ∀ {β : Type} (g : Option ℕ → β),
        Settles (fun n => (scan opt s sep eq n 0).map g) (g r) :=
      fun g => ⟨s.length + 1, fun n hn => by dsimp only; rw [hscan n hn]; rfl⟩
    obtain ⟨rfl, hnone⟩ | ⟨h, rfl, hdoubled, hleast⟩ := outcome_cases hfree hout
    · exact iff_of_true ⟨hsettles _, hsettles _⟩
        ⟨hempty, fun h hdoubled => absurd hdoubled (hnone h)⟩
    · constructor
      · intro hright
        have hsome := (hsettles _).unique hright.1
        have hargs := (hsettles _).unique hright.2
        have hno : arguments sep eq s h = none := by
          cases hr : arguments sep eq s h with
          | none => rfl
          | some r =>
            obtain ⟨k, hk, hkargs⟩ := bind_eq_some_iff.mp (hargs.symm.trans hr)
            have hkey := (lookup_eq_some.mp hk).1
            have h₁ := arguments_of_key hkey.2 hkargs
            have h₂ := arguments_of_key ((key_eq_iff hfree).mpr hdoubled.2.1) hr
            obtain rfl : k = h := by lia
            exact absurd hkey (hdoubled.2.2 k (Nat.le_refl k))
        refine ⟨hempty, fun h' hdoubled' hleast' => ?_⟩
        obtain rfl : h' = h := by
          by_contra hne
          cases Nat.lt_or_gt_of_ne hne with
          | inl hlt => exact hleast h' hlt hdoubled'
          | inr hgt => exact hleast' h hgt hdoubled
        exact ⟨hno, hsome.symm, hargs.symm.trans hno⟩
      · intro hsound
        obtain ⟨hno, hsome, hargs⟩ := hsound.2 h hdoubled hleast
        have h₁ := hsettles (·.isSome)
        have h₂ := hsettles (·.bind (arguments sep eq s))
        rw [bind_some, hno, ← hargs] at h₂
        rw [isSome_some, ← hsome] at h₁
        exact ⟨h₁, h₂⟩
  · have hopt : opt = [] := by
      by_contra hne
      exact hempty fun h => absurd h hne
    subst hopt
    refine iff_of_false (fun hright => ?_) fun hsound => hempty hsound.1
    obtain ⟨n, hn⟩ := hright.1
    have := hn n (Nat.le_refl n)
    simp [scan_loops fun h => hempty fun _ => h] at this

end Search

/-! ### The code searches its text -/

section Refinement

variable {α : Type} [DecidableEq α] {start opt stopchs : List α} {m : ℕ} {sep eq : α}

/-- The text of this length is followed by a character where it could stop. -/
structure Framed (start stopchs : List α) (m : ℕ) (sep eq : α) : Prop where
  le : m ≤ start.length
  sep_mem : sep ∈ stopchs
  eq_not : eq ∉ stopchs
  inside : ∀ c ∈ start.take m, c ∈ stopchs → c = sep
  behind : ∀ c, start[m]? = some c → c ∈ stopchs

variable {p : ℕ}

theorem strpbrk_self : strpbrk start stopchs p = some p ↔ ∃ c ∈ stopchs, start[p]? = some c := by
  rw [strpbrk, ← Nat.add_zero p, ← getElem?_drop, Nat.add_zero]
  cases start.drop p with
  | nil => simp
  | cons c rest =>
    by_cases hc : c ∈ stopchs
    · simp [findIdx?_cons, hc]
    · simp only [findIdx?_cons, hc, decide_false, Bool.false_eq_true, if_false,
        Option.map_map, map_eq_some_iff, getElem?_cons_zero, some.injEq,
        Function.comp_apply]
      constructor
      · rintro ⟨j, -, hj⟩
        lia
      · rintro ⟨c', hc', rfl⟩
        exact absurd hc' hc

theorem strstr_of_first {s : List α} {i : ℕ} (hpre : opt <+: s.drop i)
    (hbefore : ∀ j < i, ¬ opt <+: s.drop j) : strstr opt s = some i := by
  cases hfirst : strstr opt s with
  | none => exact absurd hpre (strstr_eq_none hfirst i)
  | some j =>
    obtain ⟨-, hj, hbefore'⟩ := strstr_eq_some hfirst
    obtain hlt | rfl | hgt := Nat.lt_trichotomy j i
    · exact absurd hj (hbefore j hlt)
    · rfl
    · exact absurd hpre (hbefore' i hgt)

variable {u : List α} {q : ℕ}

theorem strstr_take {i : ℕ} (hfirst : strstr opt u = some i)
    (hin : i + opt.length ≤ q) : strstr opt (u.take q) = some i := by
  obtain ⟨-, hpre, hbefore⟩ := strstr_eq_some hfirst
  apply strstr_of_first
  · rw [drop_take]
    exact prefix_take_iff.mpr ⟨hpre, by lia⟩
  · intro j hj hpre'
    rw [drop_take] at hpre'
    exact hbefore j hj (prefix_take_iff.mp hpre').1

theorem strstr_take_none
    (hout : ∀ i, strstr opt u = some i → q < i + opt.length) : strstr opt (u.take q) = none := by
  cases hfirst : strstr opt (u.take q) with
  | none => rfl
  | some j =>
    obtain ⟨hj, hpre, -⟩ := strstr_eq_some hfirst
    rw [length_take] at hj
    rw [drop_take] at hpre
    obtain ⟨hpre, hlen⟩ := prefix_take_iff.mp hpre
    cases hu : strstr opt u with
    | none => exact absurd hpre (strstr_eq_none hu j)
    | some i =>
      have hi := hout i hu
      have hle : i ≤ j := by
        by_contra hlt
        exact (strstr_eq_some hu).2.2 j (by lia) hpre
      lia

/- `strpbrk` and the end of the token. -/
theorem findIdx_takeWhile (hsep : sep ∈ stopchs) (hq : q ≤ u.length)
    (hinside : ∀ c ∈ u.take q, c ∈ stopchs → c = sep)
    (hbehind : ∀ c, u[q]? = some c → c ∈ stopchs) :
    u.findIdx? (· ∈ stopchs) = none ∧ q = u.length ∧
        ((u.take q).takeWhile (· ≠ sep)).length = q ∨
      u.findIdx? (· ∈ stopchs) = some ((u.take q).takeWhile (· ≠ sep)).length := by
  induction u generalizing q with
  | nil =>
    obtain rfl := Nat.le_zero.mp hq
    exact .inl ⟨rfl, rfl, rfl⟩
  | cons c u ih =>
    cases q with
    | zero =>
      have hc := hbehind c rfl
      exact .inr (by simp [findIdx?_cons, hc])
    | succ q =>
      by_cases hc : c ∈ stopchs
      · have hcsep := hinside c mem_cons_self hc
        exact .inr (by simp [findIdx?_cons, hcsep, hsep])
      · have hne : c ≠ sep := fun h => hc (h ▸ hsep)
        have hcons : ((c :: u).take (q + 1)).takeWhile (· ≠ sep) =
            c :: (u.take q).takeWhile (· ≠ sep) := by
          simp [hne]
        rw [hcons, findIdx?_cons, if_neg (by simpa using hc), length_cons, length_cons]
        refine (ih (Nat.le_of_succ_le_succ hq)
          (fun d hd => hinside d (mem_cons_of_mem c hd)) hbehind).imp ?_ ?_
        · intro hnone
          rw [hnone.1, ← hnone.2.1, hnone.2.2]
          exact ⟨rfl, rfl, rfl⟩
        · intro hsome
          rw [hsome]
          rfl

variable {h : ℕ}

theorem strpbrk_token (hframe : Framed start stopchs m sep eq) (hh : h ≤ m) :
    strpbrk start stopchs h = none ∧ m = start.length ∧
        (optionAt sep (start.take m) h).length = m - h ∨
      strpbrk start stopchs h = some (h + (optionAt sep (start.take m) h).length) := by
  have hle := hframe.le
  rw [strpbrk, optionAt, drop_take]
  refine (findIdx_takeWhile hframe.sep_mem (u := start.drop h) (q := m - h) ?_ ?_ ?_).imp ?_ ?_
  · rw [length_drop]
    lia
  · intro c hc
    rw [← drop_take] at hc
    exact hframe.inside c (mem_of_mem_drop hc)
  · intro c hc
    rw [getElem?_drop, Nat.add_sub_cancel' hh] at hc
    exact hframe.behind c hc
  · intro hnone
    rw [length_drop] at hnone
    rw [hnone.1]
    exact ⟨rfl, by lia, hnone.2.2⟩
  · intro hsome
    rw [hsome]
    rfl

omit [DecidableEq α] in
theorem takeWhile_next {p : α → Bool} {t : List α} (hlt : (t.takeWhile p).length < t.length) :
    ∃ c, t[(t.takeWhile p).length]? = some c ∧ p c = false := by
  induction t with
  | nil => cases hlt
  | cons c t ih =>
    cases hc : p c with
    | false => exact ⟨c, by simp [hc], hc⟩
    | true =>
      rw [takeWhile_cons_of_pos hc] at hlt ⊢
      exact ih (Nat.lt_of_succ_lt_succ hlt)

omit [DecidableEq α] in
theorem getElem_takeWhile {p : α → Bool} {t : List α} {k : ℕ}
    (hlt : k < (t.takeWhile p).length) : (t.takeWhile p)[k]? = t[k]? := by
  obtain ⟨rest, hrest⟩ := takeWhile_prefix p (l := t)
  conv_rhs => rw [← hrest]
  rw [getElem?_append_left hlt]

omit [DecidableEq α] in
theorem stop_iff (hframe : Framed start stopchs m sep eq) (hp : p < m) :
    (∃ c ∈ stopchs, start[p]? = some c) ↔ start[p]? = some sep := by
  constructor
  · intro hstop
    obtain ⟨c, hc, hat⟩ := hstop
    rw [← getElem?_take_of_lt hp] at hat
    rw [← getElem?_take_of_lt hp, hat, hframe.inside c (mem_of_getElem? hat) hc]
  · exact fun hat => ⟨sep, hframe.sep_mem, hat⟩

theorem ends_iff (hframe : Framed start stopchs m sep eq) (hp : p ≤ m) :
    Ends start stopchs eq p ↔ Stops sep eq (start.take m) p := by
  rw [Ends, Stops, strpbrk_self]
  cases Nat.lt_or_eq_of_le hp with
  | inl hlt =>
    rw [getElem?_take_of_lt hlt, stop_iff hframe hlt]
    tauto
  | inr heq =>
    subst heq
    refine iff_of_true ?_ (.inl (getElem?_eq_none (length_take_le _ _)))
    cases hat : start[p]? with
    | none => exact .inr (.inr rfl)
    | some c => exact .inl ⟨c, hframe.behind c hat, rfl⟩

/- An option has arguments if `eqch` follows its key. -/
theorem key_shorter_iff (hframe : Framed start stopchs m sep eq)
    (hfree : ∀ c ∈ opt, c ≠ sep ∧ c ≠ eq) (hh : h + opt.length ≤ m)
    (hmark : Marked opt (start.take m) sep eq h) :
    opt.length < (optionAt sep (start.take m) h).length ↔ start[h + opt.length]? = some eq := by
  have hkey := (key_eq_iff hfree).mpr hmark
  have hbound : ∀ {c : α}, (start.take m)[h + opt.length]? = some c →
      start[h + opt.length]? = some c := by
    intro c hc
    have hlt := (List.getElem?_eq_some_iff.mp hc).1
    rw [length_take] at hlt
    rwa [getElem?_take_of_lt (by lia)] at hc
  constructor
  · intro hlt
    rw [← hkey, key] at hlt
    obtain ⟨c, hc, hceq⟩ := takeWhile_next hlt
    rw [← key, hkey] at hc hlt
    rw [optionAt, getElem_takeWhile hlt, getElem?_drop] at hc
    rw [hbound hc, show c = eq by simpa using hceq]
  · intro hat
    by_contra hge
    have hprefix := ( takeWhile_prefix (· ≠ eq) (l := optionAt sep (start.take m) h)).length_le
    rw [← key, hkey] at hprefix
    have hlen : (optionAt sep (start.take m) h).length = opt.length := by lia
    have hin : h + opt.length < m := by
      cases Nat.lt_or_eq_of_le hh with
      | inl hlt => exact hlt
      | inr hm => exact absurd (hframe.behind eq (hm ▸ hat)) hframe.eq_not
    have hnext : ((start.take m).drop h)[opt.length]? = some eq := by
      rw [getElem?_drop, getElem?_take_of_lt hin, hat]
    have hlt := (List.getElem?_eq_some_iff.mp hnext).1
    rw [← hlen, optionAt] at hlt
    obtain ⟨c, hc, hcsep⟩ := takeWhile_next hlt
    rw [← optionAt, hlen, hnext] at hc
    cases hc
    have heq : eq = sep := by simpa using hcsep
    exact hframe.eq_not (heq ▸ hframe.sep_mem)

theorem found_eq (hframe : Framed start stopchs m sep eq) (hfree : ∀ c ∈ opt, c ≠ sep ∧ c ≠ eq)
    (hh : h + opt.length ≤ m) (hmark : Marked opt (start.take m) sep eq h) :
    found start m opt stopchs eq true h = arguments sep eq (start.take m) h := by
  have hkey := (key_eq_iff hfree).mpr hmark
  have hiff := key_shorter_iff hframe hfree hh hmark
  rw [found, arguments, hkey, if_neg Bool.noConfusion]
  by_cases hlt : opt.length < (optionAt sep (start.take m) h).length
  · rw [if_neg (not_not.mpr (hiff.mp hlt)), if_pos hlt]
    obtain ⟨hnone, hm, hlen⟩ | hsome := strpbrk_token hframe (h := h) (by lia)
    · rw [hnone, hlen, ← hm, Nat.min_eq_right (by lia)]
    · rw [hsome]
      dsimp only
      rw [Nat.add_sub_add_left]
  · rw [if_pos (fun hat => hlt (hiff.mpr hat)), if_neg hlt]

theorem parse_eq_scan (hframe : Framed start stopchs m sep eq)
    (hfree : ∀ c ∈ opt, c ≠ sep ∧ c ≠ eq) (arglen : Bool) (n o : ℕ) (ho : o ≤ m) :
    hwconfigParse start m opt stopchs eq arglen n o =
      (scan opt (start.take m) sep eq n o).map
        (·.bind fun h => if arglen then arguments sep eq (start.take m) h else some (h, 0)) := by
  induction n generalizing o with
  | zero => rfl
  | succ n ih =>
    rw [hwconfigParse, scan, drop_take]
    cases hfirst : strstr opt (start.drop o) with
    | none =>
      rw [strstr_take_none fun i hi => by rw [hfirst] at hi; cases hi]
      rfl
    | some i =>
      by_cases hin : o + i + opt.length ≤ m
      · rw [strstr_take hfirst (by lia)]
        dsimp only
        have hprev : (o + i = o ∨ strpbrk start stopchs (o + i - 1) = some (o + i - 1)) ↔
            (i = 0 ∨ (start.take m)[o + i - 1]? = some sep) := by
          rw [Nat.add_eq_left]
          refine or_congr_right' fun hi => ?_
          rw [strpbrk_self, getElem?_take_of_lt (by lia), stop_iff hframe (by lia)]
        rw [if_neg (by lia)]
        simp only [hprev, ends_iff hframe hin]
        split
        · next hcond =>
          cases arglen with
          | false => rfl
          | true =>
            rw [found_eq hframe hfree hin ⟨?_, hcond.2⟩]
            · rfl
            · have hpre := (occurs hfirst).1
              rw [drop_take]
              exact prefix_take_iff.mpr ⟨hpre, by lia⟩
        · exact ih _ hin
      · rw [strstr_take_none fun j hj => by
          rw [hfirst] at hj
          cases hj
          lia]
        exact if_pos (by lia)

end Refinement

/-! ### The lookups -/

section Lookups

variable {env : Environment} {buf : Option Str} {s opt subopt : Str} {n : ℕ} {arglen : Bool}

/-- The text of the arguments. -/
def argText (arg : Arg) : Str := (arg.1.drop arg.2.1).take arg.2.2

/-- The arguments of an option, as a pointer. -/
def optionArg (s opt : Str) : Option Arg := (argumentsOf ';' ':' s opt).map fun r => (s, r)

/-- The arguments of a sub-option in those of an option. -/
def suboptionArg (arg : Arg) (subopt : Str) : Option Arg :=
  (argumentsOf ',' '=' (argText arg) subopt).map fun r => (arg.1, arg.2.1 + r.1, r.2)

/-- All lookups of an option and a sub-option come to an end and return what the tokens say. -/
structure Agrees (env : Environment) (buf : Option Str) (s opt subopt : Str) : Prop where
  option : Settles (hwconfigF · env opt buf) (lookup ';' ':' s opt).isSome
  arg : Settles (hwconfigArgF · env opt buf) (optionArg s opt)
  sub : Settles (hwconfigSubF · env opt subopt buf)
    ((optionArg s opt).any fun a => (lookup ',' '=' (argText a) subopt).isSome)
  subarg : Settles (hwconfigSubargF · env opt subopt buf)
    ((optionArg s opt).bind (suboptionArg · subopt))

/-- No separator of options or sub-options. -/
def Plain (opt : Str) : Prop := ∀ c ∈ opt, c ∉ [';', ':', ',', '=']

theorem Plain.top (hopt : Plain opt) : ∀ c ∈ opt, c ≠ ';' ∧ c ≠ ':' := by
  intro c hc
  have := hopt c hc
  simp at this
  exact ⟨this.1, this.2.1⟩

theorem Plain.sub (hopt : Plain opt) : ∀ c ∈ opt, c ≠ ',' ∧ c ≠ '=' := by
  intro c hc
  have := hopt c hc
  simp at this
  exact this.2.2

theorem framed_top (s : Str) : Framed s [';'] s.length ';' ':' where
  le := Nat.le_refl _
  sep_mem := mem_singleton_self _
  eq_not := by decide
  inside := fun _ _ hc => mem_singleton.mp hc
  behind := fun c hc => by simp at hc

theorem framed_arg {k : ℕ} {r : ℕ × ℕ} (hargs : arguments ';' ':' s k = some r) :
    Framed (s.drop r.1) [',', ';'] r.2 ',' '=' := by
  rw [arguments] at hargs
  split at hargs
  · next hlt =>
    cases hargs
    have hsplit : s.drop k = optionAt ';' s k ++ (s.drop k).dropWhile (· ≠ ';') :=
      takeWhile_append_dropWhile.symm
    have hdrop : s.drop (k + (key ';' ':' s k).length + 1) =
        (optionAt ';' s k).drop ((key ';' ':' s k).length + 1) ++
          (s.drop k).dropWhile (· ≠ ';') := by
      rw [Nat.add_assoc, ← drop_drop, hsplit, drop_append_of_le_length hlt, ← hsplit]
    have hlen : ((optionAt ';' s k).drop ((key ';' ':' s k).length + 1)).length =
        (optionAt ';' s k).length - (key ';' ':' s k).length - 1 := length_drop
    refine ⟨?_, by decide, by decide, fun c hc hstop => ?_, fun c hc => ?_⟩
    · rw [hdrop, length_append, hlen]
      exact Nat.le_add_right _ _
    · rw [hdrop, ← hlen, take_left] at hc
      have hne := mem_takeWhile_imp (mem_of_mem_drop hc)
      simp at hne hstop
      exact hstop.resolve_right hne
    · rw [hdrop, ← hlen, getElem?_append_right (Nat.le_refl _), Nat.sub_self] at hc
      have hhead := head?_dropWhile_not (· ≠ ';') (s.drop k)
      rw [head?_eq_getElem?, hc] at hhead
      simp at hhead
      simp [hhead]
  · cases hargs

theorem parseAll_eq (hopt : Plain opt) (n : ℕ) (s : Str) (arglen : Bool) :
    parseAll n s opt arglen = (scan opt s ';' ':' n 0).map fun r =>
      (r.bind fun h => if arglen then arguments ';' ':' s h else some (h, 0)).map
        fun r => (s, r) := by
  rw [parseAll, parse_eq_scan (framed_top s) hopt.top arglen n 0 (Nat.zero_le _),
    take_length, Option.map_map]
  rfl

theorem parseAll_nil (hopt : Plain opt) (hloud : opt ≠ [] ∨ arglen = true) (n : ℕ) :
    parseAll (n + 1) [] opt arglen = some none := by
  rw [parseAll_eq hopt, scan]
  by_cases hne : opt = []
  · rw [hloud.resolve_left (not_not.mpr hne), hne]
    rfl
  · simp [strstr, hne]

theorem hwconfig_eq (hsource : env.source buf = some (some s)) (hopt : Plain opt) (n : ℕ) :
    hwconfig n env opt arglen buf = parseAll n s opt arglen := by
  rw [hwconfig, hsource]
  dsimp only
  cases hparse : parseAll n s opt arglen with
  | none => rfl
  | some ret =>
    cases ret with
    | some arg => rfl
    | none =>
      cases n with
      | zero => cases hparse
      | succ n =>
        have hloud : opt ≠ [] ∨ arglen = true := by
          by_contra hquiet
          obtain ⟨hnil, hfalse⟩ := not_or.mp hquiet
          rw [not_not.mp hnil, Bool.eq_false_iff.mpr hfalse, parseAll_eq (by simp [Plain])]
            at hparse
          by_cases hstops : Stops ';' ':' s 0
          · simp [scan, strstr_nil, hstops] at hparse
          · simp [scan_loops hstops] at hparse
        have hboard := parseAll_nil hopt hloud n
        simp [boardHwconfig, cpuHwconfig, hboard]

theorem Settles.congr {β : Type} {f g : ℕ → Option β} {r : β} {n₀ : ℕ}
    (h : ∀ n ≥ n₀, f n = g n) : Settles f r ↔ Settles g r := by
  constructor
  · intro hf
    obtain ⟨n₁, hn₁⟩ := hf
    exact ⟨max n₀ n₁, fun n hn => (h n (by lia)).symm.trans (hn₁ n (by lia))⟩
  · intro hg
    obtain ⟨n₁, hn₁⟩ := hg
    exact ⟨max n₀ n₁, fun n hn => (h n (by lia)).trans (hn₁ n (by lia))⟩

theorem Settles.map_iff {β γ : Type} {f : ℕ → Option β} {r : β} {g : β → γ}
    (hg : Function.Injective g) : Settles (fun n => (f n).map g) (g r) ↔ Settles f r := by
  simp only [Settles, ← map_some, (map_injective hg).eq_iff]

theorem map_isSome {β : Type} (x : Option (Option ℕ)) (g : ℕ × ℕ → β) :
    (x.map fun r => (r.bind fun h => some (h, 0)).map g).map (·.isSome) = x.map (·.isSome) := by
  cases x with
  | none => rfl
  | some r => cases r <;> rfl

theorem lookups_top (hsource : env.source buf = some (some s)) (hopt : Plain opt) :
    (Settles (hwconfigF · env opt buf) (lookup ';' ':' s opt).isSome ∧
      Settles (hwconfigArgF · env opt buf) (optionArg s opt)) ↔ Sound opt s ';' ':' := by
  simp only [hwconfigF, hwconfigArgF, hwconfig_eq hsource hopt, parseAll_eq hopt,
    Bool.false_eq_true, if_false, if_true, map_isSome, ← scan_right hopt.top, optionArg]
  have hinj : Function.Injective fun r : ℕ × ℕ => (s, r) := fun r r' h => (Prod.mk.inj h).2
  rw [← Settles.map_iff (f := fun n => (scan opt s ';' ':' n 0).map _) (map_injective hinj)]
  simp only [Option.map_map]
  rfl

theorem lookups_sub {arg : Arg} (hframe : Framed (arg.1.drop arg.2.1) [',', ';'] arg.2.2 ',' '=')
    (hsub : Plain subopt) :
    (Settles (fun n => (parseArg n arg subopt false).map (·.isSome))
        (lookup ',' '=' (argText arg) subopt).isSome ∧
      Settles (parseArg · arg subopt true) (suboptionArg arg subopt)) ↔
      Sound subopt (argText arg) ',' '=' := by
  have hinj : Function.Injective fun r : ℕ × ℕ => (arg.1, arg.2.1 + r.1, r.2) := by
    intro r r' h
    simpa [Prod.ext_iff] using h
  simp only [parseArg, parse_eq_scan hframe hsub.sub _ _ 0 (Nat.zero_le _), Option.map_map,
    Bool.false_eq_true, if_false, if_true, ← scan_right hsub.sub, suboptionArg]
  rw [← Settles.map_iff (map_injective hinj)]
  simp only [← map_isSome _ fun r : ℕ × ℕ => (arg.1, arg.2.1 + r.1, r.2), Option.map_map]
  rfl

/- The sub-option lookups go on with the arguments. -/
theorem sub_settles {x : Option Arg} (hx : Settles (hwconfigArgF · env opt buf) x)
    (hframe : ∀ a, x = some a → Framed (a.1.drop a.2.1) [',', ';'] a.2.2 ',' '=')
    (hsub : Plain subopt) :
    (Settles (hwconfigSubF · env opt subopt buf)
        (x.any fun a => (lookup ',' '=' (argText a) subopt).isSome) ∧
      Settles (hwconfigSubargF · env opt subopt buf) (x.bind (suboptionArg · subopt))) ↔
      ∀ a, x = some a → Sound subopt (argText a) ',' '=' := by
  obtain ⟨n₀, hn₀⟩ := hx
  cases x with
  | none =>
    refine iff_of_true ⟨⟨n₀, fun n hn => ?_⟩, n₀, fun n hn => ?_⟩ fun arg h => by cases h
    · exact congrArg (Option.bind · _) (hn₀ n hn)
    · exact congrArg (Option.bind · _) (hn₀ n hn)
  | some a =>
    rw [Settles.congr (g := fun n => (parseArg n a subopt false).map (·.isSome))
        fun n hn => congrArg (Option.bind · _) (hn₀ n hn),
      Settles.congr (g := (parseArg · a subopt true))
        fun n hn => congrArg (Option.bind · _) (hn₀ n hn)]
    refine (lookups_sub (hframe a rfl) hsub).trans ⟨fun h a' heq => ?_, fun h => h a rfl⟩
    cases heq
    exact h

/-- A lookup agrees with the tokens exactly where no doubled name is found instead of a key: not
for the option in the string and not for the sub-option in the arguments of the option. -/
theorem hwconfig_tokens (hsource : env.source buf = some (some s)) (hopt : Plain opt)
    (hsub : Plain subopt) :
    Agrees env buf s opt subopt ↔ Sound opt s ';' ':' ∧
      ∀ arg, optionArg s opt = some arg → Sound subopt (argText arg) ',' '=' := by
  have hwhole : Agrees env buf s opt subopt ↔
      (Settles (hwconfigF · env opt buf) (lookup ';' ':' s opt).isSome ∧
        Settles (hwconfigArgF · env opt buf) (optionArg s opt)) ∧
      (Settles (hwconfigSubF · env opt subopt buf)
          ((optionArg s opt).any fun a => (lookup ',' '=' (argText a) subopt).isSome) ∧
        Settles (hwconfigSubargF · env opt subopt buf)
          ((optionArg s opt).bind (suboptionArg · subopt))) :=
    ⟨fun h => ⟨⟨h.option, h.arg⟩, h.sub, h.subarg⟩, fun h => ⟨h.1.1, h.1.2, h.2.1, h.2.2⟩⟩
  rw [hwhole, lookups_top hsource hopt]
  refine and_congr_right fun hsound => sub_settles
    ((lookups_top hsource hopt).mpr hsound).2 (fun a ha => ?_) hsub
  obtain ⟨r, hr, rfl⟩ := map_eq_some_iff.mp ha
  obtain ⟨k, -, hargs⟩ := bind_eq_some_iff.mp hr
  exact framed_arg hargs

theorem hwconfig_tokens_usb : Agrees ⟨true, some "usb:mode=host;x".toList⟩ none
    "usb:mode=host;x".toList ['u', 's', 'b'] ['m'] ↔
      Sound ['u', 's', 'b'] "usb:mode=host;x".toList ';' ':' ∧
      ∀ arg, optionArg "usb:mode=host;x".toList ['u', 's', 'b'] = some arg →
        Sound ['m'] (argText arg) ',' '=' :=
  hwconfig_tokens rfl (by simp [Plain]) (by simp [Plain])

/-- A name written twice passes for the option. -/
theorem hwconfigF_doubled : ¬ Agrees ⟨true, none⟩ (some ['a', 'a']) ['a', 'a'] ['a'] ['b'] := by
  intro h
  obtain ⟨n, hn⟩ := h.option
  have hsome : hwconfigF (n + 2) ⟨true, none⟩ ['a'] (some ['a', 'a']) = some true := rfl
  have hnone : lookup ';' ':' ['a', 'a'] ['a'] = none := by decide
  have := hsome.symm.trans (hn (n + 2) (by lia))
  simp [hnone] at this

end Lookups

end UBoot.Hwconfig
