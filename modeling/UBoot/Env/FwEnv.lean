import UBoot.Env.ImageText

/-!
# Edits of one variable (tools/env/fw_env.c)

`fw_env_write` on a well-formed image: with return value 0 it has changed the entry of one name and
no other.
-/

namespace UBoot.Env

open List

/- The return value of `fw_env_write`. -/
def Wrote.ret : Wrote → ℤ
  | .nothing => 0
  | .deleted => 0
  | .done => 0
  | _ => -1

/- What `fw_getenv` reads after a write: an empty value and NULL both delete. -/
def wanted : Option Str → Option Str
  | none => none
  | some [] => none
  | some (c :: s) => some (c :: s)

def others {α : Type} (name : Str) (list : List (Str × α)) : List (Str × α) :=
  list.filter fun e => name != e.1

/-- An image whose only difference to a list is the entry of the name. -/
structure Edited (size : ℕ) (list : List (Str × Str)) (name : Str) (value : Option Str)
    (data : ℕ → UInt8) : Prop where
  image : ∃ list', Image size data list' ∧ others name list' = others name list
  read : fwGetenv data size name = wanted value
  frame : ∀ other, equals ∉ other → other ≠ name → fwGetenv data size other = list.lookup other

section Lookup

variable {α : Type} {name other : Str} {list : List (Str × α)}

theorem others_others : others name (others name list) = others name list := by
  unfold others
  rw [filter_filter]
  simp only [Bool.and_self]

theorem lookup_others_self : (others name list).lookup name = none := by
  refine lookup_eq_none_iff.mpr fun e he => ?_
  have hne := (mem_filter.mp he).2
  simp only [bne_iff_ne, ne_eq] at hne
  simpa using hne

theorem lookup_others (h : other ≠ name) : (others name list).lookup other = list.lookup other := by
  unfold others
  induction list with
  | nil => rfl
  | cons e list ih =>
    by_cases hkey : name = e.1
    · have hother : (other == e.1) = false := by simpa [← hkey] using h
      rw [filter_cons_of_neg (by simpa using hkey), lookup_cons, hother, ih]
    · rw [filter_cons_of_pos (by simpa using hkey), lookup_cons, lookup_cons, ih]

theorem lookup_effect_self {out : Wrote} {x : α} (hdone : out = .done) :
    (out.effect list name x).lookup name = some x := by
  subst hdone
  rw [Wrote.effect, lookup_append, ← others, lookup_others_self]
  simp

theorem others_effect (out : Wrote) (x : α) :
    others name (out.effect list name x) = others name list := by
  have happend : others name (others name list ++ [(name, x)]) = others name list := by
    rw [others, filter_append, ← others, others_others, filter_cons_of_neg (by simp)]
    simp
  cases out with
  | done => exact happend
  | deleted => exact others_others
  | overflow => exact others_others
  | _ => rfl

end Lookup

section Write

variable {fw : FwEnv} {data : ℕ → UInt8} {list : List (Str × Str)} {name : Str} {value : Option Str}

theorem wanted_of_empty (h : value.getD [] = []) : wanted value = none := by
  match value with
  | none => rfl
  | some [] => rfl
  | some (c :: s) => cases h

theorem wanted_of_text (h : value.getD [] ≠ []) : wanted value = some (value.getD []) := by
  match value with
  | none => exact absurd rfl h
  | some [] => exact absurd rfl h
  | some (c :: s) => rfl

theorem appendEntry_cases (size : ℕ) (data : ℕ → UInt8) (name text : Str) :
    (appendEntry size data name text).1 = .done ∨ (appendEntry size data name text).1 = .overflow := by
  unfold appendEntry
  dsimp only
  rw [apply_ite Prod.fst]
  exact (ite_eq_or_eq _ _ _).symm

theorem fwEnvWrite_cases (fw : FwEnv) (data : ℕ → UInt8) (name : Str) (value : Option Str) :
    ((fwEnvWrite fw data name value).1 = .notTerminated) ∨
    (fwEnvWrite fw data name value = (.readOnly, data)) ∨
    ((fwEnvWrite fw data name value).1 = .nothing ∧ value.getD [] = [] ∧
      scan data fw.size name (fw.size + 1) 0 = some none) ∨
    ((fwEnvWrite fw data name value).1 = .deleted ∧ value.getD [] = []) ∨
    (((fwEnvWrite fw data name value).1 = .done ∨ (fwEnvWrite fw data name value).1 = .overflow) ∧
      value.getD [] ≠ []) := by
  unfold fwEnvWrite
  dsimp only
  cases hscan : scan data fw.size name (fw.size + 1) 0 with
  | none => exact .inl rfl
  | some found =>
    cases found with
    | none =>
      dsimp only
      split_ifs with hempty
      · exact .inr (.inr (.inl ⟨rfl, hempty, rfl⟩))
      · exact .inr (.inl rfl)
      · exact .inr (.inr (.inr (.inr ⟨appendEntry_cases _ _ _ _, hempty⟩)))
    | some found =>
      dsimp only
      split_ifs with hempty
      · exact .inr (.inl rfl)
      · exact .inr (.inr (.inr (.inl ⟨rfl, hempty⟩)))
      · exact .inr (.inl rfl)
      · exact .inr (.inl rfl)
      · exact .inr (.inr (.inr (.inr ⟨appendEntry_cases _ _ _ _, hempty⟩)))

theorem fwEnvWrite_readOnly (h : (fwEnvWrite fw data name value).1 = .readOnly) :
    (fwEnvWrite fw data name value).2 = data := by
  rcases fwEnvWrite_cases fw data name value with hc | hc | ⟨hc, -⟩ | ⟨hc, -⟩ | ⟨hc | hc, -⟩
  · cases hc.symm.trans h
  · rw [hc]
  · cases hc.symm.trans h
  · cases hc.symm.trans h
  · cases hc.symm.trans h
  · cases hc.symm.trans h

variable (hi : Image fw.size data list) (hequals : equals ∉ name) (hname : nul ∉ name)
  (hvalue : nul ∉ value.getD [])

include hi hequals in
theorem lookup_of_scan (h : scan data fw.size name (fw.size + 1) 0 = some none) :
    list.lookup name = none := by
  cases hl : list.lookup name with
  | none => rfl
  | some v =>
    obtain ⟨l₁, l₂, hsplit, hmiss, -⟩ := hi.split hl
    cases h.symm.trans (hi.scan_some le_rfl hequals hsplit hmiss)

include hi hequals in
theorem lookup_effect (hret : (fwEnvWrite fw data name value).1.ret = 0) :
    ((fwEnvWrite fw data name value).1.effect list name (value.getD [])).lookup name = wanted value := by
  rcases fwEnvWrite_cases fw data name value with
    hc | hc | ⟨hc, hempty, hscan⟩ | ⟨hc, hempty⟩ | ⟨hc | hc, htext⟩
  · rw [hc] at hret
    cases hret
  · rw [hc] at hret
    cases hret
  · rw [hc, wanted_of_empty hempty]
    exact lookup_of_scan hi hequals hscan
  · rw [hc, wanted_of_empty hempty]
    exact lookup_others_self
  · rw [wanted_of_text htext]
    exact lookup_effect_self hc
  · rw [hc] at hret
    cases hret

include hi hequals hname hvalue in
theorem edited_of_zero (hret : (fwEnvWrite fw data name value).1.ret = 0) :
    Edited fw.size list name value (fwEnvWrite fw data name value).2 := by
  have himage := hi.write fw rfl ⟨hequals, hname, hvalue⟩ Prod.mk.eta.symm
  have hothers : others name (_ : List (Str × Str)) = others name list :=
    others_effect (fwEnvWrite fw data name value).1 (value.getD [])
  refine ⟨⟨_, himage, hothers⟩, ?_, fun other hother hne => ?_⟩
  · rw [himage.fwGetenv hequals]
    exact lookup_effect hi hequals hret
  · rw [himage.fwGetenv hother, ← lookup_others hne, hothers, lookup_others hne]

end Write

/-- `fw_env_write` edits the entry of its name and no other, and stores nothing when a permission is
refused. -/
theorem fw_env_write_edits (fw : FwEnv) (data : ℕ → UInt8) (list : List (Str × Str)) (name : Str)
    (value : Option Str) (hi : Image fw.size data list) (hequals : equals ∉ name) (hname : nul ∉ name)
    (hvalue : nul ∉ value.getD []) :
    ((fwEnvWrite fw data name value).1.ret = 0 →
      Edited fw.size list name value (fwEnvWrite fw data name value).2) ∧
    ((fwEnvWrite fw data name value).1 = .readOnly → (fwEnvWrite fw data name value).2 = data) :=
  ⟨edited_of_zero hi hequals hname hvalue, fwEnvWrite_readOnly⟩

/- The first entry gets a longer value, which fills the image of 11 bytes. -/
theorem fw_env_write_edits_full : ∃ data, Image 11 data [([97], [98]), ([99], [100, 101])] ∧
    Edited 11 [([97], [98]), ([99], [100, 101])] [97] (some [102, 103])
      (fwEnvWrite ⟨11, fun _ _ _ => false, fun _ => none⟩ data [97] (some [102, 103])).2 := by
  have hclean : ∀ e ∈ [([97], [98]), ([99], [100, 101])], Clean e := by
    intro e he
    rcases mem_pair.mp he with rfl | rfl
    · exact ⟨by decide, by decide, by decide⟩
    · exact ⟨by decide, by decide, by decide⟩
  have hi : Image 11 (fun i => [97, 61, 98, 0, 99, 61, 100, 101, 0, 0].getD i 1)
      [([97], [98]), ([99], [100, 101])] :=
    ⟨⟨rfl, rfl, rfl, rfl, rfl, rfl, rfl, rfl, rfl, rfl, trivial⟩, by decide, hclean, by simp⟩
  exact ⟨_, hi, (fw_env_write_edits ⟨11, fun _ _ _ => false, fun _ => none⟩ _ _ [97]
    (some [102, 103]) hi (by decide) (by decide) (by decide)).1 (by decide)⟩

end UBoot.Env
