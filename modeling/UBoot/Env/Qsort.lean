import Mathlib.Data.List.Range
import Mathlib.Logic.Equiv.Basic
import Mathlib.GroupTheory.Perm.Basic
import Mathlib.Tactic

/-!
# qsort (lib/qsort.c)

A shell sort for the gaps 40, 13, 4 and 1 and their like. The array holds elements and offsets are
counted in elements.
-/

namespace UBoot.Env

open List

section Code

variable {α : Type} (le : α → α → Bool)

def swap (a : ℕ → α) (i j : ℕ) : ℕ → α := a ∘ Equiv.swap i j

/-- The innermost loop, with `j` before `j -= wgap`. -/
def sift (wgap : ℕ) : ℕ → ℕ → (ℕ → α) → Option (ℕ → α)
  | 0, _, _ => none
  | fuel + 1, j, a =>
    if le (a (j - wgap)) (a (j - wgap + wgap)) then some a
    else
      let a := swap a (j - wgap) (j - wgap + wgap)
      if wgap ≤ j - wgap then sift wgap fuel (j - wgap) a else some a

/-- The loop over `i`, which runs once before it looks at `nel`. -/
def pass (wgap nel : ℕ) (a : ℕ → α) : Option (ℕ → α) :=
  (range' wgap (max 1 (nel - wgap))).foldlM (fun a i => sift le wgap (i + 1) i a) a

def passes (nel : ℕ) : ℕ → ℕ → (ℕ → α) → Option (ℕ → α)
  | 0, _, _ => none
  | fuel + 1, wgap, a => do
    let a ← pass le wgap nel a
    if (wgap - 1) / 3 = 0 then some a else passes nel fuel ((wgap - 1) / 3) a

def firstGap (nel : ℕ) : ℕ → ℕ → Option ℕ
  | 0, _ => none
  | fuel + 1, wgap =>
    if 3 * wgap + 1 < (nel - 1) / 3 then firstGap nel fuel (3 * wgap + 1) else some (3 * wgap + 1)

/-- `qsort`; `le x y` stands for `comp(&x, &y) <= 0`. -/
def qsort (nel : ℕ) (a : ℕ → α) : Option (ℕ → α) :=
  if 1 < nel then (firstGap nel nel 0).bind fun wgap => passes le nel (wgap + 1) wgap a else some a

end Code

section Rearranged

variable {α : Type} {le : α → α → Bool} {a b c : ℕ → α} {nel wgap fuel i j : ℕ}

/-- The elements below `nel` in another order, the others as they were. -/
def Rearranged (nel : ℕ) (a b : ℕ → α) : Prop :=
  ∃ s : Equiv.Perm ℕ, (∀ i, nel ≤ i → s i = i) ∧ b = a ∘ s

theorem Rearranged.refl : Rearranged nel a a := ⟨1, fun _ _ => rfl, rfl⟩

theorem Rearranged.trans (hab : Rearranged nel a b) (hbc : Rearranged nel b c) :
    Rearranged nel a c := by
  obtain ⟨s, hs, rfl⟩ := hab
  obtain ⟨t, ht, rfl⟩ := hbc
  refine ⟨s * t, fun i hi => ?_, rfl⟩
  rw [Equiv.Perm.mul_apply, ht i hi, hs i hi]

theorem Rearranged.perm (h : Rearranged nel a b) : (range nel).map b ~ (range nel).map a := by
  obtain ⟨s, hs, rfl⟩ := h
  rw [← map_map]
  refine Perm.map a ((perm_ext_iff_of_nodup (nodup_range.map s.injective) nodup_range).mpr ?_)
  intro i
  have hlt : ∀ j, s j < nel ↔ j < nel := by
    intro j
    refine ⟨fun h => ?_, fun h => ?_⟩
    · by_contra hj
      exact hj (hs j (not_lt.mp hj) ▸ h)
    · by_contra hj
      have hfix := s.injective (hs (s j) (not_lt.mp hj))
      exact hj (hfix.symm ▸ h)
  rw [mem_map, mem_range]
  constructor
  · rintro ⟨j, hj, rfl⟩
    exact (hlt j).mpr (mem_range.mp hj)
  · intro hi
    refine ⟨s.symm i, mem_range.mpr ?_, s.apply_symm_apply i⟩
    rwa [← hlt, s.apply_symm_apply]

/-- The order that the sort works with is total and transitive between the elements. -/
structure Comparable (le : α → α → Bool) (a : ℕ → α) : Prop where
  total : ∀ i j, le (a i) (a j) ∨ le (a j) (a i)
  trans : ∀ i j k, le (a i) (a j) → le (a j) (a k) → le (a i) (a k)

theorem Comparable.comp (h : Comparable le a) (f : ℕ → ℕ) : Comparable le (a ∘ f) :=
  ⟨fun _ _ => h.total _ _, fun _ _ _ => h.trans _ _ _⟩

theorem Rearranged.comparable (h : Rearranged nel a b) (hc : Comparable le a) : Comparable le b := by
  obtain ⟨s, -, rfl⟩ := h
  exact hc.comp s

theorem swap_rearranged (hi : i < nel) (hj : j < nel) : Rearranged nel a (swap a i j) :=
  ⟨Equiv.swap i j, fun k hk => Equiv.swap_apply_of_ne_of_ne (by lia) (by lia), rfl⟩

theorem sift_rearranged (hgap : 0 < wgap) (hj : wgap ≤ j) (hnel : j < nel) (hfuel : j < fuel) :
    ∃ b, sift le wgap fuel j a = some b ∧ Rearranged nel a b := by
  induction fuel generalizing j a with
  | zero => cases hfuel
  | succ fuel ih =>
    rw [sift]
    split
    · exact ⟨a, rfl, .refl⟩
    · have hswap : Rearranged nel a (swap a (j - wgap) (j - wgap + wgap)) :=
        swap_rearranged (by lia) (by lia)
      dsimp only
      split
      · next hgo =>
        obtain ⟨b, hb, hre⟩ := @ih (swap a (j - wgap) (j - wgap + wgap)) (j - wgap) hgo
          (by lia) (by lia)
        exact ⟨b, hb, hswap.trans hre⟩
      · exact ⟨_, rfl, hswap⟩

theorem sifts_rearranged (hgap : 0 < wgap) {n start : ℕ} (hstart : wgap ≤ start)
    (hnel : start + n ≤ nel) :
    ∃ b, (range' start n).foldlM (fun a i => sift le wgap (i + 1) i a) a = some b ∧
      Rearranged nel a b := by
  induction n generalizing start a with
  | zero => exact ⟨a, rfl, .refl⟩
  | succ n ih =>
    obtain ⟨b, hb, hab⟩ := @sift_rearranged _ le a nel wgap (start + 1) start hgap hstart
      (by lia) (by lia)
    obtain ⟨c, hc, hbc⟩ := @ih b (start + 1) (by lia) (by lia)
    refine ⟨c, ?_, hab.trans hbc⟩
    rw [range'_succ, foldlM_cons, hb]
    exact hc

theorem pass_rearranged (hgap : 0 < wgap) (hlt : wgap < nel) :
    ∃ b, pass le wgap nel a = some b ∧ Rearranged nel a b := by
  rw [pass, max_eq_right (by lia)]
  exact sifts_rearranged hgap le_rfl (by lia)

/-- The gaps 1, 4, 13, 40 and so on. -/
inductive Gap : ℕ → Prop
  | one : Gap 1
  | next {wgap : ℕ} : Gap wgap → Gap (3 * wgap + 1)

theorem Gap.pos (h : Gap wgap) : 0 < wgap := by
  cases h <;> lia

theorem firstGap_gap (h : wgap = 0 ∨ Gap wgap) (hlt : 3 * wgap + 1 < nel) (hfuel : nel ≤ fuel + wgap) :
    ∃ g, firstGap nel fuel wgap = some g ∧ Gap g ∧ g < nel := by
  induction fuel generalizing wgap with
  | zero => lia
  | succ fuel ih =>
    have hgap : Gap (3 * wgap + 1) := by
      cases h with
      | inl h => rw [h]; exact .one
      | inr h => exact .next h
    rw [firstGap]
    split
    · exact ih (.inr hgap) (by lia) (by lia)
    · exact ⟨_, rfl, hgap, hlt⟩

/-- The passes end, and the last one has gap 1. -/
theorem passes_last (hgap : Gap wgap) (hlt : wgap < nel) (hfuel : wgap < fuel) :
    ∃ b c, Rearranged nel a b ∧ pass le 1 nel b = some c ∧ passes le nel fuel wgap a = some c := by
  induction hgap generalizing fuel a with
  | one =>
    obtain ⟨fuel, rfl⟩ := Nat.exists_eq_add_of_lt hfuel
    obtain ⟨c, hc, -⟩ := @pass_rearranged _ le a nel 1 Nat.one_pos hlt
    refine ⟨a, c, .refl, hc, ?_⟩
    rw [passes, hc]
    rfl
  | next hgap ih =>
    rename_i g
    obtain _ | fuel := fuel
    · lia
    obtain ⟨b, hb, hab⟩ := @pass_rearranged _ le a nel (3 * g + 1) (Nat.succ_pos _) hlt
    obtain ⟨b', c, hbb', hc, hrest⟩ := @ih b fuel (by lia) (by lia)
    have hpos := hgap.pos
    refine ⟨b', c, hab.trans hbb', hc, ?_⟩
    rw [passes, hb]
    change (if (3 * g + 1 - 1) / 3 = 0 then some b else passes le nel fuel ((3 * g + 1 - 1) / 3) b) = _
    rw [Nat.add_sub_cancel, Nat.mul_div_cancel_left g (by decide), if_neg (by lia), hrest]

theorem qsort_last (hnel : 1 < nel) :
    ∃ b c, Rearranged nel a b ∧ pass le 1 nel b = some c ∧ qsort le nel a = some c := by
  obtain ⟨g, hg, hgap, hlt⟩ := @firstGap_gap nel 0 nel (.inl rfl) hnel (by lia)
  rw [qsort, if_pos hnel, hg]
  exact passes_last hgap hlt (Nat.lt_succ_self g)

/-- Whatever the comparison says, the sort ends and loses no element. -/
theorem qsort_rearranged (le : α → α → Bool) (nel : ℕ) (a : ℕ → α) :
    ∃ b, qsort le nel a = some b ∧ Rearranged nel a b := by
  by_cases hnel : 1 < nel
  · obtain ⟨b, c, hab, hc, hq⟩ := qsort_last hnel
    obtain ⟨c', hc', hbc⟩ := @pass_rearranged _ le b nel 1 Nat.one_pos hnel
    obtain rfl := Option.some.inj (hc.symm.trans hc')
    exact ⟨c, hq, hab.trans hbc⟩
  · rw [qsort, if_neg hnel]
    exact ⟨a, rfl, .refl⟩

end Rearranged

section Sorted

variable {α : Type} {le : α → α → Bool} {a b : ℕ → α} {nel wgap fuel i j k : ℕ}

/-- The elements up to `i` are in order, but for the one at `k` and those below it. -/
def Unsettled (le : α → α → Bool) (a : ℕ → α) (i k : ℕ) : Prop :=
  ∀ p q, p < q → q ≤ i → q ≠ k → le (a p) (a q)

def SortedTo (le : α → α → Bool) (a : ℕ → α) (n : ℕ) : Prop := ∀ p q, p < q → q < n → le (a p) (a q)

theorem Unsettled.sorted (ho : Comparable le a) (h : Unsettled le a i (j + 1)) (hle : le (a j) (a (j + 1))) :
    SortedTo le a (i + 1) := by
  intro p q hpq hq
  by_cases hk : q = j + 1
  · subst hk
    by_cases hp : p = j
    · rwa [hp]
    · exact ho.trans _ _ _ (h p j (by lia) (by lia) (by lia)) hle
  · exact h p q hpq (by lia) hk

theorem Unsettled.moved (ho : Comparable le a) (h : Unsettled le a i (j + 1)) (hle : ¬ le (a j) (a (j + 1))) :
    Unsettled le (swap a j (j + 1)) i j := by
  intro p q hpq hq hk
  have hbelow : ∀ x, x ≠ j → x ≠ j + 1 → swap a j (j + 1) x = a x := fun x h₁ h₂ => by
    rw [swap, Function.comp_apply, Equiv.swap_apply_of_ne_of_ne h₁ h₂]
  have hj : swap a j (j + 1) j = a (j + 1) := by simp [swap]
  have hj' : swap a j (j + 1) (j + 1) = a j := by simp [swap]
  by_cases hq1 : q = j + 1
  · subst hq1
    rw [hj']
    by_cases hp : p = j
    · rw [hp, hj]
      exact (ho.total _ _).resolve_left hle
    · rw [hbelow p hp (by lia)]
      exact h p j (by lia) (by lia) (by lia)
  · rw [hbelow q hk hq1]
    by_cases hp : p = j
    · rw [hp, hj]
      exact h (j + 1) q (by lia) hq hq1
    · by_cases hp1 : p = j + 1
      · rw [hp1, hj']
        exact h j q (by lia) hq hq1
      · rw [hbelow p hp hp1]
        exact h p q hpq hq hq1

theorem sift_sorted (ho : Comparable le a) (h : Unsettled le a i (j + 1)) (hfuel : j + 1 < fuel)
    (hb : sift le 1 fuel (j + 1) a = some b) : SortedTo le b (i + 1) := by
  induction fuel generalizing j a with
  | zero => cases hfuel
  | succ fuel ih =>
    rw [sift, Nat.add_sub_cancel] at hb
    split at hb
    · next hle =>
      cases hb
      exact h.sorted ho hle
    · next hle =>
      have hswap := h.moved ho hle
      dsimp only at hb
      split at hb
      · next hgo =>
        obtain ⟨j, rfl⟩ := Nat.exists_eq_add_of_le' hgo
        exact ih (ho.comp _) hswap (by lia) hb
      · next hstop =>
        cases hb
        obtain rfl : j = 0 := by lia
        exact fun p q hpq hq => hswap p q hpq (by lia) (by lia)

theorem sifts_sorted {n start : ℕ} (ho : Comparable le a) (h : SortedTo le a (start + 1))
    (hb : (range' (start + 1) n).foldlM (fun a i => sift le 1 (i + 1) i a) a = some b) :
    SortedTo le b (start + 1 + n) := by
  induction n generalizing start a with
  | zero =>
    cases hb
    exact h
  | succ n ih =>
    rw [range'_succ, foldlM_cons] at hb
    obtain ⟨c, hc, hb⟩ := Option.bind_eq_some_iff.mp hb
    have hun : Unsettled le a (start + 1) (start + 1) := fun p q hpq hq hk => h p q hpq (by lia)
    obtain ⟨c', hc', hre⟩ := @sift_rearranged _ le a (start + 2) 1 (start + 1 + 1) (start + 1)
      Nat.one_pos (by lia) (by lia) (by lia)
    obtain rfl := Option.some.inj (hc.symm.trans hc')
    have hsorted := ih (hre.comparable ho) (sift_sorted ho hun (Nat.lt_succ_self _) hc) hb
    rwa [Nat.add_right_comm, Nat.add_assoc] at hsorted

/-- The shell sort comes to an end with the elements in order and none lost or doubled. -/
theorem qsort_sorts (nel : ℕ) (ho : Comparable le a) :
    ∃ b, qsort le nel a = some b ∧ SortedTo le b nel ∧ Rearranged nel a b := by
  obtain ⟨b, hb, hre⟩ := qsort_rearranged le nel a
  refine ⟨b, hb, ?_, hre⟩
  by_cases hnel : 1 < nel
  · obtain ⟨a', c, haa', hc, hq⟩ := @qsort_last _ le a nel hnel
    obtain rfl := Option.some.inj (hb.symm.trans hq)
    rw [pass, max_eq_right (by lia)] at hc
    have hsorted := @sifts_sorted _ le a' b _ 0 (haa'.comparable ho) (fun p q hpq hq => by lia) hc
    rwa [show 0 + 1 + (nel - 1) = nel by lia] at hsorted
  · exact fun p q hpq hq => by lia

end Sorted

end UBoot.Env
