import Mathlib.Tactic

/-!
# Runs of pieces

A range is cut into pieces that follow each other, and some are kept. The runs are the intervals
that the kept pieces fill.
-/

namespace UBoot.Runs

open List

/- `[a, b)` with what is already there. -/
def addRun (rs : List (ℕ × ℕ)) (a b : ℕ) : List (ℕ × ℕ) :=
  match rs.getLast? with
  | some (s, e) => if e = a then rs.dropLast ++ [(s, b)] else rs ++ [(a, b)]
  | none => [(a, b)]

/- The pieces `(start, end, kept)`, in order. -/
def addRuns (rs : List (ℕ × ℕ)) (xs : List (ℕ × ℕ × Bool)) : List (ℕ × ℕ) :=
  xs.foldl (fun rs x => if x.2.2 then addRun rs x.1 x.2.1 else rs) rs

/- Pieces without gaps, from `k` on. -/
def Chained : ℕ → List (ℕ × ℕ × Bool) → Prop
  | _, [] => True
  | k, (a, b, _) :: xs => a = k ∧ a < b ∧ Chained b xs

/- Non-empty intervals up to `k`, in order and apart from each other. -/
structure Ordered (rs : List (ℕ × ℕ)) (k : ℕ) : Prop where
  nonempty : ∀ r ∈ rs, r.1 < r.2
  below : ∀ r ∈ rs, r.2 ≤ k
  apart : rs.Pairwise fun r t => r.2 < t.1

def Within (rs : List (ℕ × ℕ)) (a b : ℕ) : Prop := ∃ r ∈ rs, r.1 ≤ a ∧ b ≤ r.2

def Clear (rs : List (ℕ × ℕ)) (a b : ℕ) : Prop := ∀ r ∈ rs, b ≤ r.1 ∨ r.2 ≤ a

section

variable {rs : List (ℕ × ℕ)} {s e a b k : ℕ} {xs : List (ℕ × ℕ × Bool)}

theorem addRun_nil : addRun [] a b = [(a, b)] := rfl

theorem addRun_concat :
    addRun (rs ++ [(s, e)]) a b = if e = a then rs ++ [(s, b)] else rs ++ [(s, e)] ++ [(a, b)] := by
  simp only [addRun, getLast?_concat, dropLast_concat]

theorem addRun_cases (rs : List (ℕ × ℕ)) (a b : ℕ) :
    (∃ ts s, rs = ts ++ [(s, a)] ∧ addRun rs a b = ts ++ [(s, b)]) ∨ addRun rs a b = rs ++ [(a, b)] := by
  cases eq_nil_or_concat rs with
  | inl hnil =>
    rw [hnil]
    exact .inr rfl
  | inr hconcat =>
    obtain ⟨ts, ⟨s, e⟩, rfl⟩ := hconcat
    rw [concat_eq_append, addRun_concat]
    split
    · next heq => exact .inl ⟨ts, s, by rw [heq], rfl⟩
    · exact .inr rfl

theorem addRun_addRun : addRun (addRun rs s a) a b = addRun rs s b := by
  cases eq_nil_or_concat rs with
  | inl hnil =>
    rw [hnil, addRun_nil, addRun_nil]
    simp [addRun]
  | inr hconcat =>
    obtain ⟨ts, ⟨t, e⟩, rfl⟩ := hconcat
    rw [concat_eq_append, addRun_concat, addRun_concat]
    split
    · rw [addRun_concat, if_pos rfl]
    · rw [addRun_concat, if_pos rfl]

theorem Ordered.addRun (h : Ordered rs k) (hk : k ≤ a) (hab : a < b) :
    Ordered (Runs.addRun rs a b) b := by
  cases addRun_cases rs a b with
  | inl hgrow =>
    obtain ⟨ts, s, rfl, hadd⟩ := hgrow
    rw [hadd]
    have hs := h.nonempty (s, a) (by simp)
    obtain ⟨hts, -, hlast⟩ := pairwise_append.mp h.apart
    refine ⟨?_, ?_, pairwise_append.mpr ⟨hts, pairwise_singleton _ _, ?_⟩⟩
    · intro r hr
      cases mem_append.mp hr with
      | inl hr => exact h.nonempty r (mem_append_left _ hr)
      | inr hr =>
        rw [mem_singleton.mp hr]
        simp only at hs ⊢
        lia
    · intro r hr
      cases mem_append.mp hr with
      | inl hr =>
        have := h.below r (mem_append_left _ hr)
        lia
      | inr hr => rw [mem_singleton.mp hr]
    · intro r hr t ht
      rw [mem_singleton.mp ht]
      exact hlast r hr (s, a) mem_cons_self
  | inr hnew =>
    -- the last run does not end at `a`, or it would have grown
    have hlt : ∀ r ∈ rs, r.2 < a := by
      intro r hr
      obtain ⟨ts, us, rfl⟩ := append_of_mem hr
      cases eq_nil_or_concat us with
      | inl hnil =>
        subst hnil
        rw [addRun_concat] at hnew
        split at hnew
        · have hlen := congrArg List.length hnew
          simp at hlen
        · next hne =>
          have := h.below (r.1, r.2) (by simp)
          simp only at this
          lia
      | inr hconcat =>
        obtain ⟨vs, t, rfl⟩ := hconcat
        rw [concat_eq_append] at h
        have h₁ := h.below t (by simp)
        have h₂ := h.nonempty t (by simp)
        have h₃ := (pairwise_cons.mp (pairwise_append.mp h.apart).2.1).1 t (by simp)
        lia
    rw [hnew]
    refine ⟨?_, ?_, pairwise_append.mpr ⟨h.apart, pairwise_singleton _ _, ?_⟩⟩
    · intro r hr
      cases mem_append.mp hr with
      | inl hr => exact h.nonempty r hr
      | inr hr =>
        rw [mem_singleton.mp hr]
        exact hab
    · intro r hr
      cases mem_append.mp hr with
      | inl hr =>
        have := h.below r hr
        lia
      | inr hr => rw [mem_singleton.mp hr]
    · intro r hr t ht
      rw [mem_singleton.mp ht]
      exact hlt r hr

theorem Ordered.mono (h : Ordered rs k) (hk : k ≤ b) : Ordered rs b :=
  ⟨h.nonempty, fun r hr => (h.below r hr).trans hk, h.apart⟩

theorem flatMap_addRun {β : Type*} {cut : ℕ → ℕ → List β}
    (hcut : ∀ s e b, s ≤ e → e ≤ b → cut s e ++ cut e b = cut s b) (h : Ordered rs k) (hab : a ≤ b) :
    (addRun rs a b).flatMap (fun r => cut r.1 r.2) = rs.flatMap (fun r => cut r.1 r.2) ++ cut a b := by
  cases addRun_cases rs a b with
  | inl hgrow =>
    obtain ⟨ts, s, rfl, hadd⟩ := hgrow
    have hs := h.nonempty (s, a) (by simp)
    rw [hadd, flatMap_append, flatMap_append, append_assoc]
    simp only [flatMap_cons, flatMap_nil, append_nil]
    rw [hcut s a b (le_of_lt hs) hab]
  | inr hnew =>
    rw [hnew, flatMap_append]
    simp

theorem Within.addRun (h : Within rs s e) (hk : ∀ r ∈ rs, r.2 ≤ a) (hab : a ≤ b) :
    Within (Runs.addRun rs a b) s e := by
  obtain ⟨r, hr, hs, he⟩ := h
  cases addRun_cases rs a b with
  | inl hgrow =>
    obtain ⟨ts, t, rfl, hadd⟩ := hgrow
    rw [hadd]
    cases mem_append.mp hr with
    | inl hr => exact ⟨r, mem_append_left _ hr, hs, he⟩
    | inr hr =>
      rw [mem_singleton.mp hr] at hs he
      exact ⟨(t, b), by simp, hs, he.trans hab⟩
  | inr hnew =>
    rw [hnew]
    exact ⟨r, mem_append_left _ hr, hs, he⟩

theorem within_addRun (h : Ordered rs k) : Within (addRun rs a b) a b := by
  cases addRun_cases rs a b with
  | inl hgrow =>
    obtain ⟨ts, s, rfl, hadd⟩ := hgrow
    rw [hadd]
    have hs := h.nonempty (s, a) (by simp)
    exact ⟨(s, b), by simp, le_of_lt hs, le_refl b⟩
  | inr hnew =>
    rw [hnew]
    exact ⟨(a, b), by simp, le_refl a, le_refl b⟩

theorem Clear.addRun (h : Clear rs s e) (hea : e ≤ a) (hse : s < e) (hord : Ordered rs k) :
    Clear (Runs.addRun rs a b) s e := by
  cases addRun_cases rs a b with
  | inl hgrow =>
    obtain ⟨ts, t, rfl, hadd⟩ := hgrow
    rw [hadd]
    intro r hr
    cases mem_append.mp hr with
    | inl hr => exact h r (mem_append_left _ hr)
    | inr hr =>
      rw [mem_singleton.mp hr]
      -- the run ends at `a`, behind the dropped piece
      have ht := h (t, a) (by simp)
      simp only at ht ⊢
      lia
  | inr hnew =>
    rw [hnew]
    intro r hr
    cases mem_append.mp hr with
    | inl hr => exact h r hr
    | inr hr =>
      rw [mem_singleton.mp hr]
      exact .inl hea

theorem addRuns_nil : addRuns rs [] = rs := rfl

theorem addRuns_cons {x : ℕ × ℕ × Bool} :
    addRuns rs (x :: xs) = addRuns (if x.2.2 then addRun rs x.1 x.2.1 else rs) xs := rfl

def lastEnd : ℕ → List (ℕ × ℕ × Bool) → ℕ
  | k, [] => k
  | _, (_, b, _) :: xs => lastEnd b xs

theorem Chained.le_lastEnd (h : Chained k xs) : k ≤ lastEnd k xs ∧ ∀ x ∈ xs, x.2.1 ≤ lastEnd k xs := by
  induction xs generalizing k with
  | nil => exact ⟨le_refl k, fun x hx => absurd hx not_mem_nil⟩
  | cons x xs ih =>
    obtain ⟨a, b, keep⟩ := x
    obtain ⟨rfl, hab, hxs⟩ := h
    obtain ⟨hb, hall⟩ := ih hxs
    exact ⟨(le_of_lt hab).trans hb, forall_mem_cons.mpr ⟨hb, hall⟩⟩

theorem Ordered.addRuns (h : Ordered rs k) (hx : Chained k xs) :
    Ordered (Runs.addRuns rs xs) (lastEnd k xs) := by
  induction xs generalizing rs k with
  | nil => exact h
  | cons x xs ih =>
    obtain ⟨a, b, keep⟩ := x
    obtain ⟨rfl, hab, hxs⟩ := hx
    rw [addRuns_cons]
    cases keep with
    | true => exact ih (h.addRun (le_refl a) hab) hxs
    | false => exact ih (h.mono (le_of_lt hab)) hxs

theorem flatMap_addRuns {β : Type*} {cut : ℕ → ℕ → List β}
    (hcut : ∀ s e b, s ≤ e → e ≤ b → cut s e ++ cut e b = cut s b) (h : Ordered rs k)
    (hx : Chained k xs) :
    (addRuns rs xs).flatMap (fun r => cut r.1 r.2) = rs.flatMap (fun r => cut r.1 r.2) ++
      (xs.filter fun x => x.2.2).flatMap (fun x => cut x.1 x.2.1) := by
  induction xs generalizing rs k with
  | nil => simp [addRuns_nil]
  | cons x xs ih =>
    obtain ⟨a, b, keep⟩ := x
    obtain ⟨rfl, hab, hxs⟩ := hx
    rw [addRuns_cons]
    cases keep with
    | true =>
      simp only [if_true]
      rw [ih (h.addRun (le_refl a) hab) hxs, flatMap_addRun hcut h (le_of_lt hab)]
      simp
    | false =>
      simp only [Bool.false_eq_true, if_false]
      rw [ih (h.mono (le_of_lt hab)) hxs]
      simp

theorem Within.addRuns (h : Within rs s e) (hord : Ordered rs k) (hx : Chained k xs) :
    Within (Runs.addRuns rs xs) s e := by
  induction xs generalizing rs k with
  | nil => exact h
  | cons x xs ih =>
    obtain ⟨a, b, keep⟩ := x
    obtain ⟨rfl, hab, hxs⟩ := hx
    rw [addRuns_cons]
    cases keep with
    | true => exact ih (h.addRun hord.below (le_of_lt hab)) (hord.addRun (le_refl a) hab) hxs
    | false => exact ih h (hord.mono (le_of_lt hab)) hxs

theorem Clear.addRuns (h : Clear rs s e) (hse : s < e) (hek : e ≤ k) (hord : Ordered rs k)
    (hx : Chained k xs) : Clear (Runs.addRuns rs xs) s e := by
  induction xs generalizing rs k with
  | nil => exact h
  | cons x xs ih =>
    obtain ⟨a, b, keep⟩ := x
    obtain ⟨rfl, hab, hxs⟩ := hx
    rw [addRuns_cons]
    cases keep with
    | true =>
      exact ih (h.addRun hek hse hord) (hek.trans (le_of_lt hab)) (hord.addRun (le_refl a) hab) hxs
    | false => exact ih h (hek.trans (le_of_lt hab)) (hord.mono (le_of_lt hab)) hxs

theorem addRuns_mem (hord : Ordered rs k) (hx : Chained k xs) {x : ℕ × ℕ × Bool} (hmem : x ∈ xs) :
    if x.2.2 then Within (addRuns rs xs) x.1 x.2.1 else Clear (addRuns rs xs) x.1 x.2.1 := by
  induction xs generalizing rs k with
  | nil => cases hmem
  | cons y xs ih =>
    obtain ⟨a, b, keep⟩ := y
    obtain ⟨rfl, hab, hxs⟩ := hx
    rw [addRuns_cons]
    cases mem_cons.mp hmem with
    | inl heq =>
      subst heq
      cases keep with
      | true =>
        simp only [if_true]
        exact (within_addRun hord).addRuns (hord.addRun (le_refl a) hab) hxs
      | false =>
        simp only [Bool.false_eq_true, if_false]
        have hclear : Clear rs a b := fun r hr => .inr (hord.below r hr)
        exact hclear.addRuns hab (le_refl b) (hord.mono (le_of_lt hab)) hxs
    | inr hrest =>
      cases keep with
      | true => exact ih (hord.addRun (le_refl a) hab) hxs hrest
      | false => exact ih (hord.mono (le_of_lt hab)) hxs hrest

end

end UBoot.Runs
