import Mathlib.Tactic

/-!
# Walks along successors

`next a` lists where one can go from `a`. A recursion that visits all successors ends within some
depth if and only if no element it reaches lies on a cycle, where only finitely many are reachable.
-/

namespace UBoot.Walks

open Relation List

variable {α : Type*} (next : α → List α)

def Edge (a b : α) : Prop := b ∈ next a

/- Every walk from an element ends before the `n`-th step. -/
def Short : ℕ → α → Prop
  | 0, _ => False
  | n + 1, a => ∀ b ∈ next a, Short n b

/- Nothing that can be reached from `a` can be reached again from itself. -/
def NoCycle (a : α) : Prop := ∀ x, ReflTransGen (Edge next) a x → ¬ TransGen (Edge next) x x

variable {next} {n m : ℕ} {a b : α}

theorem Short.mono (h : Short next n a) (hle : n ≤ m) : Short next m a := by
  induction n generalizing m a with
  | zero => exact absurd h id
  | succ n ih =>
    cases m with
    | zero => lia
    | succ m =>
      intro b hb
      exact ih (h b hb) (by lia)

theorem Short.edge (h : Short next n a) (he : Edge next a b) : ∃ m < n, Short next m b := by
  cases n with
  | zero => exact absurd h id
  | succ n => exact ⟨n, Nat.lt_succ_self n, h b he⟩

theorem Short.reaches (h : Short next n a) (he : ReflTransGen (Edge next) a b) :
    ∃ m ≤ n, Short next m b := by
  induction he with
  | refl => exact ⟨n, le_refl n, h⟩
  | tail _ hlast ih =>
    obtain ⟨m, hm, hs⟩ := ih
    obtain ⟨k, hk, hs'⟩ := hs.edge hlast
    exact ⟨k, by lia, hs'⟩

theorem Short.not_trans (h : Short next n a) : ¬ TransGen (Edge next) a a := by
  induction n using Nat.strong_induction_on with
  | _ n ih =>
    intro hcycle
    obtain ⟨b, hab, hba⟩ := TransGen.head'_iff.mp hcycle
    obtain ⟨m, hm, hs⟩ := h.edge hab
    obtain ⟨k, hk, hs'⟩ := hs.reaches hba
    exact ih k (by lia) hs' hcycle

theorem exists_short_list (l : List α) (h : ∀ b ∈ l, ∃ n, Short next n b) :
    ∃ n, ∀ b ∈ l, Short next n b := by
  induction l with
  | nil => exact ⟨0, fun b hb => absurd hb not_mem_nil⟩
  | cons c l ih =>
    obtain ⟨n, hn⟩ := h c (mem_cons_self ..)
    obtain ⟨m, hm⟩ := ih fun b hb => h b (mem_cons_of_mem _ hb)
    refine ⟨max n m, ?_⟩
    intro b hb
    cases mem_cons.mp hb with
    | inl hb =>
      rw [hb]
      exact hn.mono (le_max_left n m)
    | inr hb => exact (hm b hb).mono (le_max_right n m)

theorem exists_short_of_acc (h : Acc (fun y x => Edge next x y) a) : ∃ n, Short next n a := by
  induction h with
  | intro x _ ih =>
    obtain ⟨n, hn⟩ := exists_short_list (next x) fun b hb => ih b hb
    exact ⟨n + 1, hn⟩

theorem NoCycle.acc (h : NoCycle next a) (hfin : {x | ReflTransGen (Edge next) a x}.Finite) :
    Acc (fun y x => Edge next x y) a := by
  let S := {x // ReflTransGen (Edge next) a x}
  have : Finite S := hfin.to_subtype
  let r : S → S → Prop := fun y x => TransGen (Edge next) x.1 y.1
  have : IsTrans S r := ⟨fun _ _ _ hxy hyz => hyz.trans hxy⟩
  have : Std.Irrefl r := ⟨fun x hx => h x.1 x.2 hx⟩
  have hwf : WellFounded r := Finite.wellFounded_of_trans_of_irrefl r
  have hacc : ∀ x : S, Acc (fun y x => Edge next x y) x.1 := by
    intro x
    induction x using hwf.induction with
    | _ x ih =>
      constructor
      intro y hy
      exact ih ⟨y, x.2.tail hy⟩ (TransGen.single hy)
  exact hacc ⟨a, ReflTransGen.refl⟩

theorem exists_short_iff (hfin : {x | ReflTransGen (Edge next) a x}.Finite) :
    (∃ n, Short next n a) ↔ NoCycle next a := by
  constructor
  · intro h x hx
    obtain ⟨n, hn⟩ := h
    obtain ⟨m, -, hm⟩ := hn.reaches hx
    exact hm.not_trans
  · intro h
    exact exists_short_of_acc (h.acc hfin)

section Loops

variable {σ ρ : Type*} {run : ℕ → σ → Option ρ} {place : σ → α} {Inside : α → Prop} {Inv : σ → Prop}
  {s : σ}

/- What a turn of a loop does in a state: it fails, it has the result, or the loop goes on in another
state, one step further along the walk. -/
inductive Turn (next : α → List α) (run : ℕ → σ → Option ρ) (place : σ → α) (Inside : α → Prop)
    (Inv : σ → Prop) (s : σ) : Prop where
  | fails (hin : ¬Inside (place s)) (h : ∀ n, run (n + 1) s = none)
  | ends (hin : Inside (place s)) (hnext : next (place s) = []) (r : ρ)
      (h : ∀ n, run (n + 1) s = some r)
  | goes (hin : Inside (place s)) (s' : σ) (hs' : Inv s') (hnext : next (place s) = [place s'])
      (h : ∀ n, run (n + 1) s = run n s')

theorem run_iff_short (hzero : ∀ s, run 0 s = none)
    (hturn : ∀ s, Inv s → Turn next run place Inside Inv s) (hs : Inv s) :
    (∃ r, run n s = some r) ↔
      Short next n (place s) ∧ ∀ x, ReflTransGen (Edge next) (place s) x → Inside x := by
  induction n generalizing s with
  | zero =>
    rw [hzero]
    exact iff_of_false (by simp) fun h => h.1
  | succ n ih =>
    cases hturn s hs with
    | fails hin h =>
      rw [h]
      exact iff_of_false (by simp) fun hall => hin (hall.2 _ ReflTransGen.refl)
    | ends hin hnext r h =>
      rw [h]
      refine iff_of_true ⟨r, rfl⟩ ⟨fun b hb => ?_, fun x hx => ?_⟩
      · rw [hnext] at hb
        cases hb
      · obtain rfl | ⟨b, hb, -⟩ := ReflTransGen.cases_head hx
        · exact hin
        · unfold Edge at hb
          rw [hnext] at hb
          cases hb
    | goes hin s' hs' hnext h =>
      rw [h, ih hs']
      have hedge : ∀ b, b ∈ next (place s) ↔ b = place s' := by
        intro b
        rw [hnext, mem_singleton]
      constructor
      · rintro ⟨hshort, hall⟩
        refine ⟨fun b hb => (hedge b).mp hb ▸ hshort, fun x hx => ?_⟩
        obtain rfl | ⟨b, hb, hrest⟩ := ReflTransGen.cases_head hx
        · exact hin
        · exact hall x ((hedge b).mp hb ▸ hrest)
      · rintro ⟨hshort, hall⟩
        exact ⟨hshort _ ((hedge _).mpr rfl), fun x hx => hall x (hx.head ((hedge _).mpr rfl))⟩

theorem run_iff_noCycle (hzero : ∀ s, run 0 s = none)
    (hturn : ∀ s, Inv s → Turn next run place Inside Inv s) (hs : Inv s)
    (hfin : {x | ReflTransGen (Edge next) (place s) x}.Finite) :
    (∃ n r, run n s = some r) ↔
      (∀ x, ReflTransGen (Edge next) (place s) x → Inside x) ∧ NoCycle next (place s) := by
  rw [← exists_short_iff hfin]
  simp only [run_iff_short hzero hturn hs, exists_and_right]
  exact and_comm

end Loops

end UBoot.Walks
