import Mathlib.Tactic

/-!
# Doubly linked lists in an array

Nodes live at indices, and index 0 stands for the end in both directions. `Seg` says that the nodes
at the listed indices form a piece of such a list.
-/

namespace UBoot.DList

open Function List

structure Node (α : Type*) where
  val : α
  next : ℕ
  prev : ℕ

section Segments

variable {α : Type*}

/- The index of the first element, or `n`. -/
def headOr : List (ℕ × α) → ℕ → ℕ
  | [], n => n
  | x :: _, _ => x.1

/- The index of the last element, or `p`. -/
def lastOr : List (ℕ × α) → ℕ → ℕ
  | [], p => p
  | x :: xs, _ => lastOr xs x.1

def Seg (node : ℕ → Node α) : ℕ → List (ℕ × α) → ℕ → Prop
  | _, [], _ => True
  | p, x :: xs, n => node x.1 = ⟨x.2, headOr xs n, p⟩ ∧ Seg node x.1 xs n

variable {node node' : ℕ → Node α} {p n : ℕ} {xs ys : List (ℕ × α)} {x : ℕ × α}

theorem headOr_append : headOr (xs ++ ys) n = headOr xs (headOr ys n) := by
  cases xs with
  | nil => rfl
  | cons x xs => rfl

@[simp] theorem lastOr_concat : lastOr (xs ++ [x]) p = x.1 := by
  induction xs generalizing p with
  | nil => rfl
  | cons y ys ih => exact ih

theorem seg_append :
    Seg node p (xs ++ ys) n ↔ Seg node p xs (headOr ys n) ∧ Seg node (lastOr xs p) ys n := by
  induction xs generalizing p with
  | nil => simp [Seg, lastOr]
  | cons x xs ih =>
    simp only [cons_append, Seg, lastOr]
    rw [ih, headOr_append, and_assoc]

theorem Seg.congr (h : Seg node p xs n) (hsame : ∀ y ∈ xs, node' y.1 = node y.1) : Seg node' p xs n := by
  induction xs generalizing p with
  | nil => trivial
  | cons x xs ih =>
    refine ⟨?_, ih h.2 fun y hy => hsame y (mem_cons_of_mem x hy)⟩
    rw [hsame x mem_cons_self]
    exact h.1

theorem Seg.update (h : Seg node p xs n) {i : ℕ} (v : Node α) (hi : ∀ y ∈ xs, y.1 ≠ i) :
    Seg (Function.update node i v) p xs n :=
  h.congr fun y hy => update_of_ne (hi y hy) v node

theorem Seg.setPrev (h : Seg node p (x :: xs) n) (hx : ∀ y ∈ xs, y.1 ≠ x.1) (q : ℕ) :
    Seg (Function.update node x.1 { node x.1 with prev := q }) q (x :: xs) n := by
  refine ⟨?_, h.2.update _ hx⟩
  rw [update_self, h.1]

theorem Seg.setNext (h : Seg node p (xs ++ [x]) n) (hx : ∀ y ∈ xs, y.1 ≠ x.1) (m : ℕ) :
    Seg (Function.update node x.1 { node x.1 with next := m }) p (xs ++ [x]) m := by
  obtain ⟨hxs, hlast⟩ := seg_append.mp h
  refine seg_append.mpr ⟨hxs.update _ hx, ?_, trivial⟩
  rw [update_self, hlast.1]
  rfl

end Segments

section Ascending

variable {α : Type*}

def Ascending (xs : List (ℕ × α)) : Prop := xs.Pairwise fun x y => x.1 < y.1

variable {xs ys : List (ℕ × α)} {x : ℕ × α} {p : ℕ}

theorem ascending_append : Ascending (xs ++ ys) ↔
    Ascending xs ∧ Ascending ys ∧ ∀ x ∈ xs, ∀ y ∈ ys, x.1 < y.1 :=
  pairwise_append

theorem ascending_cons : Ascending (x :: xs) ↔ (∀ y ∈ xs, x.1 < y.1) ∧ Ascending xs := pairwise_cons

theorem Ascending.headOr_eq_zero (h : Ascending (x :: xs)) : headOr xs 0 = 0 ↔ xs = [] := by
  cases xs with
  | nil => simp [headOr]
  | cons y ys =>
    have hlt := (ascending_cons.mp h).1 y mem_cons_self
    simp only [headOr, reduceCtorEq, iff_false]
    omega

theorem Ascending.lastOr_eq_zero (h : Ascending xs) : lastOr xs 0 = 0 ↔ xs = [] ∨ ∃ v, xs = [(0, v)] := by
  constructor
  · intro hz
    cases eq_nil_or_concat xs with
    | inl hnil => exact .inl hnil
    | inr hconcat =>
      obtain ⟨ys, y, rfl⟩ := hconcat
      rw [concat_eq_append, lastOr_concat] at hz
      rw [concat_eq_append] at h ⊢
      have hys : ys = [] := by
        cases ys with
        | nil => rfl
        | cons z zs =>
          have hlt := (ascending_append.mp h).2.2 z mem_cons_self y mem_cons_self
          omega
      subst hys
      exact .inr ⟨y.2, by rw [← hz]; rfl⟩
  · intro hor
    cases hor with
    | inl hnil => rw [hnil]; rfl
    | inr hv =>
      obtain ⟨v, rfl⟩ := hv
      rfl

theorem Ascending.length_le (h : Ascending xs) {k : ℕ} (hk : ∀ x ∈ xs, x.1 < k) : xs.length ≤ k := by
  have hnodup : (xs.map Prod.fst).Nodup := by
    apply List.Pairwise.map _ _ h
    intro a b hab
    exact hab.ne
  have hsub : xs.map Prod.fst ⊆ List.range k := by
    intro i hi
    obtain ⟨x, hx, rfl⟩ := mem_map.mp hi
    exact mem_range.mpr (hk x hx)
  have hle := (hnodup.subperm hsub).length_le
  rwa [length_map, length_range] at hle

end Ascending

end UBoot.DList
