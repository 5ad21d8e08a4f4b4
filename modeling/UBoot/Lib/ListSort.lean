import Mathlib.Tactic

/-!
# The list merge sort (lib/list_sort.c)

`list_sort` collects the nodes of a list into sorted lists `part[0..19]` whose lengths double from
slot to slot, and merges them at the end. A slot that is `NULL` in the source is `[]` here; the back
links have no counterpart.
-/

namespace UBoot.Lib.ListSort

open List

variable {α : Type*}

/-- `MAX_LIST_LENGTH_BITS` (`list_sort.c:12`): the slots before the sentinel. -/
def maxListLengthBits : ℕ := 20

/-- `merge` (`list_sort.c:19-38`): on a tie the node of `a` goes first. -/
def merge (cmp : α → α → ℤ) (a b : List α) : List α := a.merge b fun x y => decide (cmp x y ≤ 0)

/-- The loop over `lev` that files `cur` away (`list_sort.c:119-133`). `slots`
counts the slots left before the sentinel; a list that reaches the sentinel is
stored one slot lower (`lev--`). -/
def insertPart (cmp : α → α → ℤ) : ℕ → List (List α) → List α → List (List α)
  | _, [], cur => [cur]
  | _, [] :: part, cur => cur :: part
  | 0, p :: _, cur => [merge cmp p cur]
  | slots + 1, p :: part, cur =>
    if slots = 0 then [merge cmp p cur]
    else [] :: insertPart cmp slots part (merge cmp p cur)

/-- The first loop of `list_sort`: every node is filed as a list of its own. -/
def collect (cmp : α → α → ℤ) : List (List α) → List α → List (List α)
  | part, [] => part
  | part, x :: xs => collect cmp (insertPart cmp maxListLengthBits part [x]) xs

/-- The last loop and `merge_and_restore_back_links`: the partial lists are
merged from the lowest slot up. -/
def mergeParts (cmp : α → α → ℤ) (part : List (List α)) : List α :=
  part.foldl (fun list p => merge cmp p list) []

/-- `list_sort` (`list_sort.c:103-142`). -/
def listSort (cmp : α → α → ℤ) (head : List α) : List α := mergeParts cmp (collect cmp [] head)

theorem merge_perm (cmp : α → α → ℤ) (a b : List α) : (merge cmp a b).Perm (a ++ b) :=
  merge_perm_append _

theorem insertPart_length (cmp : α → α → ℤ) (slots : ℕ) (part : List (List α)) (cur : List α)
    (hs : part.length ≤ slots) (h0 : 0 < slots) : (insertPart cmp slots part cur).length ≤ slots := by
  induction part generalizing slots cur with
  | nil => simpa [insertPart] using Nat.succ_le_of_lt h0
  | cons p part ih =>
    cases p with
    | nil => simpa [insertPart] using hs
    | cons x p =>
      cases slots with
      | zero => omega
      | succ slots =>
        simp only [insertPart]
        split
        · simp
        · rename_i hne
          have hr := ih slots (merge cmp (x :: p) cur) (by simpa using hs) (by omega)
          simpa using hr

theorem insertPart_perm (cmp : α → α → ℤ) (slots : ℕ) (part : List (List α)) (cur : List α)
    (hs : part.length ≤ slots) : (insertPart cmp slots part cur).flatten.Perm (part.flatten ++ cur) := by
  induction part generalizing slots cur with
  | nil => simp [insertPart]
  | cons p part ih =>
    cases p with
    | nil => simpa [insertPart] using perm_append_comm
    | cons x p =>
      have hm : (merge cmp (x :: p) cur).Perm ((x :: p) ++ cur) := merge_perm cmp _ _
      cases slots with
      | zero => simp at hs
      | succ slots =>
        simp only [insertPart]
        split
        · rename_i h0
          have hp : part = [] := by
            subst h0
            simpa using hs
          simpa [hp] using hm
        · have hr := ih slots (merge cmp (x :: p) cur) (by simpa using hs)
          have hc : (part.flatten ++ ((x :: p) ++ cur)).Perm ((x :: p) ++ part.flatten ++ cur) := by
            rw [← append_assoc]
            exact perm_append_comm.append_right cur
          simpa using hr.trans ((hm.append_left part.flatten).trans hc)

theorem collect_perm (cmp : α → α → ℤ) (part : List (List α)) (xs : List α)
    (hs : part.length ≤ maxListLengthBits) : (collect cmp part xs).flatten.Perm (part.flatten ++ xs) := by
  induction xs generalizing part with
  | nil => simp [collect]
  | cons x xs ih =>
    have hl := insertPart_length cmp maxListLengthBits part [x] hs (by decide)
    have hp := insertPart_perm cmp maxListLengthBits part [x] hs
    simpa [collect] using (ih _ hl).trans (hp.append_right xs)

theorem foldl_merge_perm (cmp : α → α → ℤ) (part : List (List α)) (acc : List α) :
    (part.foldl (fun list p => merge cmp p list) acc).Perm (acc ++ part.flatten) := by
  induction part generalizing acc with
  | nil => simp
  | cons p part ih =>
    have hm : (merge cmp p acc).Perm (acc ++ p) := (merge_perm cmp p acc).trans perm_append_comm
    simpa [append_assoc] using (ih (merge cmp p acc)).trans (hm.append_right part.flatten)

theorem listSort_perm (cmp : α → α → ℤ) (head : List α) : (listSort cmp head).Perm head := by
  have hm := foldl_merge_perm cmp (collect cmp [] head) []
  have hc := collect_perm cmp [] head (by simp)
  simpa [listSort, mergeParts] using hm.trans hc

section Sorted

variable (cmp : α → α → ℤ)
  (total : ∀ a b, cmp a b ≤ 0 ∨ cmp b a ≤ 0)
  (trans : ∀ a b c, cmp a b ≤ 0 → cmp b c ≤ 0 → cmp a c ≤ 0)

/-- The order that the comparison function stands for. -/
def Sorted (l : List α) : Prop := l.Pairwise fun a b => cmp a b ≤ 0

include total trans

theorem merge_sorted (a b : List α) (ha : Sorted cmp a) (hb : Sorted cmp b) :
    Sorted cmp (merge cmp a b) := by
  have h := @List.pairwise_merge _ (fun x y => decide (cmp x y ≤ 0))
    (fun x y z => by simpa using trans x y z) (fun x y => by simpa using total x y) a b
    (ha.imp (by simp)) (hb.imp (by simp))
  exact h.imp (by simp)

theorem insertPart_sorted (slots : ℕ) (part : List (List α)) (cur : List α)
    (hp : ∀ p ∈ part, Sorted cmp p) (hc : Sorted cmp cur) :
    ∀ p ∈ insertPart cmp slots part cur, Sorted cmp p := by
  induction part generalizing slots cur with
  | nil => simpa [insertPart] using hc
  | cons p part ih =>
    obtain ⟨h0, ht⟩ := forall_mem_cons.mp hp
    cases p with
    | nil => simpa [insertPart] using ⟨hc, ht⟩
    | cons x p =>
      have hm := merge_sorted cmp total trans (x :: p) cur h0 hc
      cases slots with
      | zero => simpa [insertPart] using hm
      | succ slots =>
        simp only [insertPart]
        split
        · simpa using hm
        · exact forall_mem_cons.mpr ⟨List.Pairwise.nil, ih slots _ ht hm⟩

theorem collect_sorted (part : List (List α)) (xs : List α) (hp : ∀ p ∈ part, Sorted cmp p) :
    ∀ p ∈ collect cmp part xs, Sorted cmp p := by
  induction xs generalizing part with
  | nil => exact hp
  | cons x xs ih =>
    have h1 : Sorted cmp [x] := pairwise_singleton _ x
    exact ih _ (insertPart_sorted cmp total trans _ part [x] hp h1)

theorem foldl_merge_sorted (part : List (List α)) (acc : List α) (hp : ∀ p ∈ part, Sorted cmp p)
    (ha : Sorted cmp acc) : Sorted cmp (part.foldl (fun list p => merge cmp p list) acc) := by
  induction part generalizing acc with
  | nil => exact ha
  | cons p part ih =>
    obtain ⟨h0, ht⟩ := forall_mem_cons.mp hp
    exact ih _ ht (merge_sorted cmp total trans p acc h0 ha)

/-- `list_sort` sorts for every comparison function that is a total preorder. -/
theorem listSort_sorted (head : List α) : Sorted cmp (listSort cmp head) := by
  have hc := collect_sorted cmp total trans [] head (by simp)
  exact foldl_merge_sorted cmp total trans _ [] hc List.Pairwise.nil

end Sorted

end UBoot.Lib.ListSort
