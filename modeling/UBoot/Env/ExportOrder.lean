import UBoot.Env.RoundTrip

/-!
# The order of an export

`strcmp` keeps the difference of two bytes in a signed char. Between bytes below 0x80 its sign is
right, and the sort of `hexport_r` leaves the entries in the order of their keys; between others
it is no order.
-/

namespace UBoot.Env

open List

variable {Callback : Type} {htab : Htab Callback} {m : Str → Option Str} {x y : Str}

def Ascii (key : Str) : Prop := ∀ c ∈ key, c ≠ nul ∧ c < 0x80

def Str.codes (key : Str) : List ℕ := key.map UInt8.toNat

theorem codes_injective : Function.Injective Str.codes :=
  map_injective_iff.mpr fun _ _ h => UInt8.toNat_inj.mp h

theorem charDiff_le {a b : UInt8} (ha : a < 0x80) (hb : b < 0x80) :
    charDiff a b ≤ 0 ↔ a.toNat ≤ b.toNat := by
  have ha' : a.toNat < 128 := UInt8.lt_iff_toNat_lt.mp ha
  have hb' : b.toNat < 128 := UInt8.lt_iff_toNat_lt.mp hb
  rw [charDiff, Int.bmod_eq_of_le (by lia) (by lia)]
  lia

theorem Ascii.cons {c : UInt8} {key : Str} (h : Ascii (c :: key)) :
    (c ≠ nul ∧ c < 0x80) ∧ Ascii key :=
  ⟨h c mem_cons_self, fun d hd => h d (mem_cons_of_mem _ hd)⟩

theorem strcmp_le (hx : Ascii x) (hy : Ascii y) : strcmp x y ≤ 0 ↔ x.codes ≤ y.codes := by
  induction x generalizing y with
  | nil =>
    refine iff_of_true ?_ (not_lt.mp (List.not_lt_nil _))
    cases y with
    | nil => exact le_rfl
    | cons b y => exact (charDiff_le (by decide) hy.cons.1.2).mpr (Nat.zero_le _)
  | cons a x ih =>
    obtain ⟨⟨ha, ha'⟩, hx⟩ := hx.cons
    cases y with
    | nil =>
      have hpos : ¬a.toNat ≤ nul.toNat := fun h => ha (UInt8.toNat_inj.mp (Nat.le_zero.mp h))
      exact iff_of_false (fun h => hpos ((charDiff_le ha' (by decide)).mp h)) (by simp [Str.codes])
    | cons b y =>
      obtain ⟨⟨-, hb'⟩, hy⟩ := hy.cons
      rw [strcmp, Str.codes, Str.codes, map_cons, map_cons, ← not_lt (a := _ :: _), List.cons_lt_cons_iff]
      split_ifs with hab
      · rw [ih hx hy, hab, ← not_lt]
        simp [Str.codes]
      · have hne : a.toNat ≠ b.toNat := fun h => hab (UInt8.toNat_inj.mp h)
        rw [charDiff_le ha' hb']
        lia

theorem collect_eq (keep : Str → Str → Bool) :
    collect htab keep = (pairs htab).filter fun e => keep e.1 e.2 := by
  rw [pairs_eq, filter_filterMap, collect]
  refine filterMap_congr fun i _ => ?_
  unfold slotPair
  split
  · cases (htab.table i).key with
    | none => rfl
    | some key => cases (htab.table i).data <;> rfl
  · rfl

/-- The sort comes to its end on the entries that `hexport_r` collects, and where their keys are
plain ASCII it leaves them in the order of their keys. -/
theorem hexportR_sort (hl : Listed htab m) (keep : Str → Str → Bool)
    (hascii : ∀ e ∈ collect htab keep, Ascii e.1) :
    let list := collect htab keep
    (∃ b, qsort (fun e f => strcmp e.1 f.1 ≤ 0) list.length (fun i => list.getD i ([], [])) = some b ∧
      sortEntries list = (range list.length).map b) ∧ (sortEntries list).Perm list ∧
      (sortEntries list).Pairwise fun e f => e.1.codes < f.1.codes := by
  intro list
  have hplain : ∀ i, Ascii (list.getD i ([], [])).1 := by
    intro i
    by_cases hi : i < list.length
    · rw [getD_eq_getElem _ _ hi]
      exact hascii _ (getElem_mem hi)
    · rw [getD_eq_default _ _ (not_lt.mp hi)]
      exact fun c hc => absurd hc not_mem_nil
  have hle : ∀ i j, decide (strcmp (list.getD i ([], [])).1 (list.getD j ([], [])).1 ≤ 0) = true ↔
      (list.getD i ([], [])).1.codes ≤ (list.getD j ([], [])).1.codes := fun i j => by
    rw [decide_eq_true_iff, strcmp_le (hplain i) (hplain j)]
  have ho : Comparable (fun e f : Str × Str => strcmp e.1 f.1 ≤ 0) fun i => list.getD i ([], []) :=
    ⟨fun i j => by simpa only [hle] using le_total _ _,
      fun i j k h h' => (hle i k).mpr (((hle i j).mp h).trans ((hle j k).mp h'))⟩
  obtain ⟨b, hb, hsorted, hre⟩ := qsort_sorts list.length ho
  have hsort : sortEntries list = (range list.length).map b := by
    rw [sortEntries, hb]
    rfl
  have hperm := sortEntries_perm list
  have hkeys : (sortEntries list).Pairwise fun e f => e.1 ≠ f.1 :=
    (hperm.pairwise_iff fun h => h.symm).mpr (by
      rw [show list = _ from collect_eq keep]
      exact (pairs_keys hl).filter _)
  refine ⟨⟨b, hb, hsort⟩, hperm, ?_⟩
  have hpair : (sortEntries list).Pairwise fun e f => e.1.codes ≤ f.1.codes := by
    rw [hsort, pairwise_map]
    refine pairwise_lt_range.imp_of_mem fun {i j} hi hj h => ?_
    have hmem : ∀ i ∈ range list.length, Ascii (b i).1 := fun i hi =>
      hascii _ (hperm.subset (hsort ▸ mem_map_of_mem hi))
    exact (strcmp_le (hmem i hi) (hmem j hj)).mp
      (of_decide_eq_true (hsorted i j h (mem_range.mp hj)))
  exact (hpair.and hkeys).imp fun h => lt_of_le_of_ne h.1 fun heq => h.2 (codes_injective heq)

/- "a=1" in slot 3 and "c=2" in slot 1. -/
def slotsOutOfOrder : Htab Unit := putEntry (oneEntry [49]) [99] [50] 1 ⟨none, 0⟩

theorem hexportR_sort_swaps : collect slotsOutOfOrder (fun _ _ => true) = [([99], [50]), ([97], [49])] ∧
    (sortEntries (collect slotsOutOfOrder fun _ _ => true)).Pairwise
      fun e f => e.1.codes < f.1.codes := by
  have hlist : collect slotsOutOfOrder (fun _ _ => true) = [([99], [50]), ([97], [49])] := by
    decide +kernel
  obtain ⟨hw, hm⟩ := oneEntry_represents [49]
  have habs : ∀ i, ¬Holds (oneEntry [49]) i [99] := (represents_absent hw hm).mp (by decide)
  have hfresh : Fresh (oneEntry [49]) [99] 1 :=
    ⟨by decide, by decide, 0, by decide, by decide, by lia⟩
  have hl := wellFormed_listed (putEntry_wellFormed hw hfresh habs [50] ⟨none, 0⟩)
    (represents_put hw hm hfresh habs [50] ⟨none, 0⟩)
  have hascii : ∀ e ∈ collect slotsOutOfOrder (fun _ _ => true), Ascii e.1 := by
    rw [hlist]
    unfold Ascii
    decide +kernel
  exact ⟨hlist, (hexportR_sort hl _ hascii).2.2⟩

end UBoot.Env
