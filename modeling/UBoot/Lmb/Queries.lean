import UBoot.Lmb.Alloc
import UBoot.Lmb.Tracking

/-!
# Queries of a single address

`lmb_is_reserved` compares with the last address of an entry, `lmb_overlaps_region` with the end behind
it.
-/

namespace UBoot.Lmb

open Function Option

section Query

variable (abi : Abi)

/- The loop of `lmb_is_reserved` (`lmb.c:329-334`) at index `i` with `n` entries to go. -/
def isReservedFrom (rgn : LmbRegion) (addr : ℕ) : ℕ → ℕ → ℕ
  | 0, _ => 0
  | n + 1, i =>
    let x := rgn.region i
    let upper := abi.sub (abi.add x.base x.size) 1
    if x.base ≤ addr ∧ addr ≤ upper then 1 else isReservedFrom rgn addr n (i + 1)

/- `lmb_is_reserved` (`lmb.c:325-336`). -/
def lmbIsReserved (lmb : LmbState) (addr : ℕ) : ℕ :=
  isReservedFrom abi lmb.reserved addr lmb.reserved.cnt 0

structure QueriesAgree (lmb : LmbState) (a : ℕ) : Prop where
  queries : lmbIsReserved abi lmb a = 1 ↔ (lmbOverlapsRegion abi lmb.reserved a 1).isSome
  table : (lmbOverlapsRegion abi lmb.reserved a 1).isSome ↔
    ∃ i, i < lmb.reserved.cnt ∧ (lmb.reserved.region i).base ≤ a ∧
      a < (lmb.reserved.region i).base + (lmb.reserved.region i).size

/- Every entry ends below the top of the address space, and none is the empty range at 0. -/
def Regular (rgn : LmbRegion) : Prop :=
  ∀ i, i < rgn.cnt → (rgn.region i).Fits abi ∧ rgn.region i ≠ ⟨0, 0⟩

instance (rgn : LmbRegion) : Decidable (Regular abi rgn) :=
  inferInstanceAs (Decidable (∀ i, i < rgn.cnt → _))

end Query

section Reach

variable (abi : Abi)

def runCall (lmb : LmbState) : Call → Option LmbState
  | .add base size => (lmbAdd abi lmb base size).map Prod.snd
  | .reserve base size => (lmbReserve abi lmb base size).map Prod.snd
  | .alloc size align maxAddr => (lmbAllocBase abi lmb size align maxAddr).map Prod.snd
  | .free base size => (lmbFree abi lmb base size).map Prod.snd

/- Two values of type `phys_addr_t`. -/
def LmbProperty.Word (x : LmbProperty) : Prop := x.base < 2 ^ abi.physBits ∧ x.size < 2 ^ abi.physBits

def Call.Typed : Call → Prop
  | .add base size => LmbProperty.Word abi ⟨base, size⟩
  | .reserve base size => LmbProperty.Word abi ⟨base, size⟩
  | .alloc size align maxAddr =>
    size < 2 ^ abi.physBits ∧ align < 2 ^ abi.longBits ∧ maxAddr < 2 ^ abi.physBits
  | .free base size => LmbProperty.Word abi ⟨base, size⟩

/- The array of a table holds values of type `phys_addr_t`. -/
def LmbRegion.Typed (rgn : LmbRegion) : Prop := ∀ i, (rgn.region i).Word abi

/- The states reached from `lmb_init`, on an lmb with any contents, by calls that meet `ok` in the
state they are made in. -/
inductive Reached (ok : LmbState → Call → Prop) : LmbState → Prop where
  | init (lmb : LmbState) (hm : lmb.memory.Typed abi) (hr : lmb.reserved.Typed abi) :
      Reached ok (lmbInit lmb)
  | call {lmb lmb' : LmbState} {c : Call} (h : Reached ok lmb) (ht : c.Typed abi) (hok : ok lmb c)
      (hrun : runCall abi lmb c = some lmb') : Reached ok lmb'

end Reach

section Typing

variable {abi : Abi} {rgn rgn' : LmbRegion}

theorem Abi.add_lt (abi : Abi) (x y : ℕ) : abi.add x y < 2 ^ abi.physBits :=
  Nat.mod_lt _ (Nat.two_pow_pos _)

theorem Abi.sub_lt (abi : Abi) (x y : ℕ) : abi.sub x y < 2 ^ abi.physBits :=
  Nat.mod_lt _ (Nat.two_pow_pos _)

variable {base size : ℕ}

theorem LmbRegion.Typed.set (h : rgn.Typed abi) (hb : base < 2 ^ abi.physBits)
    (hs : size < 2 ^ abi.physBits) (i : ℕ) : (rgn.set i ⟨base, size⟩).Typed abi := by
  intro j
  rw [set_region]
  split
  · exact ⟨hb, hs⟩
  · exact h j

theorem shiftDown_mem {limit fuel i : ℕ} {region region' : ℕ → LmbProperty}
    (h : shiftDown limit fuel i region = some region') (j : ℕ) : ∃ j', region' j = region j' := by
  induction fuel generalizing i region with
  | zero => cases h
  | succ fuel ih =>
    rw [shiftDown] at h
    by_cases hi : i < limit
    · by_cases ha : InArray (i + 1)
      · rw [if_pos hi, if_pos ha] at h
        obtain ⟨j', hj'⟩ := ih h
        by_cases hji : j' = i
        · exact ⟨i + 1, by rw [hj', hji, update_self]⟩
        · exact ⟨j', by rw [hj', update_of_ne hji]⟩
      · rw [if_pos hi, if_neg ha] at h
        cases h
    · rw [if_neg hi] at h
      exact ⟨j, by rw [some.inj h]⟩

theorem lmbRemoveRegion_typed (h : rgn.Typed abi) {r : ℕ}
    (hrm : lmbRemoveRegion abi rgn r = some rgn') : rgn'.Typed abi := by
  unfold lmbRemoveRegion at hrm
  split at hrm
  · cases hrm
  next region' hshift =>
    obtain rfl := some.inj hrm
    intro j
    obtain ⟨j', hj'⟩ := shiftDown_mem hshift j
    have hword := h j'
    rwa [← hj'] at hword

theorem insertSorted_mem (base size k : ℕ) (region : ℕ → LmbProperty) (j : ℕ) :
    insertSorted base size k region j = ⟨base, size⟩ ∨ ∃ j', insertSorted base size k region j = region j' := by
  induction k generalizing region with
  | zero => exact .inr ⟨j, rfl⟩
  | succ k ih =>
    rw [insertSorted]
    by_cases hb : base < (region k).base
    · rw [if_pos hb]
      rcases ih (update region (k + 1) (region k)) with hnew | ⟨j', hj'⟩
      · exact .inl hnew
      · refine .inr ?_
        by_cases hjk : j' = k + 1
        · exact ⟨k, by rw [hj', hjk, update_self]⟩
        · exact ⟨j', by rw [hj', update_of_ne hjk]⟩
    · rw [if_neg hb]
      by_cases hjk : j = k + 1
      · exact .inl (by rw [hjk, update_self])
      · exact .inr ⟨j, update_of_ne hjk _ _⟩

variable {ret : ℤ}

theorem addRegionTail_typed (h : rgn.Typed abi) {i : ℕ} {coalesced : ℤ}
    (hnew : LmbProperty.Word abi ⟨base, size⟩)
    (hadd : addRegionTail abi rgn base size i coalesced = some (ret, rgn')) : rgn'.Typed abi := by
  unfold addRegionTail at hadd
  split at hadd
  · split at hadd
    · cases hadd
    next hmerge =>
      obtain ⟨-, rfl⟩ := Prod.mk.inj (some.inj hadd)
      exact lmbRemoveRegion_typed (h.set (h i).1 (abi.add_lt _ _) i) hmerge
  · split at hadd
    · obtain ⟨-, rfl⟩ := Prod.mk.inj (some.inj hadd)
      exact h
    · split at hadd
      · obtain ⟨-, rfl⟩ := Prod.mk.inj (some.inj hadd)
        exact h
      · obtain ⟨-, rfl⟩ := Prod.mk.inj (some.inj hadd)
        have hins : ∀ j, (insertSorted base size rgn.cnt rgn.region j).Word abi := by
          intro j
          rcases insertSorted_mem base size rgn.cnt rgn.region j with hj | ⟨j', hj⟩
          · rw [hj]
            exact hnew
          · rw [hj]
            exact h j'
        intro j
        dsimp only
        split
        · rw [update_apply]
          split
          · exact hnew
          · exact hins j
        · exact hins j

theorem lmbAddRegion_typed (h : rgn.Typed abi) (hnew : LmbProperty.Word abi ⟨base, size⟩)
    (hadd : lmbAddRegion abi rgn base size = some (ret, rgn')) : rgn'.Typed abi := by
  unfold lmbAddRegion at hadd
  split at hadd
  · obtain ⟨-, rfl⟩ := Prod.mk.inj (some.inj hadd)
    exact h.set hnew.1 hnew.2 0
  · cases hfind : findCoalesce abi rgn base size rgn.cnt 0 with
    | same =>
      simp only [hfind, some.injEq, Prod.mk.injEq] at hadd
      rw [← hadd.2]
      exact h
    | front i =>
      simp only [hfind] at hadd
      exact addRegionTail_typed (h.set (abi.sub_lt _ _) (abi.add_lt _ _) i) hnew hadd
    | back i =>
      simp only [hfind] at hadd
      exact addRegionTail_typed (h.set (h i).1 (abi.add_lt _ _) i) hnew hadd
    | none =>
      simp only [hfind] at hadd
      exact addRegionTail_typed h hnew hadd

theorem freeRegion_typed (h : rgn.Typed abi)
    (hfree : freeRegion abi rgn base size = some (ret, rgn')) : rgn'.Typed abi := by
  unfold freeRegion at hfree
  simp only at hfree
  split at hfree
  · obtain ⟨-, rfl⟩ := Prod.mk.inj (some.inj hfree)
    exact h
  next i _ =>
    split at hfree
    · obtain ⟨r, hrm, hr⟩ := map_eq_some_iff.mp hfree
      obtain ⟨-, rfl⟩ := Prod.mk.inj hr
      exact lmbRemoveRegion_typed h hrm
    · split at hfree
      · obtain ⟨-, rfl⟩ := Prod.mk.inj (some.inj hfree)
        exact h.set (abi.add_lt _ _) (abi.sub_lt _ _) i
      · split at hfree
        · obtain ⟨-, rfl⟩ := Prod.mk.inj (some.inj hfree)
          exact h.set (h i).1 (abi.sub_lt _ _) i
        · exact lmbAddRegion_typed (h.set (h i).1 (abi.sub_lt _ _) i)
            ⟨abi.add_lt _ _, abi.sub_lt _ _⟩ hfree

theorem lmbAlignDown_lt (addr size : ℕ) (h : addr < 2 ^ abi.physBits) :
    lmbAlignDown abi addr size < 2 ^ abi.physBits := Nat.and_le_left.trans_lt h

variable {align : ℕ}

theorem searchDown_lt {lmbbase fuel b : ℕ} (hb : base < 2 ^ abi.physBits)
    (h : searchDown abi rgn size align lmbbase fuel base = some (some b)) : b < 2 ^ abi.physBits := by
  induction fuel generalizing base with
  | zero => cases h
  | succ fuel ih =>
    rw [searchDown] at h
    split at h
    · split at h
      · exact (some.inj (some.inj h)) ▸ hb
      · simp only at h
        split at h
        · cases h
        · exact ih (lmbAlignDown_lt _ _ (abi.sub_lt _ _)) h
    · cases h

theorem searchStart_lt {x : LmbProperty} {maxAddr start : ℕ}
    (h : searchStart abi x size align maxAddr = some start) : start < 2 ^ abi.physBits := by
  unfold searchStart at h
  split at h
  · cases h
  · split at h
    · exact (some.inj h) ▸ lmbAlignDown_lt _ _ (abi.sub_lt _ _)
    · split at h
      · exact (some.inj h) ▸ lmbAlignDown_lt _ _ (abi.sub_lt _ _)
      · cases h

theorem allocFrom_typed {lmb lmb' : LmbState} {maxAddr n b : ℕ} (hr : lmb.reserved.Typed abi)
    (hm : lmb.memory.Typed abi) (h : allocFrom abi lmb size align maxAddr n = some (b, lmb')) :
    lmb'.reserved.Typed abi ∧ lmb'.memory.Typed abi := by
  induction n with
  | zero =>
    obtain ⟨-, rfl⟩ := Prod.mk.inj (some.inj h)
    exact ⟨hr, hm⟩
  | succ i ih =>
    rw [allocFrom] at h
    split at h
    · exact ih h
    next start hstart =>
      split at h
      · cases h
      · exact ih h
      next base hdown =>
        split at h
        · cases h
        next ret reserved hadd =>
          have hword : LmbProperty.Word abi ⟨base, lmbAlignUp abi size align⟩ :=
            ⟨searchDown_lt (searchStart_lt hstart) hdown, Nat.and_le_left.trans_lt (abi.add_lt _ _)⟩
          have htyped := lmbAddRegion_typed hr hword hadd
          split at h
          · obtain ⟨-, rfl⟩ := Prod.mk.inj (some.inj h)
            exact ⟨htyped, hm⟩
          · obtain ⟨-, rfl⟩ := Prod.mk.inj (some.inj h)
            exact ⟨htyped, hm⟩

theorem initRegion_typed (h : rgn.Typed abi) : (initRegion rgn).Typed abi :=
  h.set (Nat.two_pow_pos _) (Nat.two_pow_pos _) 0

theorem reached_typed {ok : LmbState → Call → Prop} {lmb : LmbState} (h : Reached abi ok lmb) :
    lmb.reserved.Typed abi ∧ lmb.memory.Typed abi := by
  induction h with
  | init lmb hm hr => exact ⟨initRegion_typed hr, initRegion_typed hm⟩
  | @call lmb lmb' c _ ht _ hrun ih =>
    obtain ⟨hr, hm⟩ := ih
    cases c with
    | add base size =>
      obtain ⟨_, hadd, rfl⟩ := map_eq_some_iff.mp hrun
      obtain ⟨r, hr', rfl⟩ := map_eq_some_iff.mp hadd
      exact ⟨hr, lmbAddRegion_typed hm ht hr'⟩
    | reserve base size =>
      obtain ⟨_, hadd, rfl⟩ := map_eq_some_iff.mp hrun
      obtain ⟨r, hr', rfl⟩ := map_eq_some_iff.mp hadd
      exact ⟨lmbAddRegion_typed hr ht hr', hm⟩
    | alloc size align maxAddr =>
      obtain ⟨_, halloc, rfl⟩ := map_eq_some_iff.mp hrun
      exact allocFrom_typed hr hm halloc
    | free base size =>
      obtain ⟨_, hfree, rfl⟩ := map_eq_some_iff.mp hrun
      obtain ⟨r, hr', rfl⟩ := map_eq_some_iff.mp hfree
      exact ⟨freeRegion_typed hr hr', hm⟩

end Typing

section Agree

variable {abi : Abi} {lmb : LmbState} {a : ℕ}

theorem isReservedFrom_eq_one (rgn : LmbRegion) (a n i : ℕ) :
    isReservedFrom abi rgn a n i = 1 ↔ ∃ j, i ≤ j ∧ j < i + n ∧ (rgn.region j).base ≤ a ∧
      a ≤ abi.sub (abi.add (rgn.region j).base (rgn.region j).size) 1 := by
  induction n generalizing i with
  | zero =>
    refine ⟨fun h => absurd h Nat.zero_ne_one, ?_⟩
    rintro ⟨j, hij, hj, -⟩
    lia
  | succ n ih =>
    rw [isReservedFrom]
    by_cases hx : (rgn.region i).base ≤ a ∧
        a ≤ abi.sub (abi.add (rgn.region i).base (rgn.region i).size) 1
    · simp only [if_pos hx, true_iff]
      exact ⟨i, le_rfl, by lia, hx⟩
    · simp only [if_neg hx]
      rw [ih]
      constructor
      · rintro ⟨j, hij, hj, hxj⟩
        exact ⟨j, by lia, by lia, hxj⟩
      · rintro ⟨j, hij, hj, hxj⟩
        have hne : j ≠ i := by
          rintro rfl
          exact hx hxj
        exact ⟨j, by lia, by lia, hxj⟩

theorem lmbIsReserved_eq_one : lmbIsReserved abi lmb a = 1 ↔
    ∃ i, i < lmb.reserved.cnt ∧ (lmb.reserved.region i).base ≤ a ∧
      a ≤ abi.sub (abi.add (lmb.reserved.region i).base (lmb.reserved.region i).size) 1 := by
  rw [lmbIsReserved, isReservedFrom_eq_one]
  simp only [Nat.zero_le, true_and, Nat.zero_add]

theorem lmbOverlapsRegion_isSome (rgn : LmbRegion) (base size : ℕ) :
    (lmbOverlapsRegion abi rgn base size).isSome ↔
      ∃ i, i < rgn.cnt ∧ lmbAddrsOverlap abi base size (rgn.region i).base (rgn.region i).size := by
  have hspec := overlapsFrom_spec abi rgn base size rgn.cnt 0
  rw [← lmbOverlapsRegion] at hspec
  cases hover : lmbOverlapsRegion abi rgn base size with
  | none =>
    rw [hover] at hspec
    simp only [isSome_none, Bool.false_eq_true, false_iff]
    rintro ⟨i, hi, hmeets⟩
    exact hspec i (Nat.zero_le i) (by lia) hmeets
  | some j =>
    rw [hover] at hspec
    simp only [isSome_some, true_iff]
    exact ⟨j, by lia, hspec.2⟩

theorem regular_entry {x : LmbProperty} (hx : x.Fits abi) (hne : x ≠ ⟨0, 0⟩)
    (ha : a < 2 ^ abi.physBits) :
    (x.base ≤ a ∧ a ≤ abi.sub (abi.add x.base x.size) 1 ↔ x.Covers a) ∧
      (lmbAddrsOverlap abi a 1 x.base x.size ↔ x.Covers a) := by
  have hstop : x.stop = x.base + x.size := rfl
  have hpos : 0 < x.stop := by
    by_contra hzero
    obtain ⟨base, size⟩ := x
    simp only at hstop
    exact hne (by rw [show base = 0 by lia, show size = 0 by lia])
  unfold LmbProperty.Fits at hx
  have hsub : abi.sub x.stop 1 = x.stop - 1 := abi.sub_of_le hx hpos
  rw [lmbAddrsOverlap, abi.add_fits hx, hsub]
  unfold LmbProperty.Covers
  refine ⟨by lia, ?_⟩
  by_cases htop : a + 1 < 2 ^ abi.physBits
  · rw [abi.add_of_lt htop]
    lia
  · -- the last address: its end wraps to 0
    lia

theorem agree_of_regular (h : Regular abi lmb.reserved) (ha : a < 2 ^ abi.physBits) :
    QueriesAgree abi lmb a := by
  have hentry := fun i hi => regular_entry (h i hi).1 (h i hi).2 ha
  constructor
  · rw [lmbIsReserved_eq_one, lmbOverlapsRegion_isSome]
    exact exists_congr fun i => and_congr_right fun hi => (hentry i hi).1.trans (hentry i hi).2.symm
  · rw [lmbOverlapsRegion_isSome]
    exact exists_congr fun i => and_congr_right fun hi => (hentry i hi).2

theorem last_not_overlapped (rgn : LmbRegion) :
    ¬ (lmbOverlapsRegion abi rgn (2 ^ abi.physBits - 1) 1).isSome := by
  have hpos := Nat.two_pow_pos abi.physBits
  rw [lmbOverlapsRegion_isSome]
  rintro ⟨i, -, -, hlt⟩
  rw [Abi.add, show 2 ^ abi.physBits - 1 + 1 = 2 ^ abi.physBits by lia, Nat.mod_self] at hlt
  exact absurd hlt (Nat.not_lt_zero _)

theorem regular_of_agree (ht : lmb.reserved.Typed abi)
    (h : QueriesAgree abi lmb (2 ^ abi.physBits - 1)) : Regular abi lmb.reserved := by
  have hpos := Nat.two_pow_pos abi.physBits
  have hno := @last_not_overlapped abi lmb.reserved
  intro i hi
  constructor
  · by_contra hfit
    refine hno (h.table.mpr ⟨i, hi, ?_, ?_⟩)
    · have hword := (ht i).1
      lia
    · unfold LmbProperty.Fits LmbProperty.stop at hfit
      lia
  · intro hdummy
    refine hno (h.queries.mp (lmbIsReserved_eq_one.mpr ⟨i, hi, ?_⟩))
    -- the end of the empty range at 0, less 1, is the last address
    have hupper : abi.sub (abi.add 0 0) 1 = 2 ^ abi.physBits - 1 := by
      rw [Abi.add, Nat.zero_mod, Abi.sub, Nat.zero_add, Nat.mod_eq_of_lt (by lia)]
    rw [hdummy, hupper]
    exact ⟨Nat.zero_le _, le_rfl⟩

end Agree

/-- In every reachable lmb the two queries and the table agree on all addresses exactly when every
entry ends below the top of the address space and none is the empty range at 0. -/
theorem queries_agree_iff (abi : Abi) (lmb : LmbState) (h : Reached abi (fun _ _ => True) lmb) :
    (∀ a, a < 2 ^ abi.physBits → QueriesAgree abi lmb a) ↔ Regular abi lmb.reserved := by
  have hpos := Nat.two_pow_pos abi.physBits
  constructor
  · intro hall
    exact regular_of_agree (reached_typed h).1 (hall _ (by lia))
  · intro hreg a ha
    exact agree_of_regular hreg ha

theorem zeroLmb_typed (abi : Abi) : zeroLmb.memory.Typed abi ∧ zeroLmb.reserved.Typed abi :=
  ⟨fun _ => ⟨Nat.two_pow_pos _, Nat.two_pow_pos _⟩, fun _ => ⟨Nat.two_pow_pos _, Nat.two_pow_pos _⟩⟩

/- Two reservations, the second with a gap to the first. -/
theorem queries_agree_pair : ∃ lmb, Reached arm32 (fun _ _ => True) lmb ∧
    ∀ a, a < 2 ^ arm32.physBits → QueriesAgree arm32 lmb a := by
  have h0 : Reached arm32 (fun _ _ => True) (lmbInit zeroLmb) :=
    .init zeroLmb (zeroLmb_typed arm32).1 (zeroLmb_typed arm32).2
  have h1 := h0.call (c := .reserve 0x80008000 0x400000) ⟨by decide, by decide⟩ trivial rfl
  have h2 := h1.call (c := .reserve 0x9fff0000 0x1000) ⟨by decide, by decide⟩ trivial rfl
  exact ⟨_, h2, (queries_agree_iff arm32 _ h2).mpr (by decide)⟩

/- After `lmb_init` every address counts as reserved for `lmb_is_reserved`; a range that ends at the
top of the address space is not seen by `lmb_overlaps_region`. -/
theorem queries_disagree :
    (∃ lmb, Reached arm32 (fun _ _ => True) lmb ∧ ¬ QueriesAgree arm32 lmb 0x80000000) ∧
      ∃ lmb, Reached arm32 (fun _ _ => True) lmb ∧ ¬ QueriesAgree arm32 lmb 0xfffff800 := by
  have h0 : Reached arm32 (fun _ _ => True) (lmbInit zeroLmb) :=
    .init zeroLmb (zeroLmb_typed arm32).1 (zeroLmb_typed arm32).2
  have h1 := h0.call (c := .reserve 0xfffff000 0x1000) ⟨by decide, by decide⟩ trivial rfl
  refine ⟨⟨_, h0, fun h => ?_⟩, ⟨_, h1, fun h => ?_⟩⟩
  · exact absurd (h.queries.mp rfl) (by decide)
  · exact absurd (h.queries.mp rfl) (by decide)

end UBoot.Lmb
