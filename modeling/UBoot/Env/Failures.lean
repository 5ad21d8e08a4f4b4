import UBoot.Env.Outcome

/-!
# Updates that fail (lib/hashtable.c)

ENTER and delete calls that return 0, for any hooks and any allocations. A rejection takes back
what was stored, unless the new entry went over a live one; a failed `strdup` leaves its stores.
-/

namespace UBoot.Env

open Option

variable {Callback State : Type}

inductive Update where
  | enter (key data : Str) (flag : ℕ)
  | delete (key : Str) (flag : ℕ)

def Update.run (hooks : Hooks Callback State) (dup : Dup) (htab : Htab Callback) (state : State) :
    Update → Option (Reply Callback State)
  | .enter key data flag => hsearchR hooks dup htab state key (.enter data) flag
  | .delete key flag => hdeleteR hooks htab state key flag

def livePairs (htab : Htab Callback) : Set (Str × Str) :=
  {e | ∃ i, Holds htab i e.1 ∧ (htab.table i).data = some e.2}

/- Return value and errno of a FIND, with the value at `*retval`. -/
def answer (hooks : Hooks Callback State) (dup : Dup) (htab : Htab Callback) (state : State)
    (key : Str) (flag : ℕ) : Option (ℕ × Option Errno × Option (Option Str)) :=
  (hsearchR hooks dup htab state key .find flag).map fun r =>
    (r.ret, r.errno, r.retval.map fun i => (r.tab.table i).data)

structure Unchanged (hooks : Hooks Callback State) (htab htab' : Htab Callback) : Prop where
  pairs : livePairs htab' = livePairs htab
  filled : htab'.filled = htab.filled
  whole : ∀ i, 1 ≤ i → i ≤ htab'.size → 0 < (htab'.table i).used →
    (htab'.table i).key ≠ none ∧ (htab'.table i).data ≠ none
  finds : ∀ dup state state' key flag,
    answer hooks dup htab' state' key flag = answer hooks dup htab state key flag

def FailsClean (hooks : Hooks Callback State) (dup : Dup) (htab : Htab Callback) (state : State)
    (c : Update) : Prop :=
  ∃ r, c.run hooks dup htab state = some r ∧ (r.ret = 0 → Unchanged hooks htab r.tab)

section Unchanged

variable {hooks : Hooks Callback State} {htab htab' : Htab Callback}

theorem unchanged_of_slots (hw : WellFormed htab) (hw' : WellFormed htab')
    (hfilled : htab'.filled = htab.filled) (hholds : ∀ i key, Holds htab' i key ↔ Holds htab i key)
    (hdata : ∀ i key, Holds htab i key → (htab'.table i).data = (htab.table i).data) :
    Unchanged hooks htab htab' where
  pairs := by
    ext e
    constructor
    · rintro ⟨i, hi, hd⟩
      have hi' := (hholds i e.1).mp hi
      exact ⟨i, hi', (hdata i e.1 hi').symm.trans hd⟩
    · rintro ⟨i, hi, hd⟩
      exact ⟨i, (hholds i e.1).mpr hi, (hdata i e.1 hi).trans hd⟩
  filled := hfilled
  whole i h1 h2 hu := by
    obtain ⟨key, data, hkey, hd, -⟩ := hw'.used i h1 h2 hu
    rw [hkey, hd]
    exact ⟨by simp, by simp⟩
  finds dup state state' key flag := by
    unfold answer
    by_cases hp : ∃ i, Holds htab i key
    · obtain ⟨i, hi⟩ := hp
      rw [find_present hooks dup state hw flag hi,
        find_present hooks dup state' hw' flag ((hholds i key).mpr hi)]
      simp only [map_some, hdata i key hi]
    · have habs := not_exists.mp hp
      have habs' : ∀ i, ¬Holds htab' i key := fun i hi => habs i ((hholds i key).mp hi)
      rw [find_absent hooks dup state hw flag habs, find_absent hooks dup state' hw' flag habs']
      rfl

theorem unchanged_of_same (hw : WellFormed htab) (h : SameEntries htab htab') :
    Unchanged hooks htab htab' :=
  unchanged_of_slots hw (sameEntries_wellFormed h hw) h.filled (sameKeys_holds h.toSameKeys)
    fun i _ _ => h.data i

end Unchanged

structure Vacated (htab htab' : Htab Callback) (idx : ℕ) : Prop where
  filled : htab'.filled = htab.filled
  holds : ∀ i key, Holds htab' i key ↔ i ≠ idx ∧ Holds htab i key
  data : ∀ i, i ≠ idx → (htab'.table i).data = (htab.table i).data

section Vacated

variable {hooks : Hooks Callback State} {htab htab' : Htab Callback} {idx : ℕ}

theorem vacated_put {key data : Str} {attr : Attr Callback}
    (h : SameEntries (putEntry htab key data idx attr) htab') :
    Vacated htab (hdeleteSlot htab' idx) idx := by
  refine ⟨?_, fun i k => ?_, fun i hi => ?_⟩
  · have hfilled := h.filled
    change htab'.filled - 1 = htab.filled
    rw [hfilled]
    rfl
  · rw [hdeleteSlot_holds, sameKeys_holds h.toSameKeys]
    refine and_congr_right fun hi => ?_
    unfold Holds
    rw [putEntry_table, if_neg hi]
    rfl
  · rw [hdeleteSlot_table, if_neg hi, h.data, putEntry_table, if_neg hi]

theorem unchanged_of_vacated (hw : WellFormed htab) (hw' : WellFormed htab')
    (hfree : (htab.table idx).used ≤ 0) (h : Vacated htab htab' idx) : Unchanged hooks htab htab' := by
  have hne : ∀ i key, Holds htab i key → i ≠ idx := by
    rintro i key hi rfl
    have hpos := hi.2.1
    lia
  refine unchanged_of_slots hw hw' h.filled (fun i key => ?_) fun i key hi => h.data i (hne i key hi)
  rw [h.holds]
  exact and_iff_right_of_imp (hne i key)

theorem changed_of_vacated (hw : WellFormed htab) {key : Str} (hlive : Holds htab idx key)
    (h : Vacated htab htab' idx) : ¬Unchanged hooks htab htab' := by
  intro hsame
  obtain ⟨key', data, hkey, hdata, -⟩ := hw.used idx hlive.1.1 hlive.1.2 hlive.2.1
  obtain rfl : key = key' := some.inj (hlive.2.2.symm.trans hkey)
  have hmem : (key, data) ∈ livePairs htab := ⟨idx, hlive, hdata⟩
  rw [← hsame.pairs] at hmem
  obtain ⟨i, hi, -⟩ := hmem
  obtain ⟨hne, hi'⟩ := (h.holds i key).mp hi
  exact hne (hw.unique i idx key hi' hlive)

end Vacated

def Vetoed (hooks : Hooks Callback State) (htab : Htab Callback) (state : State) (i : ℕ) (key : Str)
    (newval : Option Str) (op : EnvOp) (flag : ℕ) : Prop :=
  hooks.changeOk (htab.table i) newval op flag = true ∨
    (runCallback hooks htab state i key newval op flag).1 = true

def Taken (hooks : Hooks Callback State) (htab : Htab Callback) (state : State) (key data : Str)
    (flag idx : ℕ) : Prop :=
  let i := hooks.init state (putEntry htab key data idx (htab.table idx).attr) idx
  ¬Vetoed hooks (putEntry htab key data idx i.2) i.1 idx key (some data) .create flag

/-- Both allocations of a new entry succeed, and it has a place or is not rejected; the
copy of an overwritten value succeeds, or is not made. -/
def Safe (hooks : Hooks Callback State) (dup : Dup) (htab : Htab Callback) (state : State) :
    Update → Prop
  | .enter key data flag =>
    (∃ i, Holds htab i key ∧
      (dup.data = true ∨ Vetoed hooks htab state i key (some data) .overwrite flag)) ∨
    (∀ i, ¬Holds htab i key) ∧ (htab.filled = htab.size ∨ (dup.key = true ∧ dup.data = true) ∧
      (RoomFor htab key ∨ Taken hooks htab state key data flag (firstHash htab.size key)))
  | .delete _ _ => True

section Fail

variable {hooks : Hooks Callback State} {dup : Dup} {htab : Htab Callback} {state : State}
  {key data : Str} {flag : ℕ}

variable {idx : ℕ}

theorem createEntry_taken (h : Taken hooks htab state key data flag idx) :
    (createEntry hooks ⟨true, true⟩ htab state key data flag (firstHash htab.size key) idx).ret = 1 := by
  obtain ⟨hok, hcall⟩ := not_or.mp h
  rw [createEntry_eq]
  dsimp only
  rw [if_neg hok, if_neg hcall]

theorem createEntry_rejected (h : ¬Taken hooks htab state key data flag idx) :
    ∃ r, createEntry hooks ⟨true, true⟩ htab state key data flag (firstHash htab.size key) idx = r ∧
      r.ret = 0 ∧ Vacated htab r.tab idx := by
  refine ⟨_, rfl, ?_⟩
  have hveto := not_not.mp h
  rw [createEntry_eq]
  dsimp only
  split_ifs with hok hcall
  · exact ⟨rfl, vacated_put (SameEntries.refl _)⟩
  · exact ⟨rfl, vacated_put (runCallback_same hooks _ _ _ _ _ _ _)⟩
  · exact absurd hveto (not_or.mpr ⟨hok, hcall⟩)

theorem createEntry_enomem {hval : ℕ} (hidx : 1 ≤ idx ∧ idx ≤ htab.size) (hpos : 1 ≤ hval)
    (hdup : ¬(dup.key = true ∧ dup.data = true)) :
    (createEntry hooks dup htab state key data flag hval idx).ret = 0 ∧
      ¬Unchanged hooks htab (createEntry hooks dup htab state key data flag hval idx).tab := by
  have hnull : (!dup.key || !dup.data) = true := by
    cases hk : dup.key
    · rfl
    · cases hd : dup.data
      · rfl
      · exact absurd ⟨hk, hd⟩ hdup
  unfold createEntry
  dsimp only
  rw [if_pos hnull]
  refine ⟨rfl, fun h => ?_⟩
  have hwhole := h.whole idx hidx.1 hidx.2
  rw [set_table, if_pos rfl] at hwhole
  obtain ⟨hkey, hdata⟩ := hwhole (by simp only; lia)
  refine hdup ⟨?_, ?_⟩
  · by_contra hk
    exact hkey (if_neg hk)
  · by_contra hd
    exact hdata (if_neg hd)

variable {i : ℕ}

theorem overwrite_enomem (hi : Holds htab i key)
    (h : ¬Vetoed hooks htab state i key (some data) .overwrite flag) (hdup : dup.data = false) :
    (overwriteEntry hooks dup htab state key data flag i).ret = 0 ∧ ¬Unchanged hooks htab
      (overwriteEntry hooks dup htab state key data flag i).tab := by
  obtain ⟨hok, hcall⟩ := not_or.mp h
  have hsame := runCallback_same hooks htab state i key (some data) .overwrite flag
  unfold overwriteEntry
  dsimp only
  rw [if_neg hok, if_neg hcall, hdup]
  simp only [Bool.false_eq_true, if_false]
  refine ⟨trivial, fun hkept => ?_⟩
  have hwhole := hkept.whole i hi.1.1 (hi.1.2.trans_eq hsame.size.symm)
  rw [set_table, if_pos rfl, hsame.used] at hwhole
  exact (hwhole hi.2.1).2 rfl

variable (hw : WellFormed htab)

include hw

theorem enter_crowded (habs : ∀ i, ¬Holds htab i key) (hfull : htab.filled ≠ htab.size)
    (hroom : ¬RoomFor htab key) : (∃ key', Holds htab (firstHash htab.size key) key') ∧
      hsearchR hooks dup htab state key (.enter data) flag = some
        (createEntry hooks dup htab state key data flag (firstHash htab.size key)
          (firstHash htab.size key)) := by
  obtain ⟨i, n, hf, hni, htouched, hend⟩ := probeFor_absent hw habs
  obtain ⟨hpos, hlt⟩ := firstHash_mem hw.large key
  obtain ⟨hnone, hdel⟩ := not_or.mp hroom
  have hused : (htab.table (firstHash htab.size key)).used ≠ 0 :=
    fun h0 => hnone ⟨_, ⟨hpos, hlt.le⟩, h0⟩
  have hsign := hw.sign _ hpos hlt.le
  obtain ⟨key', -, hkey, -⟩ := hw.used _ hpos hlt.le (by lia)
  have hi : i = firstHash htab.size key := by
    rcases hend with ⟨-, hfree⟩ | ⟨-, hi⟩
    · exact absurd ⟨i, hni ▸ slotAt_mem hw.large key n, not_not.mp hfree⟩ hnone
    · exact hi
  refine ⟨⟨key', ⟨hpos, hlt.le⟩, by lia, hkey⟩, ?_⟩
  simp only [hsearchR, hf, if_neg hfull, firstDeleted, if_neg hdel, ne_eq, not_true_eq_false, if_false,
    hi]

theorem vetoed_overwrite (h : Vetoed hooks htab state i key (some data) .overwrite flag) :
    (overwriteEntry hooks dup htab state key data flag i).ret = 0 ∧ Unchanged hooks htab
      (overwriteEntry hooks dup htab state key data flag i).tab := by
  unfold overwriteEntry
  dsimp only
  split_ifs with hok hcall
  · exact ⟨rfl, unchanged_of_same hw (SameEntries.refl htab)⟩
  · exact ⟨rfl, unchanged_of_same hw (runCallback_same hooks _ _ _ _ _ _ _)⟩
  · exact absurd h (not_or.mpr ⟨hok, hcall⟩)
  · exact absurd h (not_or.mpr ⟨hok, hcall⟩)

theorem overwrite_failsClean (hi : Holds htab i key) :
    FailsClean hooks dup htab state (.enter key data flag) ↔
      dup.data = true ∨ Vetoed hooks htab state i key (some data) .overwrite flag := by
  have hrun : Update.run hooks dup htab state (.enter key data flag) =
      some (overwriteEntry hooks dup htab state key data flag i) :=
    enter_present hooks dup state hw flag data hi
  by_cases hveto : Vetoed hooks htab state i key (some data) .overwrite flag
  · exact iff_of_true ⟨_, hrun, fun _ => (vetoed_overwrite hw hveto).2⟩ (.inr hveto)
  · rw [or_iff_left hveto]
    cases hdup : dup.data with
    | false =>
      obtain ⟨hret, hbad⟩ := overwrite_enomem hi hveto hdup
      refine iff_of_false ?_ (by simp)
      rintro ⟨r, hr, h⟩
      obtain rfl := some.inj (hrun.symm.trans hr)
      exact hbad (h hret)
    | true =>
      obtain ⟨hok, hcall⟩ := not_or.mp hveto
      refine iff_of_true ⟨_, hrun, fun hret => ?_⟩ rfl
      unfold overwriteEntry at hret
      dsimp only at hret
      rw [if_neg hok, if_neg hcall, if_pos hdup] at hret
      have hpos := hi.1.1
      change i = 0 at hret
      lia

theorem create_failsClean (habs : ∀ i, ¬Holds htab i key) (hfresh : Fresh htab key idx)
    (hrun : Update.run hooks ⟨true, true⟩ htab state (.enter key data flag) =
      some (createEntry hooks ⟨true, true⟩ htab state key data flag (firstHash htab.size key) idx)) :
    FailsClean hooks ⟨true, true⟩ htab state (.enter key data flag) := by
  refine ⟨_, hrun, fun hret => ?_⟩
  have hkept : WellFormed
      (createEntry hooks ⟨true, true⟩ htab state key data flag (firstHash htab.size key) idx).tab :=
    outcome_wellFormed hw (createEntry_outcome habs hfresh)
  by_cases htaken : Taken hooks htab state key data flag idx
  · rw [createEntry_taken htaken] at hret
    cases hret
  · obtain ⟨r, rfl, -, hvacated⟩ := createEntry_rejected htaken
    exact unchanged_of_vacated hw hkept hfresh.2.1 hvacated

theorem crowded_failsClean (habs : ∀ i, ¬Holds htab i key) (hfull : htab.filled ≠ htab.size)
    (hroom : ¬RoomFor htab key) :
    FailsClean hooks ⟨true, true⟩ htab state (.enter key data flag) ↔
      Taken hooks htab state key data flag (firstHash htab.size key) := by
  obtain ⟨⟨key', hlive⟩, hrun⟩ := enter_crowded hw habs hfull hroom
  by_cases htaken : Taken hooks htab state key data flag (firstHash htab.size key)
  · refine iff_of_true ⟨_, hrun, fun hret => ?_⟩ htaken
    rw [createEntry_taken htaken] at hret
    cases hret
  · refine iff_of_false ?_ htaken
    rintro ⟨r, hr, h⟩
    obtain ⟨r', hr', hret, hvacated⟩ := createEntry_rejected htaken
    obtain rfl : r' = r := hr'.symm.trans (some.inj (hrun.symm.trans hr))
    exact changed_of_vacated hw hlive hvacated (h hret)

theorem new_failsClean (habs : ∀ i, ¬Holds htab i key) (hfull : htab.filled ≠ htab.size) :
    FailsClean hooks dup htab state (.enter key data flag) ↔ (dup.key = true ∧ dup.data = true) ∧
      (RoomFor htab key ∨ Taken hooks htab state key data flag (firstHash htab.size key)) := by
  have hplace : ∃ idx, (1 ≤ idx ∧ idx ≤ htab.size) ∧
      Update.run hooks dup htab state (.enter key data flag) =
        some (createEntry hooks dup htab state key data flag (firstHash htab.size key) idx) ∧
      (RoomFor htab key → Fresh htab key idx) := by
    by_cases hroom : RoomFor htab key
    · obtain ⟨idx, hfresh, hrun⟩ := enter_absent hooks dup state hw flag data habs hfull hroom
      exact ⟨idx, hfresh.1, hrun, fun _ => hfresh⟩
    · obtain ⟨⟨key', hlive⟩, hrun⟩ := enter_crowded hw habs hfull hroom
      exact ⟨_, hlive.1, hrun, fun h => absurd h hroom⟩
  obtain ⟨idx, hidx, hrun, hfresh⟩ := hplace
  by_cases hdup : dup.key = true ∧ dup.data = true
  · rw [and_iff_right hdup]
    obtain rfl : dup = ⟨true, true⟩ := by
      cases dup
      simpa using hdup
    by_cases hroom : RoomFor htab key
    · exact iff_of_true (create_failsClean hw habs (hfresh hroom) hrun) (.inl hroom)
    · rw [or_iff_right hroom]
      exact crowded_failsClean hw habs hfull hroom
  · obtain ⟨hret, hbad⟩ : (createEntry hooks dup htab state key data flag
        (firstHash htab.size key) idx).ret = 0 ∧ ¬Unchanged hooks htab
        (createEntry hooks dup htab state key data flag (firstHash htab.size key) idx).tab :=
      createEntry_enomem hidx (firstHash_mem hw.large key).1 hdup
    refine iff_of_false ?_ fun h => hdup h.1
    rintro ⟨r, hr, h⟩
    obtain rfl := some.inj (hrun.symm.trans hr)
    exact hbad (h hret)

theorem delete_failsClean : FailsClean hooks dup htab state (.delete key flag) := by
  by_cases hp : ∃ i, Holds htab i key
  · obtain ⟨i, hi⟩ := hp
    unfold FailsClean Update.run hdeleteR
    simp only [probeFor_present hw hi]
    split_ifs with hok hcall
    · exact ⟨_, rfl, fun _ => unchanged_of_same hw (SameEntries.refl htab)⟩
    · exact ⟨_, rfl, fun _ => unchanged_of_same hw (runCallback_same hooks _ _ _ _ _ _ _)⟩
    · exact ⟨_, rfl, fun h => absurd h Nat.one_ne_zero⟩
  · exact ⟨_, delete_absent hooks state hw flag (not_exists.mp hp),
      fun _ => unchanged_of_same hw (SameEntries.refl htab)⟩

end Fail

/-- An update that fails has changed nothing, exactly when it is safe. -/
theorem failsClean_iff (hooks : Hooks Callback State) (dup : Dup) (htab : Htab Callback)
    (hw : WellFormed htab) (state : State) (c : Update) :
    FailsClean hooks dup htab state c ↔ Safe hooks dup htab state c := by
  cases c with
  | delete key flag => exact iff_of_true (delete_failsClean hw) trivial
  | enter key data flag =>
    rw [Safe]
    by_cases hp : ∃ i, Holds htab i key
    · obtain ⟨i, hi⟩ := hp
      rw [overwrite_failsClean hw hi]
      constructor
      · exact fun h => .inl ⟨i, hi, h⟩
      · rintro (⟨j, hj, h⟩ | ⟨habs, -⟩)
        · rwa [hw.unique i j key hi hj]
        · exact absurd hi (habs i)
    · have habs := not_exists.mp hp
      rw [or_iff_right fun ⟨i, hi, _⟩ => habs i hi, and_iff_right habs]
      by_cases hfull : htab.filled = htab.size
      · refine iff_of_true ?_ (.inl hfull)
        exact ⟨_, enter_full hooks dup state hw flag data habs hfull,
          fun _ => unchanged_of_same hw (SameEntries.refl htab)⟩
      · rw [new_failsClean hw habs hfull, or_iff_right hfull]

/- A new entry that the check rejects. -/
theorem failsClean_iff_rejected : ∃ htab, hcreateR Unit 5 = some htab ∧
    FailsClean { plainHooks with changeOk := fun _ _ _ _ => true } ⟨true, true⟩ htab ()
      (.enter [97] [49] 0) := by
  obtain ⟨htab, hcreate⟩ : ∃ htab, hcreateR Unit 5 = some htab := ⟨_, rfl⟩
  obtain rfl : htab = ⟨5, 0, fun _ => emptySlot Unit⟩ :=
    some.inj (hcreate.symm.trans (by rfl))
  have hw : WellFormed (⟨5, 0, fun _ => emptySlot Unit⟩ : Htab Unit) :=
    (emptyTable_wellFormed (by decide) le_rfl).1
  have habs : ∀ i, ¬Holds (⟨5, 0, fun _ => emptySlot Unit⟩ : Htab Unit) i [97] :=
    fun i hi => absurd hi.2.1 (lt_irrefl 0)
  refine ⟨_, hcreate, (failsClean_iff _ _ _ hw () _).mpr (.inr ⟨habs, .inr ⟨⟨rfl, rfl⟩, .inl ?_⟩⟩)⟩
  exact .inl ⟨1, by decide, rfl⟩

/- The copy of a new value fails: the old one is gone. -/
theorem overwrite_loses_value : ∃ htab m, Run plainHooks CallOk htab () m ∧ m [97] = some [49] ∧
    ¬FailsClean plainHooks ⟨true, false⟩ htab () (.enter [97] [50] 0) := by
  have h0 : Run plainHooks CallOk _ () _ := .create 5 () rfl (by decide) (by decide)
  have h1 := h0.call (c := .enter [97] [49] 0) (.inr (.inr (.inl ⟨1, by decide, rfl⟩))) rfl
  obtain ⟨hw, hm⟩ := run_represents plainHooks_accepts h1
  refine ⟨_, _, h1, by decide, fun h => ?_⟩
  obtain ⟨i, hi, -⟩ := (hm [97] [49]).mp (by decide)
  rcases (overwrite_failsClean hw hi).mp h with hdata | hcheck | hcall
  · cases hdata
  · cases hcheck
  · unfold runCallback at hcall
    split at hcall
    · cases hcall
    · cases hcall

end UBoot.Env
