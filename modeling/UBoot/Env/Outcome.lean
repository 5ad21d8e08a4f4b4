import UBoot.Env.FiniteMap

/-!
# What a call can do

All ways in which ENTER and delete can end when the hooks may reject. Invariants over
runs are proved from these cases.
-/

namespace UBoot.Env

open Option

variable {Callback State : Type}

def Call.change : Call → Option (Str × Option Str × EnvOp × ℕ)
  | .enter key data flag => some (key, some data, .overwrite, flag)
  | .find _ _ => none
  | .delete key flag => some (key, none, .delete, flag)

/-- The outcomes of a call: nothing changes; a callback rejects the change of an entry; the entry is
overwritten or deleted; an entry is created, or taken back by the check or the callback. -/
inductive Outcome (hooks : Hooks Callback State) (htab : Htab Callback) (state : State) :
    Call → Reply Callback State → Prop where
  | same {c : Call} {r : Reply Callback State} (ht : r.tab = htab) (hs : r.state = state) :
      Outcome hooks htab state c r
  | vetoed {c : Call} {r : Reply Callback State} {i flag : ℕ} {key : Str} {newval : Option Str}
      {op : EnvOp} (hc : c.change = some (key, newval, op, flag)) (hi : Holds htab i key)
      (hrun : runCallback hooks htab state i key newval op flag = (true, r.tab, r.state)) :
      Outcome hooks htab state c r
  | overwritten {r : Reply Callback State} {i flag : ℕ} {key data : Str} {htab' : Htab Callback}
      (hi : Holds htab i key)
      (hok : hooks.changeOk (htab.table i) (some data) .overwrite flag = false)
      (hrun : runCallback hooks htab state i key (some data) .overwrite flag =
        (false, htab', r.state))
      (ht : r.tab = htab'.set i { htab'.table i with data := some data }) :
      Outcome hooks htab state (.enter key data flag) r
  | deleted {r : Reply Callback State} {i flag : ℕ} {key : Str} {htab' : Htab Callback}
      (hi : Holds htab i key) (hok : hooks.changeOk (htab.table i) none .delete flag = false)
      (hrun : runCallback hooks htab state i key none .delete flag = (false, htab', r.state))
      (ht : r.tab = hdeleteSlot htab' i) : Outcome hooks htab state (.delete key flag) r
  | created {r : Reply Callback State} {idx flag : ℕ} {key data : Str} {attr : Attr Callback}
      {state' : State} (habs : ∀ i, ¬Holds htab i key) (hfresh : Fresh htab key idx)
      (hinit : hooks.init state (putEntry htab key data idx (htab.table idx).attr) idx = (state', attr))
      (hok : hooks.changeOk ((putEntry htab key data idx attr).table idx) (some data) .create flag =
        false)
      (hrun : runCallback hooks (putEntry htab key data idx attr) state' idx key (some data) .create
        flag = (false, r.tab, r.state)) :
      Outcome hooks htab state (.enter key data flag) r
  | refused {r : Reply Callback State} {idx flag : ℕ} {key data : Str} {attr : Attr Callback}
      (habs : ∀ i, ¬Holds htab i key) (hfresh : Fresh htab key idx)
      (hinit : hooks.init state (putEntry htab key data idx (htab.table idx).attr) idx =
        (r.state, attr))
      (ht : r.tab = hdeleteSlot (putEntry htab key data idx attr) idx) :
      Outcome hooks htab state (.enter key data flag) r
  | reverted {r : Reply Callback State} {idx flag : ℕ} {key data : Str} {attr : Attr Callback}
      {state' : State} {htab' : Htab Callback} (habs : ∀ i, ¬Holds htab i key)
      (hfresh : Fresh htab key idx)
      (hinit : hooks.init state (putEntry htab key data idx (htab.table idx).attr) idx = (state', attr))
      (hrun : runCallback hooks (putEntry htab key data idx attr) state' idx key (some data) .create
        flag = (true, htab', r.state))
      (ht : r.tab = hdeleteSlot htab' idx) : Outcome hooks htab state (.enter key data flag) r

section Cases

variable {hooks : Hooks Callback State} {htab : Htab Callback} {state : State}

theorem createEntry_outcome {key data : Str} {flag idx : ℕ} (habs : ∀ i, ¬Holds htab i key)
    (hfresh : Fresh htab key idx) :
    Outcome hooks htab state (.enter key data flag)
      (createEntry hooks ⟨true, true⟩ htab state key data flag (firstHash htab.size key) idx) := by
  rw [createEntry_eq]
  obtain ⟨r, hr⟩ : ∃ r, r = hooks.init state (putEntry htab key data idx (htab.table idx).attr) idx :=
    ⟨_, rfl⟩
  obtain ⟨state', attr⟩ := r
  simp only [← hr]
  obtain ⟨run, hrun⟩ : ∃ run, run = runCallback hooks (putEntry htab key data idx attr) state' idx key
    (some data) .create flag := ⟨_, rfl⟩
  obtain ⟨rej, htab', state''⟩ := run
  simp only [← hrun]
  by_cases hok : hooks.changeOk ((putEntry htab key data idx attr).table idx) (some data) .create flag =
      true
  · rw [if_pos hok]
    exact .refused habs hfresh hr.symm rfl
  · rw [if_neg hok]
    cases rej with
    | true => exact .reverted habs hfresh hr.symm hrun.symm rfl
    | false => exact .created habs hfresh hr.symm (Bool.eq_false_iff.mpr hok) hrun.symm

theorem overwriteEntry_outcome {key data : Str} {flag i : ℕ} (hi : Holds htab i key) :
    Outcome hooks htab state (.enter key data flag)
      (overwriteEntry hooks ⟨true, true⟩ htab state key data flag i) := by
  unfold overwriteEntry
  obtain ⟨run, hrun⟩ : ∃ run, run = runCallback hooks htab state i key (some data) .overwrite flag :=
    ⟨_, rfl⟩
  obtain ⟨rej, htab', state'⟩ := run
  simp only [← hrun]
  by_cases hok : hooks.changeOk (htab.table i) (some data) .overwrite flag = true
  · rw [if_pos hok]
    exact .same rfl rfl
  · rw [if_neg hok]
    cases rej with
    | true => exact .vetoed rfl hi hrun.symm
    | false => exact .overwritten hi (Bool.eq_false_iff.mpr hok) hrun.symm rfl

theorem hdeleteR_outcome (hw : WellFormed htab) {key : Str} {flag i : ℕ} (hi : Holds htab i key)
    {r : Reply Callback State} (hr : hdeleteR hooks htab state key flag = some r) :
    Outcome hooks htab state (.delete key flag) r := by
  simp only [hdeleteR, probeFor_present hw hi] at hr
  obtain ⟨run, hrun⟩ : ∃ run, run = runCallback hooks htab state i key none .delete flag := ⟨_, rfl⟩
  obtain ⟨rej, htab', state'⟩ := run
  simp only [← hrun] at hr
  by_cases hok : hooks.changeOk (htab.table i) none .delete flag = true
  · rw [if_pos hok] at hr
    rw [← some.inj hr]
    exact .same rfl rfl
  · rw [if_neg hok] at hr
    cases rej with
    | true =>
      rw [← some.inj hr]
      exact .vetoed rfl hi hrun.symm
    | false =>
      rw [← some.inj hr]
      exact .deleted hi (Bool.eq_false_iff.mpr hok) hrun.symm rfl

/-- Every call that meets `CallOk` has one of the outcomes. -/
theorem exec_outcome (hw : WellFormed htab) {c : Call} {r : Reply Callback State}
    (hok : CallOk htab c) (hr : exec hooks htab state c = some r) : Outcome hooks htab state c r := by
  cases c with
  | find key flag =>
    have hr' : hsearchR hooks ⟨true, true⟩ htab state key .find flag = some r := hr
    by_cases hp : ∃ i, Holds htab i key
    · obtain ⟨i, hi⟩ := hp
      rw [find_present hooks _ state hw flag hi] at hr'
      rw [← some.inj hr']
      exact .same rfl rfl
    · rw [find_absent hooks _ state hw flag (not_exists.mp hp)] at hr'
      rw [← some.inj hr']
      exact .same rfl rfl
  | delete key flag =>
    have hr' : hdeleteR hooks htab state key flag = some r := hr
    by_cases hp : ∃ i, Holds htab i key
    · obtain ⟨i, hi⟩ := hp
      exact hdeleteR_outcome hw hi hr'
    · rw [delete_absent hooks state hw flag (not_exists.mp hp)] at hr'
      rw [← some.inj hr']
      exact .same rfl rfl
  | enter key data flag =>
    have hr' : hsearchR hooks ⟨true, true⟩ htab state key (.enter data) flag = some r := hr
    by_cases hp : ∃ i, Holds htab i key
    · obtain ⟨i, hi⟩ := hp
      rw [enter_present hooks _ state hw flag data hi] at hr'
      rw [← some.inj hr']
      exact overwriteEntry_outcome hi
    · have habs := not_exists.mp hp
      by_cases hfull : htab.filled = htab.size
      · rw [enter_full hooks _ state hw flag data habs hfull] at hr'
        rw [← some.inj hr']
        exact .same rfl rfl
      · obtain ⟨idx, hfresh, hcreate⟩ := enter_absent hooks ⟨true, true⟩ state hw flag data habs hfull
          ((hok.resolve_left hp).resolve_left hfull)
        rw [hcreate] at hr'
        rw [← some.inj hr']
        exact createEntry_outcome habs hfresh

end Cases

section Kept

variable {hooks : Hooks Callback State} {htab htab' : Htab Callback} {state state' : State}

theorem runCallback_table {i flag : ℕ} {key : Str} {newval : Option Str} {op : EnvOp} {rej : Bool}
    (hrun : runCallback hooks htab state i key newval op flag = (rej, htab', state')) :
    SameEntries htab htab' := by
  have h := runCallback_same hooks htab state i key newval op flag
  rwa [hrun] at h

theorem putEntry_self {key : Str} {idx : ℕ} (hw : WellFormed htab) (hfresh : Fresh htab key idx)
    (data : Str) (attr : Attr Callback) : Holds (putEntry htab key data idx attr) idx key :=
  (putEntry_holds hw hfresh data attr idx key).mpr (.inl ⟨rfl, rfl⟩)

theorem outcome_wellFormed (hw : WellFormed htab) {c : Call} {r : Reply Callback State}
    (h : Outcome hooks htab state c r) : WellFormed r.tab := by
  cases h with
  | same ht hs => rwa [ht]
  | vetoed hc hi hrun => exact sameEntries_wellFormed (runCallback_table hrun) hw
  | overwritten hi hok hrun ht =>
    have hsame := runCallback_table hrun
    rw [ht]
    refine sameKeys_wellFormed (sameKeys_setData _ _ _) (sameEntries_wellFormed hsame hw)
      fun j _ hd => ?_
    rw [set_table]
    split_ifs
    · rfl
    · exact hd
  | deleted hi hok hrun ht =>
    have hsame := runCallback_table hrun
    rw [ht]
    exact hdeleteSlot_wellFormed (sameEntries_wellFormed hsame hw)
      ((sameKeys_holds hsame.toSameKeys _ _).mpr hi)
  | created habs hfresh hinit hok hrun =>
    exact sameEntries_wellFormed (runCallback_table hrun) (putEntry_wellFormed hw hfresh habs _ _)
  | refused habs hfresh hinit ht =>
    rw [ht]
    exact hdeleteSlot_wellFormed (putEntry_wellFormed hw hfresh habs _ _)
      (putEntry_self hw hfresh _ _)
  | reverted habs hfresh hinit hrun ht =>
    have hsame := runCallback_table hrun
    rw [ht]
    exact hdeleteSlot_wellFormed (sameEntries_wellFormed hsame (putEntry_wellFormed hw hfresh habs _ _))
      ((sameKeys_holds hsame.toSameKeys _ _).mpr (putEntry_self hw hfresh _ _))

end Kept

end UBoot.Env
