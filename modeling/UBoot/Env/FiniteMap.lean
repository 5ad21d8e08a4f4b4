import UBoot.Env.TableOps

/-!
# The hash table as a finite map

Runs of ENTER, FIND and delete calls, next to the map that they are meant to keep. In a full table a
new key overwrites a live entry.
-/

namespace UBoot.Env

open Probe Function Option

variable {Callback State : Type}

structure Accepts (hooks : Hooks Callback State) : Prop where
  changeOk : ∀ slot newval op flag, hooks.changeOk slot newval op flag = false
  callback : ∀ c state htab key newval op flag,
    (hooks.callback c state htab key newval op flag).1 = false

inductive Call where
  | enter (key data : Str) (flag : ℕ)
  | find (key : Str) (flag : ℕ)
  | delete (key : Str) (flag : ℕ)

def exec (hooks : Hooks Callback State) (htab : Htab Callback) (state : State) :
    Call → Option (Reply Callback State)
  | .enter key data flag => hsearchR hooks ⟨true, true⟩ htab state key (.enter data) flag
  | .find key flag => hsearchR hooks ⟨true, true⟩ htab state key .find flag
  | .delete key flag => hdeleteR hooks htab state key flag

/- What a call should do to the map: an ENTER of a new key fails when the table is full. -/
def Call.effect (htab : Htab Callback) (m : Str → Option Str) : Call → Str → Option Str
  | .enter key data _ =>
    if m key = none ∧ htab.filled = htab.size then m else update m key (some data)
  | .find _ _ => m
  | .delete key _ => update m key none

/-- The tables reached from one that `hcreate_r` made, of a prime size not below 5, by
calls that meet `ok`, with the map that the calls are meant to keep. -/
inductive Run (hooks : Hooks Callback State) (ok : Htab Callback → Call → Prop) :
    Htab Callback → State → (Str → Option Str) → Prop where
  | create {htab : Htab Callback} (nel : ℕ) (state : State) (h : hcreateR Callback nel = some htab)
      (hp : htab.size.Prime) (h5 : 5 ≤ htab.size) : Run hooks ok htab state fun _ => none
  | call {htab : Htab Callback} {state : State} {m : Str → Option Str} {c : Call}
      {r : Reply Callback State} (h : Run hooks ok htab state m) (hok : ok htab c)
      (hr : exec hooks htab state c = some r) : Run hooks ok r.tab r.state (c.effect htab m)

/- The calls that do not lose an entry: an ENTER of a new key needs a slot that was never
used, or a deleted slot as the first slot of the key, unless the table is full. -/
def CallOk (htab : Htab Callback) : Call → Prop
  | .enter key _ _ => (∃ i, Holds htab i key) ∨ htab.filled = htab.size ∨ RoomFor htab key
  | .find _ _ => True
  | .delete _ _ => True

def Represents (htab : Htab Callback) (m : Str → Option Str) : Prop :=
  ∀ key v, m key = some v ↔ ∃ i, Holds htab i key ∧ (htab.table i).data = some v

section Represent

variable {htab : Htab Callback} {m : Str → Option Str}

variable {key : Str}

theorem represents_absent (hw : WellFormed htab) (hm : Represents htab m) :
    m key = none ↔ ∀ i, ¬Holds htab i key := by
  constructor
  · intro hnone i hi
    obtain ⟨k, v, -, hv, -⟩ := hw.used i hi.1.1 hi.1.2 hi.2.1
    have hsome := (hm key v).mpr ⟨i, hi, hv⟩
    rw [hnone] at hsome
    simp at hsome
  · intro habs
    cases hv : m key with
    | none => rfl
    | some v =>
      obtain ⟨i, hi, -⟩ := (hm key v).mp hv
      exact absurd hi (habs i)

theorem represents_same {htab' : Htab Callback} (h : SameEntries htab htab')
    (hm : Represents htab m) : Represents htab' m := by
  intro key v
  rw [hm key v]
  simp only [sameKeys_holds h.toSameKeys, h.data]

variable {idx : ℕ}

theorem represents_put (hw : WellFormed htab) (hm : Represents htab m)
    (hf : Fresh htab key idx) (habs : ∀ i, ¬Holds htab i key) (data : Str) (attr : Attr Callback) :
    Represents (putEntry htab key data idx attr) (update m key (some data)) := by
  intro k v
  simp only [putEntry_holds hw hf, putEntry_table]
  by_cases hk : k = key
  · subst hk
    rw [update_self]
    constructor
    · intro hv
      exact ⟨idx, .inl ⟨rfl, rfl⟩, by rw [if_pos rfl]; exact hv⟩
    · rintro ⟨i, ⟨rfl, -⟩ | hi, hv⟩
      · rwa [if_pos rfl] at hv
      · exact absurd hi (habs i)
  · rw [update_of_ne hk, hm k v]
    constructor
    · rintro ⟨i, hi, hv⟩
      have hne : i ≠ idx := by
        rintro rfl
        have h1 := hi.2.1
        have h2 := hf.2.1
        lia
      exact ⟨i, .inr hi, by rw [if_neg hne]; exact hv⟩
    · rintro ⟨i, ⟨-, hc⟩ | hi, hv⟩
      · exact absurd hc hk
      · have hne : i ≠ idx := by
          rintro rfl
          have h1 := hi.2.1
          have h2 := hf.2.1
          lia
        rw [if_neg hne] at hv
        exact ⟨i, hi, hv⟩

theorem holds_ne {k : Str} {i : ℕ} (h : Holds htab idx key) (hk : ¬k = key) (hi : Holds htab i k) :
    i ≠ idx := by
  rintro rfl
  exact hk (some.inj (hi.2.2.symm.trans h.2.2))

theorem represents_overwrite (hw : WellFormed htab) (hm : Represents htab m)
    (h : Holds htab idx key) (data : Str) :
    Represents (htab.set idx { htab.table idx with data := some data })
      (update m key (some data)) := by
  intro k v
  simp only [sameKeys_holds (sameKeys_setData htab idx (some data)), set_table]
  by_cases hk : k = key
  · subst hk
    rw [update_self]
    constructor
    · intro hv
      exact ⟨idx, h, by rw [if_pos rfl]; exact hv⟩
    · rintro ⟨i, hi, hv⟩
      rwa [hw.unique i idx k hi h, if_pos rfl] at hv
  · rw [update_of_ne hk, hm k v]
    constructor
    · rintro ⟨i, hi, hv⟩
      exact ⟨i, hi, by rw [if_neg (holds_ne h hk hi)]; exact hv⟩
    · rintro ⟨i, hi, hv⟩
      rw [if_neg (holds_ne h hk hi)] at hv
      exact ⟨i, hi, hv⟩

theorem represents_delete (hw : WellFormed htab) (hm : Represents htab m)
    (h : Holds htab idx key) : Represents (hdeleteSlot htab idx) (update m key none) := by
  intro k v
  simp only [hdeleteSlot_holds, hdeleteSlot_table]
  by_cases hk : k = key
  · subst hk
    rw [update_self]
    constructor
    · intro hv
      simp at hv
    · rintro ⟨i, ⟨hne, hi⟩, -⟩
      exact absurd (hw.unique i idx k hi h) hne
  · rw [update_of_ne hk, hm k v]
    constructor
    · rintro ⟨i, hi, hv⟩
      exact ⟨i, ⟨holds_ne h hk hi, hi⟩, by rw [if_neg (holds_ne h hk hi)]; exact hv⟩
    · rintro ⟨i, ⟨hi', hi⟩, hv⟩
      rw [if_neg hi'] at hv
      exact ⟨i, hi, hv⟩

end Represent

/- Neither the check nor the callback that a new entry gets rejects it. -/
def Admits (hooks : Hooks Callback State) (key data : Str) (flag : ℕ) : Prop :=
  ∀ state htab idx, (htab.table idx).key = some key →
    hooks.changeOk { htab.table idx with attr := (hooks.init state htab idx).2 } (some data) .create
      flag = false ∧
    ∀ c state' htab', (hooks.init state htab idx).2.callback = some c →
      (hooks.callback c state' htab' key (some data) .create flag).1 = false

variable {hooks : Hooks Callback State}

theorem createEntry_admits {key data : Str} {flag : ℕ}
    (h : Admits hooks key data flag) (htab : Htab Callback) (state : State) (idx : ℕ) :
    ∃ attr r, createEntry hooks ⟨true, true⟩ htab state key data flag (firstHash htab.size key) idx =
      r ∧ r.ret = 1 ∧ SameEntries (putEntry htab key data idx attr) r.tab := by
  obtain ⟨htab₀, h₀⟩ : ∃ t, t = putEntry htab key data idx (htab.table idx).attr := ⟨_, rfl⟩
  have hidx : htab₀.table idx = ⟨firstHash htab.size key, some key, some data,
      (htab.table idx).attr⟩ := by rw [h₀, putEntry_table, if_pos rfl]
  obtain ⟨hchange, hcall⟩ := h state htab₀ idx (by rw [hidx])
  obtain ⟨htab₁, h₁⟩ : ∃ t, t = putEntry htab key data idx (hooks.init state htab₀ idx).2 := ⟨_, rfl⟩
  have hslot : htab₁.table idx = { htab₀.table idx with attr := (hooks.init state htab₀ idx).2 } := by
    rw [h₁, putEntry_table, if_pos rfl, hidx]
  have hrun : ∀ state', (runCallback hooks htab₁ state' idx key (some data) .create flag).1 =
      false := by
    intro state'
    unfold runCallback
    cases hc : (htab₁.table idx).attr.callback with
    | none => rfl
    | some c => exact hcall c state' htab₁ (by rw [hslot] at hc; exact hc)
  refine ⟨(hooks.init state htab₀ idx).2, _, rfl, ?_⟩
  rw [createEntry_eq]
  simp only [← h₀, ← h₁, hslot, hchange, hrun, Bool.false_eq_true, if_false]
  exact ⟨trivial, runCallback_same _ _ _ _ _ _ _ _⟩

theorem Accepts.admits (ha : Accepts hooks) (key data : Str) (flag : ℕ) : Admits hooks key data flag := fun _ _ _ _ =>
  ⟨ha.changeOk _ _ _ _, fun c _ _ _ => ha.callback c _ _ _ _ _ _⟩

section Accepting

variable {hooks : Hooks Callback State} (ha : Accepts hooks) {htab : Htab Callback}

include ha

theorem runCallback_accepts (htab : Htab Callback) (state : State) (idx : ℕ) (key : Str)
    (newval : Option Str) (op : EnvOp) (flag : ℕ) :
    (runCallback hooks htab state idx key newval op flag).1 = false := by
  unfold runCallback
  cases (htab.table idx).attr.callback with
  | none => rfl
  | some c => exact ha.callback c state htab key newval op flag

theorem overwriteEntry_accepts (htab : Htab Callback) (state : State) (key data : Str) (flag idx : ℕ) :
    ∃ htab₁, SameEntries htab htab₁ ∧
      (overwriteEntry hooks ⟨true, true⟩ htab state key data flag idx).tab =
        htab₁.set idx { htab₁.table idx with data := some data } := by
  refine ⟨_, runCallback_same hooks htab state idx key (some data) .overwrite flag, ?_⟩
  simp only [overwriteEntry, ha.changeOk, runCallback_accepts ha, Bool.false_eq_true, if_false,
    if_true]

theorem delete_accepts (state : State) (hw : WellFormed htab) {key : Str} {i : ℕ}
    (h : Holds htab i key) (flag : ℕ) :
    ∃ htab₁ r, hdeleteR hooks htab state key flag = some r ∧ SameEntries htab htab₁ ∧
      r.tab = hdeleteSlot htab₁ i := by
  refine ⟨(runCallback hooks htab state i key none .delete flag).2.1,
    ⟨1, none, none, hdeleteSlot (runCallback hooks htab state i key none .delete flag).2.1 i,
      (runCallback hooks htab state i key none .delete flag).2.2⟩, ?_,
    runCallback_same hooks htab state i key none .delete flag, rfl⟩
  simp only [hdeleteR, probeFor_present hw h, ha.changeOk, runCallback_accepts ha,
    Bool.false_eq_true, if_false]

theorem exec_represents {state : State} {m : Str → Option Str} {c : Call} {r : Reply Callback State}
    (hw : WellFormed htab) (hm : Represents htab m) (hok : CallOk htab c)
    (hr : exec hooks htab state c = some r) : WellFormed r.tab ∧ Represents r.tab (c.effect htab m) := by
  cases c with
  | find key flag =>
    have hr' : hsearchR hooks ⟨true, true⟩ htab state key .find flag = some r := hr
    have htab' : r.tab = htab := by
      by_cases hp : ∃ i, Holds htab i key
      · obtain ⟨i, hi⟩ := hp
        rw [find_present hooks _ state hw flag hi] at hr'
        rw [← some.inj hr']
      · rw [find_absent hooks _ state hw flag (not_exists.mp hp)] at hr'
        rw [← some.inj hr']
    rw [htab']
    exact ⟨hw, hm⟩
  | delete key flag =>
    have hr' : hdeleteR hooks htab state key flag = some r := hr
    by_cases hp : ∃ i, Holds htab i key
    · obtain ⟨i, hi⟩ := hp
      obtain ⟨htab₁, r₁, hr₁, hsame, ht⟩ := delete_accepts ha state hw hi flag
      obtain rfl : r₁ = r := some.inj (hr₁.symm.trans hr')
      have hw₁ := sameEntries_wellFormed hsame hw
      have hi₁ := (sameKeys_holds hsame.toSameKeys i key).mpr hi
      rw [ht]
      exact ⟨hdeleteSlot_wellFormed hw₁ hi₁, represents_delete hw₁ (represents_same hsame hm) hi₁⟩
    · have habs := not_exists.mp hp
      rw [delete_absent hooks state hw flag habs] at hr'
      rw [← some.inj hr']
      have hnone := (represents_absent hw hm).mpr habs
      refine ⟨hw, ?_⟩
      rw [Call.effect, ← hnone, update_eq_self]
      exact hm
  | enter key data flag =>
    have hr' : hsearchR hooks ⟨true, true⟩ htab state key (.enter data) flag = some r := hr
    by_cases hp : ∃ i, Holds htab i key
    · obtain ⟨i, hi⟩ := hp
      have hsome : m key ≠ none := fun hn => (represents_absent hw hm).mp hn i hi
      rw [enter_present hooks _ state hw flag data hi] at hr'
      obtain ⟨htab₁, hsame, ht⟩ := overwriteEntry_accepts ha htab state key data flag i
      rw [← some.inj hr', ht, Call.effect, if_neg (fun h => hsome h.1)]
      have hw₁ := sameEntries_wellFormed hsame hw
      have hi₁ := (sameKeys_holds hsame.toSameKeys i key).mpr hi
      refine ⟨sameKeys_wellFormed (sameKeys_setData _ _ _) hw₁ fun j _ hd => ?_,
        represents_overwrite hw₁ (represents_same hsame hm) hi₁ data⟩
      rw [set_table]
      split_ifs
      · rfl
      · exact hd
    · have habs := not_exists.mp hp
      have hnone := (represents_absent hw hm).mpr habs
      by_cases hfull : htab.filled = htab.size
      · rw [enter_full hooks _ state hw flag data habs hfull] at hr'
        rw [← some.inj hr', Call.effect, if_pos ⟨hnone, hfull⟩]
        exact ⟨hw, hm⟩
      · have hroom : RoomFor htab key := (hok.resolve_left hp).resolve_left hfull
        obtain ⟨idx, hfresh, hcreate⟩ := enter_absent hooks ⟨true, true⟩ state hw flag data habs
          hfull hroom
        rw [hcreate] at hr'
        obtain ⟨attr, r₁, hr₁, -, hsame⟩ := createEntry_admits (ha.admits key data flag) htab state idx
        obtain rfl : r₁ = r := hr₁.symm.trans (some.inj hr')
        rw [Call.effect, if_neg (fun h => hfull h.2)]
        exact ⟨sameEntries_wellFormed hsame (putEntry_wellFormed hw hfresh habs data attr),
          represents_same hsame (represents_put hw hm hfresh habs data attr)⟩

end Accepting

theorem emptyTable_wellFormed {size : ℕ} (hp : size.Prime) (h5 : 5 ≤ size) :
    WellFormed (Htab.mk size 0 fun _ => emptySlot Callback) ∧
      Represents (Htab.mk size 0 fun _ => emptySlot Callback) fun _ => none := by
  have hnone : ∀ i key, ¬Holds (Htab.mk size 0 fun _ => emptySlot Callback) i key := by
    intro i key h
    simpa [emptySlot] using h.2.1
  have hlive : liveSlots (Htab.mk size 0 fun _ => emptySlot Callback) = ∅ := by
    simp [liveSlots, emptySlot]
  refine ⟨⟨hp, h5, fun i _ _ hu => ?_, fun i j key hi => absurd hi (hnone i key),
    fun i key hi => absurd hi (hnone i key), by rw [hlive, Finset.card_empty], fun i _ _ => ?_⟩,
    fun key v => ?_⟩
  · simp [emptySlot] at hu
  · simp [emptySlot]
  · constructor
    · intro h
      simp at h
    · rintro ⟨i, hi, -⟩
      exact absurd hi (hnone i key)

variable {htab : Htab Callback}

theorem hcreateR_wellFormed {nel : ℕ} (h : hcreateR Callback nel = some htab) (hp : htab.size.Prime)
    (h5 : 5 ≤ htab.size) : WellFormed htab ∧ Represents htab fun _ => none := by
  obtain ⟨size, -, rfl⟩ := map_eq_some_iff.mp h
  exact emptyTable_wellFormed hp h5

theorem run_represents (ha : Accepts hooks) {state : State} {m : Str → Option Str}
    (h : Run hooks CallOk htab state m) : WellFormed htab ∧ Represents htab m := by
  induction h with
  | create nel state h hp h5 => exact hcreateR_wellFormed h hp h5
  | call _ hok hr ih => exact exec_represents ha ih.1 ih.2 hok hr

/-- The table is the map: every key sits in one slot, `filled` counts the live slots, FIND returns the
value or fails with ESRCH, and ENTER of a new key leaves all other entries in their slots: it adds the
key, or fails when the table is full. -/
structure Refines (hooks : Hooks Callback State) (htab : Htab Callback)
    (m : Str → Option Str) : Prop where
  slot : ∀ key v, m key = some v ↔ ∃ i, Holds htab i key ∧ (htab.table i).data = some v
  unique : ∀ i j key, Holds htab i key → Holds htab j key → i = j
  filled : htab.filled = (liveSlots htab).card
  find : ∀ state key flag v, m key = some v →
    ∃ i, hsearchR hooks ⟨true, true⟩ htab state key .find flag =
      some ⟨i, none, some i, htab, state⟩ ∧ 0 < i ∧ (htab.table i).data = some v
  notFound : ∀ state key flag, m key = none →
    hsearchR hooks ⟨true, true⟩ htab state key .find flag = some ⟨0, some .esrch, none, htab, state⟩
  full : ∀ state key data flag, m key = none → htab.filled = htab.size →
    hsearchR hooks ⟨true, true⟩ htab state key (.enter data) flag =
      some ⟨0, some .enomem, none, htab, state⟩
  added : ∀ state key data flag, m key = none → htab.filled ≠ htab.size →
    CallOk htab (.enter key data flag) →
    ∃ r, hsearchR hooks ⟨true, true⟩ htab state key (.enter data) flag = some r ∧ r.ret = 1 ∧
      (∃ i, Holds r.tab i key ∧ (r.tab.table i).data = some data) ∧
      ∀ i k, Holds htab i k → Holds r.tab i k ∧ (r.tab.table i).data = (htab.table i).data

theorem refines_of_represents (ha : Accepts hooks) {m : Str → Option Str} (hw : WellFormed htab) (hm : Represents htab m) :
    Refines hooks htab m where
  slot := hm
  unique := hw.unique
  filled := hw.count
  find state key flag v hv := by
    obtain ⟨i, hi, hd⟩ := (hm key v).mp hv
    exact ⟨i, find_present hooks _ state hw flag hi, hi.1.1, hd⟩
  notFound state key flag hn := find_absent hooks _ state hw flag ((represents_absent hw hm).mp hn)
  full state key data flag hn hfull :=
    enter_full hooks _ state hw flag data ((represents_absent hw hm).mp hn) hfull
  added state key data flag hn hfull hok := by
    have habs := (represents_absent hw hm).mp hn
    have hroom : RoomFor htab key := (hok.resolve_left (not_exists.mpr habs)).resolve_left hfull
    obtain ⟨idx, hfresh, hcreate⟩ :=
      enter_absent hooks ⟨true, true⟩ state hw flag data habs hfull hroom
    obtain ⟨attr, r, hr, hret, hsame⟩ := createEntry_admits (ha.admits key data flag) htab state idx
    have hholds := putEntry_holds hw hfresh data attr
    refine ⟨r, by rw [hcreate, hr], hret, ⟨idx, ?_, ?_⟩, fun i k hi => ⟨?_, ?_⟩⟩
    · rw [sameKeys_holds hsame.toSameKeys, hholds]
      exact .inl ⟨rfl, rfl⟩
    · rw [hsame.data, putEntry_table, if_pos rfl]
    · rw [sameKeys_holds hsame.toSameKeys, hholds]
      exact .inr hi
    · have hne : i ≠ idx := by
        rintro rfl
        have h1 := hi.2.1
        have h2 := hfresh.2.1
        lia
      rw [hsame.data, putEntry_table, if_neg hne]

/-- In every run whose calls meet `CallOk`, the hash table refines the finite map. -/
theorem htab_refines_map (hooks : Hooks Callback State) (ha : Accepts hooks)
    (htab : Htab Callback) (state : State) (m : Str → Option Str)
    (h : Run hooks CallOk htab state m) : Refines hooks htab m := by
  obtain ⟨hw, hm⟩ := run_represents ha h
  exact refines_of_represents ha hw hm

/- Hooks that accept everything and find neither callbacks nor flags. -/
def plainHooks : Hooks Unit Unit :=
  ⟨fun _ _ _ _ => false, fun _ _ _ _ _ _ _ => (false, (), fun _ a => a), fun _ _ _ => ((), ⟨none, 0⟩)⟩

theorem plainHooks_accepts : Accepts plainHooks := ⟨fun _ _ _ _ => rfl, fun _ _ _ _ _ _ _ => rfl⟩

/- Two keys whose probe sequences meet, a delete, and a key that reuses the slot. -/
theorem htab_refines_map_reuse : ∃ htab m, Run plainHooks CallOk htab () m ∧
    Refines plainHooks htab m ∧ m [97] = none ∧ m [102] = some [50] := by
  have h0 : Run plainHooks CallOk _ () _ := .create 4 () rfl (by decide) (by decide)
  have h1 := h0.call (c := .enter [97] [49] 0) (.inr (.inr (.inl ⟨1, by decide, rfl⟩))) rfl
  have h2 := h1.call (c := .enter [102] [50] 0) (.inr (.inr (.inl ⟨1, by decide, rfl⟩))) rfl
  have h3 := h2.call (c := .delete [97] 0) trivial rfl
  exact ⟨_, _, h3, htab_refines_map plainHooks plainHooks_accepts _ _ _ h3, by decide, by decide⟩

/- A table of 5 slots is filled, one entry deleted, and a key whose first slot is live entered: it
overwrites the entry of `b`, and `filled` is 5 with four live slots. -/
theorem htab_loses_entry : ∃ htab m, Run plainHooks (fun _ _ => True) htab () m ∧
    ¬Refines plainHooks htab m ∧ m [98] = some [50] ∧ htab.filled = 5 ∧
    (liveSlots htab).card = 4 ∧
    (hsearchR plainHooks ⟨true, true⟩ htab () [98] .find 0).map (fun r => r.errno) =
      some (some .esrch) := by
  have h0 : Run plainHooks (fun _ _ => True) _ () _ := .create 5 () rfl (by decide) (by decide)
  have h1 := h0.call (c := .enter [97] [49] 0) trivial rfl
  have h2 := h1.call (c := .enter [98] [50] 0) trivial rfl
  have h3 := h2.call (c := .enter [99] [51] 0) trivial rfl
  have h4 := h3.call (c := .enter [101] [52] 0) trivial rfl
  have h5 := h4.call (c := .enter [100] [53] 0) trivial rfl
  have h6 := h5.call (c := .delete [97] 0) trivial rfl
  have h7 := h6.call (c := .enter [103] [54] 0) trivial rfl
  refine ⟨_, _, h7, fun href => ?_, by decide, by decide, by decide, by decide⟩
  have hcount := href.filled
  revert hcount
  decide

end UBoot.Env

/-!
## Enumeration of a prefix (lib/hashtable.c, common/env_common.c)

`hmatch_r` finds the next live slot whose key starts with a text; `env_complete` calls it from 0 on
until it returns 0. The loop ends in front of the last slot.
-/

namespace UBoot.Env

open List Option

variable {Callback State : Type}

/- What the loop of `hmatch_r` looks for in a slot. -/
def slotMatches (text : Str) (slot : Slot Callback) : Bool :=
  0 < slot.used && slot.key.any fun key => text.isPrefixOf key

/-- `hmatch_r` (`hashtable.c:201-219`). -/
def hmatchR (htab : Htab Callback) (text : Str) (lastIdx : ℕ) : ℕ :=
  ((List.range' (lastIdx + 1) (htab.size - (lastIdx + 1))).find? fun idx =>
    slotMatches text (htab.table idx)).getD 0

/- The slots of `while ((idx = hmatch_r(text, idx, ...)))`; `none` is out of fuel. -/
def visits (htab : Htab Callback) (text : Str) : ℕ → ℕ → Option (List ℕ)
  | 0, _ => none
  | fuel + 1, idx =>
    let idx := hmatchR htab text idx
    if idx = 0 then some [] else (visits htab text fuel idx).map (idx :: ·)

def Matches (htab : Htab Callback) (text : Str) (idx : ℕ) : Prop :=
  ∃ key, Holds htab idx key ∧ text <+: key

/- The enumeration ends, and visits all of these entries once and no other. -/
def Enumerates (htab : Htab Callback) (text : Str) : Prop :=
  ∃ idxs, visits htab text (htab.size + 1) 0 = some idxs ∧ idxs.Nodup ∧
    ∀ idx, idx ∈ idxs ↔ Matches htab text idx

section Visits

variable {htab : Htab Callback} {text : Str} {idx : ℕ}

theorem slotMatches_iff (hidx : 1 ≤ idx ∧ idx ≤ htab.size) :
    slotMatches text (htab.table idx) = true ↔ Matches htab text idx := by
  unfold slotMatches Matches Holds
  simp only [Bool.and_eq_true, decide_eq_true_eq, Option.any_eq_true, isPrefixOf_iff_prefix]
  constructor
  · rintro ⟨hused, key, hkey, hpre⟩
    exact ⟨key, ⟨hidx, hused, hkey⟩, hpre⟩
  · rintro ⟨key, ⟨-, hused, hkey⟩, hpre⟩
    exact ⟨hused, key, hkey, hpre⟩

/- The slots behind `idx` that the loop can find. -/
def ahead (htab : Htab Callback) (text : Str) (idx : ℕ) : List ℕ :=
  (List.range' (idx + 1) (htab.size - (idx + 1))).filter fun i => slotMatches text (htab.table i)

theorem ahead_nodup (htab : Htab Callback) (text : Str) (idx : ℕ) : (ahead htab text idx).Nodup :=
  List.Nodup.filter _ nodup_range'

theorem mem_ahead {i : ℕ} : i ∈ ahead htab text idx ↔
    (idx < i ∧ i < htab.size) ∧ slotMatches text (htab.table i) = true := by
  unfold ahead
  rw [mem_filter, mem_range'_1]
  refine and_congr_left fun _ => ?_
  lia

theorem hmatchR_cases (htab : Htab Callback) (text : Str) (idx : ℕ) :
    hmatchR htab text idx = 0 ∧ ahead htab text idx = [] ∨
      idx < hmatchR htab text idx ∧ hmatchR htab text idx < htab.size ∧
        ahead htab text idx = hmatchR htab text idx :: ahead htab text (hmatchR htab text idx) := by
  unfold hmatchR
  cases hfind : (List.range' (idx + 1) (htab.size - (idx + 1))).find? fun i =>
      slotMatches text (htab.table i) with
  | none =>
    refine .inl ⟨rfl, filter_eq_nil_iff.mpr fun i hi => ?_⟩
    exact find?_eq_none.mp hfind i hi
  | some i =>
    obtain ⟨hmatch, hmem, hfirst⟩ := find?_range'_eq_some.mp hfind
    rw [mem_range'_1] at hmem
    refine .inr ⟨?_, ?_, ?_⟩
    · rw [getD_some]
      lia
    · rw [getD_some]
      lia
    · -- the slots in front of `i` do not match
      have hfront : (List.range' (idx + 1) (i - (idx + 1))).filter
          (fun j => slotMatches text (htab.table j)) = [] := by
        refine filter_eq_nil_iff.mpr fun j hj => ?_
        rw [mem_range'_1] at hj
        have hno := hfirst j hj.1 (by lia)
        rw [Bool.not_eq_true'] at hno
        rw [hno]
        exact Bool.false_ne_true
      have hsplit : List.range' (idx + 1) (htab.size - (idx + 1)) =
          List.range' (idx + 1) (i - (idx + 1)) ++ i :: List.range' (i + 1) (htab.size - (i + 1)) := by
        have hrest : i :: List.range' (i + 1) (htab.size - (i + 1)) =
            List.range' i (htab.size - i) := by
          rw [← range'_succ]
          congr 1
          lia
        have hjoin := range'_append_1 (s := idx + 1) (m := i - (idx + 1)) (n := htab.size - i)
        have hat : idx + 1 + (i - (idx + 1)) = i := by lia
        have hlen : i - (idx + 1) + (htab.size - i) = htab.size - (idx + 1) := by lia
        rw [hat, hlen] at hjoin
        rw [hrest, hjoin]
      rw [getD_some, ahead, hsplit, filter_append, hfront, nil_append]
      exact filter_cons_of_pos (p := fun j => slotMatches text (htab.table j)) hmatch

theorem visits_eq (fuel idx : ℕ) (hfuel : htab.size ≤ idx + fuel) :
    visits htab text (fuel + 1) idx = some (ahead htab text idx) := by
  induction fuel generalizing idx with
  | zero =>
    rw [visits]
    rcases hmatchR_cases htab text idx with ⟨hzero, hnil⟩ | ⟨hlt, hsize, -⟩
    · rw [if_pos hzero, hnil]
    · lia
  | succ fuel ih =>
    rw [visits]
    rcases hmatchR_cases htab text idx with ⟨hzero, hnil⟩ | ⟨hlt, hsize, hcons⟩
    · rw [if_pos hzero, hnil]
    · have hnext := ih (hmatchR htab text idx) (by lia)
      rw [if_neg (by lia), hnext, hcons]
      rfl

/-- The enumeration is complete exactly when the last slot has no entry for it. -/
theorem enumerates_iff (htab : Htab Callback) (text : Str) :
    Enumerates htab text ↔ ¬ Matches htab text htab.size := by
  have hvisits : visits htab text (htab.size + 1) 0 = some (ahead htab text 0) :=
    visits_eq htab.size 0 (by lia)
  constructor
  · rintro ⟨idxs, hidxs, -, hall⟩ hlast
    obtain rfl : ahead htab text 0 = idxs := some.inj (hvisits.symm.trans hidxs)
    have hmem := (mem_ahead.mp ((hall htab.size).mpr hlast)).1.2
    exact absurd hmem (lt_irrefl _)
  · intro hlast
    refine ⟨ahead htab text 0, hvisits, ahead_nodup htab text 0, fun i => ?_⟩
    rw [mem_ahead]
    constructor
    · rintro ⟨hi, hmatch⟩
      exact (slotMatches_iff (by lia)).mp hmatch
    · rintro hmatch
      obtain ⟨key, hholds, hpre⟩ := hmatch
      have hne : i ≠ htab.size := by
        rintro rfl
        exact hlast ⟨key, hholds, hpre⟩
      have hrange := hholds.1
      exact ⟨by lia, (slotMatches_iff hrange).mpr ⟨key, hholds, hpre⟩⟩

/- Three keys with the same first slot; the third one is in slot 5 of 5. -/
theorem last_slot_missed : ∃ htab m, Run plainHooks (fun _ _ => True) htab () m ∧
    m [108] = some [51] ∧ Matches htab [108] 5 ∧ visits htab [108] 6 0 = some [] ∧
    ¬ Enumerates htab [108] := by
  have h0 : Run plainHooks (fun _ _ => True) _ () _ := .create 5 () rfl (by decide) (by decide)
  have h1 := h0.call (c := .enter [98] [49] 0) trivial rfl
  have h2 := h1.call (c := .enter [103] [50] 0) trivial rfl
  have h3 := h2.call (c := .enter [108] [51] 0) trivial rfl
  refine ⟨_, _, h3, by decide, ⟨[108], by decide, prefix_rfl⟩, by decide, ?_⟩
  rintro ⟨idxs, hidxs, -, hall⟩
  have hmem := (hall 5).mpr ⟨[108], by decide, prefix_rfl⟩
  have hnil : idxs = [] := some.inj (hidxs.symm.trans (by decide))
  rw [hnil] at hmem
  exact absurd hmem not_mem_nil

end Visits

end UBoot.Env
