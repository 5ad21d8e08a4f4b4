import UBoot.Env.Probing

/-!
# Creating, overwriting and deleting entries

What the stores of `hsearch_r` and `hdelete_r` do to a well-formed table, for any
hooks. Callbacks and flags play no part in it.
-/

namespace UBoot.Env

open Probe

variable {Callback State : Type}

theorem set_table (htab : Htab Callback) (idx i : ℕ) (slot : Slot Callback) :
    (htab.set idx slot).table i = if i = idx then slot else htab.table i := by
  simp [Htab.set, Function.update_apply]

structure SameKeys (htab htab' : Htab Callback) : Prop where
  size : htab'.size = htab.size
  filled : htab'.filled = htab.filled
  used : ∀ i, (htab'.table i).used = (htab.table i).used
  key : ∀ i, (htab'.table i).key = (htab.table i).key

theorem SameKeys.refl (htab : Htab Callback) : SameKeys htab htab :=
  ⟨rfl, rfl, fun _ => rfl, fun _ => rfl⟩

theorem SameKeys.trans {h₁ h₂ h₃ : Htab Callback} (h : SameKeys h₁ h₂) (h' : SameKeys h₂ h₃) :
    SameKeys h₁ h₃ :=
  ⟨h'.size.trans h.size, h'.filled.trans h.filled, fun i => (h'.used i).trans (h.used i),
    fun i => (h'.key i).trans (h.key i)⟩

theorem sameKeys_mapAttr (htab : Htab Callback) (f : ℕ → Attr Callback → Attr Callback) :
    SameKeys htab (htab.mapAttr f) :=
  ⟨rfl, rfl, fun _ => rfl, fun _ => rfl⟩

theorem sameKeys_setData (htab : Htab Callback) (idx : ℕ) (data : Option Str) :
    SameKeys htab (htab.set idx { htab.table idx with data := data }) := by
  refine ⟨rfl, rfl, fun i => ?_, fun i => ?_⟩
  · rw [set_table]
    split_ifs with h
    · rw [h]
    · rfl
  · rw [set_table]
    split_ifs with h
    · rw [h]
    · rfl

section Same

variable {htab htab' : Htab Callback} (h : SameKeys htab htab')

include h

theorem sameKeys_holds (i : ℕ) (key : Str) : Holds htab' i key ↔ Holds htab i key := by
  unfold Holds
  rw [h.size, h.used, h.key]

theorem sameKeys_slotAt (key : Str) (j : ℕ) : slotAt htab' key j = slotAt htab key j := by
  unfold slotAt
  rw [h.size]

theorem sameKeys_touched (i : ℕ) : Touched htab' i ↔ Touched htab i := by
  unfold Touched
  rw [h.used]

theorem sameKeys_wellFormed (hw : WellFormed htab)
    (hd : ∀ i, 0 < (htab'.table i).used → (htab.table i).data.isSome → (htab'.table i).data.isSome) :
    WellFormed htab' := by
  refine ⟨h.size ▸ hw.prime, h.size ▸ hw.large, fun i h1 h2 hu => ?_, fun i j key hi hj => ?_,
    fun i key hi => ?_, ?_, fun i h1 h2 => ?_⟩
  · obtain ⟨key, data, hkey, hdata, hused⟩ := hw.used i h1 (h.size ▸ h2) (h.used i ▸ hu)
    obtain ⟨data', hdata'⟩ := Option.isSome_iff_exists.mp (hd i hu (by simp [hdata]))
    exact ⟨key, data', (h.key i).trans hkey, hdata', by rw [h.used, h.size]; exact hused⟩
  · rw [sameKeys_holds h] at hi hj
    exact hw.unique i j key hi hj
  · rw [sameKeys_holds h] at hi
    obtain ⟨n, hn, hni, hr⟩ := hw.reach i key hi
    refine ⟨n, h.size ▸ hn, (sameKeys_slotAt h key n).trans hni, fun j hj => ?_⟩
    rw [sameKeys_slotAt h, sameKeys_touched h]
    exact hr j hj
  · have hl : liveSlots htab' = liveSlots htab := by
      unfold liveSlots
      rw [h.size]
      simp only [h.used]
    rw [h.filled, hl]
    exact hw.count
  · rw [h.used]
    exact hw.sign i h1 (h.size ▸ h2)

end Same

/- A slot that a new key may take: it is not live, and the probe sequence of the key
meets no unused slot in front of it. -/
def Fresh (htab : Htab Callback) (key : Str) (idx : ℕ) : Prop :=
  (1 ≤ idx ∧ idx ≤ htab.size) ∧ (htab.table idx).used ≤ 0 ∧
    ∃ n < htab.size, slotAt htab key n = idx ∧ ∀ j < n, Touched htab (slotAt htab key j)

def putEntry (htab : Htab Callback) (key data : Str) (idx : ℕ) (attr : Attr Callback) :
    Htab Callback :=
  { htab.set idx ⟨firstHash htab.size key, some key, some data, attr⟩ with
    filled := htab.filled + 1 }

section Put

variable {htab : Htab Callback} {key : Str} {idx : ℕ}

theorem putEntry_table (htab : Htab Callback) (key data : Str) (idx i : ℕ) (attr : Attr Callback) :
    (putEntry htab key data idx attr).table i =
      if i = idx then ⟨firstHash htab.size key, some key, some data, attr⟩ else htab.table i :=
  set_table htab idx i _

theorem putEntry_holds (hw : WellFormed htab) (hf : Fresh htab key idx) (data : Str)
    (attr : Attr Callback) (i : ℕ) (k : Str) :
    Holds (putEntry htab key data idx attr) i k ↔ (i = idx ∧ k = key) ∨ Holds htab i k := by
  have hpos := (firstHash_mem hw.large key).1
  unfold Holds
  rw [putEntry_table]
  by_cases hi : i = idx
  · subst hi
    rw [if_pos rfl]
    constructor
    · rintro ⟨-, -, hk⟩
      exact .inl ⟨rfl, (Option.some.inj hk).symm⟩
    · rintro (⟨-, rfl⟩ | ⟨-, hu, -⟩)
      · exact ⟨hf.1, by simp only; lia, rfl⟩
      · have hle := hf.2.1
        lia
  · rw [if_neg hi]
    constructor
    · exact .inr
    · rintro (⟨hc, -⟩ | h)
      · exact absurd hc hi
      · exact h

theorem putEntry_wellFormed (hw : WellFormed htab) (hf : Fresh htab key idx)
    (habs : ∀ i, ¬Holds htab i key) (data : Str) (attr : Attr Callback) :
    WellFormed (putEntry htab key data idx attr) := by
  have hpos := (firstHash_mem hw.large key).1
  have hholds := putEntry_holds hw hf data attr
  have htouch : ∀ i, Touched htab i → Touched (putEntry htab key data idx attr) i := by
    intro i ht
    unfold Touched
    rw [putEntry_table]
    split_ifs
    · simp only
      lia
    · exact ht
  refine ⟨hw.prime, hw.large, fun i h1 h2 hu => ?_, fun i j k hi hj => ?_, fun i k hi => ?_, ?_,
    fun i h1 h2 => ?_⟩
  · rw [putEntry_table] at hu ⊢
    split_ifs with h
    · exact ⟨key, data, rfl, rfl, rfl⟩
    · rw [if_neg h] at hu
      exact hw.used i h1 h2 hu
  · rw [hholds] at hi hj
    rcases hi with ⟨rfl, rfl⟩ | hi
    · rcases hj with ⟨rfl, -⟩ | hj
      · rfl
      · exact absurd hj (habs j)
    · rcases hj with ⟨rfl, rfl⟩ | hj
      · exact absurd hi (habs i)
      · exact hw.unique i j k hi hj
  · rw [hholds] at hi
    rcases hi with ⟨rfl, rfl⟩ | hi
    · obtain ⟨-, -, n, hn, hni, hr⟩ := hf
      exact ⟨n, hn, hni, fun j hj => htouch _ (hr j hj)⟩
    · obtain ⟨n, hn, hni, hr⟩ := hw.reach i k hi
      exact ⟨n, hn, hni, fun j hj => htouch _ (hr j hj)⟩
  · have hl : liveSlots (putEntry htab key data idx attr) = insert idx (liveSlots htab) := by
      ext i
      simp only [liveSlots, Finset.mem_filter, Finset.mem_Icc, Finset.mem_insert, putEntry_table]
      by_cases hi : i = idx
      · have h1 := hf.1
        subst hi
        simp only [if_true, true_or, iff_true]
        exact ⟨h1, by lia⟩
      · rw [if_neg hi]
        simp only [hi, false_or]
        rfl
    have hnot : idx ∉ liveSlots htab := by
      simp only [liveSlots, Finset.mem_filter, not_and]
      intro _
      have h1 := hf.2.1
      lia
    rw [hl, Finset.card_insert_of_notMem hnot, ← hw.count]
    rfl
  · rw [putEntry_table]
    split_ifs
    · simp only
      lia
    · exact hw.sign i h1 h2

end Put

section Delete

variable {htab : Htab Callback} {idx : ℕ}

theorem hdeleteSlot_table (htab : Htab Callback) (idx i : ℕ) :
    (hdeleteSlot htab idx).table i =
      if i = idx then { htab.table idx with used := -1, attr := ⟨none, 0⟩ } else htab.table i :=
  set_table htab idx i _

theorem hdeleteSlot_holds (htab : Htab Callback) (idx i : ℕ) (k : Str) :
    Holds (hdeleteSlot htab idx) i k ↔ i ≠ idx ∧ Holds htab i k := by
  unfold Holds
  rw [hdeleteSlot_table]
  by_cases hi : i = idx
  · rw [if_pos hi]
    simp [hi]
  · rw [if_neg hi]
    exact ⟨fun h => ⟨hi, h⟩, fun h => h.2⟩

theorem hdeleteSlot_wellFormed {key : Str} (hw : WellFormed htab) (h : Holds htab idx key) :
    WellFormed (hdeleteSlot htab idx) := by
  have htouch : ∀ i, Touched htab i → Touched (hdeleteSlot htab idx) i := by
    intro i ht
    unfold Touched
    rw [hdeleteSlot_table]
    split_ifs
    · simp
    · exact ht
  refine ⟨hw.prime, hw.large, fun i h1 h2 hu => ?_, fun i j k hi hj => ?_, fun i k hi => ?_, ?_,
    fun i h1 h2 => ?_⟩
  · rw [hdeleteSlot_table] at hu ⊢
    split_ifs with hi
    · rw [if_pos hi] at hu
      simp at hu
    · rw [if_neg hi] at hu
      exact hw.used i h1 h2 hu
  · rw [hdeleteSlot_holds] at hi hj
    exact hw.unique i j k hi.2 hj.2
  · rw [hdeleteSlot_holds] at hi
    obtain ⟨n, hn, hni, hr⟩ := hw.reach i k hi.2
    exact ⟨n, hn, hni, fun j hj => htouch _ (hr j hj)⟩
  · have hmem : idx ∈ liveSlots htab := by
      simp only [liveSlots, Finset.mem_filter, Finset.mem_Icc]
      exact ⟨h.1, h.2.1⟩
    have hl : liveSlots (hdeleteSlot htab idx) = (liveSlots htab).erase idx := by
      ext i
      simp only [liveSlots, Finset.mem_filter, Finset.mem_Icc, Finset.mem_erase, hdeleteSlot_table]
      by_cases hi : i = idx
      · simp [hi]
      · rw [if_neg hi]
        simp only [ne_eq, hi, not_false_eq_true, true_and]
        rfl
    rw [hl, Finset.card_erase_of_mem hmem, ← hw.count]
    rfl
  · rw [hdeleteSlot_table]
    split_ifs
    · simp
    · exact hw.sign i h1 h2

end Delete

/- There is a slot that was never used, or the first slot of the key is a deleted one. -/
def RoomFor (htab : Htab Callback) (key : Str) : Prop :=
  (∃ i, (1 ≤ i ∧ i ≤ htab.size) ∧ (htab.table i).used = 0) ∨
    (htab.table (firstHash htab.size key)).used = -1

theorem place_fresh {htab : Htab Callback} {key : Str} (hw : WellFormed htab)
    (habs : ∀ i, ¬Holds htab i key) (hroom : RoomFor htab key) :
    ∃ i, probeFor htab key = some (.place i) ∧
      Fresh htab key (if firstDeleted htab (firstHash htab.size key) ≠ 0 then
        firstDeleted htab (firstHash htab.size key) else i) := by
  obtain ⟨i, n, hf, hni, htouched, hend⟩ := probeFor_absent hw habs
  obtain ⟨hpos, hlt⟩ := firstHash_mem hw.large key
  refine ⟨i, hf, ?_⟩
  by_cases hdel : (htab.table (firstHash htab.size key)).used = -1
  · rw [firstDeleted, if_pos hdel, if_pos (by lia)]
    exact ⟨⟨hpos, hlt.le⟩, by lia, 0, by lia, rfl, by lia⟩
  · rw [firstDeleted, if_neg hdel, if_neg (by simp)]
    rcases hend with ⟨hn, hfree⟩ | ⟨hn, -⟩
    · refine ⟨hni ▸ slotAt_mem hw.large key n, ?_, n, hn, hni, htouched⟩
      unfold Touched at hfree
      lia
    · -- the probe sequence met all slots, so none is free
      obtain ⟨j, hj, hu⟩ := hroom.resolve_right hdel
      obtain ⟨k, hk, rfl⟩ := slotAt_surjective hw.prime hw.large key hj
      exact absurd hu (htouched k (by lia))

structure SameEntries (htab htab' : Htab Callback) : Prop extends SameKeys htab htab' where
  data : ∀ i, (htab'.table i).data = (htab.table i).data

theorem SameEntries.refl (htab : Htab Callback) : SameEntries htab htab :=
  ⟨SameKeys.refl htab, fun _ => rfl⟩

theorem sameEntries_wellFormed {htab htab' : Htab Callback} (h : SameEntries htab htab')
    (hw : WellFormed htab) : WellFormed htab' :=
  sameKeys_wellFormed h.toSameKeys hw fun i _ hd => by rwa [h.data i]

theorem runCallback_same (hooks : Hooks Callback State) (htab : Htab Callback) (state : State)
    (idx : ℕ) (key : Str) (newval : Option Str) (op : EnvOp) (flag : ℕ) :
    SameEntries htab (runCallback hooks htab state idx key newval op flag).2.1 := by
  unfold runCallback
  cases (htab.table idx).attr.callback with
  | none => exact SameEntries.refl htab
  | some c => exact ⟨sameKeys_mapAttr _ _, fun _ => rfl⟩

theorem createEntry_eq (hooks : Hooks Callback State) (htab : Htab Callback) (state : State)
    (key data : Str) (flag idx : ℕ) :
    createEntry hooks ⟨true, true⟩ htab state key data flag (firstHash htab.size key) idx =
      let htab₀ := putEntry htab key data idx (htab.table idx).attr
      let i := hooks.init state htab₀ idx
      let htab₁ := putEntry htab key data idx i.2
      if hooks.changeOk (htab₁.table idx) (some data) .create flag then
        ⟨0, some .eperm, none, hdeleteSlot htab₁ idx, i.1⟩
      else
        let r := runCallback hooks htab₁ i.1 idx key (some data) .create flag
        if r.1 then ⟨0, some .einval, none, hdeleteSlot r.2.1 idx, r.2.2⟩
        else ⟨1, none, some idx, r.2.1, r.2.2⟩ := by
  have hput : ∀ a : Attr Callback,
      (putEntry htab key data idx (htab.table idx).attr).set idx
        { (putEntry htab key data idx (htab.table idx).attr).table idx with attr := a } =
      putEntry htab key data idx a := by
    intro a
    simp [putEntry, Htab.set]
  change (
      let htab₀ := putEntry htab key data idx (htab.table idx).attr
      let i := hooks.init state htab₀ idx
      let htab₁ := htab₀.set idx { htab₀.table idx with attr := i.2 }
      if hooks.changeOk (htab₁.table idx) (some data) .create flag then
        (⟨0, some .eperm, none, hdeleteSlot htab₁ idx, i.1⟩ : Reply Callback State)
      else
        let r := runCallback hooks htab₁ i.1 idx key (some data) .create flag
        if r.1 then ⟨0, some .einval, none, hdeleteSlot r.2.1 idx, r.2.2⟩
        else ⟨1, none, some idx, r.2.1, r.2.2⟩) = _
  simp only [hput]

section Calls

variable (hooks : Hooks Callback State) (dup : Dup) {htab : Htab Callback} (state : State)
  (hw : WellFormed htab) {key : Str} (flag : ℕ)

include hw

theorem find_present {i : ℕ} (h : Holds htab i key) :
    hsearchR hooks dup htab state key .find flag = some ⟨i, none, some i, htab, state⟩ := by
  simp only [hsearchR, probeFor_present hw h]

theorem find_absent (h : ∀ i, ¬Holds htab i key) :
    hsearchR hooks dup htab state key .find flag = some ⟨0, some .esrch, none, htab, state⟩ := by
  obtain ⟨i, n, hf, -⟩ := probeFor_absent hw h
  simp only [hsearchR, hf]

theorem enter_present (data : Str) {i : ℕ} (h : Holds htab i key) :
    hsearchR hooks dup htab state key (.enter data) flag =
      some (overwriteEntry hooks dup htab state key data flag i) := by
  simp only [hsearchR, probeFor_present hw h]

theorem enter_full (data : Str) (h : ∀ i, ¬Holds htab i key) (hfull : htab.filled = htab.size) :
    hsearchR hooks dup htab state key (.enter data) flag = some ⟨0, some .enomem, none, htab, state⟩ := by
  obtain ⟨i, n, hf, -⟩ := probeFor_absent hw h
  simp only [hsearchR, hf, if_pos hfull]

theorem enter_absent (data : Str) (h : ∀ i, ¬Holds htab i key) (hfull : htab.filled ≠ htab.size)
    (hroom : RoomFor htab key) :
    ∃ idx, Fresh htab key idx ∧ hsearchR hooks dup htab state key (.enter data) flag =
      some (createEntry hooks dup htab state key data flag (firstHash htab.size key) idx) := by
  obtain ⟨i, hf, hfresh⟩ := place_fresh hw h hroom
  refine ⟨_, hfresh, ?_⟩
  simp only [hsearchR, hf, if_neg hfull]

theorem delete_absent (h : ∀ i, ¬Holds htab i key) :
    hdeleteR hooks htab state key flag = some ⟨0, some .esrch, none, htab, state⟩ := by
  obtain ⟨i, n, hf, -⟩ := probeFor_absent hw h
  simp only [hdeleteR, hf]

end Calls

end UBoot.Env
