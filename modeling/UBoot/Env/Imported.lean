import UBoot.Env.Image
import UBoot.Env.RoundTrip

/-!
# What an import can put into a table

Whatever the hooks decide, a key in the new table comes from a line that enters it.
-/

namespace UBoot.Env

open Probe List Option

variable {Callback State : Type}

def Found.idx : Found → ℕ
  | .entry i => i
  | .place i => i

section Search

variable {htab : Htab Callback} {key : Str} {f : Found}

theorem sameKey_true {hval idx : ℕ} (h : sameKey htab key hval idx = some true) :
    (htab.table idx).key = some key := by
  unfold sameKey at h
  split_ifs at h
  swap
  · simp at h
  cases hk : (htab.table idx).key with
  | none => rw [hk] at h; simp at h
  | some k =>
    rw [hk] at h
    simpa using h

/- An index in the table, and the key itself where the search succeeds. -/
def EndsAt (htab : Htab Callback) (key : Str) (f : Found) : Prop :=
  (1 ≤ f.idx ∧ f.idx ≤ htab.size) ∧ ∀ i, f = .entry i → (htab.table i).key = some key

theorem probeLoop_endsAt (h5 : 5 ≤ htab.size) {hval : ℕ} (fuel idx : ℕ)
    (hidx : 1 ≤ idx ∧ idx ≤ htab.size) (h : probeLoop htab key hval fuel idx = some f) :
    EndsAt htab key f := by
  induction fuel generalizing idx with
  | zero => simp [probeLoop] at h
  | succ fuel ih =>
    obtain ⟨hs, hlt⟩ := secondHash_mem h5 hval
    have hnext := next_mem hs hlt hidx
    simp only [probeLoop] at h
    by_cases hback : next htab.size (secondHash htab.size hval) idx = hval
    · rw [if_pos hback] at h
      obtain rfl := some.inj h
      exact ⟨hnext, fun i hi => by simp at hi⟩
    rw [if_neg hback] at h
    cases hsame : sameKey htab key hval (next htab.size (secondHash htab.size hval) idx) with
    | none => simp [hsame] at h
    | some b =>
      rw [hsame] at h
      cases b with
      | true =>
        obtain rfl := some.inj h
        refine ⟨hnext, fun i hi => ?_⟩
        rw [← Found.entry.inj hi]
        exact sameKey_true hsame
      | false =>
        simp only at h
        split_ifs at h
        · exact ih _ hnext h
        · obtain rfl := some.inj h
          exact ⟨hnext, fun i hi => by simp at hi⟩

theorem probeFor_endsAt (h5 : 5 ≤ htab.size) (h : probeFor htab key = some f) : EndsAt htab key f := by
  obtain ⟨hpos, hlt⟩ := firstHash_mem h5 key
  have hfirst : 1 ≤ firstHash htab.size key ∧ firstHash htab.size key ≤ htab.size := ⟨hpos, by lia⟩
  simp only [probeFor] at h
  by_cases hu : (htab.table (firstHash htab.size key)).used = 0
  · rw [if_neg (not_not.mpr hu)] at h
    obtain rfl := some.inj h
    exact ⟨hfirst, fun i hi => by simp at hi⟩
  rw [if_pos hu] at h
  cases hsame : sameKey htab key (firstHash htab.size key) (firstHash htab.size key) with
  | none => simp [hsame] at h
  | some b =>
    rw [hsame] at h
    cases b with
    | true =>
      obtain rfl := some.inj h
      refine ⟨hfirst, fun i hi => ?_⟩
      rw [← Found.entry.inj hi]
      exact sameKey_true hsame
    | false => exact probeLoop_endsAt h5 _ _ hfirst h

end Search

structure KeysIn (htab : Htab Callback) (keys : Set Str) : Prop where
  large : 5 ≤ htab.size
  mem : ∀ i k, (htab.table i).key = some k → k ∈ keys ∧ 1 ≤ i ∧ i ≤ htab.size

section Keys

variable {hooks : Hooks Callback State} {htab htab' : Htab Callback} {keys : Set Str}

theorem keysIn_same (h : SameKeys htab htab') (hk : KeysIn htab keys) : KeysIn htab' keys :=
  ⟨h.size ▸ hk.large, fun i k hi => by
    rw [h.key] at hi
    rw [h.size]
    exact hk.mem i k hi⟩

theorem keysIn_mono {keys' : Set Str} (hsub : keys ⊆ keys') (hk : KeysIn htab keys) :
    KeysIn htab keys' :=
  ⟨hk.large, fun i k hi => ⟨hsub (hk.mem i k hi).1, (hk.mem i k hi).2⟩⟩

theorem keysIn_deleteSlot (idx : ℕ) (hk : KeysIn htab keys) : KeysIn (hdeleteSlot htab idx) keys := by
  refine ⟨hk.large, fun i k hi => hk.mem i k ?_⟩
  rw [hdeleteSlot_table] at hi
  split_ifs at hi with h
  · rw [h]
    exact hi
  · exact hi

theorem keysIn_put {idx : ℕ} (hidx : 1 ≤ idx ∧ idx ≤ htab.size) (key data : Str)
    (attr : Attr Callback) (hk : KeysIn htab keys) :
    KeysIn (putEntry htab key data idx attr) (insert key keys) := by
  refine ⟨hk.large, fun i k hi => ?_⟩
  rw [putEntry_table] at hi
  split_ifs at hi with h
  · rw [h]
    exact ⟨Set.mem_insert_iff.mpr (.inl (some.inj hi).symm), hidx⟩
  · exact ⟨Set.mem_insert_of_mem _ (hk.mem i k hi).1, (hk.mem i k hi).2⟩

theorem createEntry_size (htab : Htab Callback) (state : State) (key data : Str) (flag idx : ℕ) :
    (createEntry hooks ⟨true, true⟩ htab state key data flag (firstHash htab.size key) idx).tab.size =
      htab.size := by
  rw [createEntry_eq]
  have hrun := fun htab' state' => (runCallback_same hooks htab' state' idx key (some data) .create
    flag).size
  simp only
  split_ifs
  · rfl
  · exact hrun _ _
  · exact hrun _ _

variable {key : Str} {flag : ℕ} {state : State}

theorem createEntry_keysIn {data : Str} {idx : ℕ}
    (hidx : 1 ≤ idx ∧ idx ≤ htab.size) (hk : KeysIn htab keys) :
    KeysIn (createEntry hooks ⟨true, true⟩ htab state key data flag (firstHash htab.size key) idx).tab
      (insert key keys) := by
  rw [createEntry_eq]
  have hput := keysIn_put hidx key data
    (hooks.init state (putEntry htab key data idx (htab.table idx).attr) idx).2 hk
  have hrun := runCallback_same hooks
    (putEntry htab key data idx
      (hooks.init state (putEntry htab key data idx (htab.table idx).attr) idx).2)
    (hooks.init state (putEntry htab key data idx (htab.table idx).attr) idx).1 idx key (some data)
    .create flag
  simp only
  split_ifs
  · exact keysIn_deleteSlot idx hput
  · exact keysIn_deleteSlot idx (keysIn_same hrun.toSameKeys hput)
  · exact keysIn_same hrun.toSameKeys hput

theorem overwriteEntry_sameKeys (hooks : Hooks Callback State) (dup : Dup) (htab : Htab Callback)
    (state : State) (key data : Str) (flag idx : ℕ) :
    SameKeys htab (overwriteEntry hooks dup htab state key data flag idx).tab := by
  have hrun := (runCallback_same hooks htab state idx key (some data) .overwrite flag).toSameKeys
  unfold overwriteEntry
  simp only
  split_ifs
  · exact SameKeys.refl htab
  · exact hrun
  · exact hrun.trans (sameKeys_setData _ _ _)
  · exact hrun.trans (sameKeys_setData _ _ _)

/- An ENTER keeps the keys of the slots, or makes an entry in a slot of the table. -/
theorem enter_cases {data : Str} {r : Reply Callback State}
    (h : hsearchR hooks ⟨true, true⟩ htab state key (.enter data) flag = some r) :
    SameKeys htab r.tab ∨ ∃ idx, (5 ≤ htab.size → 1 ≤ idx ∧ idx ≤ htab.size) ∧
      r = createEntry hooks ⟨true, true⟩ htab state key data flag (firstHash htab.size key) idx := by
  unfold hsearchR at h
  cases hf : probeFor htab key with
  | none => simp [hf] at h
  | some f =>
    simp only [hf] at h
    cases f with
    | entry idx =>
      rw [← some.inj h]
      exact .inl (overwriteEntry_sameKeys hooks ⟨true, true⟩ htab state key data flag idx)
    | place idx =>
      simp only at h
      split_ifs at h with hfull hdel
      · rw [← some.inj h]
        exact .inl (SameKeys.refl htab)
      · refine .inr ⟨_, fun h5 => ?_, (some.inj h).symm⟩
        have hlt := firstHash_mem h5 key
        unfold firstDeleted at hdel ⊢
        split_ifs at hdel ⊢
        · lia
        · lia
      · exact .inr ⟨_, fun h5 => (probeFor_endsAt h5 hf).1, (some.inj h).symm⟩

theorem enter_size {data : Str} {r : Reply Callback State}
    (h : hsearchR hooks ⟨true, true⟩ htab state key (.enter data) flag = some r) :
    r.tab.size = htab.size := by
  rcases enter_cases h with hsame | ⟨idx, -, rfl⟩
  · exact hsame.size
  · exact createEntry_size _ _ _ _ _ _

theorem enter_keysIn {data : Str} {r : Reply Callback State} (hk : KeysIn htab keys)
    (h : hsearchR hooks ⟨true, true⟩ htab state key (.enter data) flag = some r) :
    KeysIn r.tab (insert key keys) := by
  rcases enter_cases h with hsame | ⟨idx, hidx, rfl⟩
  · exact keysIn_same hsame (keysIn_mono (Set.subset_insert _ _) hk)
  · exact createEntry_keysIn (hidx hk.large) hk

theorem delete_cases {r : Reply Callback State} (h : hdeleteR hooks htab state key flag = some r) :
    SameKeys htab r.tab ∨ ∃ tab idx, SameKeys htab tab ∧ r.tab = hdeleteSlot tab idx := by
  unfold hdeleteR at h
  cases hf : probeFor htab key with
  | none => simp [hf] at h
  | some f =>
    simp only [hf] at h
    cases f with
    | place idx =>
      rw [← some.inj h]
      exact .inl (SameKeys.refl htab)
    | entry idx =>
      have hrun := (runCallback_same hooks htab state idx key none .delete flag).toSameKeys
      simp only at h
      split_ifs at h
      · rw [← some.inj h]
        exact .inl (SameKeys.refl htab)
      · rw [← some.inj h]
        exact .inl hrun
      · rw [← some.inj h]
        exact .inr ⟨_, idx, hrun, rfl⟩

theorem delete_size {r : Reply Callback State}
    (h : hdeleteR hooks htab state key flag = some r) : r.tab.size = htab.size := by
  rcases delete_cases h with hsame | ⟨tab, idx, hsame, hr⟩
  · exact hsame.size
  · rw [hr]
    exact hsame.size

theorem delete_keysIn {r : Reply Callback State} (hk : KeysIn htab keys)
    (h : hdeleteR hooks htab state key flag = some r) : KeysIn r.tab keys := by
  rcases delete_cases h with hsame | ⟨tab, idx, hsame, hr⟩
  · exact keysIn_same hsame hk
  · rw [hr]
    exact keysIn_deleteSlot idx (keysIn_same hsame hk)

end Keys

def enteredNames (lines : List Line) : Set Str := {key | ∃ v, Line.enter key v ∈ lines}

section Lines

variable {hooks : Hooks Callback State} {keys : Set Str}

variable {flag : ℕ} {s s' : Importing Callback State}

theorem importLine_keysIn {line : Line} {ok : Bool}
    (hk : KeysIn s.htab keys) (h : importLine hooks flag s line = some (ok, s')) :
    KeysIn s'.htab (keys ∪ enteredNames [line]) ∧ s'.htab.size = s.htab.size := by
  have hmore := keysIn_mono (Set.subset_union_left (t := enteredNames [line])) hk
  cases line with
  | comment =>
    obtain ⟨-, rfl⟩ := Prod.mk.inj (some.inj h)
    exact ⟨hmore, rfl⟩
  | delete name =>
    simp only [importLine] at h
    split_ifs at h
    · obtain ⟨-, rfl⟩ := Prod.mk.inj (some.inj h)
      exact ⟨hmore, rfl⟩
    · obtain ⟨r, hr, hs⟩ := map_eq_some_iff.mp h
      obtain ⟨-, rfl⟩ := Prod.mk.inj hs
      exact ⟨delete_keysIn hmore hr, delete_size hr⟩
  | enter name value =>
    simp only [importLine] at h
    split_ifs at h
    · obtain ⟨-, rfl⟩ := Prod.mk.inj (some.inj h)
      exact ⟨hmore, rfl⟩
    · obtain ⟨-, rfl⟩ := Prod.mk.inj (some.inj h)
      exact ⟨hmore, rfl⟩
    · obtain ⟨r, hr, hs⟩ := map_eq_some_iff.mp h
      obtain ⟨-, rfl⟩ := Prod.mk.inj hs
      refine ⟨keysIn_mono (fun k hkm => ?_) (enter_keysIn hk hr), enter_size hr⟩
      rcases hkm with rfl | hold
      · exact .inr ⟨value, mem_cons_self⟩
      · exact .inl hold

theorem importLines_keysIn {lines : List Line}
    (hk : KeysIn s.htab keys) (h : importLines hooks flag s lines = some (true, s')) :
    KeysIn s'.htab (keys ∪ enteredNames lines) ∧ s'.htab.size = s.htab.size ∧
      [] ∉ enteredNames lines := by
  induction lines generalizing s keys with
  | nil =>
    obtain ⟨-, rfl⟩ := Prod.mk.inj (some.inj h)
    exact ⟨keysIn_mono Set.subset_union_left hk, rfl, fun ⟨v, hv⟩ => by simp at hv⟩
  | cons line lines ih =>
    rw [importLines] at h
    cases hline : importLine hooks flag s line with
    | none => simp [hline] at h
    | some r =>
      obtain ⟨ok, s₁⟩ := r
      rw [hline] at h
      cases ok with
      | false => simp at h
      | true =>
        obtain ⟨hk₁, hsize₁⟩ := importLine_keysIn hk hline
        obtain ⟨hk₂, hsize₂, hne⟩ := ih hk₁ h
        refine ⟨keysIn_mono (fun k hkm => ?_) hk₂, hsize₂.trans hsize₁, ?_⟩
        · rcases hkm with (hold | ⟨v, hv⟩) | ⟨v, hv⟩
          · exact .inl hold
          · exact .inr ⟨v, by rw [mem_singleton.mp hv]; exact mem_cons_self⟩
          · exact .inr ⟨v, mem_cons_of_mem _ hv⟩
        · rintro ⟨v, hv⟩
          rcases mem_cons.mp hv with heq | hv
          · rw [← heq] at hline
            simp [importLine] at hline
          · exact hne ⟨v, hv⟩

theorem dropRest_keysIn {vars : List (Option Str)} (hk : KeysIn s.htab keys)
    (h : dropRest hooks flag s vars = some s') : KeysIn s'.htab keys ∧ s'.htab.size = s.htab.size := by
  induction vars generalizing s with
  | nil =>
    obtain rfl := some.inj h
    exact ⟨hk, rfl⟩
  | cons v vars ih =>
    cases v with
    | none => exact ih hk h
    | some name =>
      rw [dropRest] at h
      cases hr : hdeleteR hooks s.htab s.state name flag with
      | none => simp [hr] at h
      | some r =>
        rw [hr] at h
        have hk₁ := delete_keysIn hk hr
        obtain ⟨hk₂, hsize₂⟩ := ih hk₁ h
        exact ⟨hk₂, hsize₂.trans (delete_size hr)⟩

/-- The table after an import that returns 1, for any hooks. -/
theorem himportR_keysIn {old : Option (Htab Callback)} {state : State} {env : Str} (henv : env ≠ [])
    {sep : UInt8} {new : Htab Callback} (hnew : importTable old env.length 0 = some new)
    (h : himportR hooks old state env sep 0 false [] = some (1, s)) :
    KeysIn s.htab (enteredNames (linesOf sep (env.length + 1) (env ++ [nul]))) ∧
      s.htab.size = new.size ∧ [] ∉ enteredNames (linesOf sep (env.length + 1) (env ++ [nul])) := by
  obtain ⟨htab, hc, hw, -, -, -⟩ := importTable_new old env.length
  obtain rfl : htab = new := some.inj (hc.symm.trans hnew)
  have hempty : KeysIn htab ∅ := by
    refine ⟨hw.large, fun i k hi => ?_⟩
    obtain ⟨n, -, rfl⟩ := map_eq_some_iff.mp hc
    simp [emptySlot] at hi
  rw [himportR_eq hooks old state henv sep 0 hc] at h
  cases hl : importLines hooks 0 ⟨htab, state, []⟩ (linesOf sep (env.length + 1) (env ++ [nul])) with
  | none => simp [hl] at h
  | some r =>
    obtain ⟨ok, s₁⟩ := r
    rw [hl] at h
    cases ok with
    | false => simp at h
    | true =>
      obtain ⟨s₂, hs₂, hpair⟩ := map_eq_some_iff.mp h
      obtain ⟨-, rfl⟩ := Prod.mk.inj hpair
      obtain ⟨hk₁, hsize₁, hne⟩ := importLines_keysIn hempty hl
      obtain ⟨hk₂, hsize₂⟩ := dropRest_keysIn hk₁ hs₂
      rw [Set.empty_union] at hk₂
      exact ⟨hk₂, hsize₂.trans hsize₁, hne⟩

end Lines

section Getenv

variable {hooks : Hooks Callback State} {htab : Htab Callback}

theorem getenv_slot (h5 : 5 ≤ htab.size) {state : State} {name v : Str}
    (h : getenv hooks htab state name = some v) : ∃ i, (htab.table i).key = some name := by
  unfold getenv hsearchR at h
  cases hf : probeFor htab name with
  | none => simp [hf] at h
  | some f =>
    cases f with
    | place i => simp [hf] at h
    | entry i => exact ⟨i, (probeFor_endsAt h5 hf).2 i rfl⟩

theorem getenv_represents {m : Str → Option Str} (hw : WellFormed htab) (hm : Represents htab m)
    (state : State) (name : Str) : getenv hooks htab state name = m name := by
  unfold getenv
  cases h : m name with
  | none =>
    rw [find_absent hooks _ state hw 0 ((represents_absent hw hm).mp h)]
    rfl
  | some v =>
    obtain ⟨i, hi, hv⟩ := (hm name v).mp h
    rw [find_present hooks _ state hw 0 hi]
    exact hv

theorem keysIn_count {keys : Set Str} (hk : KeysIn htab keys) {names : List Str} (hn : names.Nodup)
    (h : ∀ name ∈ names, ∃ i, (htab.table i).key = some name) : names.length ≤ htab.size := by
  classical
  choose! slot hslot using h
  have hmaps : Set.MapsTo slot (names.toFinset : Set Str) (Finset.Icc 1 htab.size : Set ℕ) := by
    intro name hname
    rw [Finset.mem_coe, List.mem_toFinset] at hname
    rw [Finset.mem_coe, Finset.mem_Icc]
    exact (hk.mem _ _ (hslot name hname)).2
  have hinj : Set.InjOn slot (names.toFinset : Set Str) := by
    intro a ha b hb hab
    rw [Finset.mem_coe, List.mem_toFinset] at ha hb
    have hkey := hslot a ha
    rw [hab, hslot b hb] at hkey
    exact (some.inj hkey).symm
  have hcard := Finset.card_le_card_of_injOn slot hmaps hinj
  rw [toFinset_card_of_nodup hn, Nat.card_Icc] at hcard
  lia

end Getenv

end UBoot.Env
