import UBoot.Env.Access
import UBoot.Env.AttrList

/-!
# Flags and the order of creation

`on_flags` gives flags to the variables that exist, `env_flags_init` to those that are created later, from
a list that it stored at its first call.
-/

namespace UBoot.Env

open List Option

def listedFlags (list : Option Str) (name : Str) : Option ℕ :=
  (lastAttrs (envAttrWalk list) name).map parseFlagsToBin

/-- The flags of a variable: those of its last entry in the value of `.flags`, else those of
the static list, else none. -/
def specFlags (static : Str) (value : Option Str) (name : Str) : ℕ :=
  (listedFlags value name).getD ((listedFlags (some static) name).getD 0)

section Walk

variable {Callback Other Board : Type} {htab : Htab Callback} {i : ℕ} {key : Str}

theorem setFlags_eq (hfind : ∀ name, findEntry htab name = some i ↔ name = key) (flags : ℕ)
    (e : Str × Option Str) :
    setFlags htab i flags e = if e.1 = key then parseFlagsToBin (e.2.getD []) else flags := by
  unfold setFlags
  by_cases h : e.1 = key
  · rw [if_pos ((hfind e.1).mpr h), if_pos h]
    cases he : e.2 with
    | none => rfl
    | some a =>
      cases a with
      | nil => rfl
      | cons c a => rfl
  · rw [if_neg (fun h' => h ((hfind e.1).mp h')), if_neg h]

theorem foldl_setFlags (hfind : ∀ name, findEntry htab name = some i ↔ name = key)
    (entries : List (Str × Option Str)) (flags : ℕ) :
    entries.foldl (setFlags htab i) flags = ((lastAttrs entries key).map parseFlagsToBin).getD flags := by
  induction entries generalizing flags with
  | nil => rfl
  | cons e entries ih =>
    rw [foldl_cons, ih, setFlags_eq hfind, lastAttrs]
    cases lastAttrs entries key with
    | some a => rfl
    | none =>
      by_cases h : e.1 = key
      · simp [h]
      · simp [h]

theorem findEntry_iff (hw : WellFormed htab) (name : Str) :
    findEntry htab name = some i ↔ Holds htab i name := by
  unfold findEntry
  by_cases h : ∃ j, Holds htab j name
  · obtain ⟨j, hj⟩ := h
    rw [probeFor_present hw hj]
    constructor
    · intro hi
      rwa [← some.inj hi]
    · intro hi
      rw [hw.unique i j name hi hj]
  · obtain ⟨j, n, hf, -⟩ := probeFor_absent hw (not_exists.mp h)
    rw [hf]
    exact ⟨fun hi => by simp at hi, fun hi => absurd ⟨i, hi⟩ h⟩

theorem onFlags_holds (cfg : EnvConfig Other Board) (hw : WellFormed htab) (hi : Holds htab i key)
    (value : Option Str) (attr : Attr Callback) :
    (onFlags cfg htab value i attr).flags = specFlags cfg.flagsListStatic value key := by
  have hfind : ∀ name, findEntry htab name = some i ↔ name = key := by
    intro name
    rw [findEntry_iff hw]
    refine ⟨fun h => some.inj (h.2.2.symm.trans hi.2.2), fun h => ?_⟩
    rwa [h]
  simp only [onFlags, if_pos hi.2.1, foldl_append]
  rw [foldl_setFlags hfind, foldl_setFlags hfind]
  rfl

theorem onFlags_unused (cfg : EnvConfig Other Board) (hw : WellFormed htab)
    (hu : (htab.table i).used ≤ 0) (value : Option Str) (attr : Attr Callback) :
    (onFlags cfg htab value i attr).flags = attr.flags := by
  have hskip : ∀ (entries : List (Str × Option Str)) (flags : ℕ),
      entries.foldl (setFlags htab i) flags = flags := by
    intro entries
    induction entries with
    | nil => exact fun _ => rfl
    | cons e entries ih =>
      intro flags
      have hne : findEntry htab e.1 ≠ some i := fun h => by
        have := ((findEntry_iff hw e.1).mp h).2.1
        lia
      rw [foldl_cons, setFlags, if_neg hne, ih]
  simp only [onFlags, if_neg (show ¬0 < (htab.table i).used by lia), hskip]

end Walk

section Lookup

variable {name : Str}

/- Both routines read the list in the same way: it has no white space but spaces and the
name has none at its ends, no comma and no colon; or the name is nowhere in the list. -/
def ListReadable (list name : Str) : Prop := (ListName name ∧ Spaced list) ∨ ¬name <:+: list

theorem parseVartype_head (c : UInt8) (s s' : Str) : parseVartype (c :: s) = parseVartype (c :: s') := by
  unfold parseVartype
  split <;> split <;> simp_all

theorem parseVaraccess_head (c d : UInt8) (s s' : Str) :
    parseVaraccess (c :: d :: s) = parseVaraccess (c :: d :: s') := by
  unfold parseVaraccess
  split <;> split <;> simp_all

theorem parseFlags_firstWord {a : Str} (h : a.head? ≠ some space) :
    parseFlagsToBin (firstWord a) = parseFlagsToBin a := by
  have hcut : ∀ c s, c ≠ space → firstWord (c :: s) = c :: firstWord s := fun c s hc =>
    takeWhile_cons_of_pos (by simp [hc])
  cases a with
  | nil => rfl
  | cons c a =>
    have hc : c ≠ space := fun hc => h (by rw [hc, head?_cons])
    rw [hcut c a hc]
    cases a with
    | nil => rfl
    | cons d a =>
      by_cases hd : d = space
      · have hword : firstWord (d :: a) = [] := takeWhile_cons_of_neg (by simp [hd])
        rw [hword, parseFlagsToBin, parseFlagsToBin, parseVartype_head c [] (d :: a), hd]
        rfl
      · rw [hcut d a hd, parseFlagsToBin, parseFlagsToBin, parseVartype_head c (d :: firstWord a) (d :: a),
          parseVaraccess_head c d (firstWord a) a]

theorem lookup_flags {list : Option Str} (h : ∀ text, list = some text → ListReadable text name) :
    (envAttrLookup list name).map parseFlagsToBin = listedFlags list name := by
  cases list with
  | none => rfl
  | some text =>
    rcases h text rfl with ⟨hn, hsp⟩ | hno
    · rw [envAttrLookup_eq hn text hsp, listedFlags, Option.map_map]
      cases hl : lastAttrs (envAttrWalk (some text)) name with
      | none => rfl
      | some a => exact congrArg some (parseFlags_firstWord (walk_start hl))
    · obtain ⟨h1, h2⟩ := envAttrLookup_missing hno
      rw [h1, listedFlags, h2]

theorem envFlagsInit_eq {Other Board : Type} (cfg : EnvConfig Other Board) {list : Option Str}
    (hlist : ∀ text, list = some text → ListReadable text name)
    (hstatic : ListReadable cfg.flagsListStatic name) :
    envFlagsInit cfg list name 0 = specFlags cfg.flagsListStatic list name := by
  have hdyn := lookup_flags hlist
  have hst : (envAttrLookup (some cfg.flagsListStatic) name).map parseFlagsToBin =
      listedFlags (some cfg.flagsListStatic) name :=
    lookup_flags fun text ht => some.inj ht ▸ hstatic
  have hinit : envFlagsInit cfg list name 0 =
      ((listLookup list cfg.flagsListStatic name).map parseFlagsToBin).getD 0 := by
    unfold envFlagsInit
    cases listLookup list cfg.flagsListStatic name with
    | none => rfl
    | some a =>
      cases a with
      | nil => rfl
      | cons c a => rfl
  rw [hinit, specFlags, ← hdyn, ← hst, listLookup]
  cases envAttrLookup list name with
  | none => rfl
  | some a => rfl

end Lookup

section Value

variable {Callback : Type} {htab : Htab Callback} {name : Str}

theorem findValue_holds (hw : WellFormed htab) {i : ℕ} (hi : Holds htab i name) :
    findValue htab name = (htab.table i).data := by
  rw [findValue, (findEntry_iff hw name).mpr hi, bind_some]

theorem findValue_absent (hw : WellFormed htab) (h : ∀ i, ¬Holds htab i name) :
    findValue htab name = none := by
  cases hf : findEntry htab name with
  | none => rw [findValue, hf, bind_none]
  | some i => exact absurd ((findEntry_iff hw name).mp hf) (h i)

end Value

/-- Every entry has the flags of the lists, and slots that are not in use have none. -/
structure Flagged {Other Board : Type} (cfg : EnvConfig Other Board)
    (htab : Htab (EnvCallback Other)) : Prop where
  wellFormed : WellFormed htab
  unused : ∀ i, (htab.table i).used ≤ 0 → (htab.table i).attr.flags = 0
  listed : ∀ i key, Holds htab i key → (htab.table i).attr.flags =
    specFlags cfg.flagsListStatic (findValue htab envFlagsVar) key

section Conditions

variable {Other Board : Type} (cfg : EnvConfig Other Board) (htab : Htab (EnvCallback Other))
  (state : EnvState Board)

/- `.flags`, and nothing else, is bound to `on_flags`. -/
def BoundEntry (key : Str) : Prop :=
  ∀ i, Holds htab i key → ((htab.table i).attr.callback = some .flags ↔ key = envFlagsVar)

/- The list that `env_flags_init` reads for a new entry. -/
def newFlagsList : Option Str := (flagsListOf cfg state htab).1.text (flagsListOf cfg state htab).2

/- What a new entry needs: its binding, buffers that its attributes fit into, and for a
variable other than `.flags` a list with the same last entry as the value of `.flags`. -/
structure NewEntryOk (key data : Str) (idx : ℕ) : Prop where
  bound : (envInit cfg state (putEntry htab key data idx (htab.table idx).attr) idx).2.callback =
    some .flags ↔ key = envFlagsVar
  fit : AttributesFit cfg state (putEntry htab key data idx (htab.table idx).attr) key
  same : key ≠ envFlagsVar →
    lastAttrs (envAttrWalk (newFlagsList cfg (putEntry htab key data idx (htab.table idx).attr) state))
      key = lastAttrs (envAttrWalk (findValue htab envFlagsVar)) key
  readable : key ≠ envFlagsVar → ListReadable cfg.flagsListStatic key ∧
    ∀ text, newFlagsList cfg (putEntry htab key data idx (htab.table idx).attr) state = some text →
      ListReadable text key

/-- Calls that keep the flags in step with the lists. -/
def FlagsCall (c : Call) : Prop :=
  CallOk htab c ∧
  match c with
  | .enter key data _ => BoundEntry htab key ∧
    ((∀ i, ¬Holds htab i key) → ∀ idx, Fresh htab key idx → NewEntryOk cfg htab state key data idx)
  | .delete key _ => BoundEntry htab key
  | .find _ _ => True

end Conditions

section Step

variable {Other Board : Type} {cfg : EnvConfig Other Board} {htab htab' : Htab (EnvCallback Other)}
  {state state' : EnvState Board}

theorem flagged_change (h : Flagged cfg htab) (hw' : WellFormed htab') (hsize : htab'.size = htab.size)
    (i : ℕ) (hothers : ∀ j, j ≠ i → SameSlot (htab.table j) (htab'.table j))
    (hkey : ¬Holds htab i envFlagsVar ∧ ¬Holds htab' i envFlagsVar)
    (hunused : (htab'.table i).used ≤ 0 → (htab'.table i).attr.flags = 0)
    (hslot : ∀ k, Holds htab' i k → (htab'.table i).attr.flags =
      specFlags cfg.flagsListStatic (findValue htab envFlagsVar) k) : Flagged cfg htab' := by
  have hvalue : findValue htab' envFlagsVar = findValue htab envFlagsVar := by
    by_cases hp : ∃ j, Holds htab j envFlagsVar
    · obtain ⟨j, hj⟩ := hp
      have hne : j ≠ i := fun h => hkey.1 (h ▸ hj)
      have hj' := (sameSlot_holds hsize (hothers j hne) envFlagsVar).mpr hj
      rw [findValue_holds hw' hj', findValue_holds h.wellFormed hj, (hothers j hne).data]
    · have habs : ∀ j, ¬Holds htab' j envFlagsVar := by
        intro j hj
        by_cases hne : j = i
        · exact hkey.2 (hne ▸ hj)
        · exact hp ⟨j, (sameSlot_holds hsize (hothers j hne) envFlagsVar).mp hj⟩
      rw [findValue_absent hw' habs, findValue_absent h.wellFormed (not_exists.mp hp)]
  refine ⟨hw', fun j hj => ?_, fun j k hj => ?_⟩
  · by_cases hne : j = i
    · rw [hne] at hj ⊢
      exact hunused hj
    · rw [(hothers j hne).flags]
      exact h.unused j ((hothers j hne).used ▸ hj)
  · rw [hvalue]
    by_cases hne : j = i
    · rw [hne] at hj ⊢
      exact hslot k hj
    · rw [(hothers j hne).flags]
      exact h.listed j k ((sameSlot_holds hsize (hothers j hne) k).mp hj)

theorem runCallback_onFlags {i flag : ℕ} {key : Str} {newval : Option Str} {op : EnvOp} {rej : Bool}
    (hcb : (htab.table i).attr.callback = some .flags)
    (hrun : runCallback (envHooks cfg) htab state i key newval op flag = (rej, htab', state')) :
    rej = false ∧ htab' = htab.mapAttr (onFlags cfg htab newval) := by
  unfold runCallback at hrun
  rw [hcb] at hrun
  obtain ⟨rfl, rfl, -⟩ := hrun
  exact ⟨rfl, rfl⟩

/- The flags after `on_flags`. -/
structure Recomputed (cfg : EnvConfig Other Board) (htab' : Htab (EnvCallback Other))
    (value : Option Str) : Prop where
  wellFormed : WellFormed htab'
  unused : ∀ j, (htab'.table j).used ≤ 0 → (htab'.table j).attr.flags = 0
  listed : ∀ j k, Holds htab' j k →
    (htab'.table j).attr.flags = specFlags cfg.flagsListStatic value k

theorem onFlags_recomputed (hw : WellFormed htab)
    (hunused : ∀ j, (htab.table j).used ≤ 0 → (htab.table j).attr.flags = 0) (value : Option Str) :
    Recomputed cfg (htab.mapAttr (onFlags cfg htab value)) value := by
  have hsame : SameEntries htab (htab.mapAttr (onFlags cfg htab value)) :=
    ⟨sameKeys_mapAttr _ _, fun _ => rfl⟩
  refine ⟨sameEntries_wellFormed hsame hw, fun j hj => ?_, fun j k hj => ?_⟩
  · exact (onFlags_unused cfg hw hj value _).trans (hunused j hj)
  · exact onFlags_holds cfg hw ((sameKeys_holds hsame.toSameKeys j k).mp hj) value _

theorem recomputed_setData {i : ℕ} {v : Str} (h : Recomputed cfg htab (some v))
    (hi : Holds htab i envFlagsVar)
    (hw' : WellFormed (htab.set i { htab.table i with data := some v })) :
    Flagged cfg (htab.set i { htab.table i with data := some v }) := by
  have hkeys := sameKeys_setData htab i (some v)
  have hflags : ∀ j, ((htab.set i { htab.table i with data := some v }).table j).attr.flags =
      (htab.table j).attr.flags := by
    intro j
    rw [set_table]
    split_ifs with hj
    · rw [hj]
    · rfl
  have hvalue : findValue (htab.set i { htab.table i with data := some v }) envFlagsVar = some v := by
    rw [findValue_holds hw' ((sameKeys_holds hkeys i envFlagsVar).mpr hi), set_table, if_pos rfl]
  refine ⟨hw', fun j hj => ?_, fun j k hj => ?_⟩
  · rw [hflags]
    exact h.unused j (hkeys.used j ▸ hj)
  · rw [hflags, hvalue]
    exact h.listed j k ((sameKeys_holds hkeys j k).mp hj)

theorem recomputed_delete {i : ℕ} (h : Recomputed cfg htab none) (hi : Holds htab i envFlagsVar) :
    Flagged cfg (hdeleteSlot htab i) := by
  have hw' := hdeleteSlot_wellFormed h.wellFormed hi
  have hvalue : findValue (hdeleteSlot htab i) envFlagsVar = none := by
    apply findValue_absent hw'
    intro j hj
    obtain ⟨hne, hj'⟩ := (hdeleteSlot_holds htab i j envFlagsVar).mp hj
    exact hne (h.wellFormed.unique j i envFlagsVar hj' hi)
  refine ⟨hw', fun j hj => ?_, fun j k hj => ?_⟩
  · rw [hdeleteSlot_table] at hj ⊢
    by_cases hne : j = i
    · rw [if_pos hne]
    · rw [if_neg hne] at hj ⊢
      exact h.unused j hj
  · obtain ⟨hne, hj'⟩ := (hdeleteSlot_holds htab i j k).mp hj
    rw [hdeleteSlot_table, if_neg hne, hvalue]
    exact h.listed j k hj'

theorem putEntry_unused (h : Flagged cfg htab) (key data : Str) (idx : ℕ)
    (attr : Attr (EnvCallback Other)) (j : ℕ)
    (hj : ((putEntry htab key data idx attr).table j).used ≤ 0) :
    ((putEntry htab key data idx attr).table j).attr.flags = 0 := by
  have hpos := (firstHash_mem h.wellFormed.large key).1
  rw [putEntry_table] at hj ⊢
  by_cases hne : j = idx
  · rw [if_pos hne] at hj
    simp only at hj
    lia
  · rw [if_neg hne] at hj ⊢
    exact h.unused j hj

theorem takenBack_flagged (h : Flagged cfg htab) {key data : Str} {idx : ℕ}
    {attr : Attr (EnvCallback Other)} (hfresh : Fresh htab key idx) (hsize : htab'.size = htab.size)
    (hsame : ∀ j, SameSlot ((putEntry htab key data idx attr).table j) (htab'.table j))
    (hw' : WellFormed (hdeleteSlot htab' idx)) : Flagged cfg (hdeleteSlot htab' idx) := by
  refine flagged_change h hw' hsize idx (fun j hj => ?_)
    ⟨fresh_empty hfresh envFlagsVar, fun hf => ((hdeleteSlot_holds _ _ _ _).mp hf).1 rfl⟩ (fun _ => ?_)
    (fun k hk => absurd rfl ((hdeleteSlot_holds _ _ _ _).mp hk).1)
  · rw [hdeleteSlot_table, if_neg hj]
    exact (putEntry_sameSlot hj key data attr).trans (hsame j)
  · rw [hdeleteSlot_table, if_pos rfl]

theorem newEntry_flags (h : Flagged cfg htab) {key data : Str} {idx : ℕ}
    {attr : Attr (EnvCallback Other)} (hfresh : Fresh htab key idx) (hk : key ≠ envFlagsVar)
    (hnew : NewEntryOk cfg htab state key data idx)
    (hinit : envInit cfg state (putEntry htab key data idx (htab.table idx).attr) idx = (state', attr)) :
    attr.flags = specFlags cfg.flagsListStatic (findValue htab envFlagsVar) key := by
  obtain ⟨hstatic, hlist⟩ := hnew.readable hk
  have hput := congrArg Attr.flags (envInit_put cfg htab state key data idx (htab.table idx).attr)
  rw [hinit, h.unused idx hfresh.2.1] at hput
  have hflags : attr.flags = envFlagsInit cfg
      (newFlagsList cfg (putEntry htab key data idx (htab.table idx).attr) state) key 0 := hput
  rw [hflags, envFlagsInit_eq cfg hlist hstatic]
  simp only [specFlags, listedFlags, hnew.same hk]

/-- One call keeps the flags in step with the lists. -/
theorem call_flagged (h : Flagged cfg htab) {c : Call}
    {r : Reply (EnvCallback Other) (EnvState Board)} (hg : FlagsCall cfg htab state c)
    (hr : exec (envHooks cfg) htab state c = some r) : Flagged cfg r.tab := by
  obtain ⟨hcall, hguard⟩ := hg
  have hout := exec_outcome h.wellFormed hcall hr
  have hw' := outcome_wellFormed h.wellFormed hout
  have hother : ∀ {i : ℕ} {key : Str}, Holds htab i key → key ≠ envFlagsVar →
      ¬Holds htab i envFlagsVar := fun hi hne hf => hne (some.inj (hi.2.2.symm.trans hf.2.2))
  cases hout with
  | same ht hs =>
    rw [ht]
    exact h
  | @vetoed _ _ i flag key newval op hc hi hrun =>
    have hcb : (htab.table i).attr.callback ≠ some .flags := fun hcb => by
      have hrej := (runCallback_onFlags hcb hrun).1
      simp at hrej
    obtain ⟨hsize, hsame⟩ := runCallback_flags hcb hrun
    -- no slot changes, so take one outside the table
    exact flagged_change h hw' hsize 0 (fun j _ => hsame j)
      ⟨fun h0 => absurd h0.1.1 (by lia), fun h0 => absurd h0.1.1 (by lia)⟩
      (fun hu => (hsame 0).flags.trans (h.unused 0 ((hsame 0).used ▸ hu)))
      (fun k hk => absurd hk.1.1 (by lia))
  | @overwritten _ i flag key data htab' hi hok hrun ht =>
    rw [ht] at hw' ⊢
    by_cases hk : key = envFlagsVar
    · subst hk
      obtain ⟨-, rfl⟩ := runCallback_onFlags ((hguard.1 i hi).mpr rfl) hrun
      exact recomputed_setData (onFlags_recomputed h.wellFormed h.unused (some data)) hi hw'
    · obtain ⟨hsize, hsame⟩ := runCallback_flags (fun hcb => hk ((hguard.1 i hi).mp hcb)) hrun
      have hkeys := sameKeys_setData htab' i (some data)
      have hback : ∀ k, Holds (htab'.set i { htab'.table i with data := some data }) i k →
          Holds htab i k := fun k hk' =>
        (sameSlot_holds hsize (hsame i) k).mp ((sameKeys_holds hkeys i k).mp hk')
      refine flagged_change h hw' hsize i (fun j hj => ?_)
        ⟨hother hi hk, fun hf => hother hi hk (hback _ hf)⟩ (fun hu => ?_) (fun k hk' => ?_)
      · rw [set_table, if_neg hj]
        exact hsame j
      · rw [set_table, if_pos rfl] at hu ⊢
        exact (hsame i).flags.trans (h.unused i ((hsame i).used ▸ hu))
      · rw [set_table, if_pos rfl]
        exact (hsame i).flags.trans (h.listed i k (hback k hk'))
  | @deleted _ i flag key htab' hi hok hrun ht =>
    rw [ht] at hw' ⊢
    by_cases hk : key = envFlagsVar
    · subst hk
      obtain ⟨-, rfl⟩ := runCallback_onFlags ((hguard i hi).mpr rfl) hrun
      exact recomputed_delete (onFlags_recomputed h.wellFormed h.unused none) hi
    · obtain ⟨hsize, hsame⟩ := runCallback_flags (fun hcb => hk ((hguard i hi).mp hcb)) hrun
      refine flagged_change h hw' hsize i (fun j hj => ?_)
        ⟨hother hi hk, fun hf => ((hdeleteSlot_holds _ _ _ _).mp hf).1 rfl⟩ (fun _ => ?_)
        (fun k hk' => absurd rfl ((hdeleteSlot_holds _ _ _ _).mp hk').1)
      · rw [hdeleteSlot_table, if_neg hj]
        exact hsame j
      · rw [hdeleteSlot_table, if_pos rfl]
  | @created _ idx flag key data attr state' habs hfresh hinit hok hrun =>
    have hnew := hguard.2 habs idx hfresh
    have hinit' : envInit cfg state (putEntry htab key data idx (htab.table idx).attr) idx =
        (state', attr) := hinit
    have hbound := hnew.bound
    rw [hinit'] at hbound
    have hslot : (putEntry htab key data idx attr).table idx =
        ⟨firstHash htab.size key, some key, some data, attr⟩ := by rw [putEntry_table, if_pos rfl]
    by_cases hk : key = envFlagsVar
    · subst hk
      obtain ⟨-, htab'⟩ := runCallback_onFlags (by rw [hslot]; exact hbound.mpr rfl) hrun
      have hre : Recomputed cfg r.tab (some data) := by
        rw [htab']
        exact onFlags_recomputed (putEntry_wellFormed h.wellFormed hfresh habs data attr)
          (putEntry_unused h _ data idx attr) (some data)
      have hself : Holds r.tab idx envFlagsVar := by
        rw [sameKeys_holds (runCallback_table hrun).toSameKeys]
        exact putEntry_self h.wellFormed hfresh data attr
      have hvalue : findValue r.tab envFlagsVar = some data := by
        rw [findValue_holds hw' hself, (runCallback_table hrun).data, hslot]
      exact ⟨hw', hre.unused, fun j k hj => hvalue ▸ hre.listed j k hj⟩
    · have hcb : ((putEntry htab key data idx attr).table idx).attr.callback ≠ some .flags := by
        rw [hslot]
        exact fun hcb => hk (hbound.mp hcb)
      obtain ⟨hsize, hsame⟩ := runCallback_flags hcb hrun
      have hflags : (r.tab.table idx).attr.flags = attr.flags := by rw [(hsame idx).flags, hslot]
      have hkeyOf : ∀ k, Holds r.tab idx k → k = key := by
        intro k hk'
        have hkey' := hk'.2.2
        rw [(hsame idx).key, hslot] at hkey'
        exact (some.inj hkey').symm
      have hattr := newEntry_flags h hfresh hk hnew hinit'
      refine flagged_change h hw' hsize idx (fun j hj => ?_)
        ⟨fresh_empty hfresh _, fun hf => hk (hkeyOf _ hf).symm⟩ (fun hu => ?_) (fun k hk' => ?_)
      · exact (putEntry_sameSlot hj key data attr).trans (hsame j)
      · have hpos := (firstHash_mem h.wellFormed.large key).1
        rw [(hsame idx).used, hslot] at hu
        simp only at hu
        lia
      · rw [hflags, hkeyOf k hk', hattr]
  | @refused _ idx flag key data attr habs hfresh hinit ht =>
    rw [ht] at hw' ⊢
    exact takenBack_flagged h hfresh rfl (fun j => ⟨rfl, rfl, rfl, rfl⟩) hw'
  | @reverted _ idx flag key data attr state' htab' habs hfresh hinit hrun ht =>
    have hcb : ((putEntry htab key data idx attr).table idx).attr.callback ≠ some .flags :=
      fun hcb => by
        have hrej := (runCallback_onFlags hcb hrun).1
        simp at hrej
    obtain ⟨hsize, hsame⟩ := runCallback_flags hcb hrun
    rw [ht] at hw' ⊢
    exact takenBack_flagged h hfresh hsize hsame hw'

end Step

section Runs

variable {Other Board : Type} {cfg : EnvConfig Other Board}

/-- Tables reached from a new one by calls that meet a condition. -/
def Reached (cfg : EnvConfig Other Board)
    (ok : Htab (EnvCallback Other) → EnvState Board → Call → Prop) (htab : Htab (EnvCallback Other)) :
    Prop :=
  ∃ nel htab₀ state₀ state, hcreateR (EnvCallback Other) nel = some htab₀ ∧ htab₀.size.Prime ∧
    5 ≤ htab₀.size ∧ EnvRun cfg ok htab₀ state₀ htab state

theorem hcreateR_flagged {htab : Htab (EnvCallback Other)} {nel : ℕ}
    (h : hcreateR (EnvCallback Other) nel = some htab) (hp : htab.size.Prime) (h5 : 5 ≤ htab.size) :
    Flagged cfg htab := by
  have hw := (hcreateR_wellFormed h hp h5).1
  obtain ⟨size, -, rfl⟩ := map_eq_some_iff.mp h
  refine ⟨hw, fun i _ => rfl, fun i key hi => ?_⟩
  simpa [emptySlot] using hi.2.1

theorem reached_flagged {htab : Htab (EnvCallback Other)} (h : Reached cfg (FlagsCall cfg) htab) :
    Flagged cfg htab := by
  obtain ⟨nel, htab₀, state₀, state, hnew, hp, h5, hrun⟩ := h
  induction hrun with
  | start => exact hcreateR_flagged hnew hp h5
  | other _ _ ih => exact ih
  | call _ hg hr ih => exact call_flagged ih hg hr

/-- Runs that end with the same value of `.flags` give a variable the same flags, whether
it was there when `.flags` was set or was created later. -/
theorem flags_order_independent (cfg : EnvConfig Other Board)
    (htab₁ htab₂ : Htab (EnvCallback Other)) (h₁ : Reached cfg (FlagsCall cfg) htab₁)
    (h₂ : Reached cfg (FlagsCall cfg) htab₂)
    (hvalue : findValue htab₁ envFlagsVar = findValue htab₂ envFlagsVar) (v : Str) (i j : ℕ)
    (hi : Holds htab₁ i v) (hj : Holds htab₂ j v) :
    (htab₁.table i).attr.flags = (htab₂.table j).attr.flags ∧
    (htab₁.table i).attr.flags = specFlags cfg.flagsListStatic (findValue htab₁ envFlagsVar) v := by
  have hfirst := (reached_flagged h₁).listed i v hi
  have hsecond := (reached_flagged h₂).listed j v hj
  exact ⟨by rw [hfirst, hsecond, hvalue], hfirst⟩

end Runs

/- No static flags, and the list `b:so`. -/
def plainConfig : EnvConfig Unit Unit := bareConfig []
def onceList : Str := [98, 58, 115, 111]

section Example

theorem fresh_first {Callback : Type} {htab : Htab Callback} {key : Str} {idx : ℕ}
    (hu : (htab.table (firstHash htab.size key)).used = 0) (h : Fresh htab key idx) :
    idx = firstHash htab.size key := by
  obtain ⟨-, -, n, -, hn, hall⟩ := h
  cases n with
  | zero => exact hn.symm
  | succ n => exact absurd hu (hall 0 (by lia))

theorem newCall_ok {htab : Htab (EnvCallback Unit)} {state : EnvState Unit} {key data : Str} {flag : ℕ}
    (hfirst : 1 ≤ firstHash htab.size key ∧ firstHash htab.size key ≤ htab.size)
    (hu : (htab.table (firstHash htab.size key)).used = 0) (habs : ∀ i, ¬Holds htab i key)
    (hok : NewEntryOk plainConfig htab state key data (firstHash htab.size key)) :
    FlagsCall plainConfig htab state (.enter key data flag) :=
  ⟨.inr (.inr (.inl ⟨_, hfirst, hu⟩)), fun i hi => absurd hi (habs i),
    fun _ _ hfresh => fresh_first hu hfresh ▸ hok⟩

theorem absent_of {htab : Htab (EnvCallback Unit)} {key : Str}
    (h : ∀ i ∈ List.range' 1 htab.size, ¬Holds htab i key) (i : ℕ) : ¬Holds htab i key :=
  fun hi => h i (mem_range'_1.mpr ⟨hi.1.1, by have := hi.1.2; lia⟩) hi

theorem shorter_of {x : Option Str} {n : ℕ} (h : (x.all fun a => decide (a.length < n)) = true) (a : Str)
    (ha : x = some a) : a.length < n :=
  of_decide_eq_true ((all_eq_true _ _).mp h a ha)

theorem readable_of {x : Option Str} (h : (x.all fun text => decide (Spaced text)) = true) (text : Str)
    (ht : x = some text) : ListReadable text [98] :=
  .inl ⟨⟨by decide, by decide, by decide, by decide, by decide⟩,
    of_decide_eq_true ((all_eq_true _ _).mp h text ht)⟩

end Example

/- `b` before and after `.flags`, which is set by the first call that creates an entry. -/
theorem flags_order_independent_once : ∃ htab₁ htab₂,
    Reached plainConfig (FlagsCall plainConfig) htab₁ ∧ Reached plainConfig (FlagsCall plainConfig) htab₂ ∧
    (htab₁.table 4).attr.flags = (htab₂.table 4).attr.flags ∧
    (htab₁.table 4).attr.flags = specFlags [] (some onceList) [98] ∧
    specFlags [] (some onceList) [98] = 0x28 := by
  have h0 : EnvRun plainConfig (FlagsCall plainConfig) bareTab firstState _ _ := .start
  -- `.flags`, then `b`
  have h1 := h0.call (c := .enter envFlagsVar onceList 0) (newCall_ok (by decide) rfl (bareTab_empty · _)
    ⟨by decide +kernel, ⟨shorter_of (by decide +kernel), shorter_of (by decide +kernel)⟩,
      fun h => absurd rfl h, fun h => absurd rfl h⟩) rfl
  have h2 := h1.call (c := .enter [98] [50] 0) (newCall_ok (by decide +kernel) (by decide +kernel)
    (absent_of (by decide +kernel))
    ⟨by decide +kernel, ⟨shorter_of (by decide +kernel), shorter_of (by decide +kernel)⟩,
      by decide +kernel, fun _ => ⟨readable_of (by decide +kernel) _ rfl, readable_of (by decide +kernel)⟩⟩) rfl
  -- `b`, then `.flags`
  have h1' := h0.call (c := .enter [98] [50] 0) (newCall_ok (by decide) rfl (bareTab_empty · _)
    ⟨by decide +kernel, ⟨shorter_of (by decide +kernel), shorter_of (by decide +kernel)⟩,
      by decide +kernel, fun _ => ⟨readable_of (by decide +kernel) _ rfl, readable_of (by decide +kernel)⟩⟩) rfl
  have h2' := h1'.call (c := .enter envFlagsVar onceList 0) (newCall_ok (by decide +kernel)
    (by decide +kernel) (absent_of (by decide +kernel))
    ⟨by decide +kernel, ⟨shorter_of (by decide +kernel), shorter_of (by decide +kernel)⟩,
      fun h => absurd rfl h, fun h => absurd rfl h⟩) rfl
  have hr : Reached plainConfig (FlagsCall plainConfig) _ :=
    ⟨5, bareTab, firstState, _, rfl, by decide, by decide, h2⟩
  have hr' : Reached plainConfig (FlagsCall plainConfig) _ :=
    ⟨5, bareTab, firstState, _, rfl, by decide, by decide, h2'⟩
  obtain ⟨hsame, hspec⟩ := flags_order_independent plainConfig _ _ hr hr' (by decide +kernel) [98] 4 4
    (by decide +kernel) (by decide +kernel)
  exact ⟨_, _, hr, hr', hsame, hspec, by decide⟩

/- The first call stores NULL as the list. With `b` and `.flags` created in either order the values are
the same, but `b` has no flags when it comes last. -/
theorem flags_depend_on_order : ∃ htab₁ htab₂,
    Reached plainConfig (fun _ _ _ => True) htab₁ ∧ Reached plainConfig (fun _ _ _ => True) htab₂ ∧
    (∀ k, (∃ i, Holds htab₁ i k) ↔ ∃ i, Holds htab₂ i k) ∧
    findValue htab₁ envFlagsVar = some onceList ∧ findValue htab₂ envFlagsVar = some onceList ∧
    Holds htab₁ 4 [98] ∧ (htab₁.table 4).attr.flags = 0x28 ∧
    Holds htab₂ 4 [98] ∧ (htab₂.table 4).attr.flags = 0 := by
  have hrun : ((execAll (envHooks plainConfig) [.enter [97] [49] 0, .enter [98] [50] 0,
      .enter envFlagsVar onceList 0] bareTab firstState).any fun r₁ =>
    (execAll (envHooks plainConfig) [.enter [97] [49] 0, .enter envFlagsVar onceList 0,
      .enter [98] [50] 0] bareTab firstState).any fun r₂ =>
        r₁.1.size = 5 ∧ r₂.1.size = 5 ∧
        (∀ i ∈ List.range' 1 5, (r₁.1.table i).used = (r₂.1.table i).used ∧
          (r₁.1.table i).key = (r₂.1.table i).key) ∧
        findValue r₁.1 envFlagsVar = some onceList ∧ findValue r₂.1 envFlagsVar = some onceList ∧
        Holds r₁.1 4 [98] ∧ (r₁.1.table 4).attr.flags = 0x28 ∧
        Holds r₂.1 4 [98] ∧ (r₂.1.table 4).attr.flags = 0) = true := by
    decide +kernel
  obtain ⟨⟨htab₁, state₁⟩, h1, hrun⟩ := (any_eq_true _ _).mp hrun
  obtain ⟨⟨htab₂, state₂⟩, h2, hrun⟩ := (any_eq_true _ _).mp hrun
  obtain ⟨hsize₁, hsize₂, hslots, hrest⟩ := of_decide_eq_true hrun
  have hholds : ∀ i k, Holds htab₁ i k ↔ Holds htab₂ i k := by
    intro i k
    unfold Holds
    simp only at hsize₁ hsize₂
    rw [hsize₁, hsize₂]
    refine and_congr_right fun hi => ?_
    obtain ⟨hused, hkey⟩ := hslots i (mem_range'_1.mpr (by lia))
    rw [hused, hkey]
  have hnew : EnvRun plainConfig (fun _ _ _ => True) bareTab firstState _ _ := .start
  exact ⟨htab₁, htab₂,
    ⟨5, bareTab, firstState, _, rfl, by decide, by decide,
      execAll_run (fun _ _ _ _ => trivial) hnew h1⟩,
    ⟨5, bareTab, firstState, _, rfl, by decide, by decide,
      execAll_run (fun _ _ _ _ => trivial) hnew h2⟩,
    fun k => exists_congr fun i => hholds i k, hrest⟩

end UBoot.Env
