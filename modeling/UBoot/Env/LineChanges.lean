import UBoot.Env.Selective

/-!
# What two imports have in common

An import depends on its lines through the changes that they ask for, up to a line with an empty
name. For every difference there are hooks and a table that show it.
-/

namespace UBoot.Env

open List Option

variable {Callback State : Type}

def changes : List Line → List (Str × Option Str)
  | [] => []
  | line :: lines => if line.stops then [] else line.change.toList ++ changes lines

structure LinesAgree (a b : List Line) : Prop where
  changes : changes a = changes b
  stopped : stopped a = stopped b

section Changes

variable {hooks : Hooks Callback State} {flag : ℕ}

variable {line : Line}

theorem changes_cons (h : line.stops = false) (lines : List Line) :
    changes (line :: lines) = line.change.toList ++ changes lines := by
  rw [changes, h]
  rfl

theorem changes_stop (h : line.stops = true) (lines : List Line) : changes (line :: lines) = [] := by
  rw [changes, h]
  rfl

theorem stopped_cons (line : Line) (lines : List Line) :
    stopped (line :: lines) = (line.stops || stopped lines) := any_cons

def lineFor (e : Str × Option Str) : Line :=
  match e.2 with
  | none => .delete e.1
  | some value => .enter e.1 value

def plainLines (lines : List Line) : List Line :=
  (changes lines).map lineFor ++ if stopped lines then [.enter [] []] else []

theorem change_eq {e : Str × Option Str} (h : line.change = some e) : line = lineFor e := by
  cases line with
  | comment => cases h
  | delete name => obtain rfl := some.inj h; rfl
  | enter name value => obtain rfl := some.inj h; rfl

theorem change_none (h : line.change = none) : line = .comment := by
  cases line with
  | comment => rfl
  | delete name => cases h
  | enter name value => cases h

theorem importLines_plain (lines : List Line) (s : Importing Callback State) :
    importLines hooks flag s lines = importLines hooks flag s (plainLines lines) := by
  induction lines generalizing s with
  | nil => rfl
  | cons line lines ih =>
    cases hs : line.stops with
    | true =>
      rw [plainLines, changes_stop hs, stopped_cons, hs, importLines, importLine_stop hs]
      rfl
    | false =>
      rw [plainLines, changes_cons hs, stopped_cons, hs, Bool.false_or]
      cases hc : line.change with
      | none =>
        rw [change_none hc]
        exact ih s
      | some e =>
        rw [toList_some, singleton_append, map_cons, ← change_eq hc, cons_append,
          importLines, importLines]
        cases importLine hooks flag s line with
        | none => rfl
        | some r =>
          obtain ⟨ok, s'⟩ := r
          cases ok with
          | false => rfl
          | true => exact ih s'

theorem importLines_agree {a b : List Line} (h : LinesAgree a b) (s : Importing Callback State) :
    importLines hooks flag s a = importLines hooks flag s b := by
  rw [importLines_plain a, importLines_plain b, plainLines, plainLines, h.changes, h.stopped]

end Changes

theorem exists_table (Callback : Type) (names : List Str) :
    ∃ htab : Htab Callback, WellFormed htab ∧ ∀ name ∈ names, ∃ i, Holds htab i name := by
  obtain ⟨size, hlarge, hprime⟩ := Nat.exists_infinite_primes (names.length + 5)
  suffices h : ∀ names : List Str, names.length ≤ size → ∃ htab : Htab Callback,
      WellFormed htab ∧ NoDeleted htab ∧ htab.size = size ∧ htab.filled ≤ names.length ∧
        ∀ name ∈ names, ∃ i, Holds htab i name by
    obtain ⟨htab, hw, -, -, -, hall⟩ := h names (by lia)
    exact ⟨htab, hw, hall⟩
  intro names
  induction names with
  | nil =>
    intro _
    exact ⟨⟨size, 0, fun _ => emptySlot Callback⟩, (emptyTable_wellFormed hprime (by lia)).1,
      fun _ _ _ => le_rfl, rfl, le_rfl, fun _ h => by cases h⟩
  | cons name names ih =>
    intro hlen
    rw [length_cons] at hlen
    obtain ⟨htab, hw, hnone, hsize, hfilled, hall⟩ := ih (by lia)
    by_cases hp : ∃ i, Holds htab i name
    · refine ⟨htab, hw, hnone, hsize, by rw [length_cons]; lia, fun n hn => ?_⟩
      rcases mem_cons.mp hn with rfl | hn
      · exact hp
      · exact hall n hn
    · have habs := not_exists.mp hp
      obtain ⟨idx, hfresh⟩ : ∃ idx, Fresh htab name idx := by
        obtain ⟨i, -, hfresh⟩ := place_fresh hw habs (noDeleted_roomFor hw hnone (by lia) name)
        exact ⟨_, hfresh⟩
      have hholds := putEntry_holds hw hfresh [] ⟨none, 0⟩
      refine ⟨_, putEntry_wellFormed hw hfresh habs [] ⟨none, 0⟩, fun j h1 h2 => ?_, hsize,
        Nat.succ_le_succ hfilled, fun n hn => ?_⟩
      · rw [putEntry_table]
        split_ifs
        · exact Int.natCast_nonneg _
        · exact hnone j h1 h2
      · rcases mem_cons.mp hn with rfl | hn
        · exact ⟨_, (hholds _ n).mpr (.inl ⟨rfl, rfl⟩)⟩
        · obtain ⟨j, hj⟩ := hall n hn
          exact ⟨j, (hholds j n).mpr (.inr hj)⟩

/- What the `n`-th callback was asked for. -/
abbrev Note := Option (Str × Option Str)

/- Callbacks that reject every change, and write the `n`-th one down in all entries. -/
def spyHooks (n : ℕ) : Hooks Note ℕ where
  changeOk _ _ _ _ := false
  callback _ state _ key newval _ _ :=
    (true, state + 1, fun _ a => if state = n then ⟨some (some (key, newval)), a.flags⟩ else a)
  init state _ _ := (state, ⟨none, 0⟩)

def noted (htab : Htab Note) (note : Note) : Htab Note := htab.mapAttr fun _ _ => ⟨some note, 0⟩

section Spy

variable {htab : Htab Note} {n flag : ℕ}

theorem noted_same (htab : Htab Note) (note : Note) : SameKeys htab (noted htab note) :=
  sameKeys_mapAttr htab _

theorem noted_wellFormed (hw : WellFormed htab) (note : Note) : WellFormed (noted htab note) :=
  sameKeys_wellFormed (noted_same htab note) hw fun _ _ h => h

theorem runCallback_spy (state i : ℕ) (note : Note) (key : Str) (newval : Option Str) (op : EnvOp) :
    runCallback (spyHooks n) (noted htab note) state i key newval op flag =
      (true, noted htab (if state = n then some (key, newval) else note), state + 1) := by
  unfold runCallback noted spyHooks Htab.mapAttr
  by_cases h : state = n
  · simp only [h, if_true]
  · simp only [h, if_false]

theorem importLine_spy (hw : WellFormed htab) {line : Line} (hstop : line.stops = false)
    {name : Str} {newval : Option Str} (hc : line.change = some (name, newval)) {i : ℕ}
    (hi : Holds htab i name) (note : Note) (state : ℕ) :
    importLine (spyHooks n) flag ⟨noted htab note, state, []⟩ line =
      some (true, ⟨noted htab (if state = n then some (name, newval) else note), state + 1, []⟩) := by
  have hw' := noted_wellFormed hw note
  have hi' := (sameKeys_holds (noted_same htab note) i name).mpr hi
  rw [change_eq hc] at hstop ⊢
  cases newval with
  | none =>
    have hdelete : hdeleteR (spyHooks n) (noted htab note) state name flag = some ⟨0, some .einval, none,
        noted htab (if state = n then some (name, none) else note), state + 1⟩ := by
      simp only [hdeleteR, probeFor_present hw' hi', runCallback_spy]
      rfl
    rw [lineFor, importLine, dropVarFromSet_nil, hdelete]
    rfl
  | some value =>
    have hname : name ≠ [] := by
      rintro rfl
      cases hstop
    have henter : hsearchR (spyHooks n) ⟨true, true⟩ (noted htab note) state name (.enter value) flag =
        some ⟨0, some .einval, none, noted htab (if state = n then some (name, some value) else note),
          state + 1⟩ := by
      rw [enter_present (spyHooks n) ⟨true, true⟩ state hw' flag value hi']
      simp only [overwriteEntry, runCallback_spy]
      rfl
    rw [lineFor, importLine, if_neg hname, dropVarFromSet_nil, henter]
    rfl

/-- The note after an import of names that are all in the table. -/
theorem importLines_spy (flag : ℕ) (hw : WellFormed htab) (lines : List Line)
    (hall : ∀ e ∈ changes lines, ∃ i, Holds htab i e.1) (note : Note) (state : ℕ) :
    ∃ state', importLines (spyHooks n) flag ⟨noted htab note, state, []⟩ lines =
      some (!stopped lines, ⟨noted htab
        (if state ≤ n then ((changes lines)[n - state]?).or note else note), state', []⟩) := by
  induction lines generalizing note state with
  | nil => exact ⟨state, by simp [importLines, stopped, changes]⟩
  | cons line lines ih =>
    cases hs : line.stops with
    | true =>
      refine ⟨state, ?_⟩
      rw [importLines, importLine_stop hs, stopped_cons, hs, changes_stop hs]
      simp
    | false =>
      rw [changes_cons hs] at hall ⊢
      rw [stopped_cons, hs, Bool.false_or]
      cases hc : line.change with
      | none =>
        rw [change_none hc]
        rw [hc] at hall
        exact ih hall note state
      | some e =>
        obtain ⟨name, newval⟩ := e
        rw [hc] at hall
        obtain ⟨i, hi⟩ := hall (name, newval) mem_cons_self
        obtain ⟨state', hrun⟩ := ih (fun e he => hall e (mem_cons_of_mem _ he))
          (if state = n then some (name, newval) else note) (state + 1)
        refine ⟨state', ?_⟩
        rw [importLines, importLine_spy hw hs hc hi note state]
        simp only
        rw [hrun, toList_some, singleton_append]
        rcases Nat.lt_trichotomy state n with hlt | heq | hgt
        · rw [if_pos (show state + 1 ≤ n from hlt), if_neg (show ¬state = n by lia), if_pos hlt.le,
            show n - state = n - (state + 1) + 1 by lia, getElem?_cons_succ]
        · rw [if_neg (show ¬state + 1 ≤ n by lia), if_pos heq, if_pos heq.le, heq, Nat.sub_self,
            getElem?_cons_zero, some_or]
        · rw [if_neg (show ¬state + 1 ≤ n by lia), if_neg (show ¬state = n by lia),
            if_neg (show ¬state ≤ n by lia)]

end Spy

/- What `himport_r` does once it has its table. -/
def importAll (hooks : Hooks Callback State) (flag : ℕ) (s : Importing Callback State)
    (lines : List Line) : Option (ℕ × Importing Callback State) :=
  match importLines hooks flag s lines with
  | none => none
  | some (false, s) => some (0, s)
  | some (true, s) => (dropRest hooks flag s s.vars).map fun s => (1, s)

/- Both imports leave the same table, whatever the hooks, the variables and the table that they
start with. -/
def SameTables (a b : List Line) : Prop :=
  ∀ (Callback State : Type) (hooks : Hooks Callback State) (flag : ℕ) (_ : noClear flag = true)
    (htab : Htab Callback) (state : State) (vars : List Str),
    (importAll hooks flag ⟨htab, state, vars.map some⟩ a).map (fun r => r.2.htab) =
      (importAll hooks flag ⟨htab, state, vars.map some⟩ b).map fun r => r.2.htab

section Same

variable {a b lines : List Line}

theorem importAll_spy {htab : Htab Note} (hw : WellFormed htab)
    (hall : ∀ e ∈ changes lines, ∃ i, Holds htab i e.1) (n : ℕ) :
    (importAll (spyHooks n) 1 ⟨noted htab none, 0, []⟩ lines).map (fun r => r.2.htab) =
      some (noted htab (changes lines)[n]?) := by
  obtain ⟨state, hrun⟩ := importLines_spy (n := n) 1 hw lines hall none 0
  rw [if_pos (Nat.zero_le n), Nat.sub_zero, or_none] at hrun
  unfold importAll
  rw [hrun]
  cases stopped lines with
  | true => rfl
  | false => rfl

theorem importLines_unlisted {hooks : Hooks Callback State} {flag : ℕ} {s : Importing Callback State}
    {name : Str} (hvars : s.vars = [some name]) (hno : ∀ e ∈ changes lines, e.1 ≠ name) :
    importLines hooks flag s lines = some (!stopped lines, s) := by
  induction lines with
  | nil => rfl
  | cons line lines ih =>
    cases hs : line.stops with
    | true =>
      rw [importLines, importLine_stop hs, stopped_cons, hs]
      rfl
    | false =>
      rw [changes_cons hs] at hno
      have hline : importLine hooks flag s line = some (true, s) := by
        cases hc : line.change with
        | none =>
          cases line with
          | comment => rfl
          | delete key => cases hc
          | enter key value => cases hc
        | some e =>
          obtain ⟨key, newval⟩ := e
          rw [hc] at hno
          have hne : name ≠ key := (hno (key, newval) mem_cons_self).symm
          have hdrop : dropVarFromSet key s.vars = (false, s.vars) := by
            rw [hvars, dropVarFromSet, map_singleton]
            simp [hne, hne.symm]
          rw [change_eq hc] at hs ⊢
          cases newval with
          | none =>
            simp only [lineFor, importLine, hdrop]
            rfl
          | some value =>
            have hkey : key ≠ [] := by
              rintro rfl
              cases hs
            simp only [lineFor, importLine, if_neg hkey, hdrop]
            rfl
      rw [importLines, hline, stopped_cons, hs, Bool.false_or]
      exact ih fun e he => hno e (mem_append_right _ he)

theorem importAll_unlisted (name : Str) : ∃ htab htab' : Htab Unit, htab' ≠ htab ∧
    ∀ lines, (∀ e ∈ changes lines, e.1 ≠ name) →
      (importAll plainHooks 1 ⟨htab, (), [some name]⟩ lines).map (fun r => r.2.htab) =
        some (if stopped lines then htab else htab') := by
  obtain ⟨htab, hw, hall⟩ := exists_table Unit [name]
  obtain ⟨i, hi⟩ := hall name mem_cons_self
  obtain ⟨htab₁, r, hr, hsame, ht⟩ := delete_accepts plainHooks_accepts () hw hi 1
  refine ⟨htab, r.tab, ?_, fun lines hno => ?_⟩
  · intro heq
    have hgone : (r.tab.table i).used = -1 := by
      rw [ht, hdeleteSlot_table, if_pos rfl]
    have hlive := hi.2.1
    rw [← heq, hgone] at hlive
    lia
  · unfold importAll
    rw [importLines_unlisted rfl hno]
    cases stopped lines with
    | true => rfl
    | false => simp only [Bool.not_false, dropRest, hr, map_some, Bool.false_eq_true, if_false]

theorem noted_injective (htab : Htab Note) : Function.Injective (noted htab) := by
  intro x y h
  have hcallback := congrArg (fun t : Htab Note => (t.table 0).attr.callback) h
  exact some.inj hcallback

theorem importAll_agree (h : LinesAgree a b) (hooks : Hooks Callback State) (flag : ℕ)
    (s : Importing Callback State) : importAll hooks flag s a = importAll hooks flag s b := by
  rw [importAll, importAll, importLines_agree h]

/-- Two imports leave the same tables exactly when they ask for the same changes. -/
theorem sameTables_iff (a b : List Line) : SameTables a b ↔ LinesAgree a b := by
  constructor
  · intro h
    have hchanges : changes a = changes b := by
      obtain ⟨htab, hw, hall⟩ := exists_table Note ((changes a ++ changes b).map Prod.fst)
      have hname : ∀ e ∈ changes a ++ changes b, ∃ i, Holds htab i e.1 := fun e he =>
        hall e.1 (mem_map_of_mem he)
      refine ext_getElem? fun n => noted_injective htab (some.inj ?_)
      rw [← importAll_spy hw (fun e he => hname e (mem_append_left _ he)) n,
        ← importAll_spy hw (fun e he => hname e (mem_append_right _ he)) n]
      exact h Note ℕ (spyHooks n) 1 rfl (noted htab none) 0 []
    refine ⟨hchanges, ?_⟩
    obtain ⟨name, hname⟩ := Infinite.exists_notMem_finset ((changes a).map Prod.fst).toFinset
    have hno : ∀ e ∈ changes a, e.1 ≠ name := by
      rintro e he rfl
      exact hname (mem_toFinset.mpr (mem_map_of_mem he))
    obtain ⟨htab, htab', hne, hall⟩ := importAll_unlisted name
    have heq := h Unit Unit plainHooks 1 rfl htab () [name]
    rw [map_singleton, hall a hno, hall b (hchanges ▸ hno), some.injEq] at heq
    cases ha : stopped a with
    | true =>
      cases hb : stopped b with
      | true => rfl
      | false => rw [ha, hb] at heq; exact absurd heq.symm hne
    | false =>
      cases hb : stopped b with
      | true => rw [ha, hb] at heq; exact absurd heq hne
      | false => rfl
  · intro h Callback State hooks flag _ htab state vars
    rw [importAll_agree h]

end Same

end UBoot.Env
