import UBoot.Env.Imported

/-!
# Import of listed variables (lib/hashtable.c)

`himport_r` with `H_NOCLEAR` and a list of variables. A name leaves the list at its first line; what
is left on the list is deleted at the end.
-/

namespace UBoot.Env

open Function List Option

variable {Callback State : Type}

def Line.change : Line → Option (Str × Option Str)
  | .comment => none
  | .delete name => some (name, none)
  | .enter name value => some (name, some value)

def Line.stops : Line → Bool
  | .enter [] _ => true
  | _ => false

noncomputable section

def nameCount (m : Str → Option Str) : ℕ := {name | m name ≠ none}.ncard

/- What a table of `size` slots takes: a new name that finds it full is refused, and stays absent. -/
def taken (size : ℕ) (m : Str → Option Str) (name : Str) (x : Option Str) : Option Str :=
  if m name = none ∧ nameCount m = size then none else x

def Line.effectOn (size : ℕ) (m : Str → Option Str) (name : Str) (line : Line) :
    Option (Option Str) :=
  line.change.bind fun e => if e.1 = name then some (taken size m name e.2) else none

def Line.apply (size : ℕ) (m : Str → Option Str) (line : Line) : Str → Option Str :=
  fun name => (line.effectOn size m name).getD (m name)

/- A line on a list of variables: a listed name changes and leaves the list. -/
def Line.applyListed (size : ℕ) (m : Str → Option Str) (vars : List Str) (line : Line) :
    Str → Option Str :=
  fun name => if vars.contains name then line.apply size m name else m name

def Line.left (size : ℕ) (m : Str → Option Str) (vars : List Str) (line : Line) : List Str :=
  vars.filter fun name => (line.effectOn size m name).isNone

/- What the first line of a name does in the import of the variables `vars`, and the last one in the
full import, of the lines that are considered. -/
def firstEffect (size : ℕ) (name : Str) :
    (Str → Option Str) → List Str → List Line → Option (Option Str)
  | _, _, [] => none
  | m, vars, line :: lines =>
    if line.stops then none
    else (line.effectOn size m name).or
      (firstEffect size name (line.applyListed size m vars) (line.left size m vars) lines)

def lastEffect (size : ℕ) (name : Str) : (Str → Option Str) → List Line → Option (Option Str)
  | _, [] => none
  | m, line :: lines =>
    if line.stops then none
    else (lastEffect size name (line.apply size m) lines).or (line.effectOn size m name)

end

section Effect

variable {size : ℕ} {m m' : Str → Option Str} {vars : List Str} {name : Str} {line : Line}
  {lines : List Line}

theorem firstEffect_cons (h : line.stops = false) :
    firstEffect size name m vars (line :: lines) = (line.effectOn size m name).or
      (firstEffect size name (line.applyListed size m vars) (line.left size m vars) lines) := by
  rw [firstEffect, h]
  rfl

theorem lastEffect_cons (h : line.stops = false) :
    lastEffect size name m (line :: lines) =
      (lastEffect size name (line.apply size m) lines).or (line.effectOn size m name) := by
  rw [lastEffect, h]
  rfl

theorem firstEffect_stop (h : line.stops = true) :
    firstEffect size name m vars (line :: lines) = none := by
  rw [firstEffect, if_pos h]

theorem lastEffect_stop (h : line.stops = true) : lastEffect size name m (line :: lines) = none := by
  rw [lastEffect, if_pos h]

theorem effectOn_change {x : Option Str} (h : line.change = some (name, x)) (key : Str) :
    line.effectOn size m key = if name = key then some (taken size m key x) else none := by
  rw [Line.effectOn, h, bind_some]

theorem effectOn_none_iff :
    line.effectOn size m name = none ↔ line.effectOn size m' name = none := by
  cases hc : line.change with
  | none => simp [Line.effectOn, hc]
  | some e => simp [effectOn_change hc]

theorem firstEffect_none_iff :
    firstEffect size name m vars lines = none ↔ lastEffect size name m' lines = none := by
  induction lines generalizing m m' vars with
  | nil => exact Iff.rfl
  | cons line lines ih =>
    cases hs : line.stops with
    | true => exact iff_of_true (firstEffect_stop hs) (lastEffect_stop hs)
    | false =>
      rw [firstEffect_cons hs, lastEffect_cons hs, or_eq_none_iff, or_eq_none_iff,
        @effectOn_none_iff size m m', ih, and_comm]

theorem getD_eq_iff {α : Type} {a b : Option α} (h : a = none ↔ b = none) (d : α) :
    a.getD d = b.getD d ↔ a = b := by
  cases a with
  | none => rw [h.mp rfl]; simp
  | some x =>
    cases b with
    | none => cases h.mpr rfl
    | some y => simp

theorem firstEffect_of_enter {value : Str} (hstop : ∀ l ∈ lines, l.stops = false)
    (h : Line.enter name value ∈ lines) : firstEffect size name m vars lines ≠ none := by
  induction lines generalizing m vars with
  | nil => cases h
  | cons line lines ih =>
    rw [firstEffect_cons (hstop line mem_cons_self), Ne, or_eq_none_iff, not_and]
    intro hline
    rcases mem_cons.mp h with rfl | hmem
    · simp [Line.effectOn, Line.change] at hline
    · exact ih (fun l hl => hstop l (mem_cons_of_mem _ hl)) hmem

theorem taken_some {x : Option Str} {value : Str} (h : taken size m name x = some value) :
    x = some value := by
  unfold taken at h
  split_ifs at h
  exact h

theorem enter_of_effectOn {value : Str} (h : line.effectOn size m name = some (some value)) :
    line = .enter name value := by
  cases line with
  | comment => cases h
  | delete key =>
    simp only [Line.effectOn, Line.change, bind_some] at h
    split_ifs at h
    cases taken_some (some.inj h)
  | enter key v =>
    simp only [Line.effectOn, Line.change, bind_some] at h
    split_ifs at h with hkey
    rw [hkey, some.inj (taken_some (some.inj h))]

theorem enter_of_firstEffect {value : Str}
    (h : firstEffect size name m vars lines = some (some value)) : Line.enter name value ∈ lines := by
  induction lines generalizing m vars with
  | nil => cases h
  | cons line lines ih =>
    cases hs : line.stops with
    | true => cases (firstEffect_stop hs).symm.trans h
    | false =>
      rw [firstEffect_cons hs, or_eq_some_iff] at h
      rcases h with hline | ⟨-, hrest⟩
      · rw [enter_of_effectOn hline]
        exact mem_cons_self
      · exact mem_cons_of_mem _ (ih hrest)

end Effect

/-- No ENTER of the import overwrites the entry of another name. -/
def Roomy (hooks : Hooks Callback State) (flag : ℕ) : Importing Callback State → List Line → Prop
  | _, [] => True
  | s, line :: lines =>
    (∀ name value, line = .enter name value → name ≠ [] → (dropVarFromSet name s.vars).1 = true →
      CallOk s.htab (.enter name value flag)) ∧
    ∀ s', importLine hooks flag s line = some (true, s') → Roomy hooks flag s' lines

section Vars

variable {name key : Str} {vars : List (Option Str)}

/- An empty list stands for all names. -/
theorem dropVarFromSet_nil (name : Str) : dropVarFromSet name [] = (true, []) := rfl

theorem dropVarFromSet_listed :
    (dropVarFromSet name vars).1 = true ↔ vars = [] ∨ some name ∈ vars := by
  cases vars with
  | nil => simp [dropVarFromSet]
  | cons v vars => exact contains_iff_mem.trans (or_iff_right (cons_ne_nil v vars)).symm

theorem dropVarFromSet_eq_nil : (dropVarFromSet name vars).2 = [] ↔ vars = [] := by
  cases vars with
  | nil => exact Iff.rfl
  | cons v vars => exact iff_of_false (cons_ne_nil _ _) (cons_ne_nil _ _)

theorem dropVarFromSet_left :
    some key ∈ (dropVarFromSet name vars).2 ↔ some key ∈ vars ∧ name ≠ key := by
  cases vars with
  | nil => simp [dropVarFromSet]
  | cons v vars =>
    refine mem_map.trans ⟨?_, ?_⟩
    · rintro ⟨w, hw, heq⟩
      split_ifs at heq with hname
      subst heq
      exact ⟨hw, fun h => hname (congrArg some h.symm)⟩
    · rintro ⟨hmem, hne⟩
      exact ⟨some key, hmem, if_neg fun h => hne (some.inj h).symm⟩

end Vars

section Step

variable {hooks : Hooks Callback State} {htab : Htab Callback} {m : Str → Option Str} {flag : ℕ}

theorem exec_total (hooks : Hooks Callback State) (hw : WellFormed htab) (state : State) (c : Call) :
    ∃ r, exec hooks htab state c = some r := by
  have hprobe : ∀ key, ∃ f, probeFor htab key = some f := by
    intro key
    by_cases hp : ∃ i, Holds htab i key
    · obtain ⟨i, hi⟩ := hp
      exact ⟨_, probeFor_present hw hi⟩
    · obtain ⟨i, n, hf, -⟩ := probeFor_absent hw (not_exists.mp hp)
      exact ⟨_, hf⟩
  cases c with
  | find key flag =>
    obtain ⟨f, hf⟩ := hprobe key
    cases f with
    | entry i => simp [exec, hsearchR, hf]
    | place i => simp [exec, hsearchR, hf]
  | delete key flag =>
    obtain ⟨f, hf⟩ := hprobe key
    cases f with
    | entry i =>
      simp only [exec, hdeleteR, hf]
      split_ifs
      · exact ⟨_, rfl⟩
      · exact ⟨_, rfl⟩
      · exact ⟨_, rfl⟩
    | place i => simp [exec, hdeleteR, hf]
  | enter key data flag =>
    obtain ⟨f, hf⟩ := hprobe key
    cases f with
    | entry i => simp [exec, hsearchR, hf]
    | place i =>
      simp only [exec, hsearchR, hf]
      split_ifs
      · exact ⟨_, rfl⟩
      · exact ⟨_, rfl⟩
      · exact ⟨_, rfl⟩

/- The live slots are the names of the map. -/
theorem filled_nameCount (hw : WellFormed htab) (hm : Represents htab m) :
    htab.filled = nameCount m := by
  have hnames : {name | m name ≠ none} =
      (fun i => ((htab.table i).key.getD [])) '' (liveSlots htab : Set ℕ) := by
    ext name
    rw [Set.mem_ofPred_eq, Ne, represents_absent hw hm, not_forall]
    simp only [not_not, Set.mem_image, Finset.mem_coe, liveSlots, Finset.mem_filter, Finset.mem_Icc]
    constructor
    · rintro ⟨i, hi, hu, hk⟩
      exact ⟨i, ⟨hi, hu⟩, by rw [hk, getD_some]⟩
    · rintro ⟨i, ⟨hi, hu⟩, rfl⟩
      obtain ⟨key, -, hk, -⟩ := hw.used i hi.1 hi.2 hu
      exact ⟨i, hi, hu, by rw [hk, getD_some]⟩
  have hinj : Set.InjOn (fun i => ((htab.table i).key.getD [])) (liveSlots htab : Set ℕ) := by
    intro i hi j hj heq
    simp only [Finset.mem_coe, liveSlots, Finset.mem_filter, Finset.mem_Icc] at hi hj
    obtain ⟨ki, -, hki, -⟩ := hw.used i hi.1.1 hi.1.2 hi.2
    obtain ⟨kj, -, hkj, -⟩ := hw.used j hj.1.1 hj.1.2 hj.2
    simp only [hki, hkj, getD_some] at heq
    exact hw.unique i j ki ⟨hi.1, hi.2, hki⟩ ⟨hj.1, hj.2, heq ▸ hkj⟩
  rw [nameCount, hnames, hinj.ncard_image, Set.ncard_coe_finset, hw.count]

theorem enter_name (ha : Accepts hooks) (hw : WellFormed htab) (hm : Represents htab m)
    (state : State) {flag : ℕ} {name value : Str} (hok : CallOk htab (.enter name value flag)) :
    ∃ r, hsearchR hooks ⟨true, true⟩ htab state name (.enter value) flag = some r ∧
      r.tab.size = htab.size ∧ WellFormed r.tab ∧
      Represents r.tab (update m name (taken htab.size m name (some value))) := by
  obtain ⟨r, hr⟩ := exec_total hooks hw state (.enter name value flag)
  obtain ⟨hw', hm'⟩ := exec_represents ha hw hm hok hr
  refine ⟨r, hr, enter_size hr, hw', ?_⟩
  rw [Call.effect, filled_nameCount hw hm] at hm'
  unfold taken
  split_ifs at hm' ⊢ with hfull
  · rwa [← hfull.1, update_eq_self]
  · exact hm'

theorem delete_name (ha : Accepts hooks) (hw : WellFormed htab) (hm : Represents htab m)
    (state : State) (flag : ℕ) (name : Str) : ∃ r, hdeleteR hooks htab state name flag = some r ∧
      r.tab.size = htab.size ∧ WellFormed r.tab ∧ Represents r.tab (update m name none) := by
  obtain ⟨r, hr⟩ := exec_total hooks hw state (.delete name flag)
  have hok : CallOk htab (.delete name flag) := trivial
  exact ⟨r, hr, delete_size hr, exec_represents ha hw hm hok hr⟩

theorem taken_none (size : ℕ) (m : Str → Option Str) (name : Str) : taken size m name none = none :=
  ite_self none

/- What `op` does to the name of a line happens if the name is listed; it leaves the list anyway. -/
theorem importLine_change {s : Importing Callback State} (hw : WellFormed s.htab)
    (hm : Represents s.htab m) {line : Line} {name : Str} {x : Option Str}
    (hc : line.change = some (name, x)) {op : Option (Reply Callback State)}
    (hop : (dropVarFromSet name s.vars).1 = true → ∃ r, op = some r ∧ r.tab.size = s.htab.size ∧
      WellFormed r.tab ∧ Represents r.tab (update m name (taken s.htab.size m name x)))
    (hline : importLine hooks flag s line =
      if !(dropVarFromSet name s.vars).1 then
        some (true, { s with vars := (dropVarFromSet name s.vars).2 })
      else op.map fun r => (true, ⟨r.tab, r.state, (dropVarFromSet name s.vars).2⟩)) :
    ∃ s', importLine hooks flag s line = some (true, s') ∧ s'.htab.size = s.htab.size ∧
      WellFormed s'.htab ∧ (s'.vars = [] ↔ s.vars = []) ∧
      (∀ key, some key ∈ s'.vars ↔ some key ∈ s.vars ∧ line.effectOn s.htab.size m key = none) ∧
      Represents s'.htab fun key =>
        if s.vars = [] ∨ some key ∈ s.vars then line.apply s.htab.size m key else m key := by
  have hleft : ∀ key, some key ∈ (dropVarFromSet name s.vars).2 ↔
      some key ∈ s.vars ∧ line.effectOn s.htab.size m key = none := fun key => by
    simp [dropVarFromSet_left, effectOn_change hc]
  rw [hline]
  cases hlisted : (dropVarFromSet name s.vars).1 with
  | false =>
    have hout := not_or.mp (dropVarFromSet_listed.not.mp (Bool.eq_false_iff.mp hlisted))
    refine ⟨_, rfl, rfl, hw, dropVarFromSet_eq_nil, hleft, ?_⟩
    convert hm using 1
    funext key
    by_cases hkey : name = key
    · rw [← hkey, if_neg (not_or.mpr hout)]
    · rw [Line.apply, effectOn_change hc, if_neg hkey, getD_none, ite_self]
  | true =>
    obtain ⟨r, rfl, hsize, hw', hm'⟩ := hop hlisted
    refine ⟨_, rfl, hsize, hw', dropVarFromSet_eq_nil, hleft, ?_⟩
    convert hm' using 1
    funext key
    rw [Line.apply, effectOn_change hc]
    by_cases hkey : name = key
    · subst hkey
      rw [if_pos (dropVarFromSet_listed.mp hlisted), if_pos rfl, getD_some, update_self]
    · rw [if_neg hkey, getD_none, ite_self, update_of_ne (Ne.symm hkey)]

/-- A line that does not stop the import: it changes its name, if that is on the list. -/
theorem importLine_step (ha : Accepts hooks) (flag : ℕ) {s : Importing Callback State} (hw : WellFormed s.htab)
    (hm : Represents s.htab m) {line : Line} (hstop : line.stops = false)
    (hplace : ∀ name value, line = .enter name value → name ≠ [] →
      (dropVarFromSet name s.vars).1 = true → CallOk s.htab (.enter name value flag)) :
    ∃ s', importLine hooks flag s line = some (true, s') ∧ s'.htab.size = s.htab.size ∧
      WellFormed s'.htab ∧ (s'.vars = [] ↔ s.vars = []) ∧
      (∀ key, some key ∈ s'.vars ↔ some key ∈ s.vars ∧ line.effectOn s.htab.size m key = none) ∧
      Represents s'.htab fun key =>
        if s.vars = [] ∨ some key ∈ s.vars then line.apply s.htab.size m key else m key := by
  cases line with
  | comment =>
    refine ⟨s, rfl, rfl, hw, Iff.rfl, fun key => (and_iff_left rfl).symm, ?_⟩
    convert hm using 1
    exact funext fun key => ite_self _
  | delete name =>
    refine importLine_change hw hm rfl (fun _ => ?_) rfl
    rw [taken_none]
    exact delete_name ha hw hm s.state flag name
  | enter name value =>
    have hname : name ≠ [] := by
      rintro rfl
      cases hstop
    exact importLine_change hw hm rfl
      (fun hlisted => enter_name ha hw hm s.state (hplace name value rfl hname hlisted)) (if_neg hname)

theorem importLine_stop {s : Importing Callback State} {line : Line} (h : line.stops = true) :
    importLine hooks flag s line = some (false, s) := by
  match line with
  | .comment => cases h
  | .delete _ => cases h
  | .enter [] _ => rfl
  | .enter (_ :: _) _ => cases h

end Step

def stopped (lines : List Line) : Bool := lines.any Line.stops

section Run

variable {hooks : Hooks Callback State} {m : Str → Option Str} {flag : ℕ} {lines : List Line}
  (ha : Accepts hooks)

include ha

variable {s : Importing Callback State}

/-- The full import: every name has what its last line says. -/
theorem importLines_full {size : ℕ} (hsize : s.htab.size = size) (hw : WellFormed s.htab)
    (hm : Represents s.htab m) (hvars : s.vars = []) (hroom : Roomy hooks flag s lines) :
    ∃ s', importLines hooks flag s lines = some (!stopped lines, s') ∧ s'.vars = [] ∧
      WellFormed s'.htab ∧
      Represents s'.htab fun name => (lastEffect size name m lines).getD (m name) := by
  induction lines generalizing s m with
  | nil => exact ⟨s, rfl, hvars, hw, hm⟩
  | cons line lines ih =>
    cases hs : line.stops with
    | true =>
      refine ⟨s, ?_, hvars, hw, ?_⟩
      · rw [importLines, importLine_stop hs, stopped, any_cons, hs]
        rfl
      · simp only [lastEffect_stop hs, getD_none]
        exact hm
    | false =>
      obtain ⟨s₁, hline, hsize₁, hw₁, hnil, -, hm₁⟩ := importLine_step ha flag hw hm hs hroom.1
      simp only [hvars, true_or, if_true, hsize] at hm₁
      obtain ⟨s', hrun, hvars', hw', hm'⟩ :=
        ih (hsize₁.trans hsize) hw₁ hm₁ (hnil.mpr hvars) (hroom.2 s₁ hline)
      refine ⟨s', ?_, hvars', hw', ?_⟩
      · rw [importLines, hline, stopped, any_cons, hs, Bool.false_or]
        exact hrun
      · simp only [lastEffect_cons hs, getD_or]
        exact hm'

/-- The selective import: a listed name has what its first line says, and leaves the list. -/
theorem importLines_listed {size : ℕ} {vars : List Str} (hsize : s.htab.size = size)
    (hw : WellFormed s.htab) (hm : Represents s.htab m) (hvars : s.vars ≠ [])
    (hlist : ∀ name, some name ∈ s.vars ↔ name ∈ vars) (hroom : Roomy hooks flag s lines) :
    ∃ s', importLines hooks flag s lines = some (!stopped lines, s') ∧
      (∀ name, some name ∈ s'.vars ↔ name ∈ vars ∧ firstEffect size name m vars lines = none) ∧
      WellFormed s'.htab ∧ Represents s'.htab fun name =>
        if name ∈ vars then (firstEffect size name m vars lines).getD (m name) else m name := by
  induction lines generalizing s m vars with
  | nil =>
    exact ⟨s, rfl, fun name => (hlist name).trans (and_iff_left rfl).symm, hw,
      by simpa [firstEffect] using hm⟩
  | cons line lines ih =>
    cases hs : line.stops with
    | true =>
      refine ⟨s, ?_, fun name => (hlist name).trans (and_iff_left (firstEffect_stop hs)).symm, hw, ?_⟩
      · rw [importLines, importLine_stop hs, stopped, any_cons, hs]
        rfl
      · simp only [firstEffect_stop hs, getD_none, ite_self]
        exact hm
    | false =>
      obtain ⟨s₁, hline, hsize₁, hw₁, hnil, hlist₁, hm₁⟩ :=
        importLine_step ha flag hw hm hs hroom.1
      simp only [hvars, false_or, hlist, hsize] at hlist₁ hm₁
      have hleft : ∀ name, name ∈ line.left size m vars ↔
          name ∈ vars ∧ line.effectOn size m name = none := fun name => by
        rw [Line.left, mem_filter, isNone_iff_eq_none]
      obtain ⟨s', hrun, hlisted, hw', hm'⟩ := @ih (line.applyListed size m vars) s₁
        (line.left size m vars) (hsize₁.trans hsize) hw₁
        (by unfold Line.applyListed; simpa only [contains_iff_mem] using hm₁) (hnil.not.mpr hvars)
        (fun name => (hlist₁ name).trans (hleft name).symm) (hroom.2 s₁ hline)
      refine ⟨s', ?_, fun name => ?_, hw', ?_⟩
      · rw [importLines, hline, stopped, any_cons, hs, Bool.false_or]
        exact hrun
      · rw [hlisted, hleft, firstEffect_cons hs, or_eq_none_iff, and_assoc]
      · convert hm' using 1
        funext name
        simp only [firstEffect_cons hs, hleft]
        by_cases hmem : name ∈ vars
        · cases heffect : line.effectOn size m name with
          | none => simp [hmem, heffect, Line.applyListed, Line.apply]
          | some x => simp [hmem, heffect, Line.applyListed, Line.apply]
        · simp [hmem, Line.applyListed]

theorem dropRest_names (hw : WellFormed s.htab)
    (hm : Represents s.htab m) (names : List (Option Str)) :
    ∃ s', dropRest hooks flag s names = some s' ∧ WellFormed s'.htab ∧
      Represents s'.htab fun name => if some name ∈ names then none else m name := by
  induction names generalizing s m with
  | nil => exact ⟨s, rfl, hw, by simpa using hm⟩
  | cons v names ih =>
    cases v with
    | none =>
      obtain ⟨s', hrun, hw', hm'⟩ := ih hw hm
      exact ⟨s', hrun, hw', by simpa using hm'⟩
    | some key =>
      obtain ⟨r, hr, -, hwr, hmr⟩ := delete_name ha hw hm s.state flag key
      obtain ⟨s', hrun, hw', hm'⟩ := @ih _ ⟨r.tab, r.state, s.vars⟩ hwr hmr
      refine ⟨s', ?_, hw', ?_⟩
      · rw [dropRest, hr]
        exact hrun
      · convert hm' using 2 with name
        simp only [mem_cons, some.injEq]
        by_cases hmem : some name ∈ names
        · rw [if_pos (.inr hmem), if_pos hmem]
        · by_cases hkey : name = key
          · rw [if_pos (.inl hkey), if_neg hmem, hkey, update_self]
          · rw [if_neg (not_or.mpr ⟨hkey, hmem⟩), if_neg hmem, update_of_ne hkey]

end Run

def textLines (sep : UInt8) (crlfIsLf : Bool) (env : Str) : List Line :=
  if env = [] then [] else bufferLines sep crlfIsLf env

/-- What a list of variables promises, next to the table before the import and the one after
a full import. -/
structure Selects (hooks : Hooks Callback State) (vars : List Str) (lines : List Line)
    (before full after : Importing Callback State) : Prop where
  unlisted : ∀ name, name ∉ vars →
    getenv hooks after.htab after.state name = getenv hooks before.htab before.state name
  entered : ∀ name ∈ vars, (∃ value, Line.enter name value ∈ lines) →
    getenv hooks after.htab after.state name = getenv hooks full.htab full.state name
  absent : ∀ name ∈ vars, (∀ value, Line.enter name value ∉ lines) →
    getenv hooks after.htab after.state name = none

def ImportSelects (hooks : Hooks Callback State) (htab : Htab Callback) (state : State) (env : Str)
    (sep : UInt8) (flag : ℕ) (crlfIsLf : Bool) (vars : List Str) : Prop :=
  ∃ full after, himportR hooks (some htab) state env sep flag crlfIsLf [] = some full ∧
    himportR hooks (some htab) state env sep flag crlfIsLf vars = some after ∧
    Selects hooks vars (textLines sep crlfIsLf env) ⟨htab, state, []⟩ full.2 after.2

/-- The first line of a listed name gives it what the last one gives it in a full import. Where the
lines are not all considered, a listed name without a line is not in the table. -/
def FirstDecides (hooks : Hooks Callback State) (htab : Htab Callback) (state : State) (sep : UInt8)
    (crlfIsLf : Bool) (env : Str) (vars : List Str) : Prop :=
  ∀ name ∈ vars,
    ((∃ value, Line.enter name value ∈ textLines sep crlfIsLf env) →
      firstEffect htab.size name (getenv hooks htab state) vars (textLines sep crlfIsLf env) =
        lastEffect htab.size name (getenv hooks htab state) (textLines sep crlfIsLf env)) ∧
    ((∀ value, Line.enter name value ∉ textLines sep crlfIsLf env) →
      (env = [] ∨ stopped (textLines sep crlfIsLf env) = true) →
      firstEffect htab.size name (getenv hooks htab state) vars (textLines sep crlfIsLf env) = none →
      getenv hooks htab state name = none)

section Imports

variable {hooks : Hooks Callback State} {htab : Htab Callback} {state : State} {env : Str}
  {sep : UInt8} {flag : ℕ} {crlfIsLf : Bool} {vars : List Str} {m : Str → Option Str}

theorem getenv_map (hooks : Hooks Callback State) (hw : WellFormed htab) (state : State) :
    Represents htab (getenv hooks htab state) := by
  intro key v
  by_cases hp : ∃ i, Holds htab i key
  · obtain ⟨i, hi⟩ := hp
    have hget : getenv hooks htab state key = (htab.table i).data := by
      rw [getenv, find_present hooks _ state hw 0 hi]
      rfl
    rw [hget]
    constructor
    · exact fun hd => ⟨i, hi, hd⟩
    · rintro ⟨j, hj, hd⟩
      rwa [hw.unique i j key hi hj]
  · have habs := not_exists.mp hp
    rw [getenv, find_absent hooks _ state hw 0 habs]
    exact iff_of_false (by simp) fun ⟨i, hi, _⟩ => habs i hi

theorem importTable_old (hflag : noClear flag = true) (size : ℕ) :
    importTable (some htab) size flag = some htab := by
  rw [importTable, hflag]
  rfl

variable (ha : Accepts hooks) (hw : WellFormed htab) (hm : Represents htab m)
  (hflag : noClear flag = true)

include ha hw hm hflag

theorem himportR_full (hroom : Roomy hooks flag ⟨htab, state, []⟩ (textLines sep crlfIsLf env)) :
    ∃ r, himportR hooks (some htab) state env sep flag crlfIsLf [] = some r ∧
      ∀ name, getenv hooks r.2.htab r.2.state name =
        (lastEffect htab.size name m (textLines sep crlfIsLf env)).getD (m name) := by
  by_cases henv : env = []
  · refine ⟨(1, ⟨htab, state, []⟩), ?_, fun name => ?_⟩
    · rw [himportR, importTable_old hflag, henv]
      rfl
    · rw [textLines, if_pos henv]
      exact getenv_represents hw hm state name
  · rw [textLines, if_neg henv] at hroom ⊢
    obtain ⟨s, hrun, hvars, hw', hm'⟩ := importLines_full ha rfl hw hm rfl hroom
    have himport := himportR_lines hooks (some htab) state henv sep flag crlfIsLf []
      (importTable_old hflag env.length)
    rw [map_nil, hrun] at himport
    cases hstop : stopped (bufferLines sep crlfIsLf env) with
    | true =>
      rw [hstop] at himport
      exact ⟨(0, s), himport, getenv_represents hw' hm' s.state⟩
    | false =>
      rw [hstop] at himport
      refine ⟨(1, s), ?_, getenv_represents hw' hm' s.state⟩
      rw [himport]
      simp only [Bool.not_false, hvars, dropRest, map_some]

theorem himportR_listed (hvars : vars ≠ [])
    (hroom : Roomy hooks flag ⟨htab, state, vars.map some⟩ (textLines sep crlfIsLf env)) :
    ∃ r, himportR hooks (some htab) state env sep flag crlfIsLf vars = some r ∧
      ∀ name, getenv hooks r.2.htab r.2.state name =
        if name ∈ vars then
          (firstEffect htab.size name m vars (textLines sep crlfIsLf env)).getD
            (if env = [] ∨ stopped (textLines sep crlfIsLf env) = true then m name else none)
        else m name := by
  have hmem : ∀ name, some name ∈ vars.map some ↔ name ∈ vars := fun name => by simp
  by_cases henv : env = []
  · refine ⟨(1, ⟨htab, state, vars.map some⟩), ?_, fun name => ?_⟩
    · rw [himportR, importTable_old hflag, henv]
      rfl
    · rw [textLines, if_pos henv, firstEffect, getD_none, if_pos (Or.inl henv), ite_self]
      exact getenv_represents hw hm state name
  · simp only [henv, false_or]
    rw [textLines, if_neg henv] at hroom ⊢
    obtain ⟨s, hrun, hlisted, hw', hm'⟩ := 
      importLines_listed ha rfl hw hm (by simpa using hvars) hmem hroom
    have himport := himportR_lines hooks (some htab) state henv sep flag crlfIsLf vars
      (importTable_old hflag env.length)
    rw [hrun] at himport
    cases hstop : stopped (bufferLines sep crlfIsLf env) with
    | true =>
      rw [hstop] at himport
      refine ⟨(0, s), himport, fun name => ?_⟩
      rw [getenv_represents hw' hm', if_pos rfl]
    | false =>
      rw [hstop] at himport
      obtain ⟨s', hrest, hw'', hm''⟩ : ∃ s', dropRest hooks flag s s.vars = some s' ∧ _ :=
        dropRest_names ha hw' hm' s.vars
      refine ⟨(1, s'), ?_, fun name => ?_⟩
      · rw [himport]
        simp only [Bool.not_false, hrest, map_some]
      · rw [getenv_represents hw'' hm'']
        simp only [hlisted, Bool.false_eq_true, if_false]
        by_cases hname : name ∈ vars
        · cases firstEffect htab.size name m vars (bufferLines sep crlfIsLf env) with
          | none => simp [hname]
          | some x => simp [hname]
        · simp [hname]

end Imports

/-- Of the imports that overwrite no entry of another name, a selective one does what its list says
exactly when the first line of each name decides. -/
theorem importSelects_iff (hooks : Hooks Callback State) (ha : Accepts hooks) (htab : Htab Callback)
    (hw : WellFormed htab) (state : State) (env : Str) (sep : UInt8) (flag : ℕ)
    (hflag : noClear flag = true) (crlfIsLf : Bool) (vars : List Str) (hvars : vars ≠ [])
    (hfull : Roomy hooks flag ⟨htab, state, []⟩ (textLines sep crlfIsLf env))
    (hlisted : Roomy hooks flag ⟨htab, state, vars.map some⟩ (textLines sep crlfIsLf env)) :
    ImportSelects hooks htab state env sep flag crlfIsLf vars ↔
      FirstDecides hooks htab state sep crlfIsLf env vars := by
  have hm := getenv_map hooks hw state
  obtain ⟨full, hrunFull, hvalueFull⟩ := himportR_full ha hw hm hflag hfull
  obtain ⟨after, hrunAfter, hvalueAfter⟩ := himportR_listed ha hw hm hflag hvars hlisted
  obtain ⟨lines, hlines⟩ : ∃ lines, lines = textLines sep crlfIsLf env := ⟨_, rfl⟩
  unfold FirstDecides
  rw [← hlines] at hvalueFull hvalueAfter ⊢
  have hselects : ImportSelects hooks htab state env sep flag crlfIsLf vars ↔
      Selects hooks vars lines ⟨htab, state, []⟩ full.2 after.2 := by
    unfold ImportSelects
    rw [← hlines]
    constructor
    · rintro ⟨full', after', h1, h2, h⟩
      obtain rfl := some.inj (hrunFull.symm.trans h1)
      obtain rfl := some.inj (hrunAfter.symm.trans h2)
      exact h
    · exact fun h => ⟨full, after, hrunFull, hrunAfter, h⟩
  rw [hselects]
  have hvalue : ∀ name ∈ vars, (∃ value, Line.enter name value ∈ lines) →
      getenv hooks after.2.htab after.2.state name =
        (firstEffect htab.size name (getenv hooks htab state) vars lines).getD
          (getenv hooks htab state name) := by
    rintro name hname ⟨value, hmem⟩
    rw [hvalueAfter, if_pos hname]
    split_ifs with hstop
    · rfl
    · have hall := (Bool.eq_false_iff.mpr fun h => hstop (.inr h) : stopped lines = false)
      have hsome : firstEffect htab.size name (getenv hooks htab state) vars lines ≠ none :=
        firstEffect_of_enter (fun l hl => by simpa using any_eq_false.mp hall l hl) hmem
      obtain ⟨x, hx⟩ := ne_none_iff_exists'.mp hsome
      rw [hx, getD_some, getD_some]
  constructor
  · intro h name hname
    refine ⟨fun henter => ?_, fun henter hstop hnone => ?_⟩
    · have heq := h.entered name hname henter
      rw [hvalue name hname henter, hvalueFull] at heq
      exact (getD_eq_iff firstEffect_none_iff _).mp heq
    · have hgone := h.absent name hname henter
      rwa [hvalueAfter, if_pos hname, hnone, getD_none, if_pos hstop] at hgone
  · intro h
    refine ⟨fun name hname => ?_, fun name hname henter => ?_, fun name hname henter => ?_⟩
    · rw [hvalueAfter, if_neg hname]
    · rw [hvalue name hname henter, hvalueFull, (h name hname).1 henter]
    · rw [hvalueAfter, if_pos hname]
      cases hfirst : firstEffect htab.size name (getenv hooks htab state) vars lines with
      | some x =>
        cases x with
        | none => rfl
        | some value => exact absurd (enter_of_firstEffect hfirst) (henter value)
      | none =>
        rw [getD_none]
        split_ifs with hstop
        · exact (h name hname).2 henter hstop hfirst
        · rfl

def fiveSlots : Htab Unit := ⟨5, 0, fun _ => emptySlot Unit⟩

theorem fiveSlots_wellFormed : WellFormed fiveSlots := (emptyTable_wellFormed (by decide) le_rfl).1

/- The one line "a=1" for the list "a". -/
theorem importSelects_iff_one :
    ImportSelects plainHooks fiveSlots () [97, 61, 49] nul 1 false [[97]] := by
  have hlines : textLines nul false [97, 61, 49] = [.enter [97] [49]] := by decide +kernel
  have hok : ∀ value, CallOk fiveSlots (.enter [97] value 1) :=
    fun _ => .inr (.inr (.inl ⟨1, by decide, rfl⟩))
  have hroom : ∀ vars, Roomy plainHooks 1 ⟨fiveSlots, (), vars⟩ [.enter [97] [49]] := by
    refine fun vars => ⟨fun name value hline _ _ => ?_, fun _ _ => trivial⟩
    obtain ⟨rfl, -⟩ := Line.enter.inj hline
    exact hok value
  refine (importSelects_iff plainHooks plainHooks_accepts fiveSlots fiveSlots_wellFormed () _ nul 1
    rfl false [[97]] (by decide) (by rw [hlines]; exact hroom _) (by rw [hlines]; exact hroom _)).mpr ?_
  intro name hname
  obtain rfl := mem_singleton.mp hname
  rw [hlines]
  exact ⟨fun _ => by simp [firstEffect, lastEffect], fun hno => absurd mem_cons_self (hno [49])⟩

/- With "a=1" and "a=2" in the buffer, a full import gives 2 and one of the listed `a` gives 1. -/
theorem first_line_wins :
    ¬ImportSelects plainHooks fiveSlots () [97, 61, 49, 0, 97, 61, 50] nul 1 false [[97]] := by
  rintro ⟨full, after, hfull, hafter, h⟩
  have hlast : (himportR plainHooks (some fiveSlots) () [97, 61, 49, 0, 97, 61, 50] nul 1 false []).map
      (fun r => getenv plainHooks r.2.htab r.2.state [97]) = some (some [50]) := by decide +kernel
  have hfirst : (himportR plainHooks (some fiveSlots) () [97, 61, 49, 0, 97, 61, 50] nul 1 false
      [[97]]).map (fun r => getenv plainHooks r.2.htab r.2.state [97]) = some (some [49]) := by
    decide +kernel
  have hline : Line.enter [97] [49] ∈ textLines nul false [97, 61, 49, 0, 97, 61, 50] := by
    decide +kernel
  have heq := h.entered [97] mem_cons_self ⟨[49], hline⟩
  rw [hfull, map_some, some.injEq] at hlast
  rw [hafter, map_some, some.injEq, heq, hlast] at hfirst
  exact absurd hfirst (by decide)

end UBoot.Env
