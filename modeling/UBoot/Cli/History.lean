import UBoot.Cli.Readline

/-!
# The history of commands

The ring of slots shows what the list of the lines entered shows.
-/

namespace UBoot.Cli

open List

section Simulation

variable {H H' : Type} {ops : HistOps H} {ops' : HistOps H'} (cfg : Config)

structure Sim (ops : HistOps H) (ops' : HistOps H') (rel : H → H' → Prop) : Prop where
  prev : ∀ {h h'}, rel h h' → rel (ops.prev h).1 (ops'.prev h').1 ∧ (ops.prev h).2 = (ops'.prev h').2
  next : ∀ {h h'}, rel h h' → rel (ops.next h).1 (ops'.next h').1 ∧ (ops.next h).2 = (ops'.next h').2
  enter : ∀ {h h'} line, rel h h' → rel (ops.enter line h) (ops'.enter line h')

inductive Related (rel : H → H' → Prop) : Result H → Result H' → Prop where
  | editing {h h' e} : rel h h' → Related rel (.editing h e) (.editing h' e)
  | entered {h h' line} : rel h h' → Related rel (.entered h line) (.entered h' line)
  | left {h h'} : rel h h' → Related rel (.left h) (.left h')

variable {rel : H → H' → Prop}

theorem showLine_related {found : H × Option Line} {found' : H' × Option Line} {e : Edit}
    (hrel : rel found.1 found'.1) (hline : found.2 = found'.2) :
    rel (showLine found e).1 (showLine found' e).1 ∧ (showLine found e).2 = (showLine found' e).2 := by
  obtain ⟨h, line⟩ := found
  obtain ⟨h', line'⟩ := found'
  obtain rfl : line = line' := hline
  cases line with
  | none => exact ⟨hrel, rfl⟩
  | some hline => exact ⟨hrel, rfl⟩

variable {h : H} {h' : H'}

theorem command_related (hsim : Sim ops ops' rel) (hrel : rel h h') (e : Edit)
    (ichar : UInt8) : rel (command ops cfg h e ichar).1 (command ops' cfg h' e ichar).1 ∧
      (command ops cfg h e ichar).2 = (command ops' cfg h' e ichar).2 := by
  rw [command, command]
  split
  · exact showLine_related (hsim.prev hrel).1 (hsim.prev hrel).2
  split
  · exact showLine_related (hsim.next hrel).1 (hsim.next hrel).2
  · exact ⟨hrel, rfl⟩

theorem command_editing (hsim : Sim ops ops' rel) (hrel : rel h h') (e : Edit) (ichar : UInt8) :
    Related rel (let (h, e) := command ops cfg h e ichar; .editing h e)
      (let (h, e) := command ops' cfg h' e ichar; .editing h e) := by
  obtain ⟨hhist, hedit⟩ := command_related cfg hsim hrel e ichar
  dsimp only
  rw [hedit]
  exact Related.editing hhist

theorem onKey_related (hsim : Sim ops ops' rel) (hrel : rel h h') (e : Edit)
    (ichar : UInt8) : Related rel (onKey ops cfg h e ichar) (onKey ops' cfg h' e ichar) := by
  rw [onKey, onKey]
  split
  · exact Related.entered (hsim.enter _ hrel)
  split
  · split
    · exact Related.left hrel
    · exact command_editing cfg hsim hrel e ichar
  · split
    · exact Related.editing hrel
    · exact Related.editing hrel
  · split
    · exact command_editing cfg hsim hrel _ _
    · exact Related.editing hrel

theorem creadLoop_related (hsim : Sim ops ops' rel) (events : List Event) :
    ∀ {h : H} {h' : H'}, rel h h' → ∀ e,
      Related rel (creadLoop ops cfg h e events) (creadLoop ops' cfg h' e events) := by
  induction events with
  | nil => exact fun hrel _ => Related.editing hrel
  | cons event events ih =>
    intro h h' hrel e
    cases event with
    | timeout => exact Related.left hrel
    | key ichar =>
      have hkey := onKey_related cfg hsim hrel e ichar
      rw [creadLoop, creadLoop]
      generalize onKey ops cfg h e ichar = result at hkey
      generalize onKey ops' cfg h' e ichar = result' at hkey
      cases hkey with
      | editing hrel => exact ih hrel _
      | entered hrel => exact Related.entered hrel
      | left hrel => exact Related.left hrel

end Simulation

/- The slot of the line at a position; the one of position 0 is written next. -/
def slot (addIdx k : ℕ) : ℕ := (addIdx + 20 - k) % 20

/- The ring holds the latest lines, and `hist_cur` is the slot of the line shown, or nothing was
entered yet. -/
structure Holds (r : Ring) (h : Latest) : Prop where
  addIdx : r.addIdx = h.lines.length % 20
  max : r.max = min h.lines.length 19
  slots : ∀ k, 0 < k → k ≤ min h.lines.length 20 → r.list (slot r.addIdx k) = shown h.lines k
  pos : h.pos ≤ h.reach
  cur : r.cur = -1 ∧ h.lines = [] ∨ r.cur = slot r.addIdx h.pos

theorem reach_eq (h : Latest) : h.reach = min h.lines.length 19 := rfl

theorem holds_init : Holds histInit ⟨[], 0⟩ :=
  ⟨rfl, rfl, fun k hk hle => by simp at hle; lia, le_rfl, .inl ⟨rfl, rfl⟩⟩

section Slots

variable {r : Ring} {h : Latest}

theorem Holds.prev (hr : Holds r h) : Holds (histPrev r).1 (latestOps.prev h).1 ∧
    (histPrev r).2 = (latestOps.prev h).2 := by
  have hadd := hr.addIdx
  have hmax := hr.max
  have hpos := hr.pos
  rw [reach_eq] at hpos
  rcases hr.cur with ⟨hcur, hempty⟩ | hcur
  · -- nothing was entered
    have hreach : ¬ h.pos < h.reach := by
      rw [reach_eq, hempty, length_nil]
      lia
    rw [histPrev, if_pos (by lia)]
    simp only [latestOps, if_neg hreach]
    exact ⟨hr, trivial⟩
  · rw [slot] at hcur
    rw [histPrev, if_neg (by lia)]
    by_cases hreach : h.pos < h.reach
    · have hlt := hreach
      rw [reach_eq] at hlt
      have hprev : (if r.cur - 1 < 0 then (r.max : ℤ) else r.cur - 1) =
          (slot r.addIdx (h.pos + 1) : ℕ) := by
        rw [slot]
        split <;> lia
      have hne : ¬ ((slot r.addIdx (h.pos + 1) : ℕ) : ℤ) = r.addIdx := by
        rw [slot]
        lia
      rw [hprev, if_neg hne]
      simp only [latestOps, if_pos hreach, Int.toNat_natCast]
      refine ⟨⟨hr.addIdx, hr.max, hr.slots, hreach, .inr rfl⟩, ?_⟩
      rw [hr.slots (h.pos + 1) (by lia) (by lia)]
    · have hge := hreach
      rw [reach_eq] at hge
      have hprev : (if r.cur - 1 < 0 then (r.max : ℤ) else r.cur - 1) = r.addIdx := by
        split <;> lia
      rw [hprev, if_pos rfl]
      simp only [latestOps, if_neg hreach]
      exact ⟨hr, trivial⟩

theorem Holds.next (hr : Holds r h) : Holds (histNext r).1 (latestOps.next h).1 ∧
    (histNext r).2 = (latestOps.next h).2 := by
  have hadd := hr.addIdx
  have hmax := hr.max
  have hpos := hr.pos
  rw [reach_eq] at hpos
  rcases hr.cur with ⟨hcur, hempty⟩ | hcur
  · have hzero : h.pos = 0 := by
      rw [hempty, length_nil] at hpos
      lia
    rw [histNext, if_pos (by lia)]
    simp only [latestOps, if_pos hzero]
    exact ⟨hr, trivial⟩
  · rw [slot] at hcur
    rw [histNext, if_neg (by lia)]
    by_cases hzero : h.pos = 0
    · rw [if_pos (by lia)]
      simp only [latestOps, if_pos hzero]
      exact ⟨hr, trivial⟩
    · have hnext : (if (r.max : ℤ) < r.cur + 1 then 0 else r.cur + 1) =
          (slot r.addIdx (h.pos - 1) : ℕ) := by
        rw [slot]
        split <;> lia
      rw [if_neg (by lia), hnext]
      simp only [latestOps, if_neg hzero, Int.toNat_natCast]
      refine ⟨⟨hr.addIdx, hr.max, hr.slots, (Nat.sub_le _ _).trans hr.pos, .inr rfl⟩, ?_⟩
      by_cases hone : h.pos = 1
      · rw [if_pos (by rw [slot]; lia), hone]
        rfl
      · rw [if_neg (by rw [slot]; lia), hr.slots (h.pos - 1) (by lia) (by lia)]

theorem Holds.enter (hr : Holds r h) (line : Line) :
    Holds (histEnter line r) (latestOps.enter line h) := by
  have hadd := hr.addIdx
  have hmax := hr.max
  have hzero : ∀ {a : ℕ}, a < 20 → ((a : ℕ) : ℤ) = (slot a 0 : ℕ) := by
    intro a ha
    rw [slot]
    lia
  rw [histEnter]
  cases hrec : recorded line with
  | false =>
    simp only [latestOps, hrec, Bool.false_eq_true, if_false]
    exact ⟨hr.addIdx, hr.max, hr.slots, Nat.zero_le _, .inr (hzero (by lia))⟩
  | true =>
    simp only [latestOps, hrec, if_true]
    have hnext : (creadAddToHist line r).addIdx = (h.lines.length + 1) % 20 := by
      have hwrap : (creadAddToHist line r).addIdx =
          if 20 ≤ r.addIdx + 1 then 0 else r.addIdx + 1 := rfl
      rw [hwrap]
      split <;> lia
    refine ⟨hnext, ?_, ?_, Nat.zero_le _, .inr (hzero (by lia))⟩
    · have hgrown : (creadAddToHist line r).max =
          if r.max < (creadAddToHist line r).addIdx then (creadAddToHist line r).addIdx
          else r.max := rfl
      show (creadAddToHist line r).max = _
      rw [hgrown, hnext, length_cons]
      split <;> lia
    · intro k hk hle
      rw [length_cons] at hle
      show Function.update r.list r.addIdx line (slot (creadAddToHist line r).addIdx k) = _
      by_cases hone : k = 1
      · have hslot : slot (creadAddToHist line r).addIdx 1 = r.addIdx := by
          rw [hnext, slot]
          lia
        rw [hone, hslot, Function.update_self]
        rfl
      · -- an older line; its slot is not the one written
        obtain ⟨j, rfl⟩ : ∃ j, k = j + 1 := ⟨k - 1, by lia⟩
        have hslot : slot (creadAddToHist line r).addIdx (j + 1) = slot r.addIdx j := by
          rw [hnext, slot, slot]
          lia
        have hne : slot r.addIdx j ≠ r.addIdx := by
          rw [slot]
          lia
        rw [hslot, Function.update_of_ne hne, hr.slots j (by lia) (by lia)]
        cases j with
        | zero => lia
        | succ j => rfl

end Slots

theorem ring_sim : Sim ringOps latestOps Holds :=
  ⟨fun hr => hr.prev, fun hr => hr.next, fun line hr => hr.enter line⟩

section Invariant

variable {H : Type} {ops : HistOps H} (cfg : Config)

def EndsWith (ops : HistOps H) (p : H → Prop) : Result H → Prop
  | .editing h _ => p h
  | .left h => p h
  | .entered h line => ∃ h', p h' ∧ h = ops.enter line h'

variable {p : H → Prop}

theorem showLine_keeps {found : H × Option Line} {e : Edit} (h : p found.1) : p (showLine found e).1 := by
  obtain ⟨h', line⟩ := found
  cases line with
  | none => exact h
  | some hline => exact h

theorem command_keeps (hprev : ∀ h, p h → p (ops.prev h).1) (hnext : ∀ h, p h → p (ops.next h).1)
    {h : H} (hp : p h) (e : Edit) (ichar : UInt8) : p (command ops cfg h e ichar).1 := by
  rw [command]
  split
  · exact showLine_keeps (hprev h hp)
  split
  · exact showLine_keeps (hnext h hp)
  · exact hp

theorem onKey_keeps (hprev : ∀ h, p h → p (ops.prev h).1) (hnext : ∀ h, p h → p (ops.next h).1)
    {h : H} (hp : p h) (e : Edit) (ichar : UInt8) : EndsWith ops p (onKey ops cfg h e ichar) := by
  rw [onKey]
  split
  · exact ⟨h, hp, rfl⟩
  split
  · split
    · exact hp
    · exact command_keeps cfg hprev hnext hp _ _
  · split
    · exact hp
    · exact hp
  · split
    · exact command_keeps cfg hprev hnext hp _ _
    · exact hp

theorem creadLoop_keeps (hprev : ∀ h, p h → p (ops.prev h).1) (hnext : ∀ h, p h → p (ops.next h).1)
    (events : List Event) : ∀ {h : H}, p h → ∀ e, EndsWith ops p (creadLoop ops cfg h e events) := by
  induction events with
  | nil => exact fun hp _ => hp
  | cons event events ih =>
    intro h hp e
    cases event with
    | timeout => exact hp
    | key ichar =>
      have hkey := onKey_keeps cfg hprev hnext hp e ichar
      rw [creadLoop]
      generalize onKey ops cfg h e ichar = result at hkey
      cases result with
      | editing h' e' => exact ih hkey e'
      | entered h' line => exact hkey
      | left h' => exact hkey

end Invariant

inductive Press where
  | up
  | down

def Press.event : Press → Event
  | .up => .key 16
  | .down => .key 14

/- How the position and the text shown go with the presses: back to an older line as long as there
is one that is kept, and forth again to the empty line. -/
def browse (lines : List Line) : ℕ × Line → List Press → ℕ × Line
  | s, [] => s
  | (pos, text), .up :: presses =>
    if pos < min lines.length (histMax - 1)
    then browse lines (pos + 1, shown lines (pos + 1)) presses
    else browse lines (pos, text) presses
  | (pos, text), .down :: presses =>
    if pos = 0 then browse lines (pos, text) presses
    else browse lines (pos - 1, shown lines (pos - 1)) presses

section Browsing

variable (cfg : Config)

theorem press_event {H : Type} (ops : HistOps H) (h : H) {e : Edit} (hesc : e.escSave = [])
    (events : List Event) (press : Press) :
    creadLoop ops cfg h e (press.event :: events) =
      let found := match press with
        | .up => ops.prev h
        | .down => ops.next h
      creadLoop ops cfg (showLine found e).1 (showLine found e).2 events := by
  obtain ⟨text, num, insert, escSave⟩ := e
  subst hesc
  cases press with
  | up => rfl
  | down => rfl

theorem latest_browse (presses : List Press) : ∀ (h : Latest) (e : Edit), e.escSave = [] →
    ∃ h' e', creadLoop latestOps cfg h e (presses.map Press.event) = .editing h' e' ∧
      (h'.pos, e'.text) = browse h.lines (h.pos, e.text) presses := by
  induction presses with
  | nil => exact fun h e _ => ⟨h, e, rfl, rfl⟩
  | cons press presses ih =>
    intro h e hesc
    rw [map_cons, press_event cfg latestOps h hesc]
    cases press with
    | up =>
      rw [browse]
      by_cases hlt : h.pos < min h.lines.length (histMax - 1)
      · have hreach : h.pos < h.reach := hlt
        rw [if_pos hlt]
        simp only [latestOps, if_pos hreach]
        exact ih ⟨h.lines, h.pos + 1⟩ ⟨shown h.lines (h.pos + 1), _, e.insert, e.escSave⟩ hesc
      · have hreach : ¬ h.pos < h.reach := hlt
        rw [if_neg hlt]
        simp only [latestOps, if_neg hreach]
        exact ih h e hesc
    | down =>
      rw [browse]
      by_cases hzero : h.pos = 0
      · rw [if_pos hzero]
        simp only [latestOps, if_pos hzero]
        exact ih h e hesc
      · rw [if_neg hzero]
        simp only [latestOps, if_neg hzero]
        exact ih ⟨h.lines, h.pos - 1⟩ ⟨shown h.lines (h.pos - 1), _, e.insert, e.escSave⟩ hesc

end Browsing

/- The calls of `cread_line` from the start on, with the lines entered, the latest first. `p` holds
of the history behind each line that is left by ^C or a timeout. -/
inductive Runs (cfg : Config) (p : Ring → Prop) : List Line → Ring → Prop where
  | start : Runs cfg p [] histInit
  | entered {lines : List Line} {r r' : Ring} {buf line : Line} {events : List Event} :
      Runs cfg p lines r → creadLine ringOps cfg r buf events = .entered r' line →
      Runs cfg p (line :: lines) r'
  | left {lines : List Line} {r r' : Ring} {buf : Line} {events : List Event} :
      Runs cfg p lines r → creadLine ringOps cfg r buf events = .left r' → p r' →
      Runs cfg p lines r'

def AtEnd (r : Ring) : Prop := r.cur < 0 ∨ r.cur = r.addIdx

section Runs

variable {cfg : Config} {lines : List Line} {r : Ring}

theorem Holds.atEnd {h : Latest} (hr : Holds r h) (hend : AtEnd r) : h.pos = 0 := by
  have hadd := hr.addIdx
  have hpos := hr.pos
  rw [reach_eq] at hpos
  rcases hr.cur with ⟨-, hempty⟩ | hcur
  · rw [hempty, length_nil] at hpos
    lia
  · rw [slot] at hcur
    rcases hend with hneg | heq
    · lia
    · lia

theorem latest_keeps (h : Latest) (e : Edit) (events : List Event) :
    EndsWith latestOps (fun h' => h'.lines = h.lines) (creadLoop latestOps cfg h e events) := by
  refine creadLoop_keeps cfg (p := fun h' : Latest => h'.lines = h.lines) ?_ ?_ events rfl e
  · intro h' hlines
    simp only [latestOps]
    split
    · exact hlines
    · exact hlines
  · intro h' hlines
    simp only [latestOps]
    split
    · exact hlines
    · exact hlines

variable (cfg) in
theorem call_holds {h : Latest} (hr : Holds r h) (buf : Line) (events : List Event) :
    ∃ result, Related Holds (creadLine ringOps cfg r buf events) result ∧
      EndsWith latestOps (fun h' => h'.lines = h.lines) result :=
  ⟨_, creadLoop_related cfg ring_sim events hr _, latest_keeps h _ events⟩

theorem Runs.holds (hrun : Runs cfg AtEnd lines r) : Holds r ⟨lines.filter recorded, 0⟩ := by
  induction hrun with
  | start => exact holds_init
  | @entered lines r r' buf line events _ hcall ih =>
    obtain ⟨result, hrel, hkeeps⟩ := call_holds cfg ih buf events
    rw [hcall] at hrel
    cases hrel with
    | entered hr =>
      obtain ⟨⟨lines', pos⟩, hlines, rfl⟩ := hkeeps
      obtain rfl : lines' = lines.filter recorded := hlines
      rw [filter_cons]
      exact hr
  | @left lines r r' buf events _ hcall hend ih =>
    obtain ⟨result, hrel, hkeeps⟩ := call_holds cfg ih buf events
    rw [hcall] at hrel
    cases hrel with
    | @left _ h' hr =>
      have hzero := hr.atEnd hend
      obtain ⟨lines', pos⟩ := h'
      obtain rfl : lines' = lines.filter recorded := hkeeps
      obtain rfl : pos = 0 := hzero
      exact hr

theorem browse_append (ls : List Line) (presses presses' : List Press) : ∀ s,
    browse ls s (presses ++ presses') = browse ls (browse ls s presses) presses' := by
  induction presses with
  | nil => exact fun _ => rfl
  | cons press presses ih =>
    rintro ⟨pos, text⟩
    cases press with
    | up =>
      rw [cons_append, browse, browse]
      split
      · exact ih _
      · exact ih _
    | down =>
      rw [cons_append, browse, browse]
      split
      · exact ih _
      · exact ih _

theorem browse_ups (ls : List Line) (text : Line) (k : ℕ) :
    browse ls (0, text) (List.replicate k .up) =
      let pos := min k (min ls.length (histMax - 1))
      (pos, if pos = 0 then text else shown ls pos) := by
  induction k with
  | zero =>
    rw [replicate_zero, browse, Nat.zero_min]
    rfl
  | succ k ih =>
    rw [replicate_succ', browse_append, ih]
    dsimp only
    rw [browse]
    split
    · next hlt =>
      have hpos : min (k + 1) (min ls.length (histMax - 1)) =
          min k (min ls.length (histMax - 1)) + 1 := by lia
      rw [browse, hpos, if_neg (Nat.succ_ne_zero _)]
    · next hge =>
      have hpos : min (k + 1) (min ls.length (histMax - 1)) =
          min k (min ls.length (histMax - 1)) := by lia
      rw [browse, hpos]

theorem browse_stays (ls : List Line) (text : Line) (j : ℕ) :
    browse ls (0, text) (List.replicate j .down) = (0, text) := by
  induction j with
  | zero => rfl
  | succ j ih => rw [replicate_succ, browse, if_pos rfl, ih]

theorem browse_downs (ls : List Line) (pos j : ℕ) :
    browse ls (pos, shown ls pos) (List.replicate j .down) = (pos - j, shown ls (pos - j)) := by
  induction j with
  | zero => rfl
  | succ j ih =>
    rw [replicate_succ', browse_append, ih, browse]
    split
    · next hzero =>
      have hpos : pos - (j + 1) = pos - j := by lia
      rw [browse, hpos]
    · next hne =>
      have hpos : pos - (j + 1) = pos - j - 1 := by lia
      rw [browse, hpos]

theorem creadLoop_append {H : Type} (ops : HistOps H) (typed events : List Event) :
    ∀ {h h' : H} {e e' : Edit}, creadLoop ops cfg h e typed = .editing h' e' →
      creadLoop ops cfg h e (typed ++ events) = creadLoop ops cfg h' e' events := by
  induction typed with
  | nil =>
    intro h h' e e' hloop
    rw [creadLoop] at hloop
    obtain ⟨rfl, rfl⟩ := Result.editing.inj hloop
    rfl
  | cons event typed ih =>
    intro h h' e e' hloop
    cases event with
    | timeout =>
      rw [creadLoop] at hloop
      cases hloop
    | key ichar =>
      rw [creadLoop] at hloop
      rw [cons_append, creadLoop]
      generalize onKey ops cfg h e ichar = result at hloop
      cases result with
      | editing h₁ e₁ => exact ih hloop
      | entered h₁ line => cases hloop
      | left h₁ => cases hloop

theorem presses_show {buf : Line} {typed : List Event} {r₁ : Ring} {e : Edit}
    (hrun : Runs cfg AtEnd lines r) (htyped : creadLine ringOps cfg r buf typed = .editing r₁ e)
    (hend : AtEnd r₁) (hesc : e.escSave = []) (presses : List Press) :
    ∃ r' e', creadLine ringOps cfg r buf (typed ++ presses.map Press.event) = .editing r' e' ∧
      e'.text = (browse (lines.filter recorded) (0, e.text) presses).2 := by
  obtain ⟨result, hrel, hkeeps⟩ := call_holds cfg hrun.holds buf typed
  rw [htyped] at hrel
  cases hrel with
  | @editing _ h' _ hr =>
    have hpos := hr.atEnd hend
    obtain ⟨lines', pos⟩ := h'
    obtain rfl : lines' = lines.filter recorded := hkeeps
    obtain rfl : pos = 0 := hpos
    obtain ⟨h₂, e₂, hloop, hbrowse⟩ := latest_browse cfg presses _ e hesc
    have hshown := creadLoop_related cfg ring_sim (presses.map Press.event) hr e
    rw [hloop] at hshown
    rw [creadLine, creadLoop_append ringOps typed _ htyped]
    generalize creadLoop ringOps cfg r₁ e _ = result' at hshown
    cases hshown with
    | @editing r' _ _ _ => exact ⟨r', e₂, rfl, congrArg Prod.snd hbrowse⟩

end Runs

/- Where lines were left with no older line shown only, `k` times ^P shows the line number `k`, and
each ^N undoes one of them. -/
theorem history_lists_latest {cfg : Config} {lines : List Line} {r : Ring} {buf : Line}
    {typed : List Event} {r₁ : Ring} {e : Edit} (hrun : Runs cfg AtEnd lines r)
    (htyped : creadLine ringOps cfg r buf typed = .editing r₁ e) (hend : AtEnd r₁)
    (hesc : e.escSave = []) :
    let entered := lines.filter recorded
    let reach := min entered.length (histMax - 1)
    (∀ presses, ∃ r' e',
      creadLine ringOps cfg r buf (typed ++ presses.map Press.event) = .editing r' e' ∧
        e'.text = (browse entered (0, e.text) presses).2) ∧
    ∀ k j, ∃ r' e',
      creadLine ringOps cfg r buf
          (typed ++ (List.replicate k Press.up ++ List.replicate j Press.down).map Press.event) =
        .editing r' e' ∧
      e'.text = if min k reach = 0 then e.text else shown entered (min k reach - j) := by
  refine ⟨presses_show hrun htyped hend hesc, fun k j => ?_⟩
  obtain ⟨r', e', hcall, htext⟩ := presses_show hrun htyped hend hesc
    (List.replicate k Press.up ++ List.replicate j Press.down)
  refine ⟨r', e', hcall, ?_⟩
  rw [htext, browse_append, browse_ups]
  dsimp only
  split
  · next hzero =>
    rw [hzero, browse_stays]
  · next hne => rw [browse_downs]

theorem one_line (p : Ring → Prop) : Runs ⟨256, none⟩ p [[97]] (histEnter [97] histInit) := by
  have hcall : creadLine ringOps ⟨256, none⟩ histInit [] [.key 97, .key 10] =
      .entered (histEnter [97] histInit) [97] := rfl
  exact Runs.entered Runs.start hcall

theorem two_lines (p : Ring → Prop) :
    Runs ⟨256, none⟩ p [[98], [97]] (histEnter [98] (histEnter [97] histInit)) := by
  have hcall : creadLine ringOps ⟨256, none⟩ (histEnter [97] histInit) [] [.key 98, .key 13] =
      .entered (histEnter [98] (histEnter [97] histInit)) [98] := rfl
  exact Runs.entered (one_line p) hcall

/- Two presses of ^P, then one of ^N. -/
theorem history_lists_latest_two : ∃ r' e',
    creadLine ringOps ⟨256, none⟩ (histEnter [98] (histEnter [97] histInit)) []
        ([] ++ (List.replicate 2 Press.up ++ List.replicate 1 Press.down).map Press.event) =
      .editing r' e' ∧ e'.text = [98] := by
  have hnew : creadLine ringOps ⟨256, none⟩ (histEnter [98] (histEnter [97] histInit)) [] [] =
      .editing (histEnter [98] (histEnter [97] histInit)) ⟨[], 0, true, []⟩ := rfl
  obtain ⟨-, hpresses⟩ := history_lists_latest (two_lines AtEnd) hnew (.inr rfl) rfl
  exact hpresses 2 1

/- An empty line is not put into the history. A line left with ^C while an older line is shown keeps
its place, and the next line goes on from there. -/
theorem history_not_latest :
    (∃ r r' e, Runs ⟨256, none⟩ AtEnd [[], [97]] r ∧
      creadLine ringOps ⟨256, none⟩ r [] [Press.up.event] = .editing r' e ∧
      e.text ≠ shown [[], [97]] 1) ∧
    ∃ r r' e, Runs ⟨256, none⟩ (fun _ => True) [[98], [97]] r ∧
      creadLine ringOps ⟨256, none⟩ r [] [Press.up.event] = .editing r' e ∧
      e.text ≠ shown [[98], [97]] 1 := by
  constructor
  · have hcall : creadLine ringOps ⟨256, none⟩ (histEnter [97] histInit) [] [.key 10] =
        .entered (histEnter [] (histEnter [97] histInit)) [] := rfl
    exact ⟨_, _, _, Runs.entered (one_line AtEnd) hcall, rfl, by decide⟩
  · have hcall : creadLine ringOps ⟨256, none⟩ (histEnter [98] (histEnter [97] histInit)) []
        [Press.up.event, .key 3] =
          .left (histPrev (histEnter [98] (histEnter [97] histInit))).1 := rfl
    exact ⟨_, _, _, Runs.left (two_lines _) hcall trivial, rfl, by decide⟩

end UBoot.Cli
