import UBoot.Cli.Macros

/-!
# Expanding macros

Without backslashes and quotes the states are a transducer. It writes the text with its macros
replaced, unless a `$` is the last character, a name has no closing bracket, or a macro stands right
behind a `$` that is none.
-/

namespace UBoot.Cli.Macros

open UBoot.Access List

section Text

variable (getenv : List UInt8 → Option CString)

def value (name : List UInt8) : List UInt8 := (getenv name).elim [] Subtype.val

/- The name of the macro whose `$` is followed by the text: up to the first closing bracket, which
may be of either kind, as the comments on the states say. -/
def macroName : List UInt8 → Option (List UInt8)
  | [] => none
  | b :: rest => if isOpen b ∧ rest.any isClose then some (rest.takeWhile fun c => !isClose c) else none

/- Every macro replaced, after `skip` characters that belong to a macro before. -/
def expandFrom : ℕ → List UInt8 → List UInt8
  | _, [] => []
  | skip + 1, _ :: rest => expandFrom skip rest
  | 0, c :: rest =>
    match if c = dollar then macroName rest else none with
    | some name => value getenv name ++ expandFrom (name.length + 2) rest
    | none => c :: expandFrom 0 rest

def expand (str : List UInt8) : List UInt8 := expandFrom getenv 0 str

def Plain (str : List UInt8) : Prop := backslash ∉ str ∧ quote ∉ str

instance (str : List UInt8) : Decidable (Plain str) := inferInstanceAs (Decidable (_ ∧ _))

/- Every `$` is followed by something, every name that is begun is closed, and no macro follows a `$`
that is taken with the `$` before it. -/
def RegularFrom : State → List UInt8 → Prop
  | .waitDollar, [] => True
  | .waitDollar, c :: rest => if c = dollar then RegularFrom .waitOpen rest else RegularFrom .waitDollar rest
  | .waitOpen, [] => False
  | .waitOpen, c :: rest =>
    if isOpen c then RegularFrom .waitClose rest
    else (c = dollar → macroName rest = none) ∧ RegularFrom .waitDollar rest
  | .waitClose, [] => False
  | .waitClose, c :: rest => if isClose c then RegularFrom .waitDollar rest else RegularFrom .waitClose rest
  | .waitQuote, _ => True

def Regular (str : List UInt8) : Prop := RegularFrom .waitDollar str

/- All accesses stay in their buffers, and for a plain input the output is the text with its macros
replaced, as far as it fits. -/
def ExpandsTo (cbsize : ℕ) (str : CString) : Prop :=
  Contained getenv cbsize str ∧ (Plain str.val →
    (processMacros getenv str cbsize).val = (expand getenv str.val).take (cbsize - 1) ++ [0])

/- One character: the next state, the name so far, and what is written. -/
def emit (name : List UInt8) (c : UInt8) : State → State × List UInt8 × List UInt8
  | .waitDollar => if c = dollar then (.waitOpen, [], []) else (.waitDollar, [], [c])
  | .waitOpen => if isOpen c then (.waitClose, [], []) else (.waitDollar, [], [dollar, c])
  | .waitClose => if isClose c then (.waitDollar, [], value getenv name) else (.waitClose, name ++ [c], [])
  | .waitQuote => (.waitQuote, [], [])

def produced (state : State) (name : List UInt8) : List UInt8 → List UInt8
  | [] => []
  | c :: rest =>
    (emit getenv name c state).2.2 ++
      produced (emit getenv name c state).1 (emit getenv name c state).2.1 rest

end Text

section Run

variable {getenv : List UInt8 → Option CString} {str : CString} {cbsize n : ℕ} {c : UInt8} {l : Locals}
  {name : List UInt8}

theorem copyName_val {start i : ℕ} (hread : start + i + n ≤ str.val.length) :
    (copyName str start n i).val = (str.val.drop (start + i)).take n := by
  induction n generalizing i with
  | zero => rfl
  | succ n ih =>
    have hlt : start + i < str.val.length := by lia
    have hget : str.val[start + i]? = some str.val[start + i] := getElem?_eq_getElem hlt
    rw [drop_eq_getElem_cons hlt, take_succ_cons, ← Nat.add_assoc start i 1 |>.symm, ← ih (by lia)]
    show (char str (start + i)).val :: _ = _
    rw [char_val hget]

theorem put_out (c : UInt8) (h : Counted cbsize str.val.length n l) (hroom : l.outputcnt ≠ 0) :
    (put c l).val.out = (l.out ++ [c]).take cbsize := by
  have hsum := h.room
  have hleft := h.left
  rw [put_val, take_of_length_le]
  rw [length_append, length_singleton]
  lia

theorem take_append_cut (a b : List UInt8) (k : ℕ) : (a.take k ++ b).take k = (a ++ b).take k := by
  rw [take_append, take_append, take_take, min_self, length_take]
  congr 2
  lia

theorem out_full (h : Counted cbsize str.val.length n l) (hfull : l.outputcnt = 0) (more : List UInt8) :
    (l.out ++ more).take cbsize = l.out := by
  have hsum := h.room
  rw [take_append_of_le_length (by lia), take_of_length_le (by lia)]

theorem copyValue_out {text : List UInt8} (h : Counted cbsize str.val.length n l) (htext : (0 : UInt8) ∉ text) :
    (copyValue text l).val.out = (l.out ++ text).take cbsize ∧ (copyValue text l).val.input = l.input := by
  induction text generalizing l with
  | nil =>
    have hsum := h.room
    have hleft := h.left
    rw [append_nil, take_of_length_le (by lia)]
    exact ⟨rfl, rfl⟩
  | cons c rest ih =>
    obtain ⟨hc, hrest⟩ := not_or.mp (mt mem_cons.mpr htext)
    unfold copyValue
    by_cases hfull : l.outputcnt = 0
    · rw [if_neg (not_and.mpr fun _ h => h hfull), out_full h hfull]
      exact ⟨rfl, rfl⟩
    · obtain ⟨hout, hinput⟩ := ih (put_safe c h hfull).2 hrest
      rw [if_pos ⟨Ne.symm hc, hfull⟩, val_bind, hout, hinput, put_out c h hfull, take_append_cut,
        append_assoc]
      exact ⟨rfl, rfl⟩

/- One pass of the loop does what the transducer says; `name` is what was read of a name before. -/
structure Emits (getenv : List UInt8 → Option CString) (str : CString) (cbsize : ℕ) (name : List UInt8)
    (c : UInt8) (l l' : Locals) : Prop where
  state : l'.state = (emit getenv name c l.state).1
  out : l'.out = (l.out ++ (emit getenv name c l.state).2.2).take cbsize
  input : l'.input = l.input
  name : l'.state = .waitClose →
    (emit getenv name c l.state).2.1 = (str.val.drop l'.varnameStart).take (l'.input - l'.varnameStart)

theorem out_fits (h : Counted cbsize str.val.length n l) : (l.out ++ []).take cbsize = l.out := by
  have hsum := h.room
  have hleft := h.left
  rw [append_nil, take_of_length_le (by lia)]

theorem value_nul (getenv : List UInt8 → Option CString) (name : List UInt8) : (0 : UInt8) ∉ value getenv name := by
  unfold value
  cases getenv name with
  | none => exact not_mem_nil
  | some v => exact v.property

variable {prev : UInt8}

theorem dispatch_dollar (h : Counted cbsize str.val.length n l) (hroom : l.outputcnt ≠ 0)
    (hs : l.state = .waitDollar) (hquote : c ≠ quote) (hprev : prev ≠ backslash) :
    Emits getenv str cbsize name c l (dispatch getenv str c prev l).val := by
  unfold dispatch
  rw [hs]
  dsimp only
  rw [if_neg (fun hq => hquote hq.1)]
  by_cases hd : c = dollar
  · rw [if_pos ⟨hd, hprev⟩]
    refine ⟨?_, ?_, rfl, fun hclose => State.noConfusion hclose⟩
    · simp [emit, hs, hd]
    · simp only [emit, hs, hd, if_true, val_pure]
      exact (out_fits h).symm
  · rw [if_neg (fun hd' => hd hd'.1)]
    refine ⟨?_, ?_, rfl, fun hclose => ?_⟩
    · simp [emit, hs, hd, put_val]
    · rw [put_out c h hroom]
      simp [emit, hs, hd]
    · rw [put_val] at hclose
      exact State.noConfusion (hs.symm.trans hclose)

theorem dispatch_open (h : Counted cbsize str.val.length n l) (hroom : l.outputcnt ≠ 0)
    (hs : l.state = .waitOpen) : Emits getenv str cbsize name c l (dispatch getenv str c prev l).val := by
  unfold dispatch
  rw [hs]
  dsimp only
  by_cases ho : isOpen c = true
  · rw [if_pos ho]
    refine ⟨?_, ?_, rfl, fun _ => ?_⟩
    · simp [emit, hs, ho]
    · simp only [emit, hs, ho, if_true, val_pure]
      exact (out_fits h).symm
    · simp [emit, hs, ho]
  · rw [if_neg ho]
    have hcounted : Counted cbsize str.val.length n { l with state := .waitDollar } :=
      ⟨h.input, h.room, h.left, fun hclose => State.noConfusion hclose⟩
    have hdollar := (put_safe dollar hcounted hroom).2
    have hfirst := put_out dollar hcounted hroom
    rw [val_bind, val_ite]
    by_cases hfull : (put dollar { l with state := .waitDollar }).val.outputcnt = 0
    · rw [if_neg (not_not.mpr hfull), val_pure]
      refine ⟨?_, ?_, rfl, fun hclose => State.noConfusion hclose⟩
      · simp [emit, hs, ho, put_val]
      · rw [← out_full hdollar hfull [c], hfirst, take_append_cut]
        simp [emit, hs, ho]
    · rw [if_pos hfull]
      refine ⟨?_, ?_, rfl, fun hclose => State.noConfusion hclose⟩
      · simp [emit, hs, ho, put_val]
      · rw [put_out c hdollar hfull, hfirst, take_append_cut]
        simp [emit, hs, ho]

theorem dispatch_close (h : Counted cbsize str.val.length n l)
    (hc : str.val[l.input - 1]? = some c) (hs : l.state = .waitClose) (hstart : l.varnameStart < l.input)
    (hname : name = (str.val.drop l.varnameStart).take (l.input - l.varnameStart - 1)) :
    Emits getenv str cbsize name c l (dispatch getenv str c prev l).val := by
  unfold dispatch
  rw [hs]
  dsimp only
  have hinput := h.input
  by_cases hclose : isClose c = true
  · have hread : (copyName str l.varnameStart (l.input - l.varnameStart - 1) 0).val = name := by
      rw [copyName_val (by lia), Nat.add_zero, hname]
    obtain ⟨hout, hinput'⟩ := copyValue_out h (value_nul getenv name)
    rw [if_pos hclose, val_bind, hread, val_bind, val_pure]
    refine ⟨?_, ?_, hinput', fun hstate' => State.noConfusion hstate'⟩
    · simp [emit, hs, hclose]
    · simp only [emit, hs, hclose, if_true]
      exact hout
  · rw [if_neg hclose]
    refine ⟨?_, ?_, rfl, fun _ => ?_⟩
    · simp [emit, hs, hclose]
    · simp only [emit, hs, hclose, Bool.false_eq_true, if_false, val_pure]
      exact (out_fits h).symm
    · -- the character is one more of the name
      have hget : (str.val.drop l.varnameStart)[l.input - l.varnameStart - 1]? = some c := by
        rw [getElem?_drop, show l.varnameStart + (l.input - l.varnameStart - 1) = l.input - 1 by lia, hc]
      have hlen : l.input - l.varnameStart = l.input - l.varnameStart - 1 + 1 := by lia
      simp only [emit, hs, hclose, Bool.false_eq_true, if_false, val_pure]
      rw [hlen, take_add_one, hget, hname]
      rfl

theorem dispatch_emits (h : Counted cbsize str.val.length n l) (hroom : l.outputcnt ≠ 0)
    (hc : str.val[l.input - 1]? = some c) (hadvanced : l.state = .waitClose → l.varnameStart < l.input)
    (hname : l.state = .waitClose → name = (str.val.drop l.varnameStart).take (l.input - l.varnameStart - 1))
    (hquote : c ≠ quote) (hprev : prev ≠ backslash) (hstate : l.state ≠ .waitQuote) :
    Emits getenv str cbsize name c l (dispatch getenv str c prev l).val := by
  cases hs : l.state with
  | waitDollar => exact dispatch_dollar h hroom hs hquote hprev
  | waitOpen => exact dispatch_open h hroom hs
  | waitClose => exact dispatch_close h hc hs (hadvanced hs) (hname hs)
  | waitQuote => exact absurd hs hstate

theorem emit_state (getenv : List UInt8 → Option CString) (name : List UInt8) (c : UInt8) {state : State}
    (h : state ≠ .waitQuote) : (emit getenv name c state).1 ≠ .waitQuote := by
  cases state with
  | waitDollar =>
    simp only [emit]
    split <;> simp
  | waitOpen =>
    simp only [emit]
    split <;> simp
  | waitClose =>
    simp only [emit]
    split <;> simp
  | waitQuote => exact absurd rfl h

theorem processFrom_produced (getenv : List UInt8 → Option CString) (name : List UInt8) (hplain : Plain str.val) (hlen : str.val.length < cbsize)
    (h : Counted cbsize str.val.length n l) (hprev : l.prev ≠ backslash) (hstate : l.state ≠ .waitQuote)
    (hname : l.state = .waitClose → name = (str.val.drop l.varnameStart).take (l.input - l.varnameStart)) :
    (processFrom getenv str n l).val.out =
      (l.out ++ produced getenv l.state name (str.val.drop l.input)).take cbsize := by
  induction n generalizing l name with
  | zero =>
    have hinput := h.input
    rw [drop_of_length_le (by lia)]
    exact (out_fits h).symm
  | succ n ih =>
    by_cases hfull : l.outputcnt = 0
    · rw [processFrom.eq_def]
      simp only [if_pos hfull, val_pure]
      exact (out_full h hfull _).symm
    have hinput := h.input
    have hlt : l.input < str.val.length := by lia
    have hc : str.val[l.input]? = some str.val[l.input] := getElem?_eq_getElem hlt
    have hmem : str.val[l.input] ∈ str.val := getElem_mem hlt
    rw [drop_eq_getElem_cons hlt]
    generalize str.val[l.input] = c at hc hmem ⊢
    have hbackslash : c ≠ backslash := fun he => hplain.1 (he ▸ hmem)
    have hquote : c ≠ quote := fun he => hplain.2 (he ▸ hmem)
    have hemits : Emits getenv str cbsize name c { l with input := l.input + 1 }
        (dispatch getenv str c l.prev { l with input := l.input + 1 }).val :=
      dispatch_emits h.advance hfull hc (fun hs => Nat.lt_succ_of_le (h.name hs))
        (fun hs => (hname hs).trans (congrArg (fun k => List.take k _) (by dsimp only; lia))) hquote hprev hstate
    have hcounted := (dispatch_safe getenv str c l.prev h.advance hfull hlen).2
    rw [processFrom_char hfull hc (.inr (.inl hbackslash))]
    generalize (dispatch getenv str c l.prev { l with input := l.input + 1 }).val = l' at hemits hcounted
    have hstate' : l'.state ≠ .waitQuote := by
      rw [hemits.state]
      exact emit_state getenv name c hstate
    rw [@ih { l' with prev := c } _ (hcounted.remember c) hbackslash hstate' hemits.name]
    dsimp only
    rw [hemits.out, hemits.state, hemits.input, take_append_cut, append_assoc]
    rfl

theorem processMacros_produced (getenv : List UInt8 → Option CString) (hplain : Plain str.val)
    (hlen : str.val.length < cbsize) : (processMacros getenv str cbsize).val =
      (produced getenv .waitDollar [] str.val).take (cbsize - 1) ++ [0] := by
  have hstart := counted_start cbsize str
  have hprev : (0 : UInt8) ≠ backslash := by decide
  have hout := processFrom_produced getenv [] hplain hlen hstart hprev (fun h => State.noConfusion h) (fun _ => rfl)
  obtain ⟨-, n', hcounted⟩ := processFrom_safe getenv hstart hlen
  have hsum := hcounted.room
  have hleft := hcounted.left
  unfold processMacros
  rw [val_bind, val_ite]
  generalize (processFrom getenv str str.val.length ⟨0, [], cbsize, .waitDollar, 0, 0⟩).val = l at *
  rw [nil_append, drop_zero] at hout
  dsimp only at hout
  by_cases hfull : l.outputcnt = 0
  · rw [if_neg (not_not.mpr hfull), val_bind, val_pure, dropLast_eq_take, hout, take_take]
    congr 2
    have hlength := congrArg List.length hout
    lia
  · have hshort : (produced getenv .waitDollar [] str.val).length ≤ cbsize - 1 := by
      have hlength := congrArg List.length hout
      rw [length_take] at hlength
      lia
    rw [if_pos hfull, val_bind, val_pure, hout, take_of_length_le (by lia), take_of_length_le hshort]

end Run

section Compare

variable {getenv : List UInt8 → Option CString} {b d : UInt8} {name rest : List UInt8}

inductive Parsed : List UInt8 → Prop where
  | nil : Parsed []
  | char (c : UInt8) (rest : List UInt8) (hc : c ≠ dollar) (h : Parsed rest) : Parsed (c :: rest)
  | lone : Parsed [dollar]
  | closed (b : UInt8) (name : List UInt8) (d : UInt8) (rest : List UInt8) (hb : isOpen b)
      (hname : ∀ c, c ∈ name → ¬ isClose c) (hd : isClose d) (h : Parsed rest) :
      Parsed (dollar :: b :: (name ++ d :: rest))
  | unclosed (b : UInt8) (rest : List UInt8) (hb : isOpen b) (hrest : ∀ c, c ∈ rest → ¬ isClose c) :
      Parsed (dollar :: b :: rest)
  | pair (b : UInt8) (rest : List UInt8) (hb : ¬ isOpen b) (hnext : b = dollar → macroName rest = none)
      (h : Parsed rest) : Parsed (dollar :: b :: rest)
  | double (rest name : List UInt8) (hnext : macroName rest = some name) : Parsed (dollar :: dollar :: rest)

theorem close_split (rest : List UInt8) : (∀ c, c ∈ rest → ¬ isClose c) ∨
    ∃ name d rest', rest = name ++ d :: rest' ∧ (∀ c, c ∈ name → ¬ isClose c) ∧ isClose d := by
  induction rest with
  | nil => exact .inl fun c hc => absurd hc not_mem_nil
  | cons c rest ih =>
    by_cases hc : isClose c = true
    · exact .inr ⟨[], c, rest, rfl, fun x hx => absurd hx not_mem_nil, hc⟩
    · rcases ih with hnone | ⟨name, d, rest', rfl, hname, hd⟩
      · exact .inl (forall_mem_cons.mpr ⟨hc, hnone⟩)
      · exact .inr ⟨c :: name, d, rest', rfl, forall_mem_cons.mpr ⟨hc, hname⟩, hd⟩

theorem parsed (str : List UInt8) : Parsed str := by
  induction hn : str.length using Nat.strong_induction_on generalizing str with
  | _ n ih =>
    subst hn
    rcases str with _ | ⟨c, rest⟩
    · exact .nil
    by_cases hc : c = dollar
    · subst hc
      rcases rest with _ | ⟨b, rest⟩
      · exact .lone
      by_cases hb : isOpen b = true
      · rcases close_split rest with hnone | ⟨name, d, rest', rfl, hname, hd⟩
        · exact .unclosed b rest hb hnone
        · refine .closed b name d rest' hb hname hd (ih _ ?_ rest' rfl)
          simp only [length_cons, length_append]
          lia
      · have hrest : Parsed rest := ih _ (by simp only [length_cons]; lia) rest rfl
        by_cases hd : b = dollar
        · subst hd
          cases hm : macroName rest with
          | none => exact .pair dollar rest hb (fun _ => hm) hrest
          | some name => exact .double rest name hm
        · exact .pair b rest hb (fun he => absurd he hd) hrest
    · exact .char c rest hc (ih _ (Nat.lt_succ_self _) rest rfl)

/-! What the transducer writes. -/

theorem produced_closed {acc : List UInt8} (hname : ∀ c, c ∈ name → ¬ isClose c) (hd : isClose d) :
    produced getenv .waitClose acc (name ++ d :: rest) =
      value getenv (acc ++ name) ++ produced getenv .waitDollar [] rest := by
  induction name generalizing acc with
  | nil => simp [produced, emit, hd]
  | cons c name ih =>
    obtain ⟨hc, hname⟩ := forall_mem_cons.mp hname
    rw [cons_append, produced]
    simp only [emit, if_neg hc, nil_append]
    rw [ih hname, append_assoc, singleton_append]

theorem produced_unclosed {acc : List UInt8} (hrest : ∀ c, c ∈ rest → ¬ isClose c) :
    produced getenv .waitClose acc rest = [] := by
  induction rest generalizing acc with
  | nil => rfl
  | cons c rest ih =>
    obtain ⟨hc, hrest⟩ := forall_mem_cons.mp hrest
    rw [produced]
    simp only [emit, if_neg hc, nil_append]
    exact ih hrest

theorem regular_closed (hname : ∀ c, c ∈ name → ¬ isClose c) (hd : isClose d) :
    RegularFrom .waitClose (name ++ d :: rest) ↔ Regular rest := by
  induction name with
  | nil => simp [RegularFrom, Regular, hd]
  | cons c name ih =>
    obtain ⟨hc, hname⟩ := forall_mem_cons.mp hname
    rw [cons_append, RegularFrom, if_neg hc]
    exact ih hname

theorem regular_unclosed (hrest : ∀ c, c ∈ rest → ¬ isClose c) : ¬ RegularFrom .waitClose rest := by
  induction rest with
  | nil => exact id
  | cons c rest ih =>
    obtain ⟨hc, hrest⟩ := forall_mem_cons.mp hrest
    rw [RegularFrom, if_neg hc]
    exact ih hrest

/-! What the text with its macros replaced is. -/

theorem macroName_closed (hb : isOpen b) (hname : ∀ c, c ∈ name → ¬ isClose c) (hd : isClose d) :
    macroName (b :: (name ++ d :: rest)) = some name := by
  have hany : (name ++ d :: rest).any isClose = true := by simp [hd]
  have htake : (name ++ d :: rest).takeWhile (fun c => !isClose c) = name := by
    rw [takeWhile_append_of_pos (fun c hc => by simpa using hname c hc)]
    simp [hd]
  rw [macroName, if_pos ⟨hb, hany⟩, htake]

theorem macroName_unclosed (hrest : ∀ c, c ∈ rest → ¬ isClose c) : macroName (b :: rest) = none := by
  have hany : ¬ rest.any isClose = true := by simpa using hrest
  rw [macroName, if_neg (fun h => hany h.2)]

theorem macroName_other (hb : ¬ isOpen b) : macroName (b :: rest) = none := by
  rw [macroName, if_neg (fun h => hb h.1)]

theorem expandFrom_skip (getenv : List UInt8 → Option CString) (skipped rest : List UInt8) :
    expandFrom getenv skipped.length (skipped ++ rest) = expand getenv rest := by
  induction skipped with
  | nil => rfl
  | cons c skipped ih => exact ih

theorem expand_copied {c : UInt8} (h : c = dollar → macroName rest = none) :
    expand getenv (c :: rest) = c :: expand getenv rest := by
  have hnone : (if c = dollar then macroName rest else none) = none := by
    split
    next hc => exact h hc
    next => rfl
  unfold expand
  rw [expandFrom, hnone]

theorem expand_closed (hb : isOpen b) (hname : ∀ c, c ∈ name → ¬ isClose c) (hd : isClose d) :
    expand getenv (dollar :: b :: (name ++ d :: rest)) = value getenv name ++ expand getenv rest := by
  have hskip := expandFrom_skip getenv (b :: (name ++ [d])) rest
  have hlen : (b :: (name ++ [d])).length = name.length + 2 := by simp
  rw [hlen, cons_append, append_assoc, singleton_append] at hskip
  conv_lhs => unfold expand
  rw [expandFrom, if_pos rfl, macroName_closed hb hname hd, ← hskip]

theorem produced_pair (hb : ¬ isOpen b) : produced getenv .waitDollar [] (dollar :: b :: rest) =
    dollar :: b :: produced getenv .waitDollar [] rest := by
  simp [produced, emit, hb]

theorem produced_open (hb : isOpen b) : produced getenv .waitDollar [] (dollar :: b :: rest) =
    produced getenv .waitClose [] rest := by
  simp [produced, emit, hb]

theorem regular_open (hb : isOpen b) : Regular (dollar :: b :: rest) ↔ RegularFrom .waitClose rest := by
  simp [Regular, RegularFrom, hb]

theorem regular_pair (hb : ¬ isOpen b) :
    Regular (dollar :: b :: rest) ↔ (b = dollar → macroName rest = none) ∧ Regular rest := by
  simp [Regular, RegularFrom, hb]

theorem regular_char {c : UInt8} (hc : c ≠ dollar) : Regular (c :: rest) ↔ Regular rest := by
  simp [Regular, RegularFrom, hc]

theorem produced_char {c : UInt8} (hc : c ≠ dollar) :
    produced getenv .waitDollar [] (c :: rest) = c :: produced getenv .waitDollar [] rest := by
  simp [produced, emit, hc]

theorem produced_eq_expand (getenv : List UInt8 → Option CString) {str : List UInt8} (h : Regular str) :
    produced getenv .waitDollar [] str = expand getenv str := by
  induction parsed str with
  | nil => rfl
  | char c rest hc _ ih =>
    rw [produced_char hc, expand_copied (fun he => absurd he hc), ih ((regular_char hc).mp h)]
  | lone => exact absurd h id
  | closed b name d rest hb hname hd _ ih =>
    rw [regular_open hb, regular_closed hname hd] at h
    rw [produced_open hb, produced_closed hname hd, nil_append, expand_closed hb hname hd, ih h]
  | unclosed b rest hb hrest => exact absurd ((regular_open hb).mp h) (regular_unclosed hrest)
  | pair b rest hb hnext _ ih =>
    rw [produced_pair hb, expand_copied (fun _ => macroName_other hb), expand_copied hnext,
      ih ((regular_pair hb).mp h).2]
  | double rest name hnext =>
    have hnone := ((regular_pair (by decide)).mp h).1 rfl
    exact absurd (hnext.symm.trans hnone) (Option.some_ne_none name)

def letters (_ : List UInt8) : Option CString := some ⟨[0x61], by decide⟩

theorem regular_of_eq {str : List UInt8} (h : produced letters .waitDollar [] str = expand letters str) :
    Regular str := by
  induction parsed str with
  | nil => trivial
  | char c rest hc _ ih =>
    rw [produced_char hc, expand_copied (fun he => absurd he hc)] at h
    exact (regular_char hc).mpr (ih (List.cons.inj h).2)
  | lone => exact absurd h (by decide)
  | closed b name d rest hb hname hd _ ih =>
    rw [produced_open hb, produced_closed hname hd, nil_append, expand_closed hb hname hd] at h
    exact (regular_open hb).mpr ((regular_closed hname hd).mpr (ih (append_cancel_left h)))
  | unclosed b rest hb hrest =>
    rw [produced_open hb, produced_unclosed hrest, expand_copied (fun _ => macroName_unclosed hrest)] at h
    exact absurd h (cons_ne_nil _ _).symm
  | pair b rest hb hnext _ ih =>
    rw [produced_pair hb, expand_copied (fun _ => macroName_other hb), expand_copied hnext] at h
    exact (regular_pair hb).mpr ⟨hnext, ih (List.cons.inj (List.cons.inj h).2).2⟩
  | double rest name hnext =>
    have hvalue : expand letters (dollar :: rest) = 0x61 :: expandFrom letters (name.length + 2) rest := by
      unfold expand
      rw [expandFrom, if_pos rfl, hnext]
      rfl
    rw [produced_pair (by decide), expand_copied (fun _ => macroName_other (by decide)), hvalue] at h
    exact absurd (List.cons.inj (List.cons.inj h).2).1 (by decide)

theorem produced_length (state : State) (name str : List UInt8) :
    (produced letters state name str).length ≤ str.length + if state = .waitOpen then 1 else 0 := by
  induction str generalizing state name with
  | nil => exact Nat.zero_le _
  | cons c rest ih =>
    rw [produced, length_append, length_cons]
    have hemit : (emit letters name c state).2.2.length + (if (emit letters name c state).1 = .waitOpen then 1 else 0)
        ≤ 1 + if state = .waitOpen then 1 else 0 := by
      cases state with
      | waitDollar =>
        simp only [emit]
        split <;> simp
      | waitOpen =>
        simp only [emit]
        split <;> simp
      | waitClose =>
        simp only [emit]
        split <;> simp [value, letters]
      | waitQuote => simp [emit]
    have h := ih (emit letters name c state).1 (emit letters name c state).2.1
    lia

theorem expandFrom_length (skip : ℕ) (str : List UInt8) : (expandFrom letters skip str).length ≤ str.length := by
  induction str generalizing skip with
  | nil => cases skip <;> exact Nat.zero_le _
  | cons c rest ih =>
    cases skip with
    | succ skip => exact (ih skip).trans (Nat.le_succ _)
    | zero =>
      rw [expandFrom, length_cons]
      cases hm : if c = dollar then macroName rest else none with
      | none => exact Nat.succ_le_succ (ih 0)
      | some name =>
        have h := ih (name.length + 2)
        have hvalue : (value letters name).length = 1 := rfl
        simp only [length_append, hvalue]
        lia

end Compare

/-- Macro expansion stays in its buffers. For plain inputs the output is the text with its macros
replaced, in every environment, exactly when the input is regular. -/
theorem macros_expand_iff (cbsize : ℕ) (str : CString) (hlen : str.val.length < cbsize) :
    (∀ getenv, ExpandsTo getenv cbsize str) ↔ (Plain str.val → Regular str.val) := by
  constructor
  · intro h hplain
    have htext := (h letters).2 hplain
    have hproduced := produced_length .waitDollar [] str.val
    have hexpand : (expand letters str.val).length ≤ str.val.length := expandFrom_length 0 str.val
    rw [if_neg (by decide)] at hproduced
    rw [processMacros_produced letters hplain hlen, append_left_inj, take_of_length_le (by lia),
      take_of_length_le (by lia)] at htext
    exact regular_of_eq htext
  · intro h getenv
    refine ⟨processMacros_contained getenv hlen, fun hplain => ?_⟩
    rw [processMacros_produced getenv hplain hlen, produced_eq_expand getenv (h hplain)]

/- `a${b}$c`. -/
theorem macros_expand_braces :
    ExpandsTo letters 256 ⟨[0x61, 0x24, 0x7b, 0x62, 0x7d, 0x24, 0x63], by decide⟩ := by
  refine (macros_expand_iff 256 _ (by decide)).mpr (fun _ => ?_) letters
  simp [Regular, RegularFrom, dollar, isOpen, isClose]

/- In `$$(a)` the macro is not replaced; the `$` at the end of `a$` and all of `$(a` are lost. -/
theorem macros_lose_text : ¬ ExpandsTo letters 256 ⟨[0x24, 0x24, 0x28, 0x61, 0x29], by decide⟩ ∧
    ¬ ExpandsTo letters 256 ⟨[0x61, 0x24], by decide⟩ ∧ ¬ ExpandsTo letters 256 ⟨[0x24, 0x28, 0x61], by decide⟩ := by
  refine ⟨fun h => ?_, fun h => ?_, fun h => ?_⟩
  · exact absurd (h.2 (by decide)) (by decide +kernel)
  · exact absurd (h.2 (by decide)) (by decide +kernel)
  · exact absurd (h.2 (by decide)) (by decide +kernel)

end UBoot.Cli.Macros
