import UBoot.Lib.Access

/-!
# Macros of the simple command line (common/cli_simple.c)

`cli_simple_process_macros` reads a string with a counter for the characters left, and writes to a
buffer of `CONFIG_SYS_CBSIZE` bytes with a counter for the room left. Every access stays in its
buffer, and the output ends with a NUL.
-/

namespace UBoot.Cli.Macros

open UBoot.Access List

abbrev CString := { s : List UInt8 // (0 : UInt8) ∉ s }

def backslash : UInt8 := 0x5c
def quote : UInt8 := 0x27
def dollar : UInt8 := 0x24

/- One of `(` and `{`, one of `)` and `}`. -/
def isOpen (c : UInt8) : Bool := c == 0x28 || c == 0x7b
def isClose (c : UInt8) : Bool := c == 0x29 || c == 0x7d

/- A read of `input[i]`, a write of `output[i]` or of `envname[i]`. -/
inductive Access where
  | input (i : ℕ)
  | output (i : ℕ)
  | envname (i : ℕ)
  deriving Repr, DecidableEq

/- `state`: 0 is waiting for `$`, 1 for an opening bracket, 2 for a closing one, 3 for a quote. -/
inductive State where
  | waitDollar
  | waitOpen
  | waitClose
  | waitQuote
  deriving Repr, DecidableEq

/- The locals but for `inputcnt`; `input` and `varname_start` are offsets into the string, `out` is
what is written in front of `output`. -/
structure Locals where
  input : ℕ
  out : List UInt8
  outputcnt : ℤ
  state : State
  prev : UInt8
  varnameStart : ℕ

section Code

variable (getenv : List UInt8 → Option CString) (str : CString)

/- `str[i]`. -/
def char (i : ℕ) : Traced Access UInt8 := do
  touch (.input i)
  pure (str.val.getD i 0)

/- `*(output++) = c; outputcnt--`. -/
def put (c : UInt8) (l : Locals) : Traced Access Locals := do
  touch (.output l.out.length)
  pure { l with out := l.out ++ [c], outputcnt := l.outputcnt - 1 }

/- The name from `varname_start` (`cli_simple.c:131-133`): `n` more characters from index `i` on. -/
def copyName (start : ℕ) : ℕ → ℕ → Traced Access (List UInt8)
  | 0, i => do
    touch (.envname i)
    pure []
  | n + 1, i => do
    let c ← char str (start + i)
    touch (.envname i)
    let rest ← copyName start n (i + 1)
    pure (c :: rest)

/- The value of a variable (`cli_simple.c:140-143`). -/
def copyValue : List UInt8 → Locals → Traced Access Locals
  | [], l => pure l
  | c :: rest, l =>
    if c ≠ 0 ∧ l.outputcnt ≠ 0 then do
      let l ← put c l
      copyValue rest l
    else pure l

/- The `switch` on the state (`cli_simple.c:91-156`). -/
def dispatch (c prev : UInt8) (l : Locals) : Traced Access Locals :=
  match l.state with
  | .waitDollar =>
    if c = quote ∧ prev ≠ backslash then pure { l with state := .waitQuote }
    else if c = dollar ∧ prev ≠ backslash then pure { l with state := .waitOpen }
    else put c l
  | .waitOpen =>
    if isOpen c then pure { l with state := .waitClose, varnameStart := l.input }
    else do
      let l ← put dollar { l with state := .waitDollar }
      if l.outputcnt ≠ 0 then put c l else pure l
  | .waitClose =>
    if isClose c then do
      let envname ← copyName str l.varnameStart (l.input - l.varnameStart - 1) 0
      let l ← copyValue ((getenv envname).elim [] Subtype.val) l
      pure { l with state := .waitDollar }
    else pure l
  | .waitQuote =>
    if c = quote ∧ prev ≠ backslash then pure { l with state := .waitDollar } else put c l

/- The loop, with `inputcnt` characters left. A backslash that is not escaped itself takes the next
character with it, and as the last character it ends the loop. -/
def processFrom : ℕ → Locals → Traced Access Locals
  | 0, l => pure l
  | inputcnt + 1, l =>
    if l.outputcnt = 0 then pure l
    else do
      let c ← char str l.input
      let l := { l with input := l.input + 1 }
      if l.state ≠ .waitQuote ∧ c = backslash ∧ l.prev ≠ backslash then
        match inputcnt with
        | 0 => pure l
        | inputcnt + 1 => do
          let c' ← char str l.input
          let l ← dispatch getenv str c' backslash { l with input := l.input + 1 }
          processFrom inputcnt { l with prev := c' }
      else do
        let l ← dispatch getenv str c l.prev l
        processFrom inputcnt { l with prev := c }

/- `cli_simple_process_macros` (`cli_simple.c:61-165`): what is in the output up to its NUL. -/
def processMacros (cbsize : ℕ) : Traced Access (List UInt8) := do
  let l ← processFrom getenv str str.val.length ⟨0, [], cbsize, .waitDollar, 0, 0⟩
  if l.outputcnt ≠ 0 then do
    touch (.output l.out.length)
    pure (l.out ++ [0])
  else do
    touch (.output (l.out.length - 1))
    pure (l.out.dropLast ++ [0])

end Code

/- Reads up to the NUL of a string of `len` characters, writes inside of `cbsize` bytes. -/
def InBuffers (cbsize len : ℕ) : Access → Prop
  | .input i => i ≤ len
  | .output i => i < cbsize
  | .envname i => i < cbsize

/- The two counters agree with the two pointers, and a name begins before `input`. -/
structure Counted (cbsize len inputcnt : ℕ) (l : Locals) : Prop where
  input : l.input + inputcnt = len
  room : (l.out.length : ℤ) + l.outputcnt = cbsize
  left : 0 ≤ l.outputcnt
  name : l.state = .waitClose → l.varnameStart ≤ l.input

section Safety

variable {getenv : List UInt8 → Option CString} {str : CString} {cbsize len n : ℕ} {c prev : UInt8} {l : Locals}

theorem put_val (c : UInt8) (l : Locals) :
    (put c l).val = { l with out := l.out ++ [c], outputcnt := l.outputcnt - 1 } := rfl

theorem put_safe (c : UInt8) (h : Counted cbsize len n l) (hroom : l.outputcnt ≠ 0) :
    Within (InBuffers cbsize len) (put c l) ∧ Counted cbsize len n (put c l).val := by
  have hsum := h.room
  have hleft := h.left
  constructor
  · unfold put
    simp only [within_bind, within_touch, within_pure, and_true]
    show l.out.length < cbsize
    lia
  · rw [put_val]
    refine ⟨h.input, ?_, ?_, h.name⟩
    · rw [length_append, length_singleton]
      push_cast
      lia
    · show 0 ≤ l.outputcnt - 1
      lia

theorem copyName_safe {start i : ℕ} (hread : start + i + n ≤ len) (hname : i + n < cbsize) :
    Within (InBuffers cbsize len) (copyName str start n i) := by
  induction n generalizing i with
  | zero =>
    unfold copyName
    simp only [within_bind, within_touch, within_pure, and_true]
    exact hname
  | succ n ih =>
    unfold copyName char
    simp only [within_bind, within_touch, within_pure, and_true]
    refine ⟨?_, ?_, ih (by lia) (by lia)⟩
    · show start + i ≤ len
      lia
    · show i < cbsize
      lia

theorem copyValue_safe (value : List UInt8) (h : Counted cbsize len n l) :
    Within (InBuffers cbsize len) (copyValue value l) ∧ Counted cbsize len n (copyValue value l).val := by
  induction value generalizing l with
  | nil => exact ⟨within_pure l, h⟩
  | cons c rest ih =>
    unfold copyValue
    split
    next hc =>
      obtain ⟨hput, hcounted⟩ := put_safe c h hc.2
      simp only [within_bind, val_bind]
      exact ⟨⟨hput, (ih hcounted).1⟩, (ih hcounted).2⟩
    next => exact ⟨within_pure l, h⟩

theorem dispatch_safe (getenv : List UInt8 → Option CString) (str : CString) (c prev : UInt8) (h : Counted cbsize len n l) (hroom : l.outputcnt ≠ 0) (hlen : len < cbsize) :
    Within (InBuffers cbsize len) (dispatch getenv str c prev l) ∧
      Counted cbsize len n (dispatch getenv str c prev l).val := by
  have hput := put_safe c h hroom
  have hother : ∀ state, state ≠ .waitClose → Counted cbsize len n { l with state := state } := fun state hs =>
    ⟨h.input, h.room, h.left, fun hclose => absurd hclose hs⟩
  unfold dispatch
  cases hstate : l.state with
  | waitDollar =>
    dsimp only
    split
    · exact ⟨within_pure _, hother _ State.noConfusion⟩
    split
    · exact ⟨within_pure _, hother _ State.noConfusion⟩
    · exact hput
  | waitOpen =>
    dsimp only
    split
    · exact ⟨within_pure _, h.input, h.room, h.left, fun _ => le_rfl⟩
    · obtain ⟨hdollar, hcounted⟩ := put_safe dollar (hother .waitDollar State.noConfusion) hroom
      simp only [within_bind, val_bind]
      split
      next hnext => exact ⟨⟨hdollar, (put_safe c hcounted hnext).1⟩, (put_safe c hcounted hnext).2⟩
      next => exact ⟨⟨hdollar, within_pure _⟩, hcounted⟩
  | waitClose =>
    dsimp only
    split
    · have hstart := h.name hstate
      have hread := h.input
      have hvalue := copyValue_safe ((getenv
        (copyName str l.varnameStart (l.input - l.varnameStart - 1) 0).val).elim [] Subtype.val) h
      simp only [within_bind, val_bind, within_pure, and_true, val_pure]
      refine ⟨⟨copyName_safe (by lia) (by lia), hvalue.1⟩, hvalue.2.input, hvalue.2.room, hvalue.2.left,
        fun hclose => State.noConfusion hclose⟩
    · exact ⟨within_pure _, h⟩
  | waitQuote =>
    dsimp only
    split
    · exact ⟨within_pure _, hother _ State.noConfusion⟩
    · exact hput

theorem char_safe {i : ℕ} (hi : i ≤ len) : Within (InBuffers cbsize len) (char str i) := by
  unfold char
  simp only [within_bind, within_touch, within_pure, and_true]
  exact hi

theorem Counted.advance (h : Counted cbsize len (n + 1) l) : Counted cbsize len n { l with input := l.input + 1 } := by
  have hinput := h.input
  refine ⟨?_, h.room, h.left, fun hclose => (h.name hclose).trans (Nat.le_succ _)⟩
  show l.input + 1 + n = len
  lia

theorem Counted.remember (h : Counted cbsize len n l) (c : UInt8) : Counted cbsize len n { l with prev := c } :=
  ⟨h.input, h.room, h.left, h.name⟩

theorem processFrom_safe (getenv : List UInt8 → Option CString) (h : Counted cbsize str.val.length n l) (hlen : str.val.length < cbsize) :
    Within (InBuffers cbsize str.val.length) (processFrom getenv str n l) ∧
      ∃ n', Counted cbsize str.val.length n' (processFrom getenv str n l).val := by
  induction n using Nat.strong_induction_on generalizing l with
  | _ n ih =>
    rcases n with _ | n
    · exact ⟨within_pure l, 0, h⟩
    unfold processFrom
    by_cases hfull : l.outputcnt = 0
    · rw [if_pos hfull]
      exact ⟨within_pure l, _, h⟩
    rw [if_neg hfull]
    have hread : l.input ≤ str.val.length := by
      have hinput := h.input
      lia
    simp only [within_bind, val_bind]
    split
    next =>
      rcases n with _ | n
      · exact ⟨⟨char_safe hread, within_pure _⟩, 0, h.advance⟩
      · have hnext : l.input + 1 ≤ str.val.length := by
          have hinput := h.input
          lia
        obtain ⟨hdispatch, hcounted⟩ := dispatch_safe getenv str (char str (l.input + 1)).val backslash
          h.advance.advance hfull hlen
        obtain ⟨hrest, hcounted'⟩ := ih n (by lia) (hcounted.remember (char str (l.input + 1)).val)
        simp only [within_bind, val_bind]
        exact ⟨⟨char_safe hread, char_safe hnext, hdispatch, hrest⟩, hcounted'⟩
    next =>
      obtain ⟨hdispatch, hcounted⟩ := dispatch_safe getenv str (char str l.input).val l.prev
        h.advance hfull hlen
      obtain ⟨hrest, hcounted'⟩ := ih n (by lia) (hcounted.remember (char str l.input).val)
      simp only [within_bind, val_bind]
      exact ⟨⟨char_safe hread, hdispatch, hrest⟩, hcounted'⟩

theorem counted_start (cbsize : ℕ) (str : CString) :
    Counted cbsize str.val.length str.val.length ⟨0, [], cbsize, .waitDollar, 0, 0⟩ :=
  ⟨Nat.zero_add _, by simp, Int.natCast_nonneg _, fun h => State.noConfusion h⟩

/- Every access is in its buffer; the output has room for what is written, which ends with a NUL. -/
structure Contained (getenv : List UInt8 → Option CString) (cbsize : ℕ) (str : CString) : Prop where
  accesses : Within (InBuffers cbsize str.val.length) (processMacros getenv str cbsize)
  size : (processMacros getenv str cbsize).val.length ≤ cbsize
  terminated : ∃ text, (processMacros getenv str cbsize).val = text ++ [0]

theorem processMacros_contained (getenv : List UInt8 → Option CString) (hlen : str.val.length < cbsize) :
    Contained getenv cbsize str := by
  obtain ⟨hloop, n', hcounted⟩ := processFrom_safe getenv (counted_start cbsize str) hlen
  have hroom := hcounted.room
  have hleft := hcounted.left
  have hlast : processMacros getenv str cbsize =
      (processFrom getenv str str.val.length ⟨0, [], cbsize, .waitDollar, 0, 0⟩ >>= fun l =>
        if l.outputcnt ≠ 0 then do
          touch (.output l.out.length)
          pure (l.out ++ [0])
        else do
          touch (.output (l.out.length - 1))
          pure (l.out.dropLast ++ [0])) := rfl
  generalize processFrom getenv str str.val.length ⟨0, [], cbsize, .waitDollar, 0, 0⟩ = loop at *
  by_cases hfull : loop.val.outputcnt = 0
  · refine ⟨?_, ?_, loop.val.out.dropLast, ?_⟩
    · simp only [hlast, within_bind, hfull, ne_eq, not_true_eq_false, if_false, within_touch, within_pure,
        and_true]
      refine ⟨hloop, ?_⟩
      show loop.val.out.length - 1 < cbsize
      lia
    · simp only [hlast, val_bind, hfull, ne_eq, not_true_eq_false, if_false, val_pure, length_append,
        length_dropLast, length_singleton]
      lia
    · simp only [hlast, val_bind, hfull, ne_eq, not_true_eq_false, if_false, val_pure]
  · refine ⟨?_, ?_, loop.val.out, ?_⟩
    · simp only [hlast, within_bind, hfull, ne_eq, not_false_eq_true, if_true, within_touch, within_pure,
        and_true]
      refine ⟨hloop, ?_⟩
      show loop.val.out.length < cbsize
      lia
    · simp only [hlast, val_bind, hfull, ne_eq, not_false_eq_true, if_true, val_pure, length_append,
        length_singleton]
      lia
    · simp only [hlast, val_bind, hfull, ne_eq, not_false_eq_true, if_true, val_pure]

end Safety

section Steps

variable {getenv : List UInt8 → Option CString} {str : CString} {n : ℕ} {c : UInt8} {l : Locals}

theorem char_val {i : ℕ} (hc : str.val[i]? = some c) : (char str i).val = c := by
  show str.val.getD i 0 = c
  rw [getD_eq_getElem?_getD, hc, Option.getD_some]

theorem drop_cons {s t : List UInt8} {i : ℕ} (h : s.drop i = c :: t) : s[i]? = some c ∧ s.drop (i + 1) = t := by
  constructor
  · have hget := congrArg (fun t => t[0]?) h
    simpa using hget
  · rw [← tail_drop, h, tail_cons]

theorem processFrom_char (hroom : l.outputcnt ≠ 0) (hc : str.val[l.input]? = some c)
    (hplain : l.state = .waitQuote ∨ c ≠ backslash ∨ l.prev = backslash) :
    (processFrom getenv str (n + 1) l).val = (processFrom getenv str n
      { (dispatch getenv str c l.prev { l with input := l.input + 1 }).val with prev := c }).val := by
  have hescape : ¬ (l.state ≠ .waitQuote ∧ c = backslash ∧ l.prev ≠ backslash) := by
    rintro ⟨hstate, hbackslash, hprev⟩
    rcases hplain with h | h | h
    · exact hstate h
    · exact h hbackslash
    · exact hprev h
  conv_lhs => rw [processFrom.eq_def]
  simp only [if_neg hroom, val_bind, char_val hc, if_neg hescape]

theorem processFrom_escaped (hroom : l.outputcnt ≠ 0) (hstate : l.state ≠ .waitQuote)
    (hbackslash : str.val[l.input]? = some backslash) (hprev : l.prev ≠ backslash)
    (hc : str.val[l.input + 1]? = some c) :
    (processFrom getenv str (n + 2) l).val = (processFrom getenv str n
      { (dispatch getenv str c backslash { l with input := l.input + 1 + 1 }).val with prev := c }).val := by
  conv_lhs => rw [processFrom.eq_def]
  simp only [if_neg hroom, val_bind, char_val hbackslash, char_val hc, ne_eq, hstate, hprev,
    not_false_eq_true, and_self, if_true]

end Steps

end UBoot.Cli.Macros
