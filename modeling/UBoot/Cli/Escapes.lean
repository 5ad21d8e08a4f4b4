import UBoot.Cli.Macros

/-!
# One level of escaping

A backslash that was escaped itself still counts as the previous character, so the escape after it
is not recognized.
-/

namespace UBoot.Cli.Macros

open UBoot.Access List

def special (c : UInt8) : Bool := c == backslash || c == dollar || c == quote

def escapeChars : List UInt8 → List UInt8
  | [] => []
  | c :: rest => (if special c then [backslash, c] else [c]) ++ escapeChars rest

theorem escapeChars_nul {s : List UInt8} (hs : (0 : UInt8) ∉ s) : (0 : UInt8) ∉ escapeChars s := by
  induction s with
  | nil => exact hs
  | cons c rest ih =>
    obtain ⟨hc, hrest⟩ := not_or.mp (mt mem_cons.mpr hs)
    unfold escapeChars
    split
    · simp [hc, ih hrest, backslash]
    · simp [hc, ih hrest]

/- A backslash put before every backslash, dollar sign and single quote. -/
def escape (s : CString) : CString := ⟨escapeChars s.val, escapeChars_nul s.property⟩

/- What comes out for an escaped text: the backslash of an escape stays after a backslash. -/
def unescaped (prev : UInt8) : List UInt8 → List UInt8
  | [] => []
  | c :: rest => (if special c ∧ prev = backslash then [backslash, c] else [c]) ++ unescaped c rest

def Apart (s : List UInt8) : Prop := s.IsChain fun a b => ¬ (a = backslash ∧ special b)

instance (s : List UInt8) : Decidable (Apart s) := inferInstanceAs (Decidable (s.IsChain _))

section Undo

variable {getenv : List UInt8 → Option CString} {str : CString} {n : ℕ} {c prev : UInt8} {l : Locals}

theorem dispatch_literal (hstate : l.state = .waitDollar) (h : prev = backslash ∨ c ≠ quote ∧ c ≠ dollar) :
    dispatch getenv str c prev l = put c l := by
  have hq : ¬ (c = quote ∧ prev ≠ backslash) := by tauto
  have hd : ¬ (c = dollar ∧ prev ≠ backslash) := by tauto
  unfold dispatch
  simp only [hstate, if_neg hq, if_neg hd]

theorem processFrom_copied (hroom : l.outputcnt ≠ 0) (hc : str.val[l.input]? = some c)
    (hstate : l.state = .waitDollar) (hplain : l.prev = backslash ∨ c ≠ backslash ∧ c ≠ quote ∧ c ≠ dollar) :
    (processFrom getenv str (n + 1) l).val = (processFrom getenv str n
      ⟨l.input + 1, l.out ++ [c], l.outputcnt - 1, l.state, c, l.varnameStart⟩).val := by
  have hput : dispatch getenv str c l.prev { l with input := l.input + 1 } = put c { l with input := l.input + 1 } :=
    dispatch_literal hstate (hplain.imp_right And.right)
  rw [processFrom_char hroom hc (.inr (hplain.symm.imp_left And.left)), hput]
  rfl

theorem processFrom_taken (hroom : l.outputcnt ≠ 0) (hbackslash : str.val[l.input]? = some backslash)
    (hc : str.val[l.input + 1]? = some c) (hstate : l.state = .waitDollar) (hprev : l.prev ≠ backslash) :
    (processFrom getenv str (n + 2) l).val = (processFrom getenv str n
      ⟨l.input + 1 + 1, l.out ++ [c], l.outputcnt - 1, l.state, c, l.varnameStart⟩).val := by
  have hput : dispatch getenv str c backslash { l with input := l.input + 1 + 1 } =
      put c { l with input := l.input + 1 + 1 } := dispatch_literal hstate (.inl rfl)
  rw [processFrom_escaped hroom (by rw [hstate]; exact State.noConfusion) hbackslash hprev hc, hput]
  rfl

theorem unescaped_length_le (prev : UInt8) (s : List UInt8) :
    s.length ≤ (unescaped prev s).length ∧ (unescaped prev s).length ≤ (escapeChars s).length := by
  induction s generalizing prev with
  | nil => exact ⟨le_rfl, le_rfl⟩
  | cons c rest ih =>
    obtain ⟨hlow, hhigh⟩ := ih c
    unfold unescaped escapeChars
    by_cases hs : special c = true
    · by_cases hp : prev = backslash
      · simp only [hs, hp, and_self, if_true, length_append, length_cons, length_nil]
        lia
      · simp only [hs, hp, and_false, if_true, if_false, length_append, length_cons, length_nil]
        lia
    · simp only [hs, Bool.false_eq_true, false_and, if_false, length_append, length_cons,
        length_nil]
      lia

theorem unescaped_eq_iff (prev : UInt8) (s : List UInt8) : unescaped prev s = s ↔ Apart (prev :: s) := by
  induction s generalizing prev with
  | nil => simp [unescaped, Apart]
  | cons c rest ih =>
    unfold unescaped Apart
    rw [isChain_cons_cons]
    split
    next h =>
      refine iff_of_false (fun heq => ?_) fun hchain => hchain.1 ⟨h.2, h.1⟩
      have hlen := congrArg List.length heq
      have hle := (unescaped_length_le c rest).1
      simp only [length_append, length_cons, length_nil] at hlen
      lia
    next h =>
      have hpair : ¬ (prev = backslash ∧ special c = true) := fun hp => h ⟨hp.2, hp.1⟩
      rw [singleton_append, List.cons.injEq, ih c, Apart]
      simp only [true_and, hpair, not_false_eq_true]

theorem put_out_cons {out text : List UInt8} {cnt : ℤ} {c : UInt8} {l' : Locals}
    (h : l'.out = out ++ [c] ++ text ∧ l'.outputcnt = cnt - 1 - text.length) :
    l'.out = out ++ c :: text ∧ l'.outputcnt = cnt - (c :: text).length := by
  obtain ⟨hout, hleft⟩ := h
  rw [hout, hleft, length_cons]
  refine ⟨by simp, ?_⟩
  push_cast
  lia

theorem processFrom_unescapes {rest : List UInt8} (hstate : l.state = .waitDollar)
    (hdrop : str.val.drop l.input = escapeChars rest) (hroom : (escapeChars rest).length < l.outputcnt) :
    (processFrom getenv str (escapeChars rest).length l).val.out = l.out ++ unescaped l.prev rest ∧
      (processFrom getenv str (escapeChars rest).length l).val.outputcnt =
        l.outputcnt - (unescaped l.prev rest).length := by
  induction rest generalizing l with
  | nil => simp [processFrom, escapeChars, unescaped]
  | cons c rest ih =>
    have hcnt : l.outputcnt ≠ 0 := by lia
    by_cases hspecial : special c = true
    · have hesc : escapeChars (c :: rest) = backslash :: c :: escapeChars rest := by
        simp [escapeChars, hspecial]
      rw [hesc] at hdrop hroom ⊢
      obtain ⟨hfirst, hdrop'⟩ := drop_cons hdrop
      obtain ⟨hsecond, hdrop''⟩ := drop_cons hdrop'
      simp only [length_cons] at hroom ⊢
      by_cases hprev : l.prev = backslash
      · -- the backslash is not taken as an escape, and both characters are copied
        have hun : unescaped l.prev (c :: rest) = backslash :: c :: unescaped c rest := by
          simp [unescaped, hspecial, hprev]
        rw [processFrom_copied hcnt hfirst hstate (.inl hprev),
          processFrom_copied
            (l := ⟨l.input + 1, l.out ++ [backslash], l.outputcnt - 1, l.state, backslash, l.varnameStart⟩)
            (by dsimp only; lia) hsecond hstate (.inl rfl)]
        rw [hun]
        exact put_out_cons (put_out_cons (@ih
          ⟨l.input + 1 + 1, l.out ++ [backslash] ++ [c], l.outputcnt - 1 - 1, l.state, c, l.varnameStart⟩
          hstate hdrop'' (by dsimp only; lia)))
      · have hun : unescaped l.prev (c :: rest) = c :: unescaped c rest := by
          simp [unescaped, hprev]
        rw [processFrom_taken hcnt hfirst hsecond hstate hprev]
        rw [hun]
        exact put_out_cons (@ih
          ⟨l.input + 1 + 1, l.out ++ [c], l.outputcnt - 1, l.state, c, l.varnameStart⟩
          hstate hdrop'' (by dsimp only; lia))
    · have hesc : escapeChars (c :: rest) = c :: escapeChars rest := by
        simp [escapeChars, hspecial]
      have hun : unescaped l.prev (c :: rest) = c :: unescaped c rest := by
        simp [unescaped, hspecial]
      have hplain : c ≠ backslash ∧ c ≠ quote ∧ c ≠ dollar := by
        refine ⟨?_, ?_, ?_⟩ <;> rintro rfl <;> exact hspecial (by decide)
      rw [hesc] at hdrop hroom ⊢
      obtain ⟨hfirst, hdrop'⟩ := drop_cons hdrop
      simp only [length_cons] at hroom ⊢
      rw [processFrom_copied hcnt hfirst hstate (.inr hplain)]
      rw [hun]
      exact put_out_cons (@ih
        ⟨l.input + 1, l.out ++ [c], l.outputcnt - 1, l.state, c, l.varnameStart⟩
        hstate hdrop' (by dsimp only; lia))

end Undo

/-- An escaped text that fits the buffer comes out unchanged exactly when no backslash of the text is
followed by a backslash, a dollar sign or a single quote. -/
theorem escape_undone_iff (getenv : List UInt8 → Option CString) (cbsize : ℕ) (s : CString)
    (hfit : (escape s).val.length < cbsize) :
    (processMacros getenv (escape s) cbsize).val = s.val ++ [0] ↔ Apart s.val := by
  have hroom : ((escapeChars s.val).length : ℤ) < cbsize := by exact_mod_cast hfit
  obtain ⟨hout, hleft⟩ := @processFrom_unescapes getenv (escape s) ⟨0, [], cbsize, .waitDollar, 0, 0⟩ s.val
    rfl rfl hroom
  dsimp only at hout hleft
  have hle := (unescaped_length_le 0 s.val).2
  have hfull : (processFrom getenv (escape s) (escapeChars s.val).length
      ⟨0, [], cbsize, .waitDollar, 0, 0⟩).val.outputcnt ≠ 0 := by
    rw [hleft]
    lia
  have hlen : (escape s).val.length = (escapeChars s.val).length := rfl
  have hval : (processMacros getenv (escape s) cbsize).val = unescaped 0 s.val ++ [0] := by
    unfold processMacros
    rw [val_bind, val_ite, hlen, if_pos hfull, val_bind, val_pure, hout, nil_append]
  have hstart : Apart (0 :: s.val) ↔ Apart s.val := by
    unfold Apart
    cases hs : s.val with
    | nil => simp
    | cons c rest =>
      rw [isChain_cons_cons]
      simp [backslash]
  rw [hval, append_left_inj, unescaped_eq_iff, hstart]

/- A dollar sign, a quote and a backslash, apart from each other. -/
theorem escape_undone_apart : (processMacros (fun _ => none) (escape ⟨[0x24, 0x61, 0x27, 0x5c, 0x62], by decide⟩)
    256).val = [0x24, 0x61, 0x27, 0x5c, 0x62, 0] :=
  (escape_undone_iff (fun _ => none) 256 ⟨[0x24, 0x61, 0x27, 0x5c, 0x62], by decide⟩ (by decide)).mpr (by decide)

/- A backslash before a dollar sign comes out twice. -/
theorem escape_doubled : (escape ⟨[0x5c, 0x24], by decide⟩).val.length < 256 ∧
    (processMacros (fun _ => none) (escape ⟨[0x5c, 0x24], by decide⟩) 256).val = [0x5c, 0x5c, 0x24, 0] := by
  decide +kernel

end UBoot.Cli.Macros
