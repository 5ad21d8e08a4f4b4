import UBoot.Pxe.Parse

/-!
# Reading a file that has bytes behind it

The text of a file is read as if it were alone, as long as no statement goes on behind its end.
-/

namespace UBoot.Pxe

open List Option

section Tokens

theorem dropWhile_text {q : UInt8 → Bool} (hq : q 0 = false) (s junk : Text) :
    (s ++ 0 :: junk).dropWhile q = s.dropWhile q ++ 0 :: junk := by
  induction s with
  | nil => simp [hq]
  | cons c s ih => cases hc : q c <;> simp [hc, ih]

theorem takeWhile_text {q : UInt8 → Bool} (hq : q 0 = false) (s junk : Text) :
    (s ++ 0 :: junk).takeWhile q = s.takeWhile q := by
  induction s with
  | nil => simp [hq]
  | cons c s ih => cases hc : q c <;> simp [hc, ih]

theorem inString_zero (delim : UInt8) : inString delim 0 = false := by simp [inString]

theorem inLine_zero : inLine 0 = false := by simp [inLine]

theorem isblank_zero : isblank 0 = false := by decide

theorem head_text (s junk : Text) : (s ++ 0 :: junk).head? = some 35 ↔ s.head? = some 35 := by
  cases s with
  | nil => simp
  | cons c s => simp

variable (s junk : Text)

theorem getString_text (delim : UInt8) (lower : Bool) :
    getString (s ++ 0 :: junk) delim lower
      = ((getString s delim lower).1, (getString s delim lower).2 ++ 0 :: junk) := by
  simp only [getString, takeWhile_text (inString_zero delim), dropWhile_text (inString_zero delim)]

theorem eolOrEof_text : eolOrEof (s ++ 0 :: junk) = eolOrEof s ++ 0 :: junk :=
  dropWhile_text inLine_zero s junk

theorem skipBlank_text : skipBlank (s ++ 0 :: junk) = skipBlank s ++ 0 :: junk := by
  simp only [skipBlank, dropWhile_text isblank_zero]
  by_cases hash : (s.dropWhile isblank).head? = some 35
  · rw [if_pos hash, if_pos ((head_text _ junk).mpr hash)]
    exact dropWhile_text inLine_zero _ junk
  · rw [if_neg hash, if_neg (mt (head_text _ junk).mp hash)]

theorem getToken_text (state : LexState) :
    (getToken (s ++ 0 :: junk) state).1 = (getToken s state).1 ∧
      ((getToken s state).1.type ≠ .eof →
        (getToken (s ++ 0 :: junk) state).2 = (getToken s state).2 ++ 0 :: junk) := by
  unfold getToken
  rw [skipBlank_text]
  cases hs : skipBlank s with
  | nil => simp
  | cons c rest =>
    have happ : c :: rest ++ 0 :: junk = c :: (rest ++ 0 :: junk) := rfl
    simp only [happ]
    by_cases heol : c = 10
    · simp [heol]
    · by_cases hzero : c = 0
      · simp [hzero]
      · simp only [heol, hzero, if_false]
        cases state with
        | sliteral =>
          have hstr := getString_text (c :: rest) junk 10 false
          rw [happ] at hstr
          simp [hstr]
        | keyword =>
          have hstr := getString_text (c :: rest) junk 32 true
          rw [happ] at hstr
          simp [hstr]

theorem getToken_eq {state : LexState} {t : Token} {rest : Text} (h : getToken s state = (t, rest))
    (hne : t.type ≠ .eof) : getToken (s ++ 0 :: junk) state = (t, rest ++ 0 :: junk) := by
  obtain ⟨htok, hrest⟩ := getToken_text s junk state
  rw [h] at htok hrest
  exact Prod.ext htok (hrest hne)

theorem parseSliteral_text :
    (parseSliteral (s ++ 0 :: junk)).1 = (parseSliteral s).1 ∧
      ((getToken s .sliteral).1.type ≠ .eof →
        (parseSliteral (s ++ 0 :: junk)).2 = (parseSliteral s).2 ++ 0 :: junk) := by
  obtain ⟨htok, hrest⟩ := getToken_text s junk .sliteral
  simp only [parseSliteral, htok]
  split
  · exact ⟨rfl, hrest⟩
  · exact ⟨rfl, hrest⟩

theorem parseSliteral_some {val rest : Text} (h : parseSliteral s = (some val, rest)) :
    parseSliteral (s ++ 0 :: junk) = (some val, rest ++ 0 :: junk) := by
  obtain ⟨hval, hrest⟩ := parseSliteral_text s junk
  rw [h] at hval hrest
  refine Prod.ext hval (hrest fun heof => ?_)
  simp [parseSliteral, heof] at h

theorem parseInteger_text : (parseInteger (s ++ 0 :: junk)).1 = (parseInteger s).1 := by
  obtain ⟨htok, -⟩ := getToken_text s junk .sliteral
  simp only [parseInteger, htok]
  split
  · rfl
  · rfl

theorem parseInteger_some {val : ℤ} {rest : Text} (h : parseInteger s = (some val, rest)) :
    parseInteger (s ++ 0 :: junk) = (some val, rest ++ 0 :: junk) := by
  obtain ⟨htok, hrest⟩ := getToken_text s junk .sliteral
  have hval := parseInteger_text s junk
  rw [h] at hval
  refine Prod.ext hval ?_
  simp only [parseInteger] at h ⊢
  rw [htok]
  split at h
  · cases h
  · rename_i hstr
    have htype : (getToken s .sliteral).1.type = .string := by simpa using hstr
    rw [if_neg hstr]
    simp only [Prod.mk.injEq] at h
    rw [hrest (by simp [htype]), h.2]

end Tokens

theorem skipBlank_suffix (s : Text) : skipBlank s <:+ s := by
  unfold skipBlank
  dsimp only
  split
  · exact (dropWhile_suffix _).trans (dropWhile_suffix _)
  · exact dropWhile_suffix _

theorem getToken_suffix (s : Text) (state : LexState) : (getToken s state).2 <:+ s := by
  unfold getToken
  have hskip := skipBlank_suffix s
  cases hs : skipBlank s with
  | nil => exact nil_suffix
  | cons c rest =>
    rw [hs] at hskip
    have hrest : rest <:+ s := (suffix_cons c rest).trans hskip
    dsimp only
    split
    · exact hrest
    · split
      · exact hrest
      · cases state with
        | sliteral => exact (dropWhile_suffix _).trans hskip
        | keyword => exact (dropWhile_suffix _).trans hskip

theorem parseSliteral_suffix (s : Text) : (parseSliteral s).2 <:+ s := by
  have htok := getToken_suffix s .sliteral
  unfold parseSliteral
  dsimp only
  split
  · exact htok
  · exact htok

theorem parseInteger_suffix (s : Text) : (parseInteger s).2 <:+ s := by
  have htok := getToken_suffix s .sliteral
  unfold parseInteger
  dsimp only
  split
  · exact htok
  · exact htok

/- The line `menu` of a label is over: with nothing behind the keyword, or with `label` only. -/
def CutLabelMenu (s : Text) : Prop :=
  (getToken s .keyword).1.type = .eof ∨
    (getToken s .keyword).1.type = .label ∧
      (getToken (getToken s .keyword).2 .sliteral).1.type = .eof

inductive CutLabel : Text → Menu → Label → Prop
  | menu {s rest : Text} {t : Token} {cfg : Menu} {label : Label}
      (htok : getToken s .keyword = (t, rest)) (ht : t.type = .menu) (hcut : CutLabelMenu rest) :
      CutLabel s cfg label
  | later {s rest : Text} {cfg cfg' : Menu} {label label' : Label}
      (hitem : labelItem s cfg label = .next rest cfg' label') (hcut : CutLabel rest cfg' label') :
      CutLabel s cfg label

/- The statement at `s` has a `menu` that the file ends behind. -/
inductive Cut : Text → Menu → Prop
  | menu {s rest : Text} {t : Token} {cfg : Menu} (htok : getToken s .keyword = (t, rest))
      (ht : t.type = .menu) (hcut : (getToken rest .keyword).1.type = .eof) : Cut s cfg
  | label {s rest rest' name : Text} {t : Token} {cfg : Menu} (htok : getToken s .keyword = (t, rest))
      (ht : t.type = .label) (hname : parseSliteral rest = (some name, rest'))
      (hcut : CutLabel rest' cfg (labelCreate name)) : Cut s cfg

def Item.on (junk : Text) : Item → Item
  | .next rest cfg label => .next (rest ++ 0 :: junk) cfg label
  | .done => .done
  | .error => .error
  | .crash => .crash

def Turn.on (junk : Text) : Turn → Turn
  | .next rest cfg => .next (rest ++ 0 :: junk) cfg
  | .incl menu path rest cfg => .incl menu path (rest ++ 0 :: junk) cfg
  | .eof => .eof
  | .error => .error
  | .crash => .crash

section Statements

variable (s junk : Text) (cfg : Menu) (label : Label)

theorem parseSliteral_none (h : (parseSliteral s).1 = none) :
    ∃ rest, parseSliteral (s ++ 0 :: junk) = (none, rest) :=
  ⟨_, Prod.ext ((parseSliteral_text s junk).1.trans h) rfl⟩

theorem parseInteger_none (h : (parseInteger s).1 = none) :
    ∃ rest, parseInteger (s ++ 0 :: junk) = (none, rest) :=
  ⟨_, Prod.ext ((parseInteger_text s junk).trans h) rfl⟩

theorem storeSliteral_text (set : Text → Label) :
    storeSliteral (s ++ 0 :: junk) cfg set = (storeSliteral s cfg set).on junk := by
  unfold storeSliteral
  rcases hs : parseSliteral s with ⟨_ | val, rest⟩
  · obtain ⟨rest', hs'⟩ := parseSliteral_none s junk (by rw [hs])
    rw [hs']
    rfl
  · rw [parseSliteral_some s junk hs]
    rfl

theorem storeInteger_text (set : ℤ → Label) :
    storeInteger (s ++ 0 :: junk) cfg set = (storeInteger s cfg set).on junk := by
  unfold storeInteger
  rcases hs : parseInteger s with ⟨_ | val, rest⟩
  · obtain ⟨rest', hs'⟩ := parseInteger_none s junk (by rw [hs])
    rw [hs']
    rfl
  · rw [parseInteger_some s junk hs]
    rfl

theorem parseAppend_text :
    parseAppend (s ++ 0 :: junk) cfg label = (parseAppend s cfg label).on junk := by
  unfold parseAppend
  rcases hs : parseSliteral s with ⟨_ | val, rest⟩
  · obtain ⟨rest', hs'⟩ := parseSliteral_none s junk (by rw [hs])
    rw [hs']
    dsimp only
    split
    · rfl
    · rfl
  · rw [parseSliteral_some s junk hs]
    dsimp only
    split
    · rfl
    · cases initrdOf val with
      | none => rfl
      | some initrd => rfl

theorem parseLabelMenu_text (hcut : ¬ CutLabelMenu s) :
    parseLabelMenu (s ++ 0 :: junk) cfg label
      = ((parseLabelMenu s cfg label).1, (parseLabelMenu s cfg label).2.1,
          (parseLabelMenu s cfg label).2.2 ++ 0 :: junk) := by
  obtain ⟨hne, hlabel⟩ := not_or.mp hcut
  unfold parseLabelMenu
  rcases hs : getToken s .keyword with ⟨t, rest⟩
  rw [hs] at hne hlabel
  rw [getToken_eq s junk hs hne]
  dsimp only
  split
  · rw [eolOrEof_text]
  · rename_i htype
    obtain ⟨hmenu, hrest⟩ := parseSliteral_text rest junk
    rw [hmenu, hrest fun heof => hlabel ⟨htype, heof⟩, eolOrEof_text]
  · rw [eolOrEof_text]

theorem labelItem_eof (h : (getToken s .keyword).1.type = .eof) : labelItem s cfg label = .done := by
  unfold labelItem
  simp only [h]

theorem labelItem_text (hcut : ¬ CutLabel s cfg label) :
    labelItem (s ++ 0 :: junk) cfg label = (labelItem s cfg label).on junk := by
  by_cases heof : (getToken s .keyword).1.type = .eof
  · have heof' : (getToken (s ++ 0 :: junk) .keyword).1.type = .eof := by
      rw [(getToken_text s junk .keyword).1, heof]
    rw [labelItem_eof s cfg label heof, labelItem_eof _ cfg label heof']
    rfl
  · rcases hs : getToken s .keyword with ⟨t, rest⟩
    rw [hs] at heof
    have hs' := getToken_eq s junk hs heof
    cases htype : t.type with
    | menu =>
      have hline := parseLabelMenu_text rest junk cfg label fun h => hcut (.menu hs htype h)
      simp only [labelItem, hs, hs', htype, hline]
      rfl
    | kernel | linux =>
      simp only [labelItem, hs, hs', htype]
      exact storeSliteral_text rest junk cfg _
    | append =>
      simp only [labelItem, hs, hs', htype]
      exact parseAppend_text rest junk cfg label
    | initrd | fdt | fdtdir =>
      simp only [labelItem, hs, hs', htype]
      split
      · rfl
      · exact storeSliteral_text rest junk cfg _
    | localboot | ipappend =>
      simp only [labelItem, hs, hs', htype]
      exact storeInteger_text rest junk cfg _
    | _ =>
      simp only [labelItem, hs, hs', htype]
      rfl

theorem labelLoop_text (turns : ℕ) (hcut : ¬ CutLabel s cfg label) :
    labelLoop turns (s ++ 0 :: junk) cfg label = (labelLoop turns s cfg label).map (Turn.on junk) := by
  induction turns generalizing s cfg label with
  | zero => rfl
  | succ turns ih =>
    unfold labelLoop
    rw [labelItem_text s junk cfg label hcut]
    cases hitem : labelItem s cfg label with
    | next rest cfg' label' => exact ih rest cfg' label' fun h => hcut (.later hitem h)
    | done => rfl
    | error => rfl
    | crash => rfl

theorem parseMenu_text (hne : (getToken s .keyword).1.type ≠ .eof) :
    parseMenu (s ++ 0 :: junk) cfg = (parseMenu s cfg).on junk := by
  unfold parseMenu
  rcases hs : getToken s .keyword with ⟨t, rest⟩
  rw [hs] at hne
  rw [getToken_eq s junk hs hne]
  dsimp only
  split
  · rcases hstr : parseSliteral rest with ⟨_ | title, rest'⟩
    · obtain ⟨_, hstr'⟩ := parseSliteral_none rest junk (by rw [hstr])
      rw [hstr']
      rfl
    · rw [parseSliteral_some rest junk hstr]
      simp only [eolOrEof_text, Turn.on]
  · rcases hstr : parseSliteral rest with ⟨_ | path, rest'⟩
    · obtain ⟨_, hstr'⟩ := parseSliteral_none rest junk (by rw [hstr])
      rw [hstr']
      rfl
    · rw [parseSliteral_some rest junk hstr]
      rfl
  · simp only [eolOrEof_text, Turn.on]

theorem literal_text {next : Text → Text → Turn}
    (hnext : ∀ val rest, next val (rest ++ 0 :: junk) = (next val rest).on junk) :
    (match parseSliteral (s ++ 0 :: junk) with
      | (some val, rest) => some (next val rest)
      | (none, _) => some .error)
    = (match parseSliteral s with
      | (some val, rest) => some (next val rest)
      | (none, _) => some Turn.error).map (Turn.on junk) := by
  rcases hs : parseSliteral s with ⟨_ | val, rest⟩
  · obtain ⟨_, hs'⟩ := parseSliteral_none s junk (by rw [hs])
    rw [hs']
    rfl
  · rw [parseSliteral_some s junk hs]
    exact congrArg some (hnext val rest)

theorem turn_eof (turns : ℕ) (h : (getToken s .keyword).1.type = .eof) :
    turn turns s cfg = some .eof := by
  unfold turn
  simp only [h]

theorem turn_text (turns : ℕ) (hcut : ¬ Cut s cfg) :
    turn turns (s ++ 0 :: junk) cfg = (turn turns s cfg).map (Turn.on junk) := by
  by_cases heof : (getToken s .keyword).1.type = .eof
  · have heof' : (getToken (s ++ 0 :: junk) .keyword).1.type = .eof := by
      rw [(getToken_text s junk .keyword).1, heof]
    rw [turn_eof s cfg turns heof, turn_eof _ cfg turns heof']
    rfl
  · rcases hs : getToken s .keyword with ⟨t, rest⟩
    rw [hs] at heof
    have hs' := getToken_eq s junk hs heof
    cases htype : t.type with
    | menu =>
      have hmenu := parseMenu_text rest junk { cfg with prompt := 1 }
        fun h => hcut (.menu hs htype h)
      simp only [turn, hs, hs', htype, hmenu]
      rfl
    | label =>
      simp only [turn, hs, hs', htype, parseLabel]
      rcases hname : parseSliteral rest with ⟨_ | name, rest'⟩
      · obtain ⟨_, hname'⟩ := parseSliteral_none rest junk (by rw [hname])
        rw [hname']
        rfl
      · rw [parseSliteral_some rest junk hname]
        exact labelLoop_text rest' junk cfg _ turns fun h => hcut (.label hs htype hname h)
    | timeout =>
      simp only [turn, hs, hs', htype]
      rcases hval : parseInteger rest with ⟨_ | val, rest'⟩
      · obtain ⟨_, hval'⟩ := parseInteger_none rest junk (by rw [hval])
        rw [hval']
        rfl
      · rw [parseInteger_some rest junk hval]
        rfl
    | default | ontimeout | «include» =>
      simp only [turn, hs, hs', htype]
      exact literal_text rest junk fun val rest => rfl
    | eof => exact absurd htype heof
    | eol =>
      simp only [turn, hs, hs', htype]
      rfl
    | _ =>
      simp only [turn, hs, hs', htype, eolOrEof_text]
      rfl

end Statements

section Ends

variable {s rest : Text} {cfg cfg' : Menu} {label label' : Label}

theorem storeSliteral_suffix {set : Text → Label}
    (h : storeSliteral s cfg set = .next rest cfg' label') : rest <:+ s := by
  have hsuf := parseSliteral_suffix s
  unfold storeSliteral at h
  rcases hs : parseSliteral s with ⟨_ | val, rest'⟩
  · simp [hs] at h
  · simp only [hs, Item.next.injEq] at h
    rw [hs] at hsuf
    rw [← h.1]
    exact hsuf

theorem storeInteger_suffix {set : ℤ → Label}
    (h : storeInteger s cfg set = .next rest cfg' label') : rest <:+ s := by
  have hsuf := parseInteger_suffix s
  unfold storeInteger at h
  rcases hs : parseInteger s with ⟨_ | val, rest'⟩
  · simp [hs] at h
  · simp only [hs, Item.next.injEq] at h
    rw [hs] at hsuf
    rw [← h.1]
    exact hsuf

theorem parseAppend_suffix (h : parseAppend s cfg label = .next rest cfg' label') : rest <:+ s := by
  have hsuf := parseSliteral_suffix s
  unfold parseAppend at h
  rcases hs : parseSliteral s with ⟨_ | val, rest'⟩
  · simp only [hs] at h
    split at h <;> cases h
  · rw [hs] at hsuf
    simp only [hs] at h
    split at h
    · simp only [Item.next.injEq] at h
      rw [← h.1]
      exact hsuf
    · cases hinit : initrdOf val with
      | none => simp [hinit] at h
      | some initrd =>
        simp only [hinit, Item.next.injEq] at h
        rw [← h.1]
        exact hsuf

theorem eolOrEof_suffix (s : Text) : eolOrEof s <:+ s := dropWhile_suffix _

theorem parseLabelMenu_suffix (s : Text) (cfg : Menu) (label : Label) :
    (parseLabelMenu s cfg label).2.2 <:+ s := by
  have htok := getToken_suffix s .keyword
  unfold parseLabelMenu
  dsimp only
  split
  · exact (eolOrEof_suffix _).trans htok
  · exact (eolOrEof_suffix _).trans ((parseSliteral_suffix _).trans htok)
  · exact (eolOrEof_suffix _).trans htok

theorem labelItem_suffix (h : labelItem s cfg label = .next rest cfg' label') : rest <:+ s := by
  have htok := getToken_suffix s .keyword
  unfold labelItem at h
  dsimp only at h
  split at h
  · simp only [Item.next.injEq] at h
    rw [← h.1]
    exact (parseLabelMenu_suffix _ cfg label).trans htok
  · exact (storeSliteral_suffix h).trans htok
  · exact (storeSliteral_suffix h).trans htok
  · exact (parseAppend_suffix h).trans htok
  iterate 3
    split at h
    · simp only [Item.next.injEq] at h
      rw [← h.1]
      exact htok
    · exact (storeSliteral_suffix h).trans htok
  · exact (storeInteger_suffix h).trans htok
  · exact (storeInteger_suffix h).trans htok
  · simp only [Item.next.injEq] at h
    rw [← h.1]
    exact htok
  · cases h

def Turn.Behind (s : Text) : Turn → Prop
  | .next rest _ => rest <:+ s
  | .incl _ _ rest _ => rest <:+ s
  | _ => True

variable {r : Turn}

theorem Turn.Behind.trans {s' : Text} (hr : r.Behind s') (hs : s' <:+ s) : r.Behind s := by
  cases r with
  | next rest cfg => exact List.IsSuffix.trans hr hs
  | incl menu path rest cfg => exact List.IsSuffix.trans hr hs
  | _ => trivial

theorem literal_behind {next : Text → Text → Turn} (hnext : ∀ val rest, (next val rest).Behind rest)
    (h : (match parseSliteral s with
      | (some val, rest) => some (next val rest)
      | (none, _) => some .error) = some r) : r.Behind s := by
  have hsuf := parseSliteral_suffix s
  rcases hs : parseSliteral s with ⟨_ | val, rest'⟩
  · simp only [hs, some.injEq] at h
    rw [← h]
    trivial
  · simp only [hs, some.injEq] at h
    rw [hs] at hsuf
    rw [← h]
    exact (hnext val rest').trans hsuf

theorem parseMenu_behind (s : Text) (cfg : Menu) : (parseMenu s cfg).Behind s := by
  have htok := getToken_suffix s .keyword
  rcases hs : getToken s .keyword with ⟨t, rest⟩
  rw [hs] at htok
  have hlit := parseSliteral_suffix rest
  unfold parseMenu
  simp only [hs]
  split
  · rcases hstr : parseSliteral rest with ⟨_ | title, rest'⟩
    · trivial
    · rw [hstr] at hlit
      exact (eolOrEof_suffix rest').trans (hlit.trans htok)
  · rcases hstr : parseSliteral rest with ⟨_ | path, rest'⟩
    · trivial
    · rw [hstr] at hlit
      exact hlit.trans htok
  · exact (eolOrEof_suffix rest).trans htok

theorem labelLoop_behind {turns : ℕ} (h : labelLoop turns s cfg label = some r) : r.Behind s := by
  induction turns generalizing s cfg label with
  | zero => cases h
  | succ turns ih =>
    unfold labelLoop at h
    cases hitem : labelItem s cfg label with
    | next s' cfg₁ label₁ =>
      rw [hitem] at h
      exact (ih h).trans (labelItem_suffix hitem)
    | done =>
      simp only [hitem, some.injEq] at h
      rw [← h]
      exact suffix_rfl
    | error | crash =>
      simp only [hitem, some.injEq] at h
      rw [← h]
      trivial

theorem turn_behind {turns : ℕ} (h : turn turns s cfg = some r) : r.Behind s := by
  have htok := getToken_suffix s .keyword
  rcases hs : getToken s .keyword with ⟨t, rest⟩
  rw [hs] at htok
  cases htype : t.type with
  | menu =>
    simp only [turn, hs, htype, some.injEq] at h
    rw [← h]
    exact (parseMenu_behind rest _).trans htok
  | label =>
    simp only [turn, hs, htype, parseLabel] at h
    have hlit := parseSliteral_suffix rest
    rcases hname : parseSliteral rest with ⟨_ | name, rest'⟩
    · simp only [hname, some.injEq] at h
      rw [← h]
      trivial
    · rw [hname] at h hlit
      exact (labelLoop_behind h).trans (hlit.trans htok)
  | timeout =>
    simp only [turn, hs, htype] at h
    have hint := parseInteger_suffix rest
    rcases hval : parseInteger rest with ⟨_ | val, rest'⟩
    · simp only [hval, some.injEq] at h
      rw [← h]
      trivial
    · simp only [hval, some.injEq] at h
      rw [hval] at hint
      rw [← h]
      exact hint.trans htok
  | default | ontimeout | «include» =>
    simp only [turn, hs, htype] at h
    refine Turn.Behind.trans (literal_behind ?_ h) htok
    exact fun val rest => suffix_rfl
  | eof =>
    simp only [turn, hs, htype, some.injEq] at h
    rw [← h]
    trivial
  | eol =>
    simp only [turn, hs, htype, some.injEq] at h
    rw [← h]
    exact htok
  | _ =>
    simp only [turn, hs, htype, some.injEq] at h
    rw [← h]
    exact (eolOrEof_suffix rest).trans htok

end Ends

theorem labelLoop_mono {turns more : ℕ} (hle : turns ≤ more) {s : Text} {cfg : Menu} {label : Label}
    {r : Turn} (h : labelLoop turns s cfg label = some r) : labelLoop more s cfg label = some r := by
  induction turns generalizing more s cfg label with
  | zero => cases h
  | succ turns ih =>
    obtain _ | more := more
    · lia
    unfold labelLoop at h ⊢
    cases hitem : labelItem s cfg label with
    | next s' cfg₁ label₁ =>
      rw [hitem] at h
      exact ih (by omega) h
    | done | error | crash =>
      rw [hitem] at h
      exact h

theorem turn_mono {turns more : ℕ} (hle : turns ≤ more) {s : Text} {cfg : Menu} {r : Turn}
    (h : turn turns s cfg = some r) : turn more s cfg = some r := by
  unfold turn at h ⊢
  rcases hs : getToken s .keyword with ⟨t, rest⟩
  rw [hs] at h
  cases htype : t.type with
  | label =>
    simp only [htype, parseLabel] at h ⊢
    rcases hname : parseSliteral rest with ⟨_ | name, rest'⟩
    · rw [hname] at h
      exact h
    · rw [hname] at h
      exact labelLoop_mono hle h
  | _ =>
    simp only [htype] at h ⊢
    exact h

end UBoot.Pxe
