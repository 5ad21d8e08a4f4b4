import UBoot.Env.LineChanges

/-!
# Import of text with carriage returns (lib/hashtable.c)

`himport_r` with `crlf_is_lf` next to an import of the cleaned text. The removal moves the text down
in its buffer; the bytes that it leaves behind are read along with a last line that no line feed ends.
-/

namespace UBoot.Env

open List Option

section Local

variable {p : UInt8 → Bool} {s : Str}

theorem takeWhile_append_left (u : Str) (h : s.dropWhile p ≠ []) :
    (s ++ u).takeWhile p = s.takeWhile p := by
  induction s with
  | nil => exact absurd rfl h
  | cons c s ih =>
    by_cases hc : p c = true
    · rw [dropWhile_cons_of_pos hc] at h
      rw [cons_append, takeWhile_cons_of_pos hc, takeWhile_cons_of_pos hc, ih h]
    · rw [cons_append, takeWhile_cons_of_neg hc, takeWhile_cons_of_neg hc]

theorem dropWhile_append_left (u : Str) (h : s.dropWhile p ≠ []) :
    (s ++ u).dropWhile p = s.dropWhile p ++ u := by
  rw [dropWhile_append, if_neg (by simpa using h)]

theorem dropWhile_append_right (u : Str) (h : s.dropWhile p = []) :
    (s ++ u).dropWhile p = u.dropWhile p := by
  rw [dropWhile_append, if_pos (by rw [h]; rfl)]

theorem dropWhile_length (p : UInt8 → Bool) (s : Str) : (s.dropWhile p).length ≤ s.length :=
  (dropWhile_suffix p).length_le

theorem unescape_length (sep : UInt8) (s : Str) : (unescape sep s).2.length ≤ s.length := by
  fun_induction unescape sep s with
  | case1 => exact le_rfl
  | case2 c cs h => exact le_rfl
  | case3 h => exact Nat.zero_le _
  | case4 ds h => exact Nat.le_succ _
  | case5 d ds h hd ih =>
    rw [length_cons, length_cons]
    exact ih.trans (by lia)
  | case6 c cs h hb ih =>
    rw [length_cons]
    exact ih.trans (Nat.le_succ _)

theorem unescape_append (r : Str) (hr : nul ∉ r) :
    (∃ value r', newline :: r' <:+ r ∧ ∀ u, unescape newline (r ++ u) = (value, newline :: r' ++ u)) ∨
      ∀ u, (unescape newline (r ++ u)).2.length ≤ u.length := by
  fun_induction unescape newline r with
  | case1 => exact .inr fun u => unescape_length newline u
  | case2 c cs h =>
    have hc : c = newline := h.resolve_left fun h0 => hr (h0 ▸ mem_cons_self)
    subst hc
    exact .inl ⟨[], cs, suffix_rfl, fun u => unescape_stop (.inr rfl) (cs ++ u)⟩
  | case3 h =>
    refine .inr fun u => ?_
    cases u with
    | nil => decide
    | cons d u =>
      by_cases hd : d = nul
      · subst hd
        rw [singleton_append, unescape_last h]
      · rw [singleton_append, unescape_escape h hd]
        exact (unescape_length newline u).trans (Nat.le_succ _)
  | case4 ds h => exact absurd (mem_cons_of_mem _ mem_cons_self) hr
  | case5 d ds hd h ih =>
    have hrest : nul ∉ ds := fun h0 => hr (mem_cons_of_mem _ (mem_cons_of_mem _ h0))
    rcases ih hrest with ⟨value, r', hsuffix, hall⟩ | hall
    · refine .inl ⟨d :: value, r', hsuffix.trans ?_, fun u => ?_⟩
      · exact (suffix_cons d ds).trans (suffix_cons backslash (d :: ds))
      · rw [cons_append, cons_append, unescape_escape h hd, hall]
    · refine .inr fun u => ?_
      rw [cons_append, cons_append, unescape_escape h hd]
      exact hall u
  | case6 c cs h hb ih =>
    have hrest : nul ∉ cs := fun h0 => hr (mem_cons_of_mem _ h0)
    rcases ih hrest with ⟨value, r', hsuffix, hall⟩ | hall
    · refine .inl ⟨c :: value, r', hsuffix.trans (suffix_cons c cs), fun u => ?_⟩
      rw [cons_append, unescape_plain h hb, hall]
    · refine .inr fun u => ?_
      rw [cons_append, unescape_plain h hb]
      exact hall u

theorem drop_one_lt {α : Type} {w u : List α} (h : w.length ≤ u.length) (hu : u ≠ []) :
    (w.drop 1).length < u.length := by
  have hpos := length_pos_of_ne_nil hu
  rw [length_drop]
  lia

theorem lineOf_length (sep : UInt8) (h : s ≠ []) : (lineOf sep s).2.length < s.length := by
  have hblank := dropWhile_length isblank s
  unfold lineOf
  dsimp only
  split_ifs with hcomment
  · exact drop_one_lt ((dropWhile_length (inComment sep) _).trans hblank) h
  · have hname := (dropWhile_length (inName sep) (s.dropWhile isblank)).trans hblank
    cases hrest : (s.dropWhile isblank).dropWhile (inName sep) with
    | nil => exact length_pos_of_ne_nil h
    | cons c rest =>
      rw [hrest, length_cons] at hname
      dsimp only
      split_ifs with hdelete hequals
      · exact drop_one_lt (by lia) h
      · exact hname
      · exact drop_one_lt ((unescape_length sep rest).trans (by lia)) h

/- A line that ends inside of a text, the same whatever follows the text. -/
def EndsInside (t : Str) : Prop :=
  ∃ line t', t' <:+ t ∧ t'.length < t.length ∧ ∀ u, lineOf newline (t ++ u) = (line, t' ++ u)

/- A line that takes something of what follows the text. -/
def TakesMore (t : Str) : Prop :=
  ∀ u, u ≠ [] → (lineOf newline (t ++ u)).2.length < u.length

section Ends

variable {t t₁ : Str} {c : UInt8} (hsuffix : (c :: t₁) <:+ t)
  (htext : ∀ u, (t ++ u).dropWhile isblank = c :: t₁ ++ u)

include hsuffix htext

theorem comment_ends (hhash : c = hash) : EndsInside t ∨ TakesMore t := by
  have hcomment : ∀ u, lineOf newline (t ++ u) =
      (.comment, ((c :: t₁ ++ u).dropWhile (inComment newline)).drop 1) := fun u => by
    rw [lineOf, htext, cons_append, head?_cons, hhash]
    rfl
  by_cases hend : (c :: t₁).dropWhile (inComment newline) = []
  · refine .inr fun u hu => ?_
    rw [hcomment, dropWhile_append_right u hend]
    exact drop_one_lt (dropWhile_length _ u) hu
  · obtain ⟨d, t', hd⟩ := exists_cons_of_ne_nil hend
    have hsub : (d :: t') <:+ t := (hd ▸ dropWhile_suffix _ : (d :: t') <:+ c :: t₁).trans hsuffix
    have hlen := hsub.length_le
    rw [length_cons] at hlen
    refine .inl ⟨.comment, t', (suffix_cons d t').trans hsub, hlen, fun u => ?_⟩
    rw [hcomment, dropWhile_append_left u hend, hd]
    rfl

omit hsuffix in
theorem name_takes_more (hhash : c ≠ hash) (hend : (c :: t₁).dropWhile (inName newline) = []) :
    TakesMore t := by
  intro u hu
  have hhead : ¬(c :: t₁ ++ u).head? = some hash := fun h => hhash (some.inj h)
  have hname := dropWhile_length (inName newline) u
  unfold lineOf
  simp only [htext, if_neg hhead, dropWhile_append_right u hend]
  cases hrest : u.dropWhile (inName newline) with
  | nil => exact length_pos_of_ne_nil hu
  | cons d rest =>
    rw [hrest, length_cons] at hname
    dsimp only
    split_ifs with hdelete hequals
    · exact drop_one_lt (by lia) hu
    · exact hname
    · exact drop_one_lt ((unescape_length newline rest).trans (by lia)) hu

omit hsuffix in
/- The name of the line does not depend on what follows. -/
theorem lineOf_named (hhash : c ≠ hash) {d : UInt8} {r : Str}
    (hd : (c :: t₁).dropWhile (inName newline) = d :: r) (u : Str) : lineOf newline (t ++ u) =
      if d = nul ∨ (r ++ u).head? = some nul ∨ d = newline ∨ (r ++ u).head? = some newline then
        (.delete ((c :: t₁).takeWhile (inName newline)), if d = equals then (r ++ u).drop 1 else r ++ u)
      else (.enter ((c :: t₁).takeWhile (inName newline)) (unescape newline (r ++ u)).1,
        (unescape newline (r ++ u)).2.drop 1) := by
  have hhead : ¬(c :: t₁ ++ u).head? = some hash := fun h => hhash (some.inj h)
  have hend : (c :: t₁).dropWhile (inName newline) ≠ [] := by simp [hd]
  have hrest : (c :: t₁ ++ u).dropWhile (inName newline) = d :: (r ++ u) := by
    rw [dropWhile_append_left u hend, hd]
    rfl
  unfold lineOf
  simp only [htext, if_neg hhead, takeWhile_append_left u hend, hrest]

theorem value_ends (ht : nul ∉ t) (hhash : c ≠ hash) {r : Str}
    (hd : (c :: t₁).dropWhile (inName newline) = equals :: r) : EndsInside t ∨ TakesMore t := by
  have hline := lineOf_named htext hhash hd
  have hsub : (equals :: r) <:+ t :=
    (hd ▸ dropWhile_suffix _ : (equals :: r) <:+ c :: t₁).trans hsuffix
  have hvalue : r <:+ t := (suffix_cons equals r).trans hsub
  have hno : nul ∉ r := fun h => ht (hvalue.subset h)
  have hlen := hsub.length_le
  rw [length_cons] at hlen
  cases hr : r with
  | nil =>
    refine .inr fun u hu => ?_
    rw [hline, hr, nil_append, if_pos rfl]
    split_ifs
    · exact drop_one_lt le_rfl hu
    · exact drop_one_lt (unescape_length newline u) hu
  | cons e r' =>
    by_cases he : e = newline
    · refine .inl ⟨.delete ((c :: t₁).takeWhile (inName newline)), r', ?_, ?_, fun u => ?_⟩
      · rw [hr] at hvalue
        exact (suffix_cons e r').trans hvalue
      · rw [hr, length_cons] at hlen
        lia
      · rw [hline, hr, he, if_pos (.inr (.inr (.inr rfl))), if_pos rfl]
        rfl
    · have henul : e ≠ nul := fun h => hno (by rw [hr, h]; exact mem_cons_self)
      have henter : ∀ u, lineOf newline (t ++ u) =
          (.enter ((c :: t₁).takeWhile (inName newline)) (unescape newline (r ++ u)).1,
            (unescape newline (r ++ u)).2.drop 1) := by
        intro u
        rw [hline, if_neg]
        rw [hr]
        rintro (h | h | h | h)
        · exact absurd h (by decide)
        · exact henul (some.inj h)
        · exact absurd h (by decide)
        · exact he (some.inj h)
      rcases unescape_append r hno with ⟨value, r'', hend, hall⟩ | hall
      · have hlong := (hend.trans hvalue).length_le
        rw [length_cons] at hlong
        refine .inl ⟨.enter ((c :: t₁).takeWhile (inName newline)) value, r'', ?_, hlong, fun u => ?_⟩
        · exact (suffix_cons newline r'').trans (hend.trans hvalue)
        · rw [henter, hall]
          rfl
      · refine .inr fun u hu => ?_
        rw [henter]
        exact drop_one_lt (hall u) hu

end Ends

/-- A line that ends inside of a text is the same whatever follows the text. A line that does not
end there takes something of what follows. -/
theorem lineOf_append (t : Str) (ht : nul ∉ t) : EndsInside t ∨ TakesMore t := by
  by_cases hblank : t.dropWhile isblank = []
  · refine .inr fun u hu => ?_
    have hline : lineOf newline (t ++ u) = lineOf newline u := by
      rw [lineOf, lineOf, dropWhile_append_right u hblank]
    rw [hline]
    exact lineOf_length newline hu
  obtain ⟨c, t₁, hc⟩ := exists_cons_of_ne_nil hblank
  have hsuffix : (c :: t₁) <:+ t := hc ▸ dropWhile_suffix isblank
  have htext : ∀ u, (t ++ u).dropWhile isblank = c :: t₁ ++ u := fun u => by
    rw [dropWhile_append_left u hblank, hc]
  by_cases hhash : c = hash
  · exact comment_ends hsuffix htext hhash
  by_cases hend : (c :: t₁).dropWhile (inName newline) = []
  · exact .inr (name_takes_more htext hhash hend)
  obtain ⟨d, r, hd⟩ := exists_cons_of_ne_nil hend
  have hsub : (d :: r) <:+ t := (hd ▸ dropWhile_suffix _ : (d :: r) <:+ c :: t₁).trans hsuffix
  have hstop : d = equals ∨ d = newline := by
    have hfirst := head_dropWhile_not (inName newline) hend
    have hhd : ((c :: t₁).dropWhile (inName newline)).head hend = d := by simp only [hd, head_cons]
    have hnul : d ≠ nul := fun h => ht (hsub.subset (h ▸ mem_cons_self))
    rw [hhd] at hfirst
    simp only [inName, Bool.and_eq_false_iff, bne_eq_false_iff_eq] at hfirst
    rcases hfirst with (h | h) | h
    · exact .inl h
    · exact absurd h hnul
    · exact .inr h
  rcases hstop with rfl | rfl
  · exact value_ends hsuffix htext ht hhash hd
  · have hlen := hsub.length_le
    rw [length_cons] at hlen
    refine .inl ⟨.delete ((c :: t₁).takeWhile (inName newline)), r,
      (suffix_cons newline r).trans hsub, hlen, fun u => ?_⟩
    rw [lineOf_named htext hhash hd, if_pos (.inr (.inr (.inl rfl))), if_neg (by decide)]

end Local

/- The lines of a text that end in it, and the text of a last line that does not. -/
def lastLine : ℕ → Str → List Line × Str
  | 0, text => ([], text)
  | fuel + 1, text =>
    let r := lineOf newline (text ++ [nul])
    if text = [] ∨ r.2 = [] then ([], text)
    else (r.1 :: (lastLine fuel r.2.dropLast).1, (lastLine fuel r.2.dropLast).2)

def lastReading (last u : Str) : List Line := if last = [] then [] else [(lineOf newline (last ++ u)).1]

/- The lines that start from the last line of a text on, in what is read there: none if nothing is left
or a NUL stands there, unless these are the first. -/
def tailLines (slack : ℕ) (before : List Line) (text : Str) : List Line :=
  if before = [] ∨ slack + 2 ≤ text.length ∧ text.head? ≠ some nul then
    linesWithin newline slack text.length text else []

section Last

theorem linesWithin_fuel {slack : ℕ} (fuel : ℕ) {text : Str} (hne : text ≠ [])
    (hf : text.length ≤ fuel) :
    linesWithin newline slack fuel text = linesWithin newline slack text.length text := by
  induction fuel using Nat.strong_induction_on generalizing text with
  | _ fuel ih =>
    have hpos := length_pos_of_ne_nil hne
    obtain _ | fuel := fuel
    · lia
    obtain ⟨n, hn⟩ : ∃ n, text.length = n + 1 := ⟨text.length - 1, by lia⟩
    have hlt := lineOf_length newline hne
    rw [hn, linesWithin, linesWithin]
    by_cases hmore : slack + 2 ≤ (lineOf newline text).2.length ∧ (lineOf newline text).2.head? ≠ some nul
    · have hrest : (lineOf newline text).2 ≠ [] := ne_nil_of_length_pos (by lia)
      rw [if_pos hmore, if_pos hmore, ih fuel (by lia) hrest (by lia)]
      rcases Nat.lt_or_ge n (fuel + 1) with hlow | hhigh
      · rw [ih n hlow hrest (by lia)]
      · lia
    · rw [if_neg hmore, if_neg hmore]

theorem lastLine_nil (n : ℕ) : lastLine n [] = ([], []) := by
  cases n with
  | zero => rfl
  | succ n => rw [lastLine, if_pos (.inl rfl)]

theorem lastLine_whole {n : ℕ} {text : Str} (h : (lastLine n text).1 = []) :
    (lastLine n text).2 = text := by
  cases n with
  | zero => rfl
  | succ n =>
    unfold lastLine at h ⊢
    dsimp only at h ⊢
    split_ifs at h ⊢
    rfl

theorem lastLine_inside {n : ℕ} {text t' : Str} {line : Line} (hne : text ≠ [])
    (hall : ∀ u, lineOf newline (text ++ u) = (line, t' ++ u)) :
    lastLine (n + 1) text = (line :: (lastLine n t').1, (lastLine n t').2) := by
  rw [lastLine, hall]
  simp only [hne, false_or, append_eq_nil_iff, cons_ne_nil, and_false, if_false, dropLast_concat]

theorem lastLine_open {n : ℕ} {text : Str} (hall : TakesMore text) :
    lastLine (n + 1) text = ([], text) := by
  have hend : (lineOf newline (text ++ [nul])).2 = [] :=
    eq_nil_of_length_eq_zero (Nat.lt_one_iff.mp (hall [nul] (by simp)))
  rw [lastLine, if_pos (.inr hend)]

/-- The lines of a text with anything behind it: only those from its last one on depend on that. -/
theorem linesWithin_tail {slack : ℕ} {u : Str} (hu : slack < u.length) (n fuel : ℕ) (text : Str)
    (hno : nul ∉ text) (hn : text.length ≤ n) (hf : (text ++ u).length ≤ fuel) :
    linesWithin newline slack fuel (text ++ u) = (lastLine n text).1 ++
      tailLines slack (lastLine n text).1 ((lastLine n text).2 ++ u) := by
  have hune : u ≠ [] := by
    rintro rfl
    cases hu
  have hall₀ : ∀ {n : ℕ} {text : Str}, (text ++ u).length ≤ n →
      linesWithin newline slack n (text ++ u) = tailLines slack [] (text ++ u) := by
    intro n text hn
    rw [linesWithin_fuel n (by simp [hune]) hn, tailLines, if_pos (.inl rfl)]
  induction n generalizing fuel text with
  | zero =>
    obtain rfl := eq_nil_of_length_eq_zero (Nat.le_zero.mp hn)
    exact hall₀ hf
  | succ n ih =>
    rcases eq_or_ne text [] with rfl | hne
    · rw [lastLine_nil]
      exact hall₀ hf
    rcases lineOf_append text hno with ⟨line, t', hsuffix, hlen, hall⟩ | hall
    swap
    · rw [lastLine_open hall]
      exact hall₀ hf
    have hno' : nul ∉ t' := fun h => hno (hsuffix.subset h)
    rw [length_append] at hf
    obtain _ | fuel := fuel
    · lia
    rw [linesWithin, hall, lastLine_inside hne hall, cons_append]
    dsimp only
    have hrest : (t' ++ u).length ≤ fuel := by
      rw [length_append]
      lia
    congr 1
    rcases eq_or_ne t' [] with rfl | hne'
    · rw [lastLine_nil, tailLines]
      simp only [nil_append, cons_ne_nil, false_or] at hrest ⊢
      rw [linesWithin_fuel fuel hune hrest]
    · obtain ⟨d, t'', rfl⟩ := exists_cons_of_ne_nil hne'
      have hd : d ≠ nul := fun h => hno' (h ▸ mem_cons_self)
      have hmore : slack + 2 ≤ (d :: t'' ++ u).length ∧ (d :: t'' ++ u).head? ≠ some nul := by
        refine ⟨?_, by simpa using hd⟩
        rw [cons_append, length_cons, length_append]
        lia
      rw [if_pos hmore, ih fuel (d :: t'') hno' (by lia) hrest]
      congr 1
      rw [tailLines, tailLines]
      cases hls : (lastLine n (d :: t'')).1 with
      | nil => rw [lastLine_whole hls, if_pos (.inl rfl), if_pos (.inr hmore)]
      | cons line' ls => simp only [cons_ne_nil, false_or]

/-- The lines of a text with left-over bytes behind it: only the last one depends on them. -/
theorem linesWithin_last {slack : ℕ} {u : Str} (hu : u.length = slack + 1) (n fuel : ℕ) (text : Str)
    (hno : nul ∉ text) (hne : text ≠ []) (hn : text.length ≤ n) (hf : text.length ≤ fuel) :
    linesWithin newline slack fuel (text ++ u) =
      (lastLine n text).1 ++ lastReading (lastLine n text).2 u := by
  induction n generalizing fuel text with
  | zero => exact absurd (eq_nil_of_length_eq_zero (by lia)) hne
  | succ n ih =>
    have hpos := length_pos_of_ne_nil hne
    obtain _ | fuel := fuel
    · lia
    rcases lineOf_append text hno with ⟨line, t', hsuffix, hlen, hall⟩ | hall
    · have hno' : nul ∉ t' := fun h => hno (hsuffix.subset h)
      rw [linesWithin, hall, lastLine_inside hne hall, length_append, hu]
      cases t' with
      | nil =>
        rw [if_neg (by simp), lastLine_nil]
        rfl
      | cons c t' =>
        have hc : c ≠ nul := fun h => hno' (h ▸ mem_cons_self)
        rw [if_pos ⟨by rw [length_cons]; lia, by simpa using hc⟩,
          ih fuel (c :: t') hno' (by simp) (by lia) (by lia)]
        rfl
    · have hmore := hall u (by rintro rfl; simp at hu)
      rw [linesWithin, if_neg (by lia), lastLine_open hall, lastReading, if_neg hne]
      rfl

end Last

section Clean

theorem cleanText_nul (a b : Str) : cleanText (a ++ nul :: b) = cleanText a ++ cleanText (nul :: b) := by
  induction a with
  | nil => rfl
  | cons c a ih =>
    have hhead : (a ++ nul :: b).head? = some newline ↔ a.head? = some newline := by
      cases a with
      | nil => exact iff_of_false (fun h => absurd (some.inj h) (by decide)) (by decide)
      | cons d a => rfl
    rw [cons_append, cleanText, cleanText, ih]
    simp only [hhead]
    split_ifs
    · rfl
    · rfl

theorem cleanText_subset (s : Str) : cleanText s ⊆ s := by
  induction s with
  | nil => exact List.Subset.refl _
  | cons c s ih =>
    rw [cleanText]
    split_ifs
    · exact List.Subset.trans ih (subset_cons_self c s)
    · exact cons_subset_cons c ih

theorem cleanText_ne_nil {s : Str} (h : s ≠ []) : cleanText s ≠ [] := by
  induction s with
  | nil => exact h
  | cons c s ih =>
    rw [cleanText]
    split_ifs with hdrop
    · refine ih ?_
      rintro rfl
      cases hdrop.2
    · simp

theorem cleanText_prefix {a b : Str} (h : cleanText (a ++ b) = a ++ b) : cleanText a = a := by
  induction a with
  | nil => rfl
  | cons c a ih =>
    have hlen := cleanText_length (a ++ b)
    rw [cons_append, cleanText] at h
    split_ifs at h with hdrop
    · rw [h, length_cons] at hlen
      lia
    · rw [cleanText, ih (List.cons.inj h).2, if_neg]
      rintro ⟨hc, hhead⟩
      refine hdrop ⟨hc, ?_⟩
      cases a with
      | nil => cases hhead
      | cons d a => exact hhead

end Clean

/- The import that removes carriage returns and the import of the cleaned text leave the same table,
when they start with the same one. -/
def CrLfAgrees (env : Str) : Prop :=
  ∀ (Callback State : Type) (hooks : Hooks Callback State) (old : Option (Htab Callback))
    (state : State) (flag : ℕ) (vars : List Str),
    importTable old env.length flag = importTable old (cleanText env).length flag →
    (himportR hooks old state env newline flag true vars).map (fun r => r.2.htab) =
      (himportR hooks old state (cleanText env) newline flag false vars).map fun r => r.2.htab

/-- The left-over bytes change nothing in what is read of the last line. -/
def LastLineKept (text stale : Str) : Prop :=
  stopped (lastLine text.length text).1 = true ∨
    LinesAgree (lastReading (lastLine text.length text).2 (stale ++ [nul]))
      (lastReading (lastLine text.length text).2 [nul])

/-- The same of a text with a NUL: from the last line in front of the NUL on, the left-over bytes and
what stands from the NUL on are read as the cleaned bytes from the NUL on. -/
def TailKept (text stale behind : Str) : Prop :=
  stopped (lastLine text.length text).1 = true ∨
    LinesAgree
      (tailLines stale.length (lastLine text.length text).1
        ((lastLine text.length text).2 ++ (stale ++ behind ++ [nul])))
      (tailLines 0 (lastLine text.length text).1
        ((lastLine text.length text).2 ++ (cleanText behind ++ [nul])))

/-- Texts that are read as their cleaned text. -/
def CrLfSafe (env : Str) : Prop :=
  cleanText env = env ∨
    nul ∉ env ∧ LastLineKept (cleanText env) (env.drop (cleanText env).length) ∨
    nul ∈ env ∧ TailKept (cleanText (front env)) ((front env).drop (cleanText (front env)).length)
      (env.dropWhile (· ≠ nul))

section Agree

variable {env : Str}

theorem bufferLines_text (henv : env ≠ []) (hno : nul ∉ env) :
    bufferLines newline true env = (lastLine (cleanText env).length (cleanText env)).1 ++
        lastReading (lastLine (cleanText env).length (cleanText env)).2
          (env.drop (cleanText env).length ++ [nul]) ∧
      bufferLines newline false (cleanText env) = (lastLine (cleanText env).length (cleanText env)).1 ++
        lastReading (lastLine (cleanText env).length (cleanText env)).2 [nul] := by
  have hne := cleanText_ne_nil henv
  have hclean : nul ∉ cleanText env := fun h => hno (cleanText_subset env h)
  have hlen := cleanText_length env
  constructor
  · obtain ⟨hslack, hview⟩ := importBuffer_crlf env
    have hfront : front env = env :=
      takeWhile_eq_self_iff.mpr fun c hc => by
        rw [decide_eq_true_iff]
        rintro rfl
        exact hno hc
    rw [hfront] at hslack hview
    rw [bufferLines, hview, drop_append_of_le_length hlen]
    refine linesWithin_last ?_ _ _ _ hclean hne le_rfl (by lia)
    rw [length_append, length_drop, length_singleton]
    lia
  · obtain ⟨hslack, hview⟩ := importBuffer_plain (cleanText env)
    rw [bufferLines, hview, hslack]
    exact linesWithin_last rfl _ _ _ hclean hne le_rfl (by lia)

theorem bufferLines_nul (hnul : nul ∈ env) :
    let text := cleanText (front env)
    let stale := (front env).drop text.length
    let behind := env.dropWhile (· ≠ nul)
    let last := lastLine text.length text
    bufferLines newline true env = last.1 ++
        tailLines stale.length last.1 (last.2 ++ (stale ++ behind ++ [nul])) ∧
      bufferLines newline false (cleanText env) = last.1 ++
        tailLines 0 last.1 (last.2 ++ (cleanText behind ++ [nul])) := by
  intro text stale behind last
  have hsplit : front env ++ behind = env := takeWhile_append_dropWhile
  have hfront : nul ∉ front env := fun h => by simpa using mem_takeWhile_imp h
  have htext : nul ∉ text := fun h => hfront (cleanText_subset _ h)
  have hle : text.length ≤ (front env).length := cleanText_length _
  obtain ⟨c, g, hbehind⟩ : ∃ c g, behind = c :: g := exists_cons_of_ne_nil fun hnil => by
    rw [hnil, append_nil] at hsplit
    exact hfront (hsplit.symm ▸ hnul)
  have hc : c = nul := by
    have hhead := head?_dropWhile_not (fun c : UInt8 => decide (c ≠ nul)) env
    rw [show env.dropWhile (fun c : UInt8 => decide (c ≠ nul)) = c :: g from hbehind] at hhead
    simpa using hhead
  constructor
  · obtain ⟨hslack, hview⟩ := importBuffer_crlf env
    have hstale : (importBuffer true env).2 = stale.length := by
      rw [length_drop]
      exact (Nat.sub_eq_of_eq_add hslack.symm).symm
    have hdrop : (env ++ [nul]).drop text.length = stale ++ behind ++ [nul] := by
      rw [← hsplit, append_assoc, append_assoc, drop_append_of_le_length hle]
    rw [bufferLines, hview, hstale, hdrop]
    refine linesWithin_tail ?_ _ _ _ htext le_rfl ?_
    · rw [length_append, length_append, hbehind, length_cons]
      lia
    · have henv := congrArg List.length hsplit
      simp only [length_append, length_drop, length_singleton, stale] at henv ⊢
      lia
  · obtain ⟨hslack, hview⟩ := importBuffer_plain (cleanText env)
    have hclean : cleanText env = text ++ cleanText behind := by
      rw [← hsplit, hbehind, hc]
      exact cleanText_nul _ _
    rw [bufferLines, hview, hslack, hclean, append_assoc]
    refine linesWithin_tail (by simp) _ _ _ htext le_rfl ?_
    simp only [length_append, length_singleton]
    lia

theorem bufferLines_clean (hclean : cleanText env = env) :
    bufferLines newline true env = bufferLines newline false env := by
  obtain ⟨hslack, hview⟩ := importBuffer_crlf env
  obtain ⟨hslack', hview'⟩ := importBuffer_plain env
  have hsplit : front env ++ env.dropWhile (· ≠ nul) = env := takeWhile_append_dropWhile
  have hfront : cleanText (front env) = front env := cleanText_prefix (by rw [hsplit]; exact hclean)
  have hzero : (importBuffer true env).2 = 0 := by
    rw [hfront] at hslack
    lia
  have hall : front env ++ (env ++ [nul]).drop (front env).length = env ++ [nul] := by
    have hdrop : (front env ++ env.dropWhile (· ≠ nul) ++ [nul]).drop (front env).length =
        env.dropWhile (· ≠ nul) ++ [nul] := by
      rw [append_assoc, drop_left]
    rw [hsplit] at hdrop
    rw [hdrop, ← append_assoc, hsplit]
  rw [bufferLines, bufferLines, hview, hview', hslack', hzero, hfront, hall]

theorem linesAgree_append (a b b' : List Line) :
    LinesAgree (a ++ b) (a ++ b') ↔ stopped a = true ∨ LinesAgree b b' := by
  have hchanges : ∀ b, changes (a ++ b) = changes a ++ if stopped a then [] else changes b := by
    intro b
    induction a with
    | nil => rfl
    | cons line a ih =>
      cases hs : line.stops with
      | true => rw [cons_append, changes_stop hs, changes_stop hs, stopped_cons, hs]; rfl
      | false =>
        rw [cons_append, changes_cons hs, changes_cons hs, stopped_cons, hs, ih, Bool.false_or,
          append_assoc]
  have hstopped : ∀ b, stopped (a ++ b) = (stopped a || stopped b) := fun b => any_append
  constructor
  · rintro ⟨hc, hs⟩
    rw [hchanges, hchanges, append_cancel_left_eq] at hc
    rw [hstopped, hstopped] at hs
    cases ha : stopped a with
    | true => exact .inl rfl
    | false =>
      rw [ha] at hc hs
      exact .inr ⟨hc, hs⟩
  · intro h
    refine ⟨?_, ?_⟩
    · rw [hchanges, hchanges]
      rcases h with ha | h
      · rw [ha, if_pos rfl, if_pos rfl]
      · rw [h.changes]
    · rw [hstopped, hstopped]
      rcases h with ha | h
      · rw [ha, Bool.true_or, Bool.true_or]
      · rw [h.stopped]

theorem himportR_all {Callback State : Type} (hooks : Hooks Callback State)
    (old : Option (Htab Callback)) (state : State) (henv : env ≠ []) (flag : ℕ) (crlfIsLf : Bool)
    (vars : List Str) {htab : Htab Callback} (ht : importTable old env.length flag = some htab) :
    himportR hooks old state env newline flag crlfIsLf vars =
      importAll hooks flag ⟨htab, state, vars.map some⟩ (bufferLines newline crlfIsLf env) :=
  himportR_lines hooks old state henv newline flag crlfIsLf vars ht

theorem crLfAgrees_iff_lines (henv : env ≠ []) : CrLfAgrees env ↔
    LinesAgree (bufferLines newline true env) (bufferLines newline false (cleanText env)) := by
  have hclean := cleanText_ne_nil henv
  constructor
  · intro h
    rw [← sameTables_iff]
    intro Callback State hooks flag hflag htab state vars
    have hold : ∀ size, importTable (some htab) size flag = some htab := importTable_old hflag
    have hsame := h Callback State hooks (some htab) state flag vars (by rw [hold, hold])
    rwa [himportR_all hooks (some htab) state henv flag true vars (hold _),
      himportR_all hooks (some htab) state hclean flag false vars (hold _)] at hsame
  · intro h Callback State hooks old state flag vars ht
    cases hnew : importTable old env.length flag with
    | none =>
      rw [himportR, himportR, ← ht, hnew]
    | some htab =>
      rw [himportR_all hooks old state henv flag true vars hnew,
        himportR_all hooks old state hclean flag false vars (ht ▸ hnew), importAll_agree h]

end Agree

/-- The import that removes carriage returns is the import of the cleaned text exactly for the safe
texts. -/
theorem crLfAgrees_iff (env : Str) : CrLfAgrees env ↔ CrLfSafe env := by
  by_cases henv : env = []
  · subst henv
    refine iff_of_true ?_ (.inl rfl)
    intro Callback State hooks old state flag vars _
    rw [himportR, himportR, cleanText]
    rfl
  · rw [crLfAgrees_iff_lines henv]
    constructor
    · intro h
      by_cases hno : nul ∈ env
      · obtain ⟨h1, h2⟩ := bufferLines_nul hno
        rw [h1, h2, linesAgree_append] at h
        exact .inr (.inr ⟨hno, h⟩)
      · obtain ⟨h1, h2⟩ := bufferLines_text henv hno
        rw [h1, h2, linesAgree_append] at h
        exact .inr (.inl ⟨hno, h⟩)
    · rintro (hclean | ⟨hno, h⟩ | ⟨hno, h⟩)
      · rw [hclean, bufferLines_clean hclean]
        exact ⟨rfl, rfl⟩
      · obtain ⟨h1, h2⟩ := bufferLines_text henv hno
        rw [h1, h2, linesAgree_append]
        exact h
      · obtain ⟨h1, h2⟩ := bufferLines_nul hno
        rw [h1, h2, linesAgree_append]
        exact h

/- "a=1", CR, LF, "b=2": the last byte is left over and read again, and `b` becomes 22. -/
theorem stale_byte_read : ¬CrLfAgrees [97, 61, 49, 13, 10, 98, 61, 50] := by
  intro h
  have hsame := congrArg (Option.map fun htab => getenv plainHooks htab () [98])
    (h Unit Unit plainHooks (some fiveSlots) () 1 [] rfl)
  rw [Option.map_map, Option.map_map] at hsame
  revert hsame
  decide +kernel

end UBoot.Env
