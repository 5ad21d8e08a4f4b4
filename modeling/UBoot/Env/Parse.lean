import Mathlib.Data.List.TakeWhile
import UBoot.Env.Linear

/-!
# The import as a parser of lists

The parsing loop of `himport_r` only ever writes behind `dp`, so what it reads is a list of bytes
that gets shorter. `lineOf` is the loop body on that list.
-/

namespace UBoot.Env

open Function List Option

/- A value up to its separator, and the rest from the separator on. A backslash makes
the byte behind it part of the value, unless that is the end. -/
def unescape (sep : UInt8) : Str → Str × Str
  | [] => ([], [])
  | c :: cs =>
    if c = nul ∨ c = sep then ([], c :: cs)
    else if c = backslash then
      match cs with
      | [] => ([c], [])
      | d :: ds =>
        if d = nul then ([c], d :: ds)
        else (d :: (unescape sep ds).1, (unescape sep ds).2)
    else (c :: (unescape sep cs).1, (unescape sep cs).2)

section Unescape

variable {sep c : UInt8}

theorem unescape_stop (h : c = nul ∨ c = sep) (cs : Str) : unescape sep (c :: cs) = ([], c :: cs) := by
  rw [unescape.eq_def]
  simp only [h, if_true]

theorem unescape_plain (h : ¬(c = nul ∨ c = sep)) (hb : c ≠ backslash) (cs : Str) :
    unescape sep (c :: cs) = (c :: (unescape sep cs).1, (unescape sep cs).2) := by
  rw [unescape.eq_def]
  simp only [h, hb, if_false]

theorem unescape_escape (h : ¬(backslash = nul ∨ backslash = sep)) {d : UInt8} (hd : d ≠ nul)
    (ds : Str) :
    unescape sep (backslash :: d :: ds) = (d :: (unescape sep ds).1, (unescape sep ds).2) := by
  rw [unescape.eq_def]
  simp only [h, hd, if_true, if_false]

theorem unescape_last (h : ¬(backslash = nul ∨ backslash = sep)) (ds : Str) :
    unescape sep (backslash :: nul :: ds) = ([backslash], nul :: ds) := by
  rw [unescape.eq_def]
  simp only [h, if_true, if_false]

end Unescape

def lineOf (sep : UInt8) (text : Str) : Line × Str :=
  let text := text.dropWhile isblank
  if text.head? = some hash then (.comment, (text.dropWhile (inComment sep)).drop 1)
  else
    let name := text.takeWhile (inName sep)
    match text.dropWhile (inName sep) with
    | [] => (.delete name, [])
    | c :: rest =>
      if c = nul ∨ rest.head? = some nul ∨ c = sep ∨ rest.head? = some sep then
        (.delete name, if c = equals then rest.drop 1 else rest)
      else (.enter name (unescape sep rest).1, (unescape sep rest).2.drop 1)

/- All lines of a text; it ends at a NUL or when only the terminating NUL is left. -/
def linesOf (sep : UInt8) : ℕ → Str → List Line
  | 0, _ => []
  | fuel + 1, text =>
    let r := lineOf sep text
    r.1 :: if 2 ≤ r.2.length ∧ r.2.head? ≠ some nul then linesOf sep fuel r.2 else []

/- The lines when the last `slack` bytes in front of the terminating NUL are left over. -/
def linesWithin (sep : UInt8) (slack : ℕ) : ℕ → Str → List Line
  | 0, _ => []
  | fuel + 1, text =>
    let r := lineOf sep text
    r.1 :: if slack + 2 ≤ r.2.length ∧ r.2.head? ≠ some nul then linesWithin sep slack fuel r.2 else []

theorem linesWithin_zero (sep : UInt8) (fuel : ℕ) (text : Str) :
    linesWithin sep 0 fuel text = linesOf sep fuel text := by
  induction fuel generalizing text with
  | zero => rfl
  | succ fuel ih =>
    rw [linesWithin, linesOf, Nat.zero_add]
    simp only [ih]

/- The bytes from `dp` to the terminating NUL at `len`. -/
def view (data : ℕ → UInt8) (len dp : ℕ) : Str := (List.range' dp (len + 1 - dp)).map data

section View

variable {data : ℕ → UInt8} {len dp : ℕ}

theorem view_cons (h : dp ≤ len) : view data len dp = data dp :: view data len (dp + 1) := by
  unfold view
  rw [show len + 1 - dp = (len + 1 - (dp + 1)) + 1 by lia, range'_succ, map_cons]

theorem view_of_gt (h : len < dp) : view data len dp = [] := by
  simp [view, show len + 1 - dp = 0 by lia]

theorem view_length (data : ℕ → UInt8) (len dp : ℕ) : (view data len dp).length = len + 1 - dp := by
  simp [view]

theorem view_head? (data : ℕ → UInt8) (len dp : ℕ) :
    (view data len dp).head? = if dp ≤ len then some (data dp) else none := by
  by_cases h : dp ≤ len
  · rw [view_cons h, if_pos h, head?_cons]
  · rw [view_of_gt (by lia), if_neg h, head?_nil]

theorem view_congr {data data' : ℕ → UInt8} (len dp : ℕ) (h : ∀ i, dp ≤ i → i ≤ len → data' i = data i) :
    view data' len dp = view data len dp := by
  unfold view
  apply map_congr_left
  intro i hi
  rw [mem_range'_1] at hi
  exact h i hi.1 (by lia)

theorem skipWhile_view {p : UInt8 → Bool} (hp : p nul = false) (hend : data len = nul) (fuel : ℕ)
    (hdp : dp ≤ len) (hf : len < dp + fuel) :
    dp ≤ skipWhile p data fuel dp ∧ skipWhile p data fuel dp ≤ len ∧
      view data len (skipWhile p data fuel dp) = (view data len dp).dropWhile p ∧
      (view data len dp).takeWhile p =
        (List.range' dp (skipWhile p data fuel dp - dp)).map data := by
  induction fuel generalizing dp with
  | zero => lia
  | succ fuel ih =>
    rw [skipWhile, view_cons hdp]
    by_cases hc : p (data dp) = true
    · have hlt : dp < len := by
        rcases Nat.lt_or_ge dp len with h | h
        · exact h
        · obtain rfl : dp = len := by lia
          rw [hend, hp] at hc
          simp at hc
      obtain ⟨h1, h2, h3, h4⟩ := @ih (dp + 1) (by lia) (by lia)
      rw [if_pos hc, dropWhile_cons_of_pos hc, takeWhile_cons_of_pos hc, h4]
      refine ⟨by lia, h2, h3, ?_⟩
      rw [show skipWhile p data fuel (dp + 1) - dp =
        (skipWhile p data fuel (dp + 1) - (dp + 1)) + 1 by lia, range'_succ, map_cons]
    · rw [if_neg hc, dropWhile_cons_of_neg hc, takeWhile_cons_of_neg hc]
      exact ⟨le_rfl, hdp, view_cons hdp, by simp⟩

theorem cstr_eq {p q : ℕ} (fuel : ℕ) (hpq : p ≤ q) (hf : q < p + fuel) (hq : data q = nul)
    (hne : ∀ i, p ≤ i → i < q → data i ≠ nul) : cstr data fuel p = (List.range' p (q - p)).map data := by
  induction fuel generalizing p with
  | zero => lia
  | succ fuel ih =>
    rw [cstr]
    rcases Nat.lt_or_ge p q with h | h
    · rw [if_neg (hne p le_rfl h), ih h (by lia) fun i h1 h2 => hne i (by lia) h2,
        show q - p = (q - (p + 1)) + 1 by lia, range'_succ, map_cons]
    · obtain rfl : p = q := by lia
      rw [if_pos hq, Nat.sub_self]
      rfl

end View

theorem copyValue_view {data : ℕ → UInt8} {len : ℕ} (sep : UInt8) (fuel dp sp : ℕ)
    (hend : data len = nul) (hdp : dp ≤ len) (hsp : sp ≤ dp) (hf : len < dp + fuel) :
    ∃ data' dp' sp', copyValue sep fuel data dp sp = (data', dp', sp') ∧
      dp ≤ dp' ∧ dp' ≤ len ∧ sp ≤ sp' ∧ sp' ≤ dp' ∧
      (∀ i, i < sp → data' i = data i) ∧ (∀ i, dp' ≤ i → data' i = data i) ∧
      view data len dp' = (unescape sep (view data len dp)).2 ∧
      (List.range' sp (sp' - sp)).map data' = (unescape sep (view data len dp)).1 ∧
      ∀ i, sp ≤ i → i < sp' → data' i ≠ nul := by
  induction fuel generalizing data dp sp with
  | zero => lia
  | succ fuel ih =>
    rw [copyValue, view_cons hdp]
    by_cases hc : data dp ≠ nul ∧ data dp ≠ sep
    swap
    · have hc' : data dp = nul ∨ data dp = sep := by tauto
      rw [if_neg hc, unescape_stop hc']
      refine ⟨data, dp, sp, rfl, le_rfl, hdp, le_rfl, hsp, fun _ _ => rfl, fun _ _ => rfl,
        view_cons hdp, by simp, by lia⟩
    have hlt : dp < len := by
      rcases Nat.lt_or_ge dp len with h | h
      · exact h
      · obtain rfl : dp = len := by lia
        exact absurd hend hc.1
    have hno : ¬(data dp = nul ∨ data dp = sep) := by tauto
    -- `q` is the position of the byte that is copied
    obtain ⟨q, hq⟩ : ∃ q, q = if data dp = backslash ∧ data (dp + 1) ≠ nul then dp + 1 else dp :=
      ⟨_, rfl⟩
    have hqr : dp ≤ q ∧ q < len ∧ data q ≠ nul ∧
        unescape sep (data dp :: view data len (dp + 1)) =
          (data q :: (unescape sep (view data len (q + 1))).1,
            (unescape sep (view data len (q + 1))).2) := by
      by_cases hb : data dp = backslash
      · rw [view_cons (show dp + 1 ≤ len by lia), hb]
        rw [hb] at hno
        by_cases hn : data (dp + 1) = nul
        · have hqd : q = dp := by
            rw [hq, if_neg (by tauto)]
          rw [hqd, hn, unescape_last hno, hb]
          refine ⟨le_rfl, hlt, hb ▸ hc.1, ?_⟩
          rw [view_cons (show dp + 1 ≤ len by lia), hn, unescape_stop (.inl rfl)]
        · have hqd : q = dp + 1 := by
            rw [hq, if_pos ⟨hb, hn⟩]
          have hlt' : dp + 1 < len := by
            rcases Nat.lt_or_ge (dp + 1) len with h | h
            · exact h
            · exact absurd ((show dp + 1 = len by lia) ▸ hend) hn
          rw [hqd, unescape_escape hno hn]
          exact ⟨by lia, hlt', hn, rfl⟩
      · have hqd : q = dp := by
          rw [hq, if_neg (by tauto)]
        rw [hqd, unescape_plain hno hb]
        exact ⟨le_rfl, hlt, hc.1, rfl⟩
    obtain ⟨hdq, hql, hqn, hun⟩ := hqr
    rw [if_pos hc, ← hq, hun]
    have hend' : update data sp (data q) len = nul := by
      rw [update_of_ne (by lia)]
      exact hend
    obtain ⟨data', dp', sp', he, h1, h2, h3, h4, h5, h6, h7, h8, h9⟩ :=
      ih (q + 1) (sp + 1) hend' (by lia) (by lia) (by lia)
    have hold : ∀ i, q + 1 ≤ i → update data sp (data q) i = data i := fun i hi =>
      update_of_ne (by lia) _ _
    have hview : view (update data sp (data q)) len (q + 1) = view data len (q + 1) :=
      view_congr _ _ fun i hi _ => hold i hi
    have hview' : view (update data sp (data q)) len dp' = view data len dp' :=
      view_congr _ _ fun i hi _ => hold i (by lia)
    have hfirst : data' sp = data q := by
      rw [h5 sp (by lia), update_self]
    refine ⟨data', dp', sp', he, by lia, h2, by lia, h4, fun i hi => ?_, fun i hi => ?_, ?_, ?_,
      fun i hi hi' => ?_⟩
    · rw [h5 i (by lia), update_of_ne (by lia)]
    · rw [h6 i hi, hold i (by lia)]
    · rw [hview', hview] at h7
      exact h7
    · rw [hview] at h8
      rw [show sp' - sp = (sp' - (sp + 1)) + 1 by lia, range'_succ, map_cons, hfirst, h8]
    · rcases Nat.lt_or_ge sp i with h | h
      · exact h9 i h hi'
      · obtain rfl : i = sp := by lia
        rw [hfirst]
        exact hqn

section Line

variable {data : ℕ → UInt8} {len : ℕ}

theorem cstr_name {k : ℕ → UInt8} {p q : ℕ} (sep : UInt8) (hq : q ≤ len) (hpq : p ≤ q)
    (hname : (view data len p).takeWhile (inName sep) = (List.range' p (q - p)).map data)
    (hsame : ∀ i, p ≤ i → i < q → k i = data i) (hcut : k q = nul) :
    cstr k (len + 1) p = (view data len p).takeWhile (inName sep) := by
  have hin : ∀ i, p ≤ i → i < q → data i ≠ nul := by
    intro i h1 h2 h0
    have hmem : data i ∈ (view data len p).takeWhile (inName sep) := by
      rw [hname]
      exact mem_map_of_mem (mem_range'_1.mpr ⟨h1, by lia⟩)
    have hp := mem_takeWhile_imp hmem
    rw [h0] at hp
    simp [inName] at hp
  rw [hname, cstr_eq (len + 1) hpq (by lia) hcut fun i h1 h2 => hsame i h1 h2 ▸ hin i h1 h2]
  apply map_congr_left
  intro i hi
  rw [mem_range'_1] at hi
  exact hsame i hi.1 (by lia)

theorem view_drop_one (data : ℕ → UInt8) (len dp : ℕ) :
    (view data len dp).drop 1 = view data len (dp + 1) := by
  by_cases h : dp ≤ len
  · rw [view_cons h, drop_one, tail_cons]
  · rw [view_of_gt (by lia), view_of_gt (by lia)]
    rfl

/-- The loop body of `himport_r` on the buffer is `lineOf` on the bytes ahead. -/
theorem parseLine_view (sep : UInt8) {dp : ℕ} (hend : data len = nul) (hdp : dp ≤ len) :
    ∃ line data' dp', parseLine sep (len + 1) data dp = (line, data', dp') ∧ data' len = nul ∧
      dp < dp' ∧ lineOf sep (view data len dp) = (line, view data' len dp') := by
  obtain ⟨b1, b2, b3, -⟩ := skipWhile_view (p := isblank) (by decide) hend (len + 1) hdp (by lia)
  obtain ⟨p, hp⟩ : ∃ p, p = skipWhile isblank data (len + 1) dp := ⟨_, rfl⟩
  rw [← hp] at b1 b2 b3
  have hhead : (view data len p).head? = some (data p) := by rw [view_head?, if_pos b2]
  simp only [parseLine, lineOf, ← hp, ← b3, hhead, some.injEq]
  by_cases hh : data p = hash
  · -- a comment
    obtain ⟨c1, c2, c3, -⟩ := skipWhile_view (p := inComment sep) (by simp [inComment]) hend
      (len + 1) b2 (by lia)
    rw [if_pos hh, if_pos hh, ← c3, view_drop_one]
    exact ⟨_, _, _, rfl, hend, by lia, rfl⟩
  rw [if_neg hh, if_neg hh]
  obtain ⟨n1, n2, n3, n4⟩ := skipWhile_view (p := inName sep) (by simp [inName]) hend (len + 1) b2
    (by lia)
  obtain ⟨q, hq⟩ : ∃ q, q = skipWhile (inName sep) data (len + 1) p := ⟨_, rfl⟩
  rw [← hq] at n1 n2 n3 n4
  rw [← hq, ← n3, view_cons n2]
  simp only [view_head?]
  have hiff : (data q = nul ∨ (if q + 1 ≤ len then some (data (q + 1)) else none) = some nul ∨
      data q = sep ∨ (if q + 1 ≤ len then some (data (q + 1)) else none) = some sep) ↔
      (data q = nul ∨ data (q + 1) = nul ∨ data q = sep ∨ data (q + 1) = sep) := by
    by_cases hl : q + 1 ≤ len
    · simp only [if_pos hl, some.injEq]
    · have hz : data q = nul := (show q = len by lia) ▸ hend
      simp [hz]
  by_cases hdel : data q = nul ∨ data (q + 1) = nul ∨ data q = sep ∨ data (q + 1) = sep
  · -- a name without a value
    rw [if_pos hdel, if_pos (hiff.mpr hdel)]
    by_cases he : data q = equals
    · have hlt : q < len := by
        rcases Nat.lt_or_ge q len with h | h
        · exact h
        · obtain rfl : q = len := by lia
          rw [hend] at he
          exact absurd he (by decide)
      have hdata : ∀ i, i ≠ q → i ≠ q + 1 →
          update (update data q nul) (q + 1) nul i = data i := fun i h1 h2 => by
        rw [update_of_ne h2, update_of_ne h1]
      have hcut : update (update data q nul) (q + 1) nul q = nul := by
        rw [update_of_ne (by lia), update_self]
      have hlast : update (update data q nul) (q + 1) nul len = nul := by
        by_cases hl : len = q + 1
        · rw [hl, update_self]
        · rw [hdata len (by lia) hl]
          exact hend
      have hname := cstr_name sep n2 n1 n4 (fun i h1 h2 => hdata i (by lia) (by lia)) hcut
      have hrest := view_congr len (q + 1 + 1) fun i h1 h2 => hdata i (by lia) (by lia)
      simp only [if_pos he, view_drop_one]
      exact ⟨_, _, _, rfl, hlast, by lia, by rw [hname, hrest]⟩
    · have hdata : ∀ i, i ≠ q → update data q nul i = data i := fun i h1 =>
        update_of_ne h1 _ _
      have hlast : update data q nul len = nul := by
        by_cases hl : len = q
        · rw [hl, update_self]
        · rw [hdata len hl]
          exact hend
      have hname := cstr_name sep n2 n1 n4 (fun i h1 h2 => hdata i (by lia))
        (update_self ..)
      have hrest := view_congr len (q + 1) fun i h1 h2 => hdata i (by lia)
      simp only [if_neg he]
      exact ⟨_, _, _, rfl, hlast, by lia, by rw [hname, hrest]⟩
  · -- a name with a value
    rw [if_neg hdel, if_neg (fun h => hdel (hiff.mp h))]
    have hlt : q < len := by
      rcases Nat.lt_or_ge q len with h | h
      · exact h
      · exact absurd (.inl ((show q = len by lia) ▸ hend)) hdel
    have hend₁ : update data q nul len = nul := by
      rw [update_of_ne (by lia)]
      exact hend
    have hview : view (update data q nul) len (q + 1) = view data len (q + 1) :=
      view_congr _ _ fun i h1 h2 => update_of_ne (by lia) _ _
    obtain ⟨data', dp', sp', hcopy, v1, v2, v3, v4, v5, v6, v7, v8, v9⟩ :=
      copyValue_view sep (len + 1) (q + 1) (q + 1) hend₁ hlt le_rfl (by lia)
    rw [hview] at v7 v8
    simp only [hcopy]
    refine ⟨_, _, _, rfl, ?_, by lia, ?_⟩
    · by_cases hl : len = sp'
      · rw [hl, update_self]
      · rw [update_of_ne hl, v6 len v2]
        exact hend₁
    · have hvalue : cstr (update data' sp' nul) (len + 1) (q + 1) =
          (unescape sep (view data len (q + 1))).1 := by
        rw [cstr_eq (len + 1) v3 (by lia) (update_self ..) fun i h1 h2 => ?_, ← v8]
        · apply map_congr_left
          intro i hi
          rw [mem_range'_1] at hi
          exact update_of_ne (by lia) _ _
        · rw [update_of_ne (by lia)]
          exact v9 i h1 h2
      have hname := cstr_name (k := update data' sp' nul) sep n2 n1 n4 (fun i h1 h2 => by
          rw [update_of_ne (by lia), v5 i (by lia), update_of_ne (by lia)])
        (by rw [update_of_ne (by lia), v5 q (by lia), update_self])
      have hrest : view (update data' sp' nul) len (dp' + 1) =
          view (update data q nul) len (dp' + 1) := view_congr _ _ fun i h1 h2 => by
        rw [update_of_ne (by lia), v6 i (by lia)]
      rw [hvalue, hname, ← v7, view_drop_one, hrest]

end Line

section Loop

variable {Callback State : Type} (hooks : Hooks Callback State)

/- The lines of a text, one after the other; an error ends the import. -/
def importLines (flag : ℕ) (s : Importing Callback State) :
    List Line → Option (Bool × Importing Callback State)
  | [] => some (true, s)
  | line :: lines =>
    match importLine hooks flag s line with
    | none => none
    | some (false, s) => some (false, s)
    | some (true, s) => importLines flag s lines

/-- The parsing loop of `himport_r`: its buffer only matters through the lines in it. -/
theorem importLoop_within (sep : UInt8) (flag size slack fuel : ℕ) {data : ℕ → UInt8} {dp : ℕ}
    (s : Importing Callback State) (hend : data (size + slack) = nul) (hdp : dp ≤ size + slack)
    (hf : size + slack < dp + fuel) :
    importLoop hooks (size + slack) size sep flag fuel data dp s =
      importLines hooks flag s (linesWithin sep slack fuel (view data (size + slack) dp)) := by
  induction fuel generalizing data dp s with
  | zero => lia
  | succ fuel ih =>
    obtain ⟨line, data', dp', hparse, hend', hlt, hline⟩ := parseLine_view sep hend hdp
    have hmore : (slack + 2 ≤ (view data' (size + slack) dp').length ∧
        (view data' (size + slack) dp').head? ≠ some nul) ↔ (dp' < size ∧ data' dp' ≠ nul) := by
      rw [view_length, view_head?]
      constructor
      · rintro ⟨h1, h2⟩
        rw [if_pos (by lia)] at h2
        exact ⟨by lia, fun h => h2 (by rw [h])⟩
      · rintro ⟨h1, h2⟩
        rw [if_pos (by lia)]
        exact ⟨by lia, fun h => h2 (some.inj h)⟩
    simp only [importLoop, linesWithin, hparse, hline, importLines]
    cases importLine hooks flag s line with
    | none => rfl
    | some r =>
      obtain ⟨ok, s'⟩ := r
      cases ok with
      | false => rfl
      | true =>
        by_cases hc : dp' < size ∧ data' dp' ≠ nul
        · simp only [if_pos hc, if_pos (hmore.mpr hc)]
          exact ih s' hend' (by lia) (by lia)
        · simp only [if_neg hc, if_neg (fun h => hc (hmore.mp h)), importLines]

theorem view_getD (env : Str) : view (fun i => env.getD i nul) env.length 0 = env ++ [nul] := by
  apply ext_getElem
  · simp [view]
  · intro i h1 h2
    simp only [view, getElem_map, getElem_range', getElem_append]
    split_ifs with h
    · simp [getD_eq_getElem?_getD, h]
    · simp only [view_length, length_append, length_singleton] at h1 h2
      simp [getD_eq_getElem?_getD, show env.length ≤ i by lia]

end Loop

end UBoot.Env
