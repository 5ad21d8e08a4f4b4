import UBoot.Cli.Readline
import UBoot.Lib.Memory

/-!
# The buffer of `cread_line` (common/cli_readline.c)

The handlers of the keys as they move the memory of the buffer and the two counters, and that they
do what they should to the line.
-/

namespace UBoot.Cli

open Memory List Option

structure Cread where
  mem : Mem
  num : ℕ
  eolNum : ℕ
  insert : Bool
  escSave : Line

section Handlers

-- `buf` and `*len`
variable (buf len : ℕ)

def Cread.addChar (ichar : UInt8) (insert : Bool) (s : Cread) : Cread :=
  let grows := insert ∨ s.num = s.eolNum
  if grows ∧ len - 1 < s.eolNum then s
  else
    let s := if grows then { s with eolNum := s.eolNum + 1 } else s
    let wlen := s.eolNum - s.num
    let mem := if insert ∧ 1 < wlen then
      memmove s.mem (buf + s.num + 1) (buf + s.num) (wlen - 1) else s.mem
    { s with mem := store mem (buf + s.num) [ichar], num := s.num + 1 }

def Cread.addStr (str : Line) (insert : Bool) (s : Cread) : Cread :=
  str.foldl (fun s c => s.addChar buf len c insert) s

/- The text that is there to begin with is added to the line in its own place. -/
def Cread.addBuf : ℕ → ℕ → Cread → Cread
  | 0, _, s => s
  | n + 1, i, s => Cread.addBuf n (i + 1) (s.addChar buf len (s.mem (buf + i)) true)

def Cread.beginningOfLine (s : Cread) : Cread := { s with num := 0 }

def Cread.eraseToEol (s : Cread) : Cread :=
  if s.num < s.eolNum then { s with eolNum := s.num } else s

def Cread.refreshToEol (s : Cread) : Cread :=
  if s.num < s.eolNum then { s with num := s.eolNum } else s

/- The second switch without the history and ^C; there is no completion. -/
def Cread.edited (s : Cread) (ichar : UInt8) : Cread :=
  match ichar.toNat with
  | 0x1b => { s with escSave := [ichar] }
  -- ^A, ^F, ^B
  | 1 => s.beginningOfLine
  | 6 => if s.num < s.eolNum then { s with num := s.num + 1 } else s
  | 2 => if s.num ≠ 0 then { s with num := s.num - 1 } else s
  -- ^D, ^K, ^E, ^O
  | 4 =>
    if s.num < s.eolNum then
      let wlen := s.eolNum - s.num - 1
      { s with
        mem := if wlen ≠ 0 then memmove s.mem (buf + s.num) (buf + (s.num + 1)) wlen else s.mem
        eolNum := s.eolNum - 1 }
    else s
  | 11 => s.eraseToEol
  | 5 => s.refreshToEol
  | 15 => { s with insert := !s.insert }
  -- ^X and ^U
  | 24 | 21 => s.beginningOfLine.eraseToEol
  -- DEL, DEL7 and backspace
  | 255 | 127 | 8 =>
    if s.num ≠ 0 then
      let wlen := s.eolNum - s.num
      let num := s.num - 1
      { s with
        mem := memmove s.mem (buf + num) (buf + (num + 1)) wlen
        num := num
        eolNum := s.eolNum - 1 }
    else s
  | _ => s.addChar buf len ichar s.insert

def Cread.showLine (found : Ring × Option Line) (s : Cread) : Ring × Cread :=
  match found with
  | (r, none) => (r, s)
  | (r, some hline) =>
    let s := s.beginningOfLine.eraseToEol
    (r, { s with mem := store s.mem buf (hline ++ [0]), eolNum := hline.length }.refreshToEol)

def Cread.command (r : Ring) (s : Cread) (ichar : UInt8) : Ring × Cread :=
  if ichar = 16 then { s with escSave := [] }.showLine buf (histPrev r)
  else if ichar = 14 then { s with escSave := [] }.showLine buf (histNext r)
  else (r, s.edited buf len ichar)

inductive Returned where
  | editing (r : Ring) (s : Cread)
  | entered (r : Ring) (s : Cread)
  | left (r : Ring)

def Cread.onKey (r : Ring) (s : Cread) (ichar : UInt8) : Returned :=
  if ichar = 10 ∨ ichar = 13 then
    let line := (bytes s.mem buf s.eolNum).takeWhile (· ≠ 0)
    .entered (histEnter line r) { s with mem := store s.mem (buf + s.eolNum) [0] }
  else
    match s.escSave with
    | [] => if ichar = 3 then .left r else let (r, s) := s.command buf len r ichar; .editing r s
    | [c] =>
      if ichar = 91 then .editing r { s with escSave := [c, ichar] }
      else .editing r { s.addStr buf len [c] s.insert with escSave := [] }
    | _ =>
      match arrow ichar with
      | some ichar =>
        let (r, s) := { s with escSave := [] }.command buf len r ichar
        .editing r s
      | none => .editing r { s.addStr buf len (s.escSave ++ [ichar]) s.insert with escSave := [] }

def Cread.loop : Ring → Cread → List UInt8 → Returned
  | r, s, [] => .editing r s
  | r, s, ichar :: keys =>
    match s.onKey buf len r ichar with
    | .editing r s => Cread.loop r s keys
    | result => result

/- `buf` has a string of `initLen` characters to begin with. -/
def creadStart (mem : Mem) (initLen : ℕ) : Cread := .addBuf buf len initLen 0 ⟨mem, 0, 0, true, []⟩

end Handlers

structure Shows (buf len : ℕ) (before : Mem) (s : Cread) (e : Edit) : Prop where
  num : s.num = e.num
  insert : s.insert = e.insert
  escSave : s.escSave = e.escSave
  eolNum : s.eolNum = e.text.length
  text : bytes s.mem buf e.text.length = e.text
  inside : e.num ≤ e.text.length
  fits : e.text.length ≤ len
  outside : ∀ x, x < buf ∨ buf + len < x → s.mem x = before x

section Shows

variable {buf len : ℕ} {before : Mem} {s : Cread} {e : Edit}

theorem bytes_insert (mem : Mem) (a n i : ℕ) (c : UInt8) (h : i ≤ n) :
    bytes (store (store mem (a + i + 1) (bytes mem (a + i) (n - i))) (a + i) [c]) a (n + 1) =
      (bytes mem a n).take i ++ c :: (bytes mem a n).drop i := by
  have hsum : n + 1 = i + (1 + (n - i)) := by lia
  have hlast := bytes_store_same mem (a + i + 1) (bytes mem (a + i) (n - i))
  have hone := bytes_store_same (store mem (a + i + 1) (bytes mem (a + i) (n - i))) (a + i) [c]
  rw [length_bytes] at hlast
  rw [length_singleton] at hone
  rw [hsum, bytes_add, bytes_add, hone,
    bytes_store_apart _ _ (a + i + 1) _ _ (by simp only [length_singleton]; lia), hlast,
    bytes_store_apart _ _ a _ _ (by lia), bytes_store_apart _ _ a _ _ (by lia), take_bytes,
    drop_bytes _ _ _ _ h, Nat.min_eq_left h]
  rfl

theorem bytes_erase (mem : Mem) (a n i : ℕ) (h : i < n) :
    bytes (store mem (a + i) (bytes mem (a + (i + 1)) (n - i - 1))) a (n - 1) =
      (bytes mem a n).eraseIdx i := by
  have hsum : n - 1 = i + (n - i - 1) := by lia
  have hlast := bytes_store_same mem (a + i) (bytes mem (a + (i + 1)) (n - i - 1))
  rw [length_bytes] at hlast
  rw [hsum, bytes_add, hlast, bytes_store_apart _ _ _ _ _ (by lia), eraseIdx_eq_take_drop_succ,
    take_bytes, drop_bytes _ _ _ _ (by lia), Nat.min_eq_left (by lia), Nat.sub_sub]

theorem bytes_set (mem : Mem) (a n i : ℕ) (c : UInt8) :
    bytes (store mem (a + i) [c]) a n = (bytes mem a n).set i c := by
  apply ext_getElem (by simp)
  intro j h₁ h₂
  simp only [bytes, getElem_map, getElem_range, getElem_set]
  split
  next h =>
    rw [← h]
    exact store_at mem (a + i) [c] Nat.one_pos
  next h => exact store_outside mem (a + i) [c] (by simp only [length_singleton]; lia)

theorem addChar_shows (hlen : 0 < len) (h : Shows buf len before s e) (ichar : UInt8)
    (insert : Bool) : Shows buf len before (s.addChar buf len ichar insert)
      (creadAddChar ⟨len, none⟩ ichar insert e) := by
  obtain ⟨hnum, hinsert, hesc, heol, htext, hin, hfits, hout⟩ := h
  unfold Cread.addChar creadAddChar
  simp only [hnum, heol]
  by_cases hgrows : insert = true ∨ e.num = e.text.length
  · by_cases hfull : len - 1 < e.text.length
    · simp only [hgrows, hfull, and_self, if_true]
      exact ⟨hnum, hinsert, hesc, heol, htext, hin, hfits, hout⟩
    · -- the move is one of the rest of the line, which may be empty
      have hmem : (if insert = true ∧ 1 < e.text.length + 1 - e.num then
          memmove s.mem (buf + e.num + 1) (buf + e.num) (e.text.length + 1 - e.num - 1) else s.mem) =
          store s.mem (buf + e.num + 1) (bytes s.mem (buf + e.num) (e.text.length - e.num)) := by
        by_cases hrest : e.num = e.text.length
        · rw [if_neg (by lia), hrest, Nat.sub_self, bytes_zero, store_nil]
        · rw [if_pos ⟨hgrows.resolve_right hrest, by lia⟩, memmove_eq, Nat.sub_right_comm,
            Nat.add_sub_cancel]
      simp only [hgrows, hfull, and_false, if_true, if_false, hmem]
      have hcount : (e.text.take e.num ++ ichar :: e.text.drop e.num).length =
          e.text.length + 1 := by
        simp only [length_append, length_take, length_cons, length_drop]
        lia
      refine ⟨rfl, hinsert, hesc, hcount.symm, ?_, by dsimp only; lia, by dsimp only; lia, ?_⟩
      · have hins := bytes_insert s.mem buf e.text.length e.num ichar hin
        rw [htext] at hins
        rw [hcount]
        exact hins
      · intro x hx
        dsimp only
        rw [store_outside _ _ _ (by simp only [length_singleton]; lia),
          store_outside _ _ _ (by rw [length_bytes]; lia), hout x hx]
  · have hno : ¬insert = true := fun h => hgrows (.inl h)
    simp only [hgrows, false_and, if_false]
    simp only [hno, Bool.false_eq_true, false_and, if_false, hnum]
    refine ⟨rfl, hinsert, hesc, by rw [heol, length_set], ?_, ?_, ?_, ?_⟩
    · rw [length_set, bytes_set, htext]
    · rw [length_set]
      dsimp only
      lia
    · rwa [length_set]
    · intro x hx
      dsimp only
      rw [store_outside _ _ _ (by simp only [length_singleton]; lia), hout x hx]

theorem addStr_shows (hlen : 0 < len) (h : Shows buf len before s e) (str : Line) (insert : Bool) :
    Shows buf len before (s.addStr buf len str insert) (creadAddStr ⟨len, none⟩ str insert e) := by
  induction str generalizing s e with
  | nil => exact h
  | cons c str ih => exact ih (addChar_shows hlen h c insert)

theorem eraseToEol_shows (h : Shows buf len before s e) :
    Shows buf len before s.eraseToEol { e with text := e.text.take e.num } := by
  obtain ⟨hnum, hinsert, hesc, heol, htext, hin, hfits, hout⟩ := h
  have hcount : (e.text.take e.num).length = e.num := by
    rw [length_take, Nat.min_eq_left hin]
  have hcut : bytes s.mem buf e.num = e.text.take e.num := by
    conv_rhs => rw [← htext]
    rw [take_bytes, Nat.min_eq_left hin]
  have hcounter : s.eraseToEol = { s with eolNum := s.num } := by
    rw [Cread.eraseToEol]
    split
    · rfl
    next hlt =>
      exact congrArg (fun n => { s with eolNum := n }) (show s.eolNum = s.num by lia)
  rw [hcounter]
  exact ⟨hnum, hinsert, hesc, hnum.trans hcount.symm, by rw [hcount]; exact hcut, hcount.ge,
    hcount.le.trans (hin.trans hfits), hout⟩

theorem refreshToEol_shows (h : Shows buf len before s e) :
    Shows buf len before s.refreshToEol { e with num := e.text.length } := by
  obtain ⟨hnum, hinsert, hesc, heol, htext, hin, hfits, hout⟩ := h
  have hcounter : s.refreshToEol = { s with num := s.eolNum } := by
    rw [Cread.refreshToEol]
    split
    · rfl
    next hlt =>
      exact congrArg (fun n => { s with num := n }) (show s.num = s.eolNum by lia)
  rw [hcounter]
  exact ⟨heol, hinsert, hesc, heol, htext, Nat.le_refl _, hfits, hout⟩

theorem beginningOfLine_shows (h : Shows buf len before s e) :
    Shows buf len before s.beginningOfLine { e with num := 0 } :=
  { h with num := rfl, inside := Nat.zero_le _ }

theorem edited_shows (hlen : 0 < len) (h : Shows buf len before s e) (ichar : UInt8) :
    Shows buf len before (s.edited buf len ichar) (edited ⟨len, none⟩ e ichar) := by
  have hadd := addChar_shows hlen h ichar s.insert
  obtain ⟨hnum, hinsert, hesc, heol, htext, hin, hfits, hout⟩ := id h
  -- a piece of the line is moved down by one
  have herase : ∀ i, i < e.text.length → Shows buf len before
      ⟨memmove s.mem (buf + i) (buf + (i + 1)) (e.text.length - i - 1), i, s.eolNum - 1, s.insert,
        s.escSave⟩ { e with text := e.text.eraseIdx i, num := i } := by
    intro i hi
    have hcount := length_eraseIdx_of_lt hi
    refine ⟨rfl, hinsert, hesc, by rw [heol, hcount], ?_, by dsimp only; lia,
      by dsimp only; lia, ?_⟩
    · have hmove := bytes_erase s.mem buf e.text.length i hi
      rw [htext] at hmove
      simp only [hcount, memmove_eq, hmove]
    · intro x hx
      dsimp only
      rw [memmove_eq, store_outside _ _ _ (by rw [length_bytes]; lia), hout x hx]
  have hnil := eraseToEol_shows (beginningOfLine_shows h)
  have hdel : Shows buf len before
      (if s.num ≠ 0 then ⟨memmove s.mem (buf + (s.num - 1)) (buf + (s.num - 1 + 1))
        (s.eolNum - s.num), s.num - 1, s.eolNum - 1, s.insert, s.escSave⟩ else s)
      (if e.num = 0 then e
        else { e with text := e.text.eraseIdx (e.num - 1), num := e.num - 1 }) := by
    rw [hnum]
    by_cases hz : e.num = 0
    · rw [if_neg (not_not_intro hz), if_pos hz]
      exact h
    · rw [if_pos hz, if_neg hz]
      have hgo := herase (e.num - 1) (by lia)
      rwa [show e.text.length - (e.num - 1) - 1 = e.text.length - e.num by lia, ← heol] at hgo
  unfold Cread.edited edited
  generalize ichar.toNat = k
  split
  · exact ⟨hnum, hinsert, rfl, heol, htext, hin, hfits, hout⟩
  · exact ⟨rfl, hinsert, hesc, heol, htext, Nat.zero_le _, hfits, hout⟩
  · dsimp only
    by_cases hlt : e.num < e.text.length
    · rw [if_pos (by lia), if_pos hlt]
      exact ⟨congrArg (· + 1) hnum, hinsert, hesc, heol, htext, hlt, hfits, hout⟩
    · rw [if_neg (by lia), if_neg hlt]
      exact h
  · dsimp only
    by_cases hz : e.num = 0
    · rw [if_neg (by lia), hz]
      exact ⟨hnum.trans hz, hinsert, hesc, heol, htext, Nat.zero_le _, hfits, hout⟩
    · rw [if_pos (by lia)]
      exact ⟨congrArg (· - 1) hnum, hinsert, hesc, heol, htext, (Nat.sub_le _ _).trans hin, hfits,
        hout⟩
  · dsimp only
    by_cases hlt : e.num < e.text.length
    · have hgo := herase e.num hlt
      rw [if_pos (by lia), heol, hnum]
      rw [heol] at hgo
      by_cases hz : e.text.length - e.num - 1 = 0
      · rw [if_neg (not_not_intro hz)]
        rwa [hz, memmove_eq, bytes_zero, store_nil] at hgo
      · rwa [if_pos hz]
    · rw [if_neg (by lia), eraseIdx_of_length_le (by lia)]
      exact h
  · exact eraseToEol_shows h
  · exact refreshToEol_shows h
  · exact ⟨hnum, congrArg (!·) hinsert, hesc, heol, htext, hin, hfits, hout⟩
  · exact hnil
  · exact hnil
  · exact hdel
  · exact hdel
  · exact hdel
  · rw [← hinsert]
    split
    all_goals first | exact hadd | contradiction

def Ring.Fits (len : ℕ) (r : Ring) : Prop := ∀ i, (r.list i).length ≤ len

variable {r : Ring}

theorem histPrev_fits (h : r.Fits len) :
    (histPrev r).1.Fits len ∧ ∀ hline ∈ (histPrev r).2, hline.length ≤ len := by
  rw [histPrev]
  generalize hcur : (if r.cur - 1 < 0 then (r.max : ℤ) else r.cur - 1) = cur
  by_cases hnone : r.cur < 0 ∨ cur = r.addIdx
  · rw [← ite_or, if_pos hnone]
    exact ⟨h, fun _ hl => by cases hl⟩
  · rw [← ite_or, if_neg hnone]
    exact ⟨h, fun _ hl => mem_some.mp hl ▸ h _⟩

theorem histNext_fits (h : r.Fits len) :
    (histNext r).1.Fits len ∧ ∀ hline ∈ (histNext r).2, hline.length ≤ len := by
  rw [histNext]
  generalize hcur : (if (r.max : ℤ) < r.cur + 1 then 0 else r.cur + 1) = cur
  by_cases hnone : r.cur < 0 ∨ r.cur = r.addIdx
  · rw [← ite_or, if_pos hnone]
    exact ⟨h, fun _ hl => by cases hl⟩
  · rw [← ite_or, if_neg hnone]
    refine ⟨h, fun hline hl => ?_⟩
    rw [← mem_some.mp hl]
    split
    · exact Nat.zero_le _
    · exact h _

theorem histEnter_fits {line : Line} (h : r.Fits len) (hline : line.length ≤ len) :
    (histEnter line r).Fits len := by
  intro i
  rw [histEnter]
  cases hrec : recorded line
  · exact h i
  · show (Function.update r.list r.addIdx line i).length ≤ len
    by_cases hi : i = r.addIdx
    · rwa [hi, Function.update_self]
    · rw [Function.update_of_ne hi]
      exact h i

theorem showLine_shows (h : Shows buf len before s e) {found : Ring × Option Line}
    (hfound : found.1.Fits len ∧ ∀ hline ∈ found.2, hline.length ≤ len) :
    (s.showLine buf found).1 = (showLine found e).1 ∧ (s.showLine buf found).1.Fits len ∧
      Shows buf len before (s.showLine buf found).2 (showLine found e).2 := by
  obtain ⟨r, hline⟩ := found
  cases hline with
  | none => exact ⟨rfl, hfound.1, h⟩
  | some hline =>
    have hroom : hline.length ≤ len := hfound.2 hline rfl
    have hempty := eraseToEol_shows (beginningOfLine_shows h)
    refine ⟨rfl, hfound.1, refreshToEol_shows (e := { e with num := 0, text := hline })
      ⟨hempty.num, hempty.insert, hempty.escSave, rfl, ?_, Nat.zero_le _, hroom, fun x hx => ?_⟩⟩
    · dsimp only
      rw [store_append, bytes_store_apart _ _ _ _ _ (by lia)]
      exact bytes_store_same _ _ _
    · dsimp only
      rw [store_outside _ _ _ (by rw [length_append, length_singleton]; lia)]
      exact hempty.outside x hx

theorem command_shows (hlen : 0 < len) (hr : r.Fits len)
    (h : Shows buf len before s e) (ichar : UInt8) :
    (s.command buf len r ichar).1 = (command ringOps ⟨len, none⟩ r e ichar).1 ∧
      (s.command buf len r ichar).1.Fits len ∧
      Shows buf len before (s.command buf len r ichar).2
        (command ringOps ⟨len, none⟩ r e ichar).2 := by
  have hshow : Shows buf len before { s with escSave := [] } { e with escSave := [] } :=
    ⟨h.num, h.insert, rfl, h.eolNum, h.text, h.inside, h.fits, h.outside⟩
  rw [Cread.command, command]
  split
  · exact showLine_shows hshow (histPrev_fits hr)
  · split
    · exact showLine_shows hshow (histNext_fits hr)
    · exact ⟨rfl, hr, edited_shows hlen h ichar⟩

variable {r' : Ring} {e' : Edit} {ichar : UInt8}

theorem onKey_shows (hlen : 0 < len) (hr : r.Fits len) (h : Shows buf len before s e)
    (hkey : onKey ringOps ⟨len, none⟩ r e ichar = .editing r' e') :
    ∃ s', s.onKey buf len r ichar = .editing r' s' ∧ r'.Fits len ∧ Shows buf len before s' e' := by
  have hclear {s : Cread} {e : Edit} (h : Shows buf len before s e) (esc : Line) :
      Shows buf len before { s with escSave := esc } { e with escSave := esc } :=
    ⟨h.num, h.insert, rfl, h.eolNum, h.text, h.inside, h.fits, h.outside⟩
  rw [onKey] at hkey
  rw [Cread.onKey, h.escSave]
  by_cases hnl : ichar = 10 ∨ ichar = 13
  · rw [if_pos hnl] at hkey
    cases hkey
  · rw [if_neg hnl] at hkey ⊢
    cases hesc : e.escSave with
    | nil =>
      rw [hesc] at hkey
      dsimp only at hkey ⊢
      by_cases hc : ichar = 3
      · rw [if_pos hc] at hkey
        cases hkey
      · rw [if_neg hc] at hkey ⊢
        obtain ⟨hring, hfits, hshows⟩ := command_shows hlen hr h ichar
        cases hkey
        exact ⟨_, by rw [hring], hring ▸ hfits, hshows⟩
    | cons c rest =>
      cases rest with
      | nil =>
        rw [hesc] at hkey
        dsimp only at hkey ⊢
        by_cases hbr : ichar = 91
        · rw [if_pos hbr] at hkey ⊢
          cases hkey
          exact ⟨_, rfl, hr, hclear h _⟩
        · rw [if_neg hbr] at hkey ⊢
          cases hkey
          exact ⟨_, by rw [h.insert], hr, hclear (addStr_shows hlen h [c] e.insert) _⟩
      | cons d rest =>
        rw [hesc] at hkey
        dsimp only at hkey ⊢
        cases harrow : arrow ichar with
        | none =>
          rw [harrow] at hkey
          cases hkey
          have hall := addStr_shows hlen h (c :: d :: rest ++ [ichar]) e.insert
          exact ⟨_, by rw [h.insert], hr, hclear hall _⟩
        | some control =>
          rw [harrow] at hkey
          obtain ⟨hring, hfits, hshows⟩ := command_shows hlen hr (hclear h []) control
          cases hkey
          exact ⟨_, by dsimp only; rw [hring], hring ▸ hfits, hshows⟩

theorem loop_shows (hlen : 0 < len) (keys : List UInt8) (hr : r.Fits len)
    (h : Shows buf len before s e)
    (hkeys : creadLoop ringOps ⟨len, none⟩ r e (keys.map .key) = .editing r' e') :
    ∃ s', s.loop buf len r keys = .editing r' s' ∧ r'.Fits len ∧ Shows buf len before s' e' := by
  induction keys generalizing r s e with
  | nil =>
    cases hkeys
    exact ⟨s, rfl, hr, h⟩
  | cons ichar keys ih =>
    rw [map_cons, creadLoop] at hkeys
    cases hkey : onKey ringOps ⟨len, none⟩ r e ichar with
    | editing r₁ e₁ =>
      obtain ⟨s₁, hs₁, hr₁, h₁⟩ := onKey_shows hlen hr h hkey
      rw [hkey] at hkeys
      obtain ⟨s', hs', hr', h'⟩ := ih hr₁ h₁ hkeys
      exact ⟨s', by rw [Cread.loop, hs₁]; exact hs', hr', h'⟩
    | entered r₁ line =>
      rw [hkey] at hkeys
      cases hkeys
    | left r₁ =>
      rw [hkey] at hkeys
      cases hkeys

theorem loop_append (buf len : ℕ) (r : Ring) (s : Cread) (ps qs : List UInt8) :
    s.loop buf len r (ps ++ qs) = match s.loop buf len r ps with
      | .editing r s => s.loop buf len r qs
      | result => result := by
  induction ps generalizing r s with
  | nil => rfl
  | cons ichar ps ih =>
    rw [cons_append, Cread.loop, Cread.loop]
    cases s.onKey buf len r ichar with
    | editing r s => exact ih r s
    | entered r s => rfl
    | left r => rfl

/- A key of the keyboard: a character or a control character, or one of an xterm. -/
inductive Key where
  | plain (ichar : UInt8) (h : ichar ∉ [3, 9, 10, 13, 27])
  | escape (ichar : UInt8) (h : (arrow ichar).isSome)

def Key.sent : Key → List UInt8
  | .plain ichar _ => [ichar]
  | .escape ichar _ => [27, 91, ichar]

def Key.control : Key → UInt8
  | .plain ichar _ => ichar
  | .escape ichar h => (arrow ichar).get h

def pressed (len : ℕ) (r : Ring) (e : Edit) (keys : List Key) : Ring × Edit :=
  keys.foldl (fun st key => command ringOps ⟨len, none⟩ st.1 st.2 key.control) (r, e)

theorem edited_escSave (cfg : Config) (e : Edit) (h : ichar ≠ 27) :
    (edited cfg e ichar).escSave = e.escSave := by
  have hk : ichar.toNat ≠ 27 := fun hk => h (UInt8.toNat_inj.mp hk)
  have hadd : ∀ insert, (creadAddChar cfg ichar insert e).escSave = e.escSave := by
    intro insert
    rw [creadAddChar]
    split
    · split <;> rfl
    · rfl
  unfold edited
  generalize ichar.toNat = k at hk
  split
  case h_1 => contradiction
  case h_14 =>
    split
    · exact hadd _
    · split
      · rfl
      · split <;> rfl
  case h_15 => exact hadd _
  all_goals first | rfl | (split <;> rfl)

theorem command_escSave (cfg : Config) (r : Ring) {e : Edit} (h : ichar ≠ 27)
    (hesc : e.escSave = []) : (command ringOps cfg r e ichar).2.escSave = [] := by
  have hshow : ∀ found, (showLine found { e with escSave := [] } : Ring × Edit).2.escSave = [] := by
    rintro ⟨r, hline⟩
    cases hline <;> rfl
  rw [command]
  split
  · exact hshow _
  · split
    · exact hshow _
    · exact (edited_escSave cfg e h).trans hesc

theorem arrow_ne_escape {control : UInt8} (h : arrow ichar = some control) : control ≠ 27 := by
  unfold arrow at h
  split at h <;> cases h <;> decide

theorem Key.control_ne (key : Key) : key.control ≠ 27 := by
  cases key with
  | plain ichar h =>
    intro hk
    exact h (by rw [show ichar = 27 from hk]; decide)
  | escape ichar h => exact arrow_ne_escape (some_get h).symm

theorem creadLoop_sent (len : ℕ) (r : Ring) {e : Edit} (keys : List Key) (hesc : e.escSave = []) :
    creadLoop ringOps ⟨len, none⟩ r e ((keys.flatMap Key.sent).map .key) =
      .editing (pressed len r e keys).1 (pressed len r e keys).2 := by
  induction keys generalizing r e with
  | nil => rfl
  | cons key keys ih =>
    have hrest := ih (command ringOps ⟨len, none⟩ r e key.control).1
      (command_escSave ⟨len, none⟩ r key.control_ne hesc)
    rw [flatMap_cons, map_append]
    cases key with
    | plain ichar h =>
      have hno : ¬(ichar = 10 ∨ ichar = 13) ∧ ichar ≠ 3 := by
        simp only [mem_cons, not_or] at h
        exact ⟨not_or.mpr ⟨h.2.2.1, h.2.2.2.1⟩, h.1⟩
      rw [Key.sent, map_singleton, singleton_append, creadLoop, onKey, if_neg hno.1, hesc]
      dsimp only
      rw [if_neg hno.2]
      exact hrest
    | escape ichar h =>
      obtain ⟨control, hcontrol⟩ := isSome_iff_exists.mp h
      have hno : ¬(ichar = 10 ∨ ichar = 13) := by
        rintro (rfl | rfl) <;> cases hcontrol
      have hkey : (Key.escape ichar h).control = control := by
        exact get_of_mem _ hcontrol
      rw [hkey] at hrest
      have hclean : { e with escSave := [] } = e := hesc ▸ rfl
      have hesc₁ : onKey ringOps ⟨len, none⟩ r e 27 = .editing r { e with escSave := [27] } := by
        rw [onKey, if_neg (by decide), hesc]
        rfl
      have hesc₂ : onKey ringOps ⟨len, none⟩ r { e with escSave := [27] } 91 =
          .editing r { e with escSave := [27, 91] } := rfl
      have hesc₃ : onKey ringOps ⟨len, none⟩ r { e with escSave := [27, 91] } ichar =
          .editing (command ringOps ⟨len, none⟩ r e control).1
            (command ringOps ⟨len, none⟩ r e control).2 := by
        rw [onKey, if_neg hno]
        dsimp only
        rw [hcontrol]
        dsimp only
        rw [hclean]
      show creadLoop _ _ _ _ (.key 27 :: .key 91 :: .key ichar :: _) = _
      rw [creadLoop, hesc₁]
      dsimp only
      rw [creadLoop, hesc₂]
      dsimp only
      rw [creadLoop, hesc₃]
      rw [pressed, foldl_cons, hkey]
      exact hrest

theorem creadLoop_front {cfg : Config} {e : Edit} (ps qs : List Event)
    (h : creadLoop ringOps cfg r e (ps ++ qs) = .editing r' e') :
    ∃ r₁ e₁, creadLoop ringOps cfg r e ps = .editing r₁ e₁ := by
  induction ps generalizing r e with
  | nil => exact ⟨r, e, rfl⟩
  | cons event ps ih =>
    cases event with
    | timeout => cases h
    | key ichar =>
      rw [cons_append, creadLoop] at h
      rw [creadLoop]
      cases hkey : onKey ringOps cfg r e ichar with
      | editing r₁ e₁ =>
        rw [hkey] at h
        exact ih h
      | entered r₁ line =>
        rw [hkey] at h
        cases h
      | left r₁ =>
        rw [hkey] at h
        cases h

theorem addBuf_self (hlen : 0 < len) (mem : Mem) (n i : ℕ) :
    Cread.addBuf buf len n i ⟨mem, min i len, min i len, true, []⟩ =
      ⟨mem, min (i + n) len, min (i + n) len, true, []⟩ := by
  induction n generalizing i with
  | zero => rfl
  | succ n ih =>
    rw [Cread.addBuf, Cread.addChar, show i + (n + 1) = i + 1 + n by lia, ← ih (i + 1)]
    congr 1
    simp only [true_or, true_and, if_true]
    by_cases hi : len ≤ i
    · rw [Nat.min_eq_right hi, Nat.min_eq_right (by lia), if_pos (by lia)]
    · have hself : store mem (buf + i) [mem (buf + i)] = mem := store_bytes_self mem (buf + i) 1
      rw [Nat.min_eq_left (by lia), Nat.min_eq_left (by lia), if_neg (by lia),
        if_neg (by lia), hself]

theorem creadStart_shows (hlen : 0 < len) (before : Mem) (initLen : ℕ) :
    Shows buf len before (creadStart buf len before initLen)
      ⟨bytes before buf (min initLen len), min initLen len, true, []⟩ := by
  have hself := @addBuf_self buf len hlen before initLen 0
  rw [Nat.zero_min, Nat.zero_add] at hself
  rw [creadStart, hself]
  have hcount : (bytes before buf (min initLen len)).length = min initLen len := length_bytes ..
  exact ⟨rfl, rfl, rfl, hcount.symm, by rw [hcount], hcount.ge, hcount.le.trans (Nat.min_le_right ..),
    fun _ _ => rfl⟩

theorem newline_shows (h : Shows buf len before s e) (r : Ring) {newline : UInt8}
    (hnl : newline ∈ [10, 13]) : ∃ s', s.onKey buf len r newline =
      .entered (histEnter (e.text.takeWhile (· ≠ 0)) r) s' ∧ s'.num = s.num ∧ s'.eolNum = s.eolNum ∧
      bytes s'.mem buf (e.text.length + 1) = e.text ++ [0] ∧
      ∀ x, x < buf ∨ buf + len < x → s'.mem x = before x := by
  have hkey : newline = 10 ∨ newline = 13 := by
    simpa only [mem_cons, not_mem_nil, or_false] using hnl
  have hfits := h.fits
  rw [Cread.onKey, if_pos hkey, h.eolNum, h.text]
  refine ⟨_, rfl, rfl, rfl, ?_, fun x hx => ?_⟩
  · rw [bytes_add, bytes_store_apart _ _ _ _ _ (by lia), h.text]
    exact congrArg (e.text ++ ·) (bytes_store_same s.mem (buf + e.text.length) [0])
  · dsimp only
    rw [store_outside _ _ _ (by rw [length_singleton]; lia)]
    exact h.outside x hx

end Shows

def Cread.Inside (buf len : ℕ) (before : Mem) (s : Cread) : Prop :=
  s.num ≤ s.eolNum ∧ s.eolNum ≤ len ∧ ∀ x, x < buf ∨ buf + len < x → s.mem x = before x

theorem Shows.isInside {buf len : ℕ} {before : Mem} {s : Cread} {e : Edit}
    (h : Shows buf len before s e) : s.Inside buf len before := by
  refine ⟨?_, ?_, h.outside⟩
  · rw [h.num, h.eolNum]
    exact h.inside
  · rw [h.eolNum]
    exact h.fits

theorem histInit_fits (len : ℕ) : histInit.Fits len := fun _ => Nat.zero_le len

theorem creadLine_edits {len : ℕ} (hlen : 0 < len) (buf : ℕ) (before : Mem) (initLen : ℕ) {r : Ring}
    (hr : r.Fits len) (keys : List Key) {newline : UInt8} (hnl : newline ∈ [10, 13]) :
    let start := creadStart buf len before initLen
    let e : Edit := ⟨bytes before buf (min initLen len), min initLen len, true, []⟩
    let final := pressed len r e keys
    let line := final.2.text
    (∀ sent, sent <+: keys.flatMap Key.sent → ∃ r' s, start.loop buf len r sent = .editing r' s ∧
      s.Inside buf len before) ∧
    ∃ r' s, start.loop buf len r (keys.flatMap Key.sent ++ [newline]) = .entered r' s ∧
      s.Inside buf len before ∧ s.num = final.2.num ∧ s.eolNum = line.length ∧
      bytes s.mem buf (line.length + 1) = line ++ [0] ∧
      r' = histEnter (line.takeWhile (· ≠ 0)) final.1 ∧ r'.Fits len := by
  intro start e final line
  have hstart : Shows buf len before start e := creadStart_shows hlen before initLen
  have habstract := creadLoop_sent len r keys (e := e) rfl
  constructor
  · intro sent hsent
    obtain ⟨rest, hrest⟩ := hsent
    rw [← hrest, map_append] at habstract
    obtain ⟨r₁, e₁, hfront⟩ := creadLoop_front _ _ habstract
    obtain ⟨s, hs, -, hshows⟩ := loop_shows hlen sent hr hstart hfront
    exact ⟨r₁, s, hs, hshows.isInside⟩
  · obtain ⟨s, hs, hfits, hshows⟩ := loop_shows hlen _ hr hstart habstract
    obtain ⟨s', hs', hnum, heol, hline, hout⟩ := newline_shows hshows final.1 hnl
    obtain ⟨hle, hroom, -⟩ := hshows.isInside
    refine ⟨_, s', ?_, ⟨by rwa [hnum, heol], by rwa [heol], hout⟩, hnum.trans hshows.num,
      heol.trans hshows.eolNum, hline, rfl, histEnter_fits hfits ?_⟩
    · rw [loop_append, hs]
      dsimp only
      rw [Cread.loop, hs']
    · exact (( takeWhile_prefix _).length_le).trans hshows.fits

/- `a`, the left arrow and `b` in a buffer of four characters and an empty history. -/
theorem creadLine_edits_arrow : ∃ r' s, (creadStart 0 4 (fun _ => 0) 0).loop 0 4 histInit
    [97, 27, 91, 68, 98, 10] = .entered r' s ∧ bytes s.mem 0 3 = [98, 97, 0] := by
  obtain ⟨r', s, hs, -, -, -, hline, -⟩ := (@creadLine_edits 4 (by decide) 0 (fun _ => 0) 0 _
    (histInit_fits 4) [.plain 97 (by decide), .escape 68 rfl, .plain 98 (by decide)] 10 (by decide)).2
  exact ⟨r', s, hs, hline⟩

end UBoot.Cli
