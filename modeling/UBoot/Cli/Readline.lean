import Mathlib.Tactic

/-!
# Editing a line (common/cli_readline.c)

`cread_line` over any history, and the two histories: the ring of 20 slots and the list of the lines
entered. A line is the list of its characters, `text` is what is in the buffer up to `eol_num`. The
output is left out.
-/

namespace UBoot.Cli

abbrev Line := List UInt8

def histMax : ℕ := 20

structure Ring where
  -- `hist_max`, `hist_add_idx`, `hist_cur` and `hist_list`
  max : ℕ
  addIdx : ℕ
  cur : ℤ
  list : ℕ → Line

def histInit : Ring := ⟨0, 0, -1, fun _ => []⟩

def creadAddToHist (line : Line) (r : Ring) : Ring :=
  let addIdx := if histMax ≤ r.addIdx + 1 then 0 else r.addIdx + 1
  { r with
    list := Function.update r.list r.addIdx line
    addIdx := addIdx
    max := if r.max < addIdx then addIdx else r.max }

def histPrev (r : Ring) : Ring × Option Line :=
  if r.cur < 0 then (r, none)
  else
    let cur := if r.cur - 1 < 0 then (r.max : ℤ) else r.cur - 1
    if cur = r.addIdx then (r, none) else ({ r with cur := cur }, some (r.list cur.toNat))

def histNext (r : Ring) : Ring × Option Line :=
  if r.cur < 0 then (r, none)
  else if r.cur = r.addIdx then (r, none)
  else
    let cur := if (r.max : ℤ) < r.cur + 1 then 0 else r.cur + 1
    ({ r with cur := cur }, some (if cur = r.addIdx then [] else r.list cur.toNat))

/- Lines that are put into the history: not empty and without `!` in front. -/
def recorded (line : Line) : Bool :=
  match line with
  | [] => false
  | c :: _ => c ≠ 33

/- The end of `cread_line` for a line that is entered. -/
def histEnter (line : Line) (r : Ring) : Ring :=
  let r := if recorded line then creadAddToHist line r else r
  { r with cur := r.addIdx }

structure HistOps (H : Type) where
  prev : H → H × Option Line
  next : H → H × Option Line
  enter : Line → H → H

def ringOps : HistOps Ring := ⟨histPrev, histNext, histEnter⟩

/- The locals of `cread_line`; the saved characters of an escape sequence are `esc_len` many. -/
structure Edit where
  text : Line
  num : ℕ
  insert : Bool
  escSave : Line

/- The size of the buffer, and the completion when it is compiled in: the text with its end
completed. -/
structure Config where
  len : ℕ
  complete : Option (Line → Option Line)

inductive Event where
  | key (ichar : UInt8)
  | timeout

inductive Result (H : Type) where
  | editing (h : H) (e : Edit)
  | entered (h : H) (line : Line)
  -- ^C or a timeout
  | left (h : H)

def creadAddChar (cfg : Config) (ichar : UInt8) (insert : Bool) (e : Edit) : Edit :=
  if insert ∨ e.num = e.text.length then
    if cfg.len - 1 < e.text.length then e
    else { e with text := e.text.take e.num ++ ichar :: e.text.drop e.num, num := e.num + 1 }
  else { e with text := e.text.set e.num ichar, num := e.num + 1 }

def creadAddStr (cfg : Config) (str : Line) (insert : Bool) (e : Edit) : Edit :=
  str.foldl (fun e c => creadAddChar cfg c insert e) e

def edited (cfg : Config) (e : Edit) (ichar : UInt8) : Edit :=
  match ichar.toNat with
  | 0x1b => { e with escSave := [ichar] }
  -- ^A, ^F, ^B
  | 1 => { e with num := 0 }
  | 6 => if e.num < e.text.length then { e with num := e.num + 1 } else e
  | 2 => { e with num := e.num - 1 }
  -- ^D, ^K, ^E, ^O
  | 4 => { e with text := e.text.eraseIdx e.num }
  | 11 => { e with text := e.text.take e.num }
  | 5 => { e with num := e.text.length }
  | 15 => { e with insert := !e.insert }
  -- ^X and ^U
  | 24 | 21 => { e with num := 0, text := [] }
  -- DEL, DEL7 and backspace
  | 255 | 127 | 8 =>
    if e.num = 0 then e else { e with text := e.text.eraseIdx (e.num - 1), num := e.num - 1 }
  | 9 =>
    match cfg.complete with
    | none => creadAddChar cfg ichar e.insert e
    | some complete =>
      if e.num < e.text.length then e
      else
        match complete e.text with
        | none => e
        | some text => { e with text := text, num := text.length }
  | _ => creadAddChar cfg ichar e.insert e

section Keys

variable {H : Type} (ops : HistOps H) (cfg : Config)

def showLine (found : H × Option Line) (e : Edit) : H × Edit :=
  match found with
  | (h, none) => (h, e)
  | (h, some hline) => (h, { e with text := hline, num := hline.length })

def command (h : H) (e : Edit) (ichar : UInt8) : H × Edit :=
  if ichar = 16 then showLine (ops.prev h) { e with escSave := [] }
  else if ichar = 14 then showLine (ops.next h) { e with escSave := [] }
  else (h, edited cfg e ichar)

/- The keys of an xterm: the control character that an escape sequence stands for. -/
def arrow (ichar : UInt8) : Option UInt8 :=
  match ichar.toNat with
  -- D, C, H, A, B
  | 68 => some 2
  | 67 => some 6
  | 72 => some 1
  | 65 => some 16
  | 66 => some 14
  | _ => none

def onKey (h : H) (e : Edit) (ichar : UInt8) : Result H :=
  if ichar = 10 ∨ ichar = 13 then
    .entered (ops.enter (e.text.takeWhile (· ≠ 0)) h) (e.text.takeWhile (· ≠ 0))
  else
    match e.escSave with
    | [] => if ichar = 3 then .left h else let (h, e) := command ops cfg h e ichar; .editing h e
    | [c] =>
      if ichar = 91 then .editing h { e with escSave := [c, ichar] }
      else .editing h { creadAddStr cfg [c] e.insert e with escSave := [] }
    | _ =>
      match arrow ichar with
      | some ichar => let (h, e) := command ops cfg h { e with escSave := [] } ichar; .editing h e
      | none => .editing h { creadAddStr cfg (e.escSave ++ [ichar]) e.insert e with escSave := [] }

def creadLoop : H → Edit → List Event → Result H
  | h, e, [] => .editing h e
  | h, _, .timeout :: _ => .left h
  | h, e, .key ichar :: events =>
    match onKey ops cfg h e ichar with
    | .editing h e => creadLoop h e events
    | result => result

/- `buf` has a text to begin with. -/
def creadLine (h : H) (buf : Line) (events : List Event) : Result H :=
  creadLoop ops cfg h (creadAddStr cfg buf true ⟨[], 0, true, []⟩) events

end Keys

/- All lines put into the history, the latest first, and how far back the line shown is. -/
structure Latest where
  lines : List Line
  pos : ℕ

def Latest.reach (h : Latest) : ℕ := min h.lines.length (histMax - 1)

def shown (lines : List Line) : ℕ → Line
  | 0 => []
  | k + 1 => lines.getD k []

def latestOps : HistOps Latest where
  prev h :=
    if h.pos < h.reach then ({ h with pos := h.pos + 1 }, some (shown h.lines (h.pos + 1)))
    else (h, none)
  next h :=
    if h.pos = 0 then (h, none)
    else ({ h with pos := h.pos - 1 }, some (shown h.lines (h.pos - 1)))
  enter line h := ⟨if recorded line then line :: h.lines else h.lines, 0⟩

end UBoot.Cli
