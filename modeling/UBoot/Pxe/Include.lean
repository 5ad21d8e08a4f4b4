import UBoot.Pxe.Text
import Mathlib.Data.List.TakeWhile

/-!
# Included menu files

`Reads` says what a file stands for by itself: every include is replaced by what the included file
stands for. The loop on memory is compared with it.
-/

namespace UBoot.Pxe

open List

def content (bytes : List UInt8) : Text := bytes.takeWhile (· ≠ 0)

def Turn.stop (cfg : Menu) : Turn → Option Outcome
  | .eof => some (.ok cfg)
  | .error => some .error
  | .crash => some .crash
  | _ => none

/- What the rest `s` of the file `t` comes to, with `levels` files left to nest; `step` holds of each
statement. -/
inductive Reads (step : Text → Text → Menu → Prop) (files : Text → Option (List UInt8)) :
    ℕ → Text → Text → Menu → Outcome → Prop
  | deep {t s : Text} {cfg : Menu} : Reads step files 0 t s cfg .error
  | stop {levels turns : ℕ} {t s : Text} {cfg : Menu} {r : Turn} {out : Outcome}
      (hstep : step t s cfg) (hturn : turn turns s cfg = some r) (hout : r.stop cfg = some out) :
      Reads step files (levels + 1) t s cfg out
  | next {levels turns : ℕ} {t s rest : Text} {cfg cfg' : Menu} {out : Outcome} (hstep : step t s cfg)
      (hturn : turn turns s cfg = some (.next rest cfg'))
      (hrest : Reads step files (levels + 1) t rest cfg' out) :
      Reads step files (levels + 1) t s cfg out
  | missing {levels turns : ℕ} {t s rest path : Text} {menu : Bool} {cfg cfg' : Menu}
      (hstep : step t s cfg) (hturn : turn turns s cfg = some (.incl menu path rest cfg'))
      (hfile : files path = none) : Reads step files (levels + 1) t s cfg .error
  | incl {levels turns : ℕ} {t s rest path : Text} {bytes : List UInt8} {menu : Bool}
      {cfg cfg' cfg'' : Menu} {out : Outcome} (hstep : step t s cfg)
      (hturn : turn turns s cfg = some (.incl menu path rest cfg')) (hfile : files path = some bytes)
      (hinner : Reads step files levels (content bytes) (content bytes) cfg' (.ok cfg''))
      (hrest : Reads step files (levels + 1) t (if menu then eolOrEof rest else rest) cfg'' out) :
      Reads step files (levels + 1) t s cfg out
  | fail {levels turns : ℕ} {t s rest path : Text} {bytes : List UInt8} {menu : Bool}
      {cfg cfg' : Menu} {out : Outcome} (hstep : step t s cfg)
      (hturn : turn turns s cfg = some (.incl menu path rest cfg')) (hfile : files path = some bytes)
      (hinner : Reads step files levels (content bytes) (content bytes) cfg' out)
      (hout : ∀ cfg'', out ≠ .ok cfg'') : Reads step files (levels + 1) t s cfg out

/- No `menu` is cut off by the end of its file, and a file with a multiple of 4 characters does not
load another by a plain include, unless that is empty. -/
def Steady (files : Text → Option (List UInt8)) (t s : Text) (cfg : Menu) : Prop :=
  ¬ Cut s cfg ∧ ∀ turns path rest cfg' bytes, turn turns s cfg = some (.incl false path rest cfg') →
    files path = some bytes → t.length % 4 ≠ 0 ∨ content bytes = []

theorem content_zero (bytes : List UInt8) : 0 ∉ content bytes := fun h => by
  simpa using mem_takeWhile_imp h

theorem content_append (bytes : List UInt8) : ∃ tail, bytes ++ [0] = content bytes ++ 0 :: tail := by
  induction bytes with
  | nil => exact ⟨[], rfl⟩
  | cons c bytes ih =>
    obtain ⟨tail, htail⟩ := ih
    by_cases hc : c = 0
    · exact ⟨bytes ++ [0], by simp [content, hc]⟩
    · exact ⟨tail, by simpa [content, hc] using htail⟩

theorem strlen_text {t : Text} (ht : 0 ∉ t) (junk : Text) : strlen (t ++ 0 :: junk) = t.length := by
  have hall : ∀ c ∈ t, decide (c ≠ 0) = true := fun c hc => decide_eq_true fun h => ht (h ▸ hc)
  rw [strlen, takeWhile_append_of_pos hall]
  simp

theorem put_append (low junk bytes : List UInt8) {a : ℕ} (ha : low.length ≤ a) :
    ∃ gap junk', put (low ++ junk) a bytes = low ++ gap ++ bytes ++ junk' ∧ (low ++ gap).length = a := by
  refine ⟨junk.take (a - low.length) ++ List.replicate (a - (low ++ junk).length) 0,
    (low ++ junk).drop (a + bytes.length), ?_, ?_⟩
  · rw [put, take_append, take_of_length_le ha]
    simp
  · simp
    lia

theorem put_file (lo t junk bytes : List UInt8) {base : ℕ}
    (hbase : lo.length + t.length < base ∨ base = lo.length + t.length ∧ content bytes = []) :
    ∃ lo' junk', put (lo ++ t ++ 0 :: junk) base (bytes ++ [0]) = lo' ++ content bytes ++ 0 :: junk' ∧
      lo'.length = base ∧
      ∀ junk₁, ∃ junk₂, lo' ++ content bytes ++ 0 :: junk₁ = lo ++ t ++ 0 :: junk₂ := by
  obtain ⟨tail, htail⟩ := content_append bytes
  rcases hbase with hlt | ⟨heq, hempty⟩
  · have hlow : (lo ++ t ++ [0]).length ≤ base := by simp; lia
    obtain ⟨gap, junk', hput, hlen⟩ := put_append (lo ++ t ++ [0]) junk (bytes ++ [0]) hlow
    refine ⟨lo ++ t ++ [0] ++ gap, tail ++ junk', ?_, hlen, fun junk₁ => ?_⟩
    · rw [htail] at hput ⊢
      simpa using hput
    · exact ⟨gap ++ content bytes ++ 0 :: junk₁, by simp⟩
  · have hlow : (lo ++ t).length ≤ base := by simp; lia
    obtain ⟨gap, junk', hput, hlen⟩ := put_append (lo ++ t) (0 :: junk) (bytes ++ [0]) hlow
    have hgap : gap = [] := by
      rw [length_append, length_append] at hlen
      exact length_eq_zero_iff.mp (by lia)
    subst hgap
    refine ⟨lo ++ t, tail ++ junk', ?_, by simpa using hlen, fun junk₁ => ⟨junk₁, by simp [hempty]⟩⟩
    rw [htail] at hput ⊢
    simpa using hput

section Loop

variable (files : Text → Option (List UInt8)) (turns : ℕ)

def resume : ℕ → ℕ → Ram → ℕ → ℕ → Menu → Option (Ram × Outcome)
  | 0, _, mem, _, _, _ => some (mem, .error)
  | levels + 1, left, mem, b, p, cfg =>
    parseLoop (handleInclude files (parsePxefileTop files turns levels)) turns left mem b p cfg

theorem parsePxefileTop_resume (levels : ℕ) (mem : Ram) (b : ℕ) (cfg : Menu) :
    parsePxefileTop files turns levels mem b cfg = resume files turns levels turns mem b b cfg := by
  cases levels with
  | zero => rfl
  | succ levels => rfl

variable {files turns} {levels left n : ℕ} {lo done s junk : List UInt8} {cfg : Menu}

theorem drop_place (lo done s junk : List UInt8) :
    (lo ++ (done ++ s) ++ 0 :: junk).drop (lo ++ done).length = s ++ 0 :: junk := by
  have happ : lo ++ (done ++ s) ++ 0 :: junk = lo ++ done ++ (s ++ 0 :: junk) := by simp
  rw [happ, drop_left]

variable {r : Turn}

theorem turn_place (lo done junk : List UInt8) (hcut : ¬ Cut s cfg) (hturn : turn n s cfg = some r)
    (hn : n ≤ turns) :
    turn turns ((lo ++ (done ++ s) ++ 0 :: junk).drop (lo ++ done).length) cfg = some (r.on junk) := by
  rw [drop_place, turn_text s junk cfg turns hcut, turn_mono hn hturn]
  rfl

variable {rest : Text}

theorem pointer_place (lo done junk : List UInt8) (hrest : rest <:+ s) :
    ∃ done', done ++ s = done' ++ rest ∧
      (lo ++ done).length + ((s ++ 0 :: junk).length - (rest ++ 0 :: junk).length)
        = (lo ++ done').length := by
  obtain ⟨d, rfl⟩ := hrest
  refine ⟨done ++ d, by simp, ?_⟩
  simp
  lia

theorem parseLoop_stop {incl : Include} {mem : Ram} {b p : ℕ} {out : Outcome}
    (hturn : turn turns (mem.drop p) cfg = some r) (hout : r.stop cfg = some out) :
    parseLoop incl turns (left + 1) mem b p cfg = some (mem, out) := by
  unfold parseLoop
  rw [hturn]
  cases r with
  | eof | error | crash =>
    obtain rfl := Option.some.inj hout
    rfl
  | next rest cfg' => cases hout
  | incl menu path rest cfg' => cases hout

variable {cfg' : Menu}

theorem parseLoop_next {incl : Include} {mem : Ram} {b p : ℕ}
    (hturn : turn turns (mem.drop p) cfg = some (.next rest cfg')) :
    parseLoop incl turns (left + 1) mem b p cfg
      = parseLoop incl turns left mem b (p + ((mem.drop p).length - rest.length)) cfg' := by
  conv_lhs => unfold parseLoop
  rw [hturn]

theorem resume_stop {out : Outcome} (hcut : ¬ Cut s cfg) (hturn : turn n s cfg = some r)
    (hout : r.stop cfg = some out) (hn : n ≤ turns) :
    resume files turns (levels + 1) (left + 1) (lo ++ (done ++ s) ++ 0 :: junk) lo.length
      (lo ++ done).length cfg = some (lo ++ (done ++ s) ++ 0 :: junk, out) := by
  refine parseLoop_stop (turn_place lo done junk hcut hturn hn) ?_
  cases r with
  | eof | error | crash => exact hout
  | next rest cfg' => cases hout
  | incl menu path rest cfg' => cases hout

variable (files levels left lo done junk) in
theorem resume_next (hcut : ¬ Cut s cfg)
    (hturn : turn n s cfg = some (.next rest cfg')) (hn : n ≤ turns) :
    ∃ done', done ++ s = done' ++ rest ∧
      resume files turns (levels + 1) (left + 1) (lo ++ (done ++ s) ++ 0 :: junk) lo.length
          (lo ++ done).length cfg
        = resume files turns (levels + 1) left (lo ++ (done' ++ rest) ++ 0 :: junk) lo.length
          (lo ++ done').length cfg' := by
  obtain ⟨done', hdone, hlen⟩ := pointer_place lo done junk (turn_behind hturn)
  refine ⟨done', hdone, ?_⟩
  rw [← hdone]
  refine (parseLoop_next (turn_place lo done junk hcut hturn hn)).trans ?_
  rw [drop_place, hlen]
  rfl

def includeBase (menu : Bool) (mem : Ram) (b : ℕ) : ℕ :=
  if menu then b + align (strlen (mem.drop b) + 1) 4 else b + align (strlen (mem.drop b)) 4

variable {menu : Bool}

theorem includeBase_behind (lo junk : List UInt8) {t bytes : List UInt8} (ht : 0 ∉ t)
    (hplain : menu = false → t.length % 4 ≠ 0 ∨ content bytes = []) :
    lo.length + t.length < includeBase menu (lo ++ t ++ 0 :: junk) lo.length ∨
      includeBase menu (lo ++ t ++ 0 :: junk) lo.length = lo.length + t.length ∧
        content bytes = [] := by
  have hdrop : (lo ++ t ++ 0 :: junk).drop lo.length = t ++ 0 :: junk := by
    rw [append_assoc, drop_left]
  unfold includeBase
  rw [hdrop, strlen_text ht]
  cases menu with
  | true =>
    simp only [if_true, align]
    lia
  | false =>
    have halign : align t.length 4 = t.length ∨ t.length < align t.length 4 := by
      unfold align
      lia
    have hmod : t.length % 4 ≠ 0 → t.length < align t.length 4 := by
      unfold align
      lia
    simp only [Bool.false_eq_true, if_false]
    rcases hplain rfl with hne | hempty
    · have hlt := hmod hne
      lia
    · rcases halign with heq | hlt
      · exact .inr ⟨by lia, hempty⟩
      · lia

section Turns

variable {incl : Include} {mem mem' : Ram} {b p : ℕ} {menu : Bool} {path rest : Text} {cfg' : Menu}

theorem parseLoop_incl_ok (left : ℕ) {cfg'' : Menu}
    (hturn : turn turns (mem.drop p) cfg = some (.incl menu path rest cfg'))
    (hincl : incl mem cfg' path (includeBase menu mem b) = some (mem', .ok cfg'')) {p' : ℕ}
    (hp : p + ((mem.drop p).length - rest.length) = p') :
    parseLoop incl turns (left + 1) mem b p cfg
      = parseLoop incl turns left mem' b
          (if menu then p' + ((mem'.drop p').length - (eolOrEof (mem'.drop p')).length) else p')
          cfg'' := by
  subst hp
  conv_lhs => unfold parseLoop
  rw [hturn]
  unfold includeBase at hincl
  simp only [hincl]

theorem parseLoop_incl_fail {out : Outcome}
    (hturn : turn turns (mem.drop p) cfg = some (.incl menu path rest cfg'))
    (hincl : incl mem cfg' path (includeBase menu mem b) = some (mem', out))
    (hout : ∀ cfg'', out ≠ .ok cfg'') :
    parseLoop incl turns (left + 1) mem b p cfg = some (mem', out) := by
  unfold parseLoop
  rw [hturn]
  unfold includeBase at hincl
  simp only [hincl]
  cases out with
  | ok cfg'' => exact absurd rfl (hout cfg'')
  | error => rfl
  | crash => rfl

end Turns

theorem resume_missing {path : Text} (hcut : ¬ Cut s cfg)
    (hturn : turn n s cfg = some (.incl menu path rest cfg')) (hfile : files path = none)
    (hn : n ≤ turns) :
    resume files turns (levels + 1) (left + 1) (lo ++ (done ++ s) ++ 0 :: junk) lo.length
      (lo ++ done).length cfg = some (lo ++ (done ++ s) ++ 0 :: junk, .error) := by
  refine parseLoop_incl_fail (turn_place lo done junk hcut hturn hn) ?_ (fun _ h => by cases h)
  unfold handleInclude
  rw [hfile]

/- Behind `menu include` the rest of the line is skipped. -/
variable (left) in
theorem resume_incl {t path junk' : Text} {cfg'' : Menu}
    (hcut : ¬ Cut s cfg) (hturn : turn n s cfg = some (.incl menu path rest cfg')) (hn : n ≤ turns)
    (ht : t = done ++ s)
    (hincl : handleInclude files (parsePxefileTop files turns levels) (lo ++ t ++ 0 :: junk) cfg' path
        (includeBase menu (lo ++ t ++ 0 :: junk) lo.length)
      = some (lo ++ t ++ 0 :: junk', .ok cfg'')) :
    ∃ done', t = done' ++ (if menu then eolOrEof rest else rest) ∧
      resume files turns (levels + 1) (left + 1) (lo ++ t ++ 0 :: junk) lo.length
          (lo ++ done).length cfg
        = resume files turns (levels + 1) left (lo ++ t ++ 0 :: junk') lo.length
          (lo ++ done').length cfg'' := by
  have hplace := turn_place lo done junk hcut hturn hn
  obtain ⟨done₁, hdone₁, hlen₁⟩ := pointer_place lo done junk (turn_behind hturn)
  rw [← drop_place lo done s junk] at hlen₁
  have hloop := parseLoop_incl_ok left (hplace.trans rfl) (ht ▸ hincl) hlen₁
  have hdrop : (lo ++ t ++ 0 :: junk').drop (lo ++ done₁).length = rest ++ 0 :: junk' := by
    rw [ht, hdone₁, drop_place]
  rw [← ht, hdrop] at hloop
  cases menu with
  | false => exact ⟨done₁, ht.trans hdone₁, hloop⟩
  | true =>
    obtain ⟨done₂, hdone₂, hlen₂⟩ := pointer_place lo done₁ junk' (eolOrEof_suffix rest)
    refine ⟨done₂, (ht.trans hdone₁).trans hdone₂, hloop.trans ?_⟩
    rw [if_pos rfl, eolOrEof_text, hlen₂]
    rfl

end Loop

section Runs

variable {files : Text → Option (List UInt8)}

/- From `s` on, the code comes to `out` with any number of turns from some on, and what is in memory
up to the end of the file stays. -/
def Keeps (files : Text → Option (List UInt8)) (levels : ℕ) (t s : Text) (cfg : Menu)
    (out : Outcome) : Prop :=
  ∃ n, ∀ turns left, n ≤ turns → n ≤ left → ∀ lo done junk, t = done ++ s →
    ∃ junk', resume files turns levels left (lo ++ t ++ 0 :: junk) lo.length (lo ++ done).length cfg
      = some (lo ++ t ++ 0 :: junk', out)

variable {levels : ℕ} {cfg : Menu} {out : Outcome}

theorem handleInclude_keeps {n turns : ℕ} (lo junk : List UInt8) {t bytes : List UInt8} {path : Text} {menu : Bool} (ht : 0 ∉ t) (hfile : files path = some bytes)
    (hplain : menu = false → t.length % 4 ≠ 0 ∨ content bytes = []) (hn : n ≤ turns)
    (hinner : ∀ turns left, n ≤ turns → n ≤ left → ∀ lo done junk, content bytes = done ++ content bytes →
      ∃ junk', resume files turns levels left (lo ++ content bytes ++ 0 :: junk) lo.length
          (lo ++ done).length cfg
        = some (lo ++ content bytes ++ 0 :: junk', out)) :
    ∃ junk', handleInclude files (parsePxefileTop files turns levels) (lo ++ t ++ 0 :: junk) cfg path
        (includeBase menu (lo ++ t ++ 0 :: junk) lo.length)
      = some (lo ++ t ++ 0 :: junk', out) := by
  obtain ⟨lo', junk₁, hput, hlen, hkeep⟩ :=
    put_file lo t junk bytes (includeBase_behind lo junk ht hplain)
  obtain ⟨junk₂, hrun⟩ := hinner turns turns hn hn lo' [] junk₁ rfl
  obtain ⟨junk₃, hsame⟩ := hkeep junk₂
  refine ⟨junk₃, ?_⟩
  unfold handleInclude
  simp only [hfile]
  rw [hput, ← hlen, parsePxefileTop_resume]
  rw [append_nil] at hrun
  rw [hrun, hsame]

theorem Reads.keeps {t s : Text} (h : Reads (Steady files) files levels t s cfg out) (ht : 0 ∉ t) :
    Keeps files levels t s cfg out := by
  -- one statement after the other; an include reads two files
  induction h with
  | deep => exact ⟨0, fun _ _ _ _ lo done junk hdone => ⟨junk, rfl⟩⟩
  | @stop levels k t s cfg r out hstep hturn hout =>
    refine ⟨k + 1, fun turns left hturns hleft lo done junk hdone => ⟨junk, ?_⟩⟩
    obtain _ | left := left
    · lia
    rw [hdone]
    exact resume_stop hstep.1 hturn hout (by lia)
  | @next levels k t s rest cfg cfg' out hstep hturn hrest ih =>
    obtain ⟨n, ih⟩ := ih ht
    refine ⟨max k n + 1, fun turns left hturns hleft lo done junk hdone => ?_⟩
    obtain _ | left := left
    · lia
    obtain ⟨done', hdone', hstepped⟩ := resume_next files levels left lo done junk hstep.1 hturn
      (show k ≤ turns by lia)
    obtain ⟨junk', hrun⟩ := ih turns left (by lia) (by lia) lo done' junk (hdone.trans hdone')
    refine ⟨junk', ?_⟩
    rw [hdone, hstepped, ← hdone', ← hdone]
    exact hrun
  | @missing levels k t s rest path menu cfg cfg' hstep hturn hfile =>
    refine ⟨k + 1, fun turns left hturns hleft lo done junk hdone => ⟨junk, ?_⟩⟩
    obtain _ | left := left
    · lia
    rw [hdone]
    exact resume_missing hstep.1 hturn hfile (by lia)
  | @incl levels k t s rest path bytes menu cfg cfg' cfg'' out hstep hturn hfile hinner hrest ihi ihr =>
    obtain ⟨n₁, ihi⟩ := ihi (content_zero bytes)
    obtain ⟨n₂, ihr⟩ := ihr ht
    refine ⟨max k (max n₁ n₂) + 1, fun turns left hturns hleft lo done junk hdone => ?_⟩
    obtain _ | left := left
    · lia
    have hplain : menu = false → t.length % 4 ≠ 0 ∨ content bytes = [] := by
      rintro rfl
      exact hstep.2 _ _ _ _ _ hturn hfile
    obtain ⟨junk₁, hincl⟩ := handleInclude_keeps lo junk ht hfile hplain
      (show n₁ ≤ turns by lia) ihi
    obtain ⟨done', hdone', hstepped⟩ := resume_incl left hstep.1 hturn (by lia) hdone hincl
    obtain ⟨junk₂, hrun⟩ := ihr turns left (by lia) (by lia) lo done' junk₁ hdone'
    exact ⟨junk₂, hstepped.trans hrun⟩
  | @fail levels k t s rest path bytes menu cfg cfg' out hstep hturn hfile hinner hout ih =>
    obtain ⟨n, ih⟩ := ih (content_zero bytes)
    refine ⟨max k n + 1, fun turns left hturns hleft lo done junk hdone => ?_⟩
    obtain _ | left := left
    · lia
    have hplain : menu = false → t.length % 4 ≠ 0 ∨ content bytes = [] := by
      rintro rfl
      exact hstep.2 _ _ _ _ _ hturn hfile
    obtain ⟨junk', hincl⟩ := handleInclude_keeps lo junk ht hfile hplain
      (show n ≤ turns by lia) ih
    have hplace := turn_place lo done junk hstep.1 hturn (show k ≤ turns by lia)
    rw [← hdone] at hplace
    exact ⟨junk', parseLoop_incl_fail hplace hincl hout⟩

theorem parsePxefileTop_includes {t : Text} (ht : 0 ∉ t)
    (h : Reads (Steady files) files levels t t cfg out) :
    ∃ n, ∀ turns, n ≤ turns → ∀ lo junk,
      ∃ junk', parsePxefileTop files turns levels (lo ++ t ++ 0 :: junk) lo.length cfg
        = some (lo ++ t ++ 0 :: junk', out) := by
  obtain ⟨n, hrun⟩ := h.keeps ht
  refine ⟨n, fun turns hturns lo junk => ?_⟩
  obtain ⟨junk', hres⟩ := hrun turns turns hturns hturns lo [] junk rfl
  rw [parsePxefileTop_resume]
  rw [append_nil] at hres
  exact ⟨junk', hres⟩

/- `lo` is all that is below the file: neither an include of the file nor its whole run changes that or
the file, and both come to what the texts say. -/
theorem includes_keep_files {t : Text} (ht : 0 ∉ t) (levels : ℕ) (cfg : Menu) :
    (∀ menu path bytes out, files path = some bytes →
      (menu = false → t.length % 4 ≠ 0 ∨ content bytes = []) →
      Reads (Steady files) files levels (content bytes) (content bytes) cfg out →
      ∃ n, ∀ turns, n ≤ turns → ∀ lo junk,
        ∃ junk', handleInclude files (parsePxefileTop files turns levels) (lo ++ t ++ 0 :: junk) cfg
            path (includeBase menu (lo ++ t ++ 0 :: junk) lo.length)
          = some (lo ++ t ++ 0 :: junk', out)) ∧
    ∀ out, Reads (Steady files) files levels t t cfg out →
      ∃ n, ∀ turns, n ≤ turns → ∀ lo junk,
        ∃ junk', parsePxefileTop files turns levels (lo ++ t ++ 0 :: junk) lo.length cfg
          = some (lo ++ t ++ 0 :: junk', out) := by
  refine ⟨fun menu path bytes out hfile hplain hinner => ?_, fun out h => ?_⟩
  · obtain ⟨n, hrun⟩ := hinner.keeps (content_zero bytes)
    exact ⟨n, fun turns hturns lo junk => handleInclude_keeps lo junk ht hfile hplain hturns hrun⟩
  · exact parsePxefileTop_includes ht h

end Runs

section Example

def oneFile (bytes : List UInt8) : Text → Option (List UInt8) := fun path =>
  if path = chars "a" then some bytes else none

def named (names : List Text) : Menu := { emptyMenu with labels := names.map labelCreate }

theorem not_cut {s : Text} {cfg : Menu} (hmenu : (getToken s .keyword).1.type ≠ .menu)
    (hlabel : (getToken s .keyword).1.type ≠ .label) : ¬ Cut s cfg := by
  intro hcut
  cases hcut with
  | menu htok ht hcut =>
    rw [htok] at hmenu
    exact hmenu ht
  | label htok ht hname hcut =>
    rw [htok] at hlabel
    exact hlabel ht

theorem not_cut_nil (cfg : Menu) : ¬ Cut [] cfg := not_cut (by decide) (by decide)

theorem not_cut_include (cfg : Menu) : ¬ Cut (chars "include a\n") cfg :=
  not_cut (by decide +kernel) (by decide +kernel)

theorem not_cut_label (cfg : Menu) : ¬ Cut (chars "label x") cfg := by
  intro hcut
  have hmenu : (getToken (chars "label x") .keyword).1.type ≠ .menu := by decide +kernel
  have hnil : (getToken ([] : Text) .keyword).1.type ≠ .menu := by decide
  cases hcut with
  | menu htok ht hcut =>
    rw [htok] at hmenu
    exact hmenu ht
  | label htok ht hname hcut =>
    have hrest : (getToken (chars "label x") .keyword).2 = chars " x" := by decide +kernel
    have hx : (parseSliteral (chars " x")).2 = [] := by decide +kernel
    rw [htok] at hrest
    rw [← hrest, hname] at hx
    dsimp only at hx
    subst hx
    cases hcut with
    | menu htok ht hcut =>
      rw [htok] at hnil
      exact hnil ht
    | later hitem hcut =>
      rw [labelItem_eof [] _ _ (by decide)] at hitem
      cases hitem

theorem reads_label : Reads (Steady (oneFile (chars "label x"))) (oneFile (chars "label x")) 15
    (chars "label x") (chars "label x") emptyMenu (.ok (named [chars "x"])) := by
  have hlen : (chars "label x").length % 4 ≠ 0 := by decide +kernel
  have hturn : turn 1 (chars "label x") emptyMenu = some (.next [] (named [chars "x"])) := by
    decide +kernel
  refine .next ⟨not_cut_label _, fun _ _ _ _ _ _ _ => .inl hlen⟩ hturn ?_
  exact .stop ⟨not_cut_nil _, fun _ _ _ _ _ _ _ => .inl hlen⟩ (turn_eof [] _ 0 (by decide)) rfl

theorem includes_keep_files_label :
    ∃ n, ∀ turns, n ≤ turns → ∀ lo junk,
      ∃ junk', parsePxefileTop (oneFile (chars "label x")) turns 16
          (lo ++ chars "include a\n" ++ 0 :: junk) lo.length emptyMenu
        = some (lo ++ chars "include a\n" ++ 0 :: junk', .ok (named [chars "x"])) := by
  have hlen : (chars "include a\n").length % 4 ≠ 0 := by decide +kernel
  have hturn : turn 0 (chars "include a\n") emptyMenu
      = some (.incl false (chars "a") [10] emptyMenu) := by decide +kernel
  have heol : turn 0 [10] (named [chars "x"]) = some (.next [] (named [chars "x"])) := by
    decide +kernel
  have hfile : oneFile (chars "label x") (chars "a") = some (chars "label x") := by decide +kernel
  have hcontent : content (chars "label x") = chars "label x" := by decide +kernel
  refine (includes_keep_files (by decide +kernel) 16 emptyMenu).2 _ ?_
  refine .incl ⟨not_cut_include _, fun _ _ _ _ _ _ _ => .inl hlen⟩ hturn hfile
    (hcontent.symm ▸ reads_label) ?_
  refine .next ⟨?_, fun _ _ _ _ _ _ _ => .inl hlen⟩ heol ?_
  · exact not_cut (by decide +kernel) (by decide +kernel)
  · exact .stop ⟨not_cut_nil _, fun _ _ _ _ _ _ _ => .inl hlen⟩ (turn_eof [] _ 0 (by decide)) rfl

/- A file of 20 characters: its NUL is overwritten, and the label behind it is read again. -/
theorem parsePxefile_overwrites :
    Reads (fun _ _ _ => True) (oneFile (chars "label sub\n")) 16 (chars "include a\nlabel top\n")
        (chars "include a\nlabel top\n") emptyMenu (.ok (named [chars "sub", chars "top"])) ∧
      (parsePxefile (oneFile (chars "label sub\n")) 10 (chars "include a\nlabel top\n" ++ [0]) 0)
        = some (chars "include a\nlabel top\nlabel sub\n" ++ [0],
            .ok (named [chars "sub", chars "top", chars "sub"])) := by
  have hturn : turn 0 (chars "include a\nlabel top\n") emptyMenu
      = some (.incl false (chars "a") (chars "\nlabel top\n") emptyMenu) := by decide +kernel
  have heol : turn 0 (chars "\nlabel top\n") (named [chars "sub"])
      = some (.next (chars "label top\n") (named [chars "sub"])) := by decide +kernel
  have htop : turn 3 (chars "label top\n") (named [chars "sub"])
      = some (.next [] (named [chars "sub", chars "top"])) := by decide +kernel
  have hfile : oneFile (chars "label sub\n") (chars "a") = some (chars "label sub\n") := by
    decide +kernel
  have hsub : turn 3 (content (chars "label sub\n")) emptyMenu
      = some (.next [] (named [chars "sub"])) := by decide +kernel
  have hend : ∀ cfg, turn 0 [] cfg = some .eof := fun cfg => turn_eof [] cfg 0 (by decide)
  refine ⟨?_, by decide +kernel⟩
  refine .incl trivial hturn hfile (.next trivial hsub (.stop trivial (hend _) rfl)) ?_
  exact .next trivial heol (.next trivial htop (.stop trivial (hend _) rfl))

end Example

end UBoot.Pxe
