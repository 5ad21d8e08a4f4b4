import Mathlib.Data.List.Infix
import Mathlib.Data.List.Nodup

/-!
# The list of DFU entities (drivers/dfu/dfu.c)

`dfu_config_entities` cuts a text at its semicolons and links one entity for each piece, all in one
block from `calloc`. `dfu_get_alt` looks a name up. A block is a number that is never used again.
-/

namespace UBoot.Dfu.Entities

open List Option

abbrev Text := List UInt8

def enodev : ℤ := -19
def dfuNameSize : ℕ := 32
def slash : UInt8 := 47

structure Entity where
  block : ℕ
  name : Text
  alt : ℕ
deriving DecidableEq, Repr

structure State where
  dfuList : List Entity
  dfuAltNum : ℕ
  altNumCnt : ℕ
  -- how many blocks `calloc` gave
  blocks : ℕ
  freed : List ℕ

def init : State := ⟨[], 0, 0, 0, []⟩

/- A call of `dfu_config_entities`. What `calloc` and the `dfu_fill_entity_*` of the interface answer
is outside of this code; the latter see the position and what is behind the name. -/
structure Config where
  env : Text
  noNul : (0 : UInt8) ∉ env
  alloc : Bool
  fill : ℕ → Option Text → Bool

def strsep (ct : UInt8) : Option Text → Option (Text × Option Text)
  | none => none
  | some s => some (s.takeWhile (· ≠ ct), match s.dropWhile (· ≠ ct) with
    | [] => none
    | _ :: rest => some rest)

def charDiff (a b : UInt8) : ℤ := ((a.toNat : ℤ) - b.toNat).bmod 256

def strncmp : ℕ → Text → Text → ℤ
  | 0, _, _ => 0
  | _ + 1, [], [] => 0
  | _ + 1, [], b :: _ => charDiff 0 b
  | _ + 1, a :: _, [] => charDiff a 0
  | n + 1, a :: cs, b :: ct => if charDiff a b ≠ 0 then charDiff a b else strncmp n cs ct

/- Where `s2` is first, as an offset. -/
def strstrAt (s2 : Text) : ℕ → Text → Option ℕ
  | offset, [] => if s2 = [] then some offset else none
  | offset, c :: s1 =>
    if (c :: s1).length < s2.length then none
    else if (c :: s1).take s2.length = s2 then some offset
    else strstrAt s2 (offset + 1) s1

def strstr (s1 s2 : Text) : Option ℕ := strstrAt s2 0 s1

def dfuFindAltNum : Text → ℕ
  | [] => 1
  | c :: s => (if c = 59 then 1 else 0) + dfuFindAltNum s

/- `none`: `strcpy` leaves the name. -/
def dfuFillEntity (c : Config) (block i : ℕ) (s : Text) (alt : ℕ) : Option (ℤ × Entity) :=
  match strsep 32 (some s) with
  | none => none
  | some (st, s) =>
    if dfuNameSize ≤ st.length then none
    else some (if c.fill i s then 0 else -1, ⟨block, st, alt⟩)

def link (s : State) (e : Entity) : State :=
  { s with dfuList := s.dfuList ++ [e], altNumCnt := s.altNumCnt + 1 }

def configLoop (c : Config) (block : ℕ) : ℕ → ℕ → Option Text → State → Option (ℤ × State)
  | 0, _, _, s => some (0, s)
  | n + 1, i, env, s =>
    match strsep 59 env with
    | none => none
    | some (piece, env) =>
      match dfuFillEntity c block i piece s.altNumCnt with
      | none => none
      | some (ret, e) =>
        if ret ≠ 0 then some (-1, { s with freed := block :: s.freed })
        else configLoop c block n (i + 1) env (link s e)

def dfuConfigEntities (c : Config) (s : State) : Option (ℤ × State) :=
  let s := { s with dfuAltNum := dfuFindAltNum c.env }
  if c.alloc = false then some (-1, s)
  else configLoop c s.blocks s.dfuAltNum 0 (some c.env) { s with blocks := s.blocks + 1 }

def Live (s : State) : Prop := ∀ e ∈ s.dfuList, e.block ∉ s.freed

instance (s : State) : Decidable (Live s) := inferInstanceAs (Decidable (∀ _ ∈ _, _))

/- `none`: it reads a freed entity. -/
def dfuFreeEntities (s : State) : Option State :=
  if Live s then
    some { s with
      dfuList := [], altNumCnt := 0,
      freed := (s.dfuList.head?.map (·.block)).toList ++ s.freed }
  else none

def nameMatches (path name : Text) : Bool :=
  if path.head? ≠ some slash then decide (strncmp path.length path name = 0)
  else
    match strstr path name with
    | none => false
    | some str => decide (path.length = str + name.length)

def dfuGetAlt (name : Text) : List Entity → ℤ
  | [] => enodev
  | dfu :: rest => if nameMatches dfu.name name then dfu.alt else dfuGetAlt name rest

inductive Call where
  | config (c : Config)
  | free

def step (s : State) : Call → Option State
  | .config c => (dfuConfigEntities c s).map (·.2)
  | .free => dfuFreeEntities s

def run : List Call → State → Option State
  | [], s => some s
  | call :: calls, s => (step s call).bind (run calls)

def AllOrNothing (c : Config) (s : State) : Prop :=
  ∃ ret s', dfuConfigEntities c s = some (ret, s') ∧
    (ret ≠ 0 → s'.dfuList = s.dfuList ∧ Live s' ∧ s'.altNumCnt = s.altNumCnt)

/- An entity's name is this one, or is an absolute path with it behind the last slash. -/
def Named (path name : Text) : Prop :=
  path = name ∨ path.head? = some slash ∧ slash ∉ name ∧ slash :: name <:+ path

instance (path name : Text) : Decidable (Named path name) :=
  inferInstanceAs (Decidable (_ ∨ _ ∧ _ ∧ _))

def resolve (name : Text) (list : List Entity) : ℤ :=
  match list.find? fun e => decide (Named e.name name) with
  | none => enodev
  | some e => e.alt

def entries (c : Config) : List Text := c.env.splitOn 59

def entryName (entry : Text) : Text := entry.takeWhile (· ≠ 32)

def arguments (entry : Text) : Option Text :=
  match entry.dropWhile (· ≠ 32) with
  | [] => none
  | _ :: rest => some rest

def Fits (entry : Text) : Prop := (entryName entry).length < dfuNameSize

def FirstRefused (c : Config) : Prop :=
  ∃ entry rest, entries c = entry :: rest ∧ Fits entry ∧ c.fill 0 (arguments entry) = false

def AllAccepted (c : Config) : Prop :=
  ∀ i entry, (entries c)[i]? = some entry → Fits entry ∧ c.fill i (arguments entry) = true

/- `name` is also in the path before its end. -/
def OccursBefore (name path : Text) : Prop := ∃ k < path.length - name.length, name <+: path.drop k

/- The names that the comparison gets wrong. Of a relative path it sees as much as there is, and it
takes an absolute one where the first place of the name is its end. -/
def Mistaken (path name : Text) : Prop :=
  if path.head? = some slash then
    Named path name ∧ OccursBefore name path ∨
      name <:+ path ∧ ¬Named path name ∧ ¬OccursBefore name path
  else path <+: name ∧ path ≠ name

section Names

variable {path name s t : Text}

theorem charDiff_ne_zero {a b : UInt8} (h : a ≠ b) : charDiff a b ≠ 0 := by
  have hne : a.toNat ≠ b.toNat := fun heq => h (UInt8.toNat_inj.mp heq)
  have ha := a.toNat_lt
  have hb := b.toNat_lt
  unfold charDiff
  rw [Int.bmod_def]
  split <;> lia

theorem charDiff_self (a : UInt8) : charDiff a a = 0 := by
  rw [charDiff, Int.sub_self]
  rfl

theorem strncmp_eq_zero_iff (hs : (0 : UInt8) ∉ s) : strncmp s.length s t = 0 ↔ s <+: t := by
  induction s generalizing t with
  | nil => exact iff_of_true rfl ( nil_prefix)
  | cons a s ih =>
    rw [mem_cons, not_or] at hs
    obtain ⟨ha, hs⟩ := hs
    rw [length_cons]
    cases t with
    | nil =>
      rw [strncmp]
      exact iff_of_false (charDiff_ne_zero (Ne.symm ha)) (by simp)
    | cons b t =>
      rw [strncmp, cons_prefix_cons]
      by_cases hab : a = b
      · rw [hab, charDiff_self, if_neg (not_not.mpr rfl), ih hs]
        exact ⟨fun h => ⟨rfl, h⟩, fun h => h.2⟩
      · have hdiff := charDiff_ne_zero hab
        rw [if_pos hdiff]
        exact iff_of_false hdiff fun h => hab h.1

theorem occursBefore_cons {c : UInt8} (hno : ¬name <+: c :: path) :
    OccursBefore name (c :: path) ↔ OccursBefore name path := by
  unfold OccursBefore
  rw [length_cons]
  constructor
  · rintro ⟨k, hk, hpre⟩
    cases k with
    | zero => exact absurd hpre hno
    | succ k => exact ⟨k, by lia, hpre⟩
  · rintro ⟨k, hk, hpre⟩
    exact ⟨k + 1, by lia, hpre⟩

theorem strstrAt_end (offset : ℕ) :
    (∃ str, strstrAt name offset path = some str ∧ offset + path.length = str + name.length) ↔
      name <:+ path ∧ ¬OccursBefore name path := by
  induction path generalizing offset with
  | nil =>
    unfold strstrAt OccursBefore
    cases name with
    | nil => simp
    | cons a name => simp
  | cons c path ih =>
    unfold strstrAt
    by_cases hlen : (c :: path).length < name.length
    · rw [if_pos hlen]
      refine iff_of_false (by simp) fun h => ?_
      have := h.1.length_le
      lia
    rw [if_neg hlen]
    rw [length_cons] at hlen ⊢
    have htake : (c :: path).take name.length = name ↔ name <+: c :: path := by
      rw [prefix_iff_eq_take, eq_comm]
    by_cases hpre : name <+: c :: path
    · rw [if_pos (htake.mpr hpre)]
      constructor
      · rintro ⟨str, hstr, hend⟩
        have hwhole : name = c :: path := by
          refine hpre.eq_of_length ?_
          have := some.inj hstr
          rw [length_cons]
          lia
        refine ⟨hwhole ▸ suffix_rfl, fun hbefore => ?_⟩
        obtain ⟨k, hk, -⟩ := hbefore
        rw [hwhole, Nat.sub_self] at hk
        lia
      · rintro ⟨-, hfirst⟩
        refine ⟨offset, rfl, ?_⟩
        by_contra hend
        refine hfirst ⟨0, ?_, hpre⟩
        rw [length_cons]
        lia
    · have hne : name ≠ c :: path := fun h => hpre (h ▸ prefix_rfl)
      have hsuffix : name <:+ c :: path ↔ name <:+ path := suffix_cons_iff.trans (or_iff_right hne)
      rw [if_neg (fun h => hpre (htake.mp h)), hsuffix, occursBefore_cons hpre, ← ih (offset + 1)]
      refine exists_congr fun str => and_congr_right fun _ => ?_
      lia

theorem Named.suffix (h : Named path name) : name <:+ path := by
  obtain rfl | ⟨-, -, hlast⟩ := h
  · exact suffix_rfl
  · exact (suffix_cons slash name).trans hlast

theorem nameMatches_relative (hpath : path.head? ≠ some slash) (hnul : (0 : UInt8) ∉ path) :
    nameMatches path name = true ↔ path <+: name := by
  rw [nameMatches, if_pos hpath, decide_eq_true_eq, strncmp_eq_zero_iff hnul]

theorem nameMatches_absolute (hpath : path.head? = some slash) :
    nameMatches path name = true ↔ name <:+ path ∧ ¬OccursBefore name path := by
  rw [nameMatches, if_neg (not_not.mpr hpath), ← strstrAt_end 0, Nat.zero_add, strstr]
  cases hstr : strstrAt name 0 path with
  | none => simp
  | some str => simp

theorem named_relative (hpath : path.head? ≠ some slash) : Named path name ↔ path = name :=
  or_iff_left fun h => hpath h.1

theorem mistaken_iff (hnul : (0 : UInt8) ∉ path) :
    Mistaken path name ↔ nameMatches path name ≠ decide (Named path name) := by
  rw [ne_eq, Bool.eq_iff_iff, decide_eq_true_eq]
  unfold Mistaken
  by_cases hpath : path.head? = some slash
  · rw [if_pos hpath, nameMatches_absolute hpath]
    have hsuffix := @Named.suffix path name
    tauto
  · rw [if_neg hpath, nameMatches_relative hpath hnul, named_relative hpath]
    have hsame : path = name → path <+: name := fun h => h ▸ prefix_rfl
    tauto

end Names

theorem find?_eq_iff {α : Type*} (p q : α → Bool) (l : List α) :
    l.find? p = l.find? q ↔
      ∀ before e after, l = before ++ e :: after → p e ≠ q e → ∃ d ∈ before, q d = true := by
  induction l with
  | nil => simp
  | cons a l ih =>
    by_cases hpq : p a = q a
    · cases hq : q a with
      | true =>
        rw [find?_cons_of_pos (hpq.trans hq), find?_cons_of_pos hq]
        refine iff_of_true rfl fun before e after hsplit hne => ?_
        cases before with
        | nil => exact absurd (List.cons.inj hsplit).1 fun h => hne (h ▸ hpq)
        | cons b before => exact ⟨b, mem_cons_self, (List.cons.inj hsplit).1 ▸ hq⟩
      | false =>
        have hqf : ¬q a = true := by rw [hq]; exact Bool.false_ne_true
        rw [find?_cons_of_neg (hpq ▸ hqf), find?_cons_of_neg hqf, ih]
        constructor
        · intro h before e after hsplit hne
          cases before with
          | nil => exact absurd (List.cons.inj hsplit).1 fun h => hne (h ▸ hpq)
          | cons b before =>
            obtain ⟨d, hd, hqd⟩ := h before e after (List.cons.inj hsplit).2 hne
            exact ⟨d, mem_cons_of_mem _ hd, hqd⟩
        · intro h before e after hsplit hne
          obtain ⟨d, hd, hqd⟩ := h (a :: before) e after (by rw [hsplit, cons_append]) hne
          obtain rfl | hd := mem_cons.mp hd
          · exact absurd hqd hqf
          · exact ⟨d, hd, hqd⟩
    · refine iff_of_false (fun hfind => ?_) fun h => ?_
      · cases hp : p a with
        | true =>
          rw [find?_cons_of_pos hp] at hfind
          exact hpq (hp.trans (find?_some hfind.symm).symm)
        | false =>
          have hq : q a = true := by
            rw [hp] at hpq
            exact eq_true_of_ne_false (Ne.symm hpq)
          rw [find?_cons_of_pos hq] at hfind
          exact hpq ((find?_some hfind).trans hq.symm)
      · obtain ⟨d, hd, -⟩ := h [] a l rfl hpq
        exact not_mem_nil hd

theorem dfuGetAlt_eq (name : Text) (list : List Entity) :
    dfuGetAlt name list = match list.find? fun e => nameMatches e.name name with
      | none => enodev
      | some e => (e.alt : ℤ) := by
  induction list with
  | nil => rfl
  | cons e list ih =>
    rw [dfuGetAlt, find?_cons]
    cases hname : nameMatches e.name name with
    | true => rfl
    | false => simpa using ih

theorem dfuGetAlt_eq_resolve_iff {name : Text} {list : List Entity}
    (halt : (list.map (·.alt)).Nodup) :
    dfuGetAlt name list = resolve name list ↔
      (list.find? fun e => nameMatches e.name name) =
        list.find? fun e => decide (Named e.name name) := by
  have hinj := inj_on_of_nodup_map halt
  rw [dfuGetAlt_eq, resolve]
  cases hcode : list.find? fun e => nameMatches e.name name with
  | none =>
    cases hspec : list.find? fun e => decide (Named e.name name) with
    | none => simp
    | some e => simp [enodev]
  | some d =>
    cases hspec : list.find? fun e => decide (Named e.name name) with
    | none => simp [enodev]
    | some e =>
      simp only [some_inj]
      constructor
      · intro h
        exact hinj (mem_of_find?_eq_some hcode) (mem_of_find?_eq_some hspec) (by exact_mod_cast h)
      · intro h
        rw [h]

theorem dfuGetAlt_iff {list : List Entity} (halt : (list.map (·.alt)).Nodup)
    (hnul : ∀ e ∈ list, (0 : UInt8) ∉ e.name) (name : Text) :
    dfuGetAlt name list = resolve name list ↔
      ∀ before e after, list = before ++ e :: after → Mistaken e.name name →
        ∃ d ∈ before, Named d.name name := by
  rw [dfuGetAlt_eq_resolve_iff halt, find?_eq_iff]
  refine forall_congr' fun before => forall_congr' fun e => forall_congr' fun after =>
    forall_congr' fun hsplit => ?_
  have hmem : e ∈ list := by
    rw [hsplit]
    exact mem_append_right _ mem_cons_self
  rw [mistaken_iff (hnul e hmem)]
  simp only [decide_eq_true_eq]

variable {ct : UInt8} {s : Text}

theorem strsep_of_not_mem (h : ct ∉ s) : strsep ct (some s) = some (s, none) := by
  have hall : ∀ x ∈ s, decide (x ≠ ct) = true := fun x hx =>
    decide_eq_true fun heq => h (heq ▸ hx)
  have htake : (s ++ []).takeWhile _ = s ++ _ := takeWhile_append_of_pos hall
  have hdrop : (s ++ []).dropWhile _ = _ := dropWhile_append_of_pos hall
  rw [append_nil, takeWhile_nil, append_nil] at htake
  rw [append_nil, dropWhile_nil] at hdrop
  rw [strsep, hdrop, htake]

theorem strsep_append (h : ct ∉ s) (rest : Text) :
    strsep ct (some (s ++ ct :: rest)) = some (s, some rest) := by
  have hall : ∀ x ∈ s, decide (x ≠ ct) = true := fun x hx =>
    decide_eq_true fun heq => h (heq ▸ hx)
  rw [strsep, takeWhile_append_of_pos hall, dropWhile_append_of_pos hall]
  simp

theorem dfuFindAltNum_of_not_mem (h : (59 : UInt8) ∉ s) : dfuFindAltNum s = 1 := by
  induction s with
  | nil => rfl
  | cons c s ih =>
    rw [mem_cons, not_or] at h
    rw [dfuFindAltNum, if_neg (Ne.symm h.1), ih h.2]

theorem dfuFindAltNum_append (h : (59 : UInt8) ∉ s) (rest : Text) :
    dfuFindAltNum (s ++ 59 :: rest) = 1 + dfuFindAltNum rest := by
  induction s with
  | nil => rfl
  | cons c s ih =>
    rw [mem_cons, not_or] at h
    rw [cons_append, dfuFindAltNum, if_neg (Ne.symm h.1), ih h.2, Nat.zero_add]

def fillAll (c : Config) (block : ℕ) : ℕ → List Text → State → Option (ℤ × State)
  | _, [], s => some (0, s)
  | i, entry :: rest, s =>
    match dfuFillEntity c block i entry s.altNumCnt with
    | none => none
    | some (ret, e) =>
      if ret ≠ 0 then some (-1, { s with freed := block :: s.freed })
      else fillAll c block (i + 1) rest (link s e)

theorem splitOn_pieces {P : Text → List Text → Prop}
    (hlast : ∀ piece, ct ∉ piece → P piece [piece])
    (hnext : ∀ piece rest, ct ∉ piece → P rest (rest.splitOn ct) →
      P (piece ++ ct :: rest) (piece :: rest.splitOn ct)) (text : Text) :
    P text (text.splitOn ct) := by
  induction hn : text.length using Nat.strong_induction_on generalizing text with
  | _ n ih =>
    by_cases hmem : ct ∈ text
    · obtain ⟨piece, rest, rfl, hpiece⟩ := eq_append_cons_of_mem hmem
      have hshorter : rest.length < n := by
        rw [← hn, length_append, length_cons]
        lia
      rw [splitOn_append_cons_self_of_not_mem hpiece]
      exact hnext piece rest hpiece (ih rest.length hshorter rest rfl)
    · rw [splitOn_eq_singleton hmem]
      exact hlast text hmem

theorem configLoop_eq (c : Config) (block i : ℕ) (text : Text) (s : State) :
    configLoop c block (dfuFindAltNum text) i (some text) s = fillAll c block i (text.splitOn 59) s := by
  refine splitOn_pieces (P := fun text l => ∀ i s,
    configLoop c block (dfuFindAltNum text) i (some text) s = fillAll c block i l s)
    (fun piece hpiece i s => ?_) (fun piece rest hpiece ih i s => ?_) text i s
  · rw [dfuFindAltNum_of_not_mem hpiece, configLoop, strsep_of_not_mem hpiece, fillAll]
    rfl
  · rw [dfuFindAltNum_append hpiece, Nat.add_comm, configLoop, strsep_append hpiece, fillAll]
    simp only [ih]

section Linked

variable {c : Config} {block i : ℕ} {entry : Text} {s s' : State} {ret : ℤ}

theorem dfuFillEntity_eq (c : Config) (block i : ℕ) (entry : Text) (alt : ℕ) :
    dfuFillEntity c block i entry alt =
      if dfuNameSize ≤ (entryName entry).length then none
      else some (if c.fill i (arguments entry) then 0 else -1, ⟨block, entryName entry, alt⟩) := rfl

theorem fillAll_cons (rest : List Text) :
    fillAll c block i (entry :: rest) s =
      if dfuNameSize ≤ (entryName entry).length then none
      else if c.fill i (arguments entry) = true then
        fillAll c block (i + 1) rest (link s ⟨block, entryName entry, s.altNumCnt⟩)
      else some (-1, { s with freed := block :: s.freed }) := by
  rw [fillAll, dfuFillEntity_eq]
  by_cases hfits : dfuNameSize ≤ (entryName entry).length
  · rw [if_pos hfits, if_pos hfits]
  · rw [if_neg hfits, if_neg hfits]
    cases c.fill i (arguments entry) with
    | true => rfl
    | false => rfl

/- What holds between any two calls: the alternate settings are counted from 0, blocks are new and
names are strings. -/
structure Sound (s : State) : Prop where
  alts : s.dfuList.map (·.alt) = List.range s.altNumCnt
  blocks : ∀ e ∈ s.dfuList, e.block < s.blocks
  freed : ∀ block ∈ s.freed, block < s.blocks
  noNul : ∀ e ∈ s.dfuList, (0 : UInt8) ∉ e.name

theorem Sound.init : Sound init :=
  ⟨rfl, by simp [Entities.init], by simp [Entities.init], by simp [Entities.init]⟩

theorem Sound.link {e : Entity} (h : Sound s) (halt : e.alt = s.altNumCnt)
    (hblock : e.block < s.blocks) (hname : (0 : UInt8) ∉ e.name) : Sound (link s e) := by
  have hmem : ∀ {P : Entity → Prop}, (∀ d ∈ s.dfuList, P d) → P e → ∀ d ∈ s.dfuList ++ [e], P d := by
    intro P hall he d hd
    obtain hd | hd := mem_append.mp hd
    · exact hall d hd
    · exact mem_singleton.mp hd ▸ he
  refine ⟨?_, hmem h.blocks hblock, h.freed, hmem h.noNul hname⟩
  simp only [Entities.link]
  rw [map_append, h.alts, range_succ, map_singleton, halt]

variable {l : List Text}

theorem fillAll_sound (h : Sound s) (hblock : block < s.blocks)
    (hnul : ∀ entry ∈ l, (0 : UInt8) ∉ entry) (hfill : fillAll c block i l s = some (ret, s')) :
    Sound s' := by
  induction l generalizing i s with
  | nil =>
    simp only [fillAll, some_inj, Prod.mk.injEq] at hfill
    exact hfill.2 ▸ h
  | cons entry rest ih =>
    rw [fillAll_cons] at hfill
    split at hfill
    · exact absurd hfill (by simp)
    split at hfill
    · refine ih (h.link rfl hblock fun h0 => ?_) hblock
        (fun e he => hnul e (mem_cons_of_mem _ he)) hfill
      exact hnul entry mem_cons_self ((takeWhile_sublist _).subset h0)
    · simp only [some_inj, Prod.mk.injEq] at hfill
      rw [← hfill.2]
      refine ⟨h.alts, h.blocks, fun b hb => ?_, h.noNul⟩
      obtain rfl | hb := mem_cons.mp hb
      · exact hblock
      · exact h.freed b hb

theorem fillAll_extends (hfill : fillAll c block i l s = some (ret, s')) : s.dfuList <+: s'.dfuList := by
  induction l generalizing i s with
  | nil =>
    simp only [fillAll, some_inj, Prod.mk.injEq] at hfill
    rw [← hfill.2]
  | cons entry rest ih =>
    rw [fillAll_cons] at hfill
    split at hfill
    · exact absurd hfill (by simp)
    split at hfill
    · exact (prefix_append _ _).trans (ih hfill)
    · simp only [some_inj, Prod.mk.injEq] at hfill
      rw [← hfill.2]

/- The entries of a list from position `i` on are accepted. -/
def AcceptedFrom (c : Config) (i : ℕ) (l : List Text) : Prop :=
  ∀ j entry, l[j]? = some entry → Fits entry ∧ c.fill (i + j) (arguments entry) = true

theorem acceptedFrom_cons {rest : List Text} :
    AcceptedFrom c i (entry :: rest) ↔
      (Fits entry ∧ c.fill i (arguments entry) = true) ∧ AcceptedFrom c (i + 1) rest := by
  constructor
  · intro h
    refine ⟨h 0 entry rfl, fun j e he => ?_⟩
    rw [Nat.add_right_comm]
    exact h (j + 1) e he
  · rintro ⟨hentry, hrest⟩ j e he
    cases j with
    | zero => exact some.inj he ▸ hentry
    | succ j =>
      have := hrest j e he
      rwa [Nat.add_right_comm] at this

theorem fillAll_succeeds_iff : (∃ s', fillAll c block i l s = some (0, s')) ↔ AcceptedFrom c i l := by
  induction l generalizing i s with
  | nil => exact iff_of_true ⟨s, rfl⟩ fun j e he => by simp at he
  | cons entry rest ih =>
    rw [fillAll_cons, acceptedFrom_cons, ← ih (s := link s ⟨block, entryName entry, s.altNumCnt⟩)]
    unfold Fits
    by_cases hfits : dfuNameSize ≤ (entryName entry).length
    · rw [if_pos hfits]
      refine iff_of_false (by simp) fun h => ?_
      have := h.1.1
      lia
    · rw [if_neg hfits]
      by_cases hfill : c.fill i (arguments entry) = true
      · rw [if_pos hfill]
        exact ⟨fun h => ⟨⟨by lia, hfill⟩, h⟩, fun h => h.2⟩
      · rw [if_neg hfill]
        exact iff_of_false (by simp) fun h => hfill h.1.2

end Linked

section Config

variable {c : Config} {s s' : State} {ret : ℤ}

def started (c : Config) (s : State) : State :=
  { s with dfuAltNum := dfuFindAltNum c.env, blocks := s.blocks + 1 }

theorem dfuConfigEntities_eq (c : Config) (s : State) :
    dfuConfigEntities c s = if c.alloc = false then
        some (-1, { s with dfuAltNum := dfuFindAltNum c.env })
      else fillAll c s.blocks 0 (entries c) (started c s) := by
  rw [dfuConfigEntities, entries, ← configLoop_eq]
  rfl

theorem Sound.started (h : Sound s) (c : Config) : Sound (started c s) :=
  ⟨h.alts, fun e he => Nat.lt_succ_of_lt (h.blocks e he),
    fun b hb => Nat.lt_succ_of_lt (h.freed b hb), h.noNul⟩

theorem entries_noNul (c : Config) : ∀ entry ∈ entries c, (0 : UInt8) ∉ entry := by
  refine splitOn_pieces (P := fun text l => (0 : UInt8) ∉ text → ∀ entry ∈ l, (0 : UInt8) ∉ entry)
    (fun piece _ hnul entry hentry => ?_) (fun piece rest _ ih hnul entry hentry => ?_) c.env c.noNul
  · exact mem_singleton.mp hentry ▸ hnul
  · rw [mem_append, mem_cons, not_or, not_or] at hnul
    obtain rfl | hentry := mem_cons.mp hentry
    · exact hnul.1
    · exact ih hnul.2.2 entry hentry

theorem dfuConfigEntities_sound (h : Sound s) (hcall : dfuConfigEntities c s = some (ret, s')) :
    Sound s' := by
  rw [dfuConfigEntities_eq] at hcall
  split at hcall
  · simp only [some_inj, Prod.mk.injEq] at hcall
    exact hcall.2 ▸ ⟨h.alts, h.blocks, h.freed, h.noNul⟩
  · exact fillAll_sound (h.started c) (Nat.lt_succ_self _) (entries_noNul c) hcall

theorem linked_allOrNothing_iff {block i : ℕ} {l : List Text} {s₀ : State} {e : Entity}
    (hlinked : s.dfuList = s₀.dfuList ++ [e]) :
    (∃ ret s', fillAll c block i l s = some (ret, s') ∧
      (ret ≠ 0 → s'.dfuList = s₀.dfuList ∧ Live s' ∧ s'.altNumCnt = s₀.altNumCnt)) ↔
      AcceptedFrom c i l := by
  rw [← fillAll_succeeds_iff]
  constructor
  · rintro ⟨ret, s', hfill, hkeeps⟩
    by_cases hret : ret = 0
    · exact ⟨s', hret ▸ hfill⟩
    · have hlonger := (fillAll_extends hfill).length_le
      rw [(hkeeps hret).1, hlinked, length_append, length_singleton] at hlonger
      lia
  · rintro ⟨s', hfill⟩
    exact ⟨0, s', hfill, fun h0 => absurd rfl h0⟩

theorem allOrNothing_iff (h : Sound s) (hlive : Live s) :
    AllOrNothing c s ↔ c.alloc = false ∨ FirstRefused c ∨ AllAccepted c := by
  have hall : AllAccepted c ↔ AcceptedFrom c 0 (entries c) := by
    unfold AllAccepted AcceptedFrom
    simp only [Nat.zero_add]
  rw [hall]
  unfold AllOrNothing FirstRefused
  rw [dfuConfigEntities_eq]
  by_cases halloc : c.alloc = false
  · rw [if_pos halloc]
    exact iff_of_true ⟨-1, _, rfl, fun _ => ⟨rfl, hlive, rfl⟩⟩ (.inl halloc)
  rw [if_neg halloc, or_iff_right halloc]
  cases hentries : entries c with
  | nil => exact absurd hentries (splitOn_ne_nil _ _)
  | cons entry rest =>
    rw [fillAll_cons, acceptedFrom_cons]
    simp only [List.cons.injEq]
    unfold Fits
    by_cases hfits : dfuNameSize ≤ (entryName entry).length
    · rw [if_pos hfits]
      refine iff_of_false (by simp) ?_
      rintro (⟨_, _, ⟨rfl, -⟩, hlt, -⟩ | ⟨⟨hlt, -⟩, -⟩)
      · lia
      · lia
    rw [if_neg hfits]
    cases hfill : c.fill 0 (arguments entry) with
    | true =>
      rw [if_pos rfl, linked_allOrNothing_iff rfl]
      constructor
      · intro hrest
        exact .inr ⟨⟨by lia, rfl⟩, hrest⟩
      · rintro (⟨_, _, ⟨rfl, -⟩, -, hno⟩ | ⟨-, hrest⟩)
        · exact absurd (hfill.symm.trans hno) (by simp)
        · exact hrest
    | false =>
      rw [if_neg Bool.false_ne_true]
      refine iff_of_true ⟨-1, _, rfl, fun _ => ⟨rfl, fun e he hfreed => ?_, rfl⟩⟩
        (.inl ⟨entry, rest, ⟨rfl, rfl⟩, by lia, hfill⟩)
      -- the block is a new one, so nothing in the list is in it
      obtain hnew | hold := mem_cons.mp hfreed
      · exact absurd hnew (Nat.ne_of_lt (h.blocks e he))
      · exact hlive e he hold

end Config

section Runs

variable {s s' : State}

theorem step_sound {call : Call} (h : Sound s) (hstep : step s call = some s') : Sound s' := by
  cases call with
  | config c =>
    rw [step, map_eq_some_iff] at hstep
    obtain ⟨⟨ret, t⟩, hcall, rfl⟩ := hstep
    exact dfuConfigEntities_sound h hcall
  | free =>
    simp only [step, dfuFreeEntities] at hstep
    split at hstep
    · obtain rfl := some.inj hstep
      refine ⟨rfl, by simp, fun b hb => ?_, by simp⟩
      simp only [mem_append, mem_toList, map_eq_some_iff] at hb
      obtain ⟨e, he, rfl⟩ | hb := hb
      · exact h.blocks e (mem_of_mem_head? he)
      · exact h.freed b hb
    · exact absurd hstep (by simp)

theorem run_sound {calls : List Call} (h : Sound s) (hrun : run calls s = some s') : Sound s' := by
  induction calls generalizing s with
  | nil => exact some.inj hrun ▸ h
  | cons call calls ih =>
    rw [run, bind_eq_some_iff] at hrun
    obtain ⟨t, hstep, hrun⟩ := hrun
    exact ih (step_sound h hstep) hrun

/-- In every state reached without a freed entity in the list, the next configuration is all-or-nothing
exactly if `calloc` fails, the first entry is refused or all are accepted; and a name is found as it
should be exactly if each entity that the comparison gets wrong comes behind one with that name. -/
theorem dfu_entities_iff {calls : List Call} (hrun : run calls init = some s) (hlive : Live s) :
    (∀ c, AllOrNothing c s ↔ c.alloc = false ∨ FirstRefused c ∨ AllAccepted c) ∧
      ∀ name, dfuGetAlt name s.dfuList = resolve name s.dfuList ↔
        ∀ before e after, s.dfuList = before ++ e :: after → Mistaken e.name name →
          ∃ d ∈ before, Named d.name name := by
  have h := run_sound Sound.init hrun
  refine ⟨fun c => allOrNothing_iff h hlive, dfuGetAlt_iff ?_ h.noNul⟩
  rw [h.alts]
  exact nodup_range

end Runs

/- `dfu_alt_info` is "a;b". -/
def aAndB (fill : ℕ → Option Text → Bool) : Config where
  env := [97, 59, 98]
  noNul := by decide
  alloc := true
  fill := fill

def aAndBLinked : State := ⟨[⟨0, [97], 0⟩, ⟨0, [98], 1⟩], 2, 2, 1, []⟩

theorem a_and_b_linked :
    (∀ c, AllOrNothing c aAndBLinked ↔ c.alloc = false ∨ FirstRefused c ∨ AllAccepted c) ∧
      ∀ name, dfuGetAlt name aAndBLinked.dfuList = resolve name aAndBLinked.dfuList ↔
        ∀ before e after, aAndBLinked.dfuList = before ++ e :: after → Mistaken e.name name →
          ∃ d ∈ before, Named d.name name :=
  @dfu_entities_iff aAndBLinked [.config (aAndB fun _ _ => true)] rfl (by decide)

/- With "b" refused, "a" stays in the list and is freed; and "ab" is taken for "a". -/
theorem b_refused_a_linked :
    ¬AllOrNothing (aAndB fun i _ => i == 0) init ∧
      run [.config (aAndB fun _ _ => true)] init = some aAndBLinked ∧
      dfuGetAlt [97, 98] aAndBLinked.dfuList = 0 ∧
      resolve [97, 98] aAndBLinked.dfuList = enodev := by
  refine ⟨fun h => ?_, rfl, by decide, by decide⟩
  obtain ⟨ret, s', hcall, hkeeps⟩ := h
  have hruns : dfuConfigEntities (aAndB fun i _ => i == 0) init =
      some (-1, ⟨[⟨0, [97], 0⟩], 2, 1, 1, [0]⟩) := rfl
  rw [hruns, some_inj, Prod.mk.injEq] at hcall
  obtain ⟨rfl, rfl⟩ := hcall
  exact absurd (hkeeps (by decide)).1 (by decide)

end UBoot.Dfu.Entities
