import UBoot.Env.AttrList

/-!
# Lists of the documented grammar (common/env_attr.c)

`attributes = [^,:\s]*`, `entry = name[:attributes]`, `list = entry[,list]`, with spaces around
names, attributes and delimiters. On such a list `env_attr_lookup` answers for the last call that
`env_attr_walk` makes for a name.
-/

namespace UBoot.Env

open List Option

def enoent : ℤ := -2
def einval : ℤ := -22

/- The return value of `env_attr_lookup` with a buffer for the attributes. -/
def lookupReturn (attrList : Option Str) (name : Str) : ℤ :=
  if attrList = none then einval
  else if (envAttrLookup attrList name).isSome then 0
  else enoent

def Word (s : Str) : Prop := ∀ c ∈ s, c ≠ comma ∧ c ≠ colon ∧ isspace c = false

instance (s : Str) : Decidable (Word s) := inferInstanceAs (Decidable (∀ c ∈ s, _))

def spaces (n : ℕ) : Str := List.replicate n space

structure Padded where
  before : ℕ
  word : Str
  behind : ℕ
  isWord : Word word

def Padded.text (w : Padded) : Str := spaces w.before ++ w.word ++ spaces w.behind

structure ListEntry where
  name : Padded
  attributes : Option Padded

def ListEntry.text (e : ListEntry) : Str :=
  match e.attributes with
  | none => e.name.text
  | some a => e.name.text ++ colon :: a.text

def listText (entries : List ListEntry) : Str := [comma].intercalate (entries.map ListEntry.text)

def ListEntry.call (e : ListEntry) : Str × Option Str := (e.name.word, e.attributes.map Padded.word)

section Grammar

variable {s : Str} {w : Padded} {e : ListEntry} {entries : List ListEntry}

theorem spaces_blank (n : ℕ) : Blank (spaces n) := by
  intro c hc
  rw [eq_of_mem_replicate hc]
  exact beq_self_eq_true space

theorem mem_padded {c : UInt8} (hc : c ∈ w.text) : c = space ∨ c ∈ w.word := by
  rcases mem_append.mp hc with hc | hc
  · rcases mem_append.mp hc with hc | hc
    · exact .inl (eq_of_mem_replicate hc)
    · exact .inr hc
  · exact .inl (eq_of_mem_replicate hc)

theorem padded_spaced (w : Padded) : Spaced w.text := by
  intro c hc hspace
  rcases mem_padded hc with h | h
  · exact h
  · have hno := (w.isWord c h).2.2
    rw [hspace] at hno
    exact Bool.noConfusion hno

theorem padded_comma (w : Padded) : comma ∉ w.text := by
  intro hc
  rcases mem_padded hc with h | h
  · exact absurd h (by decide)
  · exact (w.isWord comma h).1 rfl

theorem padded_colon (w : Padded) : colon ∉ w.text := by
  intro hc
  rcases mem_padded hc with h | h
  · exact absurd h (by decide)
  · exact (w.isWord colon h).2.1 rfl

theorem word_ne_space (h : Word s) {c : UInt8} (hc : c ∈ s) : c ≠ space := by
  rintro rfl
  exact absurd (h space hc).2.2 (by decide)

theorem listName_of_word (h : Word s) (hne : s ≠ []) : ListName s where
  nonempty := hne
  noComma hc := (h comma hc).1 rfl
  noColon hc := (h colon hc).2.1 rfl
  start hs := word_ne_space h (mem_of_mem_head? hs) rfl
  stop hs := word_ne_space h (mem_of_mem_getLast? hs) rfl

theorem trim_padded (w : Padded) : strim w.text = w.word := by
  rw [strim_spaced (padded_spaced w)]
  by_cases hne : w.word = []
  · have hall : Blank w.text := by
      intro c hc
      rcases mem_padded hc with h | h
      · exact beq_iff_eq.mpr h
      · rw [hne] at h
        exact absurd h not_mem_nil
    rw [trim, dropWhile_eq_nil_iff.mpr hall, hne]
    rfl
  · exact trim_name (listName_of_word w.isWord hne) (spaces_blank _) (spaces_blank _)

theorem attrEntry_text (e : ListEntry) : attrEntry e.text = e.call := by
  have hin : ∀ c ∈ e.name.text, (c != colon) = true := by
    intro c hc
    rw [bne_iff_ne]
    rintro rfl
    exact padded_colon e.name hc
  unfold attrEntry ListEntry.text ListEntry.call
  cases e.attributes with
  | none =>
    simp only
    rw [dropWhile_eq_nil_iff.mpr hin, takeWhile_eq_self_iff.mpr hin]
    simp only [trim_padded, map_none]
  | some a =>
    have hstop : ¬ (colon != colon) = true := by decide
    have hdrop : (colon :: a.text).dropWhile (· != colon) = colon :: a.text :=
      dropWhile_cons_of_neg hstop
    have htake : (colon :: a.text).takeWhile (· != colon) = [] := takeWhile_cons_of_neg hstop
    simp only
    rw [dropWhile_append_of_pos hin, takeWhile_append_of_pos hin, hdrop, htake, append_nil]
    simp only [trim_padded, map_some]

theorem mem_entryText {c : UInt8} (hc : c ∈ e.text) :
    c = colon ∨ c ∈ e.name.text ∨ ∃ a, e.attributes = some a ∧ c ∈ a.text := by
  unfold ListEntry.text at hc
  cases ha : e.attributes with
  | none =>
    rw [ha] at hc
    exact .inr (.inl hc)
  | some a =>
    rw [ha] at hc
    rcases mem_append.mp hc with h | h
    · exact .inr (.inl h)
    · rcases mem_cons.mp h with h | h
      · exact .inl h
      · exact .inr (.inr ⟨a, rfl, h⟩)

theorem entry_comma (e : ListEntry) : comma ∉ e.text := by
  intro hc
  rcases mem_entryText hc with h | h | ⟨a, -, h⟩
  · exact absurd h (by decide)
  · exact padded_comma e.name h
  · exact padded_comma a h

theorem entry_spaced (e : ListEntry) : Spaced e.text := by
  intro c hc hspace
  rcases mem_entryText hc with h | h | ⟨a, -, h⟩
  · rw [h] at hspace
    exact absurd hspace (by decide)
  · exact padded_spaced e.name c h hspace
  · exact padded_spaced a c h hspace

theorem list_spaced (entries : List ListEntry) : Spaced (listText entries) := by
  unfold listText
  induction entries with
  | nil => exact fun c hc => absurd hc not_mem_nil
  | cons e entries ih =>
    cases entries with
    | nil =>
      rw [map_singleton, intercalate_singleton]
      exact entry_spaced e
    | cons e' entries =>
      rw [map_cons, map_cons, intercalate_cons_cons]
      intro c hc hspace
      rcases mem_append.mp hc with h | h
      · rcases mem_append.mp h with h | h
        · exact entry_spaced e c h hspace
        · rw [mem_singleton.mp h] at hspace
          exact absurd hspace (by decide)
      · exact ih c h hspace

/-- The walk calls its callback for the entries with a name, in their order. -/
theorem walk_list (entries : List ListEntry) : envAttrWalk (some (listText entries)) =
    (entries.map ListEntry.call).filter fun e => e.1 != [] := by
  have hcall : ∀ l : List ListEntry,
      (((l.map ListEntry.text).filter fun t => t != []).map attrEntry).filter (fun e => e.1 != []) =
        (l.map ListEntry.call).filter fun e => e.1 != [] := by
    intro l
    induction l with
    | nil => rfl
    | cons e l ih =>
      by_cases ht : e.text = []
      · -- an empty text has no name
        have hname : e.call.1 = [] := by
          rw [← attrEntry_text, ht]
          rfl
        rw [map_cons, map_cons, filter_cons_of_neg (by simp [ht]),
          filter_cons_of_neg (by simp [hname]), ih]
      · rw [map_cons, map_cons, filter_cons_of_pos (by simp [ht]), map_cons,
          attrEntry_text, filter_cons, filter_cons, ih]
  by_cases hnil : entries = []
  · rw [hnil]
    rfl
  · have hsplit : (listText entries).splitOn comma = entries.map ListEntry.text := by
      refine splitOn_intercalate comma (fun t ht => ?_) ?_
      · obtain ⟨e, -, rfl⟩ := mem_map.mp ht
        exact entry_comma e
      · simpa using hnil
    unfold envAttrWalk
    simp only [hsplit]
    exact hcall entries

end Grammar

/- The last call for the name is `(name, a)`. -/
def LastCall (calls : List (Str × Option Str)) (name : Str) (a : Option Str) : Prop :=
  ∃ front back, calls = front ++ (name, a) :: back ∧ ∀ e ∈ back, e.1 ≠ name

section Last

variable {calls : List (Str × Option Str)} {name : Str}

theorem lastAttrs_none : lastAttrs calls name = none ↔ ∀ e ∈ calls, e.1 ≠ name := by
  induction calls with
  | nil => exact iff_of_true rfl fun e he => absurd he not_mem_nil
  | cons e calls ih =>
    rw [lastAttrs, forall_mem_cons, ← ih]
    cases lastAttrs calls name with
    | some a => simp
    | none => simp

theorem lastAttrs_last {a : Option Str} (h : LastCall calls name a) :
    lastAttrs calls name = some (a.getD []) := by
  obtain ⟨front, back, rfl, hback⟩ := h
  induction front with
  | nil =>
    rw [nil_append, lastAttrs, lastAttrs_none.mpr hback]
    exact if_pos rfl
  | cons e front ih => rw [cons_append, lastAttrs, ih]

structure Agrees (list name : Str) : Prop where
  found : lookupReturn (some list) name = 0 ↔ ∃ a, (name, a) ∈ envAttrWalk (some list)
  last : ∀ a, LastCall (envAttrWalk (some list)) name a →
    envAttrLookup (some list) name = some (a.getD [])
  missing : (∀ a, (name, a) ∉ envAttrWalk (some list)) → lookupReturn (some list) name = enoent

theorem lookup_list (entries : List ListEntry) (hn : ListName name) :
    envAttrLookup (some (listText entries)) name =
      lastAttrs (envAttrWalk (some (listText entries))) name := by
  rw [envAttrLookup_eq hn _ (list_spaced entries)]
  cases hl : lastAttrs (envAttrWalk (some (listText entries))) name with
  | none => rfl
  | some a =>
    -- attributes are a single word
    have hword : Word a := by
      obtain ⟨e, he, -, rfl⟩ := lastAttrs_mem hl
      rw [walk_list] at he
      obtain ⟨entry, -, rfl⟩ := mem_map.mp (mem_filter.mp he).1
      unfold ListEntry.call
      cases entry.attributes with
      | none => exact fun c hc => absurd hc not_mem_nil
      | some p => exact p.isWord
    refine congrArg some (takeWhile_eq_self_iff.mpr fun c hc => ?_)
    exact bne_iff_ne.mpr (word_ne_space hword hc)

/-- On every list of the grammar, the lookup of a name gives the attributes of the last call that
the walk makes for it, and fails with -ENOENT when there is none. -/
theorem lookup_agrees_with_walk (entries : List ListEntry) (name : Str) (hne : name ≠ [])
    (hword : Word name) : Agrees (listText entries) name := by
  have hlookup := lookup_list entries (listName_of_word hword hne)
  have hnone : envAttrLookup (some (listText entries)) name = none ↔
      ∀ a, (name, a) ∉ envAttrWalk (some (listText entries)) := by
    rw [hlookup, lastAttrs_none]
    constructor
    · intro h a ha
      exact h _ ha rfl
    · rintro h ⟨n, a⟩ he rfl
      exact h a he
  constructor
  · unfold lookupReturn
    rw [if_neg (some_ne_none _)]
    cases hl : envAttrLookup (some (listText entries)) name with
    | none =>
      refine iff_of_false (by decide) ?_
      exact not_exists.mpr (hnone.mp hl)
    | some a =>
      refine iff_of_true rfl ?_
      by_contra hno
      rw [hnone.mpr (not_exists.mp hno)] at hl
      cases hl
  · intro a ha
    rw [hlookup, lastAttrs_last ha]
  · intro hno
    unfold lookupReturn
    rw [if_neg (some_ne_none _), hnone.mpr hno]
    rfl

/- " foo : bar , foot:baz,foo:" looked up for "foo". -/
theorem lookup_agrees_with_walk_foo : ∃ entries, listText entries =
      [32, 102, 111, 111, 32, 58, 32, 98, 97, 114, 32, 44, 32, 102, 111, 111, 116, 58, 98, 97, 122, 44,
        102, 111, 111, 58] ∧
    Agrees (listText entries) [102, 111, 111] := by
  refine ⟨[⟨⟨1, [102, 111, 111], 1, by decide +kernel⟩, some ⟨1, [98, 97, 114], 1, by decide +kernel⟩⟩,
    ⟨⟨1, [102, 111, 111, 116], 0, by decide +kernel⟩, some ⟨0, [98, 97, 122], 0, by decide +kernel⟩⟩,
    ⟨⟨0, [102, 111, 111], 0, by decide +kernel⟩, some ⟨0, [], 0, by decide +kernel⟩⟩], by decide +kernel, ?_⟩
  exact lookup_agrees_with_walk _ _ (by decide +kernel) (by decide +kernel)

end Last

end UBoot.Env
