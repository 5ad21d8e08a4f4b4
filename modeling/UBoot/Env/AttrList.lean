import Mathlib.Data.List.DropRight
import UBoot.Env.Attr

/-!
# The last entry of a name

On lists with no white space but spaces, the text search of `env_attr_lookup` finds the
entry that `env_attr_walk` visits last for the name.
-/

namespace UBoot.Env

open List

def Exact (searched name : Str) (p : ℕ) : Prop :=
  name <+: searched.drop p ∧ exactMatch searched name p = true

def LastAt (P : ℕ → Prop) : Option ℕ → Prop
  | none => ∀ q, ¬P q
  | some p => P p ∧ ∀ q, p < q → ¬P q

theorem lastAt_unique {P : ℕ → Prop} {r r' : Option ℕ} (h : LastAt P r) (h' : LastAt P r') : r = r' := by
  cases r with
  | none =>
    cases r' with
    | none => rfl
    | some p' => exact absurd h'.1 (h p')
  | some p =>
    cases r' with
    | none => exact absurd h.1 (h' p)
    | some p' =>
      rcases Nat.lt_trichotomy p p' with hlt | heq | hlt
      · exact absurd h'.1 (h.2 p' hlt)
      · rw [heq]
      · exact absurd h.1 (h'.2 p hlt)

section Search

variable {searched name : Str}

theorem exact_le (hname : name ≠ []) {p : ℕ} (h : Exact searched name p) : p < searched.length := by
  by_contra hge
  have hpre := h.1
  rw [drop_eq_nil_of_le (by lia), prefix_nil] at hpre
  exact hname hpre

theorem searchLoop_last (hname : name ≠ []) (fuel cur : ℕ) (result : Option ℕ)
    (hf : searched.length < cur + fuel) (hres : LastAt (fun q => Exact searched name q ∧ q < cur) result) :
    LastAt (Exact searched name) (searchLoop searched name fuel cur result) := by
  induction fuel generalizing cur result with
  | zero =>
    -- no match starts behind the end of the list
    have hall : ∀ q, Exact searched name q ↔ Exact searched name q ∧ q < cur := fun q =>
      ⟨fun h => ⟨h, by have := exact_le hname h; lia⟩, fun h => h.1⟩
    rw [searchLoop]
    simpa only [← hall] using hres
  | succ fuel ih =>
    rw [searchLoop]
    cases hs : strstrFrom searched name cur with
    | none =>
      have hnone : ∀ q, Exact searched name q ↔ Exact searched name q ∧ q < cur := by
        intro q
        refine ⟨fun h => ⟨h, ?_⟩, fun h => h.1⟩
        by_contra hge
        have hlt := exact_le hname h
        have hno := find?_eq_none.mp hs q (mem_range'_1.mpr (by lia))
        exact hno ( isPrefixOf_iff_prefix.mpr h.1)
      simpa only [← hnone] using hres
    | some p =>
      have hfound := find?_range'_eq_some.mp hs
      obtain ⟨hpre, hmem, hfirst⟩ := hfound
      rw [mem_range'_1] at hmem
      have hskip : ∀ q, cur ≤ q → q < p → ¬Exact searched name q := by
        intro q h1 h2 h
        have hno := hfirst q h1 h2
        rw [ isPrefixOf_iff_prefix.mpr h.1] at hno
        simp at hno
      refine ih (p + 1) _ (by lia) ?_
      by_cases he : exactMatch searched name p = true
      · rw [if_pos he]
        exact ⟨⟨⟨ isPrefixOf_iff_prefix.mp hpre, he⟩, by lia⟩, fun q h1 h2 => by lia⟩
      · rw [if_neg he]
        have hsame : ∀ q, (Exact searched name q ∧ q < p + 1) ↔ (Exact searched name q ∧ q < cur) := by
          intro q
          refine ⟨fun h => ⟨h.1, ?_⟩, fun h => ⟨h.1, by lia⟩⟩
          by_contra hge
          rcases Nat.lt_or_ge q p with hlt | hge'
          · exact hskip q (by lia) hlt h.1
          · obtain rfl : q = p := by lia
            exact he h.1.2
        simpa only [hsame] using hres

/-- `reverse_name_search` finds the last exact match. -/
theorem reverseNameSearch_last (hname : name ≠ []) :
    LastAt (Exact searched name) (reverseNameSearch searched name) :=
  searchLoop_last hname _ _ _ (by lia) fun q h => by lia

end Search

def Spaced (s : Str) : Prop := ∀ c ∈ s, isspace c = true → c = space

instance (s : Str) : Decidable (Spaced s) := inferInstanceAs (Decidable (∀ c ∈ s, _))

def Blank (s : Str) : Prop := ∀ c ∈ s, (c == space) = true

structure ListName (name : Str) : Prop where
  nonempty : name ≠ []
  noComma : comma ∉ name
  noColon : colon ∉ name
  start : name.head? ≠ some space
  stop : name.getLast? ≠ some space

/- `strim` when there is no white space but spaces. -/
def trim (s : Str) : Str := ((s.dropWhile (· == space)).reverse.dropWhile (· == space)).reverse

section Spaces

variable {s t u : Str}

theorem spaced_sub {s' : Str} (h : Spaced s) (hsub : ∀ c ∈ s', c ∈ s) : Spaced s' :=
  fun c hc => h c (hsub c hc)

theorem spaced_dropWhile (h : Spaced s) : s.dropWhile isspace = s.dropWhile (· == space) := by
  induction s with
  | nil => rfl
  | cons c s ih =>
    by_cases hc : isspace c = true
    · have hspace : (c == space) = true := beq_iff_eq.mpr (h c mem_cons_self hc)
      rw [dropWhile_cons_of_pos hc, dropWhile_cons_of_pos (p := (· == space)) hspace]
      exact ih (spaced_sub h fun c' hc' => mem_cons_of_mem _ hc')
    · rw [dropWhile_cons_of_neg hc, dropWhile_cons_of_neg]
      intro hspace
      rw [beq_iff_eq.mp hspace] at hc
      exact hc (by decide)

theorem strim_spaced (h : Spaced s) : strim s = trim s := by
  have hrev : Spaced (s.dropWhile (· == space)).reverse := spaced_sub h fun c hc =>
    (dropWhile_sublist _).subset (mem_reverse.mp hc)
  rw [strim, spaced_dropWhile h, spaced_dropWhile hrev, trim]

theorem trim_split (s : Str) : ∃ b, Blank b ∧ Blank (s.takeWhile (· == space)) ∧
    s = s.takeWhile (· == space) ++ trim s ++ b ∧ s.dropWhile (· == space) = trim s ++ b := by
  have hrev : (s.dropWhile (· == space)) =
      trim s ++ ((s.dropWhile (· == space)).reverse.takeWhile (· == space)).reverse := by
    rw [trim, ← reverse_append, takeWhile_append_dropWhile, reverse_reverse]
  refine ⟨((s.dropWhile (· == space)).reverse.takeWhile (· == space)).reverse, ?_, ?_, ?_, hrev⟩
  · intro c hc
    exact mem_takeWhile_imp (p := (· == space)) (mem_reverse.mp hc)
  · intro c hc
    exact mem_takeWhile_imp (p := (· == space)) hc
  · rw [append_assoc, ← hrev, takeWhile_append_dropWhile]

theorem dropWhile_start (h : s.head? ≠ some space) : s.dropWhile (· == space) = s := by
  cases s with
  | nil => rfl
  | cons c s =>
    apply dropWhile_cons_of_neg
    intro hc
    exact h (by rw [beq_iff_eq.mp hc, head?_cons])

theorem takeWhile_start (h : s.head? ≠ some space) : s.takeWhile (· == space) = [] := by
  cases s with
  | nil => rfl
  | cons c s =>
    apply takeWhile_cons_of_neg
    intro hc
    exact h (by rw [beq_iff_eq.mp hc, head?_cons])

theorem trim_name {name b b' : Str} (hn : ListName name) (hb : Blank b) (hb' : Blank b') :
    trim (b ++ name ++ b') = name := by
  have hhead : (name ++ b').head? ≠ some space := by
    rw [head?_append_of_ne_nil _ hn.nonempty]
    exact hn.start
  have hlast : (name.reverse).head? ≠ some space := by
    rw [head?_reverse]
    exact hn.stop
  have hrev : ∀ c ∈ b'.reverse, (c == space) = true := fun c hc => hb' c (mem_reverse.mp hc)
  rw [trim, append_assoc, dropWhile_append_of_pos hb, dropWhile_start hhead,
    reverse_append, dropWhile_append_of_pos hrev, dropWhile_start hlast,
    reverse_reverse]

def EntryEnd (u : Str) : Prop := u = [] ∨ ∃ rest, u = comma :: rest

theorem entryEnd_start (hu : EntryEnd u) : u.head? ≠ some space := by
  rcases hu with rfl | ⟨rest, rfl⟩
  · simp
  · simp [comma, space]

end Spaces

section Entry

variable {name t u : Str}

def entryName (t : Str) : Str := t.takeWhile (· != colon)

def entryAttrs (t : Str) : Str := (t.dropWhile (· != colon)).drop 1

theorem entry_split (t : Str) :
    t = entryName t ++ t.dropWhile (· != colon) ∧
      (t.dropWhile (· != colon) = [] ∨ t.dropWhile (· != colon) = colon :: entryAttrs t) := by
  refine ⟨takeWhile_append_dropWhile.symm, ?_⟩
  unfold entryAttrs
  cases h : t.dropWhile (· != colon) with
  | nil => exact .inl rfl
  | cons c a =>
    have hc := head?_dropWhile_not (· != colon) t
    rw [h] at hc
    right
    simpa using hc

def NameEnd (z : Str) : Prop := z = [] ∨ z.head? = some colon ∨ z.head? = some comma

theorem nameEnd_start {z : Str} (h : NameEnd z) : z.head? ≠ some space := by
  rcases h with rfl | h | h
  · simp
  · rw [h]
    decide
  · rw [h]
    decide

theorem nameEnd_takeWhile {z : Str} (h : NameEnd z) :
    z.takeWhile (fun c => c != colon && c != comma) = [] := by
  cases z with
  | nil => rfl
  | cons c z =>
    apply takeWhile_cons_of_neg
    rcases h with h | h | h
    · simp at h
    · rw [Option.some.inj h]
      simp
    · rw [Option.some.inj h]
      simp

theorem nameEnd_rest (hu : EntryEnd u) : NameEnd (t.dropWhile (· != colon) ++ u) := by
  rcases (entry_split t).2 with h | h
  · rw [h, nil_append]
    rcases hu with h' | ⟨rest, h'⟩
    · exact .inl h'
    · exact .inr (.inr (by rw [h']; rfl))
  · exact .inr (.inl (by rw [h]; rfl))

theorem exactMatch_iff (s name : Str) (p : ℕ) :
    exactMatch s name p = true ↔
      ((s.take p).reverse.dropWhile (· == space) = [] ∨
        ((s.take p).reverse.dropWhile (· == space)).head? = some comma) ∧
      NameEnd ((s.drop (p + name.length)).dropWhile (· == space)) := by
  simp only [exactMatch, NameEnd, Bool.and_eq_true, Bool.or_eq_true, beq_iff_eq, or_assoc]

theorem first_name (ht : comma ∉ t) (hu : EntryEnd u) :
    (t ++ u).takeWhile (fun c => c != colon && c != comma) = entryName t := by
  have hfree : ∀ c ∈ entryName t, (c != colon && c != comma) = true := by
    intro c hc
    have hcolon := mem_takeWhile_imp hc
    have hcomma : c ≠ comma := fun h => ht (h ▸ (takeWhile_sublist _).subset hc)
    simp [hcolon, hcomma]
  conv_lhs => rw [(entry_split t).1]
  rw [append_assoc, takeWhile_append_of_pos hfree, nameEnd_takeWhile (nameEnd_rest hu), append_nil]

theorem entry_layout (hn : ListName name) (htrim : trim (entryName t) = name) (u : Str) :
    ∃ b, Blank b ∧ Blank (t.takeWhile (· == space)) ∧
      t ++ u = t.takeWhile (· == space) ++ (name ++ (b ++ (t.dropWhile (· != colon) ++ u))) := by
  obtain ⟨b, hb, hw, hsplit, -⟩ := trim_split (entryName t)
  rw [htrim] at hsplit
  have hall : t = (entryName t).takeWhile (· == space) ++
      (name ++ (b ++ t.dropWhile (· != colon))) := by
    conv_lhs => rw [(entry_split t).1, hsplit]
    simp only [append_assoc]
  have hhead : (name ++ (b ++ t.dropWhile (· != colon))).head? ≠ some space := by
    rw [head?_append_of_ne_nil _ hn.nonempty]
    exact hn.start
  have hfront : t.takeWhile (· == space) = (entryName t).takeWhile (· == space) := by
    conv_lhs => rw [hall]
    rw [takeWhile_append_of_pos hw, takeWhile_start hhead, append_nil]
  refine ⟨b, hb, hfront ▸ hw, ?_⟩
  rw [hfront]
  conv_lhs => rw [hall]
  simp only [append_assoc]

theorem exact_first (ht : comma ∉ t) (hu : EntryEnd u) (hn : ListName name) {p : ℕ}
    (hp : p ≤ t.length) :
    Exact (t ++ u) name p ↔ trim (entryName t) = name ∧ p = (t.takeWhile (· == space)).length := by
  rw [Exact, exactMatch_iff]
  constructor
  · rintro ⟨⟨z, hz⟩, hbefore, hafter⟩
    rw [take_append_of_le_length hp] at hbefore
    have hblank : Blank (t.take p) := by
      rcases hbefore with h | h
      · exact fun c hc => dropWhile_eq_nil_iff.mp h c (mem_reverse.mpr hc)
      · have hmem := (dropWhile_sublist _).subset (mem_of_head? h)
        exact absurd (mem_of_mem_take (mem_reverse.mp hmem)) ht
    rw [← drop_drop, ← hz, drop_left] at hafter
    -- the name and the spaces around it are all there is before the colon
    have hname : ∀ c ∈ name, (c != colon && c != comma) = true := by
      intro c hc
      have h1 : c ≠ colon := fun h => hn.noColon (h ▸ hc)
      have h2 : c ≠ comma := fun h => hn.noComma (h ▸ hc)
      simp [h1, h2]
    have hspace : ∀ s : Str, Blank s → ∀ c ∈ s, (c != colon && c != comma) = true := by
      intro s hs c hc
      rw [beq_iff_eq.mp (hs c hc)]
      decide
    have htext : t ++ u = t.take p ++ (name ++ (z.takeWhile (· == space) ++ z.dropWhile (· == space))) := by
      rw [takeWhile_append_dropWhile, hz, ← take_append_of_le_length hp, take_append_drop]
    have hb : Blank (z.takeWhile (· == space)) := fun c hc =>
      mem_takeWhile_imp (p := (· == space)) hc
    have hfirst := first_name ht hu
    rw [htext, takeWhile_append_of_pos (hspace _ hblank), takeWhile_append_of_pos hname,
      takeWhile_append_of_pos (hspace _ hb), nameEnd_takeWhile hafter, append_nil,
      ← append_assoc] at hfirst
    refine ⟨by rw [← hfirst, trim_name hn hblank hb], ?_⟩
    have hhead : (name ++ (z.takeWhile (· == space) ++ t.dropWhile (· != colon))).head? ≠
        some space := by
      rw [head?_append_of_ne_nil _ hn.nonempty]
      exact hn.start
    conv_rhs => rw [(entry_split t).1, ← hfirst]
    rw [append_assoc, append_assoc, takeWhile_append_of_pos hblank,
      takeWhile_start hhead, append_nil, length_take, Nat.min_eq_left hp]
  · rintro ⟨htrim, rfl⟩
    obtain ⟨b, hb, hw, htext⟩ := entry_layout hn htrim u
    have hrest : NameEnd (t.dropWhile (· != colon) ++ u) := nameEnd_rest hu
    rw [← drop_drop]
    conv => rw [htext]
    rw [drop_left, drop_left, take_left, dropWhile_append_of_pos hb,
      dropWhile_start (nameEnd_start hrest)]
    refine ⟨prefix_append _ _, .inl ?_, hrest⟩
    exact dropWhile_eq_nil_iff.mpr fun c hc => hw c (mem_reverse.mp hc)

theorem exact_behind (t rest name : Str) (p : ℕ) :
    Exact (t ++ comma :: rest) name (t.length + 1 + p) ↔ Exact rest name p := by
  have hdrop : ∀ n, (t ++ comma :: rest).drop (t.length + 1 + n) = rest.drop n := by
    intro n
    rw [show t.length + 1 + n = t.length + (n + 1) by lia, drop_append,
      drop_eq_nil_of_le (by lia), nil_append, Nat.add_sub_cancel_left, drop_succ_cons]
  have htake : (t ++ comma :: rest).take (t.length + 1 + p) = t ++ comma :: rest.take p := by
    rw [show t.length + 1 + p = t.length + (p + 1) by lia, take_length_add_append, take_succ_cons]
  have hbefore : (t ++ comma :: rest.take p).reverse.dropWhile (· == space) =
      (rest.take p).reverse.dropWhile (· == space) ++ comma :: t.reverse := by
    rw [reverse_append, reverse_cons, append_assoc, singleton_append, dropWhile_append]
    split_ifs with h
    · rw [List.isEmpty_iff.mp h, nil_append]
      exact dropWhile_cons_of_neg (by decide)
    · rfl
  rw [Exact, Exact, exactMatch_iff, exactMatch_iff, hdrop, htake, Nat.add_assoc _ p, hdrop, hbefore]
  cases (rest.take p).reverse.dropWhile (· == space) with
  | nil => simp
  | cons c s => simp

end Entry

def lastAttrs (entries : List (Str × Option Str)) (name : Str) : Option Str :=
  match entries with
  | [] => none
  | e :: entries =>
    match lastAttrs entries name with
    | some a => some a
    | none => if e.1 = name then some (e.2.getD []) else none

def firstWord (s : Str) : Str := s.takeWhile (· != space)

section Last

variable {name t u : Str}

theorem takeWhile_append_nil {q : UInt8 → Bool} {x y : Str} (h : y.takeWhile q = []) :
    (x ++ y).takeWhile q = x.takeWhile q := by
  induction x with
  | nil => simpa using h
  | cons c x ih => rw [cons_append, takeWhile_cons, takeWhile_cons, ih]

theorem firstWord_trim {a : Str} (ha : comma ∉ a) (hu : EntryEnd u) :
    ((a ++ u).dropWhile (· == space)).takeWhile (fun c => c != comma && c != space) =
      firstWord (trim a) := by
  have hend : u.takeWhile (fun c => c != comma && c != space) = [] := by
    rcases hu with rfl | ⟨rest, rfl⟩
    · rfl
    · exact takeWhile_cons_of_neg (by simp)
  have hfree : ∀ s : Str, comma ∉ s →
      s.takeWhile (fun c => c != comma && c != space) = firstWord s := by
    intro s hs
    induction s with
    | nil => rfl
    | cons c s ih =>
      have hc : c ≠ comma := fun h => hs (h ▸ mem_cons_self)
      have htail := ih fun h => hs (mem_cons_of_mem _ h)
      rw [firstWord] at htail ⊢
      simp [takeWhile_cons, hc, htail]
  obtain ⟨b, hb, -, hsplit, hdrop⟩ := trim_split a
  have htrim : comma ∉ trim a := fun h => ha (by rw [hsplit]; simp [h])
  rw [dropWhile_append]
  split_ifs with hempty
  · rw [hdrop] at hempty
    have hnil : trim a = [] := (append_eq_nil_iff.mp (List.isEmpty_iff.mp hempty)).1
    rw [dropWhile_start (entryEnd_start hu), hend, hnil]
    rfl
  · have hrest : (b ++ u).takeWhile (fun c => c != comma && c != space) = [] := by
      cases b with
      | nil => exact hend
      | cons c b =>
        rw [cons_append, beq_iff_eq.mp (hb c mem_cons_self)]
        exact takeWhile_cons_of_neg (by simp)
    rw [hdrop, append_assoc, takeWhile_append_nil hrest, hfree _ htrim]

theorem attributesAt_entry (ht : comma ∉ t) (hu : EntryEnd u) (hn : ListName name)
    (htrim : trim (entryName t) = name) :
    attributesAt ((t ++ u).drop ((t.takeWhile (· == space)).length + name.length)) =
      firstWord (trim (entryAttrs t)) := by
  obtain ⟨b, hb, -, htext⟩ := entry_layout hn htrim u
  have hrest : NameEnd (t.dropWhile (· != colon) ++ u) := nameEnd_rest hu
  rw [← drop_drop]
  conv_lhs => rw [htext]
  rw [drop_left, drop_left, attributesAt, dropWhile_append_of_pos hb,
    dropWhile_start (nameEnd_start hrest)]
  rcases (entry_split t).2 with h | h
  · have hnone : entryAttrs t = [] := by rw [entryAttrs, h, drop_nil]
    rw [h, nil_append, hnone]
    rcases hu with h' | ⟨rest, h'⟩
    · rw [h']
      rfl
    · rw [h']
      exact if_neg (by decide)
  · have hattrs : comma ∉ entryAttrs t := fun hc =>
      ht ((dropWhile_sublist _).subset (mem_of_mem_drop hc))
    rw [h, cons_append]
    simp only [if_true]
    exact firstWord_trim hattrs hu

theorem attrEntry_spaced (hsp : Spaced t) :
    (attrEntry t).1 = trim (entryName t) ∧ (attrEntry t).2.getD [] = trim (entryAttrs t) := by
  have hname : strim (entryName t) = trim (entryName t) :=
    strim_spaced (spaced_sub hsp fun c hc => (takeWhile_sublist _).subset hc)
  have hattrs : strim (entryAttrs t) = trim (entryAttrs t) := strim_spaced (spaced_sub hsp fun c hc =>
    (dropWhile_sublist _).subset (mem_of_mem_drop hc))
  unfold attrEntry
  rcases (entry_split t).2 with h | h
  · rw [h]
    refine ⟨hname, ?_⟩
    rw [entryAttrs, h]
    rfl
  · rw [h]
    exact ⟨hname, hattrs⟩

theorem lastAttrs_walk_cons (hn : ListName name) (hsp : Spaced t) (entries : List Str) :
    lastAttrs ((((t :: entries).filter fun entry => entry != []).map attrEntry).filter
        fun e => e.1 != []) name =
      match lastAttrs (((entries.filter fun entry => entry != []).map attrEntry).filter
        fun e => e.1 != []) name with
      | some a => some a
      | none => if trim (entryName t) = name then some (trim (entryAttrs t)) else none := by
  obtain ⟨h1, h2⟩ := attrEntry_spaced hsp
  by_cases hname : trim (entryName t) = []
  · -- an entry without a name is skipped
    have hne : trim (entryName t) ≠ name := fun h => hn.nonempty (h ▸ hname)
    have hskip : ∀ l : List (Str × Option Str), (attrEntry t :: l).filter (fun e => e.1 != []) =
        l.filter fun e => e.1 != [] := fun l => filter_cons_of_neg (by simp [h1, hname])
    rw [if_neg hne]
    by_cases ht : t = []
    · rw [filter_cons_of_neg (by simp [ht])]
      cases lastAttrs _ name <;> rfl
    · rw [filter_cons_of_pos (by simp [ht]), map_cons, hskip]
      cases lastAttrs _ name <;> rfl
  · have ht : t ≠ [] := by
      rintro rfl
      exact hname rfl
    rw [filter_cons_of_pos (by simp [ht]), map_cons,
      filter_cons_of_pos (by simp [h1, hname]), lastAttrs, h1, h2]

theorem envAttrLookup_cons {rest : Str} (hn : ListName name) (ht : comma ∉ t) :
    envAttrLookup (some (t ++ comma :: rest)) name =
      match envAttrLookup (some rest) name with
      | some a => some a
      | none => if trim (entryName t) = name then some (firstWord (trim (entryAttrs t))) else none := by
  have hend : EntryEnd (comma :: rest) := .inr ⟨rest, rfl⟩
  have hlast : LastAt (Exact rest name) (reverseNameSearch rest name) :=
    reverseNameSearch_last hn.nonempty
  have hpos : ∀ q, Exact (t ++ comma :: rest) name q → q ≤ t.length ∨ ∃ p, q = t.length + 1 + p := by
    intro q hq
    rcases Nat.lt_or_ge t.length q with h | h
    · exact .inr ⟨q - (t.length + 1), by lia⟩
    · exact .inl h
  have hfirst : (t.takeWhile (· == space)).length ≤ t.length := (takeWhile_sublist _).length_le
  simp only [envAttrLookup, if_neg hn.nonempty]
  cases hr : reverseNameSearch rest name with
  | some p =>
    rw [hr] at hlast
    have hfound : LastAt (Exact (t ++ comma :: rest) name) (some (t.length + 1 + p)) := by
      refine ⟨(exact_behind t rest name p).mpr hlast.1, fun q hq hexact => ?_⟩
      obtain ⟨p', rfl⟩ := (hpos q hexact).resolve_left (by lia)
      exact hlast.2 p' (by lia) ((exact_behind t rest name p').mp hexact)
    rw [lastAt_unique (reverseNameSearch_last hn.nonempty) hfound]
    simp only [Option.map_some]
    rw [show t.length + 1 + p + name.length = t.length + (p + name.length + 1) by lia,
      drop_append, drop_eq_nil_of_le (by lia), nil_append, Nat.add_sub_cancel_left,
      drop_succ_cons]
  | none =>
    rw [hr] at hlast
    have hnone : ∀ p, ¬Exact (t ++ comma :: rest) name (t.length + 1 + p) := fun p h =>
      hlast p ((exact_behind t rest name p).mp h)
    simp only [Option.map_none]
    by_cases hname : trim (entryName t) = name
    · have hfound : LastAt (Exact (t ++ comma :: rest) name)
          (some (t.takeWhile (· == space)).length) := by
        refine ⟨(exact_first ht hend hn hfirst).mpr ⟨hname, rfl⟩, fun q hq hexact => ?_⟩
        rcases hpos q hexact with h | ⟨p', rfl⟩
        · exact absurd ((exact_first ht hend hn h).mp hexact).2 (by lia)
        · exact hnone p' hexact
      rw [lastAt_unique (reverseNameSearch_last hn.nonempty) hfound, if_pos hname, Option.map_some,
        attributesAt_entry ht hend hn hname]
    · have hfound : LastAt (Exact (t ++ comma :: rest) name) none := by
        intro q hexact
        rcases hpos q hexact with h | ⟨p', rfl⟩
        · exact hname ((exact_first ht hend hn h).mp hexact).1
        · exact hnone p' hexact
      rw [lastAt_unique (reverseNameSearch_last hn.nonempty) hfound, if_neg hname, Option.map_none]

theorem envAttrLookup_single (hn : ListName name) (ht : comma ∉ t) :
    envAttrLookup (some t) name =
      if trim (entryName t) = name then some (firstWord (trim (entryAttrs t))) else none := by
  have hfirst : (t.takeWhile (· == space)).length ≤ t.length := (takeWhile_sublist _).length_le
  have hexact : ∀ q, q ≤ t.length → (Exact t name q ↔
      trim (entryName t) = name ∧ q = (t.takeWhile (· == space)).length) := by
    intro q hq
    have h := exact_first ht (.inl rfl) hn hq
    rwa [append_nil] at h
  have hattr : trim (entryName t) = name →
      attributesAt (t.drop ((t.takeWhile (· == space)).length + name.length)) =
        firstWord (trim (entryAttrs t)) := by
    intro hname
    have h := attributesAt_entry ht (.inl rfl) hn hname
    rwa [append_nil] at h
  simp only [envAttrLookup, if_neg hn.nonempty]
  by_cases hname : trim (entryName t) = name
  · have hfound : LastAt (Exact t name) (some (t.takeWhile (· == space)).length) := by
      refine ⟨(hexact _ hfirst).mpr ⟨hname, rfl⟩, fun q hq h => ?_⟩
      have hlt := exact_le hn.nonempty h
      exact absurd ((hexact q (by lia)).mp h).2 (by lia)
    rw [lastAt_unique (reverseNameSearch_last hn.nonempty) hfound, if_pos hname, Option.map_some,
      hattr hname]
  · have hfound : LastAt (Exact t name) none := fun q h =>
      hname ((hexact q (exact_le hn.nonempty h).le).mp h).1
    rw [lastAt_unique (reverseNameSearch_last hn.nonempty) hfound, if_neg hname, Option.map_none]

/-- `env_attr_lookup` finds the last entry of the name that `env_attr_walk` visits, and
returns the first word of its attributes. -/
theorem envAttrLookup_eq (hn : ListName name) (list : Str) (hsp : Spaced list) :
    envAttrLookup (some list) name = (lastAttrs (envAttrWalk (some list)) name).map firstWord := by
  induction h : list.length using Nat.strong_induction_on generalizing list with
  | _ n ih =>
    subst h
    by_cases hc : comma ∈ list
    · obtain ⟨t, rest, rfl, ht⟩ := eq_append_cons_of_mem hc
      have hrest : Spaced rest := spaced_sub hsp fun c hc => by simp [hc]
      have ht' : Spaced t := spaced_sub hsp fun c hc => by simp [hc]
      rw [envAttrLookup_cons hn ht, ih rest.length (by simp; lia) rest hrest rfl]
      simp only [envAttrWalk, splitOn_append_cons_self_of_not_mem ht]
      rw [lastAttrs_walk_cons hn ht']
      cases lastAttrs _ name with
      | none => split_ifs <;> rfl
      | some a => rfl
    · rw [envAttrLookup_single hn hc]
      simp only [envAttrWalk, splitOn_eq_singleton hc]
      rw [lastAttrs_walk_cons hn hsp]
      simp only [filter_nil, map_nil, lastAttrs]
      split_ifs <;> rfl

theorem walk_within {e : Str × Option Str} (list : Str) (he : e ∈ envAttrWalk (some list)) :
    e.1 <:+: list := by
  have hstrim : ∀ s, strim s <:+: s := fun s =>
    ( rdropWhile_prefix isspace _).isInfix.trans (dropWhile_suffix _).isInfix
  have hentry : ∀ t, (attrEntry t).1 <:+: t := by
    intro t
    have hname := (hstrim (t.takeWhile (· != colon))).trans ( takeWhile_prefix _).isInfix
    unfold attrEntry
    cases t.dropWhile (· != colon) with
    | nil => exact hname
    | cons c a => exact hname
  have hpart : ∀ list : Str, ∀ t ∈ list.splitOn comma, t <:+: list := by
    intro list
    induction h : list.length using Nat.strong_induction_on generalizing list with
    | _ n ih =>
      subst h
      intro t ht
      by_cases hc : comma ∈ list
      · obtain ⟨t', rest, rfl, ht'⟩ := eq_append_cons_of_mem hc
        rw [splitOn_append_cons_self_of_not_mem ht'] at ht
        rcases mem_cons.mp ht with rfl | hmem
        · exact infix_append' [] _ _
        · have hrest := ih rest.length (by simp; lia) rest rfl t hmem
          exact hrest.trans ⟨t' ++ [comma], [], by simp⟩
      · rw [splitOn_eq_singleton hc] at ht
        rw [mem_singleton.mp ht]
  obtain ⟨hmem, -⟩ := mem_filter.mp he
  obtain ⟨t, ht, rfl⟩ := mem_map.mp hmem
  exact (hentry t).trans (hpart list t (mem_filter.mp ht).1)

theorem lastAttrs_mem {entries : List (Str × Option Str)} {a : Str}
    (h : lastAttrs entries name = some a) : ∃ e ∈ entries, e.1 = name ∧ e.2.getD [] = a := by
  induction entries with
  | nil => simp [lastAttrs] at h
  | cons e entries ih =>
    rw [lastAttrs] at h
    cases hl : lastAttrs entries name with
    | some a' =>
      rw [hl] at h
      obtain ⟨e', he', h'⟩ := ih (hl.trans h)
      exact ⟨e', mem_cons_of_mem _ he', h'⟩
    | none =>
      rw [hl] at h
      by_cases hn : e.1 = name
      · rw [if_pos hn] at h
        exact ⟨e, mem_cons_self, hn, Option.some.inj h⟩
      · simp [hn] at h

theorem envAttrLookup_missing {list : Str} (h : ¬name <:+: list) :
    envAttrLookup (some list) name = none ∧ lastAttrs (envAttrWalk (some list)) name = none := by
  have hname : name ≠ [] := by
    rintro rfl
    exact h nil_infix
  constructor
  · have hfound : LastAt (Exact list name) none := by
      intro q hexact
      exact h (hexact.1.isInfix.trans (drop_suffix q list).isInfix)
    simp only [envAttrLookup, if_neg hname]
    rw [lastAt_unique (reverseNameSearch_last hname) hfound, Option.map_none]
  · cases hl : lastAttrs (envAttrWalk (some list)) name with
    | none => rfl
    | some a =>
      obtain ⟨e, he, rfl, -⟩ := lastAttrs_mem hl
      exact absurd (walk_within list he) h

theorem walk_start {list a : Str} (h : lastAttrs (envAttrWalk (some list)) name = some a) :
    a.head? ≠ some space := by
  have hstrim : ∀ s : Str, (strim s).head? ≠ some space := by
    intro s hs
    obtain ⟨z, hz⟩ := rdropWhile_prefix isspace (s.dropWhile isspace)
    have hhead := head?_dropWhile_not isspace s
    have hs' : ((s.dropWhile isspace).rdropWhile isspace).head? = some space := hs
    rw [← hz, head?_append, hs', Option.some_or] at hhead
    exact absurd hhead (by decide)
  obtain ⟨e, he, -, rfl⟩ := lastAttrs_mem h
  obtain ⟨t, -, rfl⟩ := mem_map.mp (mem_filter.mp he).1
  unfold attrEntry
  cases t.dropWhile (· != colon) with
  | nil => simp
  | cons c a => exact hstrim a

end Last

end UBoot.Env
