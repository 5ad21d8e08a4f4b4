import Mathlib.Data.List.DropRight
import UBoot.Env.ImageText
import UBoot.Env.Imported

/-!
# The readers of the stored environment

U-Boot stores a variable with its backslashes escaped and takes escapes out when it imports the
image. `getenv_f` and the Linux tool read the bytes as they are.
-/

namespace UBoot.Env

open Function List

def unescaped (v : Str) : Str := (unescape nul v).1

section Unescaped

theorem unescape_stored (v rest : Str) (hv : nul ∉ v) :
    unescape nul (v ++ nul :: rest) = (unescaped v, nul :: rest) := by
  induction v using unescape.induct nul with
  | case1 => exact unescape_stop (.inl rfl) rest
  | case2 c cs h =>
    rw [or_self] at h
    exact absurd (h ▸ mem_cons_self) hv
  | case3 h =>
    simp only [cons_append, nil_append, unescape_last h]
    rfl
  | case4 ds h => exact absurd (mem_cons_of_mem _ mem_cons_self) hv
  | case5 d ds hd h ih =>
    have ih := ih fun hm => hv (mem_cons_of_mem _ (mem_cons_of_mem _ hm))
    simp only [cons_append, unescape_escape h hd, ih, unescaped]
  | case6 c cs h hb ih =>
    have ih := ih fun hm => hv (mem_cons_of_mem _ hm)
    simp only [cons_append, unescape_plain h hb, ih, unescaped]

theorem unescaped_length (v : Str) : (unescaped v).length ≤ v.length := by
  unfold unescaped
  induction v using unescape.induct nul with
  | case1 => exact Nat.le_refl 0
  | case2 c cs h =>
    rw [unescape_stop h]
    exact Nat.zero_le _
  | case3 h => exact Nat.le_refl 1
  | case4 ds h =>
    rw [unescape_last h]
    simp
  | case5 d ds hd h ih =>
    rw [unescape_escape h hd]
    simp only [length_cons]
    lia
  | case6 c cs h hb ih =>
    rw [unescape_plain h hb]
    simp only [length_cons]
    lia

theorem unescaped_eq_iff (v : Str) (hv : nul ∉ v) : unescaped v = v ↔ backslash ∉ v.dropLast := by
  induction v using unescape.induct nul with
  | case1 => simp [unescaped, unescape]
  | case2 c cs h =>
    rw [or_self] at h
    exact absurd (h ▸ mem_cons_self) hv
  | case3 h => exact iff_of_true rfl (not_mem_nil)
  | case4 ds h => exact absurd (mem_cons_of_mem _ mem_cons_self) hv
  | case5 d ds hd h ih =>
    have hlen : (unescape nul ds).1.length ≤ ds.length := unescaped_length ds
    have hne : unescaped (backslash :: d :: ds) ≠ backslash :: d :: ds := by
      intro heq
      have h2 := congrArg List.length heq
      rw [unescaped, unescape_escape h hd] at h2
      simp only [length_cons] at h2
      lia
    exact iff_of_false hne (not_not.mpr mem_cons_self)
  | case6 c cs h hb ih =>
    have ih := ih fun hm => hv (mem_cons_of_mem _ hm)
    rw [unescaped, unescape_plain h hb, ← unescaped, List.cons.injEq, ih]
    cases cs with
    | nil => simp
    | cons d ds => simp [Ne.symm hb]

variable {v : Str}

theorem nul_not_mem_escape (hv : nul ∉ v) : nul ∉ escape nul v := by
  induction v with
  | nil => exact hv
  | cons c v ih =>
    have ih := ih fun h => hv (mem_cons_of_mem _ h)
    have hc : nul ≠ c := fun h => hv (h ▸ mem_cons_self)
    rw [escape]
    split_ifs
    · simp only [mem_cons, not_or]
      exact ⟨by decide, hc, ih⟩
    · simp only [mem_cons, not_or]
      exact ⟨hc, ih⟩

theorem unescaped_escape (hv : nul ∉ v) : unescaped (escape nul v) = v := by
  have h1 := unescape_stored (escape nul v) [] (nul_not_mem_escape hv)
  have h2 := unescape_escaped (show nul ≠ backslash by decide) v [] hv
  exact (Prod.mk.inj (h1.symm.trans h2)).1

theorem escape_eq_iff (hv : nul ∉ v) : escape nul v = v ↔ backslash ∉ v := by
  induction v with
  | nil => simp [escape]
  | cons c v ih =>
    have ih := ih fun h => hv (mem_cons_of_mem _ h)
    have hc : c ≠ nul := fun h => hv (h ▸ mem_cons_self)
    by_cases hb : c = backslash
    · have hlen := escape_length nul v
      have hne : escape nul (c :: v) ≠ c :: v := by
        intro heq
        have h2 := congrArg List.length heq
        rw [escape, if_pos (by simp [hb])] at h2
        simp only [length_cons] at h2
        lia
      exact iff_of_false hne (not_not.mpr (hb ▸ mem_cons_self))
    · rw [escape, if_neg (by simp [hb, hc]), List.cons.injEq, ih]
      simp [Ne.symm hb]

theorem escape_eq_nil {sep : UInt8} : escape sep v = [] ↔ v = [] := by
  cases v with
  | nil => simp [escape]
  | cons c v =>
    rw [escape]
    split_ifs <;> simp

end Unescaped

def entryLine (e : Str × Str) : Line :=
  if (e.1.dropWhile isblank).head? = some hash then .comment
  else if e.2 = [] then .delete (e.1.dropWhile isblank)
  else .enter (e.1.dropWhile isblank) (unescaped e.2)

section ImageLines

theorem dropWhile_isblank (name text : Str) :
    (name ++ equals :: text).dropWhile isblank = name.dropWhile isblank ++ equals :: text := by
  induction name with
  | nil => exact dropWhile_cons_of_neg (by decide)
  | cons c name ih =>
    rw [cons_append, dropWhile_cons, dropWhile_cons, ih]
    split_ifs <;> rfl

theorem lineOf_skip (sep : UInt8) (name text : Str) :
    lineOf sep (name ++ equals :: text) = lineOf sep (name.dropWhile isblank ++ equals :: text) := by
  have hskip := dropWhile_isblank (name.dropWhile isblank) text
  rw [dropWhile_idempotent] at hskip
  simp only [lineOf, dropWhile_isblank, hskip]

theorem lineOf_rawEntry {e : Str × Str} (he : Clean e) (rest : Str) :
    lineOf nul (rawEntry e ++ rest) = (entryLine e, rest) := by
  have htext : rawEntry e ++ rest = e.1 ++ equals :: (e.2 ++ nul :: rest) := by simp [rawEntry]
  obtain ⟨name, hname⟩ : ∃ name, name = e.1.dropWhile isblank := ⟨_, rfl⟩
  have hmem : ∀ c ∈ name, c ∈ e.1 := fun c hc => (dropWhile_sublist _).subset (hname ▸ hc)
  rw [htext, lineOf_skip, entryLine, ← hname]
  by_cases hh : name.head? = some hash
  · -- a comment runs up to the next NUL
    obtain ⟨c, cs, hcs⟩ : ∃ c cs, name = c :: cs := by
      cases name with
      | nil => simp at hh
      | cons c cs => exact ⟨c, cs, rfl⟩
    have hc : c = hash := by
      rw [hcs] at hh
      exact Option.some.inj hh
    have hbody : ∀ c ∈ name ++ equals :: e.2, inComment nul c = true := by
      intro c hc
      have hne : c ≠ nul := by
        rintro rfl
        rcases mem_append.mp hc with h | h
        · exact he.noNul (hmem _ h)
        · rcases mem_cons.mp h with h | h
          · exact absurd h (by decide)
          · exact he.value h
      simp [inComment, hne]
    have hskip : (name ++ equals :: (e.2 ++ nul :: rest)).dropWhile isblank =
        name ++ equals :: (e.2 ++ nul :: rest) := by
      rw [dropWhile_isblank, hname, dropWhile_idempotent]
    have hcomment : (name ++ equals :: (e.2 ++ nul :: rest)).dropWhile (inComment nul) =
        nul :: rest := by
      rw [← cons_append, ← append_assoc, dropWhile_append_of_pos hbody]
      exact dropWhile_cons_of_neg (by simp [inComment])
    have hhead : (name ++ equals :: (e.2 ++ nul :: rest)).head? = some hash := by
      rw [hcs, hc]
      rfl
    simp only [lineOf, hskip, if_pos hhead, hcomment, if_pos hh]
    rfl
  · have hin : ∀ c ∈ name, inName nul c = true := by
      intro c hc
      simp only [inName, Bool.and_eq_true, bne_iff_ne]
      exact ⟨⟨fun h => he.noEquals (h ▸ hmem c hc), fun h => he.noNul (h ▸ hmem c hc)⟩,
        fun h => he.noNul (h ▸ hmem c hc)⟩
    have hblank : ∀ c, name.head? = some c → isblank c = false := by
      intro c hc
      have h := head?_dropWhile_not isblank e.1
      rw [← hname, hc] at h
      exact h
    rw [lineOf_name hin hblank hh (by decide), if_neg hh]
    by_cases hv : e.2 = []
    · simp [hv]
    · have hhead : ¬((e.2 ++ nul :: rest).head? = some nul ∨ (e.2 ++ nul :: rest).head? = some nul) := by
        rw [or_self]
        obtain ⟨c, cs, hcs⟩ := exists_cons_of_ne_nil hv
        rw [hcs]
        intro h
        have hc : c = nul := Option.some.inj h
        exact he.value (by rw [hcs, hc]; exact mem_cons_self)
      rw [if_neg hhead, if_neg hv, unescape_stored e.2 rest he.value]
      rfl

theorem linesOf_entries (list : List (Str × Str)) (hclean : ∀ e ∈ list, Clean e) (hne : list ≠ [])
    (rest : Str) (fuel : ℕ) (hf : list.length ≤ fuel) :
    linesOf nul fuel (entriesText list ++ nul :: rest) = list.map entryLine := by
  induction list generalizing fuel with
  | nil => exact absurd rfl hne
  | cons e list ih =>
    rw [length_cons] at hf
    obtain _ | fuel := fuel
    · lia
    rw [entriesText_cons, append_assoc, linesOf, lineOf_rawEntry (hclean e mem_cons_self), map_cons]
    congr 1
    cases list with
    | nil => simp [entriesText]
    | cons e' list =>
      have hhead := rawEntry_head e' (hclean e' (by simp)) (entriesText list ++ nul :: rest)
      have hlen := rawEntry_length e'
      simp only [entriesText_cons, append_assoc]
      rw [if_pos ⟨by simp only [length_append, length_cons]; lia, hhead⟩]
      rw [← append_assoc, ← entriesText_cons]
      exact ih (fun x hx => hclean x (mem_cons_of_mem _ hx)) (by simp) fuel (by lia)

variable {data : ℕ → UInt8}

theorem text_bytes (p : ℕ) (s : Str) (h : Text data p s) : (List.range' p s.length).map data = s := by
  induction s generalizing p with
  | nil => rfl
  | cons c s ih => rw [length_cons, range'_succ, map_cons, h.1, ih (p + 1) h.2]

theorem Image.bytes {size : ℕ} {list : List (Str × Str)}
    (hi : Image size data list) : ∃ rest, (List.range size).map data = imageText list ++ rest := by
  have hsplit : List.range size = List.range' 0 (imageText list).length ++
      List.range' (imageText list).length (size - (imageText list).length) := by
    have h := @List.range'_append_1 0 (imageText list).length (size - (imageText list).length)
    rw [Nat.zero_add, Nat.add_sub_cancel' hi.fits] at h
    rw [range_eq_range', h]
  refine ⟨(List.range' (imageText list).length (size - (imageText list).length)).map data, ?_⟩
  rw [hsplit, map_append, text_bytes 0 _ hi.text]

/-- The lines that the import reads from an image. -/
theorem Image.lines {size : ℕ} {list : List (Str × Str)} (hi : Image size data list) :
    linesOf nul (size + 1) ((List.range size).map data ++ [nul]) =
      if list = [] then [.delete []] else list.map entryLine := by
  obtain ⟨rest, hrest⟩ := hi.bytes
  rw [hrest, append_assoc, imageText]
  by_cases hl : list = []
  · rw [if_pos hl, if_pos hl, hl, entriesText, flatMap_nil, nil_append]
    exact linesOf_zeros _ (by simp) size
  · have hlen := hi.length_lt
    have hcount := length_le_entriesText list
    rw [if_neg hl, if_neg hl, append_assoc]
    exact linesOf_entries list hi.clean hl _ _ (by lia)

end ImageLines

inductive Writer where
  | uboot
  | tool
  deriving Repr, DecidableEq

structure SetValue where
  writer : Writer
  value : Str
  deriving Repr, DecidableEq

def SetValue.raw (x : SetValue) : Str :=
  match x.writer with
  | .uboot => escape nul x.value
  | .tool => x.value

abbrev Vars := List (Str × SetValue)

def rawList (vars : Vars) : List (Str × Str) := vars.map fun e => (e.1, e.2.raw)

/-- Images with the variables that were set: the export of a table, a well-formed image,
and what `fw_env_write` makes of such an image. -/
inductive Stored (Callback : Type) (fw : FwEnv) : (ℕ → UInt8) → Vars → Prop where
  | exported {htab : Htab Callback} {m : Str → Option Str} {buffer : Str} (hl : Listed htab m)
      (hclean : ∀ key v, m key = some v → Clean (key, v))
      (h : hexportR htab nul (fun _ _ => true) fw.size = .done buffer) :
      Stored Callback fw (fun i => buffer.getD i nul)
        ((sortEntries (pairs htab)).map fun e => (e.1, ⟨.uboot, e.2⟩))
  | image {data : ℕ → UInt8} {list : List (Str × Str)} (h : Image fw.size data list) :
      Stored Callback fw data (list.map fun e => (e.1, ⟨.tool, e.2⟩))
  | write {data data' : ℕ → UInt8} {vars : Vars} {name : Str} {value : Option Str} {out : Wrote}
      (h : Stored Callback fw data vars) (hclean : Clean (name, value.getD []))
      (hw : fwEnvWrite fw data name value = (out, data')) :
      Stored Callback fw data' (out.effect vars name ⟨.tool, value.getD []⟩)

section Stored

variable {Callback : Type} {fw : FwEnv}

theorem effect_rawList (out : Wrote) (vars : Vars) (name value : Str) :
    rawList (out.effect vars name ⟨.tool, value⟩) = out.effect (rawList vars) name value := by
  have hfilter : rawList (vars.filter fun e => name != e.1) =
      (rawList vars).filter fun e => name != e.1 := by
    simp only [rawList, filter_map]
    rfl
  cases out with
  | done =>
    simp only [Wrote.effect, ← hfilter]
    simp [rawList, SetValue.raw]
  | deleted => exact hfilter
  | overflow => exact hfilter
  | _ => rfl

theorem text_getD (pre s rest : Str) : Text (fun i => (pre ++ (s ++ rest)).getD i nul) pre.length s := by
  induction s generalizing pre with
  | nil => trivial
  | cons c s ih =>
    refine ⟨by simp, ?_⟩
    have h := ih (pre ++ [c])
    simpa using h

theorem exported_entries (list : List (Str × Str)) :
    list.flatMap (exportEntry nul) = entriesText (rawList (list.map fun e => (e.1, ⟨.uboot, e.2⟩))) := by
  simp only [entriesText, rawList, map_map, flatMap_map]
  rfl

theorem hexportR_buffer {htab : Htab Callback} {sep : UInt8} {size : ℕ} {buffer : Str}
    (hsize : size ≠ 0) (h : hexportR htab sep (fun _ _ => true) size = .done buffer) :
    (exportBytes sep (sortEntries (pairs htab))).length ≤ size ∧
      buffer = exportBytes sep (sortEntries (pairs htab)) ++
        List.replicate (size - (exportBytes sep (sortEntries (pairs htab))).length) nul := by
  simp only [hexportR, ← pairs.eq_def, if_pos hsize] at h
  split_ifs at h with h1 h2
  exact ⟨Nat.le_of_not_lt h2, (Exported.done.inj h).symm⟩

theorem exported_image (hsize : 2 ≤ fw.size) {htab : Htab Callback} {m : Str → Option Str}
    {buffer : Str} (hl : Listed htab m) (hclean : ∀ key v, m key = some v → Clean (key, v))
    (h : hexportR htab nul (fun _ _ => true) fw.size = .done buffer) :
    Image fw.size (fun i => buffer.getD i nul)
      (rawList ((sortEntries (pairs htab)).map fun e => (e.1, ⟨.uboot, e.2⟩))) := by
  obtain ⟨list, hlist⟩ : ∃ l, l = rawList ((sortEntries (pairs htab)).map fun e =>
    (e.1, ⟨.uboot, e.2⟩)) := ⟨_, rfl⟩
  have hperm := sortEntries_perm (pairs htab)
  have hentry : ∀ e ∈ pairs htab, Clean e := fun e he => hclean e.1 e.2 ((mem_pairs hl e.1 e.2).mp he)
  -- the buffer is the text, and zeros up to its size
  have hbuf : buffer.length = fw.size ∧ ∃ rest, buffer = imageText list ++ rest := by
    obtain ⟨hle, hbuf⟩ := hexportR_buffer (by lia) h
    refine ⟨by rw [hbuf, length_append, length_replicate]; lia, ?_⟩
    rw [exportBytes, exported_entries, ← hlist] at hbuf hle
    unfold imageText
    by_cases hnil : list = []
    · obtain ⟨n, hn⟩ : ∃ n, fw.size = n + 2 := ⟨fw.size - 2, by lia⟩
      refine ⟨List.replicate n nul, ?_⟩
      rw [hbuf, if_pos hnil, hnil, hn]
      simp [entriesText, replicate_succ]
    · rw [if_neg hnil]
      exact ⟨_, hbuf⟩
  obtain ⟨hlen, rest, hrest⟩ := hbuf
  rw [← hlist]
  refine ⟨?_, ?_, ?_, ?_⟩
  · have h := text_getD [] (imageText list) rest
    rw [hrest]
    exact h
  · rw [← hlen, hrest, length_append]
    lia
  · intro e he
    rw [hlist, rawList, map_map] at he
    obtain ⟨x, hx, rfl⟩ := mem_map.mp he
    have hc := hentry x (hperm.mem_iff.mp hx)
    exact ⟨hc.noEquals, hc.noNul, nul_not_mem_escape hc.value⟩
  · rw [hlist, rawList, map_map, pairwise_map]
    exact (hperm.pairwise_iff fun h => h.symm).mpr (pairs_keys hl)

/-- Every stored image is well formed. -/
theorem stored_image (hsize : 2 ≤ fw.size) {data : ℕ → UInt8} {vars : Vars}
    (h : Stored Callback fw data vars) : Image fw.size data (rawList vars) := by
  induction h with
  | exported hl hclean h => exact exported_image hsize hl hclean h
  | image h =>
    simpa only [rawList, map_map, comp_def, SetValue.raw, map_id_fun', id] using h
  | write _ hclean hw ih =>
    rw [effect_rawList]
    exact ih.write fw rfl hclean hw

end Stored

def IsName (name : Str) : Prop := equals ∉ name ∧ nul ∉ name

/-- All readers return the values of the map: `getenv` after the import, `getenv_f` with a
buffer that is large enough, and `fw_getenv`. -/
structure ReadersAgree {Callback State : Type} (hooks : Hooks Callback State)
    (old : Option (Htab Callback)) (state : State) (configEnvSize size : ℕ) (data : ℕ → UInt8)
    (m : Str → Option Str) : Prop where
  getenv : ∃ s, envImport hooks old state data size = some (1, s) ∧
    ∀ name, IsName name → Env.getenv hooks s.htab s.state name = m name
  getenvF : ∀ name len, IsName name → (∀ v, m name = some v → v.length < len) →
    Env.getenvF data configEnvSize name len = (m name).map fun v => (v.length, v)
  fwGetenv : ∀ name, IsName name → Env.fwGetenv data size name = m name

/- The value that was set for a name, and the one that the import enters. -/
def setValue (vars : Vars) (name : Str) : Option Str := (vars.lookup name).map SetValue.value
def importedValue (vars : Vars) (name : Str) : Option Str :=
  (vars.lookup name).map fun x => unescaped x.raw

def SetValue.Plain (x : SetValue) : Prop :=
  match x.writer with
  | .uboot => backslash ∉ x.value
  | .tool => backslash ∉ x.value.dropLast

structure Kept (name : Str) : Prop where
  nonempty : name ≠ []
  noBlank : ∀ c, name.head? = some c → isblank c = false
  noHash : name.head? ≠ some hash

structure Readable (e : Str × SetValue) : Prop where
  name : Kept e.1
  value : e.2.value ≠ []
  plain : e.2.Plain

section Lookup

variable {α β : Type}

theorem lookup_map_snd (list : List (Str × α)) (f : α → β) (name : Str) :
    (list.map fun e => (e.1, f e.2)).lookup name = (list.lookup name).map f := by
  induction list with
  | nil => rfl
  | cons e list ih =>
    rw [map_cons, lookup_cons, lookup_cons, ih]
    cases name == e.1 <;> rfl

theorem lookup_of_mem {list : List (Str × α)} (hkeys : list.Pairwise fun a b => a.1 ≠ b.1)
    {e : Str × α} (he : e ∈ list) : list.lookup e.1 = some e.2 := by
  induction list with
  | nil => simp at he
  | cons x list ih =>
    rw [pairwise_cons] at hkeys
    rcases mem_cons.mp he with rfl | h
    · exact lookup_cons_self
    · rw [lookup_cons, beq_false_of_ne (hkeys.1 e h).symm]
      exact ih hkeys.2 h

theorem mem_of_lookup {list : List (Str × α)} {name : Str} {x : α}
    (h : list.lookup name = some x) : (name, x) ∈ list := by
  obtain ⟨l₁, l₂, rfl, -⟩ := lookup_eq_some_iff.mp h
  simp

end Lookup

theorem kept_dropWhile {name : Str} (h : Kept name) : name.dropWhile isblank = name := by
  obtain ⟨c, cs, rfl⟩ := exists_cons_of_ne_nil h.nonempty
  exact dropWhile_cons_of_neg (by rw [h.noBlank c rfl]; decide)

section Agree

variable {Callback State : Type} {hooks : Hooks Callback State} {fw : FwEnv} {data : ℕ → UInt8}
  {vars : Vars}

theorem vars_keys (hi : Image fw.size data (rawList vars)) : vars.Pairwise fun a b => a.1 ≠ b.1 := by
  have h := hi.keys
  rw [rawList, pairwise_map] at h
  exact h

theorem vars_clean (hi : Image fw.size data (rawList vars)) {e : Str × SetValue} (he : e ∈ vars) :
    Clean (e.1, e.2.raw) := hi.clean _ (mem_map.mpr ⟨e, he, rfl⟩)

theorem raw_eq_nil (x : SetValue) : x.raw = [] ↔ x.value = [] := by
  obtain ⟨writer, value⟩ := x
  cases writer with
  | uboot => exact escape_eq_nil
  | tool => exact Iff.rfl

theorem value_noNul {x : SetValue} (h : nul ∉ x.raw) : nul ∉ x.value := by
  obtain ⟨writer, value⟩ := x
  cases writer with
  | tool => exact h
  | uboot =>
    induction value with
    | nil => exact h
    | cons c v ih =>
      simp only [SetValue.raw, escape] at h ih ⊢
      split_ifs at h <;> grind

theorem plain_iff (x : SetValue) (h : nul ∉ x.raw) :
    x.Plain ↔ x.raw = x.value ∧ unescaped x.raw = x.value := by
  have hv := value_noNul h
  obtain ⟨writer, value⟩ := x
  cases writer with
  | tool =>
    have hiff := unescaped_eq_iff value hv
    exact ⟨fun hp => ⟨rfl, hiff.mpr hp⟩, fun hp => hiff.mp hp.2⟩
  | uboot =>
    have hiff := escape_eq_iff hv
    exact ⟨fun hp => ⟨hiff.mpr hp, unescaped_escape hv⟩, fun hp => hiff.mp hp.1⟩

theorem import_kept (hi : Image fw.size data (rawList vars)) (hsize : 2 ≤ fw.size)
    (ha : AcceptsNew hooks (importedValue vars)) (old : Option (Htab Callback)) (state : State)
    {new : Htab Callback} (hnew : importTable old fw.size 0 = some new)
    (hkept : ∀ e ∈ vars, Kept e.1 ∧ e.2.value ≠ []) (hroom : vars.length ≤ new.size) :
    ∃ s, envImport hooks old state data fw.size = some (1, s) ∧ WellFormed s.htab ∧
      Represents s.htab (importedValue vars) := by
  have hlen : ((List.range fw.size).map data).length = fw.size := by simp
  have hne : (List.range fw.size).map data ≠ [] := by
    intro h
    rw [h] at hlen
    simp at hlen
    lia
  have hkeys : (vars.map fun e => (e.1, unescaped e.2.raw)).Pairwise fun a b => a.1 ≠ b.1 := by
    rw [pairwise_map]
    exact vars_keys hi
  have hlines : linesOf nul (fw.size + 1) ((List.range fw.size).map data ++ [nul]) =
      enterLines (vars.map fun e => (e.1, unescaped e.2.raw)) := by
    rw [hi.lines, enterLines, rawList, map_map, map_map]
    by_cases hnil : vars = []
    · simp [hnil]
    · rw [if_neg (by simpa using hnil), if_neg (by simpa using hnil)]
      apply map_congr_left
      intro e he
      obtain ⟨hk, hv⟩ := hkept e he
      have hraw : e.2.raw ≠ [] := fun h => hv ((raw_eq_nil e.2).mp h)
      simp only [comp_apply, entryLine, enterLine, kept_dropWhile hk, if_neg hk.noHash,
        if_neg hraw]
  refine himportR_enterLines ha old state hne (vars.map fun e => (e.1, unescaped e.2.raw))
    hkeys ?_ ?_ (by rw [hlen]; exact hlines) (by rw [hlen]; exact hnew)
    (by rw [length_map]; exact hroom)
  · intro e he
    obtain ⟨x, hx, rfl⟩ := mem_map.mp he
    exact (hkept x hx).1.nonempty
  · intro key v
    unfold importedValue
    rw [← lookup_map_snd vars (fun x => unescaped x.raw)]
    constructor
    · exact fun h => lookup_of_mem hkeys h
    · exact mem_of_lookup

theorem getenv_kept (hi : Image fw.size data (rawList vars)) (hsize : 2 ≤ fw.size)
    {old : Option (Htab Callback)} {state : State} {new : Htab Callback}
    (hnew : importTable old fw.size 0 = some new) {s : Importing Callback State}
    (hs : envImport hooks old state data fw.size = some (1, s))
    (hget : ∀ name, IsName name → getenv hooks s.htab s.state name = setValue vars name) :
    (∀ e ∈ vars, Kept e.1 ∧ e.2.value ≠ []) ∧ vars.length ≤ new.size := by
  have hlen : ((List.range fw.size).map data).length = fw.size := by simp
  have hne : (List.range fw.size).map data ≠ [] := by
    intro h
    rw [h] at hlen
    simp at hlen
    lia
  have hkeys := vars_keys hi
  obtain ⟨hk, hsz, hnil⟩ := himportR_keysIn hne (by rw [hlen]; exact hnew) hs
  rw [hlen, hi.lines] at hk hnil
  have hslot : ∀ e ∈ vars, ∃ i, (s.htab.table i).key = some e.1 := by
    intro e he
    have hclean := vars_clean hi he
    have hv := hget e.1 ⟨hclean.noEquals, hclean.noNul⟩
    rw [setValue, lookup_of_mem hkeys he] at hv
    exact getenv_slot hk.large hv
  -- a key in the table comes from an entry whose name is not skipped
  have hline : ∀ e ∈ vars, ∃ e' ∈ vars, e.1 = e'.1.dropWhile isblank ∧ e.1.head? ≠ some hash ∧
      e'.2.value ≠ [] ∧ e.1 ≠ [] := by
    intro e he
    obtain ⟨i, hkey⟩ := hslot e he
    have hent := (hk.mem i e.1 hkey).1
    have hnonempty : e.1 ≠ [] := fun h => hnil (h ▸ hent)
    obtain ⟨v, hv⟩ := hent
    have hraw : rawList vars ≠ [] := by
      intro h
      rw [rawList, map_eq_nil_iff] at h
      rw [h] at he
      simp at he
    rw [if_neg hraw, rawList, map_map, mem_map] at hv
    obtain ⟨e', he', hline⟩ := hv
    simp only [comp_apply, entryLine] at hline
    split_ifs at hline with h1 h2
    obtain ⟨hname, -⟩ := Line.enter.inj hline
    rw [← hname]
    exact ⟨e', he', rfl, h1, fun h => h2 ((raw_eq_nil e'.2).mpr h), hname ▸ hnonempty⟩
  have hkept : ∀ e ∈ vars, Kept e.1 := by
    intro e he
    obtain ⟨e', -, hname, hhash, -, hnonempty⟩ := hline e he
    refine ⟨hnonempty, fun c hc => ?_, hhash⟩
    have h := head?_dropWhile_not isblank e'.1
    rw [← hname, hc] at h
    exact h
  refine ⟨fun e he => ⟨hkept e he, ?_⟩, ?_⟩
  · obtain ⟨e', he', hname, -, hvalue, -⟩ := hline e he
    rw [kept_dropWhile (hkept e' he')] at hname
    have h1 := lookup_of_mem hkeys he
    have h2 := lookup_of_mem hkeys he'
    rw [hname, h2] at h1
    rw [← Option.some.inj h1]
    exact hvalue
  · have hnodup : (vars.map Prod.fst).Nodup := by
      rw [List.Nodup, pairwise_map]
      exact hkeys
    have hcount := keysIn_count hk hnodup fun name hname => by
      obtain ⟨e, he, rfl⟩ := mem_map.mp hname
      exact hslot e he
    rw [length_map, hsz] at hcount
    exact hcount

/-- The readers agree on a stored image exactly when the import skips none of its names
and values, the values have no backslash that is escaped on one side only, and the new
table has room for the variables. -/
theorem readers_agree_iff (hooks : Hooks Callback State) (fw : FwEnv) (data : ℕ → UInt8)
    (vars : Vars) (h : Stored Callback fw data vars) (hsize : 2 ≤ fw.size) (configEnvSize : ℕ)
    (hconfig : fw.size ≤ configEnvSize) (ha : AcceptsNew hooks (importedValue vars))
    (old : Option (Htab Callback)) (state : State) (new : Htab Callback)
    (hnew : importTable old fw.size 0 = some new) :
    ReadersAgree hooks old state configEnvSize fw.size data (setValue vars) ↔
      (∀ e ∈ vars, Readable e) ∧ vars.length ≤ new.size := by
  have hi := stored_image hsize h
  have hkeys := vars_keys hi
  have hlookup : ∀ name, (rawList vars).lookup name = (vars.lookup name).map SetValue.raw :=
    lookup_map_snd vars SetValue.raw
  constructor
  · rintro ⟨⟨s, hs, hget⟩, -, htool⟩
    obtain ⟨hkept, hroom⟩ := getenv_kept hi hsize hnew hs hget
    obtain ⟨s', hs', hw, hm⟩ := import_kept hi hsize ha old state hnew hkept hroom
    obtain ⟨-, rfl⟩ := Prod.mk.inj (Option.some.inj (hs.symm.trans hs'))
    refine ⟨fun e he => ⟨(hkept e he).1, (hkept e he).2, ?_⟩, hroom⟩
    have hclean := vars_clean hi he
    have hname : IsName e.1 := ⟨hclean.noEquals, hclean.noNul⟩
    have hraw := htool e.1 hname
    have himported := hget e.1 hname
    rw [hi.fwGetenv hname.1, hlookup, setValue, lookup_of_mem hkeys he] at hraw
    rw [getenv_represents hw hm, importedValue, setValue, lookup_of_mem hkeys he] at himported
    exact (plain_iff e.2 hclean.value).mpr ⟨Option.some.inj hraw, Option.some.inj himported⟩
  · rintro ⟨hread, hroom⟩
    have hplain : ∀ name, (vars.lookup name).map SetValue.raw = setValue vars name ∧
        importedValue vars name = setValue vars name := by
      intro name
      unfold importedValue setValue
      cases hx : vars.lookup name with
      | none => exact ⟨rfl, rfl⟩
      | some x =>
        have he := mem_of_lookup hx
        obtain ⟨h1, h2⟩ := (plain_iff x (vars_clean hi he).value).mp (hread _ he).plain
        exact ⟨congrArg some h1, congrArg some h2⟩
    obtain ⟨s, hs, hw, hm⟩ := import_kept hi hsize ha old state hnew
      (fun e he => ⟨(hread e he).name, (hread e he).value⟩) hroom
    refine ⟨⟨s, hs, fun name _ => ?_⟩, fun name len hname hlen => ?_, fun name hname => ?_⟩
    · rw [getenv_represents hw hm, (hplain name).2]
    · rw [hi.getenvF hconfig hname.1 (by rw [hlookup, (hplain name).1]; exact hlen), hlookup,
        (hplain name).1]
    · rw [hi.fwGetenv hname.1, hlookup, (hplain name).1]

end Agree

def smallTool : FwEnv := ⟨16, fun _ _ _ => false, fun _ => none⟩

theorem small_empty : Stored Unit smallTool (fun _ => nul) [] :=
  @Stored.image Unit smallTool (fun _ => nul) [] ⟨⟨rfl, rfl, trivial⟩, by decide, by simp, .nil⟩

/- The image after `fw_setenv a <value>`. -/
def smallImage (value : Str) : ℕ → UInt8 :=
  (fwEnvWrite smallTool (fun _ => nul) [97] (some value)).2

theorem small_written {value : Str} (hv : nul ∉ value)
    (h : (fwEnvWrite smallTool (fun _ => nul) [97] (some value)).1 = .done) :
    Stored Unit smallTool (smallImage value) [([97], ⟨.tool, value⟩)] := by
  have hclean : Clean ([97], (some value).getD []) :=
    ⟨show equals ∉ [97] by decide, show nul ∉ [97] by decide, hv⟩
  have hw := small_empty.write hclean Prod.mk.eta.symm
  rw [h] at hw
  exact hw

/- A backslash at the end of a value is left alone. -/
theorem readers_agree_last_backslash :
    ReadersAgree plainHooks none () 16 16 (smallImage [120, 92])
      (setValue [([97], ⟨.tool, [120, 92]⟩)]) := by
  obtain ⟨new, hnew, hw, -⟩ := importTable_new (none : Option (Htab Unit)) 16
  have h5 := hw.large
  refine (readers_agree_iff plainHooks smallTool (smallImage [120, 92]) [([97], ⟨.tool, [120, 92]⟩)]
    (small_written (by decide) rfl) (by decide) 16 (by decide) (plainHooks_acceptsNew _) none () new
    hnew).mpr ⟨fun e he => ?_, ?_⟩
  · rw [mem_singleton.mp he]
    exact ⟨⟨by decide, by simp [isblank, space, tab], by decide⟩, by decide,
      show backslash ∉ [120, 92].dropLast by decide⟩
  · simp only [length_singleton]
    lia

/- With `x\\y` stored by the tool, `getenv` returns `xy`; stored by U-Boot, the tool reads
two backslashes. -/
theorem readers_disagree :
    (Stored Unit smallTool (smallImage [120, 92, 121]) [([97], ⟨.tool, [120, 92, 121]⟩)] ∧
      ¬ReadersAgree plainHooks none () 16 16 (smallImage [120, 92, 121])
        (setValue [([97], ⟨.tool, [120, 92, 121]⟩)])) ∧
    ∃ data, Stored Unit smallTool data [([97], ⟨.uboot, [120, 92, 121]⟩)] ∧
      fwGetenv data 16 [97] = some [120, 92, 92, 121] := by
  refine ⟨⟨small_written (by decide) rfl, ?_⟩, ?_⟩
  · rintro ⟨⟨s, hs, hget⟩, -⟩
    have hread : (envImport plainHooks none () (smallImage [120, 92, 121]) 16).map
        (fun r => getenv plainHooks r.2.htab r.2.state [97]) = some (some [120, 121]) := by
      decide +kernel
    rw [hs, Option.map_some, hget [97] ⟨by decide, by decide⟩] at hread
    exact absurd hread (by decide)
  · have hgood := oneMap_good (v := [120, 92, 121]) ⟨by decide, by decide⟩
    have hdone : hexportR (oneEntry [120, 92, 121]) nul (fun _ _ => true) smallTool.size =
        .done [97, 61, 120, 92, 92, 121, 0, 0, 0, 0, 0, 0, 0, 0, 0, 0] := by decide
    have hvars : (sortEntries (pairs (oneEntry [120, 92, 121]))).map
        (fun e => (e.1, (⟨.uboot, e.2⟩ : SetValue))) = [([97], ⟨.uboot, [120, 92, 121]⟩)] := by decide
    have hstored := Stored.exported (oneEntry_listed [120, 92, 121])
      (fun key v h => ⟨(hgood key v h).1.noEquals, (hgood key v h).1.noNul, (hgood key v h).2.2⟩) hdone
    rw [hvars] at hstored
    exact ⟨_, hstored, by decide⟩

end UBoot.Env
