import UBoot.Env.Image

/-!
# Entries in the stored environment

An image stores a list of entries: the readers find the first entry of a name, and
`fw_env_write` moves it to the end.
-/

namespace UBoot.Env

open Function List

/- The bytes from `p` on are those of the string. -/
def Text (data : ℕ → UInt8) : ℕ → Str → Prop
  | _, [] => True
  | p, c :: s => data p = c ∧ Text data (p + 1) s

section Text

variable {data : ℕ → UInt8}

theorem text_append (p : ℕ) (s t : Str) :
    Text data p (s ++ t) ↔ Text data p s ∧ Text data (p + s.length) t := by
  induction s generalizing p with
  | nil => simp [Text]
  | cons c s ih =>
    rw [cons_append, Text, Text, ih, and_assoc, length_cons,
      show p + 1 + s.length = p + (s.length + 1) by lia]

theorem text_congr {k : ℕ → UInt8} (p : ℕ) (s : Str)
    (h : ∀ i, p ≤ i → i < p + s.length → k i = data i) : Text k p s ↔ Text data p s := by
  induction s generalizing p with
  | nil => simp [Text]
  | cons c s ih =>
    rw [length_cons] at h
    rw [Text, Text, h p le_rfl (by lia), ih (p + 1) fun i h1 h2 => h i (by lia) (by lia)]

theorem store_of_outside (p : ℕ) (s : Str) {i : ℕ} (h : i < p ∨ p + s.length ≤ i) :
    store data p s i = data i := by
  induction s generalizing data p with
  | nil => rfl
  | cons c s ih =>
    rw [length_cons] at h
    rw [store, ih (p + 1) (by lia), update_of_ne (by lia)]

theorem store_text (p : ℕ) (s : Str) : Text (store data p s) p s := by
  induction s generalizing data p with
  | nil => trivial
  | cons c s ih =>
    refine ⟨?_, ih (p + 1)⟩
    rw [store, store_of_outside (p + 1) s (.inl (by lia)), update_self]

variable {p : ℕ} {s : Str}

theorem cstr_text {fuel : ℕ} (h : Text data p (s ++ [nul])) (hs : nul ∉ s)
    (hf : s.length < fuel) : cstr data fuel p = s := by
  induction s generalizing fuel p with
  | nil =>
    obtain _ | fuel := fuel
    · lia
    rw [cstr, if_pos h.1]
  | cons c s ih =>
    rw [length_cons] at hf
    obtain _ | fuel := fuel
    · lia
    have hc : data p = c := h.1
    have hne : c ≠ nul := fun h => hs (h ▸ mem_cons_self)
    rw [cstr, hc, if_neg hne, ih h.2 (fun h => hs (mem_cons_of_mem _ h)) (by lia)]

theorem endOf_text {limit fuel : ℕ} (h : Text data p (s ++ [nul])) (hs : nul ∉ s)
    (hf : s.length < fuel) (hlimit : p + s.length ≤ limit) :
    endOf data limit fuel p = some (p + s.length) := by
  induction s generalizing fuel p with
  | nil =>
    obtain _ | fuel := fuel
    · lia
    rw [endOf, if_pos h.1]
    rfl
  | cons c s ih =>
    rw [length_cons] at hf hlimit ⊢
    obtain _ | fuel := fuel
    · lia
    have hc : data p = c := h.1
    have hne : c ≠ nul := fun h => hs (h ▸ mem_cons_self)
    rw [endOf, hc, if_neg hne, if_neg (by lia), ih h.2 (fun h => hs (mem_cons_of_mem _ h))
      (by lia) (by lia), show p + 1 + s.length = p + (s.length + 1) by lia]

theorem copyOut_text {len : ℕ} (h : Text data p (s ++ [nul])) (hs : nul ∉ s)
    (hlen : s.length < len) : copyOut data len p = (s, true) := by
  induction s generalizing len p with
  | nil =>
    obtain _ | len := len
    · lia
    rw [copyOut, if_pos h.1]
  | cons c s ih =>
    rw [length_cons] at hlen
    obtain _ | len := len
    · lia
    have hc : data p = c := h.1
    have hne : c ≠ nul := fun h => hs (h ▸ mem_cons_self)
    rw [copyOut, hc, if_neg hne, ih h.2 (fun h => hs (mem_cons_of_mem _ h)) (by lia)]

theorem envmatch_text {name key rest : Str} (h : Text data p (key ++ equals :: rest))
    (hkey : equals ∉ key) (hname : equals ∉ name) :
    envmatch data name p = if name = key then some (p + key.length + 1) else none := by
  induction name generalizing p key with
  | nil =>
    cases key with
    | nil =>
      have hp : data p = equals := h.1
      simp [envmatch, hp]
    | cons c key =>
      have hp : data p = c := h.1
      have hc : c ≠ equals := fun h => hkey (h ▸ mem_cons_self)
      simp [envmatch, hp, hc]
  | cons a name ih =>
    have ha : a ≠ equals := fun h => hname (h ▸ mem_cons_self)
    cases key with
    | nil =>
      have hp : data p = equals := h.1
      simp [envmatch, hp, ha]
    | cons c key =>
      have hp : data p = c := h.1
      rw [envmatch, hp]
      by_cases hac : a = c
      · subst hac
        rw [if_pos rfl, if_neg ha, ih h.2 (fun h => hkey (mem_cons_of_mem _ h))
          (fun h => hname (mem_cons_of_mem _ h)), length_cons]
        simp [show p + 1 + key.length = p + (key.length + 1) by lia]
      · simp [hac]

end Text

def rawEntry (e : Str × Str) : Str := e.1 ++ equals :: e.2 ++ [nul]

def entriesText (list : List (Str × Str)) : Str := list.flatMap rawEntry

def imageText (list : List (Str × Str)) : Str :=
  entriesText list ++ if list = [] then [nul, nul] else [nul]

/- Names and values are C strings, and names have no `=`. -/
structure Clean (e : Str × Str) : Prop where
  noEquals : equals ∉ e.1
  noNul : nul ∉ e.1
  value : nul ∉ e.2

/- A well-formed image of `size` bytes with its entries. -/
structure Image (size : ℕ) (data : ℕ → UInt8) (list : List (Str × Str)) : Prop where
  text : Text data 0 (imageText list)
  fits : (imageText list).length ≤ size
  clean : ∀ e ∈ list, Clean e
  keys : list.Pairwise fun a b => a.1 ≠ b.1

section Scan

variable {data : ℕ → UInt8}

theorem rawEntry_length (e : Str × Str) : (rawEntry e).length = e.1.length + e.2.length + 2 := by
  simp [rawEntry]
  lia

theorem entriesText_append (l₁ l₂ : List (Str × Str)) :
    entriesText (l₁ ++ l₂) = entriesText l₁ ++ entriesText l₂ := by
  simp [entriesText]

theorem entriesText_cons (e : Str × Str) (list : List (Str × Str)) :
    entriesText (e :: list) = rawEntry e ++ entriesText list := rfl

theorem length_le_entriesText (list : List (Str × Str)) : list.length ≤ (entriesText list).length := by
  induction list with
  | nil => rfl
  | cons e list ih =>
    rw [entriesText_cons, length_append, length_cons, rawEntry_length]
    lia

variable {limit : ℕ} {name : Str}

theorem scan_entry {fuel p : ℕ} {e : Str × Str} {rest : Str} (he : Clean e) (hname : equals ∉ name)
    (h : Text data p (rawEntry e ++ rest)) (hlimit : p + (rawEntry e).length ≤ limit) :
    scan data limit name (fuel + 1) p =
      if name = e.1 then some (some ⟨p, p + e.1.length + 1 + e.2.length, p + e.1.length + 1⟩)
      else scan data limit name fuel (p + (rawEntry e).length) := by
  have hlen := rawEntry_length e
  have hbody : Text data p ((e.1 ++ equals :: e.2) ++ [nul]) := ((text_append _ _ _).mp h).1
  have hno : nul ∉ e.1 ++ equals :: e.2 := by
    simp only [mem_append, mem_cons, not_or]
    exact ⟨he.noNul, by decide, he.value⟩
  have hfirst : data p ≠ nul := by
    intro h0
    cases hk : e.1 with
    | nil =>
      rw [hk] at hbody
      exact absurd (hbody.1.symm.trans h0) (by decide)
    | cons c k =>
      rw [hk] at hbody hno
      exact hno (mem_append_left _ (by rw [← h0, hbody.1]; exact mem_cons_self))
  have hbodylen : (e.1 ++ equals :: e.2).length = e.1.length + 1 + e.2.length := by
    simp
    lia
  have hend := endOf_text hbody hno (show _ < limit + 1 by lia) (show _ ≤ limit by lia)
  have hmatch := envmatch_text ((text_append _ _ _).mp hbody).1 he.noEquals hname
  rw [scan, if_neg hfirst, hend, hmatch]
  by_cases hk : name = e.1
  · simp only [hk, if_true, hbodylen]
    rw [← Nat.add_assoc, ← Nat.add_assoc]
  · simp only [hk, if_false]
    rw [hbodylen, hlen]
    congr 1
    lia

theorem scan_absent (hname : equals ∉ name) (list : List (Str × Str))
    (hclean : ∀ e ∈ list, Clean e) (habs : ∀ e ∈ list, name ≠ e.1) (fuel p : ℕ) (rest : Str)
    (h : Text data p (entriesText list ++ rest)) (hlimit : p + (entriesText list).length ≤ limit) :
    scan data limit name (fuel + list.length) p =
      scan data limit name fuel (p + (entriesText list).length) := by
  induction list generalizing p with
  | nil => rfl
  | cons e list ih =>
    rw [entriesText_cons, append_assoc] at h
    rw [entriesText_cons, length_append] at hlimit ⊢
    rw [length_cons, ← Nat.add_assoc, scan_entry (hclean e mem_cons_self) hname h
      (by lia), if_neg (habs e mem_cons_self),
      ih (fun x hx => hclean x (mem_cons_of_mem _ hx))
        (fun x hx => habs x (mem_cons_of_mem _ hx)) _ ((text_append _ _ _).mp h).2 (by lia),
      Nat.add_assoc]

variable {size : ℕ} {list : List (Str × Str)} (hi : Image size data list)

include hi

theorem Image.entries : Text data 0 (entriesText list ++ [nul]) := by
  have h := hi.text
  unfold imageText at h
  split_ifs at h with hnil
  · rw [hnil] at h ⊢
    exact ⟨h.1, trivial⟩
  · exact h

theorem Image.length_lt : (entriesText list).length + 1 ≤ size := by
  have h := hi.fits
  unfold imageText at h
  rw [length_append] at h
  split_ifs at h
  · simp at h
    lia
  · simp at h
    lia

theorem Image.scan_none (hlimit : size ≤ limit) (hname : equals ∉ name)
    (habs : list.lookup name = none) : scan data limit name (limit + 1) 0 = some none := by
  have hlen := hi.length_lt
  have hcount := length_le_entriesText list
  have hmiss : ∀ e ∈ list, name ≠ e.1 := by
    intro e he
    simpa using lookup_eq_none_iff.mp habs e he
  obtain ⟨fuel, hfuel⟩ : ∃ f, limit + 1 = f + 1 + list.length := ⟨limit - list.length, by lia⟩
  rw [hfuel, scan_absent hname list hi.clean hmiss _ 0 [nul] hi.entries (by lia), scan, if_pos]
  exact (((text_append _ _ _).mp hi.entries).2).1

variable {v : Str}

theorem Image.scan_some (hlimit : size ≤ limit) {l₁ l₂ : List (Str × Str)}
    (hname : equals ∉ name) (hl : list = l₁ ++ (name, v) :: l₂) (hmiss : ∀ e ∈ l₁, name ≠ e.1) :
    scan data limit name (limit + 1) 0 = some (some ⟨(entriesText l₁).length,
      (entriesText l₁).length + name.length + 1 + v.length,
      (entriesText l₁).length + name.length + 1⟩) := by
  have hlen := hi.length_lt
  have hentries := hi.entries
  rw [hl, entriesText_append, entriesText_cons] at hlen hentries
  rw [append_assoc, append_assoc] at hentries
  simp only [length_append] at hlen
  have hcount := length_le_entriesText l₁
  obtain ⟨fuel, hfuel⟩ : ∃ f, limit + 1 = f + 1 + l₁.length := ⟨limit - l₁.length, by lia⟩
  rw [hfuel, scan_absent hname l₁ (fun e he => hi.clean e (by rw [hl]; simp [he])) hmiss _ 0 _
    hentries (by lia), Nat.zero_add, scan_entry (hi.clean (name, v) (by rw [hl]; simp)) hname
    (by simpa using ((text_append _ _ _).mp hentries).2) (by lia), if_pos rfl]

theorem Image.split (h : list.lookup name = some v) :
    ∃ l₁ l₂, list = l₁ ++ (name, v) :: l₂ ∧ (∀ e ∈ l₁, name ≠ e.1) ∧ (∀ e ∈ l₂, name ≠ e.1) := by
  obtain ⟨l₁, l₂, hl, hmiss⟩ := lookup_eq_some_iff.mp h
  have hkeys := hi.keys
  rw [hl, pairwise_append, pairwise_cons] at hkeys
  exact ⟨l₁, l₂, hl, fun e he => by simpa using hmiss e he, hkeys.2.1.1⟩

theorem Image.value_text {l₁ l₂ : List (Str × Str)} (hl : list = l₁ ++ (name, v) :: l₂) :
    Text data ((entriesText l₁).length + name.length + 1) (v ++ [nul]) := by
  have h := hi.entries
  rw [hl, entriesText_append, entriesText_cons, append_assoc, append_assoc, text_append,
    text_append] at h
  have hvalue := h.2.1
  rw [rawEntry, append_assoc, cons_append, text_append, Nat.zero_add] at hvalue
  exact hvalue.2.2

/-- `fw_getenv` reads the stored value. -/
theorem Image.fwGetenv (hname : equals ∉ name) : Env.fwGetenv data size name = list.lookup name := by
  unfold Env.fwGetenv
  cases h : list.lookup name with
  | none => rw [hi.scan_none le_rfl hname h]
  | some v =>
    obtain ⟨l₁, l₂, hl, hmiss, -⟩ := hi.split h
    have hlen := hi.length_lt
    have hclean := hi.clean (name, v) (by rw [hl]; simp)
    rw [hl, entriesText_append, entriesText_cons, length_append, length_append,
      rawEntry_length] at hlen
    dsimp only at hlen
    rw [hi.scan_some le_rfl hname hl hmiss]
    simp only
    rw [cstr_text (hi.value_text hl) hclean.value (by lia)]

/-- `getenv_f` reads the stored value when the buffer is large enough. -/
theorem Image.getenvF {configEnvSize : ℕ} (hsize : size ≤ configEnvSize)
    (hname : equals ∉ name) {len : ℕ} (hlen : ∀ v, list.lookup name = some v → v.length < len) :
    Env.getenvF data configEnvSize name len = (list.lookup name).map fun v => (v.length, v) := by
  unfold Env.getenvF
  cases h : list.lookup name with
  | none =>
    rw [hi.scan_none hsize hname h]
    rfl
  | some v =>
    obtain ⟨l₁, l₂, hl, hmiss, -⟩ := hi.split h
    have hclean := hi.clean (name, v) (by rw [hl]; simp)
    rw [hi.scan_some hsize hname hl hmiss]
    simp only
    rw [copyOut_text (hi.value_text hl) hclean.value (hlen v h)]
    rfl

end Scan

def Sparse (s : Str) : Prop := s.IsChain fun a b => ¬(a = nul ∧ b = nul)

section Sparse

theorem sparse_body {s : Str} (h : nul ∉ s) : Sparse s := by
  induction s with
  | nil => exact isChain_nil
  | cons c s ih =>
    refine isChain_cons.mpr ⟨fun d _ hcd => h (hcd.1 ▸ mem_cons_self), ?_⟩
    exact ih fun hs => h (mem_cons_of_mem _ hs)

theorem rawEntry_head (e : Str × Str) (he : Clean e) (rest : Str) :
    (rawEntry e ++ rest).head? ≠ some nul := by
  unfold rawEntry
  cases hk : e.1 with
  | nil => exact fun h => absurd (Option.some.inj h) (by decide)
  | cons c k =>
    intro h
    have hc : c = nul := Option.some.inj h
    exact he.noNul (by rw [hk, hc]; exact mem_cons_self)

theorem sparse_entries (list : List (Str × Str)) (hclean : ∀ e ∈ list, Clean e) :
    Sparse (entriesText list) := by
  induction list with
  | nil => exact isChain_nil
  | cons e list ih =>
    have he := hclean e mem_cons_self
    have hno : nul ∉ e.1 ++ equals :: e.2 := by
      simp only [mem_append, mem_cons, not_or]
      exact ⟨he.noNul, by decide, he.value⟩
    rw [entriesText_cons]
    refine isChain_append.mpr ⟨isChain_append.mpr ⟨sparse_body hno, isChain_singleton _,
      fun x hx y _ hxy => hno (hxy.1 ▸ mem_of_mem_getLast? hx)⟩,
      ih fun x hx => hclean x (mem_cons_of_mem _ hx), fun x _ y hy hxy => ?_⟩
    cases list with
    | nil => simp [entriesText] at hy
    | cons e' list =>
      have hhead := rawEntry_head e' (hclean e' (by simp)) (entriesText list)
      rw [entriesText_cons] at hy
      exact hhead (hxy.2 ▸ hy)

theorem entriesText_last {list : List (Str × Str)} (h : list ≠ []) :
    ∃ t, entriesText list = t ++ [nul] := by
  obtain ⟨l, e, rfl⟩ := eq_nil_or_concat list |>.resolve_left h
  refine ⟨entriesText l ++ (e.1 ++ equals :: e.2), ?_⟩
  rw [concat_eq_append, entriesText_append]
  simp [entriesText, rawEntry]

variable {data : ℕ → UInt8}

theorem findEnd_text {fuel p : ℕ} {t : Str} (hs : Sparse (t ++ [nul]))
    (h : Text data p (t ++ [nul, nul])) (hf : t.length < fuel) : findEnd data fuel p = p + t.length := by
  induction t generalizing fuel p with
  | nil =>
    obtain _ | fuel := fuel
    · lia
    rw [findEnd, if_pos ⟨h.1, h.2.1⟩]
    rfl
  | cons c t ih =>
    rw [length_cons] at hf ⊢
    obtain _ | fuel := fuel
    · lia
    obtain ⟨hc, hs'⟩ := isChain_cons.mp hs
    have hnot : ¬(data p = nul ∧ data (p + 1) = nul) := by
      rintro ⟨h0, h1⟩
      refine hc nul ?_ ⟨h.1.symm.trans h0, rfl⟩
      have ht := h.2
      cases t with
      | nil => rfl
      | cons d t =>
        rw [← show d = nul from ht.1.symm.trans h1]
        rfl
    rw [findEnd, if_neg hnot, ih hs' h.2 (by lia)]
    lia

theorem shiftDown_text {fuel env nxt : ℕ} {t : Str} (hs : Sparse (t ++ [nul]))
    (h : Text data nxt (t ++ [nul, nul])) (hlt : env < nxt) (hf : t.length < fuel) :
    ∃ k, shiftDown fuel data env nxt = (k, env + t.length) ∧ Text k env (t ++ [nul]) ∧
      ∀ i, i < env → k i = data i := by
  induction t generalizing data fuel env nxt with
  | nil =>
    obtain _ | fuel := fuel
    · lia
    have h0 : data nxt = nul := h.1
    have h1 : data (nxt + 1) = nul := h.2.1
    have hcond : update data env (data nxt) env = nul ∧
        update data env (data nxt) (nxt + 1) = nul :=
      ⟨by rw [update_self, h0], by rw [update_of_ne (by lia), h1]⟩
    refine ⟨update data env (data nxt), ?_, ⟨hcond.1, trivial⟩, fun i hi => ?_⟩
    · simp only [shiftDown, if_pos hcond]
      rfl
    · rw [update_of_ne (by lia)]
  | cons c t ih =>
    rw [length_cons] at hf ⊢
    obtain _ | fuel := fuel
    · lia
    obtain ⟨hc, hs'⟩ := isChain_cons.mp hs
    have h0 : data nxt = c := h.1
    obtain ⟨k, hk⟩ : ∃ k, k = update data env c := ⟨_, rfl⟩
    have hold : ∀ i, i ≠ env → k i = data i := fun i hi => by rw [hk, update_of_ne hi]
    have hnot : ¬(k env = nul ∧ k (nxt + 1) = nul) := by
      rintro ⟨e0, e1⟩
      rw [hk, update_self] at e0
      rw [hold _ (by lia)] at e1
      refine hc nul ?_ ⟨e0, rfl⟩
      have ht := h.2
      cases t with
      | nil => rfl
      | cons d t =>
        rw [← show d = nul from ht.1.symm.trans e1]
        rfl
    have htext : Text k (nxt + 1) (t ++ [nul, nul]) :=
      (text_congr _ _ fun i hi _ => hold i (by lia)).mpr h.2
    obtain ⟨k', hrun, hk', hsame⟩ := ih hs' htext (show env + 1 < nxt + 1 by lia)
      (show t.length < fuel by lia)
    refine ⟨k', ?_, ⟨?_, hk'⟩, fun i hi => ?_⟩
    · simp only [shiftDown, h0, ← hk, if_neg hnot, hrun]
      rw [Nat.add_assoc, Nat.add_comm 1]
    · rw [hsame env (by lia), hk, update_self]
    · rw [hsame i (by lia), hold i (by lia)]

end Sparse

def Wrote.effect {α : Type} (list : List (Str × α)) (name : Str) (x : α) : Wrote → List (Str × α)
  | .done => list.filter (fun e => name != e.1) ++ [(name, x)]
  | .deleted => list.filter fun e => name != e.1
  | .overflow => list.filter fun e => name != e.1
  | _ => list

section Write

variable {size : ℕ} {data : ℕ → UInt8} {list : List (Str × Str)}

theorem imageText_of_ne {list : List (Str × Str)} (h : list ≠ []) :
    imageText list = entriesText list ++ [nul] := by
  rw [imageText, if_neg h]

theorem Image.remove {name v : Str} {l₁ l₂ : List (Str × Str)}
    (hi : Image size data (l₁ ++ (name, v) :: l₂)) :
    Image size (removeEntry size data (entriesText l₁).length
      ((entriesText l₁).length + name.length + 1 + v.length)) (l₁ ++ l₂) := by
  obtain ⟨env, henv⟩ : ∃ env, env = (entriesText l₁).length := ⟨_, rfl⟩
  have hentry : (rawEntry (name, v)).length = name.length + v.length + 2 := rawEntry_length (name, v)
  have hlen := hi.length_lt
  have htext := hi.entries
  rw [entriesText_append, entriesText_cons] at hlen htext
  simp only [length_append, hentry] at hlen
  rw [append_assoc, append_assoc, text_append, text_append, Nat.zero_add, hentry] at htext
  obtain ⟨hfirst, -, hrest⟩ := htext
  rw [← henv] at hlen hrest ⊢
  have hnext : env + name.length + 1 + v.length + 1 = env + (name.length + v.length + 2) := by lia
  have hsub : (l₁ ++ l₂).Sublist (l₁ ++ (name, v) :: l₂) :=
    List.Sublist.append_left (sublist_cons_self _ _) _
  -- the text is what has to be shown; the rest is that of a shorter list
  suffices h : ∃ k, removeEntry size data env (env + name.length + 1 + v.length) = k ∧
      Text k 0 (imageText (l₁ ++ l₂)) by
    obtain ⟨k, rfl, hk⟩ := h
    refine ⟨hk, ?_, fun e he => hi.clean e (hsub.subset he), hi.keys.sublist hsub⟩
    unfold imageText
    rw [entriesText_append, length_append, length_append, ← henv]
    split_ifs
    · simp
      lia
    · simp
      lia
  unfold removeEntry
  rw [hnext]
  by_cases hl : l₂ = []
  · subst hl
    refine ⟨_, if_pos hrest.1, ?_⟩
    have hold : Text (update (update data env nul) (env + 1) nul) 0
        (entriesText l₁) := (text_congr _ _ fun i _ hi => by
      rw [update_of_ne (by lia), update_of_ne (by lia)]).mpr hfirst
    have h0 : update (update data env nul) (env + 1) nul env = nul := by
      rw [update_of_ne (by lia), update_self]
    rw [append_nil, imageText, text_append, Nat.zero_add, ← henv]
    refine ⟨hold, ?_⟩
    split_ifs
    · exact ⟨h0, update_self .., trivial⟩
    · exact ⟨h0, trivial⟩
  · obtain ⟨t, ht⟩ := entriesText_last hl
    have hclean : ∀ e ∈ l₂, Clean e := fun e he => hi.clean e (by simp [he])
    have hsparse := sparse_entries l₂ hclean
    have hhead : data (env + (name.length + v.length + 2)) ≠ nul := by
      intro h0
      obtain ⟨e, l, rfl⟩ := exists_cons_of_ne_nil hl
      have hne := rawEntry_head e (hclean e mem_cons_self) (entriesText l)
      rw [← entriesText_cons] at hne
      cases hx : entriesText (e :: l) with
      | nil => rw [hx] at ht; simp at ht
      | cons c s =>
        rw [hx] at hrest hne
        exact hne (by rw [← h0, hrest.1]; rfl)
    rw [ht] at hrest hsparse
    have hrest' : Text data (env + (name.length + v.length + 2)) (t ++ [nul, nul]) := by
      rw [append_assoc] at hrest
      exact hrest
    rw [ht, length_append, length_singleton] at hlen
    obtain ⟨k, hrun, hk, hsame⟩ := shiftDown_text hsparse hrest' (show env < _ by lia)
      (show t.length < size + 1 by lia)
    refine ⟨_, if_neg hhead, ?_⟩
    simp only [hrun]
    rw [imageText_of_ne (by simp [hl]), entriesText_append, ht, append_assoc, text_append,
      text_append, Nat.zero_add, ← henv, length_append, length_singleton]
    refine ⟨(text_congr _ _ fun i _ hi => ?_).mpr hfirst, (text_congr _ _ fun i _ hi => ?_).mpr hk, ?_,
      trivial⟩
    · rw [update_of_ne (by lia), hsame i (by lia)]
    · rw [length_append, length_singleton] at hi
      rw [update_of_ne (by lia)]
    · rw [← Nat.add_assoc, update_self]

theorem Image.append (hi : Image size data list) {name text : Str} (hclean : Clean (name, text))
    (habs : ∀ e ∈ list, name ≠ e.1) :
    appendEntry size data name text = (.overflow, data) ∨
      ∃ k, appendEntry size data name text = (.done, k) ∧ Image size k (list ++ [(name, text)]) := by
  have hlen := hi.length_lt
  have hend : (if 0 < findEnd data (size + 1) 0 then findEnd data (size + 1) 0 + 1
      else findEnd data (size + 1) 0) = (entriesText list).length := by
    by_cases hl : list = []
    · have htext := hi.text
      rw [hl] at htext
      have hzero : findEnd data (size + 1) 0 = 0 := if_pos ⟨htext.1, htext.2.1⟩
      rw [hzero, hl]
      rfl
    · obtain ⟨t, ht⟩ := entriesText_last hl
      have hsparse := sparse_entries list hi.clean
      have htext := hi.text
      rw [imageText_of_ne hl, ht, append_assoc] at htext
      rw [ht] at hsparse hlen ⊢
      rw [length_append, length_singleton] at hlen ⊢
      -- an entry has more than its NUL
      have hpos : 0 < t.length := by
        obtain ⟨e, l, rfl⟩ := exists_cons_of_ne_nil hl
        have h := congrArg List.length ht
        rw [entriesText_cons, length_append, length_append, rawEntry_length, length_singleton] at h
        lia
      rw [findEnd_text hsparse htext (by lia), Nat.zero_add, if_pos hpos]
  unfold appendEntry
  simp only [hend]
  split_ifs with hover
  · exact .inl rfl
  · right
    have hstore : name ++ equals :: text ++ [nul, nul] = rawEntry (name, text) ++ [nul] := by
      simp [rawEntry]
    have htext := hi.entries
    rw [text_append, Nat.zero_add] at htext
    refine ⟨_, rfl, ?_, ?_, ?_, ?_⟩
    · have himage : imageText (list ++ [(name, text)]) =
          entriesText list ++ (rawEntry (name, text) ++ [nul]) := by
        rw [imageText_of_ne (by simp), entriesText_append]
        simp [entriesText]
      rw [himage, text_append, Nat.zero_add, hstore]
      refine ⟨(text_congr _ _ fun i _ hi => store_of_outside _ _ (.inl (by lia))).mpr htext.1, ?_⟩
      exact store_text _ _
    · have hentry : (rawEntry (name, text)).length = name.length + text.length + 2 :=
        rawEntry_length (name, text)
      rw [imageText_of_ne (by simp), entriesText_append, entriesText_cons]
      simp only [length_append, hentry, length_singleton, entriesText, flatMap_nil,
        length_nil] at hover ⊢
      lia
    · intro e he
      rcases mem_append.mp he with h | h
      · exact hi.clean e h
      · rw [mem_singleton.mp h]
        exact hclean
    · rw [pairwise_append]
      refine ⟨hi.keys, pairwise_singleton _ _, fun a ha b hb => ?_⟩
      rw [mem_singleton.mp hb]
      exact (habs a ha).symm

theorem filter_split {name v : Str} {l₁ l₂ : List (Str × Str)} (h₁ : ∀ e ∈ l₁, name ≠ e.1)
    (h₂ : ∀ e ∈ l₂, name ≠ e.1) : (l₁ ++ (name, v) :: l₂).filter (fun e => name != e.1) = l₁ ++ l₂ := by
  rw [filter_append, filter_cons_of_neg (by simp),
    filter_eq_self.mpr fun e he => by simpa using h₁ e he,
    filter_eq_self.mpr fun e he => by simpa using h₂ e he]

/-- `fw_env_write` keeps an image well formed, whatever it returns. -/
theorem Image.write (hi : Image size data list) (fw : FwEnv) (hsize : fw.size = size) {name : Str}
    {value : Option Str} (hclean : Clean (name, value.getD [])) {out : Wrote} {k : ℕ → UInt8}
    (h : fwEnvWrite fw data name value = (out, k)) :
    Image size k (out.effect list name (value.getD [])) := by
  subst hsize
  unfold fwEnvWrite at h
  cases hl : list.lookup name with
  | none =>
    have habs : ∀ e ∈ list, name ≠ e.1 := by
      intro e he
      simpa using lookup_eq_none_iff.mp hl e he
    have hfilter : list.filter (fun e => name != e.1) = list :=
      filter_eq_self.mpr fun e he => by simpa using habs e he
    simp only [hi.scan_none le_rfl hclean.noEquals hl] at h
    split_ifs at h
    · obtain ⟨rfl, rfl⟩ := Prod.mk.inj h
      exact hi
    · obtain ⟨rfl, rfl⟩ := Prod.mk.inj h
      exact hi
    · rcases hi.append hclean habs with hover | ⟨k', hdone, hk'⟩
      · obtain ⟨rfl, rfl⟩ := Prod.mk.inj (hover.symm.trans h)
        rw [Wrote.effect, hfilter]
        exact hi
      · obtain ⟨rfl, rfl⟩ := Prod.mk.inj (hdone.symm.trans h)
        rw [Wrote.effect, hfilter]
        exact hk'
  | some v =>
    obtain ⟨l₁, l₂, rfl, h₁, h₂⟩ := hi.split hl
    have hfilter := filter_split (v := v) h₁ h₂
    have hrem := hi.remove
    have habs : ∀ e ∈ l₁ ++ l₂, name ≠ e.1 := by
      intro e he
      rcases mem_append.mp he with h | h
      · exact h₁ e h
      · exact h₂ e h
    simp only [hi.scan_some le_rfl hclean.noEquals rfl h₁] at h
    split_ifs at h
    · obtain ⟨rfl, rfl⟩ := Prod.mk.inj h
      exact hi
    · obtain ⟨rfl, rfl⟩ := Prod.mk.inj h
      rw [Wrote.effect, hfilter]
      exact hrem
    · obtain ⟨rfl, rfl⟩ := Prod.mk.inj h
      exact hi
    · obtain ⟨rfl, rfl⟩ := Prod.mk.inj h
      exact hi
    · rcases hrem.append hclean habs with hover | ⟨k', hdone, hk'⟩
      · obtain ⟨rfl, rfl⟩ := Prod.mk.inj (hover.symm.trans h)
        rw [Wrote.effect, hfilter]
        exact hrem
      · obtain ⟨rfl, rfl⟩ := Prod.mk.inj (hdone.symm.trans h)
        rw [Wrote.effect, hfilter]
        exact hk'

end Write

end UBoot.Env
