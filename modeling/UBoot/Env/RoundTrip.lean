import UBoot.Env.FiniteMap
import UBoot.Env.Lines

/-!
# Export and import

What `hexport_r` writes is read back by `himport_r` into a new table. Pass 1 of the export counts no
escapes when the separator is NUL, while pass 2 writes them.
-/

namespace UBoot.Env

open Function List Option

structure GoodKey (sep : UInt8) (key : Str) : Prop where
  nonempty : key ≠ []
  noEquals : equals ∉ key
  noNul : nul ∉ key
  noSep : sep ∉ key
  noBlank : ∀ c, key.head? = some c → isblank c = false
  noHash : key.head? ≠ some hash

def GoodValue (v : Str) : Prop := v ≠ [] ∧ nul ∉ v

section Entry

variable {sep : UInt8}

theorem unescape_escaped (hs : sep ≠ backslash) (v rest : Str) (hv : nul ∉ v) :
    unescape sep (escape sep v ++ sep :: rest) = (v, sep :: rest) := by
  induction v with
  | nil => exact unescape_stop (.inr rfl) rest
  | cons c v ih =>
    have hc : c ≠ nul := fun h => hv (h ▸ mem_cons_self)
    have ih := ih fun h => hv (mem_cons_of_mem _ h)
    have hb : ¬(backslash = nul ∨ backslash = sep) := by
      rintro (h | h)
      · exact absurd h (by decide)
      · exact hs h.symm
    rw [escape]
    by_cases h : (c = sep || c = backslash) = true
    · rw [if_pos h, cons_append, cons_append, unescape_escape hb hc, ih]
    · rw [if_neg h, cons_append]
      simp only [Bool.or_eq_true, decide_eq_true_eq, not_or] at h
      rw [unescape_plain (by tauto) h.2, ih]

theorem escape_head (hs : sep ≠ backslash) {v : Str} (hv : GoodValue v) (rest : Str) :
    (escape sep v ++ rest).head? ≠ some nul ∧ (escape sep v ++ rest).head? ≠ some sep := by
  obtain ⟨hne, hnul⟩ := hv
  cases v with
  | nil => exact absurd rfl hne
  | cons c v =>
    have hc : c ≠ nul := fun h => hnul (h ▸ mem_cons_self)
    rw [escape]
    by_cases h : (c = sep || c = backslash) = true
    · rw [if_pos h]
      exact ⟨fun h' => absurd (some.inj h') (by decide), fun h' => hs (some.inj h').symm⟩
    · rw [if_neg h]
      simp only [Bool.or_eq_true, decide_eq_true_eq, not_or] at h
      exact ⟨fun h' => hc (some.inj h'), fun h' => h.1 (some.inj h')⟩

theorem lineOf_name {name : Str} (hin : ∀ c ∈ name, inName sep c = true)
    (hblank : ∀ c, name.head? = some c → isblank c = false) (hhash : name.head? ≠ some hash)
    (hs : sep ≠ equals) (text : Str) :
    lineOf sep (name ++ equals :: text) =
      if text.head? = some nul ∨ text.head? = some sep then (.delete name, text.drop 1)
      else (.enter name (unescape sep text).1, (unescape sep text).2.drop 1) := by
  have hout : inName sep equals = false := by simp [inName]
  have hskip : (name ++ equals :: text).dropWhile isblank = name ++ equals :: text := by
    cases name with
    | nil => exact dropWhile_cons_of_neg (by decide)
    | cons c cs => exact dropWhile_cons_of_neg (by rw [hblank c rfl]; decide)
  have hhead : (name ++ equals :: text).head? ≠ some hash := by
    cases name with
    | nil => exact fun h => absurd (some.inj h) (by decide)
    | cons c cs => exact hhash
  have hend : equals ≠ nul := by decide
  simp only [lineOf, hskip, if_neg hhead, takeWhile_append_of_pos hin,
    dropWhile_append_of_pos hin, takeWhile_cons, dropWhile_cons, hout,
    Bool.false_eq_true, if_false, append_nil, hend, hs.symm, false_or, if_true]

theorem GoodKey.inName {key : Str} (hk : GoodKey sep key) : ∀ c ∈ key, inName sep c = true := by
  intro c hc
  simp only [Env.inName, Bool.and_eq_true, bne_iff_ne]
  exact ⟨⟨fun h => hk.noEquals (h ▸ hc), fun h => hk.noNul (h ▸ hc)⟩, fun h => hk.noSep (h ▸ hc)⟩

/-- A line of the export is read back, and what follows it is left. -/
theorem lineOf_exportEntry (hs : sep = nul ∨ sep = newline) {key v : Str} (hk : GoodKey sep key)
    (hv : GoodValue v) (rest : Str) :
    lineOf sep (exportEntry sep (key, v) ++ rest) = (.enter key v, rest) := by
  have hs1 : sep ≠ backslash := by rcases hs with rfl | rfl <;> decide
  have hs2 : sep ≠ equals := by rcases hs with rfl | rfl <;> decide
  have htext : exportEntry sep (key, v) ++ rest = key ++ equals :: (escape sep v ++ sep :: rest) := by
    simp [exportEntry]
  have hhead := escape_head hs1 hv (sep :: rest)
  rw [htext, lineOf_name hk.inName hk.noBlank hk.noHash hs2, if_neg (by tauto), unescape_escaped hs1 v rest hv.2]
  rfl

end Entry

def enterLine (e : Str × Str) : Line := .enter e.1 e.2

theorem linesOf_export {sep : UInt8} (hs : sep = nul ∨ sep = newline) (list : List (Str × Str))
    (hgood : ∀ e ∈ list, GoodKey sep e.1 ∧ GoodValue e.2) (hne : list ≠ []) (zeros : Str) (fuel : ℕ)
    (hf : list.length ≤ fuel) :
    linesOf sep fuel (list.flatMap (exportEntry sep) ++ nul :: zeros) = list.map enterLine := by
  induction list generalizing fuel with
  | nil => exact absurd rfl hne
  | cons e list ih =>
    obtain ⟨fuel, rfl⟩ : ∃ f, fuel = f + 1 := ⟨fuel - 1, by rw [length_cons] at hf; lia⟩
    obtain ⟨hk, hv⟩ := hgood e mem_cons_self
    rw [flatMap_cons, append_assoc, linesOf, lineOf_exportEntry hs hk hv, map_cons]
    congr 1
    cases list with
    | nil => simp
    | cons e' list =>
      have hk' := (hgood e' (by simp)).1
      obtain ⟨c, cs, hc⟩ := exists_cons_of_ne_nil hk'.nonempty
      have hcn : c ≠ nul := fun h => hk'.noNul (by rw [hc, h]; exact mem_cons_self)
      rw [if_pos ⟨by simp [exportEntry]; lia, by simp [exportEntry, hc, hcn]⟩]
      refine ih (fun x hx => hgood x (mem_cons_of_mem _ hx)) (by simp) fuel ?_
      rw [length_cons] at hf
      lia

theorem linesOf_zeros {sep : UInt8} (zeros : Str) (hz : ∀ c, zeros.head? = some c → c = nul)
    (fuel : ℕ) : linesOf sep (fuel + 1) (nul :: zeros) = [.delete []] := by
  have hblank : isblank nul = false := by decide
  have hname : inName sep nul = false := by simp [inName]
  have hline : lineOf sep (nul :: zeros) = (.delete [], zeros) := by
    simp [lineOf, hblank, hname, show nul ≠ hash by decide, show nul ≠ equals by decide]
  rw [linesOf, hline]
  cases zeros with
  | nil => simp
  | cons c zeros => simp [hz c rfl]

section Pairs

variable {Callback : Type} {htab : Htab Callback} {m : Str → Option Str}

/- All entries, as pass 1 of an export of the whole table collects them. -/
def pairs (htab : Htab Callback) : List (Str × Str) := collect htab fun _ _ => true

structure Listed (htab : Htab Callback) (m : Str → Option Str) : Prop where
  represents : Represents htab m
  unique : ∀ i j key, Holds htab i key → Holds htab j key → i = j

theorem wellFormed_listed (hw : WellFormed htab) (hm : Represents htab m) : Listed htab m :=
  ⟨hm, hw.unique⟩

def slotPair (slot : Slot Callback) : Option (Str × Str) :=
  if 0 < slot.used then
    match slot.key, slot.data with
    | some key, some data => some (key, data)
    | _, _ => none
  else none

theorem slotPair_eq_some (slot : Slot Callback) (e : Str × Str) :
    slotPair slot = some e ↔ 0 < slot.used ∧ slot.key = some e.1 ∧ slot.data = some e.2 := by
  obtain ⟨k, v⟩ := e
  unfold slotPair
  by_cases hu : 0 < slot.used
  · rw [if_pos hu]
    cases slot.key with
    | none => simp
    | some key =>
      cases slot.data with
      | none => simp
      | some data => simp [hu]
  · simp [hu]

theorem pairs_eq (htab : Htab Callback) :
    pairs htab = (List.range' 1 htab.size).filterMap fun i => slotPair (htab.table i) := rfl

theorem mem_pairs (hl : Listed htab m) (key v : Str) : (key, v) ∈ pairs htab ↔ m key = some v := by
  rw [hl.represents key v, pairs_eq, mem_filterMap]
  simp only [slotPair_eq_some, mem_range'_1, Holds]
  constructor
  · rintro ⟨i, hi, hu, hk, hv⟩
    exact ⟨i, ⟨⟨by lia, by lia⟩, hu, hk⟩, hv⟩
  · rintro ⟨i, ⟨hi, hu, hk⟩, hv⟩
    exact ⟨i, by lia, hu, hk, hv⟩

theorem pairs_keys (hl : Listed htab m) : (pairs htab).Pairwise fun a b => a.1 ≠ b.1 := by
  rw [pairs_eq, pairwise_filterMap]
  have hrange : (List.range' 1 htab.size).Pairwise (· ≠ ·) := nodup_range'
  refine hrange.imp_of_mem fun {i j} hi hj hne a ha b hb hab => ?_
  rw [slotPair_eq_some] at ha hb
  rw [mem_range'_1] at hi hj
  exact hne (hl.unique i j a.1 ⟨⟨by lia, by lia⟩, ha.1, ha.2.1⟩
    ⟨⟨by lia, by lia⟩, hb.1, hab ▸ hb.2.1⟩)

end Pairs

section Fill

variable {Callback State : Type} {hooks : Hooks Callback State} {htab : Htab Callback}
  {m : Str → Option Str}

def NoDeleted (htab : Htab Callback) : Prop := ∀ i, 1 ≤ i → i ≤ htab.size → 0 ≤ (htab.table i).used

theorem noDeleted_roomFor (hw : WellFormed htab) (hn : NoDeleted htab)
    (hlt : htab.filled < htab.size) (key : Str) : RoomFor htab key := by
  left
  by_contra hall
  have hlive : liveSlots htab = Finset.Icc 1 htab.size := by
    apply Finset.filter_true_of_mem
    intro i hi
    rw [Finset.mem_Icc] at hi
    have hne : (htab.table i).used ≠ 0 := fun h => hall ⟨i, hi, h⟩
    have hpos := hn i hi.1 hi.2
    lia
  have hcount := hw.count
  rw [hlive, Nat.card_Icc] at hcount
  lia

def AcceptsNew (hooks : Hooks Callback State) (m : Str → Option Str) : Prop :=
  ∀ key v, m key = some v → Admits hooks key v 0

theorem enter_new {goal : Str → Option Str} (ha : AcceptsNew hooks goal) (hw : WellFormed htab)
    (hm : Represents htab m) (hn : NoDeleted htab) (hlt : htab.filled < htab.size) (state : State)
    {key v : Str} (hkey : m key = none) (hv : goal key = some v) :
    ∃ r, hsearchR hooks ⟨true, true⟩ htab state key (.enter v) 0 = some r ∧ WellFormed r.tab ∧
      Represents r.tab (update m key (some v)) ∧ NoDeleted r.tab ∧
      r.tab.filled = htab.filled + 1 ∧ r.tab.size = htab.size := by
  have habs := (represents_absent hw hm).mp hkey
  obtain ⟨idx, hfresh, hcreate⟩ := enter_absent hooks ⟨true, true⟩ state hw 0 v habs (by lia)
    (noDeleted_roomFor hw hn hlt key)
  obtain ⟨attr, r, hr, -, hsame⟩ := createEntry_admits (ha key v hv) htab state idx
  refine ⟨r, by rw [hcreate, hr], sameEntries_wellFormed hsame (putEntry_wellFormed hw hfresh habs v
    attr), represents_same hsame (represents_put hw hm hfresh habs v attr), fun i h1 h2 => ?_,
    hsame.filled, hsame.size⟩
  rw [hsame.used, putEntry_table]
  split_ifs
  · exact Int.natCast_nonneg _
  · exact hn i h1 (hsame.size ▸ h2)

theorem importLines_enter {goal : Str → Option Str} (ha : AcceptsNew hooks goal)
    (list : List (Str × Str)) (hkeys : list.Pairwise fun a b => a.1 ≠ b.1)
    (hlist : ∀ e ∈ list, e.1 ≠ [] ∧ goal e.1 = some e.2) (s : Importing Callback State)
    (hvars : s.vars = []) (hw : WellFormed s.htab) (hm : Represents s.htab m)
    (hn : NoDeleted s.htab) (hnew : ∀ e ∈ list, m e.1 = none)
    (hroom : s.htab.filled + list.length ≤ s.htab.size) :
    ∃ s' m', importLines hooks 0 s (list.map enterLine) = some (true, s') ∧ s'.vars = [] ∧
      WellFormed s'.htab ∧ Represents s'.htab m' ∧
      ∀ key v, m' key = some v ↔ m key = some v ∨ (key, v) ∈ list := by
  induction list generalizing s m with
  | nil => exact ⟨s, m, rfl, hvars, hw, hm, by simp⟩
  | cons e list ih =>
    obtain ⟨key, v⟩ := e
    obtain ⟨hne, hgoal⟩ := hlist _ mem_cons_self
    rw [length_cons] at hroom
    rw [pairwise_cons] at hkeys
    have hkey := hnew _ mem_cons_self
    obtain ⟨r, hr, hw', hm', hn', hfilled, hsize⟩ :=
      enter_new ha hw hm hn (by lia) s.state hkey hgoal
    have hline : importLine hooks 0 s (.enter key v) = some (true, ⟨r.tab, r.state, []⟩) := by
      have hne' : key ≠ [] := hne
      simp [importLine, hne', dropVarFromSet, hvars, hr]
    obtain ⟨s', m', hs, hvars', hw'', hm'', hall⟩ := ih hkeys.2
      (fun e he => hlist e (mem_cons_of_mem _ he)) ⟨r.tab, r.state, []⟩ rfl hw' hm' hn'
      (fun e he => by
        rw [update_of_ne (hkeys.1 e he).symm]
        exact hnew e (mem_cons_of_mem _ he))
      (by rw [hfilled, hsize]; lia)
    refine ⟨s', m', ?_, hvars', hw'', hm'', fun k w => ?_⟩
    · simp only [map_cons, enterLine, importLines, hline]
      exact hs
    · rw [hall, mem_cons, Prod.mk.injEq]
      by_cases hk : k = key
      · subst hk
        rw [update_self, hkey]
        simp [eq_comm]
      · rw [update_of_ne hk]
        simp [hk]

end Fill

def backslashes (list : List (Str × Str)) : ℕ := (list.map fun e => e.2.count backslash).sum

theorem escape_length (sep : UInt8) (v : Str) :
    (escape sep v).length = v.length + v.countP (fun c => c = sep || c = backslash) := by
  induction v with
  | nil => rfl
  | cons c v ih =>
    rw [escape, countP_cons]
    split_ifs
    · simp only [length_cons, ih]
      lia
    · simp only [length_cons, ih]
      lia

theorem exportEntry_length (sep : UInt8) (e : Str × Str) :
    (exportEntry sep e).length = e.1.length + (escape sep e.2).length + 2 := by
  simp [exportEntry]
  lia

theorem length_le_export (sep : UInt8) (list : List (Str × Str)) :
    list.length ≤ (list.flatMap (exportEntry sep)).length := by
  induction list with
  | nil => rfl
  | cons e list ih =>
    rw [flatMap_cons, length_append, length_cons, exportEntry_length]
    lia

def escapes (sep : UInt8) (list : List (Str × Str)) : ℕ :=
  (list.map fun e => e.2.countP fun c => c = sep || c = backslash).sum

theorem stored_length (sep : UInt8) (list : List (Str × Str)) :
    (list.flatMap (exportEntry sep)).length + 2 * list.length =
      totlen sep list + if sep = nul then escapes sep list else 0 := by
  induction list with
  | nil => simp [totlen, escapes]
  | cons e list ih =>
    simp only [flatMap_cons, length_append, length_cons, exportEntry_length,
      escape_length, totlen, escapes, map_cons, sum_cons, entryLen] at ih ⊢
    split_ifs at ih ⊢
    · lia
    · lia

theorem stored_newline (list : List (Str × Str)) :
    (list.flatMap (exportEntry newline)).length + 2 * list.length = totlen newline list := by
  rw [stored_length, if_neg (by decide), Nat.add_zero]

theorem stored_nul (list : List (Str × Str)) (hnul : ∀ e ∈ list, nul ∉ e.2) :
    (list.flatMap (exportEntry nul)).length + 2 * list.length = totlen nul list + backslashes list := by
  have hcount : list.map (fun e => e.2.countP fun c => c = nul || c = backslash) =
      list.map fun e => e.2.count backslash := by
    refine map_congr_left fun e he => countP_congr fun c hc => ?_
    have hne : c ≠ nul := fun h => hnul e he (h ▸ hc)
    simp [hne]
  rw [stored_length, if_pos rfl, escapes, hcount]
  rfl

theorem range_getD (list : List (Str × Str)) :
    (range list.length).map (fun i => list.getD i ([], [])) = list := by
  refine ext_getElem (by simp) fun i hi hi' => ?_
  simp [hi']

theorem sortEntries_perm (list : List (Str × Str)) : (sortEntries list).Perm list := by
  obtain ⟨b, hb, hre⟩ := qsort_rearranged (fun e f : Str × Str => strcmp e.1 f.1 ≤ 0) list.length
    fun i => list.getD i ([], [])
  rw [sortEntries, hb, map_some, getD_some]
  exact hre.perm.trans (.of_eq (range_getD list))

def bufferSize (sep : UInt8) (list : List (Str × Str)) (size : ℕ) : ℕ :=
  if size ≠ 0 then size else totlen sep list + 1

def EscapesFit (sep : UInt8) (list : List (Str × Str)) (size : ℕ) : Prop :=
  sep = newline ∨
    backslashes list ≤ 2 * list.length + (bufferSize sep list size - (totlen sep list + 1))

section Stored

variable {Callback : Type} {htab : Htab Callback} {sep : UInt8} {size : ℕ}
  (hs : sep = nul ∨ sep = newline) (hnul : ∀ e ∈ pairs htab, nul ∉ e.2)
  (hsize : size = 0 ∨ totlen sep (pairs htab) < size)

include hs hnul hsize

theorem escapesFit_iff : EscapesFit sep (pairs htab) size ↔
    (exportBytes sep (sortEntries (pairs htab))).length ≤ bufferSize sep (pairs htab) size := by
  have hle : totlen sep (pairs htab) + 1 ≤ bufferSize sep (pairs htab) size := by
    unfold bufferSize
    split_ifs <;> lia
  have hperm := (sortEntries_perm (pairs htab)).flatMap_right (exportEntry sep)
  unfold EscapesFit
  rw [exportBytes, length_append, hperm.length_eq, length_singleton]
  rcases hs with rfl | rfl
  · have hlen := stored_nul (pairs htab) hnul
    have hne : nul ≠ newline := by decide
    simp only [hne, false_or]
    lia
  · have hlen := stored_newline (pairs htab)
    simp only [true_or, true_iff]
    lia

theorem hexportR_done (hfit : EscapesFit sep (pairs htab) size) :
    hexportR htab sep (fun _ _ => true) size =
      .done (exportBytes sep (sortEntries (pairs htab)) ++
        List.replicate (bufferSize sep (pairs htab) size -
          (exportBytes sep (sortEntries (pairs htab))).length) nul) := by
  rw [escapesFit_iff hs hnul hsize] at hfit
  have hbig : ¬(size ≠ 0 ∧ size < totlen sep (pairs htab) + 1) := by lia
  unfold hexportR
  simp only [← pairs.eq_def]
  rw [if_neg hbig, ← bufferSize, if_neg (Nat.not_lt.mpr hfit)]

theorem hexportR_overflow (hfit : ¬EscapesFit sep (pairs htab) size) :
    hexportR htab sep (fun _ _ => true) size =
      .overflow (bufferSize sep (pairs htab) size) (exportBytes sep (sortEntries (pairs htab))) := by
  rw [escapesFit_iff hs hnul hsize] at hfit
  have hbig : ¬(size ≠ 0 ∧ size < totlen sep (pairs htab) + 1) := by lia
  unfold hexportR
  simp only [← pairs.eq_def]
  rw [if_neg hbig, ← bufferSize, if_pos (Nat.lt_of_not_le hfit)]

end Stored

section RoundTrip

variable {Callback State : Type} {hooks : Hooks Callback State}

theorem importTable_new (old : Option (Htab Callback)) (size : ℕ) :
    ∃ htab, importTable old size 0 = some htab ∧ WellFormed htab ∧
      Represents htab (fun _ => none) ∧ NoDeleted htab ∧ htab.filled = 0 := by
  have hlo : 64 ≤ importEntries size := by simp [importEntries, configEnvMinEntries, configEnvMaxEntries]
  have hhi : importEntries size ≤ 512 := Nat.min_le_right _ _
  obtain ⟨htab, hc, hp, h5, -⟩ := hcreateR_size Callback (importEntries size) (by lia) (by lia)
  obtain ⟨hw, hm⟩ := hcreateR_wellFormed hc hp h5
  obtain ⟨n, -, rfl⟩ := map_eq_some_iff.mp hc
  exact ⟨_, hc, hw, hm, fun i _ _ => le_rfl, rfl⟩

def enterLines (list : List (Str × Str)) : List Line :=
  if list = [] then [.delete []] else list.map enterLine

theorem linesOf_exportBytes {sep : UInt8} (hs : sep = nul ∨ sep = newline) (list : List (Str × Str))
    (hgood : ∀ e ∈ list, GoodKey sep e.1 ∧ GoodValue e.2) (n fuel : ℕ) (hf : list.length ≤ fuel) :
    linesOf sep (fuel + 1) (exportBytes sep list ++ List.replicate n nul ++ [nul]) = enterLines list := by
  have htext : exportBytes sep list ++ List.replicate n nul ++ [nul] =
      list.flatMap (exportEntry sep) ++ nul :: (List.replicate n nul ++ [nul]) := by
    simp [exportBytes]
  rw [htext, enterLines]
  by_cases hne : list = []
  · have hzeros : ∀ c, (List.replicate n nul ++ [nul]).head? = some c → c = nul := by
      intro c hc
      rcases mem_append.mp (mem_of_mem_head? hc) with h | h
      · exact eq_of_mem_replicate h
      · exact mem_singleton.mp h
    rw [if_pos hne, hne, flatMap_nil, nil_append, linesOf_zeros _ hzeros]
  · rw [if_neg hne, linesOf_export hs list hgood hne _ _ (by lia)]

/-- The import of a text with the lines of a list gives the pairs of the list. -/
theorem himportR_enterLines {goal : Str → Option Str} (ha : AcceptsNew hooks goal)
    (old : Option (Htab Callback)) (state : State) {sep : UInt8} {env : Str} (henv : env ≠ [])
    (list : List (Str × Str)) (hkeys : list.Pairwise fun a b => a.1 ≠ b.1)
    (hne : ∀ e ∈ list, e.1 ≠ []) (hgoal : ∀ key v, (key, v) ∈ list ↔ goal key = some v)
    (hlines : linesOf sep (env.length + 1) (env ++ [nul]) = enterLines list) {new : Htab Callback}
    (hnew : importTable old env.length 0 = some new) (hroom : list.length ≤ new.size) :
    ∃ s, himportR hooks old state env sep 0 false [] = some (1, s) ∧ WellFormed s.htab ∧
      Represents s.htab goal := by
  obtain ⟨htab, hc, hw, hm, hn, hzero⟩ := importTable_new old env.length
  obtain rfl : htab = new := some.inj (hc.symm.trans hnew)
  have hmap : ∀ m' : Str → Option Str, (∀ key v, m' key = some v ↔
      (none : Option Str) = some v ∨ (key, v) ∈ list) → m' = goal := by
    intro m' h
    funext key
    apply Option.ext
    intro v
    rw [h, hgoal]
    simp
  rw [himportR_eq hooks old state henv sep 0 hc, hlines, enterLines]
  by_cases hnil : list = []
  · subst hnil
    have hgone : goal = fun _ => none := (hmap _ (by simp)).symm
    have habs : ∀ i, ¬Holds htab i [] := (represents_absent hw hm).mp rfl
    have hdel := delete_absent hooks state hw 0 habs
    refine ⟨⟨htab, state, []⟩, ?_, hw, hgone ▸ hm⟩
    simp only [importLines, importLine, dropVarFromSet, isEmpty_nil, if_true, Bool.not_true,
      Bool.false_eq_true, if_false, hdel, map_some, dropRest]
  · obtain ⟨s, m', hrun, hvars, hw', hm', hall⟩ := importLines_enter ha list hkeys
      (fun e he => ⟨hne e he, (hgoal _ _).mp he⟩) ⟨htab, state, []⟩ rfl hw hm hn
      (fun _ _ => rfl) (by simpa only [hzero, Nat.zero_add] using hroom)
    refine ⟨s, ?_, hw', hmap m' hall ▸ hm'⟩
    rw [if_neg hnil, hrun]
    simp only [hvars, dropRest, map_some]

/- The bytes of an export of the whole table, imported with flags 0, give its pairs. -/
def RoundTrips (hooks : Hooks Callback State) (htab : Htab Callback) (m : Str → Option Str)
    (sep : UInt8) (size : ℕ) (old : Option (Htab Callback)) (state : State) : Prop :=
  ∃ buffer s, hexportR htab sep (fun _ _ => true) size = .done buffer ∧
    himportR hooks old state buffer sep 0 false [] = some (1, s) ∧ Represents s.htab m

/-- An export into a buffer that it accepts is read back exactly when the escapes, which
pass 1 does not count for the separator NUL, fit into what is left of the buffer. -/
theorem export_import_iff (hooks : Hooks Callback State) (htab : Htab Callback)
    (m : Str → Option Str) (hl : Listed htab m) (ha : AcceptsNew hooks m) (sep : UInt8)
    (hs : sep = nul ∨ sep = newline)
    (hgood : ∀ key v, m key = some v → GoodKey sep key ∧ GoodValue v) (size : ℕ)
    (hsize : size = 0 ∨ totlen sep (pairs htab) < size) (old : Option (Htab Callback)) (state : State)
    (new : Htab Callback) (hnew : importTable old (bufferSize sep (pairs htab) size) 0 = some new)
    (hroom : (pairs htab).length ≤ new.size) :
    RoundTrips hooks htab m sep size old state ↔ EscapesFit sep (pairs htab) size := by
  have hpairs : ∀ e ∈ pairs htab, GoodKey sep e.1 ∧ GoodValue e.2 := fun e he =>
    hgood e.1 e.2 ((mem_pairs hl e.1 e.2).mp he)
  have hnul : ∀ e ∈ pairs htab, nul ∉ e.2 := fun e he => (hpairs e he).2.2
  have hperm := sortEntries_perm (pairs htab)
  constructor
  · rintro ⟨buffer, s, hbuf, -⟩
    by_contra hfit
    rw [hexportR_overflow hs hnul hsize hfit] at hbuf
    simp at hbuf
  · intro hfit
    have hlen := (escapesFit_iff hs hnul hsize).mp hfit
    have hsorted : ∀ e ∈ sortEntries (pairs htab), GoodKey sep e.1 ∧ GoodValue e.2 := fun e he =>
      hpairs e (hperm.mem_iff.mp he)
    have hcount := length_le_export sep (sortEntries (pairs htab))
    obtain ⟨s, himport, -, hm⟩ := himportR_enterLines ha old state (by simp [exportBytes])
      (sortEntries (pairs htab)) ((hperm.pairwise_iff fun h => h.symm).mpr (pairs_keys hl))
      (fun e he => (hsorted e he).1.nonempty)
      (fun key v => hperm.mem_iff.trans (mem_pairs hl key v))
      (linesOf_exportBytes hs _ hsorted (bufferSize sep (pairs htab) size -
        (exportBytes sep (sortEntries (pairs htab))).length) _ (by
          simp only [exportBytes, length_append]
          lia))
      (by rw [length_append, length_replicate, Nat.add_sub_cancel' hlen]; exact hnew)
      (by rw [hperm.length_eq]; exact hroom)
    exact ⟨_, s, hexportR_done hs hnul hsize hfit, himport, hm⟩

end RoundTrip

/- A table with the entry of `a` only. -/
def oneEntry (v : Str) : Htab Unit := putEntry ⟨5, 0, fun _ => emptySlot Unit⟩ [97] v 3 ⟨none, 0⟩

def oneMap (v : Str) : Str → Option Str := update (fun _ => none) [97] (some v)

theorem oneEntry_represents (v : Str) :
    WellFormed (oneEntry v) ∧ Represents (oneEntry v) (oneMap v) := by
  have h5 : hcreateR Unit 5 = some ⟨5, 0, fun _ => emptySlot Unit⟩ := rfl
  obtain ⟨hw, hm⟩ := hcreateR_wellFormed h5 (by decide) (by decide)
  have habs : ∀ i, ¬Holds (⟨5, 0, fun _ => emptySlot Unit⟩ : Htab Unit) i [97] :=
    (represents_absent hw hm).mp rfl
  have hfresh : Fresh (⟨5, 0, fun _ => emptySlot Unit⟩ : Htab Unit) [97] 3 :=
    ⟨by decide, by decide, 0, by decide, by decide, by lia⟩
  exact ⟨putEntry_wellFormed hw hfresh habs v _, represents_put hw hm hfresh habs v _⟩

theorem oneEntry_listed (v : Str) : Listed (oneEntry v) (oneMap v) :=
  wellFormed_listed (oneEntry_represents v).1 (oneEntry_represents v).2

theorem oneMap_good {v : Str} (hv : GoodValue v) (key w : Str) (h : oneMap v key = some w) :
    GoodKey nul key ∧ GoodValue w := by
  unfold oneMap at h
  by_cases hk : key = [97]
  · subst hk
    rw [update_self, some.injEq] at h
    exact ⟨⟨by decide, by decide, by decide, by decide, by simp [isblank, space, tab], by decide⟩, h ▸ hv⟩
  · rw [update_of_ne hk] at h
    simp at h

theorem plainHooks_acceptsNew (m : Str → Option Str) : AcceptsNew plainHooks m := fun key v _ =>
  plainHooks_accepts.admits key v 0

/- Two backslashes still fit. -/
theorem export_import_backslashes :
    RoundTrips plainHooks (oneEntry [92, 92]) (oneMap [92, 92]) nul 0 none () := by
  obtain ⟨new, hnew, hw, -⟩ := importTable_new (none : Option (Htab Unit))
    (bufferSize nul (pairs (oneEntry [92, 92])) 0)
  have h5 := hw.large
  refine (export_import_iff plainHooks (oneEntry [92, 92]) (oneMap [92, 92]) (oneEntry_listed _)
    (plainHooks_acceptsNew _) nul (.inl rfl) (oneMap_good ⟨by decide, by decide⟩) 0 (.inl rfl) none () new
    hnew ?_).mpr (.inr (by decide))
  have hone : (pairs (oneEntry [92, 92])).length = 1 := by decide
  lia

/- Six backslashes do not: pass 2 stores 16 bytes in a buffer of 12. -/
theorem export_overflow : Listed (oneEntry [92, 92, 92, 92, 92, 92]) (oneMap [92, 92, 92, 92, 92, 92]) ∧
    (∀ key w, oneMap [92, 92, 92, 92, 92, 92] key = some w → GoodKey nul key ∧ GoodValue w) ∧
    hexportR (oneEntry [92, 92, 92, 92, 92, 92]) nul (fun _ _ => true) 0 =
      .overflow 12 [97, 61, 92, 92, 92, 92, 92, 92, 92, 92, 92, 92, 92, 92, 0, 0] ∧
    ¬RoundTrips plainHooks (oneEntry [92, 92, 92, 92, 92, 92]) (oneMap [92, 92, 92, 92, 92, 92]) nul 0
      none () := by
  have hover : hexportR (oneEntry [92, 92, 92, 92, 92, 92]) nul (fun _ _ => true) 0 =
      .overflow 12 [97, 61, 92, 92, 92, 92, 92, 92, 92, 92, 92, 92, 92, 92, 0, 0] := by decide
  refine ⟨oneEntry_listed _, oneMap_good ⟨by decide, by decide⟩, hover, ?_⟩
  rintro ⟨buffer, s, hbuf, -⟩
  rw [hover] at hbuf
  simp at hbuf

end UBoot.Env

/-!
## The result buffer of an export (lib/hashtable.c)

What pass 2 of `hexport_r` stores, for every separator and every choice of entries, against the
length that pass 1 adds up.
-/

namespace UBoot.Env

variable {Callback : Type}

def Overflows (htab : Htab Callback) (sep : UInt8) (keep : Str → Str → Bool) (size : ℕ) : Prop :=
  ∃ buffer stored, hexportR htab sep keep size = .overflow buffer stored

def TooSmall (htab : Htab Callback) (sep : UInt8) (keep : Str → Str → Bool) (size : ℕ) : Prop :=
  size ≠ 0 ∧ size < totlen sep (collect htab keep) + 1

/- The room that pass 1 leaves for escapes: two bytes for an entry, and what the caller has more. -/
def slack (htab : Htab Callback) (sep : UInt8) (keep : Str → Str → Bool) (size : ℕ) : ℕ :=
  2 * (collect htab keep).length +
    (bufferSize sep (collect htab keep) size - (totlen sep (collect htab keep) + 1))

section Bounds

variable {htab : Htab Callback} {sep : UInt8} {keep : Str → Str → Bool} {size : ℕ}

theorem stored_bytes (sep : UInt8) (list : List (Str × Str)) :
    (exportBytes sep (sortEntries list)).length + 2 * list.length =
      totlen sep list + 1 + if sep = nul then escapes sep list else 0 := by
  have hperm := (sortEntries_perm list).flatMap_right (exportEntry sep)
  have hlen := stored_length sep list
  rw [exportBytes, List.length_append, hperm.length_eq, List.length_singleton]
  lia

theorem overflows_iff : Overflows htab sep keep size ↔ ¬ TooSmall htab sep keep size ∧
    bufferSize sep (collect htab keep) size <
      (exportBytes sep (sortEntries (collect htab keep))).length := by
  unfold Overflows TooSmall hexportR
  dsimp only
  rw [← bufferSize]
  split_ifs with hsmall hover
  · refine iff_of_false ?_ fun h => h.1 hsmall
    rintro ⟨buffer, stored, h⟩
    cases h
  · exact iff_of_true ⟨_, _, rfl⟩ ⟨hsmall, hover⟩
  · refine iff_of_false ?_ fun h => hover h.2
    rintro ⟨buffer, stored, h⟩
    cases h

theorem bufferSize_ge (h : ¬ TooSmall htab sep keep size) :
    totlen sep (collect htab keep) + 1 ≤ bufferSize sep (collect htab keep) size := by
  unfold TooSmall at h
  unfold bufferSize
  split_ifs with hsize
  · lia
  · exact le_rfl

/-- An export stays in its buffer exactly when its size is refused, the separator is not NUL, or the
escapes fit into the slack. -/
theorem export_within_buffer (htab : Htab Callback) (sep : UInt8) (keep : Str → Str → Bool) (size : ℕ) :
    ¬ Overflows htab sep keep size ↔ TooSmall htab sep keep size ∨ sep ≠ nul ∨
      escapes sep (collect htab keep) ≤ slack htab sep keep size := by
  have hstored := stored_bytes sep (collect htab keep)
  rw [overflows_iff]
  by_cases hsmall : TooSmall htab sep keep size
  · exact iff_of_true (fun h => h.1 hsmall) (.inl hsmall)
  · have hbuffer := bufferSize_ge hsmall
    rw [not_and, not_lt, or_iff_right hsmall]
    unfold slack
    by_cases hsep : sep = nul
    · rw [if_pos hsep] at hstored
      constructor
      · intro h
        exact .inr (by lia)
      · intro h _
        lia
    · rw [if_neg hsep] at hstored
      refine iff_of_true (fun _ => ?_) (.inl hsep)
      lia

/- The value of three backslashes: 10 bytes for a buffer of 9. -/
theorem export_behind_buffer : ∃ htab m, Run plainHooks (fun _ _ => True) htab () m ∧
    hexportR htab nul (fun _ _ => true) 0 =
      .overflow 9 [97, 61, 92, 92, 92, 92, 92, 92, 0, 0] ∧
    Overflows htab nul (fun _ _ => true) 0 := by
  have h0 : Run plainHooks (fun _ _ => True) _ () _ := .create 5 () rfl (by decide) (by decide)
  have h1 := h0.call (c := .enter [97] [92, 92, 92] 0) trivial rfl
  have hover : ∀ e, e = Exported.overflow 9 [97, 61, 92, 92, 92, 92, 92, 92, 0, 0] →
      ∃ buffer stored, e = .overflow buffer stored := fun _ h => ⟨_, _, h⟩
  exact ⟨_, _, h1, by decide, hover _ (by decide)⟩

end Bounds

end UBoot.Env
