import UBoot.Fit.Returns
import UBoot.Lib.FirstBest

/-!
# The configuration for a device tree (common/image-fit.c)

`fit_conf_find_compat` looks for the configuration whose device tree is compatible with the first
possible string of the control tree's list. A string that does not end inside its property makes the
call `none`, as one that does not return.
-/

namespace UBoot.Fit

open Memory FirstBest List Option

/- A blob that starts at `p`: a version 17 header with numbers an `int` holds. -/
def blobAt (mem : Mem) (p : ℕ) : Option Fdt :=
  if h : be32 mem (p + 8) + be32 mem (p + 36) < 2 ^ 31 ∧ 17 ≤ be32 mem (p + 20) then
    some
      { mem := fun a => mem (p + a)
        offDtStruct := be32 mem (p + 8)
        sizeDtStruct := be32 mem (p + 36)
        offDtStrings := be32 mem (p + 12)
        sizeDtStrings := be32 mem (p + 32)
        inside := h.1 }
  else none

/- The loop of `fdt_stringlist_contains`. -/
def stringlistLoop (mem : Mem) (str : List UInt8) : ℕ → ℕ → ℕ → Bool
  | 0, _, _ => false
  | fuel + 1, strlist, listlen =>
    if listlen < str.length then false
    else if stringAt mem strlist str then true
    else
      match (bytes mem strlist listlen).findIdx? (· = 0) with
      | none => false
      | some k => stringlistLoop mem str fuel (strlist + k + 1) (listlen - (k + 1))

def fdtStringlistContains (mem : Mem) (strlist listlen : ℕ) (str : List UInt8) : Bool :=
  if listlen < 2 ^ 31 then stringlistLoop mem str (listlen + 1) strlist listlen else false

/- `true` for a return value of 0. -/
def fdtNodeCheckCompatible (fdt : Fdt) (node : ℤ) (compatible : List UInt8) : Option Bool := do
  let prop ← fdtGetprop fdt node "compatible"
  match prop with
  | none => some false
  | some (data, len) => some (fdtStringlistContains fdt.mem data len compatible)

def leadingString (bs : List UInt8) : Option (List UInt8) :=
  if 0 ∈ bs then some (bs.takeWhile (· ≠ 0)) else none

section Model

variable (fit : Fdt)

/- `fit_image_get_data`, for a return value of 0. -/
def fitImageGetData (noffset : ℤ) : Option (Option (ℕ × ℕ)) := fdtGetprop fit noffset "data"

/- Where the device tree of a configuration is; `some none` for a `continue` of the loop. -/
def confFdt (images noffset : ℤ) : Option (Option ℕ) := do
  let prop ← fdtGetprop fit noffset "fdt"
  match prop with
  | none => some none
  | some (data, len) =>
    let kfdtName ← leadingString (bytes fit.mem data len)
    let kfdtNoffset ← fdtSubnodeOffset fit images kfdtName
    if kfdtNoffset < 0 then some none
    else do
      let kfdt ← fitImageGetData fit kfdtNoffset
      some (kfdt.map Prod.fst)

/- `fdt_node_check_compatible(kfdt, 0, s)` -/
def confCheck (kfdt : ℕ) (s : List UInt8) : Option Bool := do
  let blob ← blobAt fit.mem kfdt
  fdtNodeCheckCompatible blob 0 s

/- The loop over the strings; `best` is `best_match_offset` and `best_match_pos`. -/
def compatLoop (check : List UInt8 → Option Bool) (noffset : ℤ) (best : ℤ × ℕ) :
    ℕ → ℕ → List UInt8 → Option (ℤ × ℕ)
  | 0, _, _ => none
  | fuel + 1, i, cur =>
    if cur ≠ [] ∧ (best.1 = 0 ∨ i < best.2) then do
      let s ← leadingString cur
      let compatible ← check s
      if compatible then some (noffset, i)
      else compatLoop check noffset best fuel (i + 1) (cur.drop (s.length + 1))
    else some best

def confVisit (images : ℤ) (fdtCompat : List UInt8) (noffset : ℤ) (best : ℤ × ℕ) :
    Option (ℤ × ℕ) := do
  let kfdt ← confFdt fit images noffset
  match kfdt with
  | none => some best
  | some p => compatLoop (confCheck fit p) noffset best (fdtCompat.length + 1) 0 fdtCompat

/- The loop over the nodes below `/configurations`, with the results of `fdt_next_node`. -/
def confLoop {β : Type} (visit : ℤ → β → Option β) : ℕ → Option (ℤ × ℤ) → β → Option β
  | _, none, _ => none
  | 0, some _, _ => none
  | fuel + 1, some (noffset, ndepth), best =>
    if 0 ≤ noffset ∧ 0 < ndepth then do
      let best ← if 1 < ndepth then some best else visit noffset best
      confLoop visit fuel (fdtNextNode fit noffset ndepth) best
    else some best

def fitConfFindCompat (fdt : Fdt) : Option ℤ := do
  let confs ← fdtSubnodeOffset fit 0 (chars "configurations")
  let images ← fdtSubnodeOffset fit 0 (chars "images")
  if confs < 0 ∨ images < 0 then some (-1)
  else do
    let prop ← fdtGetprop fdt 0 "compatible"
    match prop with
    | none => some (-1)
    | some (data, len) =>
      let fdtCompat := if len < 2 ^ 31 then bytes fdt.mem data len else []
      let best ← confLoop fit (confVisit fit images fdtCompat) (fit.sizeDtStruct + 1)
        (fdtNextNode fit confs 0) (0, 0)
      some (if best.1 = 0 then -1 else best.1)

end Model

def tagsFrom (fdt : Fdt) : ℕ → ℕ → List (ℕ × Tag)
  | 0, _ => []
  | fuel + 1, offset =>
    let (tag, next) := fdtNextTag fdt offset
    (offset, tag) :: if tag = .fin then [] else tagsFrom fdt fuel next.toNat

/- The nodes that begin in none of the others, up to the end of the node around them. -/
def childOffsets : ℕ → List (ℕ × Tag) → List ℕ
  | _, [] => []
  | depth, (offset, tag) :: ts =>
    match tag with
    | .beginNode => if depth = 0 then offset :: childOffsets 1 ts else childOffsets (depth + 1) ts
    | .endNode => if depth = 0 then [] else childOffsets (depth - 1) ts
    | .fin => []
    | .prop | .nop => childOffsets depth ts

def children (fdt : Fdt) (node : ℕ) : List ℕ :=
  childOffsets 0 (tagsFrom fdt (fdt.sizeDtStruct + 1) node).tail

section Walk

variable {fit : Fdt} {n offset : ℕ} {β : Type} {visit : ℤ → β → Option β}

theorem confLoop_children {fuel steps left depth : ℕ} (h : Rest fit n offset) (hfuel : n ≤ fuel)
    (hsteps : n ≤ steps) (hleft : n ≤ left) (best : β) :
    confLoop fit visit steps (nextNodeLoop fit fuel offset depth) best =
      (childOffsets depth (tagsFrom fit left offset)).foldlM
        (fun best node => visit (node : ℕ) best) best := by
  induction n generalizing fuel steps left depth offset best with
  | zero =>
    obtain ⟨k, hk, -⟩ := h.step
    cases hk
  | succ n ih =>
    obtain ⟨k, hk, tag, next, htag, hcase⟩ := h.step
    obtain rfl := Nat.succ.inj hk
    obtain _ | fuel := fuel
    · lia
    obtain _ | steps := steps
    · lia
    obtain _ | left := left
    · lia
    have hbound := h.2.1
    have hafter : tag ≠ .fin → Rest fit n next.toNat := by
      intro hne
      rcases hcase with ⟨hfin, -⟩ | ⟨a, rfl, -, -, hrest⟩
      · exact absurd hfin hne
      · exact hrest
    rw [nextNodeLoop, tagsFrom]
    simp only [htag]
    cases tag with
    | prop =>
      simp only [childOffsets, reduceCtorEq, if_false]
      exact ih (hafter (by decide)) (by lia) (by lia) (by lia) best
    | nop =>
      simp only [childOffsets, reduceCtorEq, if_false]
      exact ih (hafter (by decide)) (by lia) (by lia) (by lia) best
    | fin =>
      simp only [childOffsets, foldlM_nil]
      rw [confLoop, if_neg]
      · rfl
      · split
        · exact fun hboth => absurd hboth.1 (by decide)
        · lia
    | endNode =>
      by_cases hd : depth = 0
      · subst hd
        simp only [childOffsets, if_true, foldlM_nil]
        rw [if_pos (by decide), confLoop, if_neg (by lia)]
        rfl
      · have hdepth : ((depth : ℤ) - 1) = ((depth - 1 : ℕ) : ℤ) := by lia
        simp only [childOffsets, if_neg hd, reduceCtorEq, if_false]
        rw [if_neg (by lia), hdepth]
        exact ih (hafter (by decide)) (by lia) (by lia) (by lia) best
    | beginNode =>
      have hnode : NodeAt fit (n + 1) offset :=
        ⟨Int.natCast_nonneg offset, h, by rw [Int.toNat_natCast, htag]⟩
      obtain ⟨k, a, hk, hbegin, hcheck, hrest⟩ := hnode.check
      obtain rfl := Nat.succ.inj hk
      rw [Int.toNat_natCast, htag] at hbegin
      obtain rfl := (Prod.mk.inj hbegin).2
      have hnext : fdtNextNode fit offset (depth + 1) =
          nextNodeLoop fit (fit.sizeDtStruct + 1) a ((depth + 1 : ℕ) : ℤ) := by
        simp only [fdtNextNode, if_pos (Int.natCast_nonneg offset), hcheck,
          if_neg (Int.not_lt.mpr (Int.natCast_nonneg a)), Int.toNat_natCast, Nat.cast_add,
          Nat.cast_one]
      have hrec := fun best => @ih a (fit.sizeDtStruct + 1) steps left (depth + 1) hrest (by lia)
        (by lia) (by lia) best
      rw [confLoop, if_pos ⟨Int.natCast_nonneg offset, by lia⟩, hnext]
      simp only [childOffsets, reduceCtorEq, if_false, Int.toNat_natCast]
      by_cases hd : depth = 0
      · subst hd
        rw [if_neg (by lia), if_pos rfl, foldlM_cons]
        cases visit offset best with
        | none => rfl
        | some best' => exact hrec best'
      · rw [if_pos (by lia), if_neg hd]
        exact hrec best

theorem childOffsets_nodes {left depth : ℕ} (h : Rest fit n offset) (hleft : n ≤ left) :
    ∀ c ∈ childOffsets depth (tagsFrom fit left offset), offset ≤ c ∧ ∃ k, NodeAt fit k c := by
  induction n generalizing left depth offset with
  | zero =>
    obtain ⟨k, hk, -⟩ := h.step
    cases hk
  | succ n ih =>
    obtain ⟨k, hk, tag, next, htag, hcase⟩ := h.step
    obtain rfl := Nat.succ.inj hk
    obtain _ | left := left
    · lia
    have hafter : tag ≠ .fin → ∀ depth, ∀ c ∈ childOffsets depth (tagsFrom fit left next.toNat),
        offset ≤ c ∧ ∃ k, NodeAt fit k c := by
      intro hne depth c hc
      rcases hcase with ⟨hfin, -⟩ | ⟨a, rfl, -, hlt, hrest⟩
      · exact absurd hfin hne
      · obtain ⟨hle, hnode⟩ := ih hrest (by lia) c hc
        exact ⟨by lia, hnode⟩
    rw [tagsFrom]
    simp only [htag]
    cases tag with
    | prop =>
      simp only [childOffsets, reduceCtorEq, if_false]
      exact hafter (by decide) depth
    | nop =>
      simp only [childOffsets, reduceCtorEq, if_false]
      exact hafter (by decide) depth
    | fin => exact fun c hc => absurd hc not_mem_nil
    | endNode =>
      simp only [childOffsets, reduceCtorEq, if_false]
      split
      · exact fun c hc => absurd hc not_mem_nil
      · exact hafter (by decide) _
    | beginNode =>
      simp only [childOffsets, reduceCtorEq, if_false]
      split
      · intro c hc
        cases mem_cons.mp hc with
        | inl heq =>
          subst heq
          exact ⟨Nat.le_refl c, n + 1, Int.natCast_nonneg c, h, by rw [Int.toNat_natCast, htag]⟩
        | inr hc => exact hafter (by decide) 1 c hc
      · exact hafter (by decide) _

variable {node : ℤ}

theorem children_nodes (h : NodeAt fit n node) :
    ∀ c ∈ children fit node.toNat, 0 < c ∧ ∃ k, NodeAt fit k c := by
  obtain ⟨k, a, rfl, htag, -, hrest⟩ := h.check
  intro c hc
  have hlt : node.toNat < a := by
    obtain ⟨k', -, tag, next, htag', hcase⟩ := h.rest.step
    rw [htag] at htag'
    obtain ⟨rfl, rfl⟩ := Prod.mk.inj htag'
    rcases hcase with ⟨hfin, -⟩ | ⟨b, hb, -, hlt, -⟩
    · cases hfin
    · lia
  rw [children, tagsFrom, htag] at hc
  simp only [reduceCtorEq, if_false, tail_cons, Int.toNat_natCast] at hc
  have hbound := h.rest.2.1
  obtain ⟨hle, hnode⟩ := childOffsets_nodes hrest (by lia) c hc
  exact ⟨by lia, hnode⟩

theorem confLoop_eq (h : NodeAt fit n node) (best : β) :
    confLoop fit visit (fit.sizeDtStruct + 1) (fdtNextNode fit node 0) best =
      (children fit node.toNat).foldlM (fun best node => visit (node : ℕ) best) best := by
  obtain ⟨k, a, rfl, htag, hcheck, hrest⟩ := h.check
  have hbound := h.rest.2.1
  have hloop := @confLoop_children fit k a β visit (fit.sizeDtStruct + 1) (fit.sizeDtStruct + 1)
    fit.sizeDtStruct 0 hrest (by lia) (by lia) (by lia) best
  simp only [fdtNextNode, if_pos h.nonneg, hcheck, if_neg (Int.not_lt.mpr (Int.natCast_nonneg a)),
    Int.toNat_natCast]
  rw [children, tagsFrom, htag]
  simp only [reduceCtorEq, if_false, tail_cons, Int.toNat_natCast]
  exact hloop

end Walk

section Strings

variable {check : List UInt8 → Option Bool} {entries : List (List UInt8)}

def listBytes (entries : List (List UInt8)) : List UInt8 := entries.flatMap (· ++ [0])

theorem leadingString_cons {s : List UInt8} (hs : 0 ∉ s) (rest : List UInt8) :
    leadingString (s ++ 0 :: rest) = some s := by
  have hmem : (0 : UInt8) ∈ s ++ 0 :: rest := by simp
  rw [leadingString, if_pos hmem, takeWhile_zero]
  intro c hc heq
  rw [heq] at hc
  exact hs hc

theorem length_listBytes (entries : List (List UInt8)) : entries.length ≤ (listBytes entries).length := by
  induction entries with
  | nil => exact Nat.le_refl 0
  | cons s entries ih =>
    rw [listBytes, flatMap_cons, length_append, length_append, length_cons]
    rw [listBytes] at ih
    simp only [length_cons, length_nil]
    lia

theorem compatLoop_spec {noffset : ℤ} {best : ℤ × ℕ} {fuel i : ℕ} {before rest : List (List UInt8)}
    (hentries : entries = before ++ rest) (hi : before.length = i)
    (hbefore : ∀ s ∈ before, check s = some false) (hstr : ∀ s ∈ entries, 0 ∉ s)
    (hcheck : ∀ s ∈ entries, ∃ b, check s = some b) (hfuel : rest.length < fuel) :
    ∃ r, compatLoop check noffset best fuel i (listBytes rest) = some r ∧
      ((∃ j s, entries[j]? = some s ∧ check s = some true ∧
          (∀ j' t, entries[j']? = some t → check t = some true → j ≤ j') ∧
          (best.1 = 0 ∨ j < best.2) ∧ r = (noffset, j)) ∨
        (∀ j s, entries[j]? = some s → check s = some true → best.1 ≠ 0 ∧ best.2 ≤ j) ∧
          r = best) := by
  have hlater : ∀ j s, entries[j]? = some s → check s = some true → i ≤ j := by
    intro j s hj hs
    by_contra hlt
    rw [hentries, getElem?_append_left (by lia)] at hj
    rw [hbefore s (mem_of_getElem? hj)] at hs
    cases hs
  induction rest generalizing before fuel i with
  | nil =>
    obtain _ | fuel := fuel
    · lia
    refine ⟨best, by rw [compatLoop, if_neg (fun hboth => hboth.1 rfl)], .inr ⟨?_, rfl⟩⟩
    intro j s hj hs
    rw [append_nil] at hentries
    have hlt := (List.getElem?_eq_some_iff.mp hj).1
    have hle := hlater j s hj hs
    rw [hentries] at hlt
    lia
  | cons s rest ih =>
    obtain _ | fuel := fuel
    · lia
    have hmem : s ∈ entries := by
      rw [hentries]
      exact mem_append_right _ mem_cons_self
    have hcur : listBytes (s :: rest) = s ++ 0 :: listBytes rest := by
      rw [listBytes, flatMap_cons, append_assoc, singleton_append]
      rfl
    have hne : s ++ 0 :: listBytes rest ≠ [] := by simp
    rw [compatLoop, hcur]
    by_cases hcond : best.1 = 0 ∨ i < best.2
    · obtain ⟨b, hb⟩ := hcheck s hmem
      have hat : entries[i]? = some s := by
        rw [hentries, getElem?_append_right (by lia), hi, Nat.sub_self]
        rfl
      rw [if_pos ⟨hne, hcond⟩, leadingString_cons (hstr s hmem)]
      simp only [bind, Option.bind, hb]
      cases b with
      | true => exact ⟨(noffset, i), rfl, .inl ⟨i, s, hat, hb, hlater, hcond, rfl⟩⟩
      | false =>
        have hdrop : (s ++ 0 :: listBytes rest).drop (s.length + 1) = listBytes rest := by
          rw [← drop_drop, drop_left' rfl]
          rfl
        rw [if_neg Bool.false_ne_true, hdrop]
        refine @ih fuel (i + 1) (before ++ [s]) (by rw [hentries]; simp) (by simp [hi]) ?_ ?_ ?_
        · intro t ht
          cases mem_append.mp ht with
          | inl ht => exact hbefore t ht
          | inr ht => rw [mem_singleton.mp ht, hb]
        · simp only [length_cons] at hfuel
          lia
        · intro j t hj ht
          have hle := hlater j t hj ht
          rcases Nat.lt_or_ge i j with hlt | hge
          · exact hlt
          · obtain rfl : j = i := by lia
            rw [hat] at hj
            rw [← some.inj hj, hb] at ht
            cases ht
    · rw [if_neg (fun hboth => hcond hboth.2)]
      refine ⟨best, rfl, .inr ⟨?_, rfl⟩⟩
      intro j t hj ht
      have hle := hlater j t hj ht
      lia

end Strings

section Find

variable (fit : Fdt)

def configurations : List ℕ :=
  match fdtSubnodeOffset fit 0 (chars "configurations") with
  | none => []
  | some confs => if confs < 0 then [] else children fit confs.toNat

def ConfTree (conf : ℕ) (kfdt : ℕ) : Prop :=
  ∃ images : ℤ, fdtSubnodeOffset fit 0 (chars "images") = some images ∧ 0 ≤ images ∧
    confFdt fit images conf = some (some kfdt)

/- `fdt_node_check_compatible` accepts the string for the root of that tree. -/
def Compatible (conf : ℕ) (s : List UInt8) : Prop :=
  ∃ kfdt blob, ConfTree fit conf kfdt ∧ blobAt fit.mem kfdt = some blob ∧
    fdtNodeCheckCompatible blob 0 s = some true

def HasStrings (fdt : Fdt) (name : String) (entries : List (List UInt8)) : Prop :=
  (fdtGetprop fdt 0 name = some none ∧ entries = []) ∨
    ∃ data len, fdtGetprop fdt 0 name = some (some (data, len)) ∧ len < 2 ^ 31 ∧
      bytes fdt.mem data len = listBytes entries ∧ ∀ s ∈ entries, 0 ∉ s

/- Trees, with a string in each "fdt" property of a configuration and a tree in the image that
it names. -/
structure Readable (fdt : Fdt) (entries : List (List UInt8)) : Prop where
  fitTree : Tree fit
  controlTree : Tree fdt
  list : HasStrings fdt "compatible" entries
  names : ∀ conf ∈ configurations fit, ∀ data len,
    fdtGetprop fit conf "fdt" = some (some (data, len)) → 0 ∈ bytes fit.mem data len
  trees : ∀ conf ∈ configurations fit, ∀ kfdt, ConfTree fit conf kfdt →
    ∃ blob, blobAt fit.mem kfdt = some blob ∧ Tree blob

/- A configuration matches at the positions of the strings that its tree is compatible with. -/
def MatchesAt (entries : List (List UInt8)) (conf i : ℕ) : Prop :=
  ∃ s, entries[i]? = some s ∧ Compatible fit conf s

variable {fit} {fdt : Fdt} {entries : List (List UInt8)}

theorem fdtNodeCheckCompatible_returns {blob : Fdt} (h : Tree blob) (s : List UInt8) :
    ∃ b, fdtNodeCheckCompatible blob 0 s = some b := by
  obtain ⟨found, hfound⟩ := fdtGetprop_returns h.nodeAt "compatible"
  rw [fdtNodeCheckCompatible, hfound]
  cases found with
  | none => exact ⟨false, rfl⟩
  | some prop => exact ⟨_, rfl⟩

theorem confCheck_eq {kfdt : ℕ} {blob : Fdt} (h : blobAt fit.mem kfdt = some blob)
    (s : List UInt8) : confCheck fit kfdt s = fdtNodeCheckCompatible blob 0 s := by
  rw [confCheck, h]
  rfl

theorem confFdt_returns {images : ℤ} {n k : ℕ} {conf : ℕ} (himages : NodeAt fit n images)
    (hconf : NodeAt fit k conf) (hname : ∀ data len,
      fdtGetprop fit conf "fdt" = some (some (data, len)) → 0 ∈ bytes fit.mem data len) :
    ∃ kfdt, confFdt fit images conf = some kfdt := by
  obtain ⟨prop, hprop⟩ := fdtGetprop_returns hconf "fdt"
  rw [confFdt, hprop]
  cases prop with
  | none => exact ⟨none, rfl⟩
  | some prop =>
    obtain ⟨data, len⟩ := prop
    have hlead : leadingString (bytes fit.mem data len) =
        some ((bytes fit.mem data len).takeWhile (· ≠ 0)) := if_pos (hname data len hprop)
    obtain ⟨r, hr, hcase⟩ := fdtSubnodeOffset_returns himages
      ((bytes fit.mem data len).takeWhile (· ≠ 0))
    simp only [bind, Option.bind, hlead, hr]
    rcases hcase with hneg | ⟨k', -, hnode⟩
    · rw [if_pos hneg]
      exact ⟨none, rfl⟩
    · rw [if_neg (Int.not_lt.mpr hnode.nonneg)]
      obtain ⟨found, hfound⟩ := fdtGetprop_returns hnode "data"
      rw [fitImageGetData, hfound]
      exact ⟨_, rfl⟩

/- `best_match_offset` and `best_match_pos` for what was found. -/
def Recorded (best : ℤ × ℕ) (r : Option (ℕ × ℕ)) : Prop :=
  (best.1 = 0 ∧ r = none) ∨ ∃ c i, r = some (c, i) ∧ best = ((c : ℤ), i) ∧ 0 < c

theorem confVisit_spec (h : Readable fit fdt entries) {images : ℤ} {n k : ℕ}
    (hnode : fdtSubnodeOffset fit 0 (chars "images") = some images) (himages : NodeAt fit n images)
    (hstr : ∀ s ∈ entries, 0 ∉ s) {conf : ℕ} (hconf : conf ∈ configurations fit) (hpos : 0 < conf)
    (hat : NodeAt fit k conf) {before : List ℕ} {best : ℤ × ℕ} {r : Option (ℕ × ℕ)}
    (hbest : Recorded best r) (hr : Best (MatchesAt fit entries) before r) :
    ∃ best' r', confVisit fit images (listBytes entries) conf best = some best' ∧
      Recorded best' r' ∧ Best (MatchesAt fit entries) (before ++ [conf]) r' := by
  obtain ⟨kfdt, hkfdt⟩ := confFdt_returns himages hat (h.names conf hconf)
  rw [confVisit, hkfdt]
  cases kfdt with
  | none =>
    refine ⟨best, r, rfl, hbest, hr.keep ?_⟩
    intro j hj
    obtain ⟨s, -, q, blob, ⟨images', himages', -, hq⟩, -⟩ := hj
    rw [hnode] at himages'
    rw [← some.inj himages', hkfdt] at hq
    cases hq
  | some q =>
    have htree : ConfTree fit conf q := ⟨images, hnode, himages.nonneg, hkfdt⟩
    obtain ⟨blob, hblob, hroot⟩ := h.trees conf hconf q htree
    have hcheck : ∀ s ∈ entries, ∃ b, confCheck fit q s = some b := by
      intro s _
      obtain ⟨b, hb⟩ := fdtNodeCheckCompatible_returns hroot s
      exact ⟨b, by rw [confCheck_eq hblob, hb]⟩
    have hmatch : ∀ j, MatchesAt fit entries conf j ↔ ∃ s, entries[j]? = some s ∧
        confCheck fit q s = some true := by
      intro j
      constructor
      · intro hj
        obtain ⟨s, hs, q', blob', ⟨images', himages', -, hq⟩, hblob', hyes⟩ := hj
        rw [hnode] at himages'
        rw [← some.inj himages', hkfdt] at hq
        obtain rfl := some.inj (some.inj hq)
        exact ⟨s, hs, by rw [confCheck_eq hblob', hyes]⟩
      · intro hj
        obtain ⟨s, hs, hyes⟩ := hj
        rw [confCheck_eq hblob] at hyes
        exact ⟨s, hs, q, blob, htree, hblob, hyes⟩
    obtain ⟨best', hloop, hcase⟩ := @compatLoop_spec (confCheck fit q) entries conf best
      ((listBytes entries).length + 1) 0 [] entries rfl rfl
      (fun s hs => absurd hs not_mem_nil) hstr hcheck
      (Nat.lt_succ_of_le (length_listBytes entries))
    rcases hcase with ⟨j, s, hj, hyes, hmin, hless, heq⟩ | ⟨hnone, heq⟩
    · refine ⟨best', some (conf, j), hloop, .inr ⟨conf, j, rfl, heq, hpos⟩, ?_⟩
      refine hr.replace ((hmatch j).mpr ⟨s, hj, hyes⟩) ?_ ?_
      · intro j' hj'
        obtain ⟨t, ht, hyes'⟩ := (hmatch j').mp hj'
        exact hmin j' t ht hyes'
      · intro d b hdb
        rcases hbest with ⟨-, hnone⟩ | ⟨c, i, hsome, hrec, hc⟩
        · rw [hnone] at hdb
          cases hdb
        · rw [hsome] at hdb
          obtain ⟨rfl, rfl⟩ := Prod.mk.inj (some.inj hdb)
          rw [hrec] at hless
          simp only at hless
          lia
    · refine ⟨best', r, hloop, by rw [heq]; exact hbest, hr.keep ?_⟩
      intro j hj
      obtain ⟨s, hs, hyes⟩ := (hmatch j).mp hj
      obtain ⟨hset, hle⟩ := hnone j s hs hyes
      rcases hbest with ⟨hzero, -⟩ | ⟨c, i, hsome, hrec, -⟩
      · exact absurd hzero hset
      · rw [hrec] at hle
        exact ⟨c, i, hsome, hle⟩

theorem confs_fold (h : Readable fit fdt entries) {images : ℤ} {n : ℕ}
    (hnode : fdtSubnodeOffset fit 0 (chars "images") = some images) (himages : NodeAt fit n images)
    (hstr : ∀ s ∈ entries, 0 ∉ s) {confs before : List ℕ}
    (hconfs : ∀ c ∈ confs, c ∈ configurations fit ∧ 0 < c ∧ ∃ k, NodeAt fit k c) {best : ℤ × ℕ}
    {r : Option (ℕ × ℕ)} (hbest : Recorded best r) (hr : Best (MatchesAt fit entries) before r) :
    ∃ best' r', confs.foldlM
        (fun best node => confVisit fit images (listBytes entries) (node : ℕ) best) best =
          some best' ∧
      Recorded best' r' ∧ Best (MatchesAt fit entries) (before ++ confs) r' := by
  induction confs generalizing before best r with
  | nil =>
    rw [append_nil]
    exact ⟨best, r, rfl, hbest, hr⟩
  | cons c confs ih =>
    obtain ⟨hmem, hpos, k, hat⟩ := hconfs c mem_cons_self
    obtain ⟨best₁, r₁, hvisit, hbest₁, hr₁⟩ :=
      confVisit_spec h hnode himages hstr hmem hpos hat hbest hr
    obtain ⟨best₂, r₂, hfold, hbest₂, hr₂⟩ :=
      ih (fun d hd => hconfs d (mem_cons_of_mem c hd)) hbest₁ hr₁
    refine ⟨best₂, r₂, ?_, hbest₂, ?_⟩
    · rw [foldlM_cons, hvisit]
      exact hfold
    · rw [append_assoc, singleton_append] at hr₂
      exact hr₂

/- An error says that no configuration matches; a node that is returned is the first of the
configurations that match at the smallest position. -/
structure PicksBest (fit : Fdt) (entries : List (List UInt8)) (r : ℤ) : Prop where
  error : r < 0 ↔ ∀ conf ∈ configurations fit, ∀ i, ¬ MatchesAt fit entries conf i
  node : 0 ≤ r → ∃ conf i : ℕ, r = conf ∧ conf ∈ configurations fit ∧
    IsBest (MatchesAt fit entries) (configurations fit) conf i

theorem picksBest_none (h : ∀ conf ∈ configurations fit, ∀ i, ¬ MatchesAt fit entries conf i) :
    PicksBest fit entries (-1) :=
  ⟨⟨fun _ => h, fun _ => by decide⟩, fun hneg => absurd hneg (by decide)⟩

theorem picksBest_recorded {best : ℤ × ℕ} {r : Option (ℕ × ℕ)} (hbest : Recorded best r)
    (hr : Best (MatchesAt fit entries) (configurations fit) r) :
    PicksBest fit entries (if best.1 = 0 then -1 else best.1) := by
  rcases hbest with ⟨hzero, rfl⟩ | ⟨c, i, rfl, rfl, hpos⟩
  · rw [if_pos hzero]
    exact picksBest_none hr
  · have hmem : c ∈ configurations fit := by
      obtain ⟨before, after, hsplit, -⟩ := hr.first
      rw [hsplit]
      exact mem_append_right _ mem_cons_self
    have hne : ((c : ℤ), i).1 ≠ 0 := by
      simp only
      lia
    rw [if_neg hne]
    refine ⟨⟨fun hneg => ?_, fun hnone => absurd hr.holds (hnone c hmem i)⟩, fun _ => ?_⟩
    · simp only at hneg
      lia
    · exact ⟨c, i, rfl, hmem, hr⟩

theorem fit_conf_find_compat_best (h : Readable fit fdt entries) :
    ∃ r, fitConfFindCompat fit fdt = some r ∧ PicksBest fit entries r := by
  obtain ⟨confs, hconfs, hconfsCase⟩ :=
    fdtSubnodeOffset_returns h.fitTree.nodeAt (chars "configurations")
  obtain ⟨images, himages, himagesCase⟩ :=
    fdtSubnodeOffset_returns h.fitTree.nodeAt (chars "images")
  unfold fitConfFindCompat
  simp only [bind, Option.bind, hconfs, himages]
  by_cases hneg : confs < 0 ∨ images < 0
  · rw [if_pos hneg]
    refine ⟨-1, rfl, picksBest_none ?_⟩
    intro conf hconf i hmatch
    rcases hneg with hneg | hneg
    · rw [configurations, hconfs] at hconf
      simp only [if_pos hneg] at hconf
      cases hconf
    · obtain ⟨s, -, q, blob, ⟨images', himages', hge, -⟩, -⟩ := hmatch
      rw [himages] at himages'
      rw [← some.inj himages'] at hge
      lia
  · rw [if_neg hneg]
    obtain ⟨n, -, hnode⟩ := hconfsCase.resolve_left (fun hc => hneg (.inl hc))
    obtain ⟨n', -, hnode'⟩ := himagesCase.resolve_left (fun hc => hneg (.inr hc))
    rcases h.list with ⟨hprop, hnil⟩ | ⟨data, len, hprop, hlen, hbytes, hstr⟩
    · rw [hprop]
      refine ⟨-1, rfl, picksBest_none ?_⟩
      intro conf _ i hmatch
      obtain ⟨s, hs, -⟩ := hmatch
      rw [hnil] at hs
      cases hs
    · have hlist : configurations fit = children fit confs.toNat := by
        rw [configurations, hconfs]
        exact if_neg (Int.not_lt.mpr hnode.nonneg)
      have hmem : ∀ c ∈ children fit confs.toNat,
          c ∈ configurations fit ∧ 0 < c ∧ ∃ k, NodeAt fit k c := by
        intro c hc
        exact ⟨by rw [hlist]; exact hc, children_nodes hnode c hc⟩
      obtain ⟨best, r, hfold, hbest, hr⟩ := @confs_fold fit fdt entries h images n' himages hnode'
        hstr (children fit confs.toNat) [] hmem (0, 0) none (.inl ⟨rfl, rfl⟩) best_nil
      rw [nil_append, ← hlist] at hr
      simp only [hprop, if_pos hlen, hbytes]
      rw [confLoop_eq hnode, hfold]
      exact ⟨_, rfl, picksBest_recorded hbest hr⟩

end Find

def blobBytes (names : List String) (items : List Item) : List UInt8 :=
  let blob := structBytes names items
  let strings := names.flatMap cString
  List.flatten [be32Bytes 0xd00dfeed, be32Bytes (40 + blob.length + strings.length), be32Bytes 40,
    be32Bytes (40 + blob.length), be32Bytes 40, be32Bytes 17, be32Bytes 16, be32Bytes 0,
    be32Bytes strings.length, be32Bytes blob.length, blob, strings]

def rootItems (compatible : List String) : List Item :=
  [.beginNode "", .prop "compatible" (compatible.flatMap cString), .endNode]

def compatItems : List Item := List.flatten
  [[.beginNode "", .beginNode "images"],
    [.beginNode "fdt@1", .prop "data" (blobBytes ["compatible"] (rootItems ["bim,bam"])), .endNode],
    [.beginNode "fdt@2", .prop "data" (blobBytes ["compatible"] (rootItems ["foo,bar"])), .endNode],
    [.endNode, .beginNode "configurations"],
    [.beginNode "conf@1", .prop "fdt" (cString "fdt@1"), .endNode],
    [.beginNode "conf@2", .prop "fdt" (cString "fdt@2"), .endNode],
    [.endNode, .endNode]]

def compatFit : Fdt := writeFdt ["data", "fdt"] compatItems (by decide +kernel)

def rootFdt : Fdt := writeFdt ["compatible"] (rootItems ["foo,bar", "bim,bam"]) (by decide +kernel)

theorem tree_of_isSome {fdt : Fdt} (h : (marks fdt).isSome = true)
    (hroot : (fdtNextTag fdt 0).1 = .beginNode) : Tree fdt :=
  ⟨isSome_iff_exists.mp h, hroot⟩

theorem compatFit_readable : Readable compatFit rootFdt [chars "foo,bar", chars "bim,bam"] := by
  have hconfs : configurations compatFit = [276, 312] := by decide +kernel
  have himages : fdtSubnodeOffset compatFit 0 (chars "images") = some 8 := by decide +kernel
  have hname₁ : fdtGetprop compatFit 276 "fdt" = some (some (340, 6)) := by decide +kernel
  have hname₂ : fdtGetprop compatFit 312 "fdt" = some (some (376, 6)) := by decide +kernel
  have htree₁ : confFdt compatFit 8 276 = some (some 84) := by decide +kernel
  have htree₂ : confFdt compatFit 8 312 = some (some 200) := by decide +kernel
  have hblobs : ∀ kfdt ∈ [84, 200], ((blobAt compatFit.mem kfdt).any fun blob =>
      (marks blob).isSome && (fdtNextTag blob 0).1 == .beginNode) = true := by
    decide +kernel
  refine ⟨tree_of_isSome (by decide +kernel) (by decide +kernel),
    tree_of_isSome (by decide +kernel) (by decide +kernel), ?_, ?_, ?_⟩
  · have hprop : fdtGetprop rootFdt 0 "compatible" = some (some (60, 16)) := by decide +kernel
    exact .inr ⟨60, 16, hprop, by decide, by decide +kernel, by decide⟩
  · intro conf hconf data len hprop
    rw [hconfs, mem_cons, mem_singleton] at hconf
    rcases hconf with rfl | rfl
    · rw [show ((276 : ℕ) : ℤ) = 276 by rfl, hname₁] at hprop
      obtain ⟨rfl, rfl⟩ := Prod.mk.inj (some.inj (some.inj hprop))
      decide +kernel
    · rw [show ((312 : ℕ) : ℤ) = 312 by rfl, hname₂] at hprop
      obtain ⟨rfl, rfl⟩ := Prod.mk.inj (some.inj (some.inj hprop))
      decide +kernel
  · intro conf hconf kfdt htree
    obtain ⟨images, himages', -, hkfdt⟩ := htree
    rw [himages] at himages'
    rw [← some.inj himages'] at hkfdt
    have hmem : kfdt ∈ [84, 200] := by
      rw [hconfs, mem_cons, mem_singleton] at hconf
      rcases hconf with rfl | rfl
      · rw [show ((276 : ℕ) : ℤ) = 276 by rfl, htree₁] at hkfdt
        rw [← some.inj (some.inj hkfdt)]
        exact mem_cons_self
      · rw [show ((312 : ℕ) : ℤ) = 312 by rfl, htree₂] at hkfdt
        rw [← some.inj (some.inj hkfdt)]
        exact mem_cons_of_mem _ mem_cons_self
    have hblob := hblobs kfdt hmem
    rw [Option.any_eq_true] at hblob
    obtain ⟨blob, hat, hok⟩ := hblob
    rw [Bool.and_eq_true, beq_iff_eq] at hok
    exact ⟨blob, hat, tree_of_isSome hok.1 hok.2⟩

/- `conf@2` matches the first string of the control tree, `conf@1` the second one. -/
theorem second_conf_picked :
    fitConfFindCompat compatFit rootFdt = some 312 ∧
      PicksBest compatFit [chars "foo,bar", chars "bim,bam"] 312 := by
  have hfind : fitConfFindCompat compatFit rootFdt = some 312 := by decide +kernel
  obtain ⟨r, hr, hpick⟩ := fit_conf_find_compat_best compatFit_readable
  rw [hfind] at hr
  rw [← some.inj hr] at hpick
  exact ⟨hfind, hpick⟩

end UBoot.Fit
