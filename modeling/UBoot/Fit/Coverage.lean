import UBoot.Fit.Finder
import UBoot.Fit.ImageSig

/-!
# What the regions of a configuration hold

Each tag shows its own length, so equal hashed bytes are equal tags, up to the end tag. Where the
nodes around a hashed tag are hashed too, they show its place in the tree.
-/

namespace UBoot.Fit

open Memory Runs Rsa List Option

def wordAt (bs : List UInt8) (i : ℕ) : ℕ :=
  (bs.getD i 0).toNat * 2 ^ 24 + (bs.getD (i + 1) 0).toNat * 2 ^ 16 +
    (bs.getD (i + 2) 0).toNat * 2 ^ 8 + (bs.getD (i + 3) 0).toNat

def spanOf (bs : List UInt8) : ℕ :=
  if wordAt bs 0 = 1 then tagAlign (4 + (bs.drop 4).findIdx (· == 0) + 1)
  else if wordAt bs 0 = 3 then tagAlign ((12 + wordAt bs 4) % 2 ^ 32)
  else 4

section Bytes

variable {mem : Mem} {a n i k : ℕ} (rest : List UInt8)

theorem getD_bytes_append (hi : i < n) : (bytes mem a n ++ rest).getD i 0 = mem (a + i) := by
  rw [getD_append _ _ _ _ (by simpa using hi), getD_eq_getElem?_getD, getElem?_bytes _ _ _ hi]
  rfl

theorem wordAt_bytes (hi : i + 4 ≤ n) : wordAt (bytes mem a n ++ rest) i = be32 mem (a + i) := by
  unfold wordAt be32
  rw [getD_bytes_append rest (by lia), getD_bytes_append rest (by lia),
    getD_bytes_append rest (by lia), getD_bytes_append rest (by lia)]
  rfl

theorem findIdx_bytes (hk : k < n) (hzero : mem (a + k) = 0) (hbefore : ∀ i < k, mem (a + i) ≠ 0) :
    (bytes mem a n ++ rest).findIdx (· == 0) = k := by
  have hlt : k < (bytes mem a n ++ rest).length := by
    rw [length_append, length_bytes]
    lia
  have hget : ∀ i < n, (bytes mem a n ++ rest)[i]? = some (mem (a + i)) := by
    intro i hi
    rw [getElem?_append_left (by simpa using hi), getElem?_bytes _ _ _ hi]
  rw [findIdx_eq hlt]
  constructor
  · have := hget k hk
    rw [getElem?_eq_getElem hlt, some.injEq] at this
    rw [this, hzero]
    rfl
  · intro i hi
    have := hget i (by lia)
    rw [getElem?_eq_getElem (by lia), some.injEq] at this
    rw [this]
    simpa using hbefore i hi

end Bytes

section Spans

variable {fdt : Fdt} {m : Mark}

theorem length_raw (m : Mark) : (m.raw fdt).length = m.next - m.offset := length_bytes _ _ _

theorem Whole.word (h : Whole fdt m) (rest : List UInt8) : wordAt (m.raw fdt ++ rest) 0 = m.tag.code := by
  obtain ⟨n, htag, -⟩ := h.tagAt
  have hlong := h.long
  rw [Mark.raw, wordAt_bytes rest (by lia)]
  exact (tagAt_cases htag).1

theorem Whole.span (h : Whole fdt m) (rest : List UInt8) :
    spanOf (m.raw fdt ++ rest) = (m.raw fdt).length := by
  obtain ⟨n, htag, hnext⟩ := h.tagAt
  have hal := h.aligned
  have hlong := h.long
  have hspan : m.next - m.offset = tagAlign n := by
    rw [hnext]
    unfold tagAlign
    lia
  unfold spanOf
  rw [h.word rest, length_raw, hspan]
  cases hm : m.tag with
  | beginNode =>
    rw [hm] at htag
    have hcases := (tagAt_cases htag).2
    obtain ⟨k, hk, rfl⟩ := hcases
    obtain ⟨hzero, hbefore⟩ := nameLength_spec hk
    have hle := le_tagAlign (4 + k + 1)
    rw [if_pos (show Tag.beginNode.code = 1 from rfl)]
    congr 2
    have hdrop : (m.raw fdt ++ rest).drop 4 =
        bytes fdt.mem (fdt.ptr (m.offset + 4)) (m.next - m.offset - 4) ++ rest := by
      rw [drop_append_of_le_length (by rw [length_raw]; lia), Mark.raw,
        drop_bytes _ _ _ _ (by lia)]
      rfl
    have hfirst : ∀ i < k, fdt.mem (fdt.ptr (m.offset + 4) + i) ≠ 0 := by
      intro i hi
      simpa [Fdt.ptr, Nat.add_assoc] using hbefore i hi
    rw [hdrop, findIdx_bytes (k := k) rest (by lia)
      (by simpa [Fdt.ptr, Nat.add_assoc] using hzero) hfirst]
  | prop =>
    rw [hm] at htag
    have hcases : n = (12 + fdt.propLen m.offset) % 2 ^ 32 := (tagAt_cases htag).2
    have h8 := h.prop hm
    rw [if_neg (by decide), if_pos (show Tag.prop.code = 3 from rfl), Mark.raw, wordAt_bytes rest (by lia), hcases]
    rfl
  | endNode =>
    rw [hm] at htag
    have hcases : n = 4 := (tagAt_cases htag).2
    rw [if_neg (by decide), if_neg (by decide), hcases]
    rfl
  | nop =>
    rw [hm] at htag
    have hcases : n = 4 := (tagAt_cases htag).2
    rw [if_neg (by decide), if_neg (by decide), hcases]
    rfl
  | fin =>
    rw [hm] at htag
    have hcases : n = 4 := (tagAt_cases htag).2
    rw [if_neg (by decide), if_neg (by decide), hcases]
    rfl

def nameOf (raw : List UInt8) : List UInt8 := (raw.drop 4).takeWhile (· ≠ 0)

theorem Whole.name (h : Whole fdt m) (hm : m.tag = .beginNode) :
    nameOf (m.raw fdt) = nodeName fdt m.offset := by
  obtain ⟨n, htag, hnext⟩ := h.tagAt
  rw [hm] at htag
  obtain ⟨k, hk, rfl⟩ := (tagAt_cases htag).2
  have hle := le_tagAlign (m.offset + (4 + k + 1))
  obtain ⟨j, hj⟩ : ∃ j, m.next - m.offset - 4 = k + (j + 1) := ⟨m.next - m.offset - 4 - k - 1, by lia⟩
  have hzero : fdt.mem (fdt.ptr (m.offset + 4) + k) = 0 := by
    simpa [Fdt.ptr, Nat.add_assoc] using (nameLength_spec hk).1
  have hname : nodeName fdt m.offset = bytes fdt.mem (fdt.ptr (m.offset + 4)) k := by
    rw [nodeName, hk, getD_some]
  have hdrop : (m.raw fdt).drop 4 = nodeName fdt m.offset ++
      0 :: bytes fdt.mem (fdt.ptr (m.offset + 4) + k + 1) j := by
    rw [Mark.raw, drop_bytes _ _ _ _ (by lia), hj, hname, bytes_add, bytes_succ]
    simp only [Fdt.ptr, Nat.add_assoc] at hzero ⊢
    rw [hzero]
  rw [nameOf, hdrop, takeWhile_zero (nodeName_nonzero fdt m.offset)]

end Spans

section Kept

variable (fdt : Fdt) (inc excProp : List (List UInt8))

/- The tags in the regions; `before` is whether the tag before is included. -/
def keptMarks (before : Bool) : List Mark → List Mark
  | [] => []
  | m :: ms =>
    let this := m.included fdt inc excProp
    if this || (before && m.tag == .endNode) then m :: keptMarks this ms else keptMarks this ms

def FinEnded : List Mark → Prop
  | [] => False
  | m :: ms => if m.tag = .fin then ms = [] else FinEnded ms

variable {fdt inc excProp}

theorem keptMarks_subset (before : Bool) (ms : List Mark) :
    ∀ m ∈ keptMarks fdt inc excProp before ms, m ∈ ms := by
  induction ms generalizing before with
  | nil => simp [keptMarks]
  | cons a ms ih =>
    intro m hm
    rw [keptMarks] at hm
    split at hm
    · cases mem_cons.mp hm with
      | inl heq => exact heq ▸ mem_cons_self
      | inr hm => exact mem_cons_of_mem a (ih _ m hm)
    · exact mem_cons_of_mem a (ih _ m hm)

variable {ms : List Mark}

theorem FinEnded.keptMarks (h : FinEnded ms) (before : Bool) :
    FinEnded (UBoot.Fit.keptMarks fdt inc excProp before ms) := by
  induction ms generalizing before with
  | nil => exact h
  | cons m ms ih =>
    rw [UBoot.Fit.keptMarks]
    by_cases hfin : m.tag = .fin
    · rw [FinEnded, if_pos hfin] at h
      have hinc : m.included fdt inc excProp = true := by rw [Mark.included, hfin]
      rw [hinc, Bool.true_or, if_pos rfl, FinEnded, if_pos hfin, h]
      rfl
    · rw [FinEnded, if_neg hfin] at h
      split
      · rw [FinEnded, if_neg hfin]
        exact ih h _
      · exact ih h _

theorem marksFrom_finEnded {fuel offset : ℕ} {path : List UInt8} {nodes : List Node}
    (h : marksFrom fdt fuel offset path nodes = some ms) : FinEnded ms := by
  obtain ⟨as, z, rfl, hz, -, has⟩ := marksFrom_fin h
  clear h
  induction as with
  | nil => rw [nil_append, FinEnded, if_pos hz]
  | cons a as ih =>
    rw [cons_append, FinEnded, if_neg (has a mem_cons_self)]
    exact ih fun m hm => has m (mem_cons_of_mem a hm)

theorem flatMap_pieces (before : Bool) (ms : List Mark) :
    ((pieces fdt inc excProp before ms).filter fun x => x.2.2).flatMap
        (fun x => bytes fdt.mem (fdt.ptr x.1) (x.2.1 - x.1)) =
      (keptMarks fdt inc excProp before ms).flatMap (Mark.raw fdt) := by
  induction ms generalizing before with
  | nil => rfl
  | cons m ms ih =>
    simp only [pieces, keptMarks, filter_cons]
    split
    · rw [flatMap_cons, flatMap_cons, ih]
      rfl
    · exact ih _

theorem regions_content (h : marks fdt = some ms) :
    ((addRuns [] (pieces fdt inc excProp false ms)).map (toRegion fdt)).flatMap (regionBytes fdt) =
      (keptMarks fdt inc excProp false ms).flatMap (Mark.raw fdt) := by
  have hchain := chained_pieces inc excProp h (Nat.dvd_zero 4) false
  have hord : Ordered [] 0 := ⟨by simp, by simp, List.Pairwise.nil⟩
  have hcut : ∀ s e b, s ≤ e → e ≤ b → bytes fdt.mem (fdt.ptr s) (e - s) ++
      bytes fdt.mem (fdt.ptr e) (b - e) = bytes fdt.mem (fdt.ptr s) (b - s) := by
    intro s e b hse heb
    obtain ⟨i, rfl⟩ := Nat.exists_eq_add_of_le hse
    obtain ⟨j, rfl⟩ := Nat.exists_eq_add_of_le heb
    rw [show s + i + j - s = i + j by lia, bytes_add, Nat.add_sub_cancel_left,
      Nat.add_sub_cancel_left, Fdt.ptr, Fdt.ptr, Nat.add_assoc]
  have hruns := flatMap_addRuns hcut hord hchain
  rw [flatMap_nil, nil_append, flatMap_pieces] at hruns
  rw [flatMap_map]
  exact hruns

theorem Tag.code_inj {t t' : Tag} (h : t.code = t'.code) : t = t' := by
  cases t <;> cases t' <;> first | rfl | cases h

theorem raws_eq {fdt' : Fdt} {ks ks' : List Mark} {rest rest' : List UInt8}
    (hw : ∀ m ∈ ks, Whole fdt m) (hw' : ∀ m ∈ ks', Whole fdt' m) (hf : FinEnded ks)
    (hf' : FinEnded ks')
    (h : ks.flatMap (Mark.raw fdt) ++ rest = ks'.flatMap (Mark.raw fdt') ++ rest') :
    ks.map (Mark.raw fdt) = ks'.map (Mark.raw fdt') ∧ ks.map Mark.tag = ks'.map Mark.tag := by
  induction ks generalizing ks' with
  | nil => exact absurd hf id
  | cons m ks ih =>
    cases ks' with
    | nil => exact absurd hf' id
    | cons m' ks' =>
      have hm := hw m mem_cons_self
      have hm' := hw' m' mem_cons_self
      simp only [flatMap_cons, append_assoc] at h
      have hspan : (m.raw fdt).length = (m'.raw fdt').length := by
        rw [← hm.span (ks.flatMap (Mark.raw fdt) ++ rest), h, hm'.span]
      have hword : m.tag = m'.tag := by
        apply Tag.code_inj
        rw [← hm.word (ks.flatMap (Mark.raw fdt) ++ rest), h, hm'.word]
      obtain ⟨hraw, htail⟩ := append_inj h hspan
      rw [map_cons, map_cons, map_cons, map_cons, hraw, hword]
      by_cases hfin : m.tag = .fin
      · rw [FinEnded, if_pos hfin] at hf
        rw [FinEnded, if_pos (hword ▸ hfin)] at hf'
        rw [hf, hf']
        exact ⟨rfl, rfl⟩
      · rw [FinEnded, if_neg hfin] at hf
        rw [FinEnded, if_neg (hword ▸ hfin)] at hf'
        obtain ⟨hraws, htags⟩ := ih (fun x hx => hw x (mem_cons_of_mem m hx))
          (fun x hx => hw' x (mem_cons_of_mem m' hx)) hf hf' htail
        rw [hraws, htags]
        exact ⟨rfl, rfl⟩

end Kept

section Listed

variable (fdt : Fdt) (inc excProp : List (List UInt8))

def listedProp (m : Mark) : Bool :=
  m.tag == .prop && m.nodes.head?.any (fun node => inc.contains node.2) &&
    !excluded fdt excProp m.offset

variable {fdt inc excProp}

variable (inc) in
theorem wantOf_le (nodes : List Node) : wantOf inc nodes ≤ 2 := by
  induction nodes with
  | nil => exact Nat.zero_le 2
  | cons node outer ih =>
    unfold wantOf
    split
    · exact le_refl 2
    · lia

theorem two_le_wantOf (nodes : List Node) :
    2 ≤ wantOf inc nodes ↔ nodes.head?.any (fun node => inc.contains node.2) = true := by
  cases nodes with
  | nil => simp [wantOf]
  | cons node outer =>
    have hle := wantOf_le inc outer
    simp only [wantOf, head?_cons, any_some]
    cases inc.contains node.2 with
    | true =>
      rw [if_pos rfl]
      exact ⟨fun _ => rfl, fun _ => le_refl 2⟩
    | false =>
      rw [if_neg Bool.false_ne_true]
      constructor
      · intro h
        lia
      · intro h
        cases h

theorem listedProp_eq (m : Mark) :
    listedProp fdt inc excProp m = (m.tag == .prop && m.included fdt inc excProp) := by
  unfold listedProp Mark.included
  by_cases hprop : m.tag = .prop
  · simp only [hprop, beq_self_eq_true, Bool.true_and]
    congr 1
    exact (Bool.eq_iff_iff.mpr (by rw [decide_eq_true_iff, two_le_wantOf])).symm
  · have hne : (m.tag == .prop) = false := by simpa using hprop
    rw [hne, Bool.false_and, Bool.false_and, Bool.false_and]

theorem filter_keptMarks (before : Bool) (ms : List Mark) :
    (keptMarks fdt inc excProp before ms).filter (fun m => m.tag == .prop) =
      ms.filter (listedProp fdt inc excProp) := by
  induction ms generalizing before with
  | nil => rfl
  | cons m ms ih =>
    rw [keptMarks, filter_cons, listedProp_eq]
    by_cases hprop : m.tag = .prop
    · simp only [hprop, beq_self_eq_true, Bool.true_and]
      cases m.included fdt inc excProp with
      | true => simp [hprop, ih]
      | false => simp [ih]
    · have hne : (m.tag == .prop) = false := by simpa using hprop
      rw [hne, Bool.false_and, if_neg Bool.false_ne_true]
      split
      · rw [filter_cons, hne, if_neg Bool.false_ne_true, ih]
      · exact ih _

def Inside (fdt : Fdt) (regions : List Region) (m : Mark) : Prop :=
  ∃ r ∈ regions, r.offset ≤ fdt.ptr m.offset ∧ fdt.ptr m.next ≤ r.offset + r.size

instance (fdt : Fdt) (regions : List Region) (m : Mark) : Decidable (Inside fdt regions m) :=
  inferInstanceAs (Decidable (∃ r ∈ regions, _))

theorem kept_pieces {before : Bool} {ms : List Mark} {m : Mark} (hm : m ∈ ms)
    (hinc : m.included fdt inc excProp = true) :
    (m.offset, m.next, true) ∈ pieces fdt inc excProp before ms := by
  induction ms generalizing before with
  | nil => cases hm
  | cons a ms ih =>
    rw [pieces]
    cases mem_cons.mp hm with
    | inl heq =>
      subst heq
      rw [hinc]
      exact mem_cons_self
    | inr hm => exact mem_cons_of_mem _ (ih hm)

theorem included_inside {ms : List Mark} {m : Mark} (h : marks fdt = some ms) (hm : m ∈ ms)
    (hinc : m.included fdt inc excProp = true) :
    Inside fdt ((addRuns [] (pieces fdt inc excProp false ms)).map (toRegion fdt)) m := by
  have hchain := chained_pieces inc excProp h (Nat.dvd_zero 4) false
  have hord : Ordered [] 0 := ⟨by simp, by simp, List.Pairwise.nil⟩
  obtain ⟨⟨a, b⟩, hr, ha, hb⟩ := addRuns_mem hord hchain (kept_pieces hm hinc)
  refine ⟨toRegion fdt (a, b), mem_map_of_mem hr, ?_, ?_⟩
  · exact Nat.add_le_add_left ha _
  · have hlong := (marksFrom_whole h (Nat.dvd_zero 4) m hm).long
    simp only [toRegion, Fdt.ptr] at ha hb ⊢
    lia

end Listed

section Places

variable {fdt : Fdt} {inc excProp : List (List UInt8)}

def Mark.place (fdt : Fdt) (m : Mark) : List (List UInt8) := m.nodes.map fun node => nodeName fdt node.1

/- The nodes around the tags, from `nodes` on. -/
def Nested (nodes : List Node) : List Mark → Prop
  | [] => True
  | m :: ms =>
    (m.tag = .beginNode → ∃ path, m.nodes = (m.offset, path) :: nodes) ∧
      (m.tag ≠ .beginNode → m.nodes = nodes) ∧ (m.tag = .endNode → nodes ≠ []) ∧
      Nested (if m.tag = .endNode then nodes.tail else m.nodes) ms

variable {nodes : List Node}

theorem marksFrom_nested {fuel offset : ℕ} {path : List UInt8} {ms : List Mark}
    (h : marksFrom fdt fuel offset path nodes = some ms) : Nested nodes ms := by
  induction fuel generalizing offset path nodes ms with
  | zero => cases h
  | succ fuel ih =>
    unfold marksFrom at h
    rcases htag : fdtNextTag fdt offset with ⟨tag, next⟩
    rw [htag] at h
    cases tag with
    | fin =>
      simp only at h
      split at h
      · obtain rfl := some.inj h
        exact ⟨fun h => Tag.noConfusion h, fun _ => rfl, fun h => Tag.noConfusion h, trivial⟩
      · cases h
    | endNode =>
      cases nodes with
      | nil => cases h
      | cons node outer =>
        obtain ⟨rest, hrest, rfl⟩ := map_eq_some_iff.mp h
        exact ⟨fun h => Tag.noConfusion h, fun _ => rfl, fun _ => cons_ne_nil _ _, ih hrest⟩
    | beginNode =>
      obtain ⟨rest, hrest, rfl⟩ := map_eq_some_iff.mp h
      exact ⟨fun _ => ⟨_, rfl⟩, fun hne => absurd rfl hne, fun h => Tag.noConfusion h, ih hrest⟩
    | prop =>
      obtain ⟨rest, hrest, rfl⟩ := map_eq_some_iff.mp h
      exact ⟨fun h => Tag.noConfusion h, fun _ => rfl, fun h => Tag.noConfusion h, ih hrest⟩
    | nop =>
      obtain ⟨rest, hrest, rfl⟩ := map_eq_some_iff.mp h
      exact ⟨fun h => Tag.noConfusion h, fun _ => rfl, fun h => Tag.noConfusion h, ih hrest⟩

variable (inc) in
def AllWanted : List Node → Prop
  | [] => True
  | node :: outer => wantOf inc (node :: outer) ≠ 0 ∧ AllWanted outer

instance decidableAllWanted (inc : List (List UInt8)) : ∀ nodes, Decidable (AllWanted inc nodes)
  | [] => .isTrue trivial
  | _ :: outer => @instDecidableAnd _ _ _ (decidableAllWanted inc outer)

variable (inc) in
def Anchored (ms : List Mark) : Prop := ∀ m ∈ ms, wantOf inc m.nodes ≠ 0 → AllWanted inc m.nodes

instance (inc : List (List UInt8)) (ms : List Mark) : Decidable (Anchored inc ms) :=
  inferInstanceAs (Decidable (∀ m ∈ ms, _ → _))

variable (inc) in
def wantedPart : List Node → List Node
  | [] => []
  | node :: outer => if wantOf inc (node :: outer) ≠ 0 then node :: outer else wantedPart outer

theorem AllWanted.wantedPart (h : AllWanted inc nodes) : UBoot.Fit.wantedPart inc nodes = nodes := by
  cases nodes with
  | nil => rfl
  | cons node outer => exact if_pos h.1

theorem wantedPart_skip {node : Node} {outer : List Node} (h : wantOf inc (node :: outer) = 0) :
    wantedPart inc (node :: outer) = wantedPart inc outer := if_neg (not_not.mpr h)

/- The properties in a list of hashed tags with their places, inside of the nodes `names`. -/
def placedProps (names : List (List UInt8)) : List (Tag × List UInt8) →
    List (List (List UInt8) × List UInt8)
  | [] => []
  | (.beginNode, raw) :: tags => placedProps (nameOf raw :: names) tags
  | (.endNode, _) :: tags => placedProps names.tail tags
  | (.prop, raw) :: tags => (names, raw) :: placedProps names tags
  | (.nop, _) :: tags | (.fin, _) :: tags => placedProps names tags

variable (fdt inc excProp) in
/- The listed properties of `ms` are those that the hashed tags place inside of `nodes`. -/
def PropsKept (nodes : List Node) (before : Bool) (ms : List Mark) : Prop :=
  (ms.filter (listedProp fdt inc excProp)).map (fun m => (m.place fdt, m.raw fdt)) =
    placedProps ((wantedPart inc nodes).map fun node => nodeName fdt node.1)
      ((keptMarks fdt inc excProp before ms).map fun m => (m.tag, m.raw fdt))

section Turn

variable {m : Mark} {ms : List Mark} {before : Bool}

theorem Mark.wanted_of_included (hinc : m.included fdt inc excProp = true) (hfin : m.tag ≠ .fin) :
    wantOf inc m.nodes ≠ 0 := by
  rw [Mark.included] at hinc
  cases htag : m.tag with
  | fin => exact absurd htag hfin
  | prop =>
    simp only [htag, Bool.and_eq_true, decide_eq_true_eq] at hinc
    lia
  | nop =>
    simp only [htag, decide_eq_true_eq] at hinc
    lia
  | beginNode =>
    simp only [htag, decide_eq_true_eq] at hinc
    lia
  | endNode =>
    simp only [htag, decide_eq_true_eq] at hinc
    lia

theorem placedProps_enter {path : List UInt8} (hnodes : m.nodes = (m.offset, path) :: nodes)
    (htag : m.tag = .beginNode) (hm : Whole fdt m)
    (hwanted : wantOf inc m.nodes ≠ 0 → AllWanted inc m.nodes)
    (hrest : ∀ b, (b = true → AllWanted inc m.nodes) → PropsKept fdt inc excProp m.nodes b ms) :
    PropsKept fdt inc excProp nodes before (m :: ms) := by
  rw [PropsKept, filter_cons, listedProp_eq, keptMarks, htag]
  cases hinc : m.included fdt inc excProp with
  | true =>
    have hall := hwanted (m.wanted_of_included hinc (by rw [htag]; decide))
    have houter : AllWanted inc nodes := by
      rw [hnodes] at hall
      exact hall.2
    have hname := hm.name htag
    simp only [Bool.and_true, Bool.true_or, if_true, map_cons, placedProps, htag, hname]
    refine (hrest true fun _ => hall).trans ?_
    rw [hall.wantedPart, houter.wantedPart, hnodes, map_cons]
  | false =>
    have hzero : wantOf inc m.nodes = 0 := by
      rw [Mark.included, htag] at hinc
      exact not_not.mp (of_decide_eq_false hinc)
    simp only [Bool.and_false, Bool.false_or, Bool.false_eq_true, if_false, reduceCtorEq,
      beq_iff_eq, Bool.and_eq_true, and_false]
    refine (hrest false fun h => Bool.noConfusion h).trans ?_
    rw [hnodes] at hzero ⊢
    rw [wantedPart_skip hzero]

theorem placedProps_leave {node : Node} {outer : List Node} (hnodes : m.nodes = node :: outer)
    (htag : m.tag = .endNode) (hwanted : wantOf inc m.nodes ≠ 0 → AllWanted inc m.nodes)
    (hbefore : before = true → AllWanted inc (node :: outer))
    (hrest : ∀ b, (b = true → AllWanted inc outer) → PropsKept fdt inc excProp outer b ms) :
    PropsKept fdt inc excProp (node :: outer) before (m :: ms) := by
  rw [PropsKept, filter_cons, listedProp_eq, keptMarks, htag]
  cases hinc : m.included fdt inc excProp with
  | true =>
    have hall : AllWanted inc (node :: outer) :=
      hnodes ▸ hwanted (m.wanted_of_included hinc (by rw [htag]; decide))
    simp only [Bool.and_true, Bool.true_or, if_true, map_cons, placedProps, htag]
    refine (hrest true fun _ => hall.2).trans ?_
    rw [hall.wantedPart, map_cons, tail_cons, hall.2.wantedPart]
  | false =>
    have hzero : wantOf inc (node :: outer) = 0 := by
      rw [Mark.included, htag, hnodes] at hinc
      exact not_not.mp (of_decide_eq_false hinc)
    -- the tag before is not included: the node around it would be hashed then
    have hno : before = false := by
      cases before with
      | false => rfl
      | true => exact absurd hzero (hbefore rfl).1
    rw [hno, wantedPart_skip hzero]
    simp only [Bool.and_false, Bool.false_or, Bool.false_and, Bool.false_eq_true, if_false]
    exact hrest false fun h => Bool.noConfusion h

end Turn

theorem placedProps_kept (before : Bool) {ms : List Mark}
    (hnest : Nested nodes ms) (hanch : Anchored inc ms) (hw : ∀ m ∈ ms, Whole fdt m) (hfin : FinEnded ms)
    (hbefore : before = true → AllWanted inc nodes) : PropsKept fdt inc excProp nodes before ms := by
  induction ms generalizing nodes before with
  | nil => rfl
  | cons m ms ih =>
    obtain ⟨hbegin, hsame, hend, hrest⟩ := hnest
    have hwanted := hanch m mem_cons_self
    have hih := fun nodes b hrest => @ih nodes b hrest (fun x hx => hanch x (mem_cons_of_mem m hx))
      fun x hx => hw x (mem_cons_of_mem m hx)
    cases htag : m.tag with
    | prop =>
      have hnodes := hsame (by rw [htag]; decide)
      rw [FinEnded, htag, if_neg (by decide)] at hfin
      rw [htag, if_neg (by decide), hnodes] at hrest
      rw [PropsKept, filter_cons, listedProp_eq, keptMarks, htag]
      cases hinc : m.included fdt inc excProp with
      | true =>
        have hall : AllWanted inc nodes :=
          hnodes ▸ hwanted (m.wanted_of_included hinc (by rw [htag]; decide))
        have htail := hih nodes true hrest hfin fun _ => hall
        simp only [beq_self_eq_true, Bool.and_self, if_true, Bool.true_or, map_cons, placedProps, htag,
          show _ = _ from htail]
        rw [hall.wantedPart, Mark.place, hnodes]
      | false =>
        simp only [beq_self_eq_true, Bool.and_false, Bool.false_eq_true, if_false, Bool.false_or,
          reduceCtorEq, beq_iff_eq, Bool.and_eq_true, and_false]
        exact hih nodes false hrest hfin fun h => Bool.noConfusion h
    | nop =>
      have hnodes := hsame (by rw [htag]; decide)
      rw [FinEnded, htag, if_neg (by decide)] at hfin
      rw [htag, if_neg (by decide), hnodes] at hrest
      rw [PropsKept, filter_cons, listedProp_eq, keptMarks, htag]
      cases hinc : m.included fdt inc excProp with
      | true =>
        have hall : AllWanted inc nodes :=
          hnodes ▸ hwanted (m.wanted_of_included hinc (by rw [htag]; decide))
        simp only [Bool.and_true, Bool.true_or, if_true, map_cons, placedProps, htag]
        exact hih nodes true hrest hfin fun _ => hall
      | false =>
        simp only [Bool.and_false, Bool.false_or, Bool.false_eq_true, if_false, reduceCtorEq,
          beq_iff_eq, Bool.and_eq_true, and_false]
        exact hih nodes false hrest hfin fun h => Bool.noConfusion h
    | beginNode =>
      obtain ⟨path, hnodes⟩ := hbegin htag
      rw [FinEnded, htag, if_neg (by decide)] at hfin
      rw [htag, if_neg (by decide)] at hrest
      exact placedProps_enter hnodes htag (hw m mem_cons_self) hwanted
        fun b => hih m.nodes b hrest hfin
    | endNode =>
      have hnodes := hsame (by rw [htag]; decide)
      rw [FinEnded, htag, if_neg (by decide)] at hfin
      rw [htag, if_pos rfl] at hrest
      cases nodes with
      | nil => exact absurd rfl (hend htag)
      | cons node outer =>
        exact placedProps_leave hnodes htag hwanted hbefore fun b => hih outer b hrest hfin
    | fin =>
      rw [FinEnded, if_pos htag] at hfin
      have hinc : m.included fdt inc excProp = true := by rw [Mark.included, htag]
      rw [PropsKept, filter_cons, listedProp_eq, keptMarks, htag, hfin, hinc]
      simp only [Bool.and_true, Bool.true_or, if_true, map_cons, placedProps, htag]
      rfl

end Places

end UBoot.Fit
