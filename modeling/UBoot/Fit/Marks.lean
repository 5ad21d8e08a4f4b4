import UBoot.Fit.Regions
import UBoot.Lib.Runs

/-!
# The tags of a structure block

The tags in order, each with the nodes it is in. Whether a tag is included depends on the tag and
these nodes alone, and the regions are the runs of the tags included and of the ends of nodes right
behind them.
-/

namespace UBoot.Fit

open Memory Runs List Option

abbrev Node := ℕ × List UInt8

/- `nodes` are the nodes around the tag, its own one first. -/
structure Mark where
  offset : ℕ
  next : ℕ
  tag : Tag
  nodes : List Node

section Walk

variable (fdt : Fdt)

/- From an offset to the end of the block, which is that of the last tag. -/
def marksFrom : ℕ → ℕ → List UInt8 → List Node → Option (List Mark)
  | 0, _, _, _ => none
  | fuel + 1, offset, path, nodes =>
    let (tag, next) := fdtNextTag fdt offset
    let rest := marksFrom fuel next.toNat
    match tag with
    | .prop | .nop => (rest path nodes).map (⟨offset, next.toNat, tag, nodes⟩ :: ·)
    | .beginNode =>
      let node := (offset, joinPath path (nodeName fdt offset))
      (rest node.2 (node :: nodes)).map (⟨offset, next.toNat, tag, node :: nodes⟩ :: ·)
    | .endNode =>
      match nodes with
      | [] => none
      | _ :: outer => (rest (stripPath path) outer).map (⟨offset, next.toNat, tag, nodes⟩ :: ·)
    | .fin => if next = fdt.sizeDtStruct then some [⟨offset, next.toNat, tag, nodes⟩] else none

def marks : Option (List Mark) := marksFrom fdt (fdt.sizeDtStruct + 1) 0 [] []

variable (inc excProp : List (List UInt8))

def wantOf : List Node → ℕ
  | [] => 0
  | node :: outer => if inc.contains node.2 then 2 else wantOf outer - 1

def Mark.included (m : Mark) : Bool :=
  match m.tag with
  | .prop => decide (2 ≤ wantOf inc m.nodes) && !excluded fdt excProp m.offset
  | .nop => decide (2 ≤ wantOf inc m.nodes)
  | .beginNode | .endNode => decide (wantOf inc m.nodes ≠ 0)
  | .fin => true

/- With the tags that are kept; `before` is whether the tag before is included. -/
def pieces (before : Bool) : List Mark → List (ℕ × ℕ × Bool)
  | [] => []
  | m :: ms =>
    let this := m.included fdt inc excProp
    (m.offset, m.next, this || (before && m.tag == .endNode)) :: pieces this ms

/- The region from `a` to `b` in the structure block. -/
def toRegion (r : ℕ × ℕ) : Region := ⟨fdt.offDtStruct + r.1, r.2 - r.1⟩

end Walk

section Tags

variable {fdt : Fdt} {offset n k : ℕ} {tag : Tag} {next : ℤ}

theorem le_tagAlign (n : ℕ) : n ≤ tagAlign n := by
  unfold tagAlign
  lia

theorem tagAlign_lt (n : ℕ) : tagAlign n < n + 4 := by
  unfold tagAlign
  lia

theorem tagAlign_dvd (n : ℕ) : 4 ∣ tagAlign n := by
  unfold tagAlign
  lia

theorem fdtNextTag_cases (h : fdtNextTag fdt offset = (tag, next)) :
    (∃ n, fdt.tagAt offset = some (tag, n) ∧ fdt.has offset 4 ∧ fdt.has offset n ∧
      next = tagAlign (offset + n)) ∨ (tag = .fin ∧ next < 0) := by
  unfold fdtNextTag at h
  split at h
  · next h4 =>
    split at h
    · obtain ⟨rfl, rfl⟩ := Prod.mk.inj h
      exact .inr ⟨rfl, by decide⟩
    · next t n htag =>
      split at h
      · next hn =>
        obtain ⟨rfl, rfl⟩ := Prod.mk.inj h
        exact .inl ⟨n, htag, h4, hn, rfl⟩
      · obtain ⟨rfl, rfl⟩ := Prod.mk.inj h
        exact .inr ⟨rfl, by decide⟩
  · obtain ⟨rfl, rfl⟩ := Prod.mk.inj h
    exact .inr ⟨rfl, by decide⟩

def Tag.code : Tag → ℕ
  | .beginNode => 1
  | .endNode => 2
  | .prop => 3
  | .nop => 4
  | .fin => 9

theorem tagAt_cases (h : fdt.tagAt offset = some (tag, n)) :
    be32 fdt.mem (fdt.ptr offset) = tag.code ∧
      match tag with
      | .beginNode => ∃ k, fdt.nameLength (offset + 4) = some k ∧ n = 4 + k + 1
      | .prop => n = (12 + fdt.propLen offset) % 2 ^ 32
      | _ => n = 4 := by
  unfold Fdt.tagAt at h
  split at h
  · next hcode =>
    obtain ⟨k, hk, heq⟩ := map_eq_some_iff.mp h
    obtain ⟨rfl, rfl⟩ := Prod.mk.inj heq
    exact ⟨hcode, k, hk, rfl⟩
  · next hcode =>
    obtain ⟨rfl, rfl⟩ := Prod.mk.inj (some.inj h)
    exact ⟨hcode, rfl⟩
  · next hcode =>
    split at h
    · obtain ⟨rfl, rfl⟩ := Prod.mk.inj (some.inj h)
      exact ⟨hcode, rfl⟩
    · cases h
  · next hcode =>
    obtain ⟨rfl, rfl⟩ := Prod.mk.inj (some.inj h)
    exact ⟨hcode, rfl⟩
  · next hcode =>
    obtain ⟨rfl, rfl⟩ := Prod.mk.inj (some.inj h)
    exact ⟨hcode, rfl⟩
  · cases h

theorem nameLength_spec (h : fdt.nameLength offset = some k) :
    fdt.mem (fdt.ptr (offset + k)) = 0 ∧ ∀ i < k, fdt.mem (fdt.ptr (offset + i)) ≠ 0 := by
  unfold Fdt.nameLength at h
  obtain ⟨hzero, as, bs, hsplit, hbefore⟩ := find?_eq_some_iff_append.mp h
  refine ⟨by simpa using hzero, ?_⟩
  intro i hi
  have hmem : i ∈ as := by
    have hlen : as.length = k := by
      have hget := congrArg (fun l => l[as.length]?) hsplit
      simp only [getElem?_append_right (le_refl _), Nat.sub_self, getElem?_cons_zero] at hget
      have hlt := List.getElem?_eq_some_iff.mp hget
      obtain ⟨hlt, heq⟩ := hlt
      simpa using heq
    have hget : (as ++ k :: bs)[i]? = some i := by
      rw [← hsplit]
      have hlt : i < (List.range (fdt.sizeDtStruct - offset)).length := by
        rw [hsplit, length_append, hlen]
        lia
      rw [getElem?_eq_getElem hlt]
      simp
    rw [getElem?_append_left (by lia)] at hget
    exact mem_of_getElem? hget
  simpa using hbefore i hmem

theorem nodeName_nonzero (fdt : Fdt) (offset : ℕ) : ∀ c ∈ nodeName fdt offset, c ≠ 0 := by
  intro c hc
  unfold nodeName at hc
  cases hlen : fdt.nameLength (offset + 4) with
  | none =>
    rw [hlen] at hc
    cases hc
  | some k =>
    rw [hlen, getD_some, bytes] at hc
    obtain ⟨i, hi, rfl⟩ := mem_map.mp hc
    have hname := (nameLength_spec hlen).2 i (mem_range.mp hi)
    rwa [Fdt.ptr, ← Nat.add_assoc] at hname

theorem takeWhile_zero {cs rest : List UInt8} (h : ∀ c ∈ cs, c ≠ 0) :
    (cs ++ 0 :: rest).takeWhile (· ≠ 0) = cs := by
  rw [takeWhile_append_of_pos (by simpa using h)]
  simp

theorem tagAt_length (h : fdt.tagAt offset = some (tag, n)) (hprop : tag ≠ .prop) : 4 ≤ n := by
  have hcases := (tagAt_cases h).2
  cases tag with
  | beginNode =>
    obtain ⟨k, -, rfl⟩ := hcases
    lia
  | prop => exact absurd rfl hprop
  | endNode => exact hcases.ge
  | nop => exact hcases.ge
  | fin => exact hcases.ge

end Tags

section Marks

variable {fdt : Fdt} {fuel offset : ℕ} {path : List UInt8} {nodes : List Node}
  {ms : List Mark}

theorem marksFrom_cons (h : marksFrom fdt (fuel + 1) offset path nodes = some ms) :
    ∃ m rest, ms = m :: rest ∧ m.offset = offset ∧ fdtNextTag fdt offset = (m.tag, (m.next : ℤ)) ∧
      ((m.tag = .fin ∧ rest = [] ∧ m.next = fdt.sizeDtStruct) ∨
        (m.tag ≠ .fin ∧ ∃ path' nodes', marksFrom fdt fuel m.next path' nodes' = some rest)) := by
  unfold marksFrom at h
  rcases htag : fdtNextTag fdt offset with ⟨tag, next⟩
  rw [htag] at h
  have hnat : tag ≠ .fin → ((next.toNat : ℕ) : ℤ) = next := by
    intro hne
    cases fdtNextTag_cases htag with
    | inl hok =>
      obtain ⟨n, -, -, -, rfl⟩ := hok
      rfl
    | inr hfin => exact absurd hfin.1 hne
  cases tag with
  | fin =>
    simp only at h
    split at h
    · next hsize =>
      obtain rfl := some.inj h
      rw [hsize]
      exact ⟨_, _, rfl, rfl, rfl, .inl ⟨rfl, rfl, rfl⟩⟩
    · cases h
  | endNode =>
    cases nodes with
    | nil => cases h
    | cons node outer =>
      obtain ⟨rest, hrest, rfl⟩ := map_eq_some_iff.mp h
      exact ⟨_, _, rfl, rfl, by rw [hnat (by decide)], .inr ⟨by simp, _, _, hrest⟩⟩
  | beginNode =>
    obtain ⟨rest, hrest, rfl⟩ := map_eq_some_iff.mp h
    exact ⟨_, _, rfl, rfl, by rw [hnat (by decide)], .inr ⟨by simp, _, _, hrest⟩⟩
  | prop =>
    obtain ⟨rest, hrest, rfl⟩ := map_eq_some_iff.mp h
    exact ⟨_, _, rfl, rfl, by rw [hnat (by decide)], .inr ⟨by simp, _, _, hrest⟩⟩
  | nop =>
    obtain ⟨rest, hrest, rfl⟩ := map_eq_some_iff.mp h
    exact ⟨_, _, rfl, rfl, by rw [hnat (by decide)], .inr ⟨by simp, _, _, hrest⟩⟩

theorem marksFrom_stuck (h : fdtNextTag fdt offset = (.prop, (offset : ℤ))) :
    marksFrom fdt fuel offset path nodes = none := by
  induction fuel generalizing path nodes with
  | zero => rfl
  | succ fuel ih =>
    simp only [marksFrom, h, Int.toNat_natCast, ih, map_none]

def Mark.raw (fdt : Fdt) (m : Mark) : List UInt8 := bytes fdt.mem (fdt.ptr m.offset) (m.next - m.offset)

/- A tag of a block that is read to its end: the lengths that are read are inside of it. -/
structure Whole (fdt : Fdt) (m : Mark) : Prop where
  aligned : 4 ∣ m.offset
  tagAt : ∃ n, fdt.tagAt m.offset = some (m.tag, n) ∧ m.next = tagAlign (m.offset + n)
  long : m.offset + 4 ≤ m.next
  prop : m.tag = .prop → m.offset + 8 ≤ m.next

theorem be32_lt (mem : Mem) (a : ℕ) : be32 mem a < 2 ^ 32 := by
  have h₀ := (mem a).toNat_lt
  have h₁ := (mem (a + 1)).toNat_lt
  have h₂ := (mem (a + 2)).toNat_lt
  have h₃ := (mem (a + 3)).toNat_lt
  unfold be32
  lia

theorem marksFrom_short {n : ℕ} (htag : fdt.tagAt offset = some (.prop, n)) (hn : n ≤ 4) :
    marksFrom fdt fuel (offset + 4) path nodes = none := by
  cases fuel with
  | zero => rfl
  | succ fuel =>
    have hlen : n = (12 + fdt.propLen offset) % 2 ^ 32 := (tagAt_cases htag).2
    have hword : be32 fdt.mem (fdt.ptr (offset + 4)) = fdt.propLen offset := rfl
    have hnone : fdt.tagAt (offset + 4) = none := by
      unfold Fdt.tagAt
      rw [hword]
      split
      all_goals lia
    have hend : ∃ next : ℤ, fdtNextTag fdt (offset + 4) = (.fin, next) ∧ next < 0 := by
      unfold fdtNextTag
      rw [hnone]
      split
      · exact ⟨_, rfl, by decide⟩
      · exact ⟨_, rfl, by decide⟩
    obtain ⟨next, hnext, hneg⟩ := hend
    simp only [marksFrom, hnext]
    rw [if_neg (by lia)]

theorem marksFrom_whole (h : marksFrom fdt fuel offset path nodes = some ms) (hal : 4 ∣ offset) :
    ∀ m ∈ ms, Whole fdt m := by
  induction fuel generalizing offset path nodes ms with
  | zero => cases h
  | succ fuel ih =>
    obtain ⟨m, rest, rfl, hoff, hnext, hrest⟩ := marksFrom_cons h
    have hok : ∃ n, fdt.tagAt offset = some (m.tag, n) ∧ m.next = tagAlign (offset + n) := by
      cases fdtNextTag_cases hnext with
      | inl hok =>
        obtain ⟨n, htag, -, -, heq⟩ := hok
        exact ⟨n, htag, by exact_mod_cast heq⟩
      | inr hfin =>
        have := hfin.2
        lia
    obtain ⟨n, htag, hm⟩ := hok
    have hge := le_tagAlign (offset + n)
    have hlt := tagAlign_lt (offset + n)
    have hdvd := tagAlign_dvd (offset + n)
    rw [← hm] at hge hlt hdvd
    have hwhole : Whole fdt m := by
      subst hoff
      by_cases hprop : m.tag = .prop
      · rw [hprop] at hnext htag
        have htail : ∃ path' nodes', marksFrom fdt fuel m.next path' nodes' = some rest := by
          cases hrest with
          | inl hfin =>
            rw [hprop] at hfin
            cases hfin.1
          | inr hrest => exact hrest.2
        obtain ⟨path', nodes', htail⟩ := htail
        have hne : m.next ≠ m.offset := by
          intro heq
          rw [heq] at hnext
          rw [heq, marksFrom_stuck hnext] at htail
          cases htail
        have hne4 : m.next ≠ m.offset + 4 := by
          intro heq
          rw [heq, marksFrom_short htag (by lia)] at htail
          cases htail
        exact ⟨hal, ⟨n, by rw [hprop]; exact htag, hm⟩, by lia, fun _ => by lia⟩
      · have hn := tagAt_length htag hprop
        exact ⟨hal, ⟨n, htag, hm⟩, by lia, fun heq => absurd heq hprop⟩
    intro x hx
    cases mem_cons.mp hx with
    | inl heq => rw [heq]; exact hwhole
    | inr hx =>
      cases hrest with
      | inl hfin =>
        rw [hfin.2.1] at hx
        cases hx
      | inr hrest =>
        obtain ⟨-, path', nodes', hrest⟩ := hrest
        exact ih hrest hdvd x hx

theorem marksFrom_fin (h : marksFrom fdt fuel offset path nodes = some ms) :
    ∃ as z, ms = as ++ [z] ∧ z.tag = .fin ∧ z.next = fdt.sizeDtStruct ∧ ∀ m ∈ as, m.tag ≠ .fin := by
  induction fuel generalizing offset path nodes ms with
  | zero => cases h
  | succ fuel ih =>
    obtain ⟨m, rest, rfl, -, -, hrest⟩ := marksFrom_cons h
    cases hrest with
    | inl hfin =>
      obtain ⟨hfin, rfl, hsize⟩ := hfin
      exact ⟨[], m, rfl, hfin, hsize, by simp⟩
    | inr hmore =>
      obtain ⟨hne, path', nodes', hrest⟩ := hmore
      obtain ⟨as, z, rfl, hz, hsize, has⟩ := ih hrest
      refine ⟨m :: as, z, rfl, hz, hsize, ?_⟩
      intro x hx
      cases mem_cons.mp hx with
      | inl heq => rw [heq]; exact hne
      | inr hx => exact has x hx

variable (inc excProp : List (List UInt8))

theorem chained_pieces (h : marksFrom fdt fuel offset path nodes = some ms) (hal : 4 ∣ offset)
    (before : Bool) : Chained offset (pieces fdt inc excProp before ms) := by
  have hwhole := marksFrom_whole h hal
  induction fuel generalizing offset path nodes ms before with
  | zero => cases h
  | succ fuel ih =>
    obtain ⟨m, rest, rfl, rfl, hnext, hrest⟩ := marksFrom_cons h
    have hm := hwhole m mem_cons_self
    refine ⟨rfl, Nat.lt_of_lt_of_le (Nat.lt_add_of_pos_right (by decide)) hm.long, ?_⟩
    cases hrest with
    | inl hfin =>
      rw [hfin.2.1]
      trivial
    | inr hmore =>
      obtain ⟨-, path', nodes', hrest⟩ := hmore
      obtain ⟨n, -, hn⟩ := hm.tagAt
      exact ih hrest (hn ▸ tagAlign_dvd _) _ fun x hx => hwhole x (mem_cons_of_mem m hx)

end Marks

end UBoot.Fit
