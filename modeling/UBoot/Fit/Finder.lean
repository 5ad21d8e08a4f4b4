import UBoot.Fit.Marks

/-!
# The regions that fdt_find_regions returns

They are the runs of the kept tags, as long as the array has room for them.
-/

namespace UBoot.Fit

open Memory Runs List Option

section Loop

variable {fdt : Fdt} {inc excProp : List (List UInt8)} {maxRegions pathLen fuel offset : ℕ}
  {p : Position} {r r' : Spans} {nodes : List Node} {ms : List Mark}

/- The values of `want` around the nodes. -/
def stackOf (inc : List (List UInt8)) : List Node → List ℕ
  | [] => []
  | _ :: outer => wantOf inc outer :: stackOf inc outer

def markStep (fdt : Fdt) (inc excProp : List (List UInt8)) (maxRegions : ℕ) (r : Spans) (m : Mark) :
    Spans :=
  if m.included fdt inc excProp then openRegion fdt maxRegions m.offset r
  else closeRegion fdt maxRegions (if m.tag = .endNode then m.next else m.offset) r

def Mark.stopAt (m : Mark) : ℕ := if m.tag = .endNode then m.next else m.offset

def pathStep (path : List UInt8) (m : Mark) : List UInt8 :=
  match m.tag with
  | .beginNode => (m.nodes.head?.map Prod.snd).getD path
  | .endNode => stripPath path
  | _ => path

theorem spanStep_mark (maxRegions : ℕ) (r : Spans) {c : Choice} {m : Mark}
    (hinc : c.included = m.included fdt inc excProp)
    (hstop : c.included = false → c.stopAt = m.stopAt) :
    spanStep fdt maxRegions m.offset c r = markStep fdt inc excProp maxRegions r m := by
  unfold spanStep markStep
  rw [← hinc]
  cases hc : c.included with
  | true => rfl
  | false => rw [hstop hc, Mark.stopAt]

theorem visit_mark {next : ℕ} {tag : Tag} {p₁ : Position} {c : Choice} (htag : tag ≠ .fin)
    (h : visit fdt inc excProp pathLen offset next tag p = .ok (p₁, c))
    (hw : p.want = wantOf inc nodes) (hs : p.stack = stackOf inc nodes) :
    ∃ own after, c.included = (Mark.mk offset next tag own).included fdt inc excProp ∧
      (c.included = false → c.stopAt = (Mark.mk offset next tag own).stopAt) ∧
      p₁.want = wantOf inc after ∧ p₁.stack = stackOf inc after ∧
      p₁.path = pathStep p.path ⟨offset, next, tag, own⟩ ∧
      ∀ fuel (rest : List Mark), fdtNextTag fdt offset = (tag, (next : ℤ)) →
        marksFrom fdt fuel next p₁.path after = some rest →
        marksFrom fdt (fuel + 1) offset p.path nodes = some (⟨offset, next, tag, own⟩ :: rest) := by
  cases tag with
  | fin => exact absurd rfl htag
  | prop =>
    obtain ⟨rfl, rfl⟩ := Prod.mk.inj (Except.ok.inj h)
    refine ⟨nodes, nodes, ?_, fun _ => rfl, hw, hs, rfl, ?_⟩
    · simp only [Mark.included, hw]
    · intro fuel rest hnext hrest
      simp only [marksFrom, hnext, Int.toNat_natCast, hrest, map_some]
  | nop =>
    obtain ⟨rfl, rfl⟩ := Prod.mk.inj (Except.ok.inj h)
    refine ⟨nodes, nodes, ?_, fun _ => rfl, hw, hs, rfl, ?_⟩
    · simp only [Mark.included, hw]
    · intro fuel rest hnext hrest
      simp only [marksFrom, hnext, Int.toNat_natCast, hrest, map_some]
  | beginNode =>
    simp only [visit] at h
    split at h
    · cases h
    · split at h
      · cases h
      · obtain ⟨rfl, rfl⟩ := Prod.mk.inj (Except.ok.inj h)
        refine ⟨(offset, joinPath p.path (nodeName fdt offset)) :: nodes,
          (offset, joinPath p.path (nodeName fdt offset)) :: nodes, ?_, ?_, ?_, ?_, rfl, ?_⟩
        · exact decide_eq_decide.mpr (by simp only [wantOf, hw])
        · -- a node that is not wanted is closed in front of its tag
          intro hno
          simp only [ne_eq, decide_eq_false_iff_not, not_not] at hno
          simp only [Mark.stopAt, reduceCtorEq, if_false]
          apply if_pos
          cases hl : inc.contains (joinPath p.path (nodeName fdt offset)) with
          | true =>
            rw [hl, if_pos rfl] at hno
            cases hno
          | false =>
            rw [hl, if_neg Bool.false_ne_true] at hno
            simp only [true_and]
            lia
        · simp only [wantOf, hw]
        · simp only [stackOf, hw, hs]
        · intro fuel rest hnext hrest
          simp only [marksFrom, hnext, Int.toNat_natCast, hrest, map_some]
  | endNode =>
    simp only [visit] at h
    split at h
    · cases h
    · next w stack hstack =>
      obtain ⟨rfl, rfl⟩ := Prod.mk.inj (Except.ok.inj h)
      rw [hs] at hstack
      cases nodes with
      | nil => cases hstack
      | cons node outer =>
        obtain ⟨rfl, rfl⟩ := List.cons.inj hstack
        refine ⟨node :: outer, outer, ?_, fun _ => rfl, rfl, rfl, rfl, ?_⟩
        · simp only [Mark.included, hw]
        · intro fuel rest hnext hrest
          simp only [marksFrom, hnext, Int.toNat_natCast, hrest, map_some]

theorem findLoop_marks {next : ℤ}
    (h : findLoop fdt inc excProp maxRegions pathLen fuel offset p r = .ok (r', next))
    (hnext : next = fdt.sizeDtStruct) (hw : p.want = wantOf inc nodes)
    (hs : p.stack = stackOf inc nodes) :
    ∃ ms, marksFrom fdt fuel offset p.path nodes = some ms ∧
      r' = ms.foldl (markStep fdt inc excProp maxRegions) r := by
  induction fuel generalizing offset p r nodes with
  | zero => cases h
  | succ fuel ih =>
    unfold findLoop at h
    rcases htag : fdtNextTag fdt offset with ⟨tag, next'⟩
    simp only [htag] at h
    cases hvisit : visit fdt inc excProp pathLen offset next'.toNat tag p with
    | error e =>
      rw [hvisit] at h
      cases h
    | ok res =>
      obtain ⟨p₁, c⟩ := res
      simp only [hvisit, bind, Except.bind] at h
      by_cases hfin : tag = .fin
      · subst hfin
        rw [if_pos rfl] at h
        obtain ⟨rfl, rfl⟩ := Prod.mk.inj (Except.ok.inj h)
        obtain ⟨rfl, rfl⟩ := Prod.mk.inj (Except.ok.inj hvisit)
        refine ⟨[⟨offset, next'.toNat, .fin, nodes⟩], ?_, rfl⟩
        simp only [marksFrom, htag, hnext, if_true]
      · rw [if_neg hfin] at h
        have hnat : ((next'.toNat : ℕ) : ℤ) = next' := by
          cases fdtNextTag_cases htag with
          | inl hok =>
            obtain ⟨n, -, -, -, rfl⟩ := hok
            rfl
          | inr hend => exact absurd hend.1 hfin
        obtain ⟨own, after, hinc, hstop, hw₁, hs₁, -, hmarks⟩ := visit_mark hfin hvisit hw hs
        obtain ⟨ms, hms, hr⟩ := ih h hw₁ hs₁
        refine ⟨_, hmarks fuel ms (by rw [hnat]; exact htag) hms, ?_⟩
        have hspan := spanStep_mark maxRegions r hinc hstop
        rw [hr, hspan]
        rfl

end Loop

section Spans

variable {fdt : Fdt} {inc excProp : List (List UInt8)} {maxRegions offset : ℕ} {r : Spans}
  {vs : List (ℕ × ℕ)} {m : Mark} {ms : List Mark}

/- `vs` are the stored regions, and the open one up to `offset`. -/
def View (fdt : Fdt) (maxRegions : ℕ) (r : Spans) (offset : ℕ) (vs : List (ℕ × ℕ)) : Prop :=
  ∃ rs, r.regions = rs.map (toRegion fdt) ∧ r.count = rs.length ∧ r.count ≤ maxRegions ∧
    vs = rs ++ r.start.toList.map fun s => (s, offset)

theorem openRegion_start (fdt : Fdt) (maxRegions offset : ℕ) (r : Spans) :
    (openRegion fdt maxRegions offset r).start.isSome = true := by
  unfold openRegion
  split
  · next h => simp [h]
  · split
    · split
      · rfl
      · rfl
    · rfl

theorem closeRegion_start (fdt : Fdt) (maxRegions stopAt : ℕ) (r : Spans) :
    (closeRegion fdt maxRegions stopAt r).start = none := by
  unfold closeRegion
  split
  · assumption
  · rfl

theorem markStep_start : (markStep fdt inc excProp maxRegions r m).start.isSome =
    m.included fdt inc excProp := by
  unfold markStep
  split
  · next h => rw [openRegion_start, h]
  · next h =>
    rw [closeRegion_start]
    simpa using h

theorem View.openRegion (h : View fdt maxRegions r m.offset vs) (hord : Ordered vs m.offset) :
    View fdt maxRegions (openRegion fdt maxRegions m.offset r) m.next (addRun vs m.offset m.next) := by
  obtain ⟨rs, hregs, hcount, hmax, rfl⟩ := h
  unfold UBoot.Fit.openRegion
  cases hstart : r.start with
  | some s =>
    refine ⟨rs, hregs, hcount, hmax, ?_⟩
    simp only [hstart, toList_some, map_cons, map_nil]
    rw [addRun_concat, if_pos rfl]
  | none =>
    simp only [hstart, toList_none, map_nil, append_nil] at hord ⊢
    cases eq_nil_or_concat rs with
    | inl hnil =>
      subst hnil
      simp only [hregs, map_nil, getLast?_nil]
      exact ⟨[], rfl, hcount, hmax, rfl⟩
    | inr hconcat =>
      obtain ⟨ts, ⟨s, e⟩, rfl⟩ := hconcat
      simp only [concat_eq_append] at hregs hcount hord ⊢
      have hse := hord.nonempty (s, e) (by simp)
      simp only at hse
      rw [map_append, map_singleton] at hregs
      simp only [hregs, getLast?_concat, dropLast_concat, toRegion]
      rw [addRun_concat]
      by_cases heq : e = m.offset
      · rw [if_pos ⟨hmax, by lia⟩, if_pos heq]
        refine ⟨ts, rfl, ?_, by simp only; lia, ?_⟩
        · rw [hcount]
          simp
        · simp only [toList_some, map_singleton]
          congr 3
          lia
      · rw [if_neg (by lia), if_neg heq]
        refine ⟨ts ++ [(s, e)], by rw [map_append]; rfl, hcount, hmax, ?_⟩
        simp

theorem View.closeRegion (h : View fdt maxRegions r m.offset vs) :
    View fdt maxRegions (closeRegion fdt maxRegions (if m.tag = .endNode then m.next else m.offset) r)
        m.next (if r.start.isSome && m.tag == .endNode then addRun vs m.offset m.next else vs) ∨
      maxRegions < (UBoot.Fit.closeRegion fdt maxRegions
        (if m.tag = .endNode then m.next else m.offset) r).count := by
  obtain ⟨rs, hregs, hcount, hmax, rfl⟩ := h
  unfold UBoot.Fit.closeRegion
  cases hstart : r.start with
  | none =>
    refine .inl ⟨rs, hregs, hcount, hmax, ?_⟩
    simp [hstart]
  | some s =>
    simp only [addRegion]
    by_cases hroom : r.count < maxRegions
    · refine .inl ⟨rs ++ [(s, if m.tag = .endNode then m.next else m.offset)], ?_, ?_, ?_, ?_⟩
      · simp only [if_pos hroom, hregs, map_append, map_singleton, toRegion]
      · simp [hcount]
      · exact hroom
      · simp only [isSome_some, Bool.true_and, beq_iff_eq, toList_some,
          map_singleton, toList_none, map_nil, append_nil]
        by_cases hend : m.tag = .endNode
        · rw [if_pos hend, if_pos hend, addRun_concat, if_pos rfl]
        · rw [if_neg hend, if_neg hend]
    · exact .inr (by lia)

variable (inc excProp) in
theorem View.markStep (h : View fdt maxRegions r m.offset vs) (hord : Ordered vs m.offset) :
    View fdt maxRegions (markStep fdt inc excProp maxRegions r m) m.next
        (if m.included fdt inc excProp || (r.start.isSome && m.tag == .endNode) then
          addRun vs m.offset m.next else vs) ∨
      maxRegions < (UBoot.Fit.markStep fdt inc excProp maxRegions r m).count := by
  unfold UBoot.Fit.markStep
  cases m.included fdt inc excProp with
  | true => exact .inl (h.openRegion hord)
  | false =>
    simp only [Bool.false_eq_true, if_false, Bool.false_or]
    exact h.closeRegion

theorem markStep_full (h : maxRegions < r.count) :
    maxRegions < (markStep fdt inc excProp maxRegions r m).count := by
  unfold markStep openRegion closeRegion addRegion
  split
  · split
    · exact h
    · split
      · rw [if_neg (by lia)]
        exact h
      · exact h
  · split
    · exact h
    · simp only
      lia

theorem foldl_full (h : maxRegions < r.count) :
    maxRegions < (ms.foldl (markStep fdt inc excProp maxRegions) r).count := by
  induction ms generalizing r with
  | nil => exact h
  | cons m ms ih => exact ih (markStep_full h)

theorem View.foldl {before : Bool} (h : View fdt maxRegions r offset vs) (hord : Ordered vs offset)
    (hbefore : r.start.isSome = before) (hx : Chained offset (pieces fdt inc excProp before ms)) :
    View fdt maxRegions (ms.foldl (UBoot.Fit.markStep fdt inc excProp maxRegions) r)
        (lastEnd offset (pieces fdt inc excProp before ms))
        (addRuns vs (pieces fdt inc excProp before ms)) ∨
      maxRegions < (ms.foldl (UBoot.Fit.markStep fdt inc excProp maxRegions) r).count := by
  induction ms generalizing r offset vs before with
  | nil => exact .inl h
  | cons m ms ih =>
    subst hbefore
    obtain ⟨rfl, hlt, hrest⟩ := hx
    cases h.markStep inc excProp hord with
    | inr hfull =>
      rw [foldl_cons]
      exact .inr (foldl_full hfull)
    | inl hview =>
      have hord' : Ordered (if m.included fdt inc excProp ||
          (r.start.isSome && m.tag == .endNode) then addRun vs m.offset m.next else vs) m.next := by
        split
        · exact hord.addRun (le_refl _) hlt
        · exact hord.mono (le_of_lt hlt)
      exact ih hview hord' markStep_start hrest

theorem lastEnd_pieces (before : Bool) (k : ℕ) (as : List Mark) (z : Mark) :
    lastEnd k (pieces fdt inc excProp before (as ++ [z])) = z.next := by
  induction as generalizing before k with
  | nil => rfl
  | cons a as ih => exact ih _ _

theorem fdtFindRegions_ends {pathLen n : ℕ} {addStringTab : Bool} {regions : List Region}
    (h : fdtFindRegions fdt inc excProp maxRegions pathLen addStringTab = .ok (n, regions))
    (hn : n ≤ maxRegions) :
    ∃ ms rs s, marks fdt = some ms ∧
      addRuns [] (pieces fdt inc excProp false ms) = rs ++ [(s, fdt.sizeDtStruct)] ∧
      regions = rs.map (toRegion fdt) ++ [⟨fdt.offDtStruct + s,
        fdt.sizeDtStruct - s + if addStringTab then fdt.sizeDtStrings else 0⟩] ∧
      n = regions.length := by
  unfold fdtFindRegions at h
  cases hloop : findLoop fdt inc excProp maxRegions pathLen (fdt.sizeDtStruct + 1) 0 ⟨[], [], 0⟩
      ⟨none, 0, []⟩ with
  | error e =>
    rw [hloop] at h
    cases h
  | ok res =>
    obtain ⟨r, next⟩ := res
    simp only [hloop, bind, Except.bind] at h
    split at h
    · cases h
    · next hnext =>
      obtain ⟨hcount, hregs⟩ := Prod.mk.inj (Except.ok.inj h)
      have hsize := not_not.mp hnext
      obtain ⟨ms, hms, hr⟩ := findLoop_marks hloop hsize (show 0 = wantOf inc [] from rfl) rfl
      have hchain := chained_pieces inc excProp hms (Nat.dvd_zero 4) false
      have hinit : View fdt maxRegions ⟨none, 0, []⟩ 0 [] := ⟨[], rfl, rfl, Nat.zero_le _, rfl⟩
      have hord : Ordered [] 0 := ⟨by simp, by simp, List.Pairwise.nil⟩
      have hstart : (⟨none, 0, []⟩ : Spans).start.isSome = false := rfl
      have hview := hinit.foldl hord hstart hchain
      rw [← hr] at hview
      simp only [addRegion] at hcount hregs
      cases hview with
      | inr hfull => lia
      | inl hview =>
        obtain ⟨rs, hrs, hlen, -, hvs⟩ := hview
        obtain ⟨as, z, rfl, hz, hzsize, -⟩ := marksFrom_fin hms
        -- the last tag is included, so a region is open
        have hopen : r.start.isSome = true := by
          rw [hr, foldl_append]
          exact markStep_start.trans (by simp [Mark.included, hz])
        obtain ⟨s, hs⟩ := isSome_iff_exists.mp hopen
        rw [hs, toList_some, map_singleton, lastEnd_pieces, hzsize] at hvs
        have hregions : regions = rs.map (toRegion fdt) ++ [⟨fdt.offDtStruct + s,
            fdt.sizeDtStruct - s + if addStringTab then fdt.sizeDtStrings else 0⟩] := by
          rw [← hregs, if_pos (by lia), hrs, hs, hsize]
          rfl
        refine ⟨_, rs, s, hms, hvs, hregions, ?_⟩
        rw [hregions, ← hcount, hlen]
        simp

theorem fdtFindRegions_runs {pathLen n : ℕ} {regions : List Region}
    (h : fdtFindRegions fdt inc excProp maxRegions pathLen false = .ok (n, regions))
    (hn : n ≤ maxRegions) :
    ∃ ms, marks fdt = some ms ∧
      regions = (addRuns [] (pieces fdt inc excProp false ms)).map (toRegion fdt) ∧
      n = regions.length := by
  obtain ⟨ms, rs, s, hms, hruns, hregions, hlen⟩ := fdtFindRegions_ends h hn
  refine ⟨ms, hms, ?_, hlen⟩
  rw [hruns, map_append, map_singleton]
  exact hregions

end Spans

end UBoot.Fit
