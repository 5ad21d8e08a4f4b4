import UBoot.Fit.Coverage

/-!
# What fdt_find_regions selects (lib/libfdt/fdt_wip.c)

A listed node gives its own tags, its properties that are not excluded and the first and the last tags of
its direct subnodes.
-/

namespace UBoot.Fit

open Memory Runs List Option

def Listed (inc : List (List UInt8)) (nodes : List Node) : Prop :=
  ∃ node outer, nodes = node :: outer ∧ node.2 ∈ inc

def Shown (inc : List (List UInt8)) (nodes : List Node) : Prop :=
  Listed inc nodes ∨ Listed inc nodes.tail

def Outside (fdt : Fdt) (regions : List Region) (m : Mark) : Prop :=
  ∀ r ∈ regions, ∀ a, fdt.ptr m.offset ≤ a → a < fdt.ptr m.next →
    ¬ (r.offset ≤ a ∧ a < r.offset + r.size)

/- What the regions are for the tags `ms` of a block. -/
structure Selects (fdt : Fdt) (inc excProp : List (List UInt8)) (ms : List Mark) (n : ℕ)
    (regions : List Region) : Prop where
  count : n = regions.length
  nonempty : ∀ r ∈ regions, 0 < r.size
  ascending : regions.Pairwise fun r t => r.offset + r.size ≤ t.offset
  nodes : ∀ m ∈ ms, m.tag = .beginNode ∨ m.tag = .endNode → Shown inc m.nodes → Inside fdt regions m
  props : ∀ m ∈ ms, (m.tag = .prop ∧ excluded fdt excProp m.offset = false) ∨ m.tag = .nop →
    Listed inc m.nodes → Inside fdt regions m
  fin : ∀ m ∈ ms, m.tag = .fin → Inside fdt regions m
  excludedProps : ∀ m ∈ ms, m.tag = .prop → excluded fdt excProp m.offset = true →
    Outside fdt regions m
  otherProps : ∀ m ∈ ms, m.tag = .prop → ¬ Listed inc m.nodes → Outside fdt regions m
  otherNodes : ∀ m ∈ ms, m.tag = .beginNode → ¬ Shown inc m.nodes → Outside fdt regions m

section Included

variable {fdt : Fdt} {inc excProp : List (List UInt8)} {nodes : List Node} {m : Mark}

theorem listed_iff : Listed inc nodes ↔ 2 ≤ wantOf inc nodes := by
  rw [two_le_wantOf]
  cases nodes with
  | nil =>
    constructor
    · intro h
      obtain ⟨node, outer, h, -⟩ := h
      cases h
    · intro h
      cases h
  | cons node outer =>
    rw [head?_cons, any_some, contains_iff_mem]
    constructor
    · intro h
      obtain ⟨_, _, heq, hmem⟩ := h
      rw [(List.cons.inj heq).1]
      exact hmem
    · intro h
      exact ⟨node, outer, rfl, h⟩

theorem shown_iff : Shown inc nodes ↔ wantOf inc nodes ≠ 0 := by
  unfold Shown
  rw [listed_iff, listed_iff]
  cases nodes with
  | nil =>
    simp only [wantOf, tail_nil]
    lia
  | cons node outer =>
    have hle := wantOf_le inc outer
    rw [tail_cons, wantOf]
    split
    · simp
    · lia

theorem not_included_of_kept {m : Mark} (htag : m.tag ≠ .endNode)
    (hinc : m.included fdt inc excProp = false) (before : Bool) :
    (m.included fdt inc excProp || (before && m.tag == .endNode)) = false := by
  rw [hinc, Bool.false_or, beq_false_of_ne htag, Bool.and_false]

theorem dropped_pieces {before : Bool} {ms : List Mark} (hm : m ∈ ms) (htag : m.tag ≠ .endNode)
    (hinc : m.included fdt inc excProp = false) :
    (m.offset, m.next, false) ∈ pieces fdt inc excProp before ms := by
  induction ms generalizing before with
  | nil => cases hm
  | cons a ms ih =>
    rw [pieces]
    cases mem_cons.mp hm with
    | inl heq =>
      subst heq
      rw [not_included_of_kept htag hinc before]
      exact mem_cons_self
    | inr hm => exact mem_cons_of_mem _ (ih hm)

end Included

section Ends

variable {fdt : Fdt} {rs : List (ℕ × ℕ)} {s extra : ℕ} {m : Mark}

/- The runs as regions, the last one longer by `extra`. -/
def regionsOf (fdt : Fdt) (rs : List (ℕ × ℕ)) (s extra : ℕ) : List Region :=
  rs.map (toRegion fdt) ++ [⟨fdt.offDtStruct + s, fdt.sizeDtStruct - s + extra⟩]

theorem mem_regionsOf {r : Region} (hr : r ∈ regionsOf fdt rs s extra) :
    ∃ t ∈ rs ++ [(s, fdt.sizeDtStruct)], r.offset = fdt.offDtStruct + t.1 ∧
      t.2 - t.1 ≤ r.size ∧ (r.size = t.2 - t.1 ∨ t.2 = fdt.sizeDtStruct) := by
  cases mem_append.mp hr with
  | inl hr =>
    obtain ⟨t, ht, rfl⟩ := mem_map.mp hr
    exact ⟨t, mem_append_left _ ht, rfl, Nat.le_refl _, .inl rfl⟩
  | inr hr =>
    rw [mem_singleton.mp hr]
    exact ⟨_, mem_append_right _ (mem_singleton.mpr rfl), rfl, Nat.le_add_right _ _, .inr rfl⟩

theorem regionsOf_mem {t : ℕ × ℕ} (ht : t ∈ rs ++ [(s, fdt.sizeDtStruct)]) :
    ∃ r ∈ regionsOf fdt rs s extra, r.offset = fdt.offDtStruct + t.1 ∧ t.2 - t.1 ≤ r.size := by
  cases mem_append.mp ht with
  | inl ht =>
    exact ⟨toRegion fdt t, mem_append_left _ (mem_map_of_mem ht), rfl, Nat.le_refl _⟩
  | inr ht =>
    rw [mem_singleton.mp ht]
    exact ⟨_, mem_append_right _ (mem_singleton.mpr rfl), rfl, Nat.le_add_right _ _⟩

theorem regionsOf_nonempty (hord : Ordered (rs ++ [(s, fdt.sizeDtStruct)]) fdt.sizeDtStruct) :
    ∀ r ∈ regionsOf fdt rs s extra, 0 < r.size := by
  intro r hr
  obtain ⟨t, ht, -, hsize, -⟩ := mem_regionsOf hr
  have hlt := hord.nonempty t ht
  lia

theorem regionsOf_ascending (hord : Ordered (rs ++ [(s, fdt.sizeDtStruct)]) fdt.sizeDtStruct) :
    (regionsOf fdt rs s extra).Pairwise fun r t => r.offset + r.size ≤ t.offset := by
  obtain ⟨hrs, -, hlast⟩ := pairwise_append.mp hord.apart
  have hend : ∀ t ∈ rs, (toRegion fdt t).offset + (toRegion fdt t).size = fdt.offDtStruct + t.2 := by
    intro t ht
    have hlt := hord.nonempty t (mem_append_left _ ht)
    simp only [toRegion]
    lia
  refine pairwise_append.mpr ⟨pairwise_map.mpr ?_, pairwise_singleton _ _, ?_⟩
  · refine hrs.imp_of_mem ?_
    intro t u ht _ hlt
    rw [hend t ht]
    exact Nat.add_le_add_left (Nat.le_of_lt hlt) _
  · intro r hr u hu
    obtain ⟨t, ht, rfl⟩ := mem_map.mp hr
    rw [hend t ht, mem_singleton.mp hu]
    exact Nat.add_le_add_left (Nat.le_of_lt (hlast t ht _ (mem_singleton.mpr rfl))) _

theorem inside_regionsOf (hlong : m.offset ≤ m.next)
    (h : Within (rs ++ [(s, fdt.sizeDtStruct)]) m.offset m.next) :
    Inside fdt (regionsOf fdt rs s extra) m := by
  obtain ⟨t, ht, h₁, h₂⟩ := h
  obtain ⟨r, hr, hoff, hsize⟩ := @regionsOf_mem fdt rs s extra t ht
  refine ⟨r, hr, ?_, ?_⟩
  · rw [hoff]
    exact Nat.add_le_add_left h₁ _
  · simp only [Fdt.ptr]
    lia

theorem outside_regionsOf (hnext : m.next ≤ fdt.sizeDtStruct)
    (h : Clear (rs ++ [(s, fdt.sizeDtStruct)]) m.offset m.next) :
    Outside fdt (regionsOf fdt rs s extra) m := by
  intro r hr a ha ha' hin
  obtain ⟨t, ht, hoff, hsize, hends⟩ := mem_regionsOf hr
  have hclear := h t ht
  simp only [Fdt.ptr] at ha ha'
  lia

end Ends

section Returns

variable {fdt : Fdt} {inc excProp : List (List UInt8)} {maxRegions pathLen fuel offset : ℕ}
  {p : Position} {r : Spans} {nodes : List Node} {ms : List Mark}

theorem findLoop_returns (h : marksFrom fdt fuel offset p.path nodes = some ms)
    (hs : p.stack.length = nodes.length) :
    findLoop fdt inc excProp maxRegions pathLen fuel offset p r ≠ .error .fault := by
  induction fuel generalizing offset p r nodes ms with
  | zero => cases h
  | succ fuel ih =>
    unfold findLoop
    unfold marksFrom at h
    rcases htag : fdtNextTag fdt offset with ⟨tag, next⟩
    rw [htag] at h
    cases tag with
    | fin =>
      simp only [visit, bind, Except.bind, if_true]
      intro hfault
      cases hfault
    | endNode =>
      cases nodes with
      | nil => cases h
      | cons node outer =>
        obtain ⟨w, stack, hstack⟩ : ∃ w stack, p.stack = w :: stack := by
          cases hp : p.stack with
          | nil =>
            rw [hp] at hs
            cases hs
          | cons w stack => exact ⟨w, stack, rfl⟩
        obtain ⟨rest, hrest, -⟩ := map_eq_some_iff.mp h
        simp only [visit, hstack, bind, Except.bind, reduceCtorEq, if_false]
        rw [hstack] at hs
        exact ih hrest (Nat.succ.inj hs)
    | beginNode =>
      obtain ⟨rest, hrest, -⟩ := map_eq_some_iff.mp h
      simp only [visit, bind, Except.bind]
      by_cases hdepth : p.stack.length = fdtMaxDepth
      · rw [if_pos hdepth]
        intro hfault
        cases hfault
      · rw [if_neg hdepth]
        by_cases hlen : pathLen ≤ p.path.length + 2 + (nodeName fdt offset).length
        · rw [if_pos hlen]
          intro hfault
          cases hfault
        · rw [if_neg hlen]
          simp only [reduceCtorEq, if_false]
          exact ih hrest (congrArg Nat.succ hs)
    | prop =>
      obtain ⟨rest, hrest, -⟩ := map_eq_some_iff.mp h
      simp only [visit, bind, Except.bind, reduceCtorEq, if_false]
      exact ih hrest hs
    | nop =>
      obtain ⟨rest, hrest, -⟩ := map_eq_some_iff.mp h
      simp only [visit, bind, Except.bind, reduceCtorEq, if_false]
      exact ih hrest hs

theorem fdtFindRegions_returns (h : marks fdt = some ms) (addStringTab : Bool) :
    fdtFindRegions fdt inc excProp maxRegions pathLen addStringTab ≠ .error .fault := by
  have hloop : findLoop fdt inc excProp maxRegions pathLen (fdt.sizeDtStruct + 1) 0 ⟨[], [], 0⟩
      ⟨none, 0, []⟩ ≠ .error .fault := findLoop_returns h rfl
  unfold fdtFindRegions
  cases hres : findLoop fdt inc excProp maxRegions pathLen (fdt.sizeDtStruct + 1) 0 ⟨[], [], 0⟩
      ⟨none, 0, []⟩ with
  | error e =>
    rw [hres] at hloop
    exact fun hfault => hloop (congrArg Except.error (Except.error.inj hfault))
  | ok res =>
    simp only [bind, Except.bind]
    split
    · intro hfault
      cases hfault
    · intro hfault
      cases hfault

end Returns

section Paths

variable (fdt : Fdt)

/- "/" for a root, the names below it with a '/' in front of each for any other node. -/
def truePath (nodes : List Node) : List UInt8 :=
  if nodes.length = 1 then [47]
  else (nodes.dropLast.map fun node => nodeName fdt node.1).reverse.flatMap fun name => 47 :: name

def Named (nodes : List Node) : Prop :=
  match nodes with
  | [] => True
  | node :: [] => nodeName fdt node.1 = []
  | node :: _ => nodeName fdt node.1 ≠ [] ∧ 47 ∉ nodeName fdt node.1

def Pathed : List Node → Prop
  | [] => True
  | node :: outer =>
    (Named fdt (node :: outer) ∧ node.2 = truePath fdt (node :: outer)) ∧ Pathed outer

/- What the buffer holds inside the nodes: behind a child of the root, not even "/". -/
def Buffered (path : List UInt8) (nodes : List Node) : Prop :=
  match nodes with
  | [] => path = []
  | _ :: [] => path = [] ∨ path = [47]
  | node :: outer => path = truePath fdt (node :: outer)

variable {path : List UInt8}

theorem stripPath_join {name : List UInt8} (hname : 47 ∉ name) :
    stripPath (path ++ 47 :: name) = path := by
  have hrev : ∀ c ∈ name.reverse, decide (c ≠ 47) = true := by
    intro c hc
    apply decide_eq_true
    intro heq
    rw [heq] at hc
    exact hname (mem_reverse.mp hc)
  have hcut : (name.reverse ++ 47 :: path.reverse).dropWhile (· ≠ 47) = 47 :: path.reverse := by
    rw [dropWhile_append_of_pos hrev]
    rfl
  rw [stripPath, reverse_append, reverse_cons, append_assoc, singleton_append,
    hcut, drop_one, tail_cons, reverse_reverse]

theorem truePath_child (node root : Node) : truePath fdt [node, root] = 47 :: nodeName fdt node.1 := by
  simp [truePath]

theorem truePath_cons (node parent upper : Node) (outer : List Node) :
    truePath fdt (node :: parent :: upper :: outer) =
      truePath fdt (parent :: upper :: outer) ++ 47 :: nodeName fdt node.1 := by
  simp only [truePath, length_cons]
  rw [if_neg (by lia), if_neg (by lia), dropLast_cons_cons, map_cons,
    reverse_cons, flatMap_append]
  simp

theorem truePath_length (node parent : Node) (outer : List Node)
    (h : nodeName fdt node.1 ≠ []) : (truePath fdt (node :: parent :: outer)).length ≠ 1 := by
  have hpos := length_pos_of_ne_nil h
  cases outer with
  | nil =>
    rw [truePath_child, length_cons]
    lia
  | cons upper outer =>
    rw [truePath_cons, length_append, length_cons]
    lia

variable {fdt}

theorem pathed_begin {nodes : List Node} {offset : ℕ}
    (hpathed : Pathed fdt nodes) (hbuf : Buffered fdt path nodes)
    (hname : Named fdt ((offset, joinPath path (nodeName fdt offset)) :: nodes)) :
    Pathed fdt ((offset, joinPath path (nodeName fdt offset)) :: nodes) ∧
      Buffered fdt (joinPath path (nodeName fdt offset))
        ((offset, joinPath path (nodeName fdt offset)) :: nodes) := by
  cases nodes with
  | nil =>
    have hroot : nodeName fdt offset = [] := hname
    have hpath : path = [] := hbuf
    have hjoin : joinPath path (nodeName fdt offset) = [47] := by
      rw [hroot, hpath]
      rfl
    refine ⟨⟨⟨hname, ?_⟩, trivial⟩, .inr hjoin⟩
    rw [hjoin]
    rfl
  | cons parent outer =>
    suffices hjoin : joinPath path (nodeName fdt offset) =
        truePath fdt ((offset, joinPath path (nodeName fdt offset)) :: parent :: outer) from
      ⟨⟨⟨hname, hjoin⟩, hpathed⟩, hjoin⟩
    cases outer with
    | nil =>
      rw [truePath_child]
      rcases hbuf with hpath | hpath
      · rw [hpath]
        rfl
      · rw [hpath]
        rfl
    | cons upper outer =>
      have hpath : path = truePath fdt (parent :: upper :: outer) := hbuf
      have hlong : path.length ≠ 1 := by
        rw [hpath]
        exact truePath_length fdt parent upper outer hpathed.1.1.1
      rw [truePath_cons, joinPath, if_neg hlong, ← hpath, append_assoc, singleton_append]

theorem buffered_end {node : Node} {outer : List Node} (hpathed : Pathed fdt (node :: outer))
    (hbuf : Buffered fdt path (node :: outer)) : Buffered fdt (stripPath path) outer := by
  cases outer with
  | nil =>
    rcases hbuf with hpath | hpath
    · rw [hpath]
      rfl
    · rw [hpath]
      rfl
  | cons parent outer =>
    have hslash : 47 ∉ nodeName fdt node.1 := hpathed.1.1.2
    have hpath : path = truePath fdt (node :: parent :: outer) := hbuf
    cases outer with
    | nil =>
      rw [truePath_child] at hpath
      rw [hpath]
      exact .inl (@stripPath_join [] _ hslash)
    | cons upper outer =>
      rw [truePath_cons] at hpath
      rw [hpath]
      exact stripPath_join hslash

theorem marksFrom_pathed {fuel offset : ℕ} {nodes : List Node} {ms : List Mark}
    (h : marksFrom fdt fuel offset path nodes = some ms) (hpathed : Pathed fdt nodes)
    (hbuf : Buffered fdt path nodes) (hnames : ∀ m ∈ ms, Named fdt m.nodes) :
    ∀ m ∈ ms, Pathed fdt m.nodes := by
  induction fuel generalizing offset path nodes ms with
  | zero => cases h
  | succ fuel ih =>
    unfold marksFrom at h
    rcases htag : fdtNextTag fdt offset with ⟨tag, next⟩
    rw [htag] at h
    cases tag with
    | fin =>
      simp only at h
      split at h
      · obtain rfl := some.inj h
        intro m hm
        rw [mem_singleton.mp hm]
        exact hpathed
      · cases h
    | endNode =>
      cases nodes with
      | nil => cases h
      | cons node outer =>
        obtain ⟨rest, hrest, rfl⟩ := map_eq_some_iff.mp h
        exact forall_mem_cons.mpr ⟨hpathed, ih hrest hpathed.2 (buffered_end hpathed hbuf)
          (forall_mem_cons.mp hnames).2⟩
    | beginNode =>
      obtain ⟨rest, hrest, rfl⟩ := map_eq_some_iff.mp h
      obtain ⟨hname, hnames⟩ := forall_mem_cons.mp hnames
      obtain ⟨hpathed', hbuf'⟩ := pathed_begin hpathed hbuf hname
      exact forall_mem_cons.mpr ⟨hpathed', ih hrest hpathed' hbuf' hnames⟩
    | prop =>
      obtain ⟨rest, hrest, rfl⟩ := map_eq_some_iff.mp h
      exact forall_mem_cons.mpr ⟨hpathed, ih hrest hpathed hbuf (forall_mem_cons.mp hnames).2⟩
    | nop =>
      obtain ⟨rest, hrest, rfl⟩ := map_eq_some_iff.mp h
      exact forall_mem_cons.mpr ⟨hpathed, ih hrest hpathed hbuf (forall_mem_cons.mp hnames).2⟩

end Paths

section Selects

variable {fdt : Fdt} {inc excProp : List (List UInt8)} {maxRegions pathLen n : ℕ}
  {addStringTab : Bool} {ms : List Mark} {regions : List Region}

theorem fdtFindRegions_selects (hms : marks fdt = some ms)
    (h : fdtFindRegions fdt inc excProp maxRegions pathLen addStringTab = .ok (n, regions))
    (hn : n ≤ maxRegions) : Selects fdt inc excProp ms n regions := by
  obtain ⟨_, rs, s, hms', hruns, hregions, hcount⟩ := fdtFindRegions_ends h hn
  obtain rfl := some.inj (hms.symm.trans hms')
  have hregs : regions = regionsOf fdt rs s (if addStringTab then fdt.sizeDtStrings else 0) := hregions
  have hchain := chained_pieces inc excProp hms (Nat.dvd_zero 4) false
  have hempty : Ordered [] 0 := ⟨by simp, by simp, List.Pairwise.nil⟩
  have hlast : lastEnd 0 (pieces fdt inc excProp false ms) = fdt.sizeDtStruct := by
    obtain ⟨as, z, rfl, -, hz, -⟩ := marksFrom_fin hms
    rw [lastEnd_pieces, hz]
  have hord := hempty.addRuns hchain
  rw [hruns, hlast] at hord
  have hin : ∀ m ∈ ms, m.included fdt inc excProp = true → Inside fdt regions m := by
    intro m hm hinc
    have hlong := (marksFrom_whole hms (Nat.dvd_zero 4) m hm).long
    have hwithin := addRuns_mem hempty hchain (kept_pieces hm hinc)
    rw [if_pos rfl, hruns] at hwithin
    rw [hregs]
    exact inside_regionsOf (by lia) hwithin
  have hout : ∀ m ∈ ms, m.tag ≠ .endNode → m.included fdt inc excProp = false →
      Outside fdt regions m := by
    intro m hm htag hinc
    have hpiece := @dropped_pieces fdt inc excProp m false ms hm htag hinc
    have hnext := hchain.le_lastEnd.2 _ hpiece
    have hclear := addRuns_mem hempty hchain hpiece
    rw [if_neg Bool.false_ne_true, hruns] at hclear
    rw [hlast] at hnext
    rw [hregs]
    exact outside_regionsOf hnext hclear
  refine ⟨hcount, ?_, ?_, ?_, ?_, ?_, ?_, ?_, ?_⟩
  · rw [hregs]
    exact regionsOf_nonempty hord
  · rw [hregs]
    exact regionsOf_ascending hord
  · intro m hm htag hshown
    apply hin m hm
    have hwant := shown_iff.mp hshown
    rcases htag with htag | htag
    · simp only [Mark.included, htag, hwant, ne_eq, not_false_eq_true, decide_true]
    · simp only [Mark.included, htag, hwant, ne_eq, not_false_eq_true, decide_true]
  · intro m hm htag hlisted
    apply hin m hm
    have hwant := listed_iff.mp hlisted
    rcases htag with ⟨htag, hexc⟩ | htag
    · simp only [Mark.included, htag, hwant, decide_true, hexc, Bool.not_false, Bool.and_self]
    · simp only [Mark.included, htag, hwant, decide_true]
  · intro m hm htag
    apply hin m hm
    simp only [Mark.included, htag]
  · intro m hm htag hexc
    refine hout m hm (by rw [htag]; decide) ?_
    simp only [Mark.included, htag, hexc, Bool.not_true, Bool.and_false]
  · intro m hm htag hlisted
    refine hout m hm (by rw [htag]; decide) ?_
    have hwant : ¬ 2 ≤ wantOf inc m.nodes := fun hw => hlisted (listed_iff.mpr hw)
    simp only [Mark.included, htag, hwant, decide_false, Bool.false_and]
  · intro m hm htag hshown
    refine hout m hm (by rw [htag]; decide) ?_
    have hwant : wantOf inc m.nodes = 0 := by
      by_contra hne
      exact hshown (shown_iff.mpr hne)
    simp only [Mark.included, htag, hwant, ne_eq, not_true_eq_false, decide_false]

/- `fdt_find_regions` returns for every nested block. If its count is not above the room there
is, the regions select what the list of paths says, where a node's path is the one its name and
those of the nodes around it make. -/
theorem find_regions_selects (hms : marks fdt = some ms) :
    fdtFindRegions fdt inc excProp maxRegions pathLen addStringTab ≠ .error .fault ∧
    (∀ n regions,
      fdtFindRegions fdt inc excProp maxRegions pathLen addStringTab = .ok (n, regions) →
      n ≤ maxRegions → Selects fdt inc excProp ms n regions) ∧
    ((∀ m ∈ ms, Named fdt m.nodes) → ∀ m ∈ ms, Pathed fdt m.nodes) :=
  ⟨fdtFindRegions_returns hms addStringTab, fun _ _ h hn => fdtFindRegions_selects hms h hn,
    marksFrom_pathed hms trivial rfl⟩

end Selects

def propItems : List Item :=
  [.beginNode "", .prop "p" [1], .beginNode "a", .prop "p" [2], .prop "q" [3], .beginNode "b",
    .prop "p" [4], .endNode, .endNode, .endNode]

def propFdt : Fdt := writeFdt ["p", "q"] propItems (by decide +kernel)

/- Of `/a` without `q`: its first tag and `p`, the first tag of `b`, and the ends. -/
theorem node_without_q_selected :
    ∃ ms, marks propFdt = some ms ∧ Selects propFdt [chars "/a"] [chars "q"] ms 3
      [⟨64, 24⟩, ⟨104, 8⟩, ⟨128, 16⟩] := by
  have hsome : (marks propFdt).isSome = true := by decide +kernel
  obtain ⟨ms, hms⟩ := isSome_iff_exists.mp hsome
  have hfind : fdtFindRegions propFdt [chars "/a"] [chars "q"] 10 200 false =
      .ok (3, [⟨64, 24⟩, ⟨104, 8⟩, ⟨128, 16⟩]) := by
    decide +kernel
  exact ⟨ms, hms, (find_regions_selects hms).2.1 3 _ hfind (by decide)⟩

end UBoot.Fit
