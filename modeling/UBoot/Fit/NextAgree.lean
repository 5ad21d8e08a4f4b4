import UBoot.Fit.Finder

/-!
# Both finders

A tag that is taken a second time meets the buffer as the first turn left it. Only the end of a node
reads the buffer; that does no harm if the path has no other '/' than its first character.
-/

namespace UBoot.Fit

open Memory Runs List Option

section Path

variable {path path' : Mem} {e : ℕ}

theorem stripPath_concat (cs : List UInt8) (c : UInt8) :
    stripPath (cs ++ [c]) = if c = 47 then cs else stripPath cs := by
  unfold stripPath
  rw [reverse_append, reverse_singleton, singleton_append, dropWhile_cons]
  by_cases hc : c = 47
  · simp [hc]
  · simp [hc]

theorem bytes_concat (path : Mem) (e : ℕ) : bytes path 0 (e + 1) = bytes path 0 e ++ [path e] := by
  rw [bytes_add, bytes_succ, bytes_zero, Nat.zero_add]

theorem stripEnd_le (path : Mem) (e : ℕ) : stripEnd path e ≤ e := by
  induction e with
  | zero => exact le_refl _
  | succ e ih =>
    unfold stripEnd
    split
    · exact Nat.le_succ e
    · exact ih.trans (Nat.le_succ e)

theorem bytes_stripEnd (path : Mem) (e : ℕ) :
    bytes path 0 (stripEnd path e) = stripPath (bytes path 0 e) := by
  induction e with
  | zero => rfl
  | succ e ih =>
    rw [bytes_concat, stripPath_concat, stripEnd]
    split
    · rfl
    · exact ih

theorem stripEnd_congr (h : ∀ i < e, path i = path' i) : stripEnd path e = stripEnd path' e := by
  induction e with
  | zero => rfl
  | succ e ih =>
    rw [stripEnd, stripEnd, h e (Nat.lt_succ_self e), ih fun i hi => h i (Nat.lt_succ_of_lt hi)]

theorem stripEnd_again (path : Mem) (e : ℕ) :
    stripEnd (store path (stripEnd path e) [0]) e = stripEnd path (stripEnd path e) := by
  induction e with
  | zero => rfl
  | succ e ih =>
    by_cases hslash : path e = 47
    · have hend : stripEnd path (e + 1) = e := by rw [stripEnd, if_pos hslash]
      have hzero : store path e [0] e = 0 := store_at path e [0] (i := 0) Nat.one_pos
      rw [hend, stripEnd, hzero, if_neg (by decide)]
      exact stripEnd_congr fun i hi => store_below path e [0] hi
    · have hend : stripEnd path (e + 1) = stripEnd path e := by rw [stripEnd, if_neg hslash]
      have hne : store path (stripEnd path e) [0] e ≠ 47 := by
        by_cases hlt : stripEnd path e < e
        · rw [store_above path _ [0] (by simpa using hlt)]
          exact hslash
        · have heq : stripEnd path e = e := le_antisymm (stripEnd_le path e) (Nat.le_of_not_lt hlt)
          have hzero : store path e [0] e = 0 := store_at path e [0] (i := 0) Nat.one_pos
          rw [heq, hzero]
          decide
      rw [hend, stripEnd, if_neg hne, ih]

/- The buffer holds `cs`, which ends at `e`. -/
structure Holds (path : Mem) (e : ℕ) (cs : List UInt8) : Prop where
  text : bytes path 0 e = cs
  nonzero : ∀ c ∈ cs, c ≠ 0

variable {cs : List UInt8}

theorem Holds.length (h : Holds path e cs) : cs.length = e := by
  rw [← h.text, length_bytes]

theorem Holds.append {ds : List UInt8} (h : Holds path e cs) (hd : ∀ c ∈ ds, c ≠ 0) :
    Holds (store path e (ds ++ [0])) (e + ds.length) (cs ++ ds) where
  text := by
    rw [bytes_add, bytes_store_apart _ _ _ _ _ (.inl (by lia)), h.text, Nat.zero_add,
      store_append, bytes_store_apart _ _ _ _ _ (.inl (le_refl _)), bytes_store_same]
  nonzero := by
    intro c hc
    cases mem_append.mp hc with
    | inl hc => exact h.nonzero c hc
    | inr hc => exact hd c hc

theorem Holds.cText {ds : List UInt8} (pathLen : ℕ) (h : Holds path e cs) (hd : ∀ c ∈ ds, c ≠ 0)
    (hlen : e + ds.length < pathLen) : UBoot.Fit.cText pathLen (store path e (ds ++ [0])) = cs ++ ds := by
  obtain ⟨k, rfl⟩ := Nat.exists_eq_add_of_le hlen
  have happ := h.append hd
  have hzero : store path e (ds ++ [0]) (e + ds.length) = 0 := by
    rw [store_append]
    exact store_at _ (e + ds.length) [0] (i := 0) Nat.one_pos
  rw [UBoot.Fit.cText, bytes_add, bytes_concat, happ.text, hzero, append_assoc]
  exact takeWhile_zero happ.nonzero

theorem stripPath_mem {c : UInt8} (h : c ∈ stripPath cs) : c ∈ cs := by
  unfold stripPath at h
  have hdrop := mem_of_mem_drop (mem_reverse.mp h)
  exact mem_reverse.mp ((dropWhile_sublist _).mem hdrop)

theorem Holds.strip (h : Holds path e cs) :
    Holds (store path (stripEnd path e) [0]) (stripEnd path e) (stripPath cs) where
  text := by
    rw [bytes_store_apart _ _ _ _ _ (.inl (by lia)), bytes_stripEnd, h.text]
  nonzero := fun c hc => h.nonzero c (stripPath_mem hc)

theorem Holds.strip_again (h : Holds path e cs) (hcs : stripPath cs = []) :
    let path₁ := store path (stripEnd path e) [0]
    Holds (store path₁ (stripEnd path₁ e) [0]) (stripEnd path₁ e) (stripPath cs) := by
  have hend : stripEnd path e = 0 := by
    have hlen := h.strip.length
    rw [hcs] at hlen
    exact hlen.symm
  have hagain := stripEnd_again path e
  rw [hend] at hagain
  simp only [hend, hagain, stripEnd]
  exact ⟨hcs.symm, fun c hc => h.nonzero c (stripPath_mem hc)⟩

end Path

section Visit

variable {fdt : Fdt} {inc excProp : List (List UInt8)} {pathLen offset next : ℕ} {tag : Tag}
  {pos pos₁ : Position} {path : Mem} {p : Ptrs} {c : Choice}

/- The pointers and the buffer of the one finder, the position of the other. -/
structure Follows (pos : Position) (path : Mem) (p : Ptrs) : Prop where
  holds : Holds path p.pathEnd pos.path
  stack : p.stack = pos.stack
  want : p.want = pos.want

variable (fdt inc excProp pathLen offset next tag) in
def Taken (path : Mem) (p : Ptrs) (pos₁ : Position) (c : Choice) : Prop :=
  ∃ path₁ p₁, nextVisit fdt inc excProp pathLen offset next tag path p = .ok (path₁, p₁, c) ∧
    Follows pos₁ path₁ p₁ ∧ p₁.nextoffset = p.nextoffset ∧ p₁.done = p.done

theorem visit_taken (h : visit fdt inc excProp pathLen offset next tag pos = .ok (pos₁, c))
    (hf : Follows pos path p) (htag : tag ≠ .fin) :
    Taken fdt inc excProp pathLen offset next tag path p pos₁ c := by
  cases tag with
  | fin => exact absurd rfl htag
  | prop =>
    obtain ⟨rfl, rfl⟩ := Prod.mk.inj (Except.ok.inj h)
    refine ⟨path, p, ?_, hf, rfl, rfl⟩
    simp only [nextVisit, hf.want]
    cases excluded fdt excProp offset with
    | true => simp
    | false => simp
  | nop =>
    obtain ⟨rfl, rfl⟩ := Prod.mk.inj (Except.ok.inj h)
    refine ⟨path, p, ?_, hf, rfl, rfl⟩
    simp only [nextVisit, hf.want]
  | beginNode =>
    simp only [visit] at h
    split at h
    · cases h
    · next hdepth =>
      split at h
      · cases h
      · next hroom =>
        obtain ⟨rfl, rfl⟩ := Prod.mk.inj (Except.ok.inj h)
        have hsep : ∀ c ∈ (if p.pathEnd = 1 then [] else [47]) ++ nodeName fdt offset, c ≠ (0 : UInt8) := by
          intro c hc
          cases mem_append.mp hc with
          | inl hc =>
            split at hc
            · cases hc
            · rw [mem_singleton.mp hc]
              decide
          | inr hc => exact nodeName_nonzero fdt offset c hc
        have hjoin : joinPath pos.path (nodeName fdt offset) =
            pos.path ++ ((if p.pathEnd = 1 then [] else [47]) ++ nodeName fdt offset) := by
          rw [joinPath, hf.holds.length, append_assoc]
        have hlen : ((if p.pathEnd = 1 then [] else [47]) ++ nodeName fdt offset).length ≤
            1 + (nodeName fdt offset).length := by
          rw [length_append]
          split
          · simp
          · simp
        rw [hf.holds.length] at hroom
        have htext := hf.holds.cText pathLen hsep (by lia)
        have hwant : (if pos.want = 1 then 0 else pos.want) - 1 = pos.want - 1 := by
          split
          · lia
          · rfl
        have hstop : (pos.want = 1 ∨ inc.contains (joinPath pos.path (nodeName fdt offset)) = false ∧
              (if pos.want = 1 then 0 else pos.want) = 0) ↔
            (pos.want = 1 ∨ inc.contains (joinPath pos.path (nodeName fdt offset)) = false ∧
              pos.want = 0) := by
          by_cases hone : pos.want = 1
          · simp [hone]
          · simp [hone]
        rw [hjoin] at hstop
        simp only [Taken, nextVisit, hf.stack, hf.want, hdepth, hroom, htext, hwant, hstop, if_false, hjoin]
        exact ⟨_, _, rfl, ⟨hf.holds.append hsep, rfl, rfl⟩, rfl, rfl⟩
  | endNode =>
    simp only [visit] at h
    split at h
    · cases h
    · next w stack hstack =>
      obtain ⟨rfl, rfl⟩ := Prod.mk.inj (Except.ok.inj h)
      simp only [Taken, nextVisit, hf.stack, hf.want, hstack]
      exact ⟨_, _, rfl, ⟨hf.holds.strip, rfl, rfl⟩, rfl, rfl⟩

theorem visit_taken_again {path₁ : Mem} {p₁ : Ptrs}
    (h : visit fdt inc excProp pathLen offset next tag pos = .ok (pos₁, c))
    (hf : Follows pos path p) (htag : tag ≠ .fin)
    (hone : nextVisit fdt inc excProp pathLen offset next tag path p = .ok (path₁, p₁, c))
    (hend : tag = .endNode → stripPath pos.path = []) :
    Taken fdt inc excProp pathLen offset next tag path₁ p pos₁ c := by
  cases tag with
  | fin => exact absurd rfl htag
  | prop =>
    obtain ⟨rfl, -⟩ := Prod.mk.inj (Except.ok.inj hone)
    exact visit_taken h hf htag
  | nop =>
    obtain ⟨rfl, -⟩ := Prod.mk.inj (Except.ok.inj hone)
    exact visit_taken h hf htag
  | beginNode =>
    -- what has been written is behind the end, and is written once more
    simp only [nextVisit] at hone
    split at hone
    · cases hone
    · split at hone
      · cases hone
      · obtain ⟨rfl, -⟩ := Prod.mk.inj (Except.ok.inj hone)
        refine visit_taken h ⟨⟨?_, hf.holds.nonzero⟩, hf.stack, hf.want⟩ htag
        rw [bytes_store_apart _ _ _ _ _ (.inl (by lia))]
        exact hf.holds.text
  | endNode =>
    simp only [visit] at h
    split at h
    · cases h
    · next w stack hstack =>
      obtain ⟨rfl, rfl⟩ := Prod.mk.inj (Except.ok.inj h)
      simp only [nextVisit, hf.stack, hf.want, hstack] at hone
      obtain ⟨rfl, -⟩ := Prod.mk.inj (Except.ok.inj hone)
      simp only [Taken, nextVisit, hf.stack, hf.want, hstack]
      exact ⟨_, _, rfl, ⟨hf.holds.strip_again (hend rfl), rfl, rfl⟩, rfl, rfl⟩

end Visit

section Held

variable {out vs : List (ℕ × ℕ)} {ready : Option (ℕ × ℕ)} {start : Option ℕ} {offset s e : ℕ}

/- The runs `vs` up to `offset`: those that have been returned, the one that is ready and the
open one. -/
structure Held (out : List (ℕ × ℕ)) (ready : Option (ℕ × ℕ)) (start : Option ℕ) (offset : ℕ)
    (vs : List (ℕ × ℕ)) : Prop where
  ordered : Ordered (out ++ ready.toList) (start.getD offset)
  started : ∀ s, start = some s → s < offset
  first : ready = none → out = []
  runs : vs = start.elim (out ++ ready.toList) fun s => addRun (out ++ ready.toList) s offset

theorem fdtAddRegion_cases (fdt : Fdt) (hord : Ordered (out ++ ready.toList) s)
    (hfirst : ready = none → out = []) (hse : s ≤ e) :
    (∃ r, fdtAddRegion (ready.map (toRegion fdt)) ⟨fdt.offDtStruct + s, e - s⟩ =
        (true, toRegion fdt r) ∧ addRun (out ++ ready.toList) s e = out ++ [r]) ∨
      ∃ r, ready = some r ∧ r.2 < s ∧
        fdtAddRegion (ready.map (toRegion fdt)) ⟨fdt.offDtStruct + s, e - s⟩ =
          (false, toRegion fdt r) := by
  cases ready with
  | none =>
    refine .inl ⟨(s, e), rfl, ?_⟩
    rw [hfirst rfl]
    rfl
  | some r =>
    obtain ⟨a, b⟩ := r
    have hab := hord.nonempty (a, b) (by simp)
    have hbs := hord.below (a, b) (by simp)
    simp only at hab hbs
    simp only [map_some, toList_some, fdtAddRegion, toRegion]
    by_cases hadj : b = s
    · refine .inl ⟨(a, e), ?_, ?_⟩
      · rw [if_pos (by lia)]
        congr 2
        lia
      · rw [addRun_concat, if_pos hadj]
    · refine .inr ⟨(a, b), rfl, by simp only; lia, ?_⟩
      rw [if_neg (by lia)]

variable {next : ℕ}

theorem Held.included (h : Held out ready start offset vs) (hlt : offset < next) :
    Held out ready (some (start.getD offset)) next (addRun vs offset next) := by
  have hruns := h.runs
  cases start with
  | none =>
    refine ⟨h.ordered, fun s hs => ?_, h.first, ?_⟩
    · rw [← some.inj hs]
      exact hlt
    · rw [hruns]
      rfl
  | some s =>
    refine ⟨h.ordered, fun t ht => ?_, h.first, ?_⟩
    · rw [← some.inj ht]
      exact (h.started s rfl).trans hlt
    · rw [hruns, elim_some, addRun_addRun]
      rfl

theorem Held.skip (h : Held out ready none offset vs) (hlt : offset < next) :
    Held out ready none next vs :=
  ⟨h.ordered.mono (le_of_lt hlt), fun _ hs => (nomatch hs), h.first, h.runs⟩

theorem Held.close {out' : List (ℕ × ℕ)} {r : ℕ × ℕ} (h : Held out ready (some s) offset vs)
    (hse : s < e) (hnext : e ≤ next) (hadd : addRun (out ++ ready.toList) s e = out' ++ [r]) :
    Held out' (some r) none next (addRun (out ++ ready.toList) s e) := by
  refine ⟨?_, fun _ hs => (nomatch hs), fun hr => (nomatch hr), hadd⟩
  have hord := (h.ordered.addRun (le_refl _) hse).mono hnext
  rw [getD_some, hadd] at hord
  exact hord

end Held

section Runs

variable (fdt : Fdt) (inc excProp : List (List UInt8))

def runsOf (ms : List Mark) : List (ℕ × ℕ) := addRuns [] (pieces fdt inc excProp false ms)

def endsIncluded (ms : List Mark) : Bool := ms.getLast?.any (Mark.included fdt inc excProp)

def pathAfter (ms : List Mark) : List UInt8 := ms.foldl pathStep []

/- The end of a node that is not included, right behind an included tag, while an earlier region
is still to be returned: the tag is taken twice. -/
def TakenTwice (before : List Mark) (m : Mark) : Prop :=
  m.tag = .endNode ∧ m.included fdt inc excProp = false ∧
    endsIncluded fdt inc excProp before = true ∧ 2 ≤ (runsOf fdt inc excProp before).length

instance (before : List Mark) (m : Mark) : Decidable (TakenTwice fdt inc excProp before m) :=
  inferInstanceAs (Decidable (_ ∧ _ ∧ _ ∧ _))

def Untorn (ms : List Mark) : Prop :=
  ∀ i < ms.length, ∀ m ∈ ms[i]?, TakenTwice fdt inc excProp (ms.take i) m →
    stripPath (pathAfter (ms.take i)) = []

instance (ms : List Mark) : Decidable (Untorn fdt inc excProp ms) :=
  inferInstanceAs (Decidable (∀ i < ms.length, ∀ m ∈ ms[i]?, _ → _))

variable {fdt inc excProp}

theorem pieces_concat (before : Bool) (pre : List Mark) (m : Mark) :
    pieces fdt inc excProp before (pre ++ [m]) = pieces fdt inc excProp before pre ++
      [(m.offset, m.next, m.included fdt inc excProp ||
        ((pre.getLast?.map (Mark.included fdt inc excProp)).getD before && m.tag == .endNode))] := by
  induction pre generalizing before with
  | nil => rfl
  | cons a pre ih =>
    rw [cons_append, pieces, pieces, ih, cons_append, getLast?_cons]
    cases pre.getLast? with
    | none => rfl
    | some z => rfl

theorem runsOf_concat (pre : List Mark) (m : Mark) :
    runsOf fdt inc excProp (pre ++ [m]) =
      if m.included fdt inc excProp || (endsIncluded fdt inc excProp pre && m.tag == .endNode) then
        addRun (runsOf fdt inc excProp pre) m.offset m.next
      else runsOf fdt inc excProp pre := by
  have hlast : (pre.getLast?.map (Mark.included fdt inc excProp)).getD false =
      endsIncluded fdt inc excProp pre := by
    unfold endsIncluded
    cases pre.getLast? with
    | none => rfl
    | some z => rfl
  rw [runsOf, pieces_concat, addRuns, foldl_append, hlast]
  rfl

theorem endsIncluded_concat (pre : List Mark) (m : Mark) :
    endsIncluded fdt inc excProp (pre ++ [m]) = m.included fdt inc excProp := by
  rw [endsIncluded, getLast?_concat]
  rfl

theorem pathAfter_concat (pre : List Mark) (m : Mark) :
    pathAfter (pre ++ [m]) = pathStep (pathAfter pre) m := foldl_concat ..

theorem Held.runsOf_close {out : List (ℕ × ℕ)} {ready : Option (ℕ × ℕ)} {pre : List Mark} {m : Mark}
    {s : ℕ} (h : Held out ready (some s) m.offset (runsOf fdt inc excProp pre))
    (hends : endsIncluded fdt inc excProp pre = true) (hno : m.included fdt inc excProp = false) :
    runsOf fdt inc excProp (pre ++ [m]) = addRun (out ++ ready.toList) s m.stopAt := by
  have hruns := h.runs
  rw [elim_some] at hruns
  rw [runsOf_concat, hno, hends, hruns, Mark.stopAt, addRun_addRun]
  by_cases hend : m.tag = .endNode
  · simp [hend]
  · simp [hend]

end Runs

section Loop

variable {fdt : Fdt} {inc excProp : List (List UInt8)} {pathLen maxRegions : ℕ}

variable {k : ℕ}

theorem nextLoop_step (st : RegionState) {offset : ℕ} {ready : Option Region} {tag : Tag} {next : ℤ}
    {path : Mem} {p : Ptrs} {c : Choice} (hoff : st.ptrs.nextoffset = offset)
    (htag : fdtNextTag fdt offset = (tag, next))
    (hvisit : nextVisit fdt inc excProp pathLen offset next.toNat tag st.path
      { st.ptrs with nextoffset := next } = .ok (path, p, c)) (hdone : p.done = .nothing) :
    nextLoop fdt inc excProp pathLen (k + 1) st ready =
      if c.included then
        nextLoop fdt inc excProp pathLen k ⟨some (st.start.getD offset), p, path⟩ ready
      else
        match st.start with
        | none => nextLoop fdt inc excProp pathLen k ⟨none, p, path⟩ ready
        | some start =>
          match fdtAddRegion ready ⟨fdt.offDtStruct + start, c.stopAt - start⟩ with
          | (true, region) => nextLoop fdt inc excProp pathLen k ⟨none, p, path⟩ (some region)
          | (false, region) => .ok (.full region { st with path := path }) := by
  have hloop := nextLoop.eq_2 fdt inc excProp pathLen st ready k
  simp only [hoff, Int.toNat_natCast, htag, hvisit, bind, Except.bind, hdone, reduceCtorEq, if_false]
    at hloop
  exact hloop

def Agrees (fdt : Fdt) (inc excProp : List (List UInt8)) (pathLen : ℕ) (all out : List (ℕ × ℕ))
    (res : Except Stop Pass) : Prop :=
  ∃ L, out ++ L = all ∧ collect fdt inc excProp pathLen L.length (res >>= afterLoop fdt) =
    .ok (L.map (toRegion fdt))

variable {out : List (ℕ × ℕ)} {ready : Option (ℕ × ℕ)} {st : RegionState}

theorem agrees_end {all : List (ℕ × ℕ)} {s : ℕ} (hord : Ordered (out ++ ready.toList) s)
    (hfirst : ready = none → out = []) (hs : s ≤ fdt.sizeDtStruct) (hstart : st.start = some s)
    (hdone : st.ptrs.done = .struct) (hnext : st.ptrs.nextoffset = fdt.sizeDtStruct)
    (hall : all = addRun (out ++ ready.toList) s fdt.sizeDtStruct) :
    Agrees fdt inc excProp pathLen all out (.ok (.through st (ready.map (toRegion fdt)))) := by
  have hend : ∀ {ready' b region},
      fdtAddRegion ready' ⟨fdt.offDtStruct + s, fdt.sizeDtStruct - s⟩ = (b, region) →
      nextEnd fdt st ready' = .ok (region,
        if b then { st with ptrs := { st.ptrs with done := .strings } } else st) := by
    intro ready' b region hadd
    simp only [nextEnd, hnext, hstart, ne_eq, not_true_eq_false, if_false, getD_some,
      Int.toNat_natCast, hadd]
    cases b with
    | true => rfl
    | false => rfl
  cases fdtAddRegion_cases fdt hord hfirst hs with
  | inl hfits =>
    obtain ⟨r, hadd, hrun⟩ := hfits
    refine ⟨[r], by rw [hall, hrun], ?_⟩
    simp only [bind, Except.bind, afterLoop, hend hadd]
    rfl
  | inr hfull =>
    obtain ⟨r, rfl, hr, hadd⟩ := hfull
    refine ⟨[r, (s, fdt.sizeDtStruct)], ?_, ?_⟩
    · rw [hall, toList_some, addRun_concat, if_neg (by lia)]
      simp
    · have hlast := hend (show fdtAddRegion none _ = (true, _) from rfl)
      simp only [bind, Except.bind, afterLoop, hend hadd, length_cons, length_nil, collect,
        fdtNextRegion, Bool.false_eq_true, if_false, hdone, hlast]
      rfl

theorem turn_agrees {pre : List Mark} {m : Mark} {all : List (ℕ × ℕ)} {fuel : ℕ} {next : ℤ}
    {pos pos₁ : Position} {c : Choice}
    (hgo : ∀ k' out' ready' start p path, fuel ≤ k' → Follows pos₁ path p → p.nextoffset = next →
      p.done = .nothing → start.isSome = m.included fdt inc excProp →
      Held out' ready' start m.next (runsOf fdt inc excProp (pre ++ [m])) →
      Agrees fdt inc excProp pathLen all out' (nextLoop fdt inc excProp pathLen k' ⟨start, p, path⟩
        (ready'.map (toRegion fdt))))
    (htag : fdtNextTag fdt m.offset = (m.tag, next)) (hnext : next = m.next) (hfin : m.tag ≠ .fin)
    (hlt : m.offset < m.next)
    (hvisit : visit fdt inc excProp pathLen m.offset m.next m.tag pos = .ok (pos₁, c))
    (hinc : c.included = m.included fdt inc excProp)
    (hstop : c.included = false → c.stopAt = m.stopAt)
    (hends : st.start.isSome = endsIncluded fdt inc excProp pre)
    (hheld : Held out ready st.start m.offset (runsOf fdt inc excProp pre))
    (hf : Follows pos st.path st.ptrs) (hoff : st.ptrs.nextoffset = m.offset)
    (hdone : st.ptrs.done = .nothing) (hk : fuel ≤ k) (hfuel : fuel ≤ fdt.sizeDtStruct)
    (huntorn : TakenTwice fdt inc excProp pre m → stripPath pos.path = []) :
    Agrees fdt inc excProp pathLen all out
      (nextLoop fdt inc excProp pathLen (k + 1) st (ready.map (toRegion fdt))) := by
  have hnat : next.toNat = m.next := by rw [hnext, Int.toNat_natCast]
  rw [← hnat] at hvisit
  have hf' : Follows pos st.path { st.ptrs with nextoffset := next } := ⟨hf.holds, hf.stack, hf.want⟩
  obtain ⟨path₁, p₁, hone, hf₁, hoff₁, hdone₁⟩ := visit_taken hvisit hf' hfin
  rw [nextLoop_step st hoff htag hone (hdone₁.trans hdone)]
  cases hc : c.included with
  | true =>
    rw [if_pos rfl]
    rw [hc] at hinc
    apply hgo k out ready (some (st.start.getD m.offset)) p₁ path₁ hk hf₁ hoff₁
      (hdone₁.trans hdone) hinc
    rw [runsOf_concat, ← hinc, Bool.true_or, if_pos rfl]
    exact hheld.included hlt
  | false =>
    rw [if_neg Bool.false_ne_true]
    rw [hc] at hinc
    cases hstart : st.start with
    | none =>
      rw [hstart] at hends hheld
      apply hgo k out ready none p₁ path₁ hk hf₁ hoff₁ (hdone₁.trans hdone) hinc
      rw [runsOf_concat, ← hinc, ← hends, isSome_none, Bool.false_and, Bool.false_or,
        if_neg Bool.false_ne_true]
      exact hheld.skip hlt
    | some s =>
      rw [hstart] at hends hheld
      have hends' : endsIncluded fdt inc excProp pre = true := hends.symm
      have hruns := hheld.runsOf_close hends' hinc.symm
      have hs : s < m.stopAt ∧ m.stopAt ≤ m.next := by
        have hlt' := hheld.started s rfl
        unfold Mark.stopAt
        split
        · lia
        · lia
      simp only [hstop hc]
      cases fdtAddRegion_cases fdt hheld.ordered hheld.first (le_of_lt hs.1) with
      | inl hfits =>
        obtain ⟨run, hadd, hrun⟩ := hfits
        simp only [getD_some] at hadd hrun
        rw [hadd]
        apply hgo k out (some run) none p₁ path₁ hk hf₁ hoff₁ (hdone₁.trans hdone) hinc
        rw [hruns]
        exact hheld.close hs.1 hs.2 hrun
      | inr hfull =>
        -- the region that is ready is returned, and the tag is taken again
        obtain ⟨run, rfl, hrun, hadd⟩ := hfull
        simp only [getD_some] at hadd hrun
        rw [hadd]
        have hnew : addRun (out ++ [run]) s m.stopAt = out ++ [run] ++ [(s, m.stopAt)] := by
          rw [addRun_concat, if_neg (by lia)]
        have htwo : 2 ≤ (runsOf fdt inc excProp pre).length := by
          have hlen := congrArg List.length hheld.runs
          rw [elim_some, toList_some, addRun_concat, if_neg (by lia)] at hlen
          simp only [length_append, length_singleton] at hlen
          lia
        obtain ⟨path₂, p₂, htwice, hf₂, hoff₂, hdone₂⟩ :=
          visit_taken_again hvisit hf' hfin hone fun hend =>
            huntorn ⟨hend, hinc.symm, hends', htwo⟩
        have hheld₂ : Held (out ++ [run]) (some (s, m.stopAt)) none m.next
            (runsOf fdt inc excProp (pre ++ [m])) := by
          rw [hruns]
          exact hheld.close hs.1 hs.2 hnew
        obtain ⟨L, hL, hcollect⟩ := hgo fdt.sizeDtStruct (out ++ [run]) (some (s, m.stopAt)) none p₂
          path₂ hfuel hf₂ hoff₂ (hdone₂.trans hdone) hinc hheld₂
        refine ⟨run :: L, by rw [← hL, append_assoc, singleton_append], ?_⟩
        have hcall : fdtNextRegion fdt inc excProp pathLen ⟨some s, st.ptrs, path₁⟩ =
            nextLoop fdt inc excProp pathLen fdt.sizeDtStruct ⟨none, p₂, path₂⟩
              (some (toRegion fdt (s, m.stopAt))) >>= afterLoop fdt := by
          have hstep : nextLoop fdt inc excProp pathLen (fdt.sizeDtStruct + 1)
              ⟨some s, st.ptrs, path₁⟩ none = nextLoop fdt inc excProp pathLen fdt.sizeDtStruct ⟨none, p₂, path₂⟩
                (some (toRegion fdt (s, m.stopAt))) := by
            rw [nextLoop_step ⟨some s, st.ptrs, path₁⟩ hoff htag htwice (hdone₂.trans hdone)]
            simp only [hc, hstop hc, fdtAddRegion, Bool.false_eq_true, if_false]
            rfl
          simp only [fdtNextRegion, hdone, hstep]
        have hfound : collect fdt inc excProp pathLen (run :: L).length
            ((.ok (.full (toRegion fdt run) ⟨some s, st.ptrs, path₁⟩) : Except Stop Pass) >>=
              afterLoop fdt) =
            (collect fdt inc excProp pathLen L.length
              (fdtNextRegion fdt inc excProp pathLen ⟨some s, st.ptrs, path₁⟩)).map
                (toRegion fdt run :: ·) := rfl
        simp only
        rw [hfound, hcall]
        rw [map_some] at hcollect
        rw [hcollect]
        rfl

theorem nextLoop_agrees {all pre ms : List Mark} {fuel offset : ℕ} {pos : Position} {r r' : Spans}
    {nodes : List Node}
    (huntorn : Untorn fdt inc excProp all)
    (hfind : findLoop fdt inc excProp maxRegions pathLen fuel offset pos r =
      .ok (r', fdt.sizeDtStruct))
    (hmarks : marksFrom fdt fuel offset pos.path nodes = some ms) (hlt : ∀ m ∈ ms, m.offset < m.next)
    (hw : pos.want = wantOf inc nodes) (hs : pos.stack = stackOf inc nodes) (hall : all = pre ++ ms)
    (hpath : pos.path = pathAfter pre) (hends : st.start.isSome = endsIncluded fdt inc excProp pre)
    (hheld : Held out ready st.start offset (runsOf fdt inc excProp pre))
    (hf : Follows pos st.path st.ptrs) (hoff : st.ptrs.nextoffset = offset)
    (hdone : st.ptrs.done = .nothing) (hk : fuel ≤ k) (hfuel : fuel ≤ fdt.sizeDtStruct + 1) :
    Agrees fdt inc excProp pathLen (runsOf fdt inc excProp all) out
      (nextLoop fdt inc excProp pathLen k st (ready.map (toRegion fdt))) := by
  induction fuel generalizing offset pos r nodes ms pre st k out ready with
  | zero => cases hfind
  | succ fuel ih =>
    obtain ⟨k, rfl⟩ := Nat.exists_eq_add_of_le' (Nat.one_le_of_lt hk)
    unfold findLoop at hfind
    rcases htag : fdtNextTag fdt offset with ⟨tag, next⟩
    simp only [htag] at hfind
    cases hvisit : visit fdt inc excProp pathLen offset next.toNat tag pos with
    | error e =>
      rw [hvisit] at hfind
      cases hfind
    | ok res =>
      obtain ⟨pos₁, c⟩ := res
      simp only [hvisit, bind, Except.bind] at hfind
      by_cases hfin : tag = .fin
      · subst hfin
        rw [if_pos rfl] at hfind
        obtain ⟨-, rfl⟩ := Prod.mk.inj (Except.ok.inj hfind)
        obtain ⟨rfl, rfl⟩ := Prod.mk.inj (Except.ok.inj hvisit)
        simp only [marksFrom, htag, if_true, some.injEq] at hmarks
        subst hmarks
        have hnext := hlt _ mem_cons_self
        simp only [Int.toNat_natCast] at hnext
        have hheld₁ := hheld.included hnext
        have hstep : nextLoop fdt inc excProp pathLen (k + 1) st (ready.map (toRegion fdt)) =
            .ok (.through ⟨some (st.start.getD offset),
              { st.ptrs with
                done := .struct
                nextoffset := fdt.sizeDtStruct }, st.path⟩ (ready.map (toRegion fdt))) := by
          simp only [nextLoop, hoff, Int.toNat_natCast, htag, nextVisit, bind, Except.bind, if_true]
        rw [hstep]
        refine agrees_end hheld.ordered hheld.first (le_of_lt (hheld₁.started _ rfl)) rfl rfl rfl ?_
        rw [hall, runsOf_concat, Int.toNat_natCast]
        exact hheld₁.runs
      · rw [if_neg hfin] at hfind
        have hnat : ((next.toNat : ℕ) : ℤ) = next := by
          cases fdtNextTag_cases htag with
          | inl hok =>
            obtain ⟨n, -, -, -, rfl⟩ := hok
            rfl
          | inr hend => exact absurd hend.1 hfin
        obtain ⟨own, after, hinc, hstop, hw₁, hs₁, hpath₁, hcons⟩ := visit_mark hfin hvisit hw hs
        obtain ⟨rest, hrest, -⟩ := findLoop_marks hfind rfl hw₁ hs₁
        have hms := hcons fuel rest (by rw [hnat]; exact htag) hrest
        rw [hmarks, some.injEq] at hms
        subst hms
        refine turn_agrees (m := ⟨offset, next.toNat, tag, own⟩) ?_ htag hnat.symm hfin
          (hlt _ mem_cons_self) hvisit hinc hstop hends hheld hf hoff hdone
          (Nat.le_of_succ_le_succ hk) (Nat.le_of_succ_le_succ hfuel) ?_
        · intro k' out' ready' start p path hk' hf₁ hoff₁ hdone₁ hstart hheld₁
          refine ih hfind hrest (fun m hm => hlt m (mem_cons_of_mem _ hm)) hw₁ hs₁
            (by rw [hall, append_assoc]; rfl) ?_ ?_ hheld₁ hf₁ (hoff₁.trans hnat.symm) hdone₁ hk'
            (Nat.le_of_succ_le hfuel)
          · rw [hpath₁, hpath, pathAfter_concat]
          · rw [endsIncluded_concat]
            exact hstart
        · intro htwice
          rw [hpath]
          have hpre := huntorn pre.length (by rw [hall]; simp) ⟨offset, next.toNat, tag, own⟩
            (by rw [hall]; simp)
          rw [hall, take_left] at hpre
          exact hpre htwice

end Loop

section Regions

variable (fdt : Fdt) (inc excProp : List (List UInt8)) (maxRegions pathLen : ℕ)

/- All calls, with a buffer that holds anything at first: the regions are those that
`fdt_find_regions` returns, and the call behind the last of them finds none. -/
theorem next_regions_agree (path : Mem) {n : ℕ} {regions : List Region}
    (hfind : fdtFindRegions fdt inc excProp maxRegions pathLen false = .ok (n, regions))
    (hroom : n ≤ maxRegions) (huntorn : ∀ ms, marks fdt = some ms → Untorn fdt inc excProp ms) :
    collect fdt inc excProp pathLen n (fdtFirstRegion fdt inc excProp pathLen path) = .ok regions := by
  obtain ⟨ms, hms, hregs, rfl⟩ := fdtFindRegions_runs hfind hroom
  unfold fdtFindRegions at hfind
  cases hloop : findLoop fdt inc excProp maxRegions pathLen (fdt.sizeDtStruct + 1) 0 ⟨[], [], 0⟩
      ⟨none, 0, []⟩ with
  | error e =>
    rw [hloop] at hfind
    cases hfind
  | ok res =>
    obtain ⟨r, next⟩ := res
    simp only [hloop, bind, Except.bind] at hfind
    split at hfind
    · cases hfind
    · next hnext =>
      rw [not_not.mp hnext] at hloop
      have hlt : ∀ m ∈ ms, m.offset < m.next := by
        intro m hm
        have hlong := (marksFrom_whole hms (Nat.dvd_zero 4) m hm).long
        lia
      have hheld : Held [] none (firstState path).start 0 (runsOf fdt inc excProp []) :=
        ⟨⟨by simp, by simp, List.Pairwise.nil⟩, fun _ hs => (nomatch hs), fun _ => rfl, rfl⟩
      have hfollows : Follows ⟨[], [], 0⟩ (firstState path).path (firstState path).ptrs :=
        ⟨⟨rfl, by simp⟩, rfl, rfl⟩
      have hagree := nextLoop_agrees (huntorn ms hms) hloop hms hlt rfl rfl rfl rfl rfl hheld
        hfollows rfl rfl (le_refl _) (le_refl _)
      obtain ⟨L, hL, hcollect⟩ := hagree
      have hregions : regions = L.map (toRegion fdt) := by
        rw [hregs, ← nil_append L, hL]
        rfl
      rw [hregions, length_map]
      exact hcollect

end Regions

def deepItems : List Item :=
  [.beginNode "", .beginNode "b", .endNode, .beginNode "x", .beginNode "a", .beginNode "c", .endNode,
    .endNode, .beginNode "d", .endNode, .endNode, .endNode]

def deepFdt : Fdt := writeFdt [] deepItems (by decide +kernel)

/- `/x` ends while the region of `/b` is ready: the tag is taken twice, and the path is empty
both times. -/
theorem deep_regions_agree :
    collect deepFdt [chars "/b", chars "/x/d"] [] 200 3
        (fdtFirstRegion deepFdt [chars "/b", chars "/x/d"] [] 200 fun _ => 0) =
      .ok [⟨48, 12⟩, ⟨92, 16⟩, ⟨112, 4⟩] := by
  refine next_regions_agree deepFdt _ [] 10 200 (fun _ => 0) (by decide +kernel) (by decide) ?_
  intro ms hms
  have hall : (marks deepFdt).all
      (fun ms => decide (Untorn deepFdt [chars "/b", chars "/x/d"] [] ms)) = true := by
    decide +kernel
  rw [hms] at hall
  exact of_decide_eq_true hall

/- `/x/a` ends in the same way. Its path is cut to the empty one, `/x/d` is read as `/d`, and its
tags are missing. -/
theorem torn_path_missed :
    ¬ ∀ (fdt : Fdt) (inc excProp : List (List UInt8)) (maxRegions pathLen : ℕ) (path : Mem)
      (n calls : ℕ) (regions found : List Region),
      fdtFindRegions fdt inc excProp maxRegions pathLen false = .ok (n, regions) → n ≤ maxRegions →
      collect fdt inc excProp pathLen calls (fdtFirstRegion fdt inc excProp pathLen path) =
        .ok found → found = regions := by
  intro hall
  have hfind : fdtFindRegions deepFdt [chars "/b", chars "/x/a/c", chars "/x/d"] [] 10 200 false =
      .ok (3, [⟨48, 12⟩, ⟨76, 32⟩, ⟨112, 4⟩]) := by
    decide +kernel
  have hnext : collect deepFdt [chars "/b", chars "/x/a/c", chars "/x/d"] [] 200 3
      (fdtFirstRegion deepFdt [chars "/b", chars "/x/a/c", chars "/x/d"] [] 200 fun _ => 0) =
      .ok [⟨48, 12⟩, ⟨76, 16⟩, ⟨112, 4⟩] := by
    decide +kernel
  have heq := hall _ _ _ _ _ _ _ _ _ _ hfind (by decide) hnext
  revert heq
  decide

end UBoot.Fit
