import UBoot.Ext4.Blocks

/-!
# Trees of indirect blocks

`Found` says where a tree leads; it is kept while the disk keeps the indirect blocks of the tree.
Which calls get indirect blocks does not depend on the numbers.
-/

namespace UBoot.Ext4

open Function List

variable (blksz : ℕ) (supply : Supply)

/- The block leads to `x` in `k` steps over indirect blocks of the list. -/
def Found (disk : ℕ → ℕ → ℕ) (calls : List (ℕ × ℕ)) : ℕ → ℕ → ℕ → ℕ → ℕ → Prop
  | 0, _, b, _, x => b = x
  | k + 1, depth, b, r, x => (∃ c, (depth, c) ∈ calls ∧ supply.number c = b) ∧
      Found disk calls k (depth + 1) (disk b (r / (blksz / 4) ^ k)) (r % (blksz / 4) ^ k) x

variable {blksz supply} in
theorem Found.mono {disk disk' : ℕ → ℕ → ℕ} {calls calls' : List (ℕ × ℕ)}
    (hdisk : ∀ e ∈ calls, disk' (supply.number e.2) = disk (supply.number e.2))
    (hcalls : ∀ e ∈ calls, e ∈ calls') : ∀ {k depth b r x},
    Found blksz supply disk calls k depth b r x → Found blksz supply disk' calls' k depth b r x := by
  intro k
  induction k with
  | zero => exact fun h => h
  | succ k ih =>
    intro depth b r x h
    obtain ⟨⟨c, hc, hb⟩, hrest⟩ := h
    refine ⟨⟨c, hcalls _ hc, hb⟩, ?_⟩
    rw [← hb, hdisk _ hc, hb]
    exact ih hrest

/- What an allocation adds: calls for data and for indirect blocks, and nothing else. -/
structure Grown (a a' : Alloc) (ds : List ℕ) (es : List (ℕ × ℕ)) : Prop where
  data : a'.data = a.data ++ ds
  indirect : a'.indirect = a.indirect ++ es
  calls : a.calls ≤ a'.calls
  perm : (ds ++ es.map Prod.snd).Perm (List.range' a.calls (a'.calls - a.calls))
  remaining : a'.totalRemainingBlocks + ds.length = a.totalRemainingBlocks
  reqd : a'.noBlksReqd = a.noBlksReqd + es.length
  disk : ∀ b, (∀ e ∈ es, supply.number e.2 ≠ b) → a'.disk b = a.disk b

variable {supply}

theorem Grown.refl (a : Alloc) : Grown supply a a [] [] :=
  ⟨by simp, by simp, le_rfl, by simp, by simp, by simp, fun _ _ => rfl⟩

variable {ds : List ℕ} {es : List (ℕ × ℕ)}

theorem Grown.trans {a₁ a₂ a₃ : Alloc} {ds' : List ℕ} {es' : List (ℕ × ℕ)}
    (h : Grown supply a₁ a₂ ds es) (h' : Grown supply a₂ a₃ ds' es') :
    Grown supply a₁ a₃ (ds ++ ds') (es ++ es') := by
  refine ⟨?_, ?_, h.calls.trans h'.calls, ?_, ?_, ?_, ?_⟩
  · rw [h'.data, h.data, append_assoc]
  · rw [h'.indirect, h.indirect, append_assoc]
  · have hsplit : List.range' a₁.calls (a₃.calls - a₁.calls) =
        List.range' a₁.calls (a₂.calls - a₁.calls) ++
          List.range' a₂.calls (a₃.calls - a₂.calls) := by
      have h₁ := h.calls
      have h₂ := h'.calls
      have hlen : a₃.calls - a₁.calls = a₂.calls - a₁.calls + (a₃.calls - a₂.calls) := by lia
      have hmid : a₁.calls + 1 * (a₂.calls - a₁.calls) = a₂.calls := by lia
      rw [hlen, ← range'_append, hmid]
    rw [hsplit, map_append]
    refine List.Perm.trans ?_ (h.perm.append h'.perm)
    simp only [append_assoc]
    exact List.Perm.append_left _ (perm_append_comm_assoc _ _ _)
  · have h₁ := h.remaining
    have h₂ := h'.remaining
    rw [length_append]
    lia
  · rw [h'.reqd, h.reqd, length_append, Nat.add_assoc]
  · intro b hb
    rw [h'.disk b fun e he => hb e (mem_append_right _ he),
      h.disk b fun e he => hb e (mem_append_left _ he)]

variable {a : Alloc}

theorem Grown.call_range {a' : Alloc} (h : Grown supply a a' ds es) {e : ℕ × ℕ} (he : e ∈ es) :
    a.calls ≤ e.2 ∧ e.2 < a'.calls := by
  have hmem : e.2 ∈ ds ++ es.map Prod.snd := mem_append_right _ (mem_map_of_mem he)
  have hrange := h.perm.mem_iff.mp hmem
  rw [mem_range'_1] at hrange
  lia

theorem Grown.disk_kept {a₁ a₂ : Alloc} {ds' : List ℕ} {es' : List (ℕ × ℕ)}
    (h : Grown supply a a₁ ds es) (h' : Grown supply a₁ a₂ ds' es') {e : ℕ × ℕ}
    (he : e ∈ es) : a₂.disk (supply.number e.2) = a₁.disk (supply.number e.2) := by
  refine h'.disk _ fun f hf heq => ?_
  have hsame := supply.injective heq
  have h₁ := (h.call_range he).2
  have h₂ := (h'.call_range hf).1
  lia

variable (supply) in
/- A tree of height `k` has been built: its data blocks are found from its top. -/
def Builds (k depth : ℕ) (a : Alloc) (out : ℕ × Alloc) : Prop :=
  out.1 = supply.number a.calls ∧ ∃ ds es, Grown supply a out.2 ds es ∧
    ds.length = min a.totalRemainingBlocks ((blksz / 4) ^ k) ∧
    ∀ r x, ds[r]? = some x → Found blksz supply out.2.disk es k depth out.1 r (supply.number x)

variable (supply) in
theorem newData_grown (h : a.totalRemainingBlocks ≠ 0) :
    Grown supply a (newData supply a).2 [a.calls] [] := by
  refine ⟨rfl, by simp [newData], Nat.le_succ _, by simp [newData], ?_, rfl, fun _ _ => rfl⟩
  simp only [newData, length_singleton]
  lia

variable (supply) in
theorem newData_builds (depth : ℕ) (h : a.totalRemainingBlocks ≠ 0) :
    Builds blksz supply 0 depth a (newData supply a) := by
  refine ⟨rfl, [a.calls], [], newData_grown supply h, ?_, ?_⟩
  · simp only [length_singleton, pow_zero]
    lia
  · intro r x hx
    rw [getElem?_singleton] at hx
    split at hx
    · cases hx
      rfl
    · cases hx

section Fill

variable {blksz} {k depth : ℕ} {sub : Alloc → ℕ × Alloc}

variable (blksz supply) in
def Filled (k depth c : ℕ) (a : Alloc) (out : List ℕ × Alloc) : Prop :=
  ∃ ds es, Grown supply a out.2 ds es ∧
    ds.length = min a.totalRemainingBlocks (c * (blksz / 4) ^ k) ∧
    ∀ r x, ds[r]? = some x → ∃ b, out.1[r / (blksz / 4) ^ k]? = some b ∧
      Found blksz supply out.2.disk es k depth b (r % (blksz / 4) ^ k) (supply.number x)

theorem fillWords_filled (hq : 0 < blksz / 4)
    (hsub : ∀ a, a.totalRemainingBlocks ≠ 0 → Builds blksz supply k depth a (sub a)) :
    ∀ (c : ℕ) (a : Alloc), a.totalRemainingBlocks ≠ 0 →
      Filled blksz supply k depth c a (fillWords sub c a) := by
  intro c
  induction c with
  | zero =>
    intro a _
    exact ⟨[], [], Grown.refl a, by simp, by simp⟩
  | succ c ih =>
    intro a ha
    have hpow : 0 < (blksz / 4) ^ k := Nat.pow_pos hq
    obtain ⟨-, ds, es, hgrown, hlen, hfound⟩ := hsub a ha
    rw [fillWords]
    generalize sub a = out at hgrown hfound ⊢
    obtain ⟨b, a₁⟩ := out
    dsimp only at hgrown hfound ⊢
    have hrem := hgrown.remaining
    generalize hQ : (blksz / 4) ^ k = Q at *
    have hsucc : (c + 1) * Q = c * Q + Q := Nat.succ_mul c Q
    by_cases hzero : a₁.totalRemainingBlocks = 0
    · -- the first word leads to all of them
      rw [if_pos hzero]
      refine ⟨ds, es, hgrown, ?_, ?_⟩
      · rw [hQ, hsucc]
        lia
      · intro r x hx
        obtain ⟨hr, -⟩ := List.getElem?_eq_some_iff.mp hx
        have hrQ : r < Q := by lia
        refine ⟨b, ?_, ?_⟩
        · rw [hQ, Nat.div_eq_of_lt hrQ]
          rfl
        · rw [hQ, Nat.mod_eq_of_lt hrQ]
          exact hfound r x hx
    · rw [if_neg hzero]
      have hfull : ds.length = Q := by lia
      obtain ⟨ds', es', hgrown', hlen', hfound'⟩ := ih a₁ hzero
      generalize fillWords sub c a₁ = rest at hgrown' hfound' ⊢
      obtain ⟨bs, a₂⟩ := rest
      dsimp only at hgrown' hfound' ⊢
      refine ⟨ds ++ ds', es ++ es', hgrown.trans hgrown', ?_, ?_⟩
      · rw [length_append, hlen', hQ, hsucc]
        lia
      · intro r x hx
        rw [hQ]
        by_cases hr : r < Q
        · rw [getElem?_append_left (by lia)] at hx
          rw [Nat.div_eq_of_lt hr, Nat.mod_eq_of_lt hr]
          refine ⟨b, rfl, (hfound r x hx).mono ?_ fun e he => mem_append_left _ he⟩
          intro e he
          exact hgrown.disk_kept hgrown' he
        · rw [getElem?_append_right (by lia), hfull] at hx
          obtain ⟨b', hb', hrest⟩ := hfound' (r - Q) x hx
          rw [hQ] at hb' hrest
          have hback : r = r - Q + Q := by lia
          have hdiv : r / Q = (r - Q) / Q + 1 := by
            rw [hback, Nat.add_div_right _ hpow, Nat.add_sub_cancel]
          have hmod : r % Q = (r - Q) % Q := by
            rw [hback, Nat.add_mod_right, Nat.add_sub_cancel]
          rw [hdiv, hmod]
          exact ⟨b', hb', hrest.mono (fun _ _ => rfl) fun e he => mem_append_right _ he⟩

theorem newIndirect_builds (hq : 0 < blksz / 4)
    (hsub : ∀ a, a.totalRemainingBlocks ≠ 0 →
      Builds blksz supply k (depth + 1) a (sub a)) {a : Alloc}
    (ha : a.totalRemainingBlocks ≠ 0) :
    Builds blksz supply (k + 1) depth a (newIndirect blksz supply depth sub a) := by
  rw [newIndirect]
  generalize ha₁ : ({ a with
    calls := a.calls + 1
    noBlksReqd := a.noBlksReqd + 1
    indirect := a.indirect ++ [(depth, a.calls)] } : Alloc) = a₁
  have hcalls₁ : a₁.calls = a.calls + 1 := by rw [← ha₁]
  have hgrown₁ : Grown supply a a₁ [] [(depth, a.calls)] := by
    rw [← ha₁]
    exact ⟨by simp, rfl, Nat.le_succ _, by simp, by simp, rfl, fun _ _ => rfl⟩
  have hrem₁ : a₁.totalRemainingBlocks = a.totalRemainingBlocks := by rw [← ha₁]
  obtain ⟨ds, es, hgrown, hlen, hfound⟩ := fillWords_filled hq hsub (blksz / 4) a₁ (hrem₁ ▸ ha)
  generalize fillWords sub (blksz / 4) a₁ = out at hgrown hfound ⊢
  obtain ⟨bs, a₂⟩ := out
  dsimp only at hgrown hfound ⊢
  have hboth := hgrown₁.trans hgrown
  -- the block of this call is none of those below it
  have hself : ∀ e ∈ es, supply.number e.2 ≠ supply.number a.calls := by
    intro e he heq
    have hsame := supply.injective heq
    have hrange := (hgrown.call_range he).1
    lia
  refine ⟨rfl, ds, (depth, a.calls) :: es, ⟨hboth.data, hboth.indirect, hboth.calls, hboth.perm,
    hboth.remaining, hboth.reqd, ?_⟩, ?_, ?_⟩
  · intro b hb
    have hne : b ≠ supply.number a.calls := fun h => hb _ mem_cons_self h.symm
    dsimp only
    rw [update_of_ne hne]
    exact hboth.disk b hb
  · rw [hlen, hrem₁, pow_succ, Nat.mul_comm]
  · intro r x hx
    obtain ⟨b, hb, hrest⟩ := hfound r x hx
    refine ⟨⟨a.calls, mem_cons_self, rfl⟩, ?_⟩
    dsimp only
    rw [update_self, getD_eq_getElem?_getD, hb]
    refine hrest.mono ?_ fun e he => mem_cons_of_mem _ he
    intro e he
    exact update_of_ne (hself e he) _ _

end Fill

variable (supply) in
theorem allocDirect_spec : ∀ (m i : ℕ) (inode : Inode) (a : Alloc),
    ∃ ds, Grown supply a (allocDirect supply m i inode a).2 ds [] ∧
      ds.length = min a.totalRemainingBlocks m ∧
      (∀ r x, ds[r]? = some x →
        (allocDirect supply m i inode a).1.dirBlocks (i + r) = supply.number x) ∧
      ∀ j < i, (allocDirect supply m i inode a).1.dirBlocks j = inode.dirBlocks j := by
  intro m
  induction m with
  | zero =>
    intro i inode a
    exact ⟨[], Grown.refl a, by simp, by simp, fun _ _ => rfl⟩
  | succ m ih =>
    intro i inode a
    rw [allocDirect]
    by_cases hzero : a.totalRemainingBlocks = 0
    · rw [if_pos hzero]
      exact ⟨[], Grown.refl a, by simp [hzero], by simp, fun _ _ => rfl⟩
    rw [if_neg hzero]
    have hgrown₁ := newData_grown supply hzero
    have hb : (newData supply a).1 = supply.number a.calls := rfl
    generalize newData supply a = out at hgrown₁ hb ⊢
    obtain ⟨b, a₁⟩ := out
    dsimp only at hgrown₁ hb ⊢
    obtain ⟨ds, hgrown, hlen, hfound, hbefore⟩ := ih (i + 1)
      { inode with dirBlocks := update inode.dirBlocks i b } a₁
    refine ⟨a.calls :: ds, hgrown₁.trans hgrown, ?_, ?_, ?_⟩
    · have hrem := hgrown₁.remaining
      rw [length_singleton] at hrem
      rw [length_cons, hlen]
      lia
    · intro r x hx
      cases r with
      | zero =>
        rw [getElem?_cons_zero] at hx
        cases hx
        rw [hbefore (i + 0) (by lia)]
        exact (update_self _ _ _).trans hb
      | succ r =>
        rw [getElem?_cons_succ] at hx
        have hshift : i + (r + 1) = i + 1 + r := by lia
        rw [hshift]
        exact hfound r x hx
    · intro j hj
      rw [hbefore j (by lia)]
      exact update_of_ne (Nat.ne_of_lt hj) _ _

variable (supply) in
/- The tree of height `k` below the inode, empty where no block was left to allocate. -/
def Stage (k : ℕ) (a a' : Alloc) (top : ℕ) (ds : List ℕ) (es : List (ℕ × ℕ)) : Prop :=
  Grown supply a a' ds es ∧ ds.length = min a.totalRemainingBlocks ((blksz / 4) ^ k) ∧
    ∀ r x, ds[r]? = some x → Found blksz supply a'.disk es k 1 top r (supply.number x)

theorem stage_empty (k : ℕ) (top : ℕ) (h : a.totalRemainingBlocks = 0) :
    Stage blksz supply k a a top [] [] :=
  ⟨Grown.refl a, by simp [h], by simp⟩

theorem Builds.stage {k : ℕ} {out : ℕ × Alloc} (h : Builds blksz supply k 1 a out) :
    ∃ ds es, Stage blksz supply k a out.2 out.1 ds es := by
  obtain ⟨-, ds, es, hgrown, hlen, hfound⟩ := h
  exact ⟨ds, es, hgrown, hlen, hfound⟩

section Stages

variable {blksz} (supply) (hq : 0 < blksz / 4) (inode : Inode) (a : Alloc)

include hq

theorem allocSingle_stage :
    ∃ ds es, Stage blksz supply 1 a (allocSingleIndirectBlock blksz supply inode a).2
        (allocSingleIndirectBlock blksz supply inode a).1.indirBlock ds es ∧
      (allocSingleIndirectBlock blksz supply inode a).1.dirBlocks = inode.dirBlocks := by
  rw [allocSingleIndirectBlock]
  by_cases hzero : a.totalRemainingBlocks = 0
  · rw [if_neg (not_not_intro hzero)]
    exact ⟨[], [], stage_empty blksz 1 _ hzero, rfl⟩
  · rw [if_pos hzero]
    obtain ⟨ds, es, hstage⟩ := (newIndirect_builds hq
      (fun a ha => newData_builds blksz supply 2 ha) hzero).stage
    exact ⟨ds, es, hstage, rfl⟩

theorem allocDouble_stage :
    ∃ ds es, Stage blksz supply 2 a (allocDoubleIndirectBlock blksz supply inode a).2
        (allocDoubleIndirectBlock blksz supply inode a).1.doubleIndirBlock ds es ∧
      (allocDoubleIndirectBlock blksz supply inode a).1.dirBlocks = inode.dirBlocks ∧
      (allocDoubleIndirectBlock blksz supply inode a).1.indirBlock = inode.indirBlock := by
  rw [allocDoubleIndirectBlock]
  by_cases hzero : a.totalRemainingBlocks = 0
  · rw [if_neg (not_not_intro hzero)]
    exact ⟨[], [], stage_empty blksz 2 _ hzero, rfl, rfl⟩
  · rw [if_pos hzero]
    obtain ⟨ds, es, hstage⟩ := (newIndirect_builds hq (fun a ha =>
      newIndirect_builds hq (fun a ha => newData_builds blksz supply 3 ha) ha) hzero).stage
    exact ⟨ds, es, hstage, rfl, rfl⟩

theorem allocTriple_stage :
    ∃ ds es, Stage blksz supply 3 a (allocTripleIndirectBlock blksz supply inode a).2
        (allocTripleIndirectBlock blksz supply inode a).1.tripleIndirBlock ds es ∧
      (allocTripleIndirectBlock blksz supply inode a).1.dirBlocks = inode.dirBlocks ∧
      (allocTripleIndirectBlock blksz supply inode a).1.indirBlock = inode.indirBlock ∧
      (allocTripleIndirectBlock blksz supply inode a).1.doubleIndirBlock =
        inode.doubleIndirBlock := by
  rw [allocTripleIndirectBlock]
  by_cases hzero : a.totalRemainingBlocks = 0
  · rw [if_neg (not_not_intro hzero)]
    exact ⟨[], [], stage_empty blksz 3 _ hzero, rfl, rfl, rfl⟩
  · rw [if_pos hzero]
    obtain ⟨ds, es, hstage⟩ := (newIndirect_builds hq (fun a ha =>
      newIndirect_builds hq (fun a ha =>
        newIndirect_builds hq (fun a ha => newData_builds blksz supply 4 ha) ha) ha) hzero).stage
    exact ⟨ds, es, hstage, rfl, rfl, rfl⟩

end Stages

variable (supply) in
/- Block `b` is found at index `i`. -/
def Placed (inode : Inode) (disk : ℕ → ℕ → ℕ) (es : List (ℕ × ℕ)) (i b : ℕ) : Prop :=
  if i < indirectBlocks then inode.dirBlocks i = b
  else if i < indirectBlocks + blksz / 4 then
    Found blksz supply disk es 1 1 inode.indirBlock (i - indirectBlocks) b
  else if i < indirectBlocks + blksz / 4 * (blksz / 4 + 1) then
    Found blksz supply disk es 2 1 inode.doubleIndirBlock (i - (indirectBlocks + blksz / 4)) b
  else
    Found blksz supply disk es 3 1 inode.tripleIndirBlock
      (i - (indirectBlocks + blksz / 4 * (blksz / 4 + 1))) b

def blockLimit : ℕ := indirectBlocks + (blksz / 4) ^ 1 + (blksz / 4) ^ 2 + (blksz / 4) ^ 3

variable (supply) in
theorem allocate_spec (hq : 0 < blksz / 4) (inode : Inode) (disk : ℕ → ℕ → ℕ) (n : ℕ) :
    ∃ out, ext4fsAllocateBlocks blksz supply inode disk n = out ∧
      Grown supply ⟨0, disk, n, 0, [], []⟩ out.2 out.2.data out.2.indirect ∧
      out.2.data.length = min n (blockLimit blksz) ∧
      ∀ i x, out.2.data[i]? = some x →
        Placed blksz supply out.1 out.2.disk out.2.indirect i (supply.number x) := by
  rw [ext4fsAllocateBlocks]
  obtain ⟨ds₀, hgrown₀, hlen₀, hfound₀, -⟩ := allocDirect_spec supply indirectBlocks 0
    inode ⟨0, disk, n, 0, [], []⟩
  generalize allocDirect supply indirectBlocks 0 inode _ = out₀ at hgrown₀ hfound₀ ⊢
  obtain ⟨inode₀, a₀⟩ := out₀
  dsimp only at hgrown₀ hfound₀ hlen₀ ⊢
  obtain ⟨ds₁, es₁, ⟨hgrown₁, hlen₁, hfound₁⟩, hdir₁⟩ := allocSingle_stage supply hq inode₀ a₀
  generalize allocSingleIndirectBlock blksz supply inode₀ a₀ = out₁ at hgrown₁ hfound₁ hdir₁ ⊢
  obtain ⟨inode₁, a₁⟩ := out₁
  dsimp only at hgrown₁ hfound₁ hdir₁ ⊢
  obtain ⟨ds₂, es₂, ⟨hgrown₂, hlen₂, hfound₂⟩, hdir₂, hind₂⟩ := allocDouble_stage
    supply hq inode₁ a₁
  generalize allocDoubleIndirectBlock blksz supply inode₁ a₁ = out₂ at hgrown₂ hfound₂ hdir₂ hind₂ ⊢
  obtain ⟨inode₂, a₂⟩ := out₂
  dsimp only at hgrown₂ hfound₂ hdir₂ hind₂ ⊢
  obtain ⟨ds₃, es₃, ⟨hgrown₃, hlen₃, hfound₃⟩, hdir₃, hind₃, hdouble₃⟩ := allocTriple_stage
    supply hq inode₂ a₂
  generalize allocTripleIndirectBlock blksz supply inode₂ a₂ = out₃
    at hgrown₃ hfound₃ hdir₃ hind₃ hdouble₃ ⊢
  obtain ⟨inode₃, a₃⟩ := out₃
  dsimp only at hgrown₃ hfound₃ hdir₃ hind₃ hdouble₃ ⊢
  have hgrown := ((hgrown₀.trans hgrown₁).trans hgrown₂).trans hgrown₃
  have hdata : a₃.data = ds₀ ++ ds₁ ++ ds₂ ++ ds₃ := hgrown.data
  have hindirect : a₃.indirect = [] ++ es₁ ++ es₂ ++ es₃ := hgrown.indirect
  have hrem₀ := hgrown₀.remaining
  have hrem₁ := hgrown₁.remaining
  have hrem₂ := hgrown₂.remaining
  dsimp only at hrem₀
  refine ⟨_, rfl, ?_, ?_, ?_⟩
  · rw [← hdata, ← hindirect] at hgrown
    exact hgrown
  · rw [hdata]
    simp only [length_append, blockLimit]
    lia
  · -- all of a part before the next one begins
    intro i x hx
    rw [hdata] at hx
    have hlt : i < (ds₀ ++ ds₁ ++ ds₂ ++ ds₃).length := (List.getElem?_eq_some_iff.mp hx).1
    simp only [length_append] at hlt
    have h₁₃ := hgrown₂.trans hgrown₃
    have hsum : blksz / 4 * (blksz / 4 + 1) = blksz / 4 + (blksz / 4) ^ 2 := by ring
    have hes₁ : ∀ e ∈ es₁, e ∈ a₃.indirect := fun e he => by simp [hindirect, he]
    have hes₂ : ∀ e ∈ es₂, e ∈ a₃.indirect := fun e he => by simp [hindirect, he]
    have hes₃ : ∀ e ∈ es₃, e ∈ a₃.indirect := fun e he => by simp [hindirect, he]
    rw [Placed, hsum]
    by_cases hi₀ : i < indirectBlocks
    · rw [if_pos hi₀, hdir₃, hdir₂, hdir₁]
      rw [append_assoc, append_assoc, getElem?_append_left (by lia)] at hx
      have h := hfound₀ i x hx
      rw [Nat.zero_add] at h
      exact h
    rw [if_neg hi₀]
    by_cases hi₁ : i < indirectBlocks + blksz / 4
    · rw [if_pos hi₁, hind₃, hind₂]
      rw [append_assoc, append_assoc, getElem?_append_right (by lia),
        getElem?_append_left (by lia)] at hx
      have hlen : ds₀.length = indirectBlocks := by lia
      rw [hlen] at hx
      exact (hfound₁ _ x hx).mono (fun e he => hgrown₁.disk_kept h₁₃ he) hes₁
    rw [if_neg hi₁]
    by_cases hi₂ : i < indirectBlocks + (blksz / 4 + (blksz / 4) ^ 2)
    · rw [if_pos hi₂, hdouble₃]
      rw [append_assoc, getElem?_append_right (by rw [length_append]; lia),
        getElem?_append_left (by rw [length_append]; lia), length_append] at hx
      have hlen : ds₀.length + ds₁.length = indirectBlocks + blksz / 4 := by lia
      rw [hlen] at hx
      exact (hfound₂ _ x hx).mono (fun e he => hgrown₂.disk_kept hgrown₃ he) hes₂
    · rw [if_neg hi₂]
      rw [getElem?_append_right (by simp only [length_append]; lia)] at hx
      simp only [length_append] at hx
      have hlen : ds₀.length + ds₁.length + ds₂.length =
          indirectBlocks + (blksz / 4 + (blksz / 4) ^ 2) := by lia
      rw [hlen] at hx
      exact (hfound₃ _ x hx).mono (fun _ _ => rfl) hes₃

def countingSupply : Supply :=
  ⟨fun k => k + 1, fun _ _ h => Nat.succ_injective h, fun k => Nat.succ_ne_zero k⟩

/- The calls of an allocation of `n` blocks that get the indirect blocks, with their depths. -/
def indirectCalls (n : ℕ) : List (ℕ × ℕ) :=
  (ext4fsAllocateBlocks blksz countingSupply ⟨fun _ => 0, 0, 0, 0⟩ (fun _ _ => 0) n).2.indirect

/- Allocations at the same point, whatever the numbers and the disk are. -/
structure SameShape (a a' : Alloc) : Prop where
  calls : a'.calls = a.calls
  remaining : a'.totalRemainingBlocks = a.totalRemainingBlocks
  indirect : a'.indirect = a.indirect

section Shape

variable (supply supply' : Supply)

theorem newData_shape {a a' : Alloc} (h : SameShape a a') :
    SameShape (newData supply a).2 (newData supply' a').2 := by
  refine ⟨?_, ?_, h.indirect⟩
  · simp only [newData, h.calls]
  · simp only [newData, h.remaining]

theorem fillWords_shape {sub sub' : Alloc → ℕ × Alloc}
    (hsub : ∀ {a a'}, SameShape a a' → SameShape (sub a).2 (sub' a').2) :
    ∀ (c : ℕ) {a a' : Alloc}, SameShape a a' →
      SameShape (fillWords sub c a).2 (fillWords sub' c a').2 := by
  intro c
  induction c with
  | zero => exact fun h => h
  | succ c ih =>
    intro a a' h
    have hone := hsub h
    rw [fillWords, fillWords]
    generalize sub a = out at hone ⊢
    generalize sub' a' = out' at hone ⊢
    obtain ⟨b, a₁⟩ := out
    obtain ⟨b', a₁'⟩ := out'
    dsimp only at hone ⊢
    rw [hone.remaining]
    split
    · exact hone
    · exact ih hone

theorem newIndirect_shape (depth : ℕ) {sub sub' : Alloc → ℕ × Alloc}
    (hsub : ∀ {a a'}, SameShape a a' → SameShape (sub a).2 (sub' a').2) {a a' : Alloc}
    (h : SameShape a a') :
    SameShape (newIndirect blksz supply depth sub a).2 (newIndirect blksz supply' depth sub' a').2 := by
  have hstart : SameShape
      { a with
        calls := a.calls + 1
        noBlksReqd := a.noBlksReqd + 1
        indirect := a.indirect ++ [(depth, a.calls)] }
      { a' with
        calls := a'.calls + 1
        noBlksReqd := a'.noBlksReqd + 1
        indirect := a'.indirect ++ [(depth, a'.calls)] } :=
    ⟨by rw [h.calls], h.remaining, by rw [h.indirect, h.calls]⟩
  have hfill := fillWords_shape hsub (blksz / 4) hstart
  exact ⟨hfill.calls, hfill.remaining, hfill.indirect⟩

theorem allocDirect_shape : ∀ (m i : ℕ) (inode inode' : Inode) {a a' : Alloc}, SameShape a a' →
    SameShape (allocDirect supply m i inode a).2 (allocDirect supply' m i inode' a').2 := by
  intro m
  induction m with
  | zero => exact fun _ _ _ _ _ h => h
  | succ m ih =>
    intro i inode inode' a a' h
    rw [allocDirect, allocDirect, h.remaining]
    split
    · exact h
    · exact ih _ _ _ (newData_shape supply supply' h)

theorem stage_shape {a a' out out' : Alloc} {tree tree' : ℕ × Alloc} (h : SameShape a a')
    (hout : out = if a.totalRemainingBlocks ≠ 0 then tree.2 else a)
    (hout' : out' = if a'.totalRemainingBlocks ≠ 0 then tree'.2 else a')
    (htree : SameShape tree.2 tree'.2) : SameShape out out' := by
  rw [hout, hout', h.remaining]
  split
  · exact htree
  · exact h

theorem allocate_indirect (inode : Inode) (disk : ℕ → ℕ → ℕ) (n : ℕ) :
    (ext4fsAllocateBlocks blksz supply inode disk n).2.indirect = indirectCalls blksz n := by
  have hsingle : ∀ (supply : Supply) inode a, (allocSingleIndirectBlock blksz supply inode a).2 =
      if a.totalRemainingBlocks ≠ 0 then (newIndirect blksz supply 1 (newData supply) a).2
      else a := by
    intro supply inode a
    rw [allocSingleIndirectBlock]
    split <;> rfl
  have hdouble : ∀ (supply : Supply) inode a, (allocDoubleIndirectBlock blksz supply inode a).2 =
      if a.totalRemainingBlocks ≠ 0 then
        (newIndirect blksz supply 1 (newIndirect blksz supply 2 (newData supply)) a).2
      else a := by
    intro supply inode a
    rw [allocDoubleIndirectBlock]
    split <;> rfl
  have htriple : ∀ (supply : Supply) inode a, (allocTripleIndirectBlock blksz supply inode a).2 =
      if a.totalRemainingBlocks ≠ 0 then
        (newIndirect blksz supply 1
          (newIndirect blksz supply 2 (newIndirect blksz supply 3 (newData supply))) a).2
      else a := by
    intro supply inode a
    rw [allocTripleIndirectBlock]
    split <;> rfl
  have hdata : ∀ {a a'}, SameShape a a' →
      SameShape (newData countingSupply a).2 (newData supply a').2 :=
    fun h => newData_shape _ _ h
  have hstart : SameShape ⟨0, fun _ _ => 0, n, 0, [], []⟩ ⟨0, disk, n, 0, [], []⟩ :=
    ⟨rfl, rfl, rfl⟩
  have h₀ := allocDirect_shape countingSupply supply indirectBlocks 0 ⟨fun _ => 0, 0, 0, 0⟩ inode
    hstart
  rw [indirectCalls, ext4fsAllocateBlocks, ext4fsAllocateBlocks]
  generalize allocDirect countingSupply _ _ _ _ = out at h₀ ⊢
  generalize allocDirect supply _ _ _ _ = out' at h₀ ⊢
  obtain ⟨i₀, a₀⟩ := out
  obtain ⟨i₀', a₀'⟩ := out'
  have h₁ := stage_shape h₀ (hsingle _ i₀ _) (hsingle _ i₀' _)
    (newIndirect_shape blksz _ _ 1 hdata h₀)
  dsimp only
  generalize allocSingleIndirectBlock blksz countingSupply i₀ a₀ = out at h₁ ⊢
  generalize allocSingleIndirectBlock blksz supply i₀' a₀' = out' at h₁ ⊢
  obtain ⟨i₁, a₁⟩ := out
  obtain ⟨i₁', a₁'⟩ := out'
  have h₂ := stage_shape h₁ (hdouble _ i₁ _) (hdouble _ i₁' _)
    (newIndirect_shape blksz _ _ 1 (newIndirect_shape blksz _ _ 2 hdata) h₁)
  dsimp only
  generalize allocDoubleIndirectBlock blksz countingSupply i₁ a₁ = out at h₂ ⊢
  generalize allocDoubleIndirectBlock blksz supply i₁' a₁' = out' at h₂ ⊢
  obtain ⟨i₂, a₂⟩ := out
  obtain ⟨i₂', a₂'⟩ := out'
  have h₃ := stage_shape h₂ (htriple _ i₂ _) (htriple _ i₂' _)
    (newIndirect_shape blksz _ _ 1
      (newIndirect_shape blksz _ _ 2 (newIndirect_shape blksz _ _ 3 hdata)) h₂)
  exact h₃.indirect

end Shape

end UBoot.Ext4
