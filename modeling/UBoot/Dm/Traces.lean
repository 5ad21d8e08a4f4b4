import UBoot.Dm.Truth

/-!
# What failed calls leave behind

`device_unbind` with the platform data, and what a `device_bind` or a `device_unbind` that fails has
changed.
-/

namespace UBoot.Dm

open List Option

structure Platdata where
  -- the pointers of the device; `none` is NULL
  platdata : Option ℕ
  uclassPlatdata : Option ℕ
  parentPlatdata : Option ℕ
  -- DM_FLAG_ALLOC_PDATA, DM_FLAG_ALLOC_UCLASS_PDATA and DM_FLAG_ALLOC_PARENT_PDATA
  allocPdata : Bool
  allocUclassPdata : Bool
  allocParentPdata : Bool
deriving DecidableEq, Repr

def Platdata.free (p : Platdata) : Platdata :=
  { p with
    platdata := if p.allocPdata then none else p.platdata
    uclassPlatdata := if p.allocUclassPdata then none else p.uclassPlatdata
    parentPlatdata := if p.allocParentPdata then none else p.parentPlatdata }

structure PlatState where
  state : State
  plat : ℕ → Platdata

def PlatState.freePlatdata (s : PlatState) (d : ℕ) : PlatState :=
  { s with plat := Function.update s.plat d (s.plat d).free }

theorem freePlatdata_self (s : PlatState) (d : ℕ) : (s.freePlatdata d).plat d = (s.plat d).free :=
  Function.update_self _ _ _

theorem freePlatdata_ne (s : PlatState) {d e : ℕ} (h : e ≠ d) : (s.freePlatdata d).plat e = s.plat e := Function.update_of_ne h _ _

section Unbind

variable (answers : ℕ → ℤ)

def chldUnbindPlat (unbind : PlatState → ℕ → Option (ℤ × PlatState)) :
    PlatState → List ℕ → Option (ℤ × PlatState)
  | s, [] => some (0, s)
  | s, c :: cs =>
    match unbind s c with
    | none => none
    | some (ret, s₁) =>
      match chldUnbindPlat unbind s₁ cs with
      | none => none
      | some (ret', s₂) => some (if ret ≠ 0 then ret else ret', s₂)

def deviceUnbindPlat : ℕ → PlatState → ℕ → Option (ℤ × PlatState)
  | 0, _, _ => none
  | fuel + 1, s, d =>
    if (s.state.core.dev d).activated then some (einval, s)
    else if (s.state.core.dev d).bound = false then some (einval, s)
    else
      let (ret, s₁) := ask answers s.state .unbind d
      if ret ≠ 0 then some (ret, ⟨s₁, s.plat⟩)
      else
        match chldUnbindPlat (deviceUnbindPlat fuel) ⟨s₁, s.plat⟩ (s₁.core.children d) with
        | none => none
        | some (ret, s₂) =>
          if ret ≠ 0 then some (ret, s₂)
          else
            let s₂ := s₂.freePlatdata d
            let (ret, s₃) := uclassUnbindDevice answers s₂.state d
            if ret ≠ 0 then some (ret, ⟨s₃, s₂.plat⟩)
            else some (0, ⟨s₃.setCore ((s₃.core.unlinkParent d).setBound d false), s₂.plat⟩)

end Unbind

def forget (r : ℤ × PlatState) : ℤ × State := (r.1, r.2.state)

section Forget

variable {answers : ℕ → ℤ}

theorem chldUnbindPlat_forget {unbind : PlatState → ℕ → Option (ℤ × PlatState)}
    {unbind' : State → ℕ → Option (ℤ × State)}
    (h : ∀ s c, (unbind s c).map forget = unbind' s.state c) (cs : List ℕ) :
    ∀ s, (chldUnbindPlat unbind s cs).map forget = chldUnbind unbind' s.state cs := by
  induction cs with
  | nil => exact fun _ => rfl
  | cons c cs ih =>
    intro s
    rw [chldUnbindPlat, chldUnbind, ← h s c]
    cases unbind s c with
    | none => rfl
    | some r =>
      obtain ⟨ret, s₁⟩ := r
      simp only [map_some, forget]
      rw [← ih s₁]
      cases chldUnbindPlat unbind s₁ cs with
      | none => rfl
      | some r => rfl

theorem deviceUnbindPlat_forget (fuel : ℕ) : ∀ (s : PlatState) (d : ℕ),
    (deviceUnbindPlat answers fuel s d).map forget = deviceUnbind answers fuel s.state d := by
  induction fuel with
  | zero => exact fun _ _ => rfl
  | succ fuel ih =>
    intro s d
    rw [deviceUnbindPlat, deviceUnbind]
    split
    · rfl
    split
    · rfl
    simp only [ask]
    split
    · rfl
    · rw [← chldUnbindPlat_forget ih _ ⟨s.state.called .unbind d (answers s.state.calls), s.plat⟩]
      cases chldUnbindPlat (deviceUnbindPlat answers fuel) ⟨_, s.plat⟩
          ((s.state.called .unbind d _).core.children d) with
      | none => rfl
      | some r =>
        obtain ⟨ret, s₂⟩ := r
        simp only [map_some, forget]
        split
        · rfl
        · simp only [PlatState.freePlatdata]
          by_cases hpre : (uclassUnbindDevice answers s₂.state d).1 = 0
          · simp only [hpre, ne_eq, not_true_eq_false, if_false, map_some, forget]
          · simp only [hpre, ne_eq, not_false_eq_true, if_true, map_some, forget]

end Forget

/- The device owns platform data: memory allocated for it that is there. -/
def Platdata.Owned (p : Platdata) : Prop :=
  p.allocPdata = true ∧ p.platdata ≠ none ∨
    p.allocUclassPdata = true ∧ p.uclassPlatdata ≠ none ∨
    p.allocParentPdata = true ∧ p.parentPlatdata ≠ none

theorem free_eq_iff (p : Platdata) : p.free = p ↔ ¬ p.Owned := by
  obtain ⟨a, b, c, fa, fb, fc⟩ := p
  cases fa <;> cases fb <;> cases fc <;> simp [Platdata.free, Platdata.Owned, eq_comm]

def KeptAll (d : ℕ) (ret : ℤ) (s s' : PlatState) : Prop :=
  ret ≠ 0 → d ∈ s'.state.core.members (s.state.core.dev d).uclass ∧
    (∀ p, (s.state.core.dev d).parent = some p → d ∈ s'.state.core.children p) ∧
    s'.plat d = s.plat d

/- `pre_unbind` of the device succeeds, unless it owns no platform data. -/
def Parted (d : ℕ) (s : PlatState) (evs : List Event) : Prop :=
  ∀ a, Event.call .preUnbind d a ∈ evs → a = 0 ∨ ¬ (s.plat d).Owned

structure Parts (d : ℕ) (s s' : PlatState) (evs : List Event) : Prop where
  events : s'.state.events = s.state.events ++ evs
  near : From d evs
  plat : ∀ e < d, s'.plat e = s.plat e
  core : Unbinds d s.state.core s'.state.core

section Unbinding

variable {answers : ℕ → ℤ}

variable {d : ℕ} {s s' : PlatState}

theorem Parts.mono {c : ℕ} {evs : List Event} (h : Parts c s s' evs) (hd : d ≤ c) : Parts d s s' evs :=
  ⟨h.events, h.near.mono hd, fun e he => h.plat e (lt_of_lt_of_le he hd), h.core.mono hd⟩

theorem Parts.trans {s₁ s₂ : PlatState} {evs evs' : List Event} (h : Parts d s s₁ evs)
    (h' : Parts d s₁ s₂ evs') : Parts d s s₂ (evs ++ evs') :=
  ⟨by rw [h'.events, h.events, append_assoc], h.near.append h'.near,
    fun e he => (h'.plat e he).trans (h.plat e he), h.core.trans h'.core⟩

variable {n : ℕ}

theorem chldUnbindPlat_parts {unbind : PlatState → ℕ → Option (ℤ × PlatState)}
    (hunbind : ∀ {s s' : PlatState} {c : ℕ} {ret : ℤ}, Inv s.state.core → s.state.core.next = n →
      d < c → c < n → unbind s c = some (ret, s') → ∃ evs, Parts c s s' evs) (cs : List ℕ) :
    ∀ {s s' : PlatState} {ret : ℤ}, Inv s.state.core → s.state.core.next = n →
      (∀ c ∈ cs, d < c ∧ c < n) → chldUnbindPlat unbind s cs = some (ret, s') →
      ∃ evs, Parts (d + 1) s s' evs := by
  induction cs with
  | nil =>
    intro s s' ret _ _ _ h
    cases h
    exact ⟨[], by simp, by simp [From], fun _ _ => rfl, Unbinds.refl _ _⟩
  | cons c cs ih =>
    intro s s' ret hinv hnext hcs h
    obtain ⟨hdc, hcn⟩ := hcs c mem_cons_self
    rw [chldUnbindPlat] at h
    cases hcall : unbind s c with
    | none =>
      rw [hcall] at h
      cases h
    | some r =>
      obtain ⟨ret₁, s₁⟩ := r
      obtain ⟨evs, hparts⟩ := hunbind hinv hnext hdc hcn hcall
      simp only [hcall] at h
      cases hloop : chldUnbindPlat unbind s₁ cs with
      | none =>
        rw [hloop] at h
        cases h
      | some r =>
        obtain ⟨ret₂, s₂⟩ := r
        obtain ⟨evs', hrest⟩ := ih (hparts.core.inv hinv) (hparts.core.next.trans hnext)
          (fun e he => hcs e (mem_cons_of_mem _ he)) hloop
        simp only [hloop, some.injEq, Prod.mk.injEq] at h
        rw [← h.2]
        exact ⟨evs ++ evs', (hparts.mono hdc).trans hrest⟩

theorem unbindPlat_unbinds {fuel : ℕ} {ret : ℤ} (hinv : Inv s.state.core)
    (hnext : s.state.core.next = n) (hdn : d < n) (hfuel : n - d < fuel)
    (h : deviceUnbindPlat answers fuel s d = some (ret, s')) : Unbinds d s.state.core s'.state.core := by
  obtain ⟨ret', s'', hcall, hun, -⟩ := deviceUnbind_spec answers hinv hnext hdn hfuel
  rw [← deviceUnbindPlat_forget, h] at hcall
  cases hcall
  exact hun

theorem keptAll_iff {ret : ℤ} (hinv : Inv s'.state.core)
    (hdev : s'.state.core.dev d = s.state.core.dev d) (hbound : (s.state.core.dev d).bound = true) :
    KeptAll d ret s s' ↔ (ret ≠ 0 → s'.plat d = s.plat d) := by
  refine forall_congr' fun _ => ⟨fun h => h.2.2, fun h => ⟨?_, fun p hp => ?_, h⟩⟩
  · rw [hinv.linked.mem, hdev]
    exact ⟨hbound, rfl⟩
  · rw [hinv.linked.child, hdev]
    exact ⟨hbound, hp⟩

theorem deviceUnbindPlat_parts (fuel : ℕ) : ∀ {s s' : PlatState} {d : ℕ} {ret : ℤ},
    Inv s.state.core → s.state.core.next = n → d < n → n - d < fuel →
    deviceUnbindPlat answers fuel s d = some (ret, s') →
    ∃ evs, Parts d s s' evs ∧
      ((s.state.core.dev d).bound = true → (KeptAll d ret s s' ↔ Parted d s evs)) := by
  induction fuel with
  | zero =>
    intro s s' d ret _ _ _ hfuel
    omega
  | succ fuel ih =>
    intro s s' d ret hinv hnext hdn hfuel h
    have hcore := unbindPlat_unbinds hinv hnext hdn hfuel h
    have hself : Inv s'.state.core := hcore.inv hinv
    rw [deviceUnbindPlat] at h
    by_cases hact : (s.state.core.dev d).activated = true
    · rw [if_pos hact] at h
      cases h
      refine ⟨[], ⟨by simp, by simp [From], fun _ _ => rfl, hcore⟩, fun hbound => ?_⟩
      rw [keptAll_iff (s := s) hself rfl hbound]
      simp [Parted]
    rw [if_neg hact] at h
    by_cases hun : (s.state.core.dev d).bound = false
    · rw [if_pos hun] at h
      cases h
      refine ⟨[], ⟨by simp, by simp [From], fun _ _ => rfl, hcore⟩, fun hbound => ?_⟩
      rw [hun] at hbound
      cases hbound
    rw [if_neg hun] at h
    simp only [ask] at h
    by_cases hhook : answers s.state.calls = 0
    swap
    · simp only [ne_eq, hhook, not_false_eq_true, if_true] at h
      cases h
      refine ⟨[.call .unbind d _], ⟨rfl, from_call _ _ _, fun _ _ => rfl, hcore⟩, fun hbound => ?_⟩
      rw [keptAll_iff (s := s) hself rfl hbound]
      simp [Parted]
    simp only [hhook, ne_eq, not_true_eq_false, if_false, called_core] at h
    cases hloop : chldUnbindPlat (deviceUnbindPlat answers fuel)
        ⟨s.state.called .unbind d 0, s.plat⟩ (s.state.core.children d) with
    | none =>
      rw [hloop] at h
      cases h
    | some r =>
      obtain ⟨ret₂, s₂⟩ := r
      have hchild : ∀ c ∈ s.state.core.children d, d < c ∧ c < n := by
        intro c hc
        obtain ⟨hb, hp⟩ := (hinv.linked.child d c).mp hc
        exact ⟨(hinv.linked.older c d hb hp).1, hnext ▸ hinv.linked.lt c hb⟩
      obtain ⟨evs, hparts⟩ := chldUnbindPlat_parts (d := d) (n := n)
        (s := ⟨s.state.called .unbind d 0, s.plat⟩) (fun hi hn hdc hcn hc => by
          obtain ⟨evs, hparts, -⟩ := ih hi hn hcn (by omega) hc
          exact ⟨evs, hparts⟩) _ hinv hnext hchild hloop
      have hdev : s₂.state.core.dev d = s.state.core.dev d := hparts.core.before d (Nat.lt_succ_self d)
      have hplat : s₂.plat d = s.plat d := hparts.plat d (Nat.lt_succ_self d)
      have hevents : s₂.state.events = s.state.events ++ .call .unbind d 0 :: evs := by
        rw [hparts.events]
        exact append_assoc _ [_] _
      have hnear : From d (.call .unbind d 0 :: evs) :=
        (from_call _ _ _).append (hparts.near.mono (Nat.le_succ d))
      simp only [hloop] at h
      by_cases hret₂ : ret₂ = 0
      swap
      · simp only [hret₂, not_false_eq_true, if_true] at h
        cases h
        refine ⟨_, ⟨hevents, hnear, fun e he => hparts.plat e (Nat.lt_succ_of_lt he), hcore⟩,
          fun hbound => ?_⟩
        rw [keptAll_iff hself hdev hbound]
        have hnot := fun a => hparts.near.not_mem .preUnbind a
        simp [Parted, hplat, hnot]
      simp only [hret₂, not_true_eq_false, if_false, uclassUnbindDevice, ask] at h
      have hfreed : ∀ e < d, (s₂.freePlatdata d).plat e = s.plat e := by
        intro e he
        rw [freePlatdata_ne s₂ (Nat.ne_of_lt he)]
        exact hparts.plat e (Nat.lt_succ_of_lt he)
      have hparted : ∀ a, Parted d s (.call .unbind d 0 :: evs ++ [.call .preUnbind d a]) ↔
          (a = 0 ∨ ¬ (s.plat d).Owned) := by
        intro a
        have hnot := fun a => hparts.near.not_mem .preUnbind a
        simp [Parted, hnot]
      by_cases hpre : answers (s₂.freePlatdata d).state.calls = 0
      · simp only [hpre, ne_eq, not_true_eq_false, if_false] at h
        cases h
        refine ⟨.call .unbind d 0 :: evs ++ [.call .preUnbind d 0], ⟨?_, hnear.append
          (from_call _ _ _), hfreed, hcore⟩, fun _ => ?_⟩
        · rw [← append_assoc, ← hevents]
          rfl
        · rw [hparted]
          exact iff_of_true (fun h0 => absurd rfl h0) (.inl rfl)
      · simp only [ne_eq, hpre, not_false_eq_true, if_true] at h
        cases h
        refine ⟨.call .unbind d 0 :: evs ++ [.call .preUnbind d (answers s₂.state.calls)], ⟨?_,
          hnear.append (from_call _ _ _), hfreed, hcore⟩, fun hbound => ?_⟩
        · rw [← append_assoc, ← hevents]
          rfl
        · have hafter : (s₂.freePlatdata d).plat d = (s.plat d).free := by
            rw [freePlatdata_self, hplat]
          have hne : answers s₂.state.calls ≠ 0 := hpre
          rw [hparted, keptAll_iff hself hdev hbound, hafter, free_eq_iff]
          simp [hpre, hne]

end Unbinding

def NoTrace (k : Core) (ret : ℤ) (k' : Core) : Prop :=
  ret ≠ 0 → (∀ u, k'.members u = k.members u ∧ k.next ∉ k'.members u) ∧
    ∀ p, k'.children p = k.children p ∧ k.next ∉ k'.children p

theorem NoTrace.of_lists {k k' : Core} {ret : ℤ} (h : Linked k) (hmembers : k'.members = k.members)
    (hchildren : ∀ p, k'.children p = k.children p) : NoTrace k ret k' := by
  intro _
  constructor
  · intro u
    rw [hmembers]
    exact ⟨rfl, h.next_not_mem u⟩
  · intro p
    rw [hchildren]
    exact ⟨rfl, h.next_not_child p⟩

def Traced (k : Core) (s : State) (ret : ℤ) (s' : State) : Prop :=
  ∃ evs, s'.events = s.events ++ evs ∧ (NoTrace k ret s'.core ↔ Released evs)

/- No call of `pre_unbind`. -/
def Before (evs : List Event) : Prop := ∀ d a, Event.call .preUnbind d a ∉ evs

theorem Before.released {evs : List Event} (h : Before evs) : Released evs :=
  fun d a hmem => absurd hmem (h d a)

theorem before_call (hook : Hook) (d : ℕ) (a : ℤ) (h : hook ≠ .preUnbind) : Before [.call hook d a] := by
  intro e b hmem
  rw [mem_singleton] at hmem
  cases hmem
  exact h rfl

section Binding

variable {answers : ℕ → ℤ} {k : Core} {parent : Option ℕ} {uclass : ℕ} {reqSeq : ℤ}

variable {s : State} {ret : ℤ}

theorem Traced.after {s₁ s' : State} {evs : List Event} (h : s₁.events = s.events ++ evs)
    (hbefore : Before evs) (h' : Traced k s₁ ret s') : Traced k s ret s' := by
  obtain ⟨evs', hevs', htrace⟩ := h'
  refine ⟨evs ++ evs', by rw [hevs', h, append_assoc], htrace.trans ⟨fun hrel => ?_, fun hrel =>
    hrel.right⟩⟩
  intro d a hmem
  cases mem_append.mp hmem with
  | inl hmem => exact absurd hmem (hbefore d a)
  | inr hmem => exact hrel d a hmem

theorem traced_lists (h : Linked k) (hmembers : s.core.members = k.members)
    (hchildren : ∀ p, s.core.children p = k.children p) : Traced k s ret s :=
  ⟨[], by simp, iff_of_true (NoTrace.of_lists h hmembers hchildren) (by simp [Released])⟩

variable (answers) in
theorem askAll_before (d : ℕ) (hooks : List Hook) (hhooks : .preUnbind ∉ hooks) :
    ∀ s, ∃ evs, (askAll answers s d hooks).2.events = s.events ++ evs ∧ Before evs := by
  induction hooks with
  | nil => exact fun s => ⟨[], by simp [askAll], by simp [Before]⟩
  | cons hook hooks ih =>
    intro s
    obtain ⟨hne, hrest⟩ : Hook.preUnbind ≠ hook ∧ Hook.preUnbind ∉ hooks := by simpa using hhooks
    have hcall := fun a => before_call hook d a hne.symm
    rw [askAll]
    simp only [ask]
    by_cases h : answers s.calls = 0
    · simp only [h, ne_eq, not_true_eq_false, if_false]
      obtain ⟨evs, hevs, hbefore⟩ := ih hrest (s.called hook d 0)
      refine ⟨_, hevs.trans (append_assoc _ _ _), fun e b hmem => ?_⟩
      cases mem_append.mp hmem with
      | inl hmem => exact hcall 0 e b hmem
      | inr hmem => exact hbefore e b hmem
    · simp only [ne_eq, h, not_false_eq_true, if_true]
      exact ⟨_, rfl, hcall _⟩

variable (answers) in
theorem failBind_traced (h : Linked k) (hcore : s.core = k.enter parent uclass reqSeq)
    (hret : ret ≠ 0) : Traced k s ret (failBind answers s k.next) := by
  rw [failBind, uclassUnbindDevice]
  simp only [ask]
  by_cases hpre : answers s.calls = 0
  · simp only [hpre, ne_eq, not_true_eq_false, if_false]
    refine ⟨[.call .preUnbind k.next 0], rfl, iff_of_true ?_ (by simp [Released])⟩
    simp only [setCore_core, called_core, hcore]
    rw [enter_undo h]
    exact NoTrace.of_lists h rfl (allocate_children h)
  · simp only [ne_eq, hpre, not_false_eq_true, if_true]
    refine ⟨[.call .preUnbind k.next _], rfl, iff_of_false (fun htrace => ?_) fun hrel => ?_⟩
    · -- the uclass still has the device
      have hnot := ((htrace hret).1 uclass).2
      simp only [setCore_core, called_core, hcore, unlinkParent_members, enter_members] at hnot
      simp at hnot
    · exact hpre (hrel k.next _ (mem_singleton_self _))

variable (answers) in
theorem bindHooks_traced (h : Linked k) (hcore : s.core = k.enter parent uclass reqSeq) :
    Traced k s (bindHooks answers s k.next).1 (bindHooks answers s k.next).2 := by
  rw [bindHooks]
  simp only [ask]
  by_cases hbind : answers s.calls = 0
  swap
  · simp only [ne_eq, hbind, not_false_eq_true, if_true]
    exact Traced.after rfl (before_call _ _ _ (by decide)) (failBind_traced answers h hcore hbind)
  simp only [hbind, ne_eq, not_true_eq_false, if_false]
  generalize hpost : (if (s.core.dev k.next).parent.isSome = true then _ else _ : List Hook) = post
  have hhooks : Hook.preUnbind ∉ post := by
    rw [← hpost]
    split <;> decide
  obtain ⟨evs₂, hev₂, hbefore₂⟩ := askAll_before answers k.next post hhooks (s.called .bind k.next 0)
  have hcore₂ := askAll_core answers k.next post (s.called .bind k.next 0)
  generalize askAll answers (s.called .bind k.next 0) k.next post = asked at hev₂ hcore₂ ⊢
  obtain ⟨ret, s₂⟩ := asked
  dsimp only at hev₂ hcore₂ ⊢
  refine Traced.after rfl (before_call .bind k.next 0 (by decide))
    (Traced.after hev₂ hbefore₂ ?_)
  by_cases hret : ret = 0
  · simp only [hret, not_true_eq_false, if_false]
    exact ⟨[], by simp, iff_of_true (fun h0 => absurd rfl h0) (by simp [Released])⟩
  · simp only [hret, not_false_eq_true, if_true]
    exact Traced.after rfl (before_call _ _ _ (by decide))
      (failBind_traced answers h (hcore₂.trans hcore) hret)

variable (answers) (parent) (uclass) (reqSeq) in
theorem deviceBind_traced (h : Linked s.core) :
    Traced s.core s (deviceBind answers s parent uclass reqSeq).1
      (deviceBind answers s parent uclass reqSeq).2 := by
  rw [deviceBind]
  simp only [ask]
  by_cases hget : answers s.calls = 0
  swap
  · simp only [ne_eq, hget, not_false_eq_true, if_true]
    exact Traced.after rfl (before_call _ _ _ (by decide)) (traced_lists h rfl fun _ => rfl)
  simp only [hget, ne_eq, not_true_eq_false, if_false]
  generalize hs₁ : s.called .uclassGet s.core.next 0 = s₁
  have hev₁ : s₁.events = s.events ++ [.call .uclassGet s.core.next 0] := by rw [← hs₁]; rfl
  refine Traced.after hev₁ (before_call _ _ _ (by decide)) ?_
  have hcore₁ : s₁.core = s.core := by rw [← hs₁]; rfl
  obtain ⟨evs₂, hev₂, hbefore₂⟩ := askAll_before answers s.core.next
    [.alloc, .alloc, .alloc, .alloc] (by decide) s₁
  have hcore₂ := askAll_core answers s.core.next [.alloc, .alloc, .alloc, .alloc] s₁
  generalize askAll answers s₁ s.core.next [.alloc, .alloc, .alloc, .alloc] = asked at hev₂ hcore₂ ⊢
  obtain ⟨ret₂, s₂⟩ := asked
  dsimp only at hev₂ hcore₂ ⊢
  rw [hcore₁] at hcore₂
  refine Traced.after hev₂ hbefore₂ ?_
  by_cases hret₂ : ret₂ = 0
  swap
  · simp only [hret₂, not_false_eq_true, if_true]
    exact traced_lists h (by rw [hcore₂]) fun _ => by rw [hcore₂]
  simp only [hret₂, not_true_eq_false, if_false, hcore₂]
  generalize hs₃ : s₂.setCore (((s.core.allocate parent uclass reqSeq).linkParent
    s.core.next).linkUclass s.core.next) = s₃
  have hev₃ : s₃.events = s₂.events ++ [] := by rw [← hs₃]; simp
  have hcore₃ : s₃.core = s.core.enter parent uclass reqSeq := by rw [← hs₃]; rfl
  refine Traced.after hev₃ (by simp [Before]) ?_
  cases parent with
  | none =>
    simp only [isSome_none, Bool.false_eq_true, if_false, not_true_eq_false]
    exact bindHooks_traced answers h hcore₃
  | some p =>
    simp only [isSome_some, if_true]
    by_cases hpost : answers s₃.calls = 0
    · simp only [hpost, not_true_eq_false, if_false]
      exact Traced.after rfl (before_call _ _ _ (by decide)) (bindHooks_traced answers h hcore₃)
    · simp only [hpost, not_false_eq_true, if_true]
      have hbefore : Before [.call .uclassChildPostBind s.core.next (answers s₃.calls)] :=
        before_call _ _ _ (by decide)
      refine ⟨_, rfl, iff_of_true ?_ hbefore.released⟩
      rw [setCore_core, called_core, hcore₃, enter_undo h]
      exact NoTrace.of_lists h rfl (allocate_children h)

end Binding

theorem failed_calls_leave_no_trace (answers : ℕ → ℤ) {s : PlatState} (h : Inv s.state.core) :
    (∀ parent uclass reqSeq, ∃ ret s' evs,
      deviceBind answers s.state parent uclass reqSeq = (ret, s') ∧
        s'.events = s.state.events ++ evs ∧ (NoTrace s.state.core ret s'.core ↔ Released evs)) ∧
    ∀ d, (s.state.core.dev d).bound = true → ∃ ret s' evs,
      deviceUnbindPlat answers (s.state.core.next + 1) s d = some (ret, s') ∧
        s'.state.events = s.state.events ++ evs ∧ (KeptAll d ret s s' ↔ Parted d s evs) := by
  constructor
  · intro parent uclass reqSeq
    obtain ⟨evs, hevs, htrace⟩ := deviceBind_traced answers parent uclass reqSeq h.linked
    exact ⟨_, _, evs, rfl, hevs, htrace⟩
  · intro d hbound
    have hlt := h.linked.lt d hbound
    have hfuel : s.state.core.next - d < s.state.core.next + 1 := by omega
    obtain ⟨ret, s₁, hcall, -, -⟩ := deviceUnbind_spec answers h rfl hlt hfuel
    rw [← deviceUnbindPlat_forget] at hcall
    obtain ⟨⟨ret', s'⟩, hplat, -⟩ := map_eq_some_iff.mp hcall
    obtain ⟨evs, hparts, hkept⟩ := deviceUnbindPlat_parts _ h rfl hlt hfuel hplat
    exact ⟨ret', s', evs, hplat, hparts.events, hkept hbound⟩

def loneIdle : PlatState :=
  ⟨after (fun _ => 0) .empty (.bind none 0 (-1)), fun _ => ⟨some 1, none, none, true, false, false⟩⟩

theorem loneIdle_inv : Inv loneIdle.state.core := by
  have hlegal : Legal State.empty.core (.bind none 0 (-1)) := fun p hp => nomatch hp
  obtain ⟨ret, s', hstep, hinv⟩ := step_spec (fun _ => 0) empty_inv hlegal
  have hstate : loneIdle.state = s' := by
    rw [loneIdle, after, hstep]
    rfl
  rw [hstate]
  refine hinv ?_
  rw [← hstate]
  have hevs : news .empty loneIdle.state =
      [.call .uclassGet 0 0, .call .alloc 0 0, .call .alloc 0 0, .call .alloc 0 0,
        .call .alloc 0 0, .call .bind 0 0, .call .uclassPostBind 0 0] := by decide +kernel
  rw [hevs]
  simp [Clear, Released]

theorem loneIdle_no_trace : (loneIdle.state.core.dev 0).bound = true ∧
    ∃ ret s' evs, deviceUnbindPlat (fun _ => 0) 2 loneIdle 0 = some (ret, s') ∧
      s'.state.events = loneIdle.state.events ++ evs ∧
      (KeptAll 0 ret loneIdle s' ↔ Parted 0 loneIdle evs) :=
  ⟨rfl, (failed_calls_leave_no_trace (fun _ => 0) loneIdle_inv).2 0 rfl⟩

/- `post_bind` fails and `pre_unbind` behind it; `pre_unbind` fails in the unbinding. -/
theorem failed_calls_leave_traces :
    (∃ ret s', deviceBind (fun n => if n = 6 ∨ n = 8 then -5 else 0) .empty none 0 (-1) = (ret, s') ∧
      ¬ NoTrace State.empty.core ret s'.core) ∧
    Inv loneIdle.state.core ∧ (loneIdle.state.core.dev 0).bound = true ∧
      ∃ ret s', deviceUnbindPlat (fun n => if n = 8 then -5 else 0) 2 loneIdle 0 = some (ret, s') ∧
        ¬ KeptAll 0 ret loneIdle s' := by
  refine ⟨⟨_, _, rfl, fun h => ?_⟩, loneIdle_inv, rfl, _, _, rfl, fun h => ?_⟩
  · have hnot := ((h (by decide)).1 0).2
    exact absurd hnot (by decide +kernel)
  · have hplat := (h (by decide)).2.2
    exact absurd hplat (by decide +kernel)

end UBoot.Dm
