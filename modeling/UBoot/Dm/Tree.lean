import UBoot.Dm.Model

/-!
# The tree of devices

The invariant of the core and what each operation does to it. Hooks do not touch the core; what they
answer is kept in the events.
-/

namespace UBoot.Dm

open Function List

structure TreeOk (k : Core) : Prop where
  parent : ∀ d p, (k.dev d).activated = true → (k.dev d).parent = some p →
    (k.dev p).activated = true
  seq : ∀ d, (k.dev d).bound = true →
    if (k.dev d).activated = true then 0 ≤ (k.dev d).seq else (k.dev d).seq = -1
  unique : ∀ d e, (k.dev d).activated = true → (k.dev e).activated = true →
    (k.dev d).uclass = (k.dev e).uclass → (k.dev d).seq = (k.dev e).seq → d = e
  member : ∀ d, (k.dev d).bound = true → (k.members (k.dev d).uclass).count d = 1
  child : ∀ d p, (k.dev d).bound = true → (k.dev d).parent = some p → (k.children p).count d = 1

/- The lists hold the bound devices, and a parent is older than its children. -/
structure Linked (k : Core) : Prop where
  lt : ∀ d, (k.dev d).bound = true → d < k.next
  older : ∀ d p, (k.dev d).bound = true → (k.dev d).parent = some p → p < d ∧ (k.dev p).bound = true
  memNodup : ∀ u, (k.members u).Nodup
  mem : ∀ u d, d ∈ k.members u ↔ (k.dev d).bound = true ∧ (k.dev d).uclass = u
  childNodup : ∀ p, (k.children p).Nodup
  child : ∀ p d, d ∈ k.children p ↔ (k.dev d).bound = true ∧ (k.dev d).parent = some p

structure Running (k : Core) : Prop where
  bound : ∀ d, (k.dev d).activated = true → (k.dev d).bound = true
  parent : ∀ d p, (k.dev d).activated = true → (k.dev d).parent = some p →
    (k.dev p).activated = true
  seq : ∀ d, (k.dev d).bound = true →
    if (k.dev d).activated = true then 0 ≤ (k.dev d).seq else (k.dev d).seq = -1
  unique : ∀ d e, (k.dev d).activated = true → (k.dev e).activated = true →
    (k.dev d).uclass = (k.dev e).uclass → (k.dev d).seq = (k.dev e).seq → d = e

structure Inv (k : Core) : Prop where
  linked : Linked k
  running : Running k

variable {k : Core}

theorem Inv.treeOk (h : Inv k) : TreeOk k := by
  refine ⟨h.running.parent, h.running.seq, h.running.unique, ?_, ?_⟩
  · intro d hd
    exact count_eq_one_of_mem (h.linked.memNodup _) ((h.linked.mem _ d).mpr ⟨hd, rfl⟩)
  · intro d p hd hp
    exact count_eq_one_of_mem (h.linked.childNodup p) ((h.linked.child p d).mpr ⟨hd, hp⟩)

structure Stops (k k' : Core) : Prop where
  dev : ∀ d, k'.dev d = k.dev d ∨ k'.dev d = { k.dev d with activated := false, seq := -1 }
  children : k'.children = k.children
  members : k'.members = k.members
  next : k'.next = k.next

theorem Stops.refl (k : Core) : Stops k k := ⟨fun _ => .inl rfl, rfl, rfl, rfl⟩

theorem Stops.trans {k₁ k₂ k₃ : Core} (h : Stops k₁ k₂) (h' : Stops k₂ k₃) : Stops k₁ k₃ := by
  refine ⟨fun d => ?_, h'.children.trans h.children, h'.members.trans h.members,
    h'.next.trans h.next⟩
  cases h'.dev d with
  | inl h₂ =>
    rw [h₂]
    exact h.dev d
  | inr h₂ =>
    rw [h₂]
    cases h.dev d with
    | inl h₁ => exact .inr (by rw [h₁])
    | inr h₁ => exact .inr (by rw [h₁])

variable {k' : Core} {d : ℕ}

theorem Stops.active (h : Stops k k') (hd : (k'.dev d).activated = true) : k'.dev d = k.dev d := by
  cases h.dev d with
  | inl h => exact h
  | inr h =>
    rw [h] at hd
    cases hd

theorem Stops.inactive (h : Stops k k')
    (hd : (k.dev d).activated = false) : (k'.dev d).activated = false := by
  cases h.dev d with
  | inl h => rw [h, hd]
  | inr h => rw [h]

structure SameLinks (k k' : Core) : Prop where
  bound : ∀ d, (k'.dev d).bound = (k.dev d).bound
  parent : ∀ d, (k'.dev d).parent = (k.dev d).parent
  uclass : ∀ d, (k'.dev d).uclass = (k.dev d).uclass
  children : k'.children = k.children
  members : k'.members = k.members
  next : k'.next = k.next

theorem SameLinks.refl (k : Core) : SameLinks k k :=
  ⟨fun _ => rfl, fun _ => rfl, fun _ => rfl, rfl, rfl, rfl⟩

theorem SameLinks.trans {k₁ k₂ k₃ : Core} (h : SameLinks k₁ k₂) (h' : SameLinks k₂ k₃) :
    SameLinks k₁ k₃ :=
  ⟨fun d => (h'.bound d).trans (h.bound d), fun d => (h'.parent d).trans (h.parent d),
    fun d => (h'.uclass d).trans (h.uclass d), h'.children.trans h.children,
    h'.members.trans h.members, h'.next.trans h.next⟩

theorem SameLinks.linked (h : SameLinks k k') (hl : Linked k) : Linked k' := by
  refine ⟨?_, ?_, ?_, ?_, ?_, ?_⟩
  · intro d hd
    rw [h.next]
    exact hl.lt d (h.bound d ▸ hd)
  · intro d p hd hp
    rw [h.bound p]
    exact hl.older d p (h.bound d ▸ hd) (h.parent d ▸ hp)
  · rw [h.members]
    exact hl.memNodup
  · intro u d
    rw [h.members, h.bound d, h.uclass d]
    exact hl.mem u d
  · rw [h.children]
    exact hl.childNodup
  · intro p d
    rw [h.children, h.bound d, h.parent d]
    exact hl.child p d

theorem Stops.links (h : Stops k k') : SameLinks k k' := by
  refine ⟨fun d => ?_, fun d => ?_, fun d => ?_, h.children, h.members, h.next⟩
  all_goals
    cases h.dev d with
    | inl h => rw [h]
    | inr h => rw [h]

theorem Stops.linked (h : Stops k k') (hl : Linked k) : Linked k' := h.links.linked hl

theorem Stops.running (h : Stops k k') (hr : Running k)
    (hup : ∀ d p, (k'.dev d).activated = true → (k.dev d).parent = some p →
      (k'.dev p).activated = true) : Running k' := by
  refine ⟨?_, ?_, ?_, ?_⟩
  · intro d hd
    have hkd := h.active hd
    rw [hkd] at hd ⊢
    exact hr.bound d hd
  · intro d p hd hp
    exact hup d p hd (h.links.parent d ▸ hp)
  · intro d hd
    cases h.dev d with
    | inl heq =>
      rw [heq] at hd ⊢
      exact hr.seq d hd
    | inr heq =>
      rw [heq]
      simp
  · intro d e hd he hu hs
    have hkd := h.active hd
    have hke := h.active he
    rw [hkd] at hd hu hs
    rw [hke] at he hu hs
    exact hr.unique d e hd he hu hs

@[simp] theorem dev_setDev_self (k : Core) (d : ℕ) (u : Udevice) : (k.setDev d u).dev d = u :=
  update_self _ _ _

theorem dev_setDev_ne (k : Core) {e : ℕ} (u : Udevice) (h : e ≠ d) : (k.setDev d u).dev e = k.dev e := update_of_ne h _ _

theorem deactivate_stops (k : Core) (d : ℕ) : Stops k (k.deactivate d) := by
  refine ⟨fun e => ?_, rfl, rfl, rfl⟩
  by_cases he : e = d
  · subst he
    exact .inr (dev_setDev_self _ _ _)
  · exact .inl (dev_setDev_ne _ _ he)

def Idle (k : Core) (d : ℕ) : Prop := ∀ c ∈ k.children d, (k.dev c).activated = false

theorem Inv.deactivate (h : Inv k) (hidle : Idle k d) : Inv (k.deactivate d) := by
  have hstops := deactivate_stops k d
  refine ⟨hstops.linked h.linked, hstops.running h.running ?_⟩
  intro e p he hp
  have hke := hstops.active he
  rw [hke] at he
  have hpd : p ≠ d := by
    rintro rfl
    have hmem := (h.linked.child p e).mpr ⟨h.running.bound e he, hp⟩
    rw [hidle e hmem] at he
    cases he
  rw [Core.deactivate, dev_setDev_ne _ _ hpd]
  exact h.running.parent e p he hp

theorem Inv.idle (h : Inv k) (hd : (k.dev d).activated = false) : Idle k d := by
  intro c hc
  obtain ⟨-, hp⟩ := (h.linked.child d c).mp hc
  by_contra hact
  have hactive := h.running.parent c d (by simpa using hact) hp
  rw [hd] at hactive
  cases hactive

section Calls

variable {answers : ℕ → ℤ}

@[simp] theorem called_core (s : State) (hook : Hook) (d : ℕ) (a : ℤ) :
    (s.called hook d a).core = s.core := rfl

@[simp] theorem called_events (s : State) (hook : Hook) (d : ℕ) (a : ℤ) :
    (s.called hook d a).events = s.events ++ [.call hook d a] := rfl

@[simp] theorem setCore_core (s : State) (k : Core) : (s.setCore k).core = k := rfl

@[simp] theorem setCore_events (s : State) (k : Core) : (s.setCore k).events = s.events := rfl

/- All calls of a list of events are about devices from `d` on, in the sense of the tree. -/
def From (d : ℕ) (evs : List Event) : Prop := ∀ hook e a, Event.call hook e a ∈ evs → d ≤ e

/- `post_probe` fails where a removal that failed calls it, on devices other than `d`. -/
def Failing (d : ℕ) (evs : List Event) : Prop :=
  ∀ e a, Event.call .postProbe e a ∈ evs → e ≠ d → a ≠ 0

def AllFailing (evs : List Event) : Prop := ∀ e a, Event.call .postProbe e a ∈ evs → a ≠ 0

variable {evs evs' : List Event}

theorem AllFailing.left (h : AllFailing (evs ++ evs')) : AllFailing evs :=
  fun e a hmem => h e a (mem_append_left _ hmem)

theorem AllFailing.right (h : AllFailing (evs ++ evs')) : AllFailing evs' :=
  fun e a hmem => h e a (mem_append_right _ hmem)

variable {d : ℕ}

theorem From.append (h : From d evs) (h' : From d evs') : From d (evs ++ evs') := by
  intro hook e a hmem
  cases mem_append.mp hmem with
  | inl hmem => exact h hook e a hmem
  | inr hmem => exact h' hook e a hmem

theorem From.mono {c : ℕ} (h : From c evs) (hd : d ≤ c) : From d evs :=
  fun hook e a hmem => hd.trans (h hook e a hmem)

theorem from_call (hook : Hook) (d : ℕ) (a : ℤ) : From d [.call hook d a] := by
  intro hook' e a' hmem
  rw [mem_singleton] at hmem
  cases hmem
  exact le_rfl

/- What `device_remove` does to a device of the tree. -/
structure Removed (s : State) (d : ℕ) (ret : ℤ) (s' : State) (evs : List Event) : Prop where
  events : s'.events = s.events ++ evs
  stops : Stops s.core s'.core
  near : From d evs
  inv : Inv s.core → Failing d evs → Inv s'.core
  stopped : Inv s.core → AllFailing evs → ret = 0 → (s'.core.dev d).activated = false

/- The same for the children of `d`. -/
structure ChildrenRemoved (d : ℕ) (s : State) (cs : List ℕ) (ret : ℤ) (s' : State)
    (evs : List Event) : Prop where
  events : s'.events = s.events ++ evs
  stops : Stops s.core s'.core
  near : From (d + 1) evs
  inv : Inv s.core → AllFailing evs → Inv s'.core
  stopped : Inv s.core → AllFailing evs → ret = 0 → ∀ c ∈ cs, (s'.core.dev c).activated = false

variable {n : ℕ}

theorem chldRemove_spec {remove : State → ℕ → Option (ℤ × State)}
    (hremove : ∀ s c, Linked s.core → s.core.next = n → (s.core.dev c).bound = true → d < c →
      ∃ ret s' evs, remove s c = some (ret, s') ∧ Removed s c ret s' evs) :
    ∀ (cs : List ℕ) (s : State), Linked s.core → s.core.next = n →
      (∀ c ∈ cs, (s.core.dev c).bound = true ∧ d < c) →
      ∃ ret s' evs, chldRemove remove s cs = some (ret, s') ∧
        ChildrenRemoved d s cs ret s' evs := by
  intro cs
  induction cs with
  | nil =>
    intro s _ _ _
    exact ⟨0, s, [], rfl, by simp, Stops.refl _, by simp [From], fun h _ => h, by simp⟩
  | cons c cs ih =>
    intro s hlinked hnext hcs
    obtain ⟨hbound, hlt⟩ := hcs c mem_cons_self
    obtain ⟨ret, s₁, evs, hcall, hrem⟩ := hremove s c hlinked hnext hbound hlt
    rw [chldRemove, hcall]
    have hnear : From (d + 1) evs := hrem.near.mono hlt
    have hinv₁ : Inv s.core → AllFailing evs → Inv s₁.core := fun hi h =>
      hrem.inv hi fun e a hmem _ => h e a hmem
    by_cases hret : ret = 0
    · obtain ⟨ret', s₂, evs', hloop, hrest⟩ := ih s₁ (hrem.stops.linked hlinked)
        (hrem.stops.next.trans hnext) (fun e he => by
          rw [hrem.stops.links.bound e]
          exact hcs e (mem_cons_of_mem _ he))
      simp only [hret, ne_eq, not_true_eq_false, if_false]
      refine ⟨ret', s₂, evs ++ evs', hloop, ?_, hrem.stops.trans hrest.stops,
        hnear.append hrest.near, fun hi h => hrest.inv (hinv₁ hi h.left) h.right, ?_⟩
      · rw [hrest.events, hrem.events, append_assoc]
      · intro hi h h0 e he
        cases mem_cons.mp he with
        | inl heq =>
          rw [heq]
          exact hrest.stops.inactive (hrem.stopped hi h.left hret)
        | inr hmem => exact hrest.stopped (hinv₁ hi h.left) h.right h0 e hmem
    · simp only [ne_eq, hret, not_false_eq_true, if_true]
      exact ⟨ret, s₁, evs, rfl, hrem.events, hrem.stops, hnear, hinv₁, fun _ _ h0 => absurd h0 hret⟩

variable {s : State}

theorem Removed.build {s₂ s₃ : State} {a ret ret₂ : ℤ} {cs : List ℕ} {more : List Event}
    (hch : ChildrenRemoved d (s.called .preRemove d a) cs ret₂ s₂ evs)
    (hevents : s₃.events = s₂.events ++ more) (hmore : From d more) (hstops : Stops s₂.core s₃.core)
    (hinv : Inv s.core → AllFailing evs → Inv s₃.core)
    (hstopped : AllFailing more → ret = 0 → (s₃.core.dev d).activated = false) :
    Removed s d ret s₃ (.call .preRemove d a :: (evs ++ more)) := by
  refine ⟨?_, hch.stops.trans hstops, ?_, ?_, ?_⟩
  · rw [hevents, hch.events, called_events]
    simp
  · exact (from_call .preRemove d a).append ((hch.near.mono (Nat.le_succ d)).append hmore)
  · intro hi hf
    refine hinv hi fun e b hmem => hf e b (mem_cons_of_mem _ (mem_append_left _ hmem)) ?_
    have := hch.near _ e b hmem
    lia
  · intro _ hall h0
    exact hstopped (fun e b hmem => hall e b (mem_cons_of_mem _ (mem_append_right _ hmem))) h0

variable (answers) in
theorem deviceRemove_spec : ∀ (fuel : ℕ) {s : State} {d : ℕ}, Linked s.core →
    s.core.next = n → (s.core.dev d).bound = true → n - d < fuel →
    ∃ ret s' evs, deviceRemove answers fuel s d = some (ret, s') ∧ Removed s d ret s' evs := by
  intro fuel
  induction fuel with
  | zero =>
    intro s d _ _ _ hfuel
    lia
  | succ fuel ih =>
    intro s d hlinked hnext hbound hfuel
    rw [deviceRemove]
    by_cases hact : (s.core.dev d).activated = false
    · rw [if_pos hact]
      exact ⟨0, s, [], rfl, by simp, Stops.refl _, by simp [From], fun h _ => h, fun _ _ _ => hact⟩
    rw [if_neg hact]
    simp only [ask]
    by_cases hpre : answers s.calls = 0
    · simp only [hpre, ne_eq, not_true_eq_false, if_false]
      have hchild : ∀ c ∈ s.core.children d, (s.core.dev c).bound = true ∧ d < c := by
        intro c hc
        obtain ⟨hb, hp⟩ := (hlinked.child d c).mp hc
        exact ⟨hb, (hlinked.older c d hb hp).1⟩
      obtain ⟨ret₂, s₂, evs, hloop, hch⟩ := chldRemove_spec
        (fun s' c hl hn hb hlt => ih hl hn hb (by have := hl.lt c hb; lia))
        (s.core.children d) (s.called .preRemove d 0) hlinked hnext hchild
      simp only [called_core, hloop]
      by_cases hret₂ : ret₂ = 0
      · simp only [hret₂, not_true_eq_false, if_false]
        by_cases hrem : answers s₂.calls = 0
        · -- the children are stopped, and so is the device
          simp only [hrem, not_true_eq_false, if_false]
          have hidle : Inv s.core → AllFailing evs → Idle s₂.core d := by
            intro hi hall c hc
            rw [hch.stops.children] at hc
            exact hch.stopped hi hall hret₂ c hc
          have hfinal : Inv s.core → AllFailing evs → Inv (s₂.core.deactivate d) := fun hi hall =>
            (hch.inv hi hall).deactivate (hidle hi hall)
          split
          · refine ⟨_, _, _, rfl, Removed.build hch (append_assoc _ [_] [_]) ?_
              (deactivate_stops _ d) hfinal ?_⟩
            · exact (from_call .remove d 0).append (from_call .childPostRemove d _)
            · intro _ _
              simp [Core.deactivate]
          · refine ⟨_, _, _, rfl, Removed.build hch rfl ?_ (deactivate_stops _ d) hfinal ?_⟩
            · exact from_call .remove d 0
            · intro _ _
              simp [Core.deactivate]
        · simp only [hrem, not_false_eq_true, if_true]
          refine ⟨_, _, _, rfl, Removed.build hch (append_assoc _ [_] [_]) ?_ (Stops.refl _)
            hch.inv ?_⟩
          · exact (from_call .remove d _).append (from_call .postProbe d _)
          · intro hall h0
            exact absurd h0 (hall d _ (by simp))
      · simp only [hret₂, not_false_eq_true, if_true]
        refine ⟨_, _, _, rfl, Removed.build hch rfl ?_ (Stops.refl _) hch.inv ?_⟩
        · exact from_call .postProbe d _
        · intro hall h0
          exact absurd h0 (hall d _ (by simp))
    · simp only [ne_eq, hpre, not_false_eq_true, if_true]
      exact ⟨_, _, [.call .preRemove d _], rfl, rfl, Stops.refl _, from_call _ _ _, fun h _ => h,
        fun _ _ h0 => absurd h0 hpre⟩

def Core.free (k : Core) (d : ℕ) : Core := ((k.unlinkUclass d).unlinkParent d).setBound d false

theorem unlinkParent_dev (k : Core) (d : ℕ) : (k.unlinkParent d).dev = k.dev := by
  rw [Core.unlinkParent]
  split <;> rfl

theorem unlinkParent_members (k : Core) (d : ℕ) : (k.unlinkParent d).members = k.members := by
  rw [Core.unlinkParent]
  split <;> rfl

theorem unlinkParent_next (k : Core) (d : ℕ) : (k.unlinkParent d).next = k.next := by
  rw [Core.unlinkParent]
  split <;> rfl

theorem free_dev_self (k : Core) (d : ℕ) : (k.free d).dev d = { k.dev d with bound := false } := by
  rw [Core.free, Core.setBound, dev_setDev_self, unlinkParent_dev]
  rfl

variable {e : ℕ}

theorem free_dev_ne (k : Core) (h : e ≠ d) : (k.free d).dev e = k.dev e := by
  rw [Core.free, Core.setBound, dev_setDev_ne _ _ h, unlinkParent_dev]
  rfl

theorem free_dev (k : Core) (d e : ℕ) :
    (k.free d).dev e = k.dev e ∨ (k.free d).dev e = { k.dev e with bound := false } := by
  by_cases he : e = d
  · rw [he]
    exact .inr (free_dev_self k d)
  · exact .inl (free_dev_ne k he)

theorem free_next (k : Core) (d : ℕ) : (k.free d).next = k.next := unlinkParent_next _ _

theorem free_members (k : Core) (d u : ℕ) : (k.free d).members u =
    if u = (k.dev d).uclass then (k.members u).erase d else k.members u := by
  show ((k.unlinkUclass d).unlinkParent d).members u = _
  rw [unlinkParent_members, Core.unlinkUclass]
  split
  · next h =>
    rw [h]
    exact update_self _ _ _
  · next h => exact update_of_ne h _ _

theorem free_children (k : Core) (d p : ℕ) : (k.free d).children p =
    if (k.dev d).parent = some p then (k.children p).erase d else k.children p := by
  show ((k.unlinkUclass d).unlinkParent d).children p = _
  rw [Core.unlinkParent]
  have hparent : ((k.unlinkUclass d).dev d).parent = (k.dev d).parent := rfl
  rw [hparent]
  cases hp : (k.dev d).parent with
  | none => rfl
  | some q =>
    by_cases hq : p = q
    · subst hq
      rw [if_pos rfl]
      exact update_self _ _ _
    · rw [if_neg fun h => hq (Option.some.inj h).symm]
      exact update_of_ne hq _ _

variable {k : Core}

theorem mem_erase_bound {l : List ℕ} {P : Prop} (hl : l.Nodup)
    (hmem : e ∈ l ↔ (k.dev e).bound = true ∧ P) :
    e ∈ l.erase d ↔ ((k.free d).dev e).bound = true ∧ P := by
  rw [hl.mem_erase_iff, hmem]
  by_cases he : e = d
  · subst he
    simp [free_dev_self]
  · simp [free_dev_ne k he, he]

theorem Inv.free (h : Inv k) (hd : (k.dev d).activated = false)
    (hleaf : k.children d = []) : Inv (k.free d) := by
  have huclass : ∀ e, ((k.free d).dev e).uclass = (k.dev e).uclass := by
    intro e
    cases free_dev k d e with
    | inl heq => rw [heq]
    | inr heq => rw [heq]
  have hparent : ∀ e, ((k.free d).dev e).parent = (k.dev e).parent := by
    intro e
    cases free_dev k d e with
    | inl heq => rw [heq]
    | inr heq => rw [heq]
  have hbound : ∀ e, ((k.free d).dev e).bound = true → e ≠ d ∧ (k.dev e).bound = true := by
    intro e he
    by_cases hed : e = d
    · rw [hed, free_dev_self] at he
      cases he
    · rw [free_dev_ne k hed] at he
      exact ⟨hed, he⟩
  have hactive : ∀ e, ((k.free d).dev e).activated = true →
      (k.free d).dev e = k.dev e ∧ (k.dev e).activated = true := by
    intro e he
    by_cases hed : e = d
    · rw [hed, free_dev_self] at he
      rw [hd] at he
      cases he
    · rw [free_dev_ne k hed] at he
      exact ⟨free_dev_ne k hed, he⟩
  refine ⟨⟨?_, ?_, ?_, ?_, ?_, ?_⟩, ⟨?_, ?_, ?_, ?_⟩⟩
  · intro e he
    rw [free_next]
    exact h.linked.lt e (hbound e he).2
  · intro e p he hp
    rw [hparent] at hp
    obtain ⟨hlt, hpb⟩ := h.linked.older e p (hbound e he).2 hp
    have hpd : p ≠ d := by
      rintro rfl
      have hmem := (h.linked.child p e).mpr ⟨(hbound e he).2, hp⟩
      rw [hleaf] at hmem
      cases hmem
    rw [free_dev_ne k hpd]
    exact ⟨hlt, hpb⟩
  · intro u
    rw [free_members]
    split
    · exact (h.linked.memNodup u).erase d
    · exact h.linked.memNodup u
  · intro u e
    rw [free_members, huclass]
    split
    · exact mem_erase_bound (h.linked.memNodup u) (h.linked.mem u e)
    · next hu =>
      rw [h.linked.mem u e]
      by_cases hed : e = d
      · rw [hed, free_dev_self]
        simp [Ne.symm hu]
      · rw [free_dev_ne k hed]
  · intro p
    rw [free_children]
    split
    · exact (h.linked.childNodup p).erase d
    · exact h.linked.childNodup p
  · intro p e
    rw [free_children, hparent]
    split
    · exact mem_erase_bound (h.linked.childNodup p) (h.linked.child p e)
    · next hp =>
      rw [h.linked.child p e]
      by_cases hed : e = d
      · rw [hed, free_dev_self]
        simp [hp]
      · rw [free_dev_ne k hed]
  · intro e he
    obtain ⟨heq, he⟩ := hactive e he
    rw [heq]
    exact h.running.bound e he
  · intro e p he hp
    obtain ⟨heq, he⟩ := hactive e he
    rw [heq] at hp
    have hpa := h.running.parent e p he hp
    have hpd : p ≠ d := by
      rintro rfl
      rw [hd] at hpa
      cases hpa
    rw [free_dev_ne k hpd]
    exact hpa
  · intro e he
    rw [free_dev_ne k (hbound e he).1]
    exact h.running.seq e (hbound e he).2
  · intro e f he hf hu hs
    obtain ⟨heq, he⟩ := hactive e he
    obtain ⟨hfq, hf⟩ := hactive f hf
    rw [heq, hfq] at hu hs
    exact h.running.unique e f he hf hu hs

/- What unbinding changes: devices from `d` on are unbound. -/
structure Unbinds (d : ℕ) (k k' : Core) : Prop where
  dev : ∀ e, k'.dev e = k.dev e ∨ k'.dev e = { k.dev e with bound := false }
  before : ∀ e < d, k'.dev e = k.dev e
  next : k'.next = k.next
  inv : Inv k → Inv k'

theorem Unbinds.refl (d : ℕ) (k : Core) : Unbinds d k k :=
  ⟨fun _ => .inl rfl, fun _ _ => rfl, rfl, fun h => h⟩

theorem Unbinds.trans {k₁ k₂ k₃ : Core} (h : Unbinds d k₁ k₂) (h' : Unbinds d k₂ k₃) :
    Unbinds d k₁ k₃ := by
  refine ⟨fun e => ?_, fun e he => (h'.before e he).trans (h.before e he), h'.next.trans h.next,
    fun hi => h'.inv (h.inv hi)⟩
  cases h'.dev e with
  | inl h₂ =>
    rw [h₂]
    exact h.dev e
  | inr h₂ =>
    rw [h₂]
    cases h.dev e with
    | inl h₁ => exact .inr (by rw [h₁])
    | inr h₁ => exact .inr (by rw [h₁])

variable {k' : Core}

theorem Unbinds.mono {c : ℕ} (h : Unbinds c k k') (hd : d ≤ c) : Unbinds d k k' :=
  ⟨h.dev, fun e he => h.before e (lt_of_lt_of_le he hd), h.next, h.inv⟩

theorem Unbinds.parent (h : Unbinds d k k') (e : ℕ) : (k'.dev e).parent = (k.dev e).parent := by
  cases h.dev e with
  | inl h => rw [h]
  | inr h => rw [h]

theorem Unbinds.unbound (h : Unbinds d k k')
    (he : (k.dev e).bound = false) : (k'.dev e).bound = false := by
  cases h.dev e with
  | inl h => rw [h, he]
  | inr h => rw [h]

theorem chldUnbind_spec {unbind : State → ℕ → Option (ℤ × State)}
    (hunbind : ∀ s c, Inv s.core → s.core.next = n → d < c → c < n →
      ∃ ret s', unbind s c = some (ret, s') ∧ Unbinds c s.core s'.core ∧
        (ret = 0 → (s'.core.dev c).bound = false)) :
    ∀ (cs : List ℕ) (s : State), Inv s.core → s.core.next = n → (∀ c ∈ cs, d < c ∧ c < n) →
      ∃ ret s', chldUnbind unbind s cs = some (ret, s') ∧ Unbinds (d + 1) s.core s'.core ∧
        (ret = 0 → ∀ c ∈ cs, (s'.core.dev c).bound = false) := by
  intro cs
  induction cs with
  | nil =>
    intro s _ _ _
    exact ⟨0, s, rfl, Unbinds.refl _ _, by simp⟩
  | cons c cs ih =>
    intro s hinv hnext hcs
    obtain ⟨hdc, hcn⟩ := hcs c mem_cons_self
    obtain ⟨ret, s₁, hcall, hun, hgone⟩ := hunbind s c hinv hnext hdc hcn
    obtain ⟨ret', s₂, hloop, hun', hgone'⟩ := ih s₁ (hun.inv hinv) (hun.next.trans hnext)
      (fun e he => hcs e (mem_cons_of_mem _ he))
    rw [chldUnbind, hcall]
    simp only [hloop]
    refine ⟨_, s₂, rfl, (hun.mono hdc).trans hun', ?_⟩
    intro h0 e he
    have hret : ret = 0 := by
      by_contra hne
      rw [if_pos hne] at h0
      exact hne h0
    rw [if_neg (not_not_intro hret)] at h0
    cases mem_cons.mp he with
    | inl heq =>
      rw [heq]
      exact hun'.unbound (hgone hret)
    | inr hmem => exact hgone' h0 e hmem

variable (answers) in
theorem deviceUnbind_spec : ∀ {fuel : ℕ} {s : State} {d : ℕ}, Inv s.core →
    s.core.next = n → d < n → n - d < fuel →
    ∃ ret s', deviceUnbind answers fuel s d = some (ret, s') ∧ Unbinds d s.core s'.core ∧
      (ret = 0 → (s'.core.dev d).bound = false) := by
  intro fuel
  induction fuel with
  | zero =>
    intro s d _ _ _ hfuel
    lia
  | succ fuel ih =>
    intro s d hinv hnext hdn hfuel
    have heinval : einval ≠ 0 := by decide
    rw [deviceUnbind]
    by_cases hact : (s.core.dev d).activated = true
    · rw [if_pos hact]
      exact ⟨_, s, rfl, Unbinds.refl _ _, fun h0 => absurd h0 heinval⟩
    rw [if_neg hact]
    by_cases hbound : (s.core.dev d).bound = false
    · rw [if_pos hbound]
      exact ⟨_, s, rfl, Unbinds.refl _ _, fun h0 => absurd h0 heinval⟩
    rw [if_neg hbound]
    simp only [ask]
    by_cases hun : answers s.calls = 0
    swap
    · simp only [ne_eq, hun, not_false_eq_true, if_true]
      exact ⟨_, _, rfl, Unbinds.refl _ _, fun h0 => absurd h0 hun⟩
    simp only [hun, ne_eq, not_true_eq_false, if_false]
    have hchild : ∀ c ∈ s.core.children d, d < c ∧ c < n := by
      intro c hc
      obtain ⟨hb, hp⟩ := (hinv.linked.child d c).mp hc
      exact ⟨(hinv.linked.older c d hb hp).1, hnext ▸ hinv.linked.lt c hb⟩
    obtain ⟨ret₂, s₂, hloop, hun₂, hgone⟩ := chldUnbind_spec
      (fun s' c hi hn hdc hcn => ih hi hn hcn (by lia))
      (s.core.children d) (s.called .unbind d 0) hinv hnext hchild
    simp only [called_core, hloop]
    by_cases hret₂ : ret₂ = 0
    swap
    · simp only [hret₂, not_false_eq_true, if_true]
      exact ⟨_, _, rfl, hun₂.mono (Nat.le_succ d), fun h0 => absurd h0 hret₂⟩
    simp only [hret₂, not_true_eq_false, if_false, uclassUnbindDevice, ask]
    by_cases hpre : answers s₂.calls = 0
    swap
    · simp only [ne_eq, hpre, not_false_eq_true, if_true]
      exact ⟨_, _, rfl, hun₂.mono (Nat.le_succ d), fun h0 => absurd h0 hpre⟩
    simp only [hpre, ne_eq, not_true_eq_false, if_false]
    have hself : s₂.core.dev d = s.core.dev d := hun₂.before d (Nat.lt_succ_self d)
    have hinv₂ : Inv s₂.core := hun₂.inv hinv
    have hleaf : s₂.core.children d = [] := by
      rw [eq_nil_iff_forall_not_mem]
      intro c hc
      obtain ⟨hb, hp⟩ := (hinv₂.linked.child d c).mp hc
      have hp₀ : (s.core.dev c).parent = some d := hun₂.parent c ▸ hp
      by_cases hb₀ : (s.core.dev c).bound = true
      · have hmem := (hinv.linked.child d c).mpr ⟨hb₀, hp₀⟩
        rw [hgone hret₂ c hmem] at hb
        cases hb
      · rw [hun₂.unbound (e := c) (by simpa using hb₀)] at hb
        cases hb
    refine ⟨_, _, rfl, (hun₂.mono (Nat.le_succ d)).trans ⟨free_dev _ d, ?_, free_next _ d, ?_⟩, ?_⟩
    · intro e he
      exact free_dev_ne _ (Nat.ne_of_lt he)
    · intro hi
      exact hi.free (by rw [hself]; simpa using hact) hleaf
    · intro _
      exact congrArg Udevice.bound (free_dev_self s₂.core d)

/- There is a number left: the requested one or one up to DM_MAX_SEQ. -/
def SeqLeft (reqSeq : ℤ) (inUse : List ℤ) : Prop :=
  (reqSeq ≠ -1 ∧ reqSeq ∉ inUse) ∨ ∃ n ≤ dmMaxSeq, (n : ℤ) ∉ inUse

def Resolvable (evs : List Event) : Prop :=
  ∀ d reqSeq used, Event.resolve d reqSeq used ∈ evs → SeqLeft reqSeq used

theorem findBySeq_nat (used : List ℤ) (n : ℕ) : findBySeq used n = decide ((n : ℤ) ∈ used) := by
  have hne : (n : ℤ) ≠ -1 := by lia
  simp [findBySeq, hne]

theorem resolveSeq_free {used : List ℤ} {reqSeq : ℤ} (h : SeqLeft reqSeq used) :
    resolveSeq used reqSeq ∉ used := by
  rw [resolveSeq]
  rw [SeqLeft] at h
  generalize dmMaxSeq = top at h ⊢
  by_cases hreq : findBySeq used reqSeq = false ∧ reqSeq ≠ -1
  · rw [if_pos hreq]
    simpa [findBySeq, hreq.2] using hreq.1
  · rw [if_neg hreq]
    cases hfind : (List.range top).find? fun seq : ℕ => !findBySeq used seq with
    | some n =>
      have hn := find?_some hfind
      simp only [findBySeq_nat, Bool.not_eq_true', decide_eq_false_iff_not] at hn
      exact hn
    | none =>
      -- all below DM_MAX_SEQ are in use, so it is DM_MAX_SEQ that is left
      rw [find?_eq_none] at hfind
      cases h with
      | inl hfree =>
        refine absurd ⟨?_, hfree.1⟩ hreq
        simp [findBySeq, hfree.2]
      | inr hfree =>
        obtain ⟨n, hn, hfree⟩ := hfree
        cases Nat.lt_or_eq_of_le hn with
        | inl hlt =>
          have hused := hfind n (mem_range.mpr hlt)
          simp [findBySeq_nat, hfree] at hused
        | inr heq =>
          rw [heq] at hfree
          exact hfree

theorem activate_links (k : Core) (d : ℕ) (seq : ℤ) : SameLinks k (k.activate d seq) := by
  have hdev : ∀ e, (k.activate d seq).dev e = k.dev e ∨
      (k.activate d seq).dev e = { k.dev e with activated := true, seq := seq } := by
    intro e
    by_cases he : e = d
    · subst he
      exact .inr (dev_setDev_self _ _ _)
    · exact .inl (dev_setDev_ne _ _ he)
  refine ⟨fun e => ?_, fun e => ?_, fun e => ?_, rfl, rfl, rfl⟩
  all_goals
    cases hdev e with
    | inl h => rw [h]
    | inr h => rw [h]

theorem Inv.activate {seq : ℤ} (h : Inv k) (hd : (k.dev d).bound = true)
    (hp : ∀ p, (k.dev d).parent = some p → (k.dev p).activated = true) (hseq : 0 ≤ seq)
    (hfree : seq ∉ inUse k (k.dev d).uclass) : Inv (k.activate d seq) := by
  have hself : (k.activate d seq).dev d = { k.dev d with activated := true, seq := seq } :=
    dev_setDev_self _ _ _
  have hother : ∀ {e}, e ≠ d → (k.activate d seq).dev e = k.dev e := fun he => dev_setDev_ne _ _ he
  have hlinks := activate_links k d seq
  have hup : ∀ e, (k.dev e).activated = true → ((k.activate d seq).dev e).activated = true := by
    intro e he
    by_cases hed : e = d
    · rw [hed, hself]
    · rw [hother hed]
      exact he
  -- nobody else of the uclass has the number
  have hnone : ∀ e, e ≠ d → (k.dev e).activated = true → (k.dev e).uclass = (k.dev d).uclass →
      (k.dev e).seq ≠ seq := by
    intro e _ he hu heq
    refine hfree (mem_map.mpr ⟨e, ?_, heq⟩)
    exact (h.linked.mem _ e).mpr ⟨h.running.bound e he, hu⟩
  refine ⟨hlinks.linked h.linked, ⟨?_, ?_, ?_, ?_⟩⟩
  · intro e he
    rw [hlinks.bound]
    by_cases hed : e = d
    · rw [hed]
      exact hd
    · rw [hother hed] at he
      exact h.running.bound e he
  · intro e p he hep
    rw [hlinks.parent] at hep
    by_cases hed : e = d
    · rw [hed] at hep
      exact hup p (hp p hep)
    · rw [hother hed] at he
      exact hup p (h.running.parent e p he hep)
  · intro e he
    by_cases hed : e = d
    · rw [hed, hself]
      simpa using hseq
    · rw [hother hed] at he ⊢
      exact h.running.seq e he
  · intro e f he hf hu hs
    rw [hlinks.uclass, hlinks.uclass] at hu
    by_cases hed : e = d
    · by_cases hfd : f = d
      · rw [hed, hfd]
      · rw [hed, hself, hother hfd] at hs
        rw [hother hfd] at hf
        rw [hed] at hu
        exact absurd hs.symm (hnone f hfd hf hu.symm)
    · by_cases hfd : f = d
      · rw [hfd, hself, hother hed] at hs
        rw [hother hed] at he
        rw [hfd] at hu
        exact absurd hs (hnone e hed he hu)
      · rw [hother hed] at he hs
        rw [hother hfd] at hf hs
        exact h.running.unique e f he hf hu hs

variable (answers) in
theorem askAll_core (d : ℕ) (hooks : List Hook) : ∀ s, (askAll answers s d hooks).2.core = s.core := by
  induction hooks with
  | nil => exact fun _ => rfl
  | cons hook hooks ih =>
    intro s
    rw [askAll]
    simp only [ask]
    by_cases h : answers s.calls = 0
    · simp only [h, ne_eq, not_true_eq_false, if_false]
      exact ih _
    · simp only [ne_eq, h, not_false_eq_true, if_true]
      rfl

variable (answers) in
theorem askAll_events (d : ℕ) (hooks : List Hook) :
    ∀ s, ∃ evs, (askAll answers s d hooks).2.events = s.events ++ evs := by
  induction hooks with
  | nil => exact fun s => ⟨[], by simp [askAll]⟩
  | cons hook hooks ih =>
    intro s
    rw [askAll]
    simp only [ask]
    by_cases h : answers s.calls = 0
    · simp only [h, ne_eq, not_true_eq_false, if_false]
      obtain ⟨evs, hevs⟩ := ih (s.called hook d 0)
      exact ⟨_, hevs.trans (append_assoc _ _ _)⟩
    · simp only [ne_eq, h, not_false_eq_true, if_true]
      exact ⟨_, rfl⟩

theorem chldRemove_idle {fuel : ℕ} {cs : List ℕ} (h : ∀ c ∈ cs, (s.core.dev c).activated = false) :
    chldRemove (deviceRemove answers (fuel + 1)) s cs = some (0, s) := by
  induction cs with
  | nil => rfl
  | cons c cs ih =>
    rw [chldRemove, deviceRemove, if_pos (h c mem_cons_self)]
    simp only [ne_eq, not_true_eq_false, if_false]
    exact ih fun e he => h e (mem_cons_of_mem _ he)

variable (answers) in
theorem deviceRemove_idle (fuel : ℕ) (h : Idle s.core d) :
    ∃ ret s', deviceRemove answers (fuel + 1 + 1) s d = some (ret, s') ∧
      (s'.core = s.core ∨ s'.core = s.core.deactivate d) := by
  rw [deviceRemove]
  by_cases hact : (s.core.dev d).activated = false
  · rw [if_pos hact]
    exact ⟨0, s, rfl, .inl rfl⟩
  rw [if_neg hact]
  simp only [ask]
  by_cases hpre : answers s.calls = 0
  swap
  · simp only [ne_eq, hpre, not_false_eq_true, if_true]
    exact ⟨_, _, rfl, .inl rfl⟩
  simp only [hpre, ne_eq, not_true_eq_false, if_false, called_core]
  rw [chldRemove_idle (s := s.called .preRemove d 0) h]
  simp only [not_true_eq_false, if_false]
  by_cases hrem : answers (s.called .preRemove d 0).calls = 0
  swap
  · simp only [hrem, not_false_eq_true, if_true]
    exact ⟨_, _, rfl, .inl rfl⟩
  simp only [hrem, not_true_eq_false, if_false]
  split
  · exact ⟨_, _, rfl, .inr rfl⟩
  · exact ⟨_, _, rfl, .inr rfl⟩

theorem deactivate_deactivate (k : Core) (d : ℕ) : (k.deactivate d).deactivate d = k.deactivate d := by
  simp only [Core.deactivate, Core.setDev, update_self, update_idem]

/- What `device_probe` does to a device, from `uclass_resolve_seq` on or as a whole. -/
structure Probed (s : State) (s' : State) (evs : List Event) : Prop where
  events : s'.events = s.events ++ evs
  links : SameLinks s.core s'.core

theorem Probed.trans {s₁ s₂ : State} (h : Probed s s₁ evs)
    (h' : Probed s₁ s₂ evs') : Probed s s₂ (evs ++ evs') :=
  ⟨by rw [h'.events, h.events, append_assoc], h.links.trans h'.links⟩

theorem Resolvable.left (h : Resolvable (evs ++ evs')) : Resolvable evs :=
  fun d r u hmem => h d r u (mem_append_left _ hmem)

theorem Resolvable.right (h : Resolvable (evs ++ evs')) : Resolvable evs' := fun d r u hmem => h d r u (mem_append_right _ hmem)

variable (answers) in
theorem probed_askAll (d : ℕ) (hooks : List Hook) (s : State) :
    ∃ evs, Probed s (askAll answers s d hooks).2 evs := by
  obtain ⟨evs, hevs⟩ := askAll_events answers d hooks s
  exact ⟨evs, hevs, by rw [askAll_core]; exact SameLinks.refl _⟩

theorem probed_fail (s : State) (d : ℕ) (ret : ℤ) : Probed s (failProbe s d ret).2 [] :=
  ⟨by simp [failProbe], (deactivate_stops s.core d).links⟩

/- The invariant behind a probe; the device is active if that succeeds and only then. -/
def ProbedInv (d : ℕ) (ret : ℤ) (s' : State) : Prop :=
  Inv s'.core ∧ ((s'.core.dev d).activated = true ↔ ret = 0)

theorem probedInv_fail {ret : ℤ} (h : Inv (k.deactivate d))
    (hcore : s.core.deactivate d = k.deactivate d) (hret : ret ≠ 0) :
    ProbedInv d ret (failProbe s d ret).2 := by
  refine ⟨by rw [failProbe, setCore_core, hcore]; exact h, ?_⟩
  simp [failProbe, Core.deactivate, hret]

variable (answers) in
theorem probeHooks_spec (hlinked : Linked s.core) (hbound : (s.core.dev d).bound = true) :
    ∃ ret s' evs, probeHooks answers (s.core.next + 1) s d = some (ret, s') ∧ Probed s s' evs ∧
      (Inv s.core → Idle s.core d → (s.core.dev d).activated = true → ProbedInv d ret s') := by
  have hpos : d < s.core.next := hlinked.lt d hbound
  rw [probeHooks]
  generalize (if (s.core.dev d).parent.isSome = true then _ else _ : List Hook) = hooks
  obtain ⟨evs₁, h₁⟩ := probed_askAll answers d hooks s
  have hcore₁ := askAll_core answers d hooks s
  generalize askAll answers s d hooks = asked at h₁ hcore₁ ⊢
  obtain ⟨ret₁, s₁⟩ := asked
  dsimp only at h₁ hcore₁ ⊢
  by_cases hret₁ : ret₁ = 0
  swap
  · simp only [hret₁, ne_eq, not_false_eq_true, if_true]
    refine ⟨_, _, _, rfl, h₁.trans (probed_fail s₁ d ret₁), fun hi hidle _ => ?_⟩
    exact probedInv_fail (hi.deactivate hidle) (by rw [hcore₁]) hret₁
  simp only [hret₁, ne_eq, not_true_eq_false, if_false, ask]
  by_cases hpost : answers s₁.calls = 0
  · simp only [hpost, not_true_eq_false, if_false]
    have h₂ : Probed s₁ (s₁.called .postProbe d 0) [.call .postProbe d 0] := ⟨rfl, SameLinks.refl _⟩
    refine ⟨_, _, _, rfl, h₁.trans h₂, fun hi _ hactive => ⟨?_, ?_⟩⟩
    · rw [called_core, hcore₁]
      exact hi
    · rw [called_core, hcore₁]
      simp [hactive]
  -- `post_probe` fails: the device is removed, and stopped in any case
  simp only [hpost, not_false_eq_true, if_true]
  generalize hs₂ : s₁.called .postProbe d (answers s₁.calls) = s₂
  have hcore₂ : s₂.core = s.core := by rw [← hs₂, called_core, hcore₁]
  have h₂ : Probed s₁ s₂ [.call .postProbe d (answers s₁.calls)] := by
    rw [← hs₂]
    exact ⟨rfl, SameLinks.refl _⟩
  obtain ⟨m, hm⟩ : ∃ m, s.core.next = m + 1 := ⟨s.core.next - 1, by lia⟩
  obtain ⟨ret₃, s₃, evs₃, hcall, hrem⟩ := deviceRemove_spec answers (s := s₂) (d := d)
    (n := s.core.next) (s.core.next + 1) (by rw [hcore₂]; exact hlinked) (by rw [hcore₂])
    (by rw [hcore₂]; exact hbound) (by lia)
  simp only [hcall]
  have h₃ : Probed s₂ s₃ evs₃ := ⟨hrem.events, hrem.stops.links⟩
  refine ⟨_, _, _, rfl, h₁.trans (h₂.trans (h₃.trans (probed_fail s₃ d (answers s₁.calls)))),
    fun hi hidle _ => probedInv_fail (hi.deactivate hidle) ?_ hpost⟩
  obtain ⟨ret', s', hcall', hcore⟩ := deviceRemove_idle answers m (s := s₂)
    (d := d) (by rw [hcore₂]; exact hidle)
  rw [← hm, hcall] at hcall'
  cases hcall'
  cases hcore with
  | inl hsame => rw [hsame, hcore₂]
  | inr hstop => rw [hstop, deactivate_deactivate, hcore₂]

variable (answers) in
theorem probeSelf_spec (hlinked : Linked s.core) (hbound : (s.core.dev d).bound = true) :
    ∃ ret s' evs, probeSelf answers (s.core.next + 1) s d = some (ret, s') ∧ Probed s s' evs ∧
      (Inv s.core → (s.core.dev d).activated = false →
        (∀ p, (s.core.dev d).parent = some p → (s.core.dev p).activated = true) →
        Resolvable evs → ProbedInv d ret s') := by
  rw [probeSelf]
  generalize hres : uclassResolveSeq s d = resolved
  obtain ⟨seq, s₁⟩ := resolved
  simp only [uclassResolveSeq, Prod.mk.injEq] at hres
  obtain ⟨hseq, hs₁⟩ := hres
  have hcore₁ : s₁.core = s.core := by rw [← hs₁]
  have hev₁ : s₁.events = s.events ++ [.resolve d (s.core.dev d).reqSeq
    (inUse s.core (s.core.dev d).uclass)] := by rw [← hs₁]
  have h₁ : Probed s s₁ _ := ⟨hev₁, by rw [hcore₁]; exact SameLinks.refl _⟩
  dsimp only
  by_cases hneg : seq < 0
  · rw [if_pos hneg]
    refine ⟨_, _, _, rfl, h₁.trans (probed_fail s₁ d seq), fun hi hd _ _ => ?_⟩
    exact probedInv_fail (hi.deactivate (hi.idle hd)) (by rw [hcore₁]) (by lia)
  rw [if_neg hneg, hcore₁]
  have hlinks := activate_links s.core d seq
  have h₂ : Probed s (s₁.setCore (s.core.activate d seq)) _ := ⟨hev₁, hlinks⟩
  obtain ⟨ret, s', evs, hcall, h₃, hinv⟩ := probeHooks_spec answers
    (s := s₁.setCore (s.core.activate d seq)) (d := d) (hlinks.linked hlinked)
    (by rw [setCore_core, hlinks.bound]; exact hbound)
  refine ⟨ret, s', _, hcall, h₂.trans h₃, fun hi hd hp hres => hinv ?_ ?_ ?_⟩
  · have hleft := hres d _ _ (mem_append_left _ (mem_singleton_self _))
    refine hi.activate hbound hp (by lia) ?_
    rw [← hseq]
    exact resolveSeq_free hleft
  · -- its children are other devices
    intro c hc
    obtain ⟨hcb, hcp⟩ := (hi.linked.child d c).mp hc
    have hne : c ≠ d := Nat.ne_of_gt (hi.linked.older c d hcb hcp).1
    rw [setCore_core, Core.activate, dev_setDev_ne _ _ hne]
    exact hi.idle hd c hc
  · rw [setCore_core, Core.activate, dev_setDev_self]

variable (answers) in
theorem deviceProbe_spec : ∀ (fuel : ℕ) {s : State} {d : ℕ}, Linked s.core →
    (s.core.dev d).bound = true → d < fuel →
    ∃ ret s' evs, deviceProbe answers fuel s d = some (ret, s') ∧ Probed s s' evs ∧
      (Inv s.core → Resolvable evs → ProbedInv d ret s') := by
  intro fuel
  induction fuel with
  | zero =>
    intro s d _ _ hlt
    lia
  | succ fuel ih =>
    intro s d hlinked hbound hlt
    rw [deviceProbe]
    by_cases hact : (s.core.dev d).activated = true
    · rw [if_pos hact]
      exact ⟨0, s, [], rfl, ⟨by simp, SameLinks.refl _⟩, fun hi _ => ⟨hi, by simp [hact]⟩⟩
    rw [if_neg hact]
    have hidle : (s.core.dev d).activated = false := by simpa using hact
    have henomem : enomem ≠ 0 := by decide
    obtain ⟨evs₁, h₁⟩ := probed_askAll answers d [.alloc, .alloc] s
    have hcore₁ := askAll_core answers d [.alloc, .alloc] s
    generalize askAll answers s d [.alloc, .alloc] = asked at h₁ hcore₁ ⊢
    obtain ⟨ret₁, s₁⟩ := asked
    dsimp only at h₁ hcore₁ ⊢
    by_cases hret₁ : ret₁ = 0
    swap
    · simp only [hret₁, ne_eq, not_false_eq_true, if_true]
      refine ⟨_, _, _, rfl, h₁.trans (probed_fail s₁ d enomem), fun hi _ => ?_⟩
      exact probedInv_fail (hi.deactivate (hi.idle hidle)) (by rw [hcore₁]) henomem
    simp only [hret₁, ne_eq, not_true_eq_false, if_false, hcore₁]
    cases hp : (s.core.dev d).parent with
    | none =>
      have hspec := probeSelf_spec answers (s := s₁) (d := d)
        (by rw [hcore₁]; exact hlinked) (by rw [hcore₁]; exact hbound)
      rw [hcore₁] at hspec
      obtain ⟨ret, s', evs, hcall, h₂, hinv⟩ := hspec
      refine ⟨ret, s', _, hcall, h₁.trans h₂, fun hi hres => hinv hi hidle ?_ hres.right⟩
      intro p hp'
      rw [hp] at hp'
      cases hp'
    | some p =>
      obtain ⟨hpd, hpb⟩ := hlinked.older d p hbound hp
      simp only [ask]
      generalize hs₂ : s₁.called .alloc d (answers s₁.calls) = s₂
      have hcore₂ : s₂.core = s.core := by rw [← hs₂, called_core, hcore₁]
      have h₂ : Probed s₁ s₂ [.call .alloc d (answers s₁.calls)] := by
        rw [← hs₂]
        exact ⟨rfl, SameLinks.refl _⟩
      by_cases halloc : answers s₁.calls = 0
      swap
      · simp only [halloc, not_false_eq_true, if_true]
        refine ⟨_, _, _, rfl, (h₁.trans h₂).trans (probed_fail s₂ d enomem), fun hi _ => ?_⟩
        exact probedInv_fail (hi.deactivate (hi.idle hidle)) (by rw [hcore₂]) henomem
      simp only [halloc, not_true_eq_false, if_false]
      obtain ⟨ret₃, s₃, evs₃, hcall, h₃, hinv₃⟩ := ih (s := s₂) (d := p)
        (by rw [hcore₂]; exact hlinked) (by rw [hcore₂]; exact hpb) (by lia)
      rw [hcore₂] at hinv₃
      have h₁₃ := (h₁.trans h₂).trans h₃
      simp only [hcall]
      by_cases hret₃ : ret₃ = 0
      swap
      · -- the parent is not active, so the device is not either
        simp only [hret₃, not_false_eq_true, if_true]
        refine ⟨_, _, _, rfl, h₁₃.trans (probed_fail s₃ d ret₃), fun hi hres => ?_⟩
        obtain ⟨hinv, hpact⟩ := hinv₃ hi hres.left.right
        refine probedInv_fail (hinv.deactivate (hinv.idle ?_)) rfl hret₃
        by_contra hd
        have hpa := hinv.running.parent d p (by simpa using hd) (by rw [h₁₃.links.parent, hp])
        exact hret₃ (hpact.mp hpa)
      simp only [hret₃, not_true_eq_false, if_false]
      by_cases hself : (s₃.core.dev d).activated = true
      · rw [if_pos hself]
        exact ⟨0, s₃, _, rfl, h₁₃, fun hi hres => ⟨(hinv₃ hi hres.right).1, by simp [hself]⟩⟩
      rw [if_neg hself]
      obtain ⟨ret, s', evs, hcall', h₄, hinv⟩ := probeSelf_spec answers (s := s₃) (d := d)
        (h₁₃.links.linked hlinked) (by rw [h₁₃.links.bound]; exact hbound)
      refine ⟨ret, s', _, hcall', h₁₃.trans h₄, fun hi hres => ?_⟩
      obtain ⟨hinv₃', hpact⟩ := hinv₃ hi hres.left.right
      refine hinv hinv₃' (by simpa using hself) ?_ hres.right
      intro q hq
      rw [h₁₃.links.parent, hp] at hq
      obtain rfl := Option.some.inj hq
      exact hpact.mpr hret₃

end Calls

end UBoot.Dm
