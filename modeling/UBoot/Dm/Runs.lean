import UBoot.Dm.Tree

/-!
# Runs of the driver model

`device_bind`, and what holds between the calls of any run. A call is told from the answers of its hooks.
-/

namespace UBoot.Dm

open Function List Option

theorem linkParent_dev (k : Core) (d : ℕ) : (k.linkParent d).dev = k.dev := by
  rw [Core.linkParent]
  split <;> rfl

theorem linkParent_members (k : Core) (d : ℕ) : (k.linkParent d).members = k.members := by
  rw [Core.linkParent]
  split <;> rfl

theorem linkParent_next (k : Core) (d : ℕ) : (k.linkParent d).next = k.next := by
  rw [Core.linkParent]
  split <;> rfl

/- The core in which `device_bind` calls the hooks. -/
def Core.enter (k : Core) (parent : Option ℕ) (uclass : ℕ) (reqSeq : ℤ) : Core :=
  ((k.allocate parent uclass reqSeq).linkParent k.next).linkUclass k.next

section Enter

variable {k : Core} {parent : Option ℕ} {uclass : ℕ} {reqSeq : ℤ}

theorem allocate_dev_self (k : Core) (parent : Option ℕ) (uclass : ℕ) (reqSeq : ℤ) :
    (k.allocate parent uclass reqSeq).dev k.next = ⟨parent, uclass, reqSeq, -1, false, false⟩ :=
  update_self _ _ _

theorem allocate_dev_ne {d : ℕ} (h : d ≠ k.next) : (k.allocate parent uclass reqSeq).dev d = k.dev d := update_of_ne h _ _

theorem enter_dev : (k.enter parent uclass reqSeq).dev = (k.allocate parent uclass reqSeq).dev :=
  linkParent_dev _ _

theorem enter_next : (k.enter parent uclass reqSeq).next = k.next + 1 := linkParent_next _ _

theorem Linked.next_not_mem (h : Linked k) (u : ℕ) : k.next ∉ k.members u := by
  intro hmem
  exact absurd (h.lt _ ((h.mem u _).mp hmem).1) (lt_irrefl _)

theorem Linked.next_not_child (h : Linked k) (p : ℕ) : k.next ∉ k.children p := by
  intro hmem
  exact absurd (h.lt _ ((h.child p _).mp hmem).1) (lt_irrefl _)

theorem Linked.children_next (h : Linked k) : k.children k.next = [] := by
  rw [eq_nil_iff_forall_not_mem]
  intro c hc
  obtain ⟨hb, hp⟩ := (h.child _ c).mp hc
  have hlt := h.lt c hb
  have hold := (h.older c _ hb hp).1
  lia

theorem allocate_children (h : Linked k) (p : ℕ) :
    (k.allocate parent uclass reqSeq).children p = k.children p := by
  by_cases hp : p = k.next
  · subst hp
    rw [h.children_next]
    exact update_self _ _ _
  · exact update_of_ne hp _ _

theorem enter_members (u : ℕ) : (k.enter parent uclass reqSeq).members u =
    if u = uclass then k.members u ++ [k.next] else k.members u := by
  rw [Core.enter, Core.linkUclass]
  simp only [linkParent_dev, linkParent_members, allocate_dev_self]
  split
  · next h =>
    rw [h]
    exact update_self _ _ _
  · next h => exact update_of_ne h _ _

theorem enter_children (h : Linked k) (p : ℕ) : (k.enter parent uclass reqSeq).children p =
    if parent = some p then k.children p ++ [k.next] else k.children p := by
  show ((k.allocate parent uclass reqSeq).linkParent k.next).children p = _
  rw [Core.linkParent, allocate_dev_self]
  cases parent with
  | none => exact allocate_children h p
  | some q =>
    by_cases hq : p = q
    · subst hq
      rw [if_pos rfl, ← allocate_children h]
      exact update_self _ _ _
    · rw [if_neg fun h => hq (some.inj h).symm, ← allocate_children h]
      exact update_of_ne hq _ _

theorem enter_undo (h : Linked k) :
    ((k.enter parent uclass reqSeq).unlinkUclass k.next).unlinkParent k.next =
      k.allocate parent uclass reqSeq := by
  have herase : ∀ l : List ℕ, k.next ∉ l → (l ++ [k.next]).erase k.next = l := by
    intro l hl
    rw [erase_append_right _ hl]
    simp
  have hself : (k.enter parent uclass reqSeq).dev k.next = ⟨parent, uclass, reqSeq, -1, false, false⟩ := by
    rw [enter_dev, allocate_dev_self]
  have hmembers : (((k.enter parent uclass reqSeq).unlinkUclass k.next).unlinkParent
      k.next).members = k.members := by
    funext u
    rw [unlinkParent_members, Core.unlinkUclass, hself]
    by_cases hu : u = uclass
    · subst hu
      simp only [update_self, enter_members, if_true]
      exact herase _ (h.next_not_mem u)
    · simp only [update_of_ne hu, enter_members, if_neg hu]
  have hchildren : (((k.enter parent uclass reqSeq).unlinkUclass k.next).unlinkParent
      k.next).children = (k.allocate parent uclass reqSeq).children := by
    funext p
    rw [Core.unlinkParent]
    simp only [Core.unlinkUclass, hself, allocate_children h]
    cases parent with
    | none => exact (enter_children h p).trans (if_neg (some_ne_none p).symm)
    | some q =>
      by_cases hq : p = q
      · subst hq
        simp only [update_self, enter_children h, if_true]
        exact herase _ (h.next_not_child p)
      · simp only [update_of_ne hq, enter_children h]
        exact if_neg fun h => hq (some.inj h).symm
  have hdev : (((k.enter parent uclass reqSeq).unlinkUclass k.next).unlinkParent k.next).dev =
      (k.allocate parent uclass reqSeq).dev := by
    rw [unlinkParent_dev]
    exact enter_dev
  have hnext : (((k.enter parent uclass reqSeq).unlinkUclass k.next).unlinkParent k.next).next =
      k.next + 1 := by
    rw [unlinkParent_next]
    exact enter_next
  generalize ((k.enter parent uclass reqSeq).unlinkUclass k.next).unlinkParent k.next = k' at *
  obtain ⟨dev, children, members, next⟩ := k'
  simp only at hmembers hchildren hdev hnext
  rw [hmembers, hchildren, hdev, hnext]
  rfl

theorem Running.extend {k k' : Core} (h : Running k)
    (hactive : ∀ d, (k'.dev d).activated = true → k'.dev d = k.dev d)
    (hold : ∀ d, (k.dev d).bound = true → k'.dev d = k.dev d)
    (hseq : ∀ d, (k'.dev d).bound = true →
      if (k'.dev d).activated = true then 0 ≤ (k'.dev d).seq else (k'.dev d).seq = -1) :
    Running k' := by
  refine ⟨?_, ?_, hseq, ?_⟩
  · intro d hd
    have hdq := hactive d hd
    rw [hdq] at hd ⊢
    exact h.bound d hd
  · intro d p hd hp
    have hdq := hactive d hd
    rw [hdq] at hd hp
    have hpa := h.parent d p hd hp
    rw [hold p (h.bound p hpa)]
    exact hpa
  · intro d e hd he hu hs
    have hdq := hactive d hd
    rw [hdq] at hd hu hs
    have heq := hactive e he
    rw [heq] at he hu hs
    exact h.unique d e hd he hu hs

theorem Inv.allocate (h : Inv k) (parent : Option ℕ) (uclass : ℕ) (reqSeq : ℤ) :
    Inv (k.allocate parent uclass reqSeq) := by
  have hnew := allocate_dev_self k parent uclass reqSeq
  have hactive : ∀ d, ((k.allocate parent uclass reqSeq).dev d).activated = true →
      (k.allocate parent uclass reqSeq).dev d = k.dev d := by
    intro d hd
    by_cases hdn : d = k.next
    · rw [hdn, hnew] at hd
      cases hd
    · exact allocate_dev_ne hdn
  have hbound : ∀ d, ((k.allocate parent uclass reqSeq).dev d).bound = true →
      (k.allocate parent uclass reqSeq).dev d = k.dev d := by
    intro d hd
    by_cases hdn : d = k.next
    · rw [hdn, hnew] at hd
      cases hd
    · exact allocate_dev_ne hdn
  have hold : ∀ d, (k.dev d).bound = true → (k.allocate parent uclass reqSeq).dev d = k.dev d :=
    fun d hd => allocate_dev_ne (Nat.ne_of_lt (h.linked.lt d hd))
  refine ⟨⟨?_, ?_, h.linked.memNodup, ?_, ?_, ?_⟩, h.running.extend hactive hold ?_⟩
  · intro d hd
    have hdq := hbound d hd
    rw [hdq] at hd
    exact Nat.lt_succ_of_lt (h.linked.lt d hd)
  · intro d p hd hp
    have hdq := hbound d hd
    rw [hdq] at hd hp
    obtain ⟨hlt, hpb⟩ := h.linked.older d p hd hp
    rw [hold p hpb]
    exact ⟨hlt, hpb⟩
  · intro u d
    refine (h.linked.mem u d).trans ⟨fun hd => ?_, fun hd => ?_⟩
    · rw [hold d hd.1]
      exact hd
    · rw [hbound d hd.1] at hd
      exact hd
  · intro p
    rw [allocate_children h.linked]
    exact h.linked.childNodup p
  · intro p d
    rw [allocate_children h.linked]
    refine (h.linked.child p d).trans ⟨fun hd => ?_, fun hd => ?_⟩
    · rw [hold d hd.1]
      exact hd
    · rw [hbound d hd.1] at hd
      exact hd
  · intro d hd
    have hdq := hbound d hd
    rw [hdq] at hd ⊢
    exact h.running.seq d hd

theorem Inv.enter (h : Inv k) (hparent : ∀ p, parent = some p → (k.dev p).bound = true) :
    Inv ((k.enter parent uclass reqSeq).setBound k.next true) := by
  generalize hk' : (k.enter parent uclass reqSeq).setBound k.next true = k'
  have hnew : k'.dev k.next = ⟨parent, uclass, reqSeq, -1, false, true⟩ := by
    rw [← hk', Core.setBound, dev_setDev_self, enter_dev, allocate_dev_self]
  have hne : ∀ {d}, d ≠ k.next → k'.dev d = k.dev d := by
    intro d hd
    rw [← hk', Core.setBound, dev_setDev_ne _ _ hd, enter_dev, allocate_dev_ne hd]
  have hold : ∀ d, (k.dev d).bound = true → k'.dev d = k.dev d :=
    fun d hd => hne (Nat.ne_of_lt (h.linked.lt d hd))
  have hactive : ∀ d, (k'.dev d).activated = true → k'.dev d = k.dev d := by
    intro d hd
    by_cases hdn : d = k.next
    · rw [hdn, hnew] at hd
      cases hd
    · exact hne hdn
  have hmembers : ∀ u, k'.members u = if u = uclass then k.members u ++ [k.next] else k.members u := by
    intro u
    rw [← hk']
    exact enter_members u
  have hchildren : ∀ p, k'.children p =
      if parent = some p then k.children p ++ [k.next] else k.children p := by
    intro p
    rw [← hk']
    exact enter_children h.linked p
  -- a list of bound devices, with the new one behind them where that belongs
  have hmem : ∀ (l : List ℕ) (P : Udevice → Prop) (join : Prop) [Decidable join],
      (∀ d, d ∈ l ↔ (k.dev d).bound = true ∧ P (k.dev d)) → (join ↔ P (k'.dev k.next)) →
      ∀ d, d ∈ (if join then l ++ [k.next] else l) ↔ (k'.dev d).bound = true ∧ P (k'.dev d) := by
    intro l P join _ hl hjoin d
    have hnl : k.next ∉ l := fun hin => absurd (h.linked.lt _ ((hl _).mp hin).1) (lt_irrefl _)
    by_cases hdn : d = k.next
    · subst hdn
      rw [← hjoin, hnew]
      split
      · next hj => simp [hj]
      · next hj => simp [hj, hnl]
    · rw [hne hdn, ← hl d]
      split
      · simp [hdn]
      · rfl
  have hnodup : ∀ (l : List ℕ) (join : Prop) [Decidable join], l.Nodup → k.next ∉ l →
      (if join then l ++ [k.next] else l).Nodup := by
    intro l join _ hl hnl
    split
    · rw [nodup_append]
      refine ⟨hl, nodup_singleton _, ?_⟩
      intro d hd e he
      rw [mem_singleton.mp he]
      rintro rfl
      exact hnl hd
    · exact hl
  refine ⟨⟨?_, ?_, ?_, ?_, ?_, ?_⟩, h.running.extend hactive hold ?_⟩
  · intro d hd
    have hnext : k'.next = k.next + 1 := by
      rw [← hk']
      exact enter_next
    rw [hnext]
    by_cases hdn : d = k.next
    · lia
    · rw [hne hdn] at hd
      exact Nat.lt_succ_of_lt (h.linked.lt d hd)
  · intro d p hd hp
    by_cases hdn : d = k.next
    · subst hdn
      rw [hnew] at hp
      have hpb := hparent p hp
      rw [hold p hpb]
      exact ⟨h.linked.lt p hpb, hpb⟩
    · rw [hne hdn] at hd hp
      obtain ⟨hlt, hpb⟩ := h.linked.older d p hd hp
      rw [hold p hpb]
      exact ⟨hlt, hpb⟩
  · intro u
    rw [hmembers]
    exact hnodup _ _ (h.linked.memNodup u) (h.linked.next_not_mem u)
  · intro u d
    rw [hmembers]
    refine hmem (k.members u) (fun v => v.uclass = u) (u = uclass) (h.linked.mem u) ?_ d
    rw [hnew]
    exact eq_comm
  · intro p
    rw [hchildren]
    exact hnodup _ _ (h.linked.childNodup p) (h.linked.next_not_child p)
  · intro p d
    rw [hchildren]
    refine hmem (k.children p) (fun v => v.parent = some p) (parent = some p) (h.linked.child p) ?_ d
    rw [hnew]
  · intro d hd
    by_cases hdn : d = k.next
    · rw [hdn, hnew]
      rfl
    · rw [hne hdn] at hd ⊢
      exact h.running.seq d hd

end Enter

def Released (evs : List Event) : Prop := ∀ d a, Event.call .preUnbind d a ∈ evs → a = 0

theorem Released.right {evs evs' : List Event} (h : Released (evs ++ evs')) : Released evs' :=
  fun d a hmem => h d a (mem_append_right _ hmem)

section Bind

variable (answers : ℕ → ℤ) {k : Core} {parent : Option ℕ} {uclass : ℕ} {reqSeq : ℤ}

/- What `device_bind` does: the events and, under the condition, the invariant. -/
def Binds (s s' : State) : Prop := ∃ evs, s'.events = s.events ++ evs ∧ (Released evs → Inv s'.core)

variable {s : State}

theorem Binds.of_events {s₁ s' : State} {evs : List Event} (h : s₁.events = s.events ++ evs)
    (h' : Binds s₁ s') : Binds s s' := by
  obtain ⟨evs', hevs', hinv⟩ := h'
  refine ⟨evs ++ evs', ?_, fun hrel => hinv hrel.right⟩
  rw [hevs', h, append_assoc]

theorem binds_self (h : Inv s.core) : Binds s s := ⟨[], by simp, fun _ => h⟩

theorem failBind_spec (h : Inv k) (hcore : s.core = k.enter parent uclass reqSeq) :
    Binds s (failBind answers s k.next) := by
  rw [failBind, uclassUnbindDevice]
  simp only [ask]
  by_cases hpre : answers s.calls = 0
  · simp only [hpre, ne_eq, not_true_eq_false, if_false]
    refine ⟨_, rfl, fun _ => ?_⟩
    simp only [setCore_core, called_core, hcore]
    rw [enter_undo h.linked]
    exact h.allocate parent uclass reqSeq
  · simp only [ne_eq, hpre, not_false_eq_true, if_true]
    refine ⟨_, rfl, fun hrel => ?_⟩
    exact absurd (hrel k.next (answers s.calls) (mem_singleton_self _)) hpre

theorem bindHooks_spec (h : Inv k) (hcore : s.core = k.enter parent uclass reqSeq)
    (hparent : ∀ p, parent = some p → (k.dev p).bound = true) :
    Binds s (bindHooks answers s k.next).2 := by
  rw [bindHooks]
  simp only [ask]
  by_cases hbind : answers s.calls = 0
  swap
  · simp only [ne_eq, hbind, not_false_eq_true, if_true]
    exact Binds.of_events rfl (failBind_spec answers h hcore)
  simp only [hbind, ne_eq, not_true_eq_false, if_false]
  generalize hs₁ : s.called .bind k.next 0 = s₁
  have hev₁ : s₁.events = s.events ++ [.call .bind k.next 0] := by rw [← hs₁]; rfl
  have hcore₁ : s₁.core = k.enter parent uclass reqSeq := by rw [← hs₁]; exact hcore
  generalize (if (s.core.dev k.next).parent.isSome = true then _ else _ : List Hook) = post
  obtain ⟨evs₂, hev₂⟩ := askAll_events answers k.next post s₁
  have hcore₂ := askAll_core answers k.next post s₁
  generalize askAll answers s₁ k.next post = asked at hev₂ hcore₂ ⊢
  obtain ⟨ret, s₂⟩ := asked
  dsimp only at hev₂ hcore₂ ⊢
  refine Binds.of_events hev₁ (Binds.of_events hev₂ ?_)
  by_cases hret : ret = 0
  · simp only [hret, not_true_eq_false, if_false]
    refine ⟨[], by simp, fun _ => ?_⟩
    rw [setCore_core, hcore₂, hcore₁]
    exact h.enter hparent
  · simp only [hret, not_false_eq_true, if_true]
    exact Binds.of_events rfl (failBind_spec answers h (hcore₂.trans hcore₁))

theorem deviceBind_spec (h : Inv s.core)
    (hparent : ∀ p, parent = some p → (s.core.dev p).bound = true) :
    Binds s (deviceBind answers s parent uclass reqSeq).2 := by
  rw [deviceBind]
  simp only [ask]
  by_cases hget : answers s.calls = 0
  swap
  · simp only [ne_eq, hget, not_false_eq_true, if_true]
    exact Binds.of_events rfl (binds_self h)
  simp only [hget, ne_eq, not_true_eq_false, if_false]
  generalize hs₁ : s.called .uclassGet s.core.next 0 = s₁
  have hev₁ : s₁.events = s.events ++ [.call .uclassGet s.core.next 0] := by rw [← hs₁]; rfl
  have hcore₁ : s₁.core = s.core := by rw [← hs₁]; rfl
  refine Binds.of_events hev₁ ?_
  obtain ⟨evs₂, hev₂⟩ := askAll_events answers s.core.next [.alloc, .alloc, .alloc, .alloc] s₁
  have hcore₂ := askAll_core answers s.core.next [.alloc, .alloc, .alloc, .alloc] s₁
  generalize askAll answers s₁ s.core.next [.alloc, .alloc, .alloc, .alloc] = asked at hev₂ hcore₂ ⊢
  obtain ⟨ret₂, s₂⟩ := asked
  dsimp only at hev₂ hcore₂ ⊢
  refine Binds.of_events hev₂ ?_
  by_cases hret₂ : ret₂ = 0
  swap
  · simp only [hret₂, not_false_eq_true, if_true]
    exact binds_self (by rw [hcore₂, hcore₁]; exact h)
  simp only [hret₂, not_true_eq_false, if_false, hcore₂, hcore₁]
  generalize hs₃ : s₂.setCore (((s.core.allocate parent uclass reqSeq).linkParent
    s.core.next).linkUclass s.core.next) = s₃
  have hev₃ : s₃.events = s₂.events ++ [] := by rw [← hs₃]; simp
  have hcore₃ : s₃.core = s.core.enter parent uclass reqSeq := by rw [← hs₃]; rfl
  refine Binds.of_events hev₃ ?_
  cases parent with
  | none =>
    simp only [isSome_none, Bool.false_eq_true, if_false, not_true_eq_false]
    exact bindHooks_spec answers h hcore₃ hparent
  | some p =>
    simp only [isSome_some, if_true]
    by_cases hpost : answers s₃.calls = 0
    · simp only [hpost, not_true_eq_false, if_false]
      exact Binds.of_events rfl (bindHooks_spec answers h hcore₃ hparent)
    · simp only [hpost, not_false_eq_true, if_true]
      refine ⟨_, rfl, fun _ => ?_⟩
      rw [setCore_core, called_core, hcore₃, enter_undo h.linked]
      exact h.allocate _ _ _

end Bind

/- A bind below a bound device or none; the other operations are about bound devices. -/
def Legal (k : Core) : Op → Prop
  | .bind parent _ _ => ∀ p, parent = some p → (k.dev p).bound = true
  | .probe d => (k.dev d).bound = true
  | .remove d => (k.dev d).bound = true
  | .unbind d => (k.dev d).bound = true

def Clear (evs : List Event) : Op → Prop
  | .bind _ _ _ => Released evs
  | .probe _ => Resolvable evs
  | .remove d => Failing d evs
  | .unbind _ => True

section Runs

variable (answers : ℕ → ℤ)

def news (s s' : State) : List Event := s'.events.drop s.events.length

variable {s : State}

theorem news_eq {s' : State} {evs : List Event} (h : s'.events = s.events ++ evs) : news s s' = evs := by
  rw [news, h, drop_left]

def State.empty : State :=
  ⟨⟨fun _ => ⟨none, 0, -1, -1, false, false⟩, fun _ => [], fun _ => [], 0⟩, 0, []⟩

/- The states between the calls of the runs from there in which the events of every call are
clear. -/
inductive Reach (clear : List Event → Op → Prop) : State → Prop where
  | empty : Reach clear .empty
  | step {s s' : State} {op : Op} {ret : ℤ} : Reach clear s → Legal s.core op →
      step answers s op = some (ret, s') → clear (news s s') op → Reach clear s'

theorem step_spec {op : Op} (h : Inv s.core) (hlegal : Legal s.core op) :
    ∃ ret s', step answers s op = some (ret, s') ∧ (Clear (news s s') op → Inv s'.core) := by
  cases op with
  | bind parent uclass reqSeq =>
    obtain ⟨evs, hevs, hinv⟩ := deviceBind_spec answers h hlegal
    refine ⟨(deviceBind answers s parent uclass reqSeq).1,
      (deviceBind answers s parent uclass reqSeq).2, rfl, fun hclear => hinv ?_⟩
    rw [news_eq hevs] at hclear
    exact hclear
  | probe d =>
    have hlt := h.linked.lt d hlegal
    obtain ⟨ret, s', evs, hcall, hprobed, hinv⟩ := deviceProbe_spec answers (s.core.next + 1)
      h.linked hlegal (by lia)
    refine ⟨ret, s', hcall, fun hclear => (hinv h ?_).1⟩
    rw [news_eq hprobed.events] at hclear
    exact hclear
  | remove d =>
    have hlt := h.linked.lt d hlegal
    obtain ⟨ret, s', evs, hcall, hrem⟩ := deviceRemove_spec answers (s.core.next + 1) h.linked rfl
      hlegal (by lia)
    refine ⟨ret, s', hcall, fun hclear => hrem.inv h ?_⟩
    rw [news_eq hrem.events] at hclear
    exact hclear
  | unbind d =>
    have hlt := h.linked.lt d hlegal
    have hfuel : s.core.next - d < s.core.next + 1 := by lia
    obtain ⟨ret, s', hcall, hun, -⟩ := deviceUnbind_spec answers h rfl hlt hfuel
    exact ⟨ret, s', hcall, fun _ => hun.inv h⟩

theorem empty_inv : Inv State.empty.core := by
  refine ⟨⟨nofun, nofun, fun _ => nodup_nil, ?_, fun _ => nodup_nil, ?_⟩,
    ⟨nofun, nofun, nofun, nofun⟩⟩
  · intro u d
    simp [State.empty]
  · intro p d
    simp [State.empty]

theorem Reach.inv (h : Reach answers Clear s) : Inv s.core := by
  induction h with
  | empty => exact empty_inv
  | step _ hlegal hstep hclear ih =>
    obtain ⟨ret, s', hcall, hinv⟩ := step_spec answers ih hlegal
    rw [hcall] at hstep
    cases hstep
    exact hinv hclear

theorem tree_invariant {s : State} (h : Reach answers Clear s) :
    TreeOk s.core ∧ ∀ op, Legal s.core op → ∃ ret s', step answers s op = some (ret, s') := by
  refine ⟨h.inv.treeOk, fun op hlegal => ?_⟩
  obtain ⟨ret, s', hcall, -⟩ := step_spec answers h.inv hlegal
  exact ⟨ret, s', hcall⟩

def after (s : State) (op : Op) : State := ((step answers s op).getD (0, s)).2

variable {answers} in
theorem reach_after {clear : List Event → Op → Prop} {op : Op} (h : Reach answers clear s)
    (hlegal : Legal s.core op) (hsome : (step answers s op).isSome)
    (hclear : clear (news s (after answers s op)) op) : Reach answers clear (after answers s op) := by
  obtain ⟨⟨ret, s'⟩, hcall⟩ := isSome_iff_exists.mp hsome
  have hstep : step answers s op = some (ret, after answers s op) := by
    rw [after, hcall]
    rfl
  exact h.step hlegal hstep hclear

end Runs

/- A parent and its child are bound and probed, and the parent is removed; the calls 33 and 34
are `remove` and `post_probe` of the child. -/
def childAnswers (remove postProbe : ℤ) (n : ℕ) : ℤ :=
  if n = 33 then remove else if n = 34 then postProbe else 0

def parentBound (answers : ℕ → ℤ) : State := after answers .empty (.bind none 0 (-1))

def childBound (answers : ℕ → ℤ) : State :=
  after answers (parentBound answers) (.bind (some 0) 1 (-1))

def childProbed (answers : ℕ → ℤ) : State := after answers (childBound answers) (.probe 1)

def parentRemoved (answers : ℕ → ℤ) : State := after answers (childProbed answers) (.remove 0)

theorem legal_bindChild (answers : ℕ → ℤ) (h : ((parentBound answers).core.dev 0).bound = true) :
    Legal (parentBound answers).core (.bind (some 0) 1 (-1)) := by
  intro p hp
  cases hp
  exact h

theorem tree_invariant_failed :
    TreeOk (parentRemoved (childAnswers (-5) (-5))).core ∧
      ((parentRemoved (childAnswers (-5) (-5))).core.dev 1).activated = true := by
  have hparent : Reach (childAnswers (-5) (-5)) Clear (parentBound (childAnswers (-5) (-5))) := by
    refine reach_after .empty nofun (by decide +kernel) ?_
    have hevs : news .empty (parentBound (childAnswers (-5) (-5))) =
      [.call .uclassGet 0 0, .call .alloc 0 0, .call .alloc 0 0, .call .alloc 0 0,
        .call .alloc 0 0, .call .bind 0 0, .call .uclassPostBind 0 0] := by decide +kernel
    rw [parentBound] at hevs
    rw [hevs]
    intro d a hmem
    simp at hmem
  have hbound : Reach (childAnswers (-5) (-5)) Clear (childBound (childAnswers (-5) (-5))) := by
    refine reach_after hparent (legal_bindChild _ (by decide +kernel)) (by decide +kernel) ?_
    have hevs : news (parentBound (childAnswers (-5) (-5)))
        (childBound (childAnswers (-5) (-5))) =
      [.call .uclassGet 1 0, .call .alloc 1 0, .call .alloc 1 0, .call .alloc 1 0,
        .call .alloc 1 0, .call .uclassChildPostBind 1 0, .call .bind 1 0,
        .call .childPostBind 1 0, .call .uclassPostBind 1 0] := by decide +kernel
    rw [childBound] at hevs
    rw [hevs]
    intro d a hmem
    simp at hmem
  have hprobed : Reach (childAnswers (-5) (-5)) Clear (childProbed (childAnswers (-5) (-5))) := by
    refine reach_after hbound (by decide +kernel : (_ : Bool) = true) (by decide +kernel) ?_
    intro d req used hmem
    have hused : (news (childBound (childAnswers (-5) (-5)))
        (childProbed (childAnswers (-5) (-5)))).all fun ev =>
        match ev with
        | .resolve _ _ used => decide (used = [-1])
        | _ => true := by decide +kernel
    have h := all_eq_true.mp hused _ hmem
    rw [of_decide_eq_true h]
    exact .inr ⟨0, Nat.zero_le _, by decide⟩
  have hremoved : Reach (childAnswers (-5) (-5)) Clear (parentRemoved (childAnswers (-5) (-5))) := by
    refine reach_after hprobed (by decide +kernel : (_ : Bool) = true) (by decide +kernel) ?_
    intro d a hmem hd
    have hevs : news (childProbed (childAnswers (-5) (-5))) (parentRemoved (childAnswers (-5) (-5))) =
      [.call .preRemove 0 0, .call .preRemove 1 0, .call .remove 1 (-5), .call .postProbe 1 (-5),
        .call .postProbe 0 0] := by decide +kernel
    rw [parentRemoved] at hevs
    rw [hevs] at hmem
    simp at hmem
    lia
  exact ⟨(tree_invariant _ hremoved).1, by decide +kernel⟩

/- `post_probe` of the child succeeds, so its removal counts as done. -/
theorem stopped_above_active :
    Reach (childAnswers (-5) 0) (fun _ _ => True) (parentRemoved (childAnswers (-5) 0)) ∧
      ¬ TreeOk (parentRemoved (childAnswers (-5) 0)).core := by
  refine ⟨?_, fun h => ?_⟩
  · have hparent : Reach (childAnswers (-5) 0) (fun _ _ => True)
        (parentBound (childAnswers (-5) 0)) :=
      reach_after .empty nofun (by decide +kernel) trivial
    have hbound := reach_after hparent (legal_bindChild _ (by decide +kernel)) (by decide +kernel)
      trivial
    have hprobed : Reach _ _ (childProbed (childAnswers (-5) 0)) :=
      reach_after hbound (by decide +kernel : (_ : Bool) = true) (by decide +kernel) trivial
    exact reach_after hprobed (by decide +kernel : (_ : Bool) = true) (by decide +kernel) trivial
  · have hactive := h.parent 1 0 (by decide +kernel) (by decide +kernel)
    exact absurd hactive (by decide +kernel)

end UBoot.Dm
