import UBoot.Dm.Runs

/-!
# What device_remove reports

The error path returns the answer of `post_probe` in place of the error, and the answer of
`child_post_remove` is returned for a stopped device.
-/

namespace UBoot.Dm

open List

/- `e` is `d` or a device below it. -/
def Under (k : Core) (d e : ℕ) : Prop := Relation.ReflTransGen (fun c p => c ∈ k.children p) e d

def Below (k : Core) (d e : ℕ) : Prop := Relation.TransGen (fun c p => c ∈ k.children p) e d

variable {k : Core} {d e : ℕ}

theorem below_iff : Below k d e ↔ ∃ c ∈ k.children d, Under k c e := by
  refine Relation.TransGen.tail'_iff.trans ?_
  exact exists_congr fun _ => and_comm

theorem under_iff : Under k d e ↔ e = d ∨ Below k d e := by
  rw [below_iff]
  refine (Relation.ReflTransGen.cases_tail_iff _ _ _).trans (or_congr eq_comm ?_)
  exact exists_congr fun _ => and_comm

theorem under_self (k : Core) (d : ℕ) : Under k d d := Relation.ReflTransGen.refl

variable {c : ℕ}

theorem Under.child (h : Under k c e) (hc : c ∈ k.children d) : Under k d e := Relation.ReflTransGen.tail h hc

variable {k' : Core}

theorem Stops.under (h : Stops k k') (d e : ℕ) : Under k' d e ↔ Under k d e := by
  rw [Under, Under, h.children]

section Linked

variable {k : Core} (h : Linked k)
include h

theorem Linked.child_lt {c p : ℕ} (hc : c ∈ k.children p) : p < c := by
  obtain ⟨hb, hp⟩ := (h.child p c).mp hc
  exact (h.older c p hb hp).1

theorem Linked.under_le {d e : ℕ} (hu : Under k d e) : d ≤ e := by
  induction hu with
  | refl => exact le_rfl
  | tail _ hc ih => exact (h.child_lt hc).le.trans ih

theorem Linked.under_of_below {c d e : ℕ} (hu : Under k d e) (hne : e ≠ d) (hc : e ∈ k.children c) :
    Under k d c := by
  cases Relation.ReflTransGen.cases_head hu with
  | inl heq => exact absurd heq hne
  | inr hstep =>
    obtain ⟨p, hp, hrest⟩ := hstep
    have hcp := ((h.child c e).mp hc).2.symm.trans ((h.child p e).mp hp).2
    rw [Option.some.inj hcp]
    exact hrest

theorem Linked.siblings {d c c' e : ℕ} (hc : c ∈ k.children d) (hc' : c' ∈ k.children d)
    (hu : Under k c e) (hu' : Under k c' e) : c = c' := by
  have hunique : Relator.RightUnique fun e p => e ∈ k.children p := by
    intro e p q hp hq
    exact Option.some.inj (((h.child p e).mp hp).2.symm.trans ((h.child q e).mp hq).2)
  by_contra hne
  have hlt := h.child_lt hc
  have hlt' := h.child_lt hc'
  cases Relation.ReflTransGen.total_of_right_unique hunique hu hu' with
  | inl hup =>
    have hle := h.under_le (h.under_of_below hup hne hc)
    lia
  | inr hup =>
    have hle := h.under_le (h.under_of_below hup (Ne.symm hne) hc')
    lia

end Linked

def Stopped (k : Core) (d : ℕ) : Prop := ∀ e, Under k d e → (k.dev e).activated = false

def Settled (k : Core) (d : ℕ) : Prop :=
  ∀ e, Under k d e → (k.dev e).activated = false → Stopped k e

theorem Settled.child (h : Settled k d) (hc : c ∈ k.children d) : Settled k c := fun e hu => h e (hu.child hc)

theorem Inv.settled (h : Inv k) (d : ℕ) : Settled k d := by
  intro p _ hp e hu
  induction hu using Relation.ReflTransGen.head_induction_on with
  | refl => exact hp
  | head hc _ ih => exact h.idle ih _ hc

theorem Stops.stopped (h : Stops k k') (hd : Stopped k d) : Stopped k' d :=
  fun e hu => h.inactive (hd e ((h.under d e).mp hu))

theorem Stops.stopped_iff (h : Stops k k')
    (hsame : ∀ e, Under k d e → k'.dev e = k.dev e) : Stopped k' d ↔ Stopped k d := by
  refine ⟨fun hd e hu => ?_, h.stopped⟩
  rw [← hsame e hu]
  exact hd e ((h.under d e).mpr hu)

theorem Stops.settled (h : Stops k k')
    (hsame : ∀ e, Under k d e → k'.dev e = k.dev e) (hd : Settled k d) : Settled k' d := by
  intro e hu he
  rw [h.under] at hu
  rw [hsame e hu] at he
  exact h.stopped (hd e hu he)

section Ways

variable (answers : ℕ → ℤ)

/- `device_remove` by where it returns. -/
inductive Way (fuel : ℕ) (s : State) (d : ℕ) : ℤ → State → Prop where
  | idle : (s.core.dev d).activated = false → Way fuel s d 0 s
  | refused : (s.core.dev d).activated = true → answers s.calls ≠ 0 →
      Way fuel s d (answers s.calls) (s.called .preRemove d (answers s.calls))
  | kept {ret : ℤ} {s₂ : State} : (s.core.dev d).activated = true →
      chldRemove (deviceRemove answers fuel) (s.called .preRemove d 0) (s.core.children d) =
        some (ret, s₂) → ret ≠ 0 →
      Way fuel s d (answers s₂.calls) (s₂.called .postProbe d (answers s₂.calls))
  | stuck {s₂ : State} : (s.core.dev d).activated = true →
      chldRemove (deviceRemove answers fuel) (s.called .preRemove d 0) (s.core.children d) =
        some (0, s₂) → answers s₂.calls ≠ 0 →
      Way fuel s d (answers (s₂.calls + 1))
        ((s₂.called .remove d (answers s₂.calls)).called .postProbe d (answers (s₂.calls + 1)))
  | root {s₂ : State} : (s.core.dev d).activated = true →
      chldRemove (deviceRemove answers fuel) (s.called .preRemove d 0) (s.core.children d) =
        some (0, s₂) →
      Way fuel s d 0 ((s₂.called .remove d 0).setCore (s₂.core.deactivate d))
  | child {s₂ : State} : (s.core.dev d).activated = true →
      chldRemove (deviceRemove answers fuel) (s.called .preRemove d 0) (s.core.children d) =
        some (0, s₂) →
      Way fuel s d (answers (s₂.calls + 1))
        (((s₂.called .remove d 0).called .childPostRemove d
          (answers (s₂.calls + 1))).setCore (s₂.core.deactivate d))

variable {answers}

theorem deviceRemove_way {fuel : ℕ} {s s' : State} {d : ℕ} {ret : ℤ}
    (h : deviceRemove answers (fuel + 1) s d = some (ret, s')) : Way answers fuel s d ret s' := by
  rw [deviceRemove] at h
  by_cases hact : (s.core.dev d).activated = false
  · rw [if_pos hact] at h
    cases h
    exact .idle hact
  rw [if_neg hact] at h
  have hactive : (s.core.dev d).activated = true := by simpa using hact
  simp only [ask] at h
  by_cases hpre : answers s.calls = 0
  swap
  · simp only [ne_eq, hpre, not_false_eq_true, if_true] at h
    cases h
    exact .refused hactive hpre
  simp only [hpre, ne_eq, not_true_eq_false, if_false, called_core] at h
  cases hloop : chldRemove (deviceRemove answers fuel) (s.called .preRemove d 0)
      (s.core.children d) with
  | none =>
    rw [hloop] at h
    cases h
  | some r =>
    obtain ⟨ret₂, s₂⟩ := r
    rw [hloop] at h
    by_cases hret₂ : ret₂ = 0
    swap
    · simp only [hret₂, not_false_eq_true, if_true] at h
      cases h
      exact .kept hactive hloop hret₂
    simp only [hret₂, not_true_eq_false, if_false] at h
    rw [hret₂] at hloop
    by_cases hrem : answers s₂.calls = 0
    swap
    · simp only [hrem, not_false_eq_true, if_true] at h
      cases h
      exact .stuck hactive hloop hrem
    simp only [hrem, not_true_eq_false, if_false] at h
    split at h
    · cases h
      exact .child hactive hloop
    · cases h
      exact .root hactive hloop

end Ways

def Granted (evs : List Event) : Prop := ∀ hook e a, Event.call hook e a ∈ evs → a = 0

variable {evs evs' : List Event}

theorem Granted.left (h : Granted (evs ++ evs')) : Granted evs :=
  fun hook e a hmem => h hook e a (mem_append_left _ hmem)

theorem Granted.right (h : Granted (evs ++ evs')) : Granted evs' :=
  fun hook e a hmem => h hook e a (mem_append_right _ hmem)

theorem Granted.append (h : Granted evs) (h' : Granted evs') : Granted (evs ++ evs') := by
  intro hook e a hmem
  cases mem_append.mp hmem with
  | inl hmem => exact h hook e a hmem
  | inr hmem => exact h' hook e a hmem

theorem granted_call {hook : Hook} {a : ℤ} : Granted [.call hook d a] ↔ a = 0 := by
  refine ⟨fun h => h hook d a (mem_singleton_self _), fun ha hook' e b hmem => ?_⟩
  rw [mem_singleton] at hmem
  cases hmem
  exact ha

/- 0 is returned for a device that is not active now and only then, and nothing below such a
device is active. -/
def Truthful (k : Core) (d : ℕ) (ret : ℤ) (k' : Core) : Prop :=
  (ret = 0 ↔ (k'.dev d).activated = false) ∧
    (ret = 0 → ∀ e, Below k d e → (k'.dev e).activated = false)

/- `post_probe` fails where the error path of the device calls it, and where `remove` of the
device succeeds all hooks of the call do. -/
def HooksTell (d : ℕ) (evs : List Event) : Prop :=
  (∀ a, Event.call .postProbe d a ∈ evs → a ≠ 0) ∧ (Event.call .remove d 0 ∈ evs → Granted evs)

structure Told (s : State) (d : ℕ) (ret : ℤ) (s' : State) (evs : List Event) : Prop where
  events : s'.events = s.events ++ evs
  stops : Stops s.core s'.core
  near : From d evs
  frame : ∀ e, ¬ Under s.core d e → s'.core.dev e = s.core.dev e
  clean : Settled s.core d → Granted evs → ret = 0 ∧ Stopped s'.core d
  granted : ret = 0 → Stopped s'.core d → Granted evs
  truth : Settled s.core d → (Truthful s.core d ret s'.core ↔ HooksTell d evs)

/- The removals of some children of `d`. -/
structure ChildrenTold (d : ℕ) (s : State) (cs : List ℕ) (ret : ℤ) (s' : State)
    (evs : List Event) : Prop where
  events : s'.events = s.events ++ evs
  stops : Stops s.core s'.core
  near : From (d + 1) evs
  frame : ∀ e, (∀ c ∈ cs, ¬ Under s.core c e) → s'.core.dev e = s.core.dev e
  clean : (∀ c ∈ cs, Settled s.core c) → Granted evs → ret = 0 ∧ ∀ c ∈ cs, Stopped s'.core c
  granted : ret = 0 → (∀ c ∈ cs, Stopped s'.core c) → Granted evs

section Told

variable {answers : ℕ → ℤ}

theorem chldRemove_told {remove : State → ℕ → Option (ℤ × State)} {d : ℕ}
    (hremove : ∀ {s s' : State} {c : ℕ} {ret : ℤ}, Linked s.core → remove s c = some (ret, s') →
      ∃ evs, Told s c ret s' evs) {cs : List ℕ} :
    ∀ {s s' : State} {ret : ℤ}, Linked s.core → cs.Nodup → (∀ c ∈ cs, c ∈ s.core.children d) →
      chldRemove remove s cs = some (ret, s') → ∃ evs, ChildrenTold d s cs ret s' evs := by
  induction cs with
  | nil =>
    intro s s' ret _ _ _ h
    cases h
    exact ⟨[], by simp, Stops.refl _, by simp [From], fun _ _ => rfl, by simp, by simp [Granted]⟩
  | cons c cs ih =>
    intro s s' ret hl hnodup hcs h
    obtain ⟨hnot, hnodup⟩ := nodup_cons.mp hnodup
    have hc := hcs c mem_cons_self
    rw [chldRemove] at h
    cases hcall : remove s c with
    | none =>
      rw [hcall] at h
      cases h
    | some r =>
      obtain ⟨ret₁, s₁⟩ := r
      rw [hcall] at h
      obtain ⟨evs, htold⟩ := hremove hl hcall
      have hnear : From (d + 1) evs := htold.near.mono (hl.child_lt hc)
      by_cases hret : ret₁ = 0
      · simp only [hret, ne_eq, not_true_eq_false, if_false] at h
        obtain ⟨evs', hrest⟩ := ih (htold.stops.linked hl) hnodup (fun e he => by
          rw [htold.stops.children]
          exact hcs e (mem_cons_of_mem _ he)) h
        -- the subtrees of the children have nothing in common
        have hother : ∀ c' ∈ cs, ∀ e, Under s.core c' e → ¬ Under s.core c e := by
          intro c' hc' e hu' hu
          rw [hl.siblings hc (hcs c' (mem_cons_of_mem _ hc')) hu hu'] at hnot
          exact hnot hc'
        have hkeep : ∀ e, Under s.core c e → s'.core.dev e = s₁.core.dev e := by
          intro e hu
          refine hrest.frame e fun c' hc' hu' => ?_
          exact hother c' hc' e ((htold.stops.under c' e).mp hu') hu
        refine ⟨evs ++ evs', ?_, htold.stops.trans hrest.stops, hnear.append hrest.near, ?_, ?_, ?_⟩
        · rw [hrest.events, htold.events, append_assoc]
        · intro e he
          rw [hrest.frame e fun c' hc' hu => he c' (mem_cons_of_mem _ hc')
            ((htold.stops.under c' e).mp hu)]
          exact htold.frame e (he c mem_cons_self)
        · intro hset hgr
          obtain ⟨-, hstopped⟩ := htold.clean (hset c mem_cons_self) hgr.left
          obtain ⟨h0, hstopped'⟩ := hrest.clean (fun c' hc' => htold.stops.settled
            (fun e hu => htold.frame e (hother c' hc' e hu))
            (hset c' (mem_cons_of_mem _ hc'))) hgr.right
          refine ⟨h0, fun c' hc' => ?_⟩
          cases mem_cons.mp hc' with
          | inl heq =>
            rw [heq]
            exact hrest.stops.stopped hstopped
          | inr hmem => exact hstopped' c' hmem
        · intro h0 hall
          have hstopped : Stopped s₁.core c := by
            refine (hrest.stops.stopped_iff fun e hu => ?_).mp (hall c mem_cons_self)
            exact hkeep e ((htold.stops.under c e).mp hu)
          exact (htold.granted hret hstopped).append
            (hrest.granted h0 fun c' hc' => hall c' (mem_cons_of_mem _ hc'))
      · simp only [ne_eq, hret, not_false_eq_true, if_true] at h
        cases h
        refine ⟨evs, htold.events, htold.stops, hnear,
          fun e he => htold.frame e (he c mem_cons_self), fun hset hgr => ?_,
          fun h0 => absurd h0 hret⟩
        exact absurd (htold.clean (hset c mem_cons_self) hgr).1 hret

section Parts

variable {s s₂ s' : State} {d : ℕ} {ret ret₂ : ℤ} {evs more : List Event}

theorem ChildrenTold.dev_self (hl : Linked s.core)
    (hch : ChildrenTold d (s.called .preRemove d 0) (s.core.children d) ret₂ s₂ evs) :
    s₂.core.dev d = s.core.dev d := by
  refine hch.frame d fun c hc hu => ?_
  have hlt := hl.child_lt hc
  have hle := hl.under_le hu
  lia

theorem ChildrenTold.frame_under
    (hch : ChildrenTold d (s.called .preRemove d 0) (s.core.children d) ret₂ s₂ evs) {e : ℕ}
    (he : ¬ Under s.core d e) : s₂.core.dev e = s.core.dev e :=
  hch.frame e fun _ hc hu => he (hu.child hc)

theorem From.not_mem (h : From (d + 1) evs) (hook : Hook) (a : ℤ) : Event.call hook d a ∉ evs := by
  intro hmem
  have hle := h hook d a hmem
  lia

theorem Told.error (hl : Linked s.core) (hact : (s.core.dev d).activated = true)
    (hch : ChildrenTold d (s.called .preRemove d 0) (s.core.children d) ret₂ s₂ evs)
    (hmore : more = [] ∧ ret₂ ≠ 0 ∨ ∃ a, more = [.call .remove d a] ∧ a ≠ 0)
    (hevents : s'.events = s₂.events ++ more ++ [.call .postProbe d ret])
    (hcore : s'.core = s₂.core) :
    Told s d ret s' (.call .preRemove d 0 :: (evs ++ more ++ [.call .postProbe d ret])) := by
  have hactive : (s'.core.dev d).activated = true := by
    rw [hcore, hch.dev_self hl]
    exact hact
  have hfrom : From d more := by
    cases hmore with
    | inl h =>
      rw [h.1]
      simp [From]
    | inr h =>
      obtain ⟨a, hm, -⟩ := h
      rw [hm]
      exact from_call _ _ _
  refine ⟨?_, by rw [hcore]; exact hch.stops, ?_, ?_, ?_, ?_, ?_⟩
  · rw [hevents, hch.events, called_events]
    simp
  · exact (from_call _ _ _).append (((hch.near.mono (Nat.le_succ d)).append hfrom).append
      (from_call _ _ _))
  · intro e he
    rw [hcore]
    exact hch.frame_under he
  · intro hset hgr
    -- something has failed on the way
    have hgr' : Granted (evs ++ more) := fun hook e a hmem =>
      hgr hook e a (mem_cons_of_mem _ (mem_append_left _ hmem))
    cases hmore with
    | inl h => exact absurd (hch.clean (fun c hc => hset.child hc) hgr'.left).1 h.2
    | inr h =>
      obtain ⟨a, hm, ha⟩ := h
      rw [hm] at hgr'
      exact absurd (granted_call.mp hgr'.right) ha
  · intro _ hstopped
    have hidle := hstopped d (under_self _ d)
    rw [hactive] at hidle
    cases hidle
  · intro _
    have hprobe : ∀ a, Event.call .postProbe d a ∈
        Event.call .preRemove d 0 :: (evs ++ more ++ [.call .postProbe d ret]) ↔ a = ret := by
      intro a
      have hnot := hch.near.not_mem .postProbe a
      cases hmore with
      | inl h => simp [h.1, hnot]
      | inr h =>
        obtain ⟨b, hm, -⟩ := h
        simp [hm, hnot]
    have hremove : Event.call .remove d 0 ∉
        Event.call .preRemove d 0 :: (evs ++ more ++ [.call .postProbe d ret]) := by
      have hnot := hch.near.not_mem .remove 0
      cases hmore with
      | inl h => simp [h.1, hnot]
      | inr h =>
        obtain ⟨b, hm, hb⟩ := h
        simp [hm, hnot, hb.symm]
    have htell : HooksTell d (.call .preRemove d 0 :: (evs ++ more ++ [.call .postProbe d ret])) ↔
        ret ≠ 0 := by
      refine ⟨fun h => h.1 ret ((hprobe ret).mpr rfl), fun hret => ⟨fun a ha => ?_, fun hmem =>
        absurd hmem hremove⟩⟩
      rw [(hprobe a).mp ha]
      exact hret
    rw [htell]
    constructor
    · intro h hret
      have hidle := h.1.mp hret
      rw [hactive] at hidle
      cases hidle
    · intro hret
      exact ⟨by simp [hret, hactive], fun h0 => absurd h0 hret⟩

theorem Told.done (hl : Linked s.core)
    (hch : ChildrenTold d (s.called .preRemove d 0) (s.core.children d) 0 s₂ evs)
    (hmore : more = [] ∧ ret = 0 ∨ more = [.call .childPostRemove d ret])
    (hevents : s'.events = s₂.events ++ .call .remove d 0 :: more)
    (hcore : s'.core = s₂.core.deactivate d) :
    Told s d ret s' (.call .preRemove d 0 :: (evs ++ .call .remove d 0 :: more)) := by
  have hstops : Stops s₂.core s'.core := by
    rw [hcore]
    exact deactivate_stops _ d
  have hself : (s'.core.dev d).activated = false := by
    rw [hcore]
    simp [Core.deactivate]
  have hother : ∀ e, e ≠ d → s'.core.dev e = s₂.core.dev e := by
    intro e he
    rw [hcore]
    exact dev_setDev_ne _ _ he
  have hfrom : From d more := by
    cases hmore with
    | inl h =>
      rw [h.1]
      simp [From]
    | inr h =>
      rw [h]
      exact from_call _ _ _
  have hgrmore : Granted more ↔ ret = 0 := by
    cases hmore with
    | inl h => simp [h.1, h.2, Granted]
    | inr h =>
      rw [h]
      exact granted_call
  have hsplit : Granted (.call .preRemove d 0 :: (evs ++ .call .remove d 0 :: more)) ↔
      Granted evs ∧ ret = 0 := by
    refine ⟨fun h => ?_, fun h => ?_⟩
    · have h' : Granted (evs ++ .call .remove d 0 :: more) :=
        fun hook e a hmem => h hook e a (mem_cons_of_mem _ hmem)
      exact ⟨h'.left, hgrmore.mp fun hook e a hmem => h'.right hook e a (mem_cons_of_mem _ hmem)⟩
    · have h0 : ∀ hook, Granted [.call hook d 0] := fun _ => granted_call.mpr rfl
      exact (h0 .preRemove).append (h.1.append ((h0 .remove).append (hgrmore.mpr h.2)))
  have hbelow : (∀ e, Below s.core d e → (s'.core.dev e).activated = false) ↔
      ∀ c ∈ s.core.children d, Stopped s₂.core c := by
    refine ⟨fun h c hc e hu => ?_, fun h e he => ?_⟩
    · have hu' : Under s.core c e := (hch.stops.under c e).mp hu
      have hne : e ≠ d := by
        have hlt := hl.child_lt hc
        have hle := hl.under_le hu'
        lia
      rw [← hother e hne]
      exact h e (below_iff.mpr ⟨c, hc, hu'⟩)
    · obtain ⟨c, hc, hu⟩ := below_iff.mp he
      exact hstops.inactive (h c hc e ((hch.stops.under c e).mpr hu))
  have hclean : Settled s.core d →
      (Granted evs ↔ ∀ e, Below s.core d e → (s'.core.dev e).activated = false) := by
    intro hset
    rw [hbelow]
    exact ⟨fun h => (hch.clean (fun c hc => hset.child hc) h).2, fun h => hch.granted rfl h⟩
  refine ⟨?_, hch.stops.trans hstops, ?_, ?_, ?_, ?_, ?_⟩
  · rw [hevents, hch.events, called_events]
    simp
  · exact (from_call _ _ _).append ((hch.near.mono (Nat.le_succ d)).append
      ((from_call .remove d 0).append hfrom))
  · intro e he
    have hne : e ≠ d := by
      intro heq
      rw [heq] at he
      exact he (under_self _ d)
    rw [hother e hne]
    exact hch.frame_under he
  · intro hset hgr
    obtain ⟨hevs, h0⟩ := hsplit.mp hgr
    refine ⟨h0, fun e hu => ?_⟩
    rw [(hch.stops.trans hstops).under, under_iff] at hu
    cases hu with
    | inl heq =>
      rw [heq]
      exact hself
    | inr hb => exact (hclean hset).mp hevs e hb
  · intro h0 hstopped
    refine hsplit.mpr ⟨hch.granted rfl (hbelow.mp fun e he => ?_), h0⟩
    refine hstopped e (((hch.stops.trans hstops).under d e).mpr ?_)
    exact under_iff.mpr (.inr he)
  · intro hset
    have htell : HooksTell d (.call .preRemove d 0 :: (evs ++ .call .remove d 0 :: more)) ↔
        Granted evs ∧ ret = 0 := by
      rw [← hsplit]
      refine ⟨fun h => h.2 (by simp), fun h => ⟨fun a hmem => ?_, fun _ => h⟩⟩
      have hnot := hch.near.not_mem .postProbe a
      cases hmore with
      | inl h => simp [h.1, hnot] at hmem
      | inr h => simp [h, hnot] at hmem
    rw [htell, hclean hset]
    constructor
    · intro h
      have h0 := h.1.mpr hself
      exact ⟨h.2 h0, h0⟩
    · intro h
      exact ⟨by simp [h.2, hself], fun _ => h.1⟩

end Parts

theorem deviceRemove_told {fuel : ℕ} : ∀ {s s' : State} {d : ℕ} {ret : ℤ}, Linked s.core →
    deviceRemove answers fuel s d = some (ret, s') → ∃ evs, Told s d ret s' evs := by
  induction fuel with
  | zero =>
    intro s s' d ret _ h
    cases h
  | succ fuel ih =>
    intro s s' d ret hl h
    have hloop := fun {ret₂ : ℤ} {s₂ : State} =>
      @chldRemove_told _ d (fun hl hc => ih hl hc) _ (s.called .preRemove d 0) s₂ ret₂ hl
        (hl.childNodup d) fun _ hc => hc
    cases deviceRemove_way h with
    | idle hact =>
      refine ⟨[], by simp, Stops.refl _, by simp [From], fun _ _ => rfl,
        fun hset _ => ⟨rfl, hset d (under_self _ d) hact⟩, by simp [Granted], fun hset => ?_⟩
      have hbelow : ∀ e, Below s.core d e → (s.core.dev e).activated = false :=
        fun e he => hset d (under_self _ d) hact e (under_iff.mpr (.inr he))
      exact iff_of_true ⟨by simp [hact], fun _ => hbelow⟩ (by simp [HooksTell])
    | refused hact hpre =>
      refine ⟨[.call .preRemove d _], rfl, Stops.refl _, from_call _ _ _, fun _ _ => rfl,
        fun _ hgr => absurd (granted_call.mp hgr) hpre, fun h0 => absurd h0 hpre, fun _ => ?_⟩
      refine iff_of_true ⟨?_, fun h0 => absurd h0 hpre⟩ (by simp [HooksTell])
      simp [hpre, hact]
    | kept hact hcall hret =>
      obtain ⟨evs, hch⟩ := hloop hcall
      exact ⟨_, Told.error hl hact hch (.inl ⟨rfl, hret⟩) (by simp) rfl⟩
    | stuck hact hcall hrem =>
      obtain ⟨evs, hch⟩ := hloop hcall
      exact ⟨_, Told.error hl hact hch (.inr ⟨_, rfl, hrem⟩) rfl rfl⟩
    | root hact hcall =>
      obtain ⟨evs, hch⟩ := hloop hcall
      exact ⟨_, Told.done hl hch (.inl ⟨rfl, rfl⟩) rfl rfl⟩
    | child hact hcall =>
      obtain ⟨evs, hch⟩ := hloop hcall
      exact ⟨_, Told.done hl hch (.inr rfl) (append_assoc _ [_] [_]) rfl⟩

end Told

variable (answers : ℕ → ℤ)

theorem remove_truthful {s : State} {d : ℕ} (h : Inv s.core) (hbound : (s.core.dev d).bound = true) :
    ∃ ret s' evs, deviceRemove answers (s.core.next + 1) s d = some (ret, s') ∧
      s'.events = s.events ++ evs ∧ (Truthful s.core d ret s'.core ↔ HooksTell d evs) := by
  have hlt := h.linked.lt d hbound
  obtain ⟨ret, s', -, hcall, -⟩ := deviceRemove_spec answers (s.core.next + 1) h.linked rfl hbound
    (by lia)
  obtain ⟨evs, htold⟩ := deviceRemove_told h.linked hcall
  exact ⟨ret, s', evs, hcall, htold.events, htold.truth (h.settled d)⟩

def lone : State :=
  ⟨⟨fun d => if d = 0 then ⟨none, 0, -1, 0, true, true⟩ else ⟨none, 0, -1, -1, false, false⟩,
    fun _ => [], fun u => if u = 0 then [0] else [], 1⟩, 0, []⟩

theorem lone_dev (d : ℕ) : (lone.core.dev d).parent = none ∧ (lone.core.dev d).uclass = 0 ∧
    ((lone.core.dev d).bound = true ↔ d = 0) ∧ ((lone.core.dev d).activated = true ↔ d = 0) := by
  by_cases hd : d = 0
  · simp [lone, hd]
  · simp [lone, hd]

theorem lone_inv : Inv lone.core := by
  have hparent : ∀ {d p : ℕ} {P : Prop}, (lone.core.dev d).parent = some p → P := by
    intro d p P hp
    rw [(lone_dev d).1] at hp
    cases hp
  have hbound := fun d => (lone_dev d).2.2.1
  have hactive := fun d => (lone_dev d).2.2.2
  refine ⟨⟨?_, fun d p _ hp => hparent hp, ?_, ?_, fun _ => nodup_nil, ?_⟩,
    ⟨?_, fun d p _ hp => hparent hp, ?_, ?_⟩⟩
  · intro d hd
    rw [(hbound d).mp hd]
    exact Nat.zero_lt_one
  · intro u
    by_cases hu : u = 0
    · simp [lone, hu]
    · simp [lone, hu]
  · intro u d
    rw [hbound, (lone_dev d).2.1]
    by_cases hu : u = 0
    · simp [lone, hu]
    · simp [lone, hu, Ne.symm hu]
  · intro p d
    rw [(lone_dev d).1]
    simp [lone]
  · intro d hd
    exact (hbound d).mpr ((hactive d).mp hd)
  · intro d hd
    rw [(hbound d).mp hd]
    simp [lone]
  · intro d e hd he _ _
    rw [(hactive d).mp hd, (hactive e).mp he]

theorem lone_truthful : ∃ ret s' evs, deviceRemove (fun _ => 0) 2 lone 0 = some (ret, s') ∧
    s'.events = lone.events ++ evs ∧ (Truthful lone.core 0 ret s'.core ↔ HooksTell 0 evs) :=
  remove_truthful (fun _ => 0) lone_inv rfl

/- `remove` fails, and the uclass has no `post_probe`. -/
theorem lone_not_truthful : Inv lone.core ∧ (lone.core.dev 0).bound = true ∧
    ∃ s', deviceRemove (fun n => if n = 1 then -5 else 0) 2 lone 0 = some (0, s') ∧
      ¬ Truthful lone.core 0 0 s'.core := by
  refine ⟨lone_inv, rfl, _, rfl, fun h => ?_⟩
  have hidle := h.1.mp rfl
  exact absurd hidle (by decide)

end UBoot.Dm
