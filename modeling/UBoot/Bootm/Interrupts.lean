import UBoot.Bootm.States

/-!
# What a call of do_bootm_states leaves behind

Interrupts are given back at the label `err` and where there is no boot function, but not at the two
returns in between.
-/

namespace UBoot.Bootm

open List Option

def Clean (x : Step × ℤ) : Prop := x.2 = 0 ∨ x = (.loadOs, bootmErrOverlap)

def StopsAtFailure (ran : List (Step × ℤ)) : Prop := ran.Pairwise fun x _ => Clean x

section Inputs

variable {σ : Type} (boot : Boot σ) (states : ℕ)

/- `fakegocmd` is run, and fails. -/
def CommandFails (images : σ) : Prop :=
  chosen boot states .osFakeGo ∧ boot.hasFakegocmd images ∧
    (boot.run .fakegocmd (boot.run .osFakeGo images).2).1 ≠ 0

def BootFails (images : σ) : Prop :=
  lacksBootFn boot states images = false ∧
    (through boot states [.osCmdline, .osBdT, .osPrep] images).elim True (CommandFails boot states)

/- A step between the load and the start of the operating system fails. -/
def FailsLate (images : σ) : Prop :=
  (through boot states [.ramdisk, .fdt] images).elim True (BootFails boot states)

def FakeGoFails (images : σ) : Prop :=
  chosen boot states .osFakeGo ∧ (boot.run .osFakeGo images).1 ≠ 0 ∧
    (boot.hasFakegocmd images ∨ chosen boot states .osGo)

/- The images at the lookup of the boot function, and on the first stage behind it. -/
def BootDrops (images : σ) : Prop :=
  lacksBootFn boot states images = false ∧
    (through boot states [.osCmdline, .osBdT, .osPrep] images).elim False (FakeGoFails boot states)

def Drops (images : σ) : Prop :=
  (through boot states [.ramdisk, .fdt] images).elim False (BootDrops boot states)

def load (images : σ) : Option σ :=
  let (ret, images) := boot.run .loadOs images
  if ret = 0 then some (boot.reserveOs images)
  else if ret = bootmErrOverlap then some images
  else none

def found (images : σ) : Option σ := through boot states [.start, .findOs, .findOther] images

def loaded (images : σ) : Option σ :=
  (found boot states images).bind fun images =>
    if chosen boot states .loadOs then load boot images else some images

end Inputs

structure Ends {σ : Type} (iflag : Bool) (late drops : Prop) (m : Machine σ) (r : ℤ × Machine σ) :
    Prop where
  ran : ∃ l, r.2.ran = m.ran ++ l ∧ (StopsAtFailure l ↔ ¬ drops)
  kept : late → r.2.interrupts = m.interrupts
  restored : ¬ late → r.2.interrupts = (iflag || m.interrupts)

section Rest

variable {σ : Type} {boot : Boot σ} {states : ℕ} {m m' : Machine σ} {r : ℤ × Machine σ}
  {steps : List Step} {iflag : Bool} {late drops : Prop} {ret : ℤ} {k l : List (Step × ℤ)}

theorem stops_clean (hk : ∀ x, x ∈ k → Clean x) : StopsAtFailure (k ++ l) ↔ StopsAtFailure l := by
  constructor
  · intro h
    exact (pairwise_append.mp h).2.1
  · intro h
    have hfront : StopsAtFailure k := by
      exact List.Pairwise.imp_of_mem (fun hx _ _ => hk _ hx) (pairwise_of_forall fun _ _ => trivial)
    exact pairwise_append.mpr ⟨hfront, h, fun x hx y _ => hk x hx⟩

theorem stops_single (x : Step × ℤ) : StopsAtFailure [x] := pairwise_singleton _ _

theorem Went.clean (h : Went steps 0 l) (x : Step × ℤ) (hx : x ∈ l) : Clean x := by
  cases h with
  | ok h => exact .inl (h x hx).2
  | failed h hs hret => exact absurd rfl hret

theorem Went.stops (h : Went steps ret l) : StopsAtFailure l := by
  cases h with
  | ok h =>
    have hl : StopsAtFailure (l ++ []) := (stops_clean fun x hx => .inl (h x hx).2).mpr List.Pairwise.nil
    rwa [append_nil] at hl
  | failed h hs hret => exact (stops_clean fun x hx => .inl (h x hx).2).mpr (stops_single _)

theorem Stage.ends (h : Stage steps m r) (hlate : late) (hdrops : ¬ drops) :
    Ends iflag late drops m r := by
  obtain ⟨l, hran, hwent⟩ := h.ran
  exact ⟨⟨l, hran, iff_of_true hwent.stops hdrops⟩, fun _ => h.interrupts, fun hnot => absurd hlate hnot⟩

theorem Stage.endsThen (h : Stage steps m (0, m')) (hrest : Ends iflag late drops m' r) :
    Ends iflag late drops m r := by
  obtain ⟨k, hran, hwent⟩ := h.ran
  obtain ⟨l, hran', hstops⟩ := hrest.ran
  have hint : m'.interrupts = m.interrupts := h.interrupts
  refine ⟨⟨k ++ l, ?_, (stops_clean hwent.clean).trans hstops⟩, ?_, ?_⟩
  · rw [hran', ← append_assoc]
    exact congrArg (· ++ l) hran
  · rw [← hint]
    exact hrest.kept
  · rw [← hint]
    exact hrest.restored

theorem leave_interrupts (iflag : Bool) (r : ℤ × Machine σ) :
    (leave iflag r).2.interrupts = (iflag || r.2.interrupts) := by
  cases iflag with
  | false => rfl
  | true => rfl

theorem leave_ran (iflag : Bool) (r : ℤ × Machine σ) : (leave iflag r).2.ran = r.2.ran := by
  cases iflag with
  | false => rfl
  | true => rfl

theorem leave_ends (hlate : ¬ late) (hran : ∃ l, r.2.ran = m.ran ++ l ∧ (StopsAtFailure l ↔ ¬ drops))
    (hint : r.2.interrupts = m.interrupts) : Ends iflag late drops m (leave iflag r) := by
  refine ⟨?_, fun h => absurd h hlate, fun _ => ?_⟩
  · rw [leave_ran]
    exact hran
  · rw [leave_interrupts, hint]

variable (boot states) in
theorem goOs_spec (m : Machine σ) : (goOs boot states m).2.interrupts = m.interrupts ∧
    ∃ l, (goOs boot states m).2.ran = m.ran ++ l ∧ StopsAtFailure l ∧
      (l = [] ↔ chosen boot states .osGo = false) := by
  unfold goOs
  split
  next hgo =>
    have hne : [(Step.osGo, (boot.run .osGo m.images).1)] ≠ [] := cons_ne_nil _ _
    exact ⟨rfl, _, rfl, stops_single _, iff_of_false hne (by rw [hgo]; exact Bool.noConfusion)⟩
  next hgo =>
    exact ⟨rfl, [], (append_nil _).symm, List.Pairwise.nil,
      iff_of_true rfl (Bool.eq_false_iff.mpr hgo)⟩

theorem stops_cons {x : Step × ℤ} (hl : StopsAtFailure l) :
    StopsAtFailure (x :: l) ↔ (l = [] ∨ Clean x) := by
  constructor
  · intro h
    cases l with
    | nil => exact .inl rfl
    | cons y l => exact .inr ((pairwise_cons.mp h).1 y mem_cons_self)
  · rintro (rfl | hx)
    · exact stops_single x
    · exact pairwise_cons.mpr ⟨fun _ _ => hx, hl⟩

theorem clean_fakeGo : Clean (.osFakeGo, ret) ↔ ret = 0 := by
  constructor
  · rintro (h | h)
    · exact h
    · exact absurd (Prod.mk.inj h).1 (by decide)
  · exact fun h => .inl h

variable (boot states iflag) in
theorem ends_fakeGo (m : Machine σ) :
    Ends iflag (CommandFails boot states m.images) (FakeGoFails boot states m.images) m
      (if (fakeGo boot states (0, m)).1 ≠ 0 then fakeGo boot states (0, m)
        else leave iflag (goOs boot states (fakeGo boot states (0, m)).2)) := by
  by_cases hfake : chosen boot states .osFakeGo = true
  swap
  · have hskip : fakeGo boot states (0, m) = (0, m) := if_neg fun hboth => hfake hboth.2
    obtain ⟨hint, l, hran, hstops, -⟩ := goOs_spec boot states m
    rw [hskip, if_neg (fun hne => hne rfl)]
    exact leave_ends (fun h => hfake h.1) ⟨l, hran, iff_of_true hstops fun h => hfake h.1⟩ hint
  set m₁ := (call boot .osFakeGo m).2 with hm₁
  have hran₁ : m₁.ran = m.ran ++ [(.osFakeGo, (boot.run .osFakeGo m.images).1)] := rfl
  have hselected : bootSelectedOs boot .osFakeGo m = (0, m₁) := Prod.ext (if_pos (.inr rfl)) rfl
  by_cases hcmd : boot.hasFakegocmd m.images = true
  · have hgo : fakeGo boot states (0, m) = call boot .fakegocmd m₁ := by
      unfold fakeGo
      rw [if_pos ⟨rfl, hfake⟩]
      simp only [hselected, hcmd, and_self, if_true]
    have hran₂ : (call boot .fakegocmd m₁).2.ran = m.ran ++
        [(.osFakeGo, (boot.run .osFakeGo m.images).1), (.fakegocmd, (boot.run .fakegocmd m₁.images).1)] := by
      exact (congrArg (· ++ [(Step.fakegocmd, _)]) hran₁).trans (append_assoc _ _ _)
    have hdrops : ∀ l : List (Step × ℤ), l ≠ [] →
        ((l = [] ∨ Clean (.osFakeGo, (boot.run .osFakeGo m.images).1)) ↔
          ¬ FakeGoFails boot states m.images) := by
      intro l hl
      rw [or_iff_right hl, clean_fakeGo]
      exact ⟨fun h hfails => hfails.2.1 h, fun h => not_not.mp fun hne => h ⟨hfake, hne, .inl hcmd⟩⟩
    rw [hgo]
    by_cases hret : (boot.run .fakegocmd m₁.images).1 = 0
    · obtain ⟨hint, l, hran, hstops, -⟩ :=
        goOs_spec boot states (call boot .fakegocmd m₁).2
      have hzero : (call boot .fakegocmd m₁).1 = 0 := hret
      rw [if_neg (fun hne => hne hzero)]
      refine leave_ends (fun h => h.2.2 hret) ⟨_, by rw [hran, hran₂, append_assoc], ?_⟩ hint
      have hrest : StopsAtFailure ((.fakegocmd, (boot.run .fakegocmd m₁.images).1) :: l) :=
        (stops_cons hstops).mpr (.inr (.inl hret))
      exact (stops_cons hrest).trans (hdrops _ (cons_ne_nil _ _))
    · have hne : (call boot .fakegocmd m₁).1 ≠ 0 := hret
      rw [if_pos hne]
      exact ⟨⟨_, hran₂, (stops_cons (stops_single _)).trans (hdrops _ (cons_ne_nil _ _))⟩,
        fun _ => rfl, fun hnot => absurd ⟨hfake, hcmd, hret⟩ hnot⟩
  · have hgo : fakeGo boot states (0, m) = (0, m₁) := by
      unfold fakeGo
      rw [if_pos ⟨rfl, hfake⟩]
      simp only [hselected, Bool.eq_false_iff.mpr hcmd, Bool.false_eq_true, and_false, if_false]
    obtain ⟨hint, l, hran, hstops, hnil⟩ := goOs_spec boot states m₁
    rw [hgo, if_neg (fun hne => hne rfl)]
    refine leave_ends (fun h => hcmd h.2.1) ⟨_, by rw [hran, hran₁, append_assoc], ?_⟩ hint
    refine (stops_cons hstops).trans ?_
    rw [hnil, clean_fakeGo]
    constructor
    · rintro (hno | hzero) hfails
      · rcases hfails.2.2 with hc | hc
        · exact hcmd hc
        · rw [hno] at hc
          exact Bool.noConfusion hc
      · exact hfails.2.1 hzero
    · intro hnot
      by_contra hcon
      rw [not_or, Bool.not_eq_false] at hcon
      exact hnot ⟨hfake, hcon.2, .inr hcon.1⟩

variable (boot states) in
theorem through_cases (steps : List Step) (m : Machine σ) :
    (∃ m', runStates boot states (0, m) steps = (0, m') ∧
        through boot states steps m.images = some m'.images) ∨
      (runStates boot states (0, m) steps).1 ≠ 0 ∧ through boot states steps m.images = none := by
  by_cases hzero : (runStates boot states (0, m) steps).1 = 0
  · exact .inl ⟨_, Prod.ext hzero rfl, through_eq.trans (if_pos hzero)⟩
  · exact .inr ⟨hzero, through_eq.trans (if_neg hzero)⟩

variable (boot states) in
theorem stage_through (steps : List Step) (m : Machine σ) :
    Stage steps m (runStates boot states (0, m) steps) := by
  have hnone : Stage [] m (0, m) := Stage.refl m
  exact stage_runStates steps hnone

theorem ends_bootOs (m : Machine σ) :
    Ends iflag (BootFails boot states m.images) (BootDrops boot states m.images) m
      (bootOs boot states iflag m) := by
  unfold bootOs
  split
  next hlacks =>
    have hnil : m.ran = m.ran ++ [] := (append_nil _).symm
    refine leave_ends (fun h => ?_) ⟨[], hnil, iff_of_true List.Pairwise.nil fun h => ?_⟩ rfl
    · exact absurd (hlacks.symm.trans h.1) Bool.noConfusion
    · exact absurd (hlacks.symm.trans h.1) Bool.noConfusion
  next hlacks =>
    have hfn : lacksBootFn boot states m.images = false := Bool.eq_false_iff.mpr hlacks
    have hstage := stage_through boot states [.osCmdline, .osBdT, .osPrep] m
    rcases through_cases boot states [.osCmdline, .osBdT, .osPrep] m with
      ⟨m', hrun, hthrough⟩ | ⟨hne, hthrough⟩
    · rw [hrun] at hstage
      have hrest := ends_fakeGo boot states iflag m'
      simp only [BootFails, BootDrops, hfn, hthrough, elim_some, true_and, hrun]
      exact hstage.endsThen hrest
    · have hkeep : fakeGo boot states (runStates boot states (0, m) [.osCmdline, .osBdT, .osPrep]) =
          runStates boot states (0, m) [.osCmdline, .osBdT, .osPrep] :=
        if_neg fun hboth => hne hboth.1
      simp only [BootFails, BootDrops, hfn, hthrough, elim_none, true_and, hkeep]
      rw [if_pos hne]
      exact hstage.ends trivial not_false

variable (boot states iflag) in
theorem ends_afterLoad (m : Machine σ) :
    Ends iflag (FailsLate boot states m.images) (Drops boot states m.images) m
      (afterLoad boot states iflag (0, m)) := by
  have hstage := stage_through boot states [.ramdisk, .fdt] m
  rcases through_cases boot states [.ramdisk, .fdt] m with
    ⟨m', hrun, hthrough⟩ | ⟨hne, hthrough⟩
  · rw [hrun] at hstage
    have hafter : afterLoad boot states iflag (0, m) = bootOs boot states iflag m' := by
      unfold afterLoad relocate
      rw [hrun]
      exact if_neg fun h => h rfl
    simp only [FailsLate, Drops, hthrough, elim_some, hafter]
    exact hstage.endsThen (ends_bootOs m')
  · have hafter : afterLoad boot states iflag (0, m) = runStates boot states (0, m) [.ramdisk, .fdt] :=
      if_pos hne
    simp only [FailsLate, Drops, hthrough, elim_none, hafter]
    exact hstage.ends trivial not_false

variable (boot) in
theorem load_cases (m : Machine σ) : ∃ x, (loadOs boot m).2.ran = m.ran ++ [x] ∧
    (loadOs boot m).2.interrupts = false ∧
      ((loadOs boot m).1 = 0 ∧ Clean x ∧ load boot m.images = some (loadOs boot m).2.images ∨
        (loadOs boot m).1 ≠ 0 ∧ load boot m.images = none) := by
  refine ⟨(.loadOs, (boot.run .loadOs m.images).1), ?_⟩
  unfold loadOs load call
  dsimp only
  split
  next hzero => exact ⟨rfl, rfl, .inl ⟨rfl, .inl hzero, rfl⟩⟩
  next hzero =>
    split
    next hover => exact ⟨rfl, rfl, .inl ⟨rfl, .inr (Prod.ext rfl hover), rfl⟩⟩
    next hover => exact ⟨rfl, rfl, .inr ⟨hzero, rfl⟩⟩

end Rest

structure Call (σ : Type) where
  before : σ → σ
  boot : Boot σ
  states : ℕ

section Calls

variable {σ : Type}

def Call.entry (c : Call σ) (m : Machine σ) : Machine σ := ⟨c.before m.images, m.interrupts, []⟩

def Call.run (c : Call σ) (m : Machine σ) : ℤ × Machine σ :=
  doBootmStates c.boot c.states (c.entry m)

structure Right (c : Call σ) (m : Machine σ) : Prop where
  stops : StopsAtFailure (c.run m).2.ran
  interrupts : (c.run m).2.interrupts = m.interrupts

/- The call loads the operating system with interrupts on, and a step behind that fails. -/
def StaysOff (c : Call σ) (m : Machine σ) : Prop :=
  m.interrupts = true ∧ chosen c.boot c.states .loadOs ∧
    (loaded c.boot c.states (c.before m.images)).elim False (FailsLate c.boot c.states)

def GoesOn (c : Call σ) (m : Machine σ) : Prop :=
  (loaded c.boot c.states (c.before m.images)).elim False (Drops c.boot c.states)

def AllCalls (P : Call σ → Machine σ → Prop) : List (Call σ) → Machine σ → Prop
  | [], _ => True
  | c :: calls, m => P c m ∧ AllCalls P calls (c.run m).2

theorem allCalls_iff {P Q : Call σ → Machine σ → Prop} (h : ∀ c m, P c m ↔ Q c m)
    (calls : List (Call σ)) (m : Machine σ) : AllCalls P calls m ↔ AllCalls Q calls m := by
  induction calls generalizing m with
  | nil => exact Iff.rfl
  | cons c calls ih => exact and_congr (h c m) (ih _)

theorem right_iff {c : Call σ} {m m' : Machine σ} {iflag : Bool} {late drops : Prop}
    (hclean : ∀ x, x ∈ m'.ran → Clean x) (hends : Ends iflag late drops m' (c.run m)) :
    Right c m ↔ ((late → m'.interrupts = m.interrupts) ∧
      (¬ late → (iflag || m'.interrupts) = m.interrupts)) ∧ ¬ drops := by
  obtain ⟨l, hran, hstops⟩ := hends.ran
  have hall : StopsAtFailure (c.run m).2.ran ↔ ¬ drops := by
    rw [hran]
    exact (stops_clean hclean).trans hstops
  constructor
  · intro h
    refine ⟨⟨fun hlate => ?_, fun hlate => ?_⟩, hall.mp h.stops⟩
    · exact (hends.kept hlate).symm.trans h.interrupts
    · exact (hends.restored hlate).symm.trans h.interrupts
  · rintro ⟨⟨hkept, hrestored⟩, hdrops⟩
    refine ⟨hall.mpr hdrops, ?_⟩
    by_cases hlate : late
    · exact (hends.kept hlate).trans (hkept hlate)
    · exact (hends.restored hlate).trans (hrestored hlate)

section Front

variable {c : Call σ} {m m' : Machine σ}

theorem right_notFound
    (hne : (runStates c.boot c.states (0, c.entry m) [.start, .findOs, .findOther]).1 ≠ 0) :
    Right c m := by
  have hcall : c.run m = runStates c.boot c.states (0, c.entry m) [.start, .findOs, .findOther] := by
    unfold Call.run doBootmStates
    rw [if_neg fun hboth => hne hboth.1]
    unfold afterLoad relocate
    rw [runStates_failed hne, if_pos hne]
  have hstage := stage_through c.boot c.states [.start, .findOs, .findOther] (c.entry m)
  rw [← hcall] at hstage
  obtain ⟨l, hran, hwent⟩ := hstage.ran
  have hlog : (c.run m).2.ran = l := hran
  exact ⟨hlog ▸ hwent.stops, hstage.interrupts⟩

theorem front_spec
    (hrun : runStates c.boot c.states (0, c.entry m) [.start, .findOs, .findOther] = (0, m')) :
    (∀ x, x ∈ m'.ran → Clean x) ∧ m'.interrupts = m.interrupts := by
  have hstage := stage_through c.boot c.states [.start, .findOs, .findOther] (c.entry m)
  rw [hrun] at hstage
  obtain ⟨l, hran, hwent⟩ := hstage.ran
  have hlog : m'.ran = l := hran
  exact ⟨hlog ▸ hwent.clean, hstage.interrupts⟩

theorem right_notLoaded
    (hrun : runStates c.boot c.states (0, c.entry m) [.start, .findOs, .findOther] = (0, m'))
    (hload : chosen c.boot c.states .loadOs = false) : Right c m ↔ ¬ Drops c.boot c.states m'.images := by
  have hcall : c.run m = afterLoad c.boot c.states false (0, m') := by
    unfold Call.run doBootmStates
    rw [hrun]
    exact if_neg fun hboth => Bool.eq_false_iff.mp hload hboth.2
  have hends := ends_afterLoad c.boot c.states false m'
  rw [← hcall] at hends
  obtain ⟨hclean, hint⟩ := front_spec hrun
  rw [right_iff hclean hends]
  exact and_iff_right ⟨fun _ => hint, fun _ => hint⟩

theorem right_loaded
    (hrun : runStates c.boot c.states (0, c.entry m) [.start, .findOs, .findOther] = (0, m'))
    (hload : chosen c.boot c.states .loadOs = true) :
    Right c m ↔ ¬ (m.interrupts = true ∧ (load c.boot m'.images).elim False (FailsLate c.boot c.states)) ∧
      ¬ (load c.boot m'.images).elim False (Drops c.boot c.states) := by
  obtain ⟨hclean, hint⟩ := front_spec hrun
  obtain ⟨x, hran, hoff, hcases⟩ := load_cases c.boot m'
  have hcall : c.run m = if (loadOs c.boot m').1 ≠ 0 then leave m'.interrupts (loadOs c.boot m')
      else afterLoad c.boot c.states m'.interrupts (loadOs c.boot m') := by
    unfold Call.run doBootmStates
    rw [hrun]
    exact if_pos ⟨rfl, hload⟩
  rcases hcases with ⟨hzero, hx, himages⟩ | ⟨hne, himages⟩
  · have hload₀ : loadOs c.boot m' = (0, (loadOs c.boot m').2) := Prod.ext hzero rfl
    rw [if_neg (fun hne => hne hzero), hload₀] at hcall
    have hends := ends_afterLoad c.boot c.states m'.interrupts (loadOs c.boot m').2
    rw [← hcall] at hends
    have hall : ∀ y, y ∈ (loadOs c.boot m').2.ran → Clean y := by
      intro y hy
      rw [hran] at hy
      rcases mem_append.mp hy with hy | hy
      · exact hclean y hy
      · rw [mem_singleton.mp hy]
        exact hx
    rw [right_iff hall hends, himages]
    refine and_congr_left fun _ => ?_
    rw [hoff, hint, Bool.or_false]
    constructor
    · rintro ⟨hkept, -⟩ ⟨hon, hlate⟩
      exact Bool.noConfusion ((hkept hlate).trans hon)
    · intro hnot
      refine ⟨fun hlate => ?_, fun _ => rfl⟩
      exact (Bool.eq_false_iff.mpr fun hon => hnot ⟨hon, hlate⟩).symm
  · rw [if_pos hne] at hcall
    rw [himages]
    refine iff_of_true ⟨?_, ?_⟩ ⟨fun h => h.2, not_false⟩
    · rw [hcall, leave_ran, hran]
      exact (stops_clean hclean).mpr (stops_single x)
    · rw [hcall, leave_interrupts, hoff, hint, Bool.or_false]

end Front

theorem right_call (c : Call σ) (m : Machine σ) : Right c m ↔ ¬ StaysOff c m ∧ ¬ GoesOn c m := by
  unfold StaysOff GoesOn
  rcases through_cases c.boot c.states [.start, .findOs, .findOther] (c.entry m)
    with ⟨m', hrun, hthrough⟩ | ⟨hne, hthrough⟩
  · have hfound : found c.boot c.states (c.before m.images) = some m'.images := hthrough
    unfold loaded
    rw [hfound, bind_some]
    by_cases hload : chosen c.boot c.states .loadOs = true
    · rw [right_loaded hrun hload, if_pos hload, and_iff_right hload]
    · rw [right_notLoaded hrun (Bool.eq_false_iff.mpr hload), if_neg hload]
      exact (and_iff_right fun h => hload h.2.1).symm
  · have hfound : found c.boot c.states (c.before m.images) = none := hthrough
    unfold loaded
    rw [hfound, bind_none]
    exact iff_of_true (right_notFound hne) ⟨fun h => h.2.2, not_false⟩

/- A call stops at its first failure and gives interrupts back, unless one of the two returns without
`err` is taken behind a load, or a step follows a pretended start that failed. -/
theorem calls_stop_and_restore (calls : List (Call σ)) (m : Machine σ) :
    AllCalls Right calls m ↔ AllCalls (fun c m => ¬ StaysOff c m ∧ ¬ GoesOn c m) calls m :=
  allCalls_iff right_call calls m

def ramdiskFails : Call Unit where
  before := id
  boot :=
    { config := ⟨true, true, false⟩
      run := fun s images => (if s = .ramdisk then -1 else 0, images)
      reserveOs := id
      hasBootFn := fun _ => true
      hasFakegocmd := fun _ => false
      standalone := fun _ => false }
  states := 0x1f

theorem ramdisk_leaves_interrupts_off : ¬ AllCalls Right [ramdiskFails] ⟨(), true, []⟩ := by
  intro h
  have hoff : (ramdiskFails.run ⟨(), true, []⟩).2.interrupts = false := by decide +kernel
  exact Bool.noConfusion (hoff.symm.trans h.1.interrupts)

end Calls

end UBoot.Bootm
