import Mathlib.Tactic

/-!
# The states of bootm (common/bootm.c)

`do_bootm_states` over steps that may return anything and change the images in any way, with
`boot_selected_os` (common/bootm_os.c). Messages and the reset behind `BOOTM_ERR_RESET` are left
out.
-/

namespace UBoot.Bootm

open List

def bootmErrReset : ℤ := -1
def bootmErrOverlap : ℤ := -2
def bootmErrUnimplemented : ℤ := -3

/- `fakegocmd` is the list of commands behind `osFakeGo`. -/
inductive Step where
  | start | findOs | findOther | loadOs | ramdisk | fdt | osCmdline | osBdT | osPrep | osFakeGo
  | fakegocmd | osGo
deriving DecidableEq

/- The bit of `BOOTM_STATE_...`. -/
def Step.bit : Step → ℕ
  | .start => 0
  | .findOs => 1
  | .findOther => 2
  | .loadOs => 3
  | .ramdisk => 4
  | .fdt => 5
  | .osCmdline => 6
  | .osBdT => 7
  | .osPrep => 8
  | .osFakeGo | .fakegocmd => 9
  | .osGo => 10

def wants (states : ℕ) (s : Step) : Bool := states.testBit s.bit

structure Config where
  -- CONFIG_SYS_BOOT_RAMDISK_HIGH
  ramdiskHigh : Bool
  -- CONFIG_OF_LIBFDT with CONFIG_LMB
  relocateFdt : Bool
  -- CONFIG_TRACE
  trace : Bool

def Config.has (config : Config) : Step → Bool
  | .ramdisk => config.ramdiskHigh
  | .fdt => config.relocateFdt
  | .osFakeGo | .fakegocmd => config.trace
  | _ => true

structure Boot (σ : Type) where
  config : Config
  run : Step → σ → ℤ × σ
  -- `lmb_reserve` of a kernel that was loaded
  reserveOs : σ → σ
  hasBootFn : σ → Bool
  hasFakegocmd : σ → Bool
  -- IH_TYPE_STANDALONE
  standalone : σ → Bool

/- `ran` has the steps with their results, the first one first. -/
structure Machine (σ : Type) where
  images : σ
  interrupts : Bool
  ran : List (Step × ℤ)

section Call

variable {σ : Type} (boot : Boot σ) (states : ℕ)

def chosen (s : Step) : Bool := wants states s && boot.config.has s

def call (s : Step) (m : Machine σ) : ℤ × Machine σ :=
  let (ret, images) := boot.run s m.images
  (ret, { m with images := images, ran := m.ran ++ [(s, ret)] })

/- `if (!ret && (states & ...))`. -/
def runState (r : ℤ × Machine σ) (s : Step) : ℤ × Machine σ :=
  if r.1 = 0 ∧ chosen boot states s then call boot s r.2 else r

def runStates (r : ℤ × Machine σ) (steps : List Step) : ℤ × Machine σ :=
  steps.foldl (runState boot states) r

def bootSelectedOs (s : Step) (m : Machine σ) : ℤ × Machine σ :=
  let (_, m) := call boot s m
  (if boot.standalone m.images ∨ s = .osFakeGo then 0 else bootmErrReset, m)

/- The label `err`. -/
def leave (iflag : Bool) (r : ℤ × Machine σ) : ℤ × Machine σ :=
  (r.1, if iflag then { r.2 with interrupts := true } else r.2)

def needBootFn : Bool :=
  wants states .osCmdline || wants states .osBdT || wants states .osPrep ||
    wants states .osFakeGo || wants states .osGo

def lacksBootFn (images : σ) : Bool := !boot.hasBootFn images && needBootFn states

def fakeGo (r : ℤ × Machine σ) : ℤ × Machine σ :=
  if r.1 = 0 ∧ chosen boot states .osFakeGo then
    let cmdList := boot.hasFakegocmd r.2.images
    let r := bootSelectedOs boot .osFakeGo r.2
    if r.1 = 0 ∧ cmdList then call boot .fakegocmd r.2 else r
  else r

def goOs (m : Machine σ) : ℤ × Machine σ :=
  if chosen boot states .osGo then bootSelectedOs boot .osGo m else (0, m)

def bootOs (iflag : Bool) (m : Machine σ) : ℤ × Machine σ :=
  if lacksBootFn boot states m.images then leave iflag (1, m)
  else
    let r := fakeGo boot states (runStates boot states (0, m) [.osCmdline, .osBdT, .osPrep])
    -- subcommand not supported
    if r.1 ≠ 0 then r else leave iflag (goOs boot states r.2)

def relocate (r : ℤ × Machine σ) : ℤ × Machine σ := runStates boot states r [.ramdisk, .fdt]

def afterLoad (iflag : Bool) (r : ℤ × Machine σ) : ℤ × Machine σ :=
  let r := relocate boot states r
  if r.1 ≠ 0 then r else bootOs boot states iflag r.2

def loadOs (m : Machine σ) : ℤ × Machine σ :=
  let (ret, m) := call boot .loadOs { m with interrupts := false }
  if ret = 0 then (0, { m with images := boot.reserveOs m.images })
  else if ret = bootmErrOverlap then (0, m)
  else (ret, m)

def doBootmStates (m : Machine σ) : ℤ × Machine σ :=
  let r := runStates boot states (0, m) [.start, .findOs, .findOther]
  if r.1 = 0 ∧ chosen boot states .loadOs then
    let iflag := r.2.interrupts
    let r := loadOs boot r.2
    if r.1 ≠ 0 then leave iflag r else afterLoad boot states iflag r
  else afterLoad boot states false r

end Call

section Through

variable {σ : Type} (boot : Boot σ) (states : ℕ)

/- The images behind the chosen ones of the steps, if they all return 0. -/
def through : List Step → σ → Option σ
  | [], images => some images
  | s :: steps, images =>
    if chosen boot states s then
      if (boot.run s images).1 = 0 then through steps (boot.run s images).2 else none
    else through steps images

variable {boot states} {m : Machine σ} {steps : List Step}

theorem runStates_failed {r : ℤ × Machine σ} (h : r.1 ≠ 0) : runStates boot states r steps = r := by
  induction steps with
  | nil => rfl
  | cons s steps ih =>
    have hs : runState boot states r s = r := if_neg fun hboth => h hboth.1
    exact (congrArg (fun r => runStates boot states r steps) hs).trans ih

theorem through_eq : through boot states steps m.images =
    if (runStates boot states (0, m) steps).1 = 0 then
      some (runStates boot states (0, m) steps).2.images else none := by
  induction steps generalizing m with
  | nil => rfl
  | cons s steps ih =>
    have hcons : runStates boot states (0, m) (s :: steps) =
        runStates boot states (runState boot states (0, m) s) steps := rfl
    rw [hcons, through]
    by_cases hs : chosen boot states s = true
    · have hrun : runState boot states (0, m) s = call boot s m := if_pos ⟨rfl, hs⟩
      rw [if_pos hs, hrun]
      by_cases hret : (boot.run s m.images).1 = 0
      · have hcall : call boot s m = (0, (call boot s m).2) := Prod.ext hret rfl
        rw [if_pos hret, hcall, ← ih]
        rfl
      · have hne : (call boot s m).1 ≠ 0 := hret
        rw [if_neg hret, runStates_failed hne, if_neg hne]
    · have hrun : runState boot states (0, m) s = (0, m) := if_neg fun hboth => hs hboth.2
      rw [if_neg hs, hrun, ih]

end Through

/- The steps that went on, all with 0 unless the last one ended the stage. -/
inductive Went (steps : List Step) : ℤ → List (Step × ℤ) → Prop
  | ok {l : List (Step × ℤ)} (h : ∀ x, x ∈ l → x.1 ∈ steps ∧ x.2 = 0) : Went steps 0 l
  | failed {l : List (Step × ℤ)} {s : Step} {ret : ℤ} (h : ∀ x, x ∈ l → x.1 ∈ steps ∧ x.2 = 0)
      (hs : s ∈ steps) (hret : ret ≠ 0) : Went steps ret (l ++ [(s, ret)])

structure Stage {σ : Type} (steps : List Step) (m : Machine σ) (r : ℤ × Machine σ) : Prop where
  ran : ∃ l, r.2.ran = m.ran ++ l ∧ Went steps r.1 l
  interrupts : r.2.interrupts = m.interrupts

section Stages

variable {σ : Type} {boot : Boot σ} {states : ℕ} {m m' : Machine σ} {r : ℤ × Machine σ}
  {steps steps' : List Step}

theorem Went.append {ret : ℤ} {l l' : List (Step × ℤ)} (h : Went steps 0 l)
    (h' : Went steps' ret l') : Went (steps ++ steps') ret (l ++ l') := by
  have hl : ∀ x, x ∈ l → x.1 ∈ steps ++ steps' ∧ x.2 = 0 := by
    cases h with
    | ok h => exact fun x hx => ⟨mem_append_left _ (h x hx).1, (h x hx).2⟩
    | failed h hs hret => exact absurd rfl hret
  have hall : ∀ {k}, (∀ x, x ∈ k → x.1 ∈ steps' ∧ x.2 = 0) →
      ∀ x, x ∈ l ++ k → x.1 ∈ steps ++ steps' ∧ x.2 = 0 := by
    intro k hk x hx
    rcases mem_append.mp hx with hx | hx
    · exact hl x hx
    · exact ⟨mem_append_right _ (hk x hx).1, (hk x hx).2⟩
  cases h' with
  | ok h' => exact .ok (hall h')
  | failed h' hs hret =>
    rw [← append_assoc]
    exact .failed (hall h') (mem_append_right _ hs) hret

theorem Went.weaken {ret : ℤ} {l : List (Step × ℤ)} (h : Went steps ret l)
    (hsub : ∀ s, s ∈ steps → s ∈ steps') : Went steps' ret l := by
  cases h with
  | ok h => exact .ok fun x hx => ⟨hsub _ (h x hx).1, (h x hx).2⟩
  | failed h hs hret => exact .failed (fun x hx => ⟨hsub _ (h x hx).1, (h x hx).2⟩) (hsub _ hs) hret

theorem Stage.refl (m : Machine σ) : Stage steps m (0, m) :=
  ⟨⟨[], (append_nil _).symm, .ok (fun _ hx => absurd hx not_mem_nil)⟩, rfl⟩

variable (boot) in
theorem stage_call (s : Step) (m : Machine σ) : Stage [s] m (call boot s m) := by
  refine ⟨⟨[(s, (boot.run s m.images).1)], rfl, ?_⟩, rfl⟩
  by_cases hret : (boot.run s m.images).1 = 0
  · have hcall : (call boot s m).1 = 0 := hret
    rw [hcall]
    refine .ok fun x hx => ?_
    rw [mem_singleton.mp hx]
    exact ⟨mem_singleton_self s, hret⟩
  · exact .failed (l := []) (fun _ hx => absurd hx not_mem_nil) (mem_singleton_self s) hret

theorem Stage.then {f : ℤ × Machine σ → ℤ × Machine σ} (h : Stage steps m r)
    (hkeep : r.1 ≠ 0 → f r = r) (hnext : r.1 = 0 → Stage steps' r.2 (f r)) :
    Stage (steps ++ steps') m (f r) := by
  obtain ⟨l, hran, hwent⟩ := h.ran
  by_cases hzero : r.1 = 0
  · obtain ⟨l', hran', hwent'⟩ := (hnext hzero).ran
    rw [hzero] at hwent
    exact ⟨⟨l ++ l', by rw [hran', hran, append_assoc], hwent.append hwent'⟩,
      (hnext hzero).interrupts.trans h.interrupts⟩
  · rw [hkeep hzero]
    exact ⟨⟨l, hran, hwent.weaken fun s hs => mem_append_left _ hs⟩, h.interrupts⟩

variable (boot states) in
theorem stage_runState (s : Step) (h : Stage steps m r) :
    Stage (steps ++ [s]) m (runState boot states r s) := by
  refine h.then (f := fun r => runState boot states r s) (fun hne => if_neg fun hboth => hne hboth.1)
    (fun hzero => ?_)
  unfold runState
  split
  · exact stage_call boot s r.2
  · have hr : r = (0, r.2) := Prod.ext hzero rfl
    rw [hr]
    exact Stage.refl r.2

theorem stage_runStates (next : List Step) (h : Stage steps m r) :
    Stage (steps ++ next) m (runStates boot states r next) := by
  induction next generalizing steps r with
  | nil =>
    rw [append_nil]
    exact h
  | cons s next ih =>
    have hstage := ih (stage_runState boot states s h)
    rw [append_assoc] at hstage
    exact hstage

end Stages

end UBoot.Bootm
