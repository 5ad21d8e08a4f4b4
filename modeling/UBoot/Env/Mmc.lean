import Mathlib.Tactic

/-!
# The redundant environment in MMC (common/env_mmc.c)

Two copies of the environment, each with a CRC and a serial number of 8 bits. `saveenv` writes the copy
that is not in use, `env_relocate_spec` loads the one it takes for the newer. The checksum is a
parameter, and so is the type of the exported data.
-/

namespace UBoot.Env.Mmc

variable {Data : Type}

/- `env_t` of a build with `CONFIG_SYS_REDUNDAND_ENVIRONMENT`. -/
structure EnvT (Data : Type) where
  crc : UInt32
  flags : UInt8
  data : Data
  deriving Repr, DecidableEq

inductive Copy where
  | first
  | redundant
  deriving Repr, DecidableEq

structure Card (Data : Type) where
  first : EnvT Data
  redundant : EnvT Data
  deriving Repr, DecidableEq

def Card.get (card : Card Data) : Copy → EnvT Data
  | .first => card.first
  | .redundant => card.redundant

def Card.set (card : Card Data) (env : EnvT Data) : Copy → Card Data
  | .first => { card with first := env }
  | .redundant => { card with redundant := env }

def Copy.other : Copy → Copy
  | .first => .redundant
  | .redundant => .first

/- `gd->env_valid` (1 is the first copy, 2 the redundant one) and the static
`env_flags`. -/
structure Ram where
  envValid : Copy
  envFlags : UInt8
  deriving Repr, DecidableEq

section Relocate

variable (crc32 : Data → UInt32)

def crcOk (env : EnvT Data) : Bool := crc32 env.data == env.crc

/- The choice between the copies (`env_mmc.c:258-280`); `none` is a bad CRC in both. -/
def chooseCopy (crc1Ok crc2Ok : Bool) (flags1 flags2 : UInt8) : Option Copy :=
  if !crc1Ok && !crc2Ok then none
  else if crc1Ok && !crc2Ok then some .first
  else if !crc1Ok && crc2Ok then some .redundant
  else if flags1 == 255 && flags2 == 0 then some .redundant
  else if flags2 == 255 && flags1 == 0 then some .first
  else if flags1 > flags2 then some .first
  else if flags2 > flags1 then some .redundant
  else some .first

def chosen (card : Card Data) : Option Copy :=
  chooseCopy (crcOk crc32 card.first) (crcOk crc32 card.redundant)
    card.first.flags card.redundant.flags

/-- `env_relocate_spec` (`env_mmc.c:211-297`) on a card that can be read: the state
after it and the data it imports, `none` for the default environment. What
`env_init` and the zeroed static left stays as it is when both copies are bad. -/
def envRelocateSpec (card : Card Data) : Ram × Option Data :=
  match chosen crc32 card with
  | none => (⟨.first, 0⟩, none)
  | some copy => (⟨copy, (card.get copy).flags⟩, some (card.get copy).data)

end Relocate

section Save

variable (crc32 : Data → UInt32)

/- How far a call of `saveenv` gets: initialising the card fails, exporting fails,
finding the address fails, the write fails and leaves something in the copy, or all
goes well. -/
inductive Outcome (Data : Type) where
  | initFails
  | exportFails
  | addrFails
  | writeFails (left : EnvT Data)
  | done

/- The copy that `saveenv` builds: the serial number is increased with wrap-around. -/
def envNew (ram : Ram) (data : Data) : EnvT Data := ⟨crc32 data, ram.envFlags + 1, data⟩

/-- `saveenv` (`env_mmc.c:145-193`): the return value, and the state after it. -/
def saveenv (ram : Ram) (card : Card Data) (data : Data) : Outcome Data → ℕ × Ram × Card Data
  | .initFails => (1, ram, card)
  | .exportFails => (1, ram, card)
  | .addrFails => (1, { ram with envFlags := ram.envFlags + 1 }, card)
  | .writeFails left =>
    (1, { ram with envFlags := ram.envFlags + 1 }, card.set left ram.envValid.other)
  | .done =>
    (0, ⟨ram.envValid.other, ram.envFlags + 1⟩, card.set (envNew crc32 ram data) ram.envValid.other)

/- Where power is lost during a save: before the copy was touched, while it was
written, or after it was complete. -/
inductive Cut (Data : Type) where
  | before
  | during (left : EnvT Data)
  | after

def Cut.latest (c : Cut Data) (data : Data) (latest : Option Data) : Option Data :=
  match c with
  | .after => some data
  | _ => latest

def saveCut (ram : Ram) (card : Card Data) (data : Data) : Cut Data → Card Data
  | .before => card
  | .during left => card.set left ram.envValid.other
  | .after => card.set (envNew crc32 ram data) ram.envValid.other

end Save

/- A machine, off or running, with the contents that a reboot should load. -/
structure Machine (Data : Type) where
  ram : Option Ram
  card : Card Data
  latest : Option Data

/-- Runs from any card. Saves that write their copy completely meet `ok`; a copy that
was written in part has a bad CRC. -/
inductive Run (crc32 : Data → UInt32) (ok : Ram → Card Data → Prop) : Machine Data → Prop where
  | start (card : Card Data) : Run crc32 ok ⟨none, card, (envRelocateSpec crc32 card).2⟩
  | boot {m : Machine Data} (h : Run crc32 ok m) :
      Run crc32 ok { m with ram := some (envRelocateSpec crc32 m.card).1 }
  | save {ram : Ram} {card : Card Data} {latest : Option Data}
      (h : Run crc32 ok ⟨some ram, card, latest⟩) (data : Data) (o : Outcome Data)
      (hbad : ∀ left, o = .writeFails left → crcOk crc32 left = false)
      (hok : o = .done → ok ram card) :
      Run crc32 ok ⟨some (saveenv crc32 ram card data o).2.1, (saveenv crc32 ram card data o).2.2,
        if (saveenv crc32 ram card data o).1 = 0 then some data else latest⟩
  | cut {ram : Ram} {card : Card Data} {latest : Option Data}
      (h : Run crc32 ok ⟨some ram, card, latest⟩) (data : Data) (c : Cut Data)
      (hbad : ∀ left, c = .during left → crcOk crc32 left = false)
      (hok : c = .after → ok ram card) :
      Run crc32 ok ⟨none, saveCut crc32 ram card data c, c.latest data latest⟩

/- The choice between the copy in use and a copy with the next serial number. -/
def chooseNext (ram : Ram) (card : Card Data) : Option Copy :=
  match ram.envValid with
  | .first => chooseCopy true true card.first.flags (ram.envFlags + 1)
  | .redundant => chooseCopy true true (ram.envFlags + 1) card.redundant.flags

/- The serial numbers of a save: the copy in use has a bad CRC, or the choice of
`env_relocate_spec` between it and the next serial number falls on the new copy. -/
def SerialOk (crc32 : Data → UInt32) (ram : Ram) (card : Card Data) : Prop :=
  crcOk crc32 (card.get ram.envValid) = false ∨ chooseNext ram card = some ram.envValid.other

instance (crc32 : Data → UInt32) (ram : Ram) (card : Card Data) :
    Decidable (SerialOk crc32 ram card) :=
  inferInstanceAs (Decidable (_ ∨ _))

section Invariant

variable {crc32 : Data → UInt32}

@[simp] theorem get_set_self (card : Card Data) (env : EnvT Data) (copy : Copy) :
    (card.set env copy).get copy = env := by
  cases copy with
  | first => rfl
  | redundant => rfl

@[simp] theorem get_set_other (card : Card Data) (env : EnvT Data) (copy : Copy) :
    (card.set env copy.other).get copy = card.get copy := by
  cases copy with
  | first => rfl
  | redundant => rfl

theorem envNew_crcOk (ram : Ram) (data : Data) : crcOk crc32 (envNew crc32 ram data) = true := by
  simp [crcOk, envNew]

variable {card : Card Data}

theorem chosen_of_other_bad (copy : Copy) (h : crcOk crc32 (card.get copy.other) = false) :
    chosen crc32 card = if crcOk crc32 (card.get copy) then some copy else none := by
  cases copy with
  | first =>
    have h2 : crcOk crc32 card.redundant = false := h
    cases hc : crcOk crc32 card.first with
    | false => simp [chosen, chooseCopy, Card.get, h2, hc]
    | true => simp [chosen, chooseCopy, Card.get, h2, hc]
  | redundant =>
    have h2 : crcOk crc32 card.first = false := h
    cases hc : crcOk crc32 card.redundant with
    | false => simp [chosen, chooseCopy, Card.get, h2, hc]
    | true => simp [chosen, chooseCopy, Card.get, h2, hc]

variable {copy : Copy}

theorem chosen_crcOk (h : chosen crc32 card = some copy) : crcOk crc32 (card.get copy) = true := by
  cases h1 : crcOk crc32 card.first with
  | false =>
    have hf := chosen_of_other_bad .redundant h1
    rw [h] at hf
    cases copy with
    | first => split at hf <;> simp at hf
    | redundant =>
      by_contra hc
      rw [if_neg hc] at hf
      simp at hf
  | true =>
    cases h2 : crcOk crc32 card.redundant with
    | false =>
      have hr := chosen_of_other_bad .first h2
      rw [h, Card.get, if_pos h1] at hr
      obtain rfl := Option.some.inj hr
      exact h1
    | true =>
      cases copy with
      | first => exact h1
      | redundant => exact h2

theorem chosen_ne_none (h : crcOk crc32 (card.get copy) = true) : chosen crc32 card ≠ none := by
  unfold chosen chooseCopy
  cases copy with
  | first =>
    have h1 : crcOk crc32 card.first = true := h
    rw [h1]
    split_ifs <;> simp_all
  | redundant =>
    have h2 : crcOk crc32 card.redundant = true := h
    rw [h2]
    split_ifs <;> simp_all

theorem other_other (copy : Copy) : copy.other.other = copy := by
  cases copy with
  | first => rfl
  | redundant => rfl

variable {ram : Ram}

theorem chosen_new (data : Data) (hok : SerialOk crc32 ram card) :
    chosen crc32 (card.set (envNew crc32 ram data) ram.envValid.other) = some ram.envValid.other := by
  cases hact : crcOk crc32 (card.get ram.envValid) with
  | false =>
    have hother : crcOk crc32 ((card.set (envNew crc32 ram data) ram.envValid.other).get
        ram.envValid.other.other) = false := by
      rw [other_other, get_set_other]
      exact hact
    rw [chosen_of_other_bad _ hother, get_set_self, if_pos (envNew_crcOk ram data)]
  | true =>
    have hpick := hok.resolve_left (by simp [hact])
    have hnew : crcOk crc32 (envNew crc32 ram data) = true := envNew_crcOk ram data
    have hflags : (envNew crc32 ram data).flags = ram.envFlags + 1 := rfl
    cases hv : ram.envValid with
    | first =>
      rw [hv] at hpick hact
      have h1 : crcOk crc32 card.first = true := hact
      simpa only [chosen, chooseNext, Card.set, Copy.other, hnew, hflags, h1, hv] using hpick
    | redundant =>
      rw [hv] at hpick hact
      have h1 : crcOk crc32 card.redundant = true := hact
      simpa only [chosen, chooseNext, Card.set, Copy.other, hnew, hflags, h1, hv] using hpick

/- What a reboot would load is what it should load, and a running machine has the copy
that a reboot would choose in use. -/
structure Inv (crc32 : Data → UInt32) (m : Machine Data) : Prop where
  loads : (envRelocateSpec crc32 m.card).2 = m.latest
  inUse : ∀ ram, m.ram = some ram → ∀ copy, chosen crc32 m.card = some copy → copy = ram.envValid

theorem loads_of_chosen (h : chosen crc32 card = some copy) :
    (envRelocateSpec crc32 card).2 = some (card.get copy).data := by
  simp only [envRelocateSpec, h]

theorem spoiled_same {left : EnvT Data} (hbad : crcOk crc32 left = false)
    (huse : ∀ copy, chosen crc32 card = some copy → copy = ram.envValid) :
    chosen crc32 (card.set left ram.envValid.other) = chosen crc32 card ∧
      (envRelocateSpec crc32 (card.set left ram.envValid.other)).2 =
        (envRelocateSpec crc32 card).2 := by
  have hother : crcOk crc32 ((card.set left ram.envValid.other).get ram.envValid.other) = false := by
    rw [get_set_self]
    exact hbad
  have hnew := chosen_of_other_bad _ hother
  rw [get_set_other] at hnew
  cases hold : chosen crc32 card with
  | none =>
    have hact : crcOk crc32 (card.get ram.envValid) = false := by
      by_contra hc
      rw [Bool.not_eq_false] at hc
      exact chosen_ne_none hc hold
    rw [if_neg (by simp [hact])] at hnew
    exact ⟨hnew, by simp only [envRelocateSpec, hnew, hold]⟩
  | some copy =>
    obtain rfl := huse copy hold
    rw [if_pos (chosen_crcOk hold)] at hnew
    refine ⟨hnew, ?_⟩
    rw [loads_of_chosen hnew, loads_of_chosen hold, get_set_other]

theorem inv_save {latest : Option Data} (data : Data)
    (o : Outcome Data) (h : Inv crc32 ⟨some ram, card, latest⟩)
    (hbad : ∀ left, o = .writeFails left → crcOk crc32 left = false)
    (hok : o = .done → SerialOk crc32 ram card) :
    Inv crc32 ⟨some (saveenv crc32 ram card data o).2.1, (saveenv crc32 ram card data o).2.2,
      if (saveenv crc32 ram card data o).1 = 0 then some data else latest⟩ := by
  have huse := h.inUse ram rfl
  cases o with
  | initFails => exact ⟨h.loads, fun r hr => by cases hr; exact huse⟩
  | exportFails => exact ⟨h.loads, fun r hr => by cases hr; exact huse⟩
  | addrFails => exact ⟨h.loads, fun r hr => by cases hr; exact huse⟩
  | writeFails left =>
    obtain ⟨hsame, hload⟩ := spoiled_same (hbad left rfl) huse
    refine ⟨hload.trans h.loads, fun r hr copy hcopy => ?_⟩
    cases hr
    exact huse copy (hsame ▸ hcopy)
  | done =>
    have hnew := chosen_new data (hok rfl)
    refine ⟨?_, fun r hr copy hcopy => ?_⟩
    · simp only [saveenv, if_true]
      rw [loads_of_chosen hnew, get_set_self, envNew]
    · cases hr
      simp only [saveenv] at hcopy ⊢
      rw [hnew] at hcopy
      exact (Option.some.inj hcopy).symm

theorem inv_cut {latest : Option Data} (data : Data)
    (c : Cut Data) (h : Inv crc32 ⟨some ram, card, latest⟩)
    (hbad : ∀ left, c = .during left → crcOk crc32 left = false)
    (hok : c = .after → SerialOk crc32 ram card) :
    Inv crc32 ⟨none, saveCut crc32 ram card data c, c.latest data latest⟩ := by
  cases c with
  | before => exact ⟨h.loads, by simp⟩
  | during left =>
    obtain ⟨-, hload⟩ := spoiled_same (hbad left rfl) (h.inUse ram rfl)
    exact ⟨hload.trans h.loads, by simp⟩
  | after =>
    have hnew := chosen_new data (hok rfl)
    refine ⟨?_, by simp⟩
    simp only [saveCut, Cut.latest]
    rw [loads_of_chosen hnew, get_set_self, envNew]

theorem inv_boot {m : Machine Data} (h : Inv crc32 m) :
    Inv crc32 { m with ram := some (envRelocateSpec crc32 m.card).1 } := by
  refine ⟨h.loads, fun ram hram copy hcopy => ?_⟩
  cases hram
  simp only [envRelocateSpec, hcopy]

theorem inv_run {m : Machine Data} (h : Run crc32 (SerialOk crc32) m) : Inv crc32 m := by
  induction h with
  | start card => exact ⟨rfl, by simp⟩
  | boot _ ih => exact inv_boot ih
  | save _ data o hbad hok ih => exact inv_save data o ih hbad hok
  | cut _ data c hbad hok ih => exact inv_cut data c ih hbad hok

end Invariant

/-- In every run whose complete saves meet `SerialOk`, a reboot at any point loads the
contents of the most recent complete save. -/
theorem reboot_loads_latest (crc32 : Data → UInt32) (m : Machine Data)
    (h : Run crc32 (SerialOk crc32) m) : (envRelocateSpec crc32 m.card).2 = m.latest :=
  (inv_run h).loads

def sum8 (data : List UInt8) : UInt32 := data.foldl (fun s b => s + b.toUInt32) 0

/- A save, a save that fails half-way, and a save after it, on a card whose first copy
has the serial number 41. -/
theorem reboot_loads_latest_after_failure : ∃ m,
    Run sum8 (SerialOk sum8) m ∧ (envRelocateSpec sum8 m.card).2 = some [3] ∧
      m.card.first.flags = 44 := by
  have h0 : Run sum8 (SerialOk sum8) _ := .start ⟨⟨9, 41, [9]⟩, ⟨1, 0, []⟩⟩
  have h1 := h0.boot
  have h2 := h1.save [1] .done (by simp) (fun _ => by right; decide)
  have h3 := h2.save [2] (.writeFails ⟨0, 7, [5]⟩) (by intro l hl; cases hl; decide) (by simp)
  have h4 := h3.save [3] .done (by simp) (fun _ => by right; decide)
  exact ⟨_, h4, reboot_loads_latest sum8 _ h4, by decide⟩

/- After a failed save at the serial number 254 the older copy wins: the next save gets the serial
number 0, and 254 is taken for the newer one. -/
theorem older_wins (crc32 : List UInt8 → UInt32) : ∃ m,
    Run crc32 (fun _ _ => True) m ∧ m.latest = some [2] ∧
      (envRelocateSpec crc32 m.card).2 = some [1] := by
  have hbad : crcOk crc32 ⟨crc32 [] + 1, 0, []⟩ = false := by simp [crcOk]
  have hgood : crcOk crc32 ⟨crc32 [1], 254, [1]⟩ = true := by simp [crcOk]
  have hch : chosen crc32 ⟨⟨crc32 [1], 254, [1]⟩, ⟨crc32 [] + 1, 0, []⟩⟩ = some .first := by
    simp [chosen, hbad, hgood, chooseCopy]
  have h0 : Run crc32 (fun _ _ => True) _ :=
    .start ⟨⟨crc32 [1], 254, [1]⟩, ⟨crc32 [] + 1, 0, []⟩⟩
  have h1 := h0.boot
  simp only [envRelocateSpec, hch, Card.get] at h1
  have h2 := h1.save [0] (.writeFails ⟨crc32 [] + 1, 0, []⟩)
    (by intro l hl; cases hl; exact hbad) (by simp)
  have h3 := h2.save [2] .done (by simp) (fun _ => trivial)
  refine ⟨_, h3, rfl, ?_⟩
  have hnew : crcOk crc32 ⟨crc32 [2], 0, [2]⟩ = true := by simp [crcOk]
  have hch3 : chosen crc32 ⟨⟨crc32 [1], 254, [1]⟩, ⟨crc32 [2], 0, [2]⟩⟩ = some .first := by
    simp only [chosen, hgood, hnew]
    decide
  have hwrap : (254 : UInt8) + 1 + 1 = 0 := by decide
  simp only [saveenv, Card.set, Copy.other, envNew, hwrap]
  exact loads_of_chosen hch3

theorem reboot_loads_older : ∃ m, Run sum8 (fun _ _ => True) m ∧ m.latest = some [2] ∧
    (envRelocateSpec sum8 m.card).2 = some [1] :=
  older_wins sum8

end UBoot.Env.Mmc
