import Mathlib.Tactic

/-!
# Banks and stacked chips of SPI flash (drivers/mtd/spi/spi_flash.c)

How the loops cut a range into commands, with `CONFIG_SPI_FLASH_BAR` and `CONFIG_SF_DUAL_FLASH` and
no memory map. No transfer fails and nothing is locked; `size_t` is not bounded. Both parts of the
`flash->shift` of a single or stacked flash are 0.
-/

namespace UBoot.SpiBanks

open List

-- `SPI_FLASH_16MB_BOUN`
def bound : ℕ := 0x1000000

/- One chip or two stacked ones of `chip` bytes; `flash->size` is a `u32`. -/
structure Flash where
  chip : ℕ
  stacked : Bool
  pageSize : ℕ
  eraseSize : ℕ
  -- 0 for no limit
  maxWriteSize : ℕ
  hsize : (if stacked then 2 * chip else chip) < 2 ^ 32
  hpage : 0 < pageSize ∧ pageSize ∣ bound ∧ pageSize ∣ chip
  herase : 0 < eraseSize ∧ eraseSize ∣ bound ∧ eraseSize ∣ chip

def Flash.size (f : Flash) : ℕ := if f.stacked then 2 * f.chip else f.chip

def spiFlashDual (f : Flash) (addr : ℕ) : Bool × ℕ :=
  if f.stacked ∧ f.size / 2 ≤ addr then (true, addr - f.size / 2) else (false, addr)

def bankSel (offset : ℕ) : ℕ := offset / bound % 2 ^ 8

/- `flash->bank_curr`, and the bank register of the lower and of the upper chip. -/
structure Banks where
  curr : ℕ
  reg : Bool → ℕ

/-- The register is written in the chip that is selected, unless `bank_curr` names the bank. -/
def spiFlashWriteBar (s : Banks) (upper : Bool) (offset : ℕ) : Banks :=
  if bankSel offset = s.curr then s
  else ⟨bankSel offset, Function.update s.reg upper (bankSel offset)⟩

structure Command where
  upper : Bool
  bank : ℕ
  addr : ℕ
  len : ℕ

def Command.cells (c : Command) : List (Bool × ℕ) :=
  (List.range c.len).map fun i => (c.upper, c.bank * bound + (c.addr + i) % bound)

def barred (f : Flash) (s : Banks) (offset : ℕ) : Banks :=
  let (upper, addr) := spiFlashDual f offset
  spiFlashWriteBar s upper addr

/- It goes to the bank that the register of its chip holds. -/
def command (f : Flash) (s : Banks) (offset len : ℕ) : Command :=
  let (upper, addr) := spiFlashDual f offset
  ⟨upper, (barred f s offset).reg upper, addr % bound, len⟩

/- `bank_curr` is the bank of the offset in any case. -/
def readLen (f : Flash) (offset len : ℕ) : ℕ :=
  let remainLen := (bound * (bankSel (spiFlashDual f offset).2 + 1) + 2 ^ 32 - offset) % 2 ^ 32
  if len < remainLen then len else remainLen

def writeLen (f : Flash) (offset len : ℕ) : ℕ :=
  let chunkLen := min len (f.pageSize - offset % f.pageSize)
  if f.maxWriteSize ≠ 0 then min chunkLen f.maxWriteSize else chunkLen

/- The three loops, with the length of the next command as a parameter. -/
def transfer (f : Flash) (chunk : ℕ → ℕ → ℕ) : ℕ → Banks → ℕ → ℕ → Option (List Command × Banks)
  | 0, _, _, _ => none
  | n + 1, s, offset, len =>
    if len = 0 then some ([], s)
    else
      let next := chunk offset len
      (transfer f chunk n (barred f s offset) ((offset + next) % 2 ^ 32) (len - next)).map
        fun r => (command f s offset next :: r.1, r.2)

def spiFlashCmdReadOps (f : Flash) : ℕ → Banks → ℕ → ℕ → Option (List Command × Banks) :=
  transfer f (readLen f)

def spiFlashCmdWriteOps (f : Flash) : ℕ → Banks → ℕ → ℕ → Option (List Command × Banks) :=
  transfer f (writeLen f)

def spiFlashCmdEraseOps (f : Flash) (n : ℕ) (s : Banks) (offset len : ℕ) :
    Option (List Command × Banks) :=
  if offset % f.eraseSize ≠ 0 ∨ len % f.eraseSize ≠ 0 then some ([], s)
  else transfer f (fun _ _ => f.eraseSize) n s offset len

/- The loop ends, and its commands address the bytes of the range one after another. -/
def Addresses (f : Flash) (run : ℕ → Banks → ℕ → ℕ → Option (List Command × Banks)) (s : Banks)
    (offset len : ℕ) : Prop :=
  ∃ n r, run n s offset len = some r ∧
    r.1.flatMap Command.cells = (List.range' offset len).map (spiFlashDual f)

/-- The register of the chip at `offset` is written, or holds `bank_curr`. -/
def BankSet (f : Flash) (s : Banks) (offset : ℕ) : Prop :=
  bankSel (spiFlashDual f offset).2 = s.curr → s.reg (spiFlashDual f offset).1 = s.curr

/-- So it is at the start of a range, and where the range enters the upper chip; from a lower chip of
one bank it enters with `bank_curr` 0. -/
def BanksFit (f : Flash) (s : Banks) (offset len : ℕ) : Prop :=
  len = 0 ∨ BankSet f s offset ∧ (f.stacked = true → offset < f.chip → f.chip < offset + len →
    f.chip ≤ bound → s.reg true = 0)

def Inside (f : Flash) (offset len : ℕ) : Prop :=
  (spiFlashDual f offset).2 % bound + len ≤ bound ∧
    (f.stacked → offset < f.chip → offset + len ≤ f.chip)

section Commands

variable {f : Flash} {s : Banks} {offset len : ℕ}

theorem dual_eq (f : Flash) (addr : ℕ) : spiFlashDual f addr =
    if f.stacked ∧ f.chip ≤ addr then (true, addr - f.chip) else (false, addr) := by
  rw [spiFlashDual, Flash.size]
  cases f.stacked with
  | false => simp only [Bool.false_eq_true, false_and, if_false]
  | true => simp only [if_true, Nat.mul_div_cancel_left f.chip Nat.two_pos]

theorem bar_addr (h : offset < f.size) :
    bankSel (spiFlashDual f offset).2 * bound + (spiFlashDual f offset).2 % bound =
      (spiFlashDual f offset).2 := by
  have hsize := f.hsize
  rw [dual_eq, bankSel, bound]
  rw [Flash.size] at h
  split <;> dsimp only <;> lia

theorem barred_eq (f : Flash) (s : Banks) (offset : ℕ) : barred f s offset =
    spiFlashWriteBar s (spiFlashDual f offset).1 (spiFlashDual f offset).2 := rfl

theorem barred_curr : (barred f s offset).curr = bankSel (spiFlashDual f offset).2 := by
  rw [barred_eq, spiFlashWriteBar]
  split
  next h => exact h.symm
  next => rfl

theorem barred_other {upper : Bool} (h : upper ≠ (spiFlashDual f offset).1) :
    (barred f s offset).reg upper = s.reg upper := by
  rw [barred_eq, spiFlashWriteBar]
  split
  next => rfl
  next => exact Function.update_of_ne h _ _

theorem bankSet_iff : BankSet f s offset ↔
    (barred f s offset).reg (spiFlashDual f offset).1 = bankSel (spiFlashDual f offset).2 := by
  rw [BankSet, barred_eq, spiFlashWriteBar]
  split
  next h => exact ⟨fun hset => (hset h).trans h.symm, fun hset _ => hset.trans h⟩
  next h => exact iff_of_true (fun hcurr => absurd hcurr h) (Function.update_self _ _ _)

theorem cells_iff (f : Flash) (s : Banks) (offset len : ℕ) :
    (command f s offset len).cells = (List.range' offset len).map (spiFlashDual f) ↔
      ∀ i < len, ((spiFlashDual f offset).1, (barred f s offset).reg (spiFlashDual f offset).1 * bound +
        ((spiFlashDual f offset).2 % bound + i) % bound) = spiFlashDual f (offset + i) := by
  rw [command, Command.cells, range'_eq_map_range, map_map, map_inj_left]
  simp only [mem_range, Function.comp_apply]

theorem dual_add {i : ℕ} (h : f.stacked → offset < f.chip → offset + i < f.chip) :
    spiFlashDual f (offset + i) = ((spiFlashDual f offset).1, (spiFlashDual f offset).2 + i) := by
  rw [dual_eq, dual_eq]
  by_cases hup : f.stacked = true ∧ f.chip ≤ offset
  · rw [if_pos hup, if_pos ⟨hup.1, by lia⟩, Nat.sub_add_comm hup.2]
  · rw [if_neg hup, if_neg]
    intro hup'
    exact absurd (h hup'.1 (Nat.lt_of_not_le fun hle => hup ⟨hup'.1, hle⟩)) (Nat.not_lt.mpr hup'.2)

theorem cells_inside (h : offset + len ≤ f.size) (hset : BankSet f s offset)
    (hin : Inside f offset len) :
    (command f s offset len).cells = (List.range' offset len).map (spiFlashDual f) := by
  rw [cells_iff, bankSet_iff.mp hset]
  intro i hi
  have hbar := @bar_addr f offset (by lia)
  have hstep := @dual_add f offset i fun hs hlow => by
    have hend := hin.2 hs hlow
    lia
  have hroom := hin.1
  rw [hstep, Nat.mod_eq_of_lt (by lia), ← Nat.add_assoc, hbar]

theorem inside_of_cells (h : offset + len ≤ f.size) (hlen : 0 < len)
    (hcells : (command f s offset len).cells = (List.range' offset len).map (spiFlashDual f)) :
    BankSet f s offset ∧ Inside f offset len := by
  rw [cells_iff] at hcells
  have hbar := @bar_addr f offset (by lia)
  have hset : BankSet f s offset := by
    have hfirst := congrArg Prod.snd (hcells 0 hlen)
    dsimp only at hfirst
    rw [Nat.add_zero, Nat.add_zero, Nat.mod_mod] at hfirst
    rw [bankSet_iff]
    exact Nat.eq_of_mul_eq_mul_right (by decide : 0 < bound) (by lia)
  rw [bankSet_iff.mp hset] at hcells
  have hchip : f.stacked → offset < f.chip → offset + len ≤ f.chip := by
    intro hs hlow
    by_contra hover
    -- the first byte of the upper chip
    have hfirst := congrArg Prod.fst (hcells (f.chip - offset) (by lia))
    rw [dual_eq, if_neg (by lia), dual_eq, if_pos ⟨hs, by lia⟩] at hfirst
    cases hfirst
  refine ⟨hset, ?_, hchip⟩
  by_contra hover
  -- the first byte of the next bank
  have hi : bound - (spiFlashDual f offset).2 % bound < len := by lia
  have hnext := congrArg Prod.snd (hcells _ hi)
  have hpos : (spiFlashDual f offset).2 % bound < bound := Nat.mod_lt _ (by decide)
  have hstep := @dual_add f offset (bound - (spiFlashDual f offset).2 % bound) fun hs hlow => by
      lia
  rw [hstep] at hnext
  dsimp only at hnext
  rw [Nat.add_sub_cancel' hpos.le, Nat.mod_self] at hnext
  lia

theorem banksFit_step {next : ℕ} (hpos : 0 < next) (hle : next ≤ len)
    (hin : Inside f offset next) : BanksFit f s offset len ↔
      BankSet f s offset ∧ BanksFit f (barred f s offset) (offset + next) (len - next) := by
  have hsize := f.hsize
  have hroom := hin.1
  have hcurr := @barred_curr f s offset
  unfold BanksFit
  rw [or_iff_right (by lia : len ≠ 0)]
  refine and_congr_right fun hset => ?_
  have hreg := bankSet_iff.mp hset
  rw [← hcurr] at hreg
  by_cases hup : f.stacked = true ∧ offset < f.chip
  swap
  -- the rest lies in the chip of the offset
  · refine iff_of_true (fun hs hlow => absurd ⟨hs, hlow⟩ hup) ?_
    have hsame := @dual_add f offset next fun hs hlow => absurd ⟨hs, hlow⟩ hup
    refine .inr ⟨fun _ => ?_, fun hs hlow => absurd ⟨hs, by lia⟩ hup⟩
    rw [hsame]
    exact hreg
  obtain ⟨hs, hlow⟩ := hup
  have hchip := hin.2 hs hlow
  have hlower : spiFlashDual f offset = (false, offset) := by
    rw [dual_eq, if_neg fun hup => absurd hup.2 (Nat.not_le.mpr hlow)]
  have hother : (barred f s offset).reg true = s.reg true :=
    barred_other (by rw [hlower]; exact Bool.noConfusion)
  rw [hlower] at hcurr hroom
  rw [bankSel] at hcurr
  rw [if_pos hs] at hsize
  by_cases hnext : offset + next < f.chip
  · have hsame := @dual_add f offset next fun _ _ => hnext
    have hset' : BankSet f (barred f s offset) (offset + next) := fun _ => by
      rw [hsame]
      exact hreg
    rw [hother, show offset + next + (len - next) = offset + len by lia]
    constructor
    · exact fun hcross => .inr ⟨hset', fun _ _ hover => hcross hs hlow hover⟩
    · rintro (hnone | ⟨-, hcross⟩) - - hover
      · lia
      · exact hcross hs hnext hover
  · have hat : offset + next = f.chip := by lia
    have hupper : spiFlashDual f f.chip = (true, 0) := by
      rw [dual_eq, if_pos ⟨hs, le_rfl⟩, Nat.sub_self]
    have hzero : f.chip ≤ bound ↔ (barred f s offset).curr = 0 := by
      rw [hcurr]
      dsimp only at hroom ⊢
      rw [bound] at hroom ⊢
      lia
    rw [hat, BankSet, hupper, hother]
    constructor
    · intro hcross
      by_cases hnone : len - next = 0
      · exact .inl hnone
      · refine .inr ⟨fun hbank => ?_, fun _ hlt => absurd hlt (Nat.lt_irrefl _)⟩
        have hfirst : (barred f s offset).curr = 0 := hbank.symm
        rw [hfirst]
        exact hcross hs hlow (by lia) (hzero.mpr hfirst)
    · rintro (hnone | ⟨hfirst, -⟩) - - hover hone
      · lia
      · have hbank := hzero.mp hone
        rw [hbank] at hfirst
        exact hfirst rfl

end Commands

section Loops

variable {f : Flash} {s : Banks} {chunk : ℕ → ℕ → ℕ} {offset len : ℕ}

theorem addresses_zero (f : Flash) (s : Banks) (chunk : ℕ → ℕ → ℕ) (offset : ℕ) :
    Addresses f (transfer f chunk) s offset 0 := ⟨1, ([], s), rfl, rfl⟩

theorem transfer_succ (n : ℕ) (hlen : 0 < len) (h : offset + chunk offset len < 2 ^ 32) :
    transfer f chunk (n + 1) s offset len =
      (transfer f chunk n (barred f s offset) (offset + chunk offset len)
        (len - chunk offset len)).map
        fun r => (command f s offset (chunk offset len) :: r.1, r.2) := by
  rw [transfer, if_neg hlen.ne']
  dsimp only
  rw [Nat.mod_eq_of_lt h]

theorem addresses_stuck (hlen : 0 < len) (h : chunk offset len = 0) (hoffset : offset < 2 ^ 32) :
    ¬Addresses f (transfer f chunk) s offset len := by
  intro hrun
  obtain ⟨n, r, hr, -⟩ := hrun
  induction n generalizing s r with
  | zero => cases hr
  | succ n ih =>
    rw [transfer_succ n hlen (by rwa [h]), h] at hr
    obtain ⟨rest, hrest, -⟩ := Option.map_eq_some_iff.mp hr
    exact ih rest hrest

theorem range_cut {next : ℕ} (h : next ≤ len) :
    List.range' offset len = List.range' offset next ++ List.range' (offset + next) (len - next) := by
  have happ := range'_append_1 (s := offset) (m := next) (n := len - next)
  rw [happ, Nat.add_sub_cancel' h]

/- The same with `Q` asked of every command. -/
def AddressesBy (f : Flash) (chunk : ℕ → ℕ → ℕ) (Q : Command → Prop) (s : Banks) (offset len : ℕ) :
    Prop :=
  ∃ n r, transfer f chunk n s offset len = some r ∧
    r.1.flatMap Command.cells = (List.range' offset len).map (spiFlashDual f) ∧ ∀ c ∈ r.1, Q c

theorem addressesBy_true : AddressesBy f chunk (fun _ => True) s offset len ↔
    Addresses f (transfer f chunk) s offset len := by
  simp only [AddressesBy, Addresses, implies_true, and_true]

/-- One command and the rest of the loop. -/
theorem addressesBy_step {Q : Command → Prop} (h : offset + len ≤ f.size) (hpos : 0 < chunk offset len)
    (hle : chunk offset len ≤ len) : AddressesBy f chunk Q s offset len ↔
      ((BankSet f s offset ∧ Inside f offset (chunk offset len)) ∧
        Q (command f s offset (chunk offset len))) ∧
      AddressesBy f chunk Q (barred f s offset) (offset + chunk offset len)
        (len - chunk offset len) := by
  have hsize : f.size < 2 ^ 32 := f.hsize
  have hturn := fun n => @transfer_succ f s chunk offset len n (by lia) (by lia)
  constructor
  · rintro ⟨n, r, hr, hcells, hall⟩
    cases n with
    | zero => cases hr
    | succ n =>
      rw [hturn] at hr
      obtain ⟨rest, hrest, rfl⟩ := Option.map_eq_some_iff.mp hr
      rw [flatMap_cons, range_cut hle, map_append] at hcells
      obtain ⟨hfirst, hmore⟩ := append_inj hcells (by
        rw [Command.cells, length_map, length_range, length_map, length_range']
        rfl)
      obtain ⟨hQ, hall'⟩ := forall_mem_cons.mp hall
      exact ⟨⟨inside_of_cells (by lia) hpos hfirst, hQ⟩, n, rest, hrest, hmore, hall'⟩
  · rintro ⟨⟨⟨hset, hin⟩, hQ⟩, n, rest, hrest, hmore, hall⟩
    refine ⟨n + 1, _, by rw [hturn, hrest]; rfl, ?_, forall_mem_cons.mpr ⟨hQ, hall⟩⟩
    rw [flatMap_cons, cells_inside (by lia) hset hin, hmore, ← map_append, ← range_cut hle]

theorem addresses_step (h : offset + len ≤ f.size) (hpos : 0 < chunk offset len)
    (hle : chunk offset len ≤ len) : Addresses f (transfer f chunk) s offset len ↔
      (BankSet f s offset ∧ Inside f offset (chunk offset len)) ∧
        Addresses f (transfer f chunk) (barred f s offset) (offset + chunk offset len)
          (len - chunk offset len) := by
  rw [← addressesBy_true, ← addressesBy_true, addressesBy_step h hpos hle, and_true]

/-- A loop that never leaves a bank or a chip with a command needs the bank registers only, and keeps
what its commands meet. -/
theorem addresses_of_inside {P : ℕ → ℕ → Prop} {Q : Command → Prop} (hstep : ∀ s offset len,
    P offset len → 0 < len → offset + len ≤ f.size → 0 < chunk offset len ∧ chunk offset len ≤ len ∧
      Inside f offset (chunk offset len) ∧ P (offset + chunk offset len) (len - chunk offset len) ∧
      (BankSet f s offset → Q (command f s offset (chunk offset len))))
    (h : offset + len ≤ f.size) (hP : P offset len) :
    AddressesBy f chunk Q s offset len ↔ BanksFit f s offset len := by
  have hsize : f.size < 2 ^ 32 := f.hsize
  induction len using Nat.strong_induction_on generalizing offset s with
  | _ len ih =>
    rcases Nat.eq_zero_or_pos len with hz | hlen
    · rw [hz]
      exact iff_of_true ⟨1, ([], s), rfl, rfl, fun c hc => by cases hc⟩ (.inl rfl)
    obtain ⟨hpos, hle, hin, hrest, hQ⟩ := hstep s offset len hP hlen h
    have hbanks := @banksFit_step f s offset len _ hpos hle hin
    have hmore := @ih (len - chunk offset len) (by lia) (barred f s offset)
      (offset + chunk offset len) (by lia) hrest
    refine (addressesBy_step h hpos hle).trans (Iff.trans ?_ hbanks.symm)
    exact and_congr ⟨fun hset => hset.1.1, fun hset => ⟨⟨hset, hin⟩, hQ hset⟩⟩ hmore

/- In the upper chip `remain_len` is the chip's size short of the bank's end: modulo 2 ^ 32, at most
to the offset 16 MiB, or nothing. -/
def UpperFits (f : Flash) (offset len : ℕ) : Prop :=
  let addr := offset - f.chip
  addr % bound + len ≤ bound ∧ addr % bound + f.chip ≠ bound ∧
    (addr % bound + f.chip < bound → offset + len ≤ bound)

def ReadFits (f : Flash) (offset len : ℕ) : Prop :=
  len = 0 ∨ f.stacked = false ∨ offset + len ≤ f.chip ∨
    if offset < f.chip then bound ∣ f.chip ∧ UpperFits f f.chip (offset + len - f.chip)
    else UpperFits f offset len

theorem readLen_eq (h : offset + len ≤ f.size) (hlen : 0 < len) : readLen f offset len =
    if f.stacked = true ∧ f.chip ≤ offset then
      if (offset - f.chip) % bound + f.chip ≤ bound then
        min len (bound - ((offset - f.chip) % bound + f.chip))
      else len
    else min len (bound - offset % bound) := by
  have hsize := f.hsize
  rw [Flash.size] at h
  rw [readLen, dual_eq, bankSel, bound]
  by_cases hup : f.stacked = true ∧ f.chip ≤ offset
  · rw [if_pos hup.1] at h hsize
    rw [if_pos hup, if_pos hup]
    dsimp only
    split <;> split <;> lia
  · rw [if_neg hup, if_neg hup]
    have hlow : f.stacked = true → offset < f.chip := fun hs =>
      Nat.lt_of_not_le fun hle => hup ⟨hs, hle⟩
    split at h
    next hs =>
      have hlow := hlow hs
      rw [if_pos hs] at hsize
      dsimp only
      split <;> lia
    next hs =>
      rw [if_neg hs] at hsize
      dsimp only
      split <;> lia

theorem readFits_step (h : offset + len ≤ f.size) (hlen : 0 < len)
    (hpos : 0 < readLen f offset len) : ReadFits f offset len ↔
      Inside f offset (readLen f offset len) ∧
        ReadFits f (offset + readLen f offset len) (len - readLen f offset len) := by
  have heq := readLen_eq h hlen
  rw [Flash.size] at h
  rw [Inside, dual_eq]
  generalize readLen f offset len = next at heq hpos ⊢
  unfold ReadFits UpperFits
  rw [bound] at *
  cases hs : f.stacked with
  | false =>
    simp only [hs, Bool.false_eq_true, false_and, if_false, false_imp_iff, and_true, true_or, or_true,
      true_iff] at heq ⊢
    lia
  | true =>
    simp only [hs, true_and, if_true, reduceCtorEq, false_or, true_imp_iff] at h heq ⊢
    by_cases hup : f.chip ≤ offset
    · rw [if_pos hup] at heq ⊢
      rw [if_neg (by lia), if_neg (by lia)]
      dsimp only
      split at heq <;> lia
    · rw [if_neg hup] at heq ⊢
      rw [if_pos (by lia)]
      dsimp only
      by_cases hend : offset + next < f.chip
      · rw [if_pos hend, show offset + next + (len - next) = offset + len by lia]
        lia
      · rw [if_neg hend]
        by_cases hat : offset + next = f.chip
        · rw [hat, show len - next = offset + len - f.chip by lia]
          lia
        · omega

theorem read_iff (h : offset + len ≤ f.size) :
    Addresses f (spiFlashCmdReadOps f) s offset len ↔
      ReadFits f offset len ∧ BanksFit f s offset len := by
  have hsize : f.size < 2 ^ 32 := f.hsize
  induction len using Nat.strong_induction_on generalizing offset s with
  | _ len ih =>
    by_cases hlen : 0 < len
    · by_cases hpos : 0 < readLen f offset len
      · have hle : readLen f offset len ≤ len := by
          rw [readLen]
          split <;> lia
        have hrest := @ih (len - readLen f offset len) (by lia) (barred f s offset)
          (offset + readLen f offset len) (by lia)
        have hbanks := @banksFit_step f s offset len _ hpos hle
        rw [readFits_step h hlen hpos]
        refine ((addresses_step h hpos hle).trans (and_congr_right fun _ => hrest)).trans ?_
        constructor
        · rintro ⟨⟨hset, hin⟩, hfits, hmore⟩
          exact ⟨⟨hin, hfits⟩, (hbanks hin).mpr ⟨hset, hmore⟩⟩
        · rintro ⟨⟨hin, hfits⟩, hmore⟩
          exact ⟨⟨((hbanks hin).mp hmore).1, hin⟩, hfits, ((hbanks hin).mp hmore).2⟩
      · refine iff_of_false (addresses_stuck hlen (by lia) (by lia)) fun hboth => ?_
        have hfits := hboth.1
        -- only at the offset 16 MiB of the upper chip
        have heq := readLen_eq h hlen
        unfold ReadFits UpperFits at hfits
        rw [bound] at *
        split at heq
        next hup =>
          rw [if_neg (by lia)] at hfits
          rw [hup.1] at hfits
          simp only [reduceCtorEq, false_or] at hfits
          split at heq <;> lia
        next hup => lia
    · rw [Nat.eq_zero_of_not_pos hlen]
      exact iff_of_true (addresses_zero f s _ offset) ⟨.inl rfl, .inl rfl⟩

theorem unit_room {u m x n : ℕ} (hu : u ∣ m) (hx : x < m) (hn : x % u + n ≤ u) : x + n ≤ m := by
  obtain ⟨k, rfl⟩ := hu
  have hdiv : x / u < k := Nat.div_lt_of_lt_mul hx
  calc x + n = u * (x / u) + (x % u + n) := by rw [← Nat.add_assoc, Nat.div_add_mod]
    _ ≤ u * (x / u) + u := Nat.add_le_add_left hn _
    _ = u * (x / u + 1) := rfl
    _ ≤ u * k := Nat.mul_le_mul_left u hdiv

theorem inside_of_unit {u n : ℕ} (hu : u ∣ bound ∧ u ∣ f.chip) (hpos : 0 < n)
    (h : offset + n ≤ f.size) (hn : offset % u + n ≤ u) : Inside f offset n ∧
      (BankSet f s offset → (command f s offset n).addr % u + n ≤ u ∧
        (command f s offset n).bank * bound + (command f s offset n).addr + n ≤ f.chip) := by
  have hbar := @bar_addr f offset (by lia)
  have hmod : (spiFlashDual f offset).2 % u = offset % u ∧ (spiFlashDual f offset).2 < f.chip := by
    rw [Flash.size] at h
    rw [dual_eq]
    split
    next hup =>
      rw [if_pos hup.1] at h
      obtain ⟨k, hk⟩ := hu.2
      refine ⟨?_, by dsimp only; lia⟩
      conv_rhs => rw [← Nat.sub_add_cancel hup.2, hk, Nat.add_mul_mod_self_left]
      rw [hk]
    next hup =>
      refine ⟨rfl, ?_⟩
      cases hs : f.stacked with
      | false =>
        rw [hs] at h
        exact (Nat.lt_add_of_pos_right hpos).trans_le h
      | true => exact Nat.lt_of_not_le fun hle => hup ⟨hs, hle⟩
  have haddr : (spiFlashDual f offset).2 % bound % u = offset % u :=
    (Nat.mod_mod_of_dvd _ hu.1).trans hmod.1
  refine ⟨⟨unit_room hu.1 (Nat.mod_lt _ (by decide)) (by rwa [haddr]), fun _ hlow =>
    unit_room hu.2 hlow hn⟩, fun hset => ⟨?_, ?_⟩⟩
  · show (spiFlashDual f offset).2 % bound % u + n ≤ u
    rwa [haddr]
  · show (barred f s offset).reg (spiFlashDual f offset).1 * bound +
      (spiFlashDual f offset).2 % bound + n ≤ _
    rw [bankSet_iff.mp hset, hbar]
    exact unit_room hu.2 hmod.2 (by rwa [hmod.1])

/-- The write loop addresses its range, with no command over the end of a page or a chip. -/
def Writes (f : Flash) (s : Banks) (offset len : ℕ) : Prop :=
  ∃ n r, spiFlashCmdWriteOps f n s offset len = some r ∧
    r.1.flatMap Command.cells = (List.range' offset len).map (spiFlashDual f) ∧
    ∀ c ∈ r.1, c.addr % f.pageSize + c.len ≤ f.pageSize ∧ c.bank * bound + c.addr + c.len ≤ f.chip

theorem write_iff (h : offset + len ≤ f.size) : Writes f s offset len ↔ BanksFit f s offset len := by
  refine addresses_of_inside (P := fun _ _ => True) (fun s offset len _ hlen h => ?_) h trivial
  have hpage := Nat.mod_lt offset f.hpage.1
  have hbounds : 0 < writeLen f offset len ∧ writeLen f offset len ≤ len ∧
      offset % f.pageSize + writeLen f offset len ≤ f.pageSize := by
    rw [writeLen]
    split <;> lia
  obtain ⟨hpos, hle, hroom⟩ := hbounds
  obtain ⟨hin, hcmd⟩ := @inside_of_unit f s offset _ _ f.hpage.2 hpos (by lia) hroom
  exact ⟨hpos, hle, hin, trivial, hcmd⟩

theorem erase_iff (h : offset + len ≤ f.size) (hoffset : f.eraseSize ∣ offset)
    (hlen : f.eraseSize ∣ len) :
    Addresses f (spiFlashCmdEraseOps f) s offset len ↔ BanksFit f s offset len := by
  have haligned : ¬(offset % f.eraseSize ≠ 0 ∨ len % f.eraseSize ≠ 0) := by
    rw [Nat.mod_eq_zero_of_dvd hoffset, Nat.mod_eq_zero_of_dvd hlen]
    exact not_or.mpr ⟨not_not_intro rfl, not_not_intro rfl⟩
  have hruns : Addresses f (spiFlashCmdEraseOps f) s offset len ↔
      Addresses f (transfer f fun _ _ => f.eraseSize) s offset len := by
    simp only [Addresses, spiFlashCmdEraseOps, if_neg haligned]
  rw [hruns, ← addressesBy_true]
  refine addresses_of_inside (P := fun offset len => f.eraseSize ∣ offset ∧ f.eraseSize ∣ len)
    (fun s offset len hP hlen h => ?_) h ⟨hoffset, hlen⟩
  have hle := Nat.le_of_dvd hlen hP.2
  have hin := @inside_of_unit f s offset _ f.eraseSize f.herase.2 f.herase.1 (by lia)
    (by rw [Nat.mod_eq_zero_of_dvd hP.1, Nat.zero_add])
  exact ⟨f.herase.1, hle, hin.1, ⟨(Nat.dvd_add_self_right).mpr hP.1, Nat.dvd_sub hP.2 dvd_rfl⟩,
    fun _ => trivial⟩

end Loops

/-- Which reads, writes and erases address the bytes of their range. -/
theorem spiFlash_exact (f : Flash) (s : Banks) {offset len : ℕ} (h : offset + len ≤ f.size) :
    (Addresses f (spiFlashCmdReadOps f) s offset len ↔
      ReadFits f offset len ∧ BanksFit f s offset len) ∧
    (Writes f s offset len ↔ BanksFit f s offset len) ∧
    (f.eraseSize ∣ offset → f.eraseSize ∣ len →
      (Addresses f (spiFlashCmdEraseOps f) s offset len ↔ BanksFit f s offset len)) :=
  ⟨read_iff h, write_iff h, erase_iff h⟩

def twice16M : Flash := ⟨0x1000000, true, 256, 0x10000, 0, by decide, by decide, by decide⟩

def twice32M : Flash := ⟨0x2000000, true, 256, 0x10000, 0, by decide, by decide, by decide⟩

/- After a read from the second bank of the lower chip, a write to that of the upper one does not set
its register. -/
def secondOfLower : Banks := barred twice32M ⟨0, fun _ => 0⟩ 0x1000000

theorem spiFlash_exact_twice : ¬Writes twice32M secondOfLower 0x3000000 1 ∧
    Writes twice32M secondOfLower 0x1ffffff 2 := by
  have hlower := (spiFlash_exact twice32M secondOfLower (by decide : 0x1ffffff + 2 ≤ twice32M.size)).2.1
  have hupper := (spiFlash_exact twice32M secondOfLower (by decide : 0x3000000 + 1 ≤ twice32M.size)).2.1
  refine ⟨fun hwrites => ?_, hlower.mpr (.inr ⟨by unfold BankSet; decide, fun _ _ _ => by decide⟩)⟩
  rcases hupper.mp hwrites with hnone | ⟨hset, -⟩
  · cases hnone
  · exact absurd (hset (by decide)) (by decide)

theorem spiFlash_upper : ¬∀ (f : Flash) (s : Banks) (offset len : ℕ), offset + len ≤ f.size →
    Addresses f (spiFlashCmdReadOps f) s offset len := by
  intro h
  exact addresses_stuck (by decide) (by decide) (by decide)
    (h twice16M ⟨0, fun _ => 0⟩ 0x1000000 1 (by decide))

end UBoot.SpiBanks
