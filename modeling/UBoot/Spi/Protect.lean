import Mathlib.Tactic

/-!
# Block protection of SPI flash (drivers/mtd/spi/spi_flash.c)

`stm_lock` and `stm_unlock` on the status register, and the commands of an erase and a write.
`rd` is what `read_sr` returns; writes to the register succeed. Built without
`CONFIG_SF_DUAL_FLASH` and `CONFIG_SPI_FLASH_BAR`; `size_t` has 32 bits.
-/

namespace UBoot.SpiFlash

structure Flash where
  size : ℕ
  eraseSize : ℕ
  pageSize : ℕ
  -- of the SPI slave; 0 for no limit
  maxWriteSize : ℕ

def einval : ℤ := 22

-- `SR_BP2 | SR_BP1 | SR_BP0`
def srMask : UInt8 := 0x1c

def ilog2 (n : ℕ) : ℕ := Nat.log 2 n

def orderBase2 (n : ℕ) : ℕ := Nat.clog 2 n

def stmGetLockedRange (flash : Flash) (sr : UInt8) : ℕ × ℕ :=
  if sr &&& srMask = 0 then (0, 0)
  else
    let pow := ((sr &&& srMask) ^^^ srMask) >>> 2
    let len := flash.size >>> pow.toNat
    (flash.size - len, len)

def stmIsLockedSr (flash : Flash) (ofs len : ℕ) (sr : UInt8) : Bool :=
  let (lockOffs, lockLen) := stmGetLockedRange flash sr
  ofs + len ≤ lockOffs + lockLen ∧ lockOffs ≤ ofs

def stmIsLocked (flash : Flash) (rd : ℤ) (sr : UInt8) (ofs len : ℕ) : ℤ :=
  if rd < 0 then rd else if stmIsLockedSr flash ofs len sr then 1 else 0

/- The fields that a lock and an unlock ask for; the lock goes to the end. -/
def lockVal (flash : Flash) (ofs len : ℕ) : UInt8 :=
  let len := if ofs + len ≠ flash.size then flash.size - ofs else len
  let pow := UInt8.ofNat (ilog2 flash.size - ilog2 len)
  srMask - pow <<< 2

def unlockVal (flash : Flash) (ofs len : ℕ) : UInt8 :=
  let pow := UInt8.ofNat (ilog2 flash.size - orderBase2 (flash.size - (ofs + len)))
  if ofs + len = flash.size then 0 else srMask - pow <<< 2

def stmLock (flash : Flash) (rd : ℤ) (sr : UInt8) (ofs len : ℕ) : ℤ × UInt8 :=
  if rd < 0 then (rd, sr)
  else if ofs + len ≠ flash.size ∧
      stmIsLockedSr flash (ofs + len) (flash.size - ofs - len) sr = false then (-einval, sr)
  else
    let val := lockVal flash ofs len
    if val &&& ~~~srMask ≠ 0 then (-einval, sr)
    else if val &&& srMask = 0 then (-einval, sr)
    else
      let statusNew := (sr &&& ~~~srMask) ||| val
      if statusNew &&& srMask ≤ sr &&& srMask then (-einval, sr) else (0, statusNew)

def stmUnlock (flash : Flash) (rd : ℤ) (sr : UInt8) (ofs len : ℕ) : ℤ × UInt8 :=
  if rd < 0 then (rd, sr)
  else if stmIsLockedSr flash ((ofs + 2 ^ 32 - flash.eraseSize) % 2 ^ 32) flash.eraseSize sr then
    (-einval, sr)
  else
    let val := unlockVal flash ofs len
    if val &&& ~~~srMask ≠ 0 then (-einval, sr)
    else
      let statusNew := (sr &&& ~~~srMask) ||| val
      if sr &&& srMask ≤ statusNew &&& srMask then (-einval, sr) else (0, statusNew)

def spiFlashCmdEraseOps (flash : Flash) (rd : ℤ) (sr : UInt8) (offset len : ℕ) : ℤ × List ℕ :=
  if offset % flash.eraseSize ≠ 0 ∨ len % flash.eraseSize ≠ 0 then (-1, [])
  else if 0 < stmIsLocked flash rd sr offset len then (-einval, [])
  else
    let count := len / flash.eraseSize
    (if count = 0 then -1 else 0,
      (List.range count).map fun i => (offset + i * flash.eraseSize) % 2 ^ 32)

def writeChunks (flash : Flash) : ℕ → ℕ → ℕ → List (ℕ × ℕ)
  | 0, _, _ => []
  | fuel + 1, offset, left =>
    if left = 0 then []
    else
      let chunk := min left (flash.pageSize - offset % flash.pageSize)
      let chunk := if flash.maxWriteSize ≠ 0 then min chunk flash.maxWriteSize else chunk
      (offset, chunk) :: writeChunks flash fuel ((offset + chunk) % 2 ^ 32) (left - chunk)

def spiFlashCmdWriteOps (flash : Flash) (rd : ℤ) (sr : UInt8) (offset len : ℕ) :
    ℤ × List (ℕ × ℕ) :=
  if 0 < stmIsLocked flash rd sr offset len then (-einval, [])
  else (if len = 0 then -1 else 0, writeChunks flash len offset len)

/- `BP2..BP0` as a number. -/
def bp (sr : UInt8) : ℕ := (sr &&& srMask).toNat / 4

def lockedLen (flash : Flash) (sr : UInt8) : ℕ :=
  if bp sr = 0 then 0 else flash.size / 2 ^ (7 - bp sr)

/- The byte at `x` is locked. -/
def Locked (flash : Flash) (sr : UInt8) (x : ℕ) : Prop :=
  (stmGetLockedRange flash sr).1 ≤ x ∧
    x < (stmGetLockedRange flash sr).1 + (stmGetLockedRange flash sr).2

section Field

theorem forall_uint8 {p : UInt8 → Prop} (h : ∀ n : Fin 256, p (UInt8.ofNat n)) (sr : UInt8) : p sr := by
  have hsr := h ⟨sr.toNat, sr.toNat_lt⟩
  rwa [UInt8.ofNat_toNat] at hsr

/- The field of every status register, evaluated once. -/
theorem field_facts : ∀ sr : UInt8, (sr &&& srMask = 0 ↔ bp sr = 0) ∧
    (((sr &&& srMask) ^^^ srMask) >>> 2).toNat = 7 - bp sr ∧
    (sr &&& srMask).toNat = 4 * bp sr ∧ bp sr ≤ 7 ∧
    (∀ pow : Fin 8, bp ((sr &&& ~~~srMask) ||| (srMask - UInt8.ofNat pow <<< 2)) = 7 - pow) ∧
    bp ((sr &&& ~~~srMask) ||| 0) = 0 :=
  forall_uint8 (by decide +kernel)

theorem field_zero (sr : UInt8) : sr &&& srMask = 0 ↔ bp sr = 0 := (field_facts sr).1

theorem field_pow (sr : UInt8) : (((sr &&& srMask) ^^^ srMask) >>> 2).toNat = 7 - bp sr :=
  (field_facts sr).2.1

theorem field_toNat (sr : UInt8) : (sr &&& srMask).toNat = 4 * bp sr := (field_facts sr).2.2.1

theorem bp_le (sr : UInt8) : bp sr ≤ 7 := (field_facts sr).2.2.2.1

theorem field_le (sr sr' : UInt8) : sr &&& srMask ≤ sr' &&& srMask ↔ bp sr ≤ bp sr' := by
  rw [UInt8.le_iff_toNat_le, field_toNat, field_toNat]
  lia

theorem val_fits : ∀ pow : Fin 32,
    (srMask - UInt8.ofNat pow <<< 2) &&& ~~~srMask = 0 ↔ (pow : ℕ) ≤ 7 := by decide +kernel

theorem bp_val (sr : UInt8) : ∀ pow : Fin 8,
    bp ((sr &&& ~~~srMask) ||| (srMask - UInt8.ofNat pow <<< 2)) = 7 - pow :=
  (field_facts sr).2.2.2.2.1

theorem bp_clear (sr : UInt8) : bp ((sr &&& ~~~srMask) ||| 0) = 0 := (field_facts sr).2.2.2.2.2

end Field

section Range

variable {flash : Flash} {sr sr' : UInt8} {ofs len x k : ℕ}

variable (flash) in
theorem lockedLen_le (sr : UInt8) : lockedLen flash sr ≤ flash.size := by
  rw [lockedLen]
  split
  · exact Nat.zero_le _
  · exact Nat.div_le_self _ _

variable (flash) in
theorem lockedLen_mono (h : bp sr ≤ bp sr') : lockedLen flash sr ≤ lockedLen flash sr' := by
  rw [lockedLen, lockedLen]
  split
  · exact Nat.zero_le _
  · rw [if_neg (by lia)]
    exact Nat.div_le_div_left (Nat.pow_le_pow_right (by decide) (by lia)) (by positivity)

theorem range_eq (sr : UInt8) : stmGetLockedRange flash sr =
    (if bp sr = 0 then 0 else flash.size - lockedLen flash sr, lockedLen flash sr) := by
  rw [stmGetLockedRange, lockedLen]
  by_cases hzero : bp sr = 0
  · rw [if_pos ((field_zero sr).mpr hzero), if_pos hzero, if_pos hzero]
  · rw [if_neg fun h => hzero ((field_zero sr).mp h), if_neg hzero, if_neg hzero]
    dsimp only
    rw [field_pow, Nat.shiftRight_eq_div_pow]

theorem locked_iff : Locked flash sr x ↔ flash.size - lockedLen flash sr ≤ x ∧ x < flash.size := by
  have hle := lockedLen_le flash sr
  rw [Locked, range_eq]
  dsimp only
  split
  · next hzero =>
    have hnone : lockedLen flash sr = 0 := if_pos hzero
    lia
  · lia

theorem isLocked_iff (hlen : 0 < len) : stmIsLockedSr flash ofs len sr = true ↔
    flash.size - lockedLen flash sr ≤ ofs ∧ ofs + len ≤ flash.size := by
  have hle := lockedLen_le flash sr
  rw [stmIsLockedSr, range_eq]
  simp only [decide_eq_true_eq]
  split
  · next hzero =>
    have hnone : lockedLen flash sr = 0 := if_pos hzero
    lia
  · lia

theorem lockedLen_pow (hsize : flash.size = 2 ^ k) {j : ℕ} (hj : j ≤ k) (hpow : k - j ≤ 6)
    (hbp : bp sr = 7 - (k - j)) : lockedLen flash sr = 2 ^ j := by
  have hsub : 7 - bp sr = k - j := by lia
  rw [lockedLen, if_neg (by lia), hsub, hsize, Nat.pow_div (Nat.sub_le _ _) (by decide)]
  congr 1
  lia

end Range

section Calls

variable {flash : Flash} {rd : ℤ} {sr sr' : UInt8} {ofs len k : ℕ}

theorem bp_of_val {pow : ℕ} (hpow : pow < 32)
    (hfits : (srMask - UInt8.ofNat pow <<< 2) &&& ~~~srMask = 0) (sr : UInt8) :
    pow ≤ 7 ∧ bp ((sr &&& ~~~srMask) ||| (srMask - UInt8.ofNat pow <<< 2)) = 7 - pow := by
  have hle : pow ≤ 7 := (val_fits ⟨pow, hpow⟩).mp hfits
  exact ⟨hle, bp_val sr ⟨pow, by lia⟩⟩

theorem ilog2_size (hsize : flash.size = 2 ^ k) : ilog2 flash.size = k := by
  rw [ilog2, hsize, Nat.log_pow (by decide)]

theorem lockVal_eq (hsize : flash.size = 2 ^ k) :
    lockVal flash ofs len = srMask - UInt8.ofNat (k - Nat.log 2 (flash.size - ofs)) <<< 2 := by
  have hsame : (if ofs + len ≠ flash.size then flash.size - ofs else len) = flash.size - ofs := by
    split
    · rfl
    · lia
  rw [lockVal, hsame, ilog2_size hsize, ilog2]

theorem unlockVal_eq (hsize : flash.size = 2 ^ k) (hend : ofs + len ≠ flash.size) :
    unlockVal flash ofs len = srMask - UInt8.ofNat (k - Nat.clog 2 (flash.size - (ofs + len))) <<< 2 := by
  rw [unlockVal, if_neg hend, ilog2_size hsize, orderBase2]

theorem stmLock_ok (hsize : flash.size = 2 ^ k) (hk : k < 32)
    (h : stmLock flash rd sr ofs len = (0, sr')) :
    bp sr' = 7 - (k - Nat.log 2 (flash.size - ofs)) ∧ k - Nat.log 2 (flash.size - ofs) ≤ 6 ∧
      bp sr < bp sr' := by
  rw [stmLock] at h
  split at h
  · next hneg =>
    lia
  split at h
  · cases congrArg Prod.fst h
  dsimp only at h
  split at h
  · cases congrArg Prod.fst h
  next hfits =>
  split at h
  · cases congrArg Prod.fst h
  next hnonzero =>
  split at h
  · cases congrArg Prod.fst h
  next hgrows =>
  have hnew : (sr &&& ~~~srMask) ||| lockVal flash ofs len = sr' := congrArg Prod.snd h
  rw [lockVal_eq hsize] at hfits hnonzero hnew
  obtain ⟨hle, hbp⟩ := bp_of_val (show k - Nat.log 2 (flash.size - ofs) < 32 by lia)
    (not_not.mp hfits) sr
  have hne : k - Nat.log 2 (flash.size - ofs) ≠ 7 := by
    intro heq
    rw [heq] at hnonzero
    exact hnonzero (by decide)
  rw [field_le, lockVal_eq hsize, hnew] at hgrows
  rw [hnew] at hbp
  exact ⟨hbp, by lia, by lia⟩

theorem stmUnlock_ok (hsize : flash.size = 2 ^ k) (hk : k < 32)
    (h : stmUnlock flash rd sr ofs len = (0, sr')) :
    stmIsLockedSr flash ((ofs + 2 ^ 32 - flash.eraseSize) % 2 ^ 32) flash.eraseSize sr = false ∧
      bp sr' < bp sr ∧
      if ofs + len = flash.size then bp sr' = 0
      else bp sr' = 7 - (k - Nat.clog 2 (flash.size - (ofs + len))) ∧
        k - Nat.clog 2 (flash.size - (ofs + len)) ≤ 7 := by
  rw [stmUnlock] at h
  split at h
  · next hneg =>
    lia
  split at h
  · cases congrArg Prod.fst h
  next hfront =>
  dsimp only at h
  split at h
  · cases congrArg Prod.fst h
  next hfits =>
  split at h
  · cases congrArg Prod.fst h
  next hshrinks =>
  have hnew : (sr &&& ~~~srMask) ||| unlockVal flash ofs len = sr' := congrArg Prod.snd h
  rw [field_le, hnew] at hshrinks
  refine ⟨Bool.eq_false_iff.mpr hfront, by lia, ?_⟩
  split
  · next hend =>
    rw [unlockVal, if_pos hend] at hnew
    rw [← hnew]
    exact bp_clear sr
  · next hend =>
    rw [unlockVal_eq hsize hend] at hfits hnew
    obtain ⟨hle, hbp⟩ := bp_of_val
      (show k - Nat.clog 2 (flash.size - (ofs + len)) < 32 by lia) (not_not.mp hfits) sr
    rw [hnew] at hbp
    exact ⟨hbp, hle⟩

theorem stmLock_error (h : (stmLock flash rd sr ofs len).1 ≠ 0) :
    (stmLock flash rd sr ofs len).2 = sr := by
  rw [stmLock] at h ⊢
  split
  · rfl
  split
  · rfl
  dsimp only at h ⊢
  split
  · rfl
  split
  · rfl
  split
  · rfl
  · next hrd hend hfits hnonzero hgrows =>
    rw [if_neg hrd, if_neg hend, if_neg hfits, if_neg hnonzero, if_neg hgrows] at h
    exact absurd rfl h

theorem stmUnlock_error (h : (stmUnlock flash rd sr ofs len).1 ≠ 0) :
    (stmUnlock flash rd sr ofs len).2 = sr := by
  rw [stmUnlock] at h ⊢
  split
  · rfl
  split
  · rfl
  dsimp only at h ⊢
  split
  · rfl
  split
  · rfl
  · next hrd hfront hfits hshrinks =>
    rw [if_neg hrd, if_neg hfront, if_neg hfits, if_neg hshrinks] at h
    exact absurd rfl h

end Calls

/- A lock that returns 0: the last bytes up to the power of two below the length to the end. -/
structure LockReport (flash : Flash) (sr sr' : UInt8) (ofs : ℕ) : Prop where
  locked : ∀ x < flash.size, Locked flash sr' x ↔ flash.size - 2 ^ Nat.log 2 (flash.size - ofs) ≤ x
  kept : ∀ x, Locked flash sr x → Locked flash sr' x
  whole : ∀ m, flash.size - ofs = 2 ^ m → ∀ x, ofs ≤ x → x < flash.size → Locked flash sr' x

/- An unlock that returns 0: the power of two above the length behind the region stays locked. -/
structure UnlockReport (flash : Flash) (sr sr' : UInt8) (ofs len : ℕ) : Prop where
  locked : ∀ x < flash.size, Locked flash sr' x ↔ ofs + len < flash.size ∧
    flash.size - 2 ^ Nat.clog 2 (flash.size - (ofs + len)) ≤ x
  none_added : ∀ x, Locked flash sr' x → Locked flash sr x
  behind : ∀ x, ofs + len ≤ x → (Locked flash sr' x ↔ Locked flash sr x)
  whole : ∀ m, flash.size - (ofs + len) = 2 ^ m ∨ ofs + len = flash.size →
    ∀ x, x < ofs + len → ¬ Locked flash sr' x
  front : flash.eraseSize ∣ ofs → 64 * flash.eraseSize ∣ flash.size →
    ∀ x < ofs, Locked flash sr' x ↔ Locked flash sr x

section Reports

variable {flash : Flash} {rd : ℤ} {sr sr' : UInt8} {ofs len k : ℕ}

theorem lock_report (hsize : flash.size = 2 ^ k) (hk : k < 32) (hlen : 0 < len)
    (hin : ofs + len ≤ flash.size) (h : stmLock flash rd sr ofs len = (0, sr')) :
    LockReport flash sr sr' ofs := by
  obtain ⟨hbp, hpow, hgrows⟩ := stmLock_ok hsize hk h
  have hlog : Nat.log 2 (flash.size - ofs) ≤ k := by
    have hmono := Nat.log_mono_right (b := 2) (Nat.sub_le flash.size ofs)
    rwa [hsize, Nat.log_pow (by decide), ← hsize] at hmono
  have hnew := lockedLen_pow hsize hlog hpow hbp
  have hgrown := lockedLen_mono flash hgrows.le
  constructor
  · intro x hx
    rw [locked_iff, hnew]
    exact and_iff_left hx
  · intro x hx
    rw [locked_iff] at hx ⊢
    lia
  · intro m hm x hofs hx
    rw [locked_iff, hnew, hm, Nat.log_pow (by decide), ← hm]
    lia

theorem dvd_lockedLen (sr : UInt8) (h : 64 * flash.eraseSize ∣ flash.size) :
    flash.eraseSize ∣ lockedLen flash sr := by
  obtain ⟨n, hn⟩ := h
  rw [lockedLen]
  split
  · exact dvd_zero _
  · next hbp =>
    have hle := bp_le sr
    have hsplit : flash.size = 2 ^ (7 - bp sr) * (2 ^ (bp sr - 1) * n * flash.eraseSize) := by
      have hpow : 2 ^ (7 - bp sr) * 2 ^ (bp sr - 1) = 64 := by
        rw [← pow_add]
        have hsum : 7 - bp sr + (bp sr - 1) = 6 := by lia
        rw [hsum]
        rfl
      calc flash.size = 64 * flash.eraseSize * n := hn
        _ = 2 ^ (7 - bp sr) * 2 ^ (bp sr - 1) * flash.eraseSize * n := by rw [hpow]
        _ = _ := by ring
    rw [hsplit, Nat.mul_div_cancel_left _ (by positivity)]
    exact Dvd.intro_left _ rfl

theorem unlock_report (hsize : flash.size = 2 ^ k) (hk : k < 32) (herase : 0 < flash.eraseSize)
    (hin : ofs + len ≤ flash.size)
    (hrest : ofs + len = flash.size ∨ flash.size < 128 * (flash.size - (ofs + len)))
    (h : stmUnlock flash rd sr ofs len = (0, sr')) : UnlockReport flash sr sr' ofs len := by
  obtain ⟨hfront, hshrinks, hbp⟩ := stmUnlock_ok hsize hk h
  have hless := lockedLen_mono flash hshrinks.le
  have hle := lockedLen_le flash sr
  have hnew : lockedLen flash sr' = if ofs + len = flash.size then 0
      else 2 ^ Nat.clog 2 (flash.size - (ofs + len)) := by
    split at hbp
    · next hend => rw [if_pos hend, lockedLen, if_pos hbp]
    · next hend =>
      rw [if_neg hend]
      have hclog : Nat.clog 2 (flash.size - (ofs + len)) ≤ k :=
        Nat.clog_le_of_le_pow (by rw [← hsize]; exact Nat.sub_le _ _)
      have hcover := Nat.le_pow_clog (b := 2) (by decide) (flash.size - (ofs + len))
      have hlt : 2 ^ k < 2 ^ (7 + Nat.clog 2 (flash.size - (ofs + len))) := by
        rw [pow_add, ← hsize]
        lia
      have hpow := (Nat.pow_lt_pow_iff_right (by decide)).mp hlt
      exact lockedLen_pow hsize hclog (by lia) hbp.1
  have hcover : flash.size - (ofs + len) ≤ lockedLen flash sr' := by
    rw [hnew]
    split
    · lia
    · exact Nat.le_pow_clog (by decide) _
  constructor
  · intro x hx
    rw [locked_iff, hnew]
    split
    · lia
    · lia
  · intro x hx
    rw [locked_iff] at hx ⊢
    lia
  · intro x hx
    rw [locked_iff, locked_iff]
    lia
  · intro m hm x hx
    rw [locked_iff, hnew]
    split
    · lia
    · next hend =>
      rw [hm.resolve_right hend, Nat.clog_pow _ _ (by decide), ← hm.resolve_right hend]
      lia
  · -- no byte in front of the region was locked
    intro hofs hsixty x hx
    have hunlocked : ofs ≤ flash.size - lockedLen flash sr := by
      rcases Nat.eq_zero_or_pos ofs with hzero | hpos
      · lia
      have hbefore := Nat.le_of_dvd hpos hofs
      have hsize32 : flash.size < 2 ^ 32 := by
        rw [hsize]
        exact Nat.pow_lt_pow_right (by decide) hk
      have hwrap : (ofs + 2 ^ 32 - flash.eraseSize) % 2 ^ 32 = ofs - flash.eraseSize := by lia
      rw [hwrap] at hfront
      have hnot := mt (isLocked_iff herase).mpr (Bool.eq_false_iff.mp hfront)
      have hstart : flash.eraseSize ∣ flash.size - lockedLen flash sr :=
        Nat.dvd_sub ((Nat.dvd_mul_left _ _).trans hsixty) (dvd_lockedLen sr hsixty)
      obtain ⟨i, hi⟩ := hofs
      obtain ⟨j, hj⟩ := hstart
      by_contra hlt
      have hij : j < i := by
        rw [hi, hj, not_le] at hlt
        exact Nat.lt_of_mul_lt_mul_left hlt
      have hstep : flash.eraseSize * (j + 1) ≤ flash.eraseSize * i := Nat.mul_le_mul_left _ hij
      rw [Nat.mul_add, Nat.mul_one] at hstep
      exact hnot ⟨by lia, by lia⟩
    rw [locked_iff, locked_iff]
    lia

theorem stmIsLocked_pos (hlen : 0 < len) (hrd : 0 ≤ rd) : 0 < stmIsLocked flash rd sr ofs len ↔
    ∀ x, ofs ≤ x → x < ofs + len → Locked flash sr x := by
  have hbytes : (∀ x, ofs ≤ x → x < ofs + len → Locked flash sr x) ↔
      flash.size - lockedLen flash sr ≤ ofs ∧ ofs + len ≤ flash.size := by
    constructor
    · intro hall
      have hfirst := locked_iff.mp (hall ofs le_rfl (by lia))
      have hlast := locked_iff.mp (hall (ofs + len - 1) (by lia) (by lia))
      lia
    · rintro ⟨hstart, hend⟩ x hofs hx
      exact locked_iff.mpr (by lia)
  rw [hbytes, ← isLocked_iff hlen, stmIsLocked, if_neg (by lia)]
  split
  · next hlocked => exact iff_of_true (by decide) hlocked
  · next hnot => exact iff_of_false (by decide) hnot

theorem ret_ne {p : Prop} [Decidable p] : (if p then (-1 : ℤ) else 0) ≠ -einval := by
  split
  · decide
  · decide

theorem eraseOps_refused (hlen : 0 < len) (hrd : 0 ≤ rd)
    (haligned : ofs % flash.eraseSize = 0 ∧ len % flash.eraseSize = 0) :
    spiFlashCmdEraseOps flash rd sr ofs len = (-einval, []) ↔
      ∀ x, ofs ≤ x → x < ofs + len → Locked flash sr x := by
  rw [← stmIsLocked_pos hlen hrd, spiFlashCmdEraseOps, if_neg (by lia)]
  split
  · next hlocked => exact iff_of_true rfl hlocked
  · next hnot =>
    exact iff_of_false (fun h => ret_ne (congrArg Prod.fst h)) hnot

theorem writeOps_refused (hlen : 0 < len) (hrd : 0 ≤ rd) :
    spiFlashCmdWriteOps flash rd sr ofs len = (-einval, []) ↔
      ∀ x, ofs ≤ x → x < ofs + len → Locked flash sr x := by
  rw [← stmIsLocked_pos hlen hrd, spiFlashCmdWriteOps]
  split
  · next hlocked => exact iff_of_true rfl hlocked
  · next hnot =>
    exact iff_of_false (fun h => ret_ne (congrArg Prod.fst h)) hnot

end Reports

/- For any status register, whatever calls led to it. -/
theorem protection_reports {flash : Flash} {k ofs len : ℕ} (hsize : flash.size = 2 ^ k)
    (hk : k < 32) (herase : 0 < flash.eraseSize) (rd : ℤ) (sr : UInt8) (hlen : 0 < len)
    (hin : ofs + len ≤ flash.size) :
    (∀ sr', stmLock flash rd sr ofs len = (0, sr') → LockReport flash sr sr' ofs) ∧
    (∀ sr', stmUnlock flash rd sr ofs len = (0, sr') →
      ofs + len = flash.size ∨ flash.size < 128 * (flash.size - (ofs + len)) →
      UnlockReport flash sr sr' ofs len) ∧
    ((stmLock flash rd sr ofs len).1 ≠ 0 → (stmLock flash rd sr ofs len).2 = sr) ∧
    ((stmUnlock flash rd sr ofs len).1 ≠ 0 → (stmUnlock flash rd sr ofs len).2 = sr) ∧
    (0 ≤ rd → ofs % flash.eraseSize = 0 ∧ len % flash.eraseSize = 0 →
      (spiFlashCmdEraseOps flash rd sr ofs len = (-einval, []) ↔
        ∀ x, ofs ≤ x → x < ofs + len → Locked flash sr x)) ∧
    (0 ≤ rd → (spiFlashCmdWriteOps flash rd sr ofs len = (-einval, []) ↔
      ∀ x, ofs ≤ x → x < ofs + len → Locked flash sr x)) :=
  ⟨fun _ h => lock_report hsize hk hlen hin h,
    fun _ h hrest => unlock_report hsize hk herase hin hrest h,
    stmLock_error, stmUnlock_error,
    fun hrd haligned => eraseOps_refused hlen hrd haligned, writeOps_refused hlen⟩

def flash8M : Flash := ⟨0x800000, 0x10000, 256, 0⟩

/- Lock of the upper half, unlock of the lower part of it, and an erase that is refused. -/
theorem protection_reports_half : LockReport flash8M 0 24 0x400000 ∧
    UnlockReport flash8M 24 20 0x400000 0x200000 ∧
    ∀ x, 0x400000 ≤ x → x < 0x400000 + 0x10000 → Locked flash8M 24 x := by
  have hsize : flash8M.size = 2 ^ 23 := by decide
  obtain ⟨hlock, -⟩ := protection_reports hsize (by decide) (by decide) 0 0
    (show 0 < 0x400000 by decide) (show 0x400000 + 0x400000 ≤ flash8M.size by decide)
  obtain ⟨-, hunlock, -⟩ := protection_reports hsize (by decide) (by decide) 0 24
    (show 0 < 0x200000 by decide) (show 0x400000 + 0x200000 ≤ flash8M.size by decide)
  obtain ⟨-, -, -, -, herase, -⟩ := protection_reports hsize (by decide) (by decide) 0 24
    (show 0 < 0x10000 by decide) (show 0x400000 + 0x10000 ≤ flash8M.size by decide)
  exact ⟨hlock 24 (by decide +kernel), hunlock 20 (by decide +kernel) (.inr (by decide)),
    (herase le_rfl (by decide)).mp (by decide +kernel)⟩

/- Six of eight MiB: two are left out. Five unlocked of eight: the fifth stays locked. An unlock with
64 KiB behind it, and one that starts in a sector: bytes outside become unlocked. -/
theorem protection_differs :
    (stmLock flash8M 0 0 0x200000 0x600000 = (0, 24) ∧ ¬ Locked flash8M 24 0x200000) ∧
    (stmUnlock flash8M 0 28 0 0x500000 = (0, 24) ∧ Locked flash8M 24 0x4fffff) ∧
    (stmUnlock flash8M 0 4 0x7e0000 0x10000 = (0, 0) ∧ Locked flash8M 4 0x7fffff ∧
      ¬ Locked flash8M 0 0x7fffff) ∧
    (stmUnlock flash8M 0 4 0x7e0001 0x1ffff = (0, 0) ∧ Locked flash8M 4 0x7e0000 ∧
      ¬ Locked flash8M 0 0x7e0000) ∧
    (spiFlashCmdEraseOps flash8M 0 4 0 0x800000).1 = 0 ∧ Locked flash8M 4 0x7fffff := by
  refine ⟨⟨by decide +kernel, ?_⟩, ⟨by decide +kernel, ?_⟩, ⟨by decide +kernel, ?_, ?_⟩,
    ⟨by decide +kernel, ?_, ?_⟩, by decide +kernel, ?_⟩
  all_goals
    unfold Locked
    decide +kernel

end UBoot.SpiFlash
