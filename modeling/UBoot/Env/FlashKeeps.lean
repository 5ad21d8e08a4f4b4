import UBoot.Env.FlashLoops

/-!
# What a written environment leaves alone

A successful `flash_write_buf` at `DEVOFFSET`: what is read back, and the other bytes of the good blocks.
-/

namespace UBoot.EnvFlash

open Memory Places List

section Statement

variable (dev : EnvDev) (bad : ℕ → Bool)

/- The first erase block of the range and its end, on a device that has erase blocks. -/
def EnvDev.first : ℕ := dev.devoff / dev.eraseSize * dev.eraseSize

def EnvDev.top : ℕ := (dev.devoff / dev.eraseSize + dev.envSectors) * dev.eraseSize

def EnvDev.area : Area := EnvFlash.area dev.mtdType dev dev.envSize dev.devoff

def isGood (x : ℕ) : Bool := dev.mtdType ≠ .nandflash || good bad dev.eraseSize x

/- The bytes of the good blocks from the first erase block to the end of the range. -/
def goodPlaces : List ℕ :=
  places (isGood dev bad) dev.area.blockstart (dev.area.top - dev.area.blockstart)

def imagePlaces : List ℕ := ((goodPlaces dev bad).drop dev.area.blockSeek).take dev.envSize

/-- A successful write reads back, and the other bytes of the good blocks stay as they were; on a
file, all other bytes do. -/
def Keeps : Prop :=
  ∀ (driver : Driver) (malloc : ℕ → Option Mem) (buf : Mem) (flash flash' : Contents) (ret : ℤ),
    flashWriteBuf driver bad dev.mtdType dev malloc buf flash dev.envSize dev.devoff
        = .ok (ret, flash') → 0 ≤ ret →
      flashReadBuf driver bad dev.mtdType dev flash' dev.envSize dev.devoff
          = .ok (toInt dev.envSize, bytes buf 0 dev.envSize) ∧
        ∀ x, dev.mtdType = .absent ∨ x ∈ goodPlaces dev bad → x ∉ imagePlaces dev bad →
          flash'.mem x = flash.mem x

def sectorsTouched : ℕ :=
  (dev.devoff % dev.eraseSize + dev.envSize + dev.eraseSize - 1) / dev.eraseSize

/- The range is large enough and no transfer or size is out of bounds. -/
def Possible : Prop :=
  match dev.mtdType with
  | .absent => dev.envSize ≤ maxTransfer
  | .nandflash =>
    let total := sectorsTouched dev * dev.eraseSize
    dev.eraseSize ≠ 0 ∧ total ≤ (goodPlaces dev bad).length ∧ dev.eraseSize ≤ maxTransfer ∧
      0 ≤ toInt total ∧ (dev.envSize < total → total < 2 ^ 31)
  | .norflash | .dataflash | .ubivolume =>
    dev.eraseSize ≠ 0 ∧ sectorsTouched dev ≤ dev.envSectors ∧
      dev.envSectors * dev.eraseSize ≤ maxTransfer

/- An erase size to divide by on a file; on NAND, no block at or above 4 GiB; on the other types, a
range that ends with the environment. -/
def Exact : Prop :=
  match dev.mtdType with
  | .absent => dev.eraseSize ≠ 0
  | .nandflash => ∀ x, x ∈ imagePlaces dev bad → x / dev.eraseSize * dev.eraseSize < 2 ^ 32
  | .dataflash => sectorsTouched dev = 0 ∨ sectorsTouched dev = dev.envSectors
  | .norflash | .ubivolume =>
    sectorsTouched dev = 0 ∨ (sectorsTouched dev = dev.envSectors ∧
      (dev.envSize = 0 ∨ dev.first < 2 ^ 32))

end Statement

section Area

variable {dev : EnvDev} {bad : ℕ → Bool}

theorem mtd_of_nand (h : dev.mtdType = .nandflash) : dev.mtdType ≠ .absent := by
  rw [h]
  decide

theorem area_mtd (h : dev.mtdType ≠ .absent) : dev.area =
    { blocklen := dev.eraseSize
      top := dev.top
      eraseLen := dev.envSectors * dev.eraseSize
      blockstart := dev.first
      blockSeek := dev.devoff % dev.eraseSize
      writeTotal := sectorsTouched dev * dev.eraseSize } := by
  have hlen : (dev.devoff / dev.eraseSize + dev.envSectors) * dev.eraseSize
      - dev.devoff / dev.eraseSize * dev.eraseSize = dev.envSectors * dev.eraseSize := by
    rw [Nat.add_mul, Nat.add_sub_cancel_left]
  have hseek : dev.devoff - dev.devoff / dev.eraseSize * dev.eraseSize = dev.devoff % dev.eraseSize := by
    rw [Nat.mul_comm, ← Nat.mod_eq_sub_mul_div]
  rw [EnvDev.area, EnvFlash.area, if_neg h]
  simp only [hlen, hseek, sectorsTouched, EnvDev.first, EnvDev.top]

theorem area_absent (h : dev.mtdType = .absent) : dev.area =
    { blocklen := dev.envSize, top := dev.devoff + dev.envSize, eraseLen := dev.envSize
      blockstart := dev.devoff, blockSeek := 0, writeTotal := dev.envSize } := by
  rw [EnvDev.area, EnvFlash.area, if_pos h]

theorem mtd_of_more (h : dev.envSize < dev.area.writeTotal) : dev.mtdType ≠ .absent := by
  intro habsent
  rw [area_absent habsent] at h
  exact lt_irrefl _ h

theorem goodPlaces_other (h : dev.mtdType ≠ .nandflash) : goodPlaces dev bad
    = List.range' dev.area.blockstart (dev.area.top - dev.area.blockstart) :=
  places_all fun x _ _ => by simp [isGood, h]

theorem goodPlaces_nand (h : dev.mtdType = .nandflash) : goodPlaces dev bad
    = goodFrom bad dev.eraseSize dev.top dev.first := by
  rw [goodPlaces, area_mtd (mtd_of_nand h)]
  exact places_congr fun x _ _ => by simp [isGood, h]

end Area

section Steps

variable {dev : EnvDev} {bad : ℕ → Bool} {driver : Driver} {malloc : ℕ → Option Mem} {buf data : Mem}
  {flash flash' : Contents} {ret : ℤ} {mtdType : MtdType} {count offset total seek : ℕ} {places : List ℕ}

theorem map_ok {α β : Type} {f : α → β} {r : Except Fault α} {b : β} (h : r.map f = .ok b) :
    ∃ a, r = .ok a ∧ b = f a := by
  cases r with
  | error fault => cases h
  | ok a => exact ⟨a, rfl, (Except.ok.inj h).symm⟩

theorem flashWriteBuf_ok (h : flashWriteBuf driver bad mtdType dev malloc buf flash count offset
    = .ok (ret, flash')) :
    (mtdType ≠ .absent → dev.eraseSize ≠ 0) ∧ ∃ data processed,
      prepare driver bad mtdType dev malloc buf flash count (area mtdType dev count offset) = .ok data ∧
        writeLoop driver bad mtdType (area mtdType dev count offset).blocklen
          (if mtdType = .nandflash then (area mtdType dev count offset).blocklen
            else (area mtdType dev count offset).eraseLen)
          (area mtdType dev count offset).top (area mtdType dev count offset).writeTotal data
          ((area mtdType dev count offset).top + 2) flash 0 (area mtdType dev count offset).blockstart
            = .ok (processed, flash') ∧ ret = toInt processed := by
  unfold flashWriteBuf at h
  split at h
  · cases h
  · next hsize =>
    refine ⟨fun hmtd hzero => hsize ⟨hmtd, hzero⟩, ?_⟩
    simp only at h
    split at h
    · cases h
    · next data hprepare =>
      obtain ⟨⟨processed, flash₁⟩, hloop, heq⟩ := map_ok h
      simp only [Prod.mk.injEq] at heq
      obtain ⟨hret, rfl⟩ := heq
      exact ⟨data, processed, hprepare, hloop, hret⟩

theorem prepare_ok {a : Area}
    (h : prepare driver bad mtdType dev malloc buf flash count a = .ok data) :
    (count < a.writeTotal ∧ ∃ fresh rc old,
        flashReadBuf driver bad mtdType dev flash a.writeTotal a.blockstart = .ok (rc, old) ∧
          rc = a.writeTotal ∧ data = store (store fresh 0 old) a.blockSeek (bytes buf 0 count)) ∨
      (a.writeTotal ≤ count ∧ data = buf) := by
  unfold prepare at h
  split at h
  · next hlt =>
    split at h
    · cases h
    · next fresh _ =>
      split at h
      · cases h
      · next rc old hread =>
        split at h
        · cases h
        · next hrc =>
          exact .inl ⟨hlt, fresh, rc, old, hread, (not_not.mp hrc).symm, (Except.ok.inj h).symm⟩
  · next hle => exact .inr ⟨Nat.not_lt.mp hle, (Except.ok.inj h).symm⟩

theorem prepare_bytes {a : Area}
    (h : prepare driver bad mtdType dev malloc buf flash count a = .ok data)
    (hread : count < a.writeTotal → flashReadBuf driver bad mtdType dev flash a.writeTotal a.blockstart
      = .ok (toInt a.writeTotal, (places.take a.writeTotal).map flash.mem))
    (hfit : a.blockSeek + count ≤ a.writeTotal) (hlen : a.writeTotal ≤ places.length) :
    bytes data 0 a.writeTotal = (places.take a.blockSeek).map flash.mem ++ bytes buf 0 count
      ++ ((places.take a.writeTotal).drop (a.blockSeek + count)).map flash.mem := by
  rcases prepare_ok h with ⟨hlt, fresh, rc, old, hold, -, rfl⟩ | ⟨hle, rfl⟩
  · obtain ⟨-, rfl⟩ := Prod.mk.inj (Except.ok.inj ((hread hlt).symm.trans hold))
    have htotal : ((places.take a.writeTotal).map flash.mem).length = a.writeTotal := by
      rw [length_map, length_take, Nat.min_eq_left hlen]
    have hpatch := @bytes_patch fresh buf 0 a.blockSeek count
      ((places.take a.writeTotal).map flash.mem) (by rwa [htotal])
    rw [htotal, Nat.zero_add] at hpatch
    rw [hpatch, ← map_take, take_take, Nat.min_eq_left (by lia), map_drop]
  · have hseek : a.blockSeek = 0 := by lia
    have htotal : a.writeTotal = count := by lia
    rw [hseek, htotal, Nat.zero_add, take_zero, drop_eq_nil_of_le (length_take_le _ _)]
    simp

theorem kept_of_put {mem mem' : Mem}
    (hput : Put mem mem' (places.take total) (bytes data 0 total))
    (hdata : bytes data 0 total = (places.take seek).map mem ++ bytes buf 0 count
      ++ ((places.take total).drop (seek + count)).map mem)
    (hfit : seek + count ≤ total) (hlen : total ≤ places.length) :
    Put mem mem' ((places.drop seek).take count) (bytes buf 0 count) := by
  have hsplit : places.take total = places.take seek ++ (places.drop seek).take count
      ++ (places.take total).drop (seek + count) := by
    rw [← take_add]
    have htake := take_append_drop (seek + count) (places.take total)
    rwa [take_take, Nat.min_eq_left hfit, eq_comm] at htake
  have hparts : Put mem mem' (places.take seek ++ (places.drop seek).take count
      ++ (places.take total).drop (seek + count)) ((places.take seek).map mem ++ bytes buf 0 count
        ++ ((places.take total).drop (seek + count)).map mem) := by
    rw [← hsplit, ← hdata]
    exact hput
  refine hparts.middle ?_
  rw [length_bytes, length_take, length_drop]
  lia

theorem toInt_of_lt {n : ℕ} (h : n < 2 ^ 31) : toInt n = n := by
  refine Int.bmod_eq_of_le (by lia) ?_
  norm_num at h ⊢
  lia

theorem toInt_nonneg {n : ℕ} (h : n ≤ maxTransfer) : 0 ≤ toInt n := by
  have hmax : maxTransfer < 2 ^ 31 := by decide
  rw [toInt_of_lt (by lia)]
  exact Int.natCast_nonneg n

theorem toInt_lt (n : ℕ) : toInt n < 2 ^ 31 := by
  have h := Int.bmod_lt (x := n) (show 0 < 2 ^ 32 by norm_num)
  norm_num at h
  exact h

theorem flashReadBuf_blocks (hsize : dev.eraseSize ≠ 0)
    (hway : 0 < count → dev.eraseSize ≤ maxTransfer ∧ ∃ x, Reach driver bad dev.eraseSize dev.top
      flash.size (offset / dev.eraseSize * dev.eraseSize) (offset % dev.eraseSize + count) x) :
    flashReadBuf driver bad .nandflash dev flash count offset = .ok (toInt count,
      (((goodFrom bad dev.eraseSize dev.top (offset / dev.eraseSize * dev.eraseSize)).drop
        (offset % dev.eraseSize)).take count).map flash.mem) := by
  have hpos := Nat.pos_of_ne_zero hsize
  have hseek : offset - offset / dev.eraseSize * dev.eraseSize = offset % dev.eraseSize := by
    rw [Nat.mul_comm, ← Nat.mod_eq_sub_mul_div]
  have hloop := @readLoop_blocks driver bad dev.eraseSize dev.top
    (offset / dev.eraseSize * dev.eraseSize) flash (dev.top + 2) 0 count (offset % dev.eraseSize) []
    hpos (Nat.mul_mod_left _ _) (Nat.mul_mod_left _ _) (Nat.mod_lt _ hpos) (by lia) hway
  rw [Nat.zero_add, EnvDev.top] at hloop
  rw [flashReadBuf, if_neg hsize]
  simp only [if_true, hseek, hloop]
  rfl

end Steps

section Nand

variable {dev : EnvDev} {bad : ℕ → Bool} {driver : Driver} {malloc : ℕ → Option Mem} {buf data : Mem}
  {flash flash' : Contents} {ret : ℤ} {processed : ℕ}

theorem total_eq : sectorsTouched dev * dev.eraseSize
    = rounded dev.eraseSize (dev.devoff % dev.eraseSize + dev.envSize) := rfl

theorem read_before (hsize : dev.eraseSize ≠ 0) {total : ℕ}
    (hway : 0 < total → dev.eraseSize ≤ maxTransfer ∧
      ∃ x, Reach driver bad dev.eraseSize dev.top flash.size dev.first total x) :
    flashReadBuf driver bad .nandflash dev flash total dev.first = .ok (toInt total,
      ((goodFrom bad dev.eraseSize dev.top dev.first).take total).map flash.mem) := by
  have hpos := Nat.pos_of_ne_zero hsize
  have hstart : dev.first / dev.eraseSize * dev.eraseSize = dev.first := by
    rw [EnvDev.first, Nat.mul_div_cancel _ hpos]
  have hmod : dev.first % dev.eraseSize = 0 := Nat.mul_mod_left _ _
  have hread := @flashReadBuf_blocks dev bad driver flash total dev.first hsize (by
    rw [hstart, hmod, Nat.zero_add]
    exact hway)
  rwa [hstart, hmod, drop_zero] at hread

structure NandWrite (dev : EnvDev) (bad : ℕ → Bool) (driver : Driver) (malloc : ℕ → Option Mem)
    (buf data : Mem) (flash flash' : Contents) : Prop where
  size : dev.eraseSize ≠ 0
  prepared : prepare driver bad .nandflash dev malloc buf flash dev.envSize dev.area = .ok data
  loop : ∃ fuel, writeLoop driver bad .nandflash dev.eraseSize dev.eraseSize dev.top
    (sectorsTouched dev * dev.eraseSize) data fuel flash 0 dev.first
      = .ok (sectorsTouched dev * dev.eraseSize, flash')
  fits : 0 ≤ toInt (sectorsTouched dev * dev.eraseSize)

theorem nandWrite_of_ok (hnand : dev.mtdType = .nandflash)
    (h : flashWriteBuf driver bad dev.mtdType dev malloc buf flash dev.envSize dev.devoff
      = .ok (ret, flash')) (hret : 0 ≤ ret) :
    ∃ data, NandWrite dev bad driver malloc buf data flash flash' := by
  have hmtd := mtd_of_nand hnand
  obtain ⟨hsize, data, processed, hprepare, hloop, heq⟩ := flashWriteBuf_ok h
  rw [heq] at hret
  rw [← EnvDev.area] at hprepare hloop
  rw [area_mtd hmtd, hnand] at hloop
  rw [hnand] at hprepare
  have hwrote := @writeLoop_blocks driver bad dev.eraseSize dev.top dev.first
    (dev.devoff % dev.eraseSize + dev.envSize) flash data (dev.top + 2) 0 (processed, flash')
    (Nat.pos_of_ne_zero (hsize hmtd)) (Nat.mul_mod_left _ _) (by
      rw [Nat.zero_add, ← total_eq]
      exact hloop)
  obtain rfl : processed = sectorsTouched dev * dev.eraseSize := by
    rw [total_eq]
    exact hwrote.count.trans (Nat.zero_add _)
  exact ⟨data, hsize hmtd, hprepare, ⟨_, hloop⟩, hret⟩

theorem last_mem {places : List ℕ} {seek n x : ℕ} (hn : 0 < n) (hx : places[seek + n - 1]? = some x) :
    x ∈ (places.drop seek).take n := by
  have hindex : seek + (n - 1) = seek + n - 1 := by lia
  refine mem_of_getElem? (i := n - 1) ?_
  rw [getElem?_take_of_lt (by lia), getElem?_drop, hindex, hx]

namespace NandWrite

theorem wrote (h : NandWrite dev bad driver malloc buf data flash flash') :
    Wrote driver bad dev.eraseSize dev.top dev.first (dev.devoff % dev.eraseSize + dev.envSize) 0 data
      flash (sectorsTouched dev * dev.eraseSize, flash') := by
  obtain ⟨fuel, hloop⟩ := h.loop
  refine @writeLoop_blocks driver bad dev.eraseSize dev.top dev.first _ flash data fuel 0 _
    (Nat.pos_of_ne_zero h.size) (Nat.mul_mod_left _ _) ?_
  rw [Nat.zero_add, ← total_eq]
  exact hloop

theorem way (h : NandWrite dev bad driver malloc buf data flash flash') :
    0 < sectorsTouched dev * dev.eraseSize → dev.eraseSize ≤ maxTransfer ∧ ∃ x, Reach driver bad
      dev.eraseSize dev.top flash.size dev.first (sectorsTouched dev * dev.eraseSize) x := by
  obtain ⟨fuel, hloop⟩ := h.loop
  have hpos := Nat.pos_of_ne_zero h.size
  refine (@writeLoop_blocks driver bad dev.eraseSize dev.top dev.first
    (sectorsTouched dev * dev.eraseSize) flash data fuel 0
    (sectorsTouched dev * dev.eraseSize, flash') hpos (Nat.mul_mod_left _ _) ?_).way
  rw [Nat.zero_add, rounded_mul hpos]
  exact hloop

theorem length_le (h : NandWrite dev bad driver malloc buf data flash flash') :
    sectorsTouched dev * dev.eraseSize ≤ (goodFrom bad dev.eraseSize dev.top dev.first).length := by
  rcases Nat.eq_zero_or_pos (sectorsTouched dev * dev.eraseSize) with hzero | hpos
  · rw [hzero]
    exact Nat.zero_le _
  · obtain ⟨-, x, hx⟩ := h.way hpos
    obtain ⟨hlt, -⟩ := List.getElem?_eq_some_iff.mp hx.last
    lia

theorem data_bytes (hmtd : dev.mtdType ≠ .absent)
    (h : NandWrite dev bad driver malloc buf data flash flash') :
    bytes data 0 (sectorsTouched dev * dev.eraseSize)
      = ((goodFrom bad dev.eraseSize dev.top dev.first).take (dev.devoff % dev.eraseSize)).map flash.mem
        ++ bytes buf 0 dev.envSize
        ++ (((goodFrom bad dev.eraseSize dev.top dev.first).take
          (sectorsTouched dev * dev.eraseSize)).drop
            (dev.devoff % dev.eraseSize + dev.envSize)).map flash.mem := by
  have hprepared := h.prepared
  rw [area_mtd hmtd] at hprepared
  exact prepare_bytes hprepared (fun _ => read_before h.size h.way)
    (le_rounded (Nat.pos_of_ne_zero h.size)) h.length_le

theorem possible (hnand : dev.mtdType = .nandflash)
    (h : NandWrite dev bad driver malloc buf data flash flash')
    (hsome : 0 < sectorsTouched dev * dev.eraseSize) : Possible dev bad := by
  have hmtd := mtd_of_nand hnand
  have hprepared := h.prepared
  rw [area_mtd hmtd] at hprepared
  simp only [Possible, hnand, goodPlaces_nand hnand]
  refine ⟨h.size, h.length_le, (h.way hsome).1, h.fits, fun hlt => ?_⟩
  rcases prepare_ok hprepared with ⟨-, fresh, rc, old, hread, hrc, -⟩ | ⟨hle, -⟩
  · obtain ⟨rfl, -⟩ := Prod.mk.inj (Except.ok.inj ((read_before h.size h.way).symm.trans hread))
    have hbound := toInt_lt (sectorsTouched dev * dev.eraseSize)
    rw [hrc] at hbound
    exact_mod_cast hbound
  · simp only at hle
    lia

theorem put (hnand : dev.mtdType = .nandflash)
    (h : NandWrite dev bad driver malloc buf data flash flash') (hsome : 0 < dev.envSize)
    (hexact : ∀ x, x ∈ imagePlaces dev bad → x / dev.eraseSize * dev.eraseSize < 2 ^ 32) :
    Put flash.mem flash'.mem (imagePlaces dev bad) (bytes buf 0 dev.envSize) := by
  have hmtd := mtd_of_nand hnand
  rw [imagePlaces, area_mtd hmtd, goodPlaces_nand hnand] at hexact ⊢
  refine kept_of_put (h.wrote.put fun x hn hx => hexact x ?_) (h.data_bytes hmtd)
    (le_rounded (Nat.pos_of_ne_zero h.size)) h.length_le
  -- the last byte that is written for the image is one of the image
  refine mem_of_getElem? (i := dev.envSize - 1) ?_
  have hindex : dev.devoff % dev.eraseSize + (dev.envSize - 1)
      = dev.devoff % dev.eraseSize + dev.envSize - 1 := by lia
  rw [getElem?_take_of_lt (by lia), getElem?_drop, hindex, hx]

theorem reads_back (hnand : dev.mtdType = .nandflash)
    (h : NandWrite dev bad driver malloc buf data flash flash') :
    flashReadBuf driver bad .nandflash dev flash' dev.envSize dev.devoff
      = .ok (toInt dev.envSize, (imagePlaces dev bad).map flash'.mem) := by
  have hmtd := mtd_of_nand hnand
  have hsize : flash'.size = flash.size := h.wrote.size
  rw [imagePlaces, area_mtd hmtd, goodPlaces_nand hnand]
  refine flashReadBuf_blocks h.size fun hsome => ?_
  rw [hsize]
  exact h.wrote.way (by lia)

end NandWrite

theorem NandWrite.same (hmtd : dev.mtdType ≠ .absent)
    (h : NandWrite dev bad driver malloc buf data flash flash') (hnone : dev.envSize = 0) :
    ∀ x, x ∈ goodFrom bad dev.eraseSize dev.top dev.first → flash'.mem x = flash.mem x := by
  have hpos := Nat.pos_of_ne_zero h.size
  have hseek := Nat.mod_lt dev.devoff hpos
  have htotal := @total_eq dev
  rcases Nat.eq_zero_or_pos (dev.devoff % dev.eraseSize) with hzero | hsome
  · have hput := h.wrote.put fun x hn _ => absurd hn (by lia)
    rw [hzero, hnone, rounded_zero hpos, take_zero] at hput
    exact fun x _ => hput.frame x not_mem_nil
  · rw [hnone, Nat.add_zero, rounded_block hpos hsome, Nat.sub_eq_zero_of_le hseek.le,
      rounded_zero hpos, Nat.add_zero] at htotal
    have hbytes := h.data_bytes hmtd
    rw [hnone, bytes_zero, append_nil, Nat.add_zero, ← map_append, htotal] at hbytes
    have htake := take_append_drop (dev.devoff % dev.eraseSize)
      ((goodFrom bad dev.eraseSize dev.top dev.first).take dev.eraseSize)
    rw [take_take, Nat.min_eq_left hseek.le] at htake
    rw [htake] at hbytes
    obtain ⟨fuel, hloop⟩ := h.loop
    rw [htotal] at hloop
    exact writeLoop_same hpos (Nat.mul_mod_left _ _) hbytes hloop

theorem keeps_nand (hnand : dev.mtdType = .nandflash) (hexact : Possible dev bad → Exact dev bad) :
    Keeps dev bad := by
  have hmtd := mtd_of_nand hnand
  intro driver malloc buf flash flash' ret hwrite hret
  obtain ⟨data, h⟩ := nandWrite_of_ok hnand hwrite hret
  have hread := h.reads_back hnand
  rw [← hnand] at hread
  have hpos := Nat.pos_of_ne_zero h.size
  rcases Nat.eq_zero_or_pos dev.envSize with hnone | hsome
  · -- nothing is written but, where the offset is not aligned, the block itself
    have hempty : imagePlaces dev bad = [] := by rw [imagePlaces, hnone, take_zero]
    rw [hempty] at hread ⊢
    refine ⟨by rw [hread, hnone]; rfl, fun x hx _ => ?_⟩
    have hplace : x ∈ goodFrom bad dev.eraseSize dev.top dev.first := by
      rw [← goodPlaces_nand hnand]
      exact hx.resolve_left hmtd
    exact h.same hmtd hnone x hplace
  · have htotal := le_rounded (n := dev.devoff % dev.eraseSize + dev.envSize) hpos
    rw [← total_eq] at htotal
    have hlow := hexact (h.possible hnand (by lia))
    simp only [Exact, hnand] at hlow
    have hput := h.put hnand hsome hlow
    exact ⟨by rw [hread, hput.read], fun x _ hx => hput.frame x hx⟩

end Nand

section Other

variable {dev : EnvDev} {bad : ℕ → Bool} {driver : Driver} {malloc : ℕ → Option Mem} {buf data : Mem}
  {flash flash' : Contents} {ret : ℤ}

theorem area_other (hother : dev.mtdType ≠ .nandflash) (hsize : dev.mtdType ≠ .absent → dev.eraseSize ≠ 0) :
    dev.area.blockstart + dev.area.eraseLen = dev.area.top ∧
      dev.area.blockstart + dev.area.blockSeek = dev.devoff ∧
      dev.area.blockSeek + dev.envSize ≤ dev.area.writeTotal ∧
      goodPlaces dev bad = List.range' dev.area.blockstart dev.area.eraseLen := by
  rw [goodPlaces_other hother]
  by_cases habsent : dev.mtdType = .absent
  · rw [area_absent habsent]
    exact ⟨rfl, rfl, (Nat.zero_add _).le, by rw [Nat.add_sub_cancel_left]⟩
  · rw [area_mtd habsent]
    have hpos := Nat.pos_of_ne_zero (hsize habsent)
    have hlen : dev.first + dev.envSectors * dev.eraseSize = dev.top := by
      rw [EnvDev.first, EnvDev.top, Nat.add_mul]
    refine ⟨hlen, ?_, le_rounded hpos, ?_⟩
    · simp only [EnvDev.first]
      rw [Nat.mul_comm]
      exact Nat.div_add_mod _ _
    · simp only [← hlen, Nat.add_sub_cancel_left]

theorem possible_other (hother : dev.mtdType ≠ .nandflash) : Possible dev bad ↔
    (dev.mtdType ≠ .absent → dev.eraseSize ≠ 0) ∧ dev.area.writeTotal ≤ dev.area.eraseLen ∧
      dev.area.eraseLen ≤ maxTransfer := by
  by_cases habsent : dev.mtdType = .absent
  · rw [area_absent habsent]
    simp [Possible, habsent]
  · have hiff : Possible dev bad ↔ dev.eraseSize ≠ 0 ∧ sectorsTouched dev ≤ dev.envSectors ∧
        dev.envSectors * dev.eraseSize ≤ maxTransfer := by
      unfold Possible
      cases hm : dev.mtdType with
      | absent => exact absurd hm habsent
      | nandflash => exact absurd hm hother
      | norflash => exact Iff.rfl
      | dataflash => exact Iff.rfl
      | ubivolume => exact Iff.rfl
    rw [hiff, area_mtd habsent]
    constructor
    · rintro ⟨hsize, hle, hmax⟩
      exact ⟨fun _ => hsize, Nat.mul_le_mul_right _ hle, hmax⟩
    · rintro ⟨hsize, hle, hmax⟩
      exact ⟨hsize habsent,
        Nat.le_of_mul_le_mul_right hle (Nat.pos_of_ne_zero (hsize habsent)), hmax⟩

theorem exact_other (hother : dev.mtdType ≠ .nandflash)
    (hsize : dev.mtdType ≠ .absent → dev.eraseSize ≠ 0) : Exact dev bad ↔ dev.eraseSize ≠ 0 ∧
      (dev.area.writeTotal = 0 ∨ (dev.area.writeTotal = dev.area.eraseLen ∧
        (dev.envSize = 0 ∨ (dev.mtdType.erased = true → dev.area.blockstart < 2 ^ 32)))) := by
  by_cases habsent : dev.mtdType = .absent
  · rw [area_absent habsent]
    simp [Exact, habsent, MtdType.erased]
  · have hpos := Nat.pos_of_ne_zero (hsize habsent)
    have hzero : sectorsTouched dev * dev.eraseSize = 0 ↔ sectorsTouched dev = 0 := by
      rw [Nat.mul_eq_zero]
      exact or_iff_left (hsize habsent)
    have hall : sectorsTouched dev * dev.eraseSize = dev.envSectors * dev.eraseSize
        ↔ sectorsTouched dev = dev.envSectors := Nat.mul_left_inj (hsize habsent)
    rw [area_mtd habsent]
    simp only [hzero, hall, and_iff_right (hsize habsent)]
    unfold Exact
    cases hm : dev.mtdType with
    | absent => exact absurd hm habsent
    | nandflash => exact absurd hm hother
    | norflash => simp [MtdType.erased]
    | dataflash => simp [MtdType.erased]
    | ubivolume => simp [MtdType.erased]

theorem imagePlaces_other (hother : dev.mtdType ≠ .nandflash)
    (hsize : dev.mtdType ≠ .absent → dev.eraseSize ≠ 0)
    (hle : dev.area.writeTotal ≤ dev.area.eraseLen) :
    imagePlaces dev bad = List.range' dev.devoff dev.envSize := by
  obtain ⟨-, hoffset, hfit, hplaces⟩ := @area_other dev bad hother hsize
  have hlen : dev.area.eraseLen - dev.area.blockSeek = dev.envSize
      + (dev.area.eraseLen - dev.area.blockSeek - dev.envSize) := by lia
  rw [imagePlaces, hplaces, drop_range', Nat.mul_one, hoffset, hlen, ← range'_append_1,
    take_left' length_range']

theorem range_bytes (hother : dev.mtdType ≠ .nandflash)
    (hprepare : prepare driver bad dev.mtdType dev malloc buf flash dev.envSize dev.area = .ok data)
    (hdivide : dev.eraseSize ≠ 0) (hall : dev.area.writeTotal = dev.area.eraseLen)
    (hroom : dev.mtdType ≠ .absent → dev.area.blockstart + dev.area.eraseLen ≤ flash.size)
    (hmax : dev.area.eraseLen ≤ maxTransfer) :
    bytes data 0 dev.area.writeTotal
      = ((goodPlaces dev bad).take dev.area.blockSeek).map flash.mem ++ bytes buf 0 dev.envSize
        ++ (((goodPlaces dev bad).take dev.area.writeTotal).drop
          (dev.area.blockSeek + dev.envSize)).map flash.mem := by
  obtain ⟨-, -, hfit, hplaces⟩ := @area_other dev bad hother fun _ => hdivide
  have hlength : (goodPlaces dev bad).length = dev.area.eraseLen := by
    rw [hplaces, length_range']
  refine prepare_bytes hprepare (fun hlt => ?_) hfit (by rw [hlength, hall])
  have hmtd := mtd_of_more hlt
  rw [take_of_length_le (by rw [hlength, hall]), hplaces, map_range', ← hall]
  exact flashReadBuf_once hother hdivide fun _ => ⟨by rw [hall]; exact hroom hmtd, by rwa [hall]⟩

theorem otherWrite_of_ok (hother : dev.mtdType ≠ .nandflash)
    (h : flashWriteBuf driver bad dev.mtdType dev malloc buf flash dev.envSize dev.devoff
      = .ok (ret, flash')) :
    (dev.mtdType ≠ .absent → dev.eraseSize ≠ 0) ∧
      ((dev.area.writeTotal = 0 ∧ flash' = flash) ∨ 0 < dev.area.writeTotal ∧ ∃ data,
        prepare driver bad dev.mtdType dev malloc buf flash dev.envSize dev.area = .ok data ∧
          dev.area.writeTotal ≤ dev.area.eraseLen ∧
          rewrite driver dev.mtdType flash dev.area.blockstart (bytes data 0 dev.area.eraseLen)
            = some flash') := by
  obtain ⟨hsize, data, processed, hprepare, hloop, -⟩ := flashWriteBuf_ok h
  rw [← EnvDev.area] at hprepare hloop
  rw [if_neg hother] at hloop
  refine ⟨hsize, ?_⟩
  rcases Nat.eq_zero_or_pos dev.area.writeTotal with hzero | hsome
  · rw [hzero, writeLoop_none] at hloop
    exact .inl ⟨hzero, (Prod.mk.inj (Except.ok.inj hloop)).2.symm⟩
  · obtain ⟨htop, -⟩ := @area_other dev bad hother hsize
    obtain ⟨hle, -, hrewrite⟩ := writeLoop_once hother hsome htop hloop
    exact .inr ⟨hsome, data, hprepare, hle, hrewrite⟩

theorem keeps_other (hother : dev.mtdType ≠ .nandflash) (hexact : Possible dev bad → Exact dev bad) :
    Keeps dev bad := by
  intro driver malloc buf flash flash' ret hwrite _
  obtain ⟨hsize, hdone⟩ := otherWrite_of_ok hother hwrite
  obtain ⟨-, hoffset, hfit, hplaces⟩ := @area_other dev bad hother hsize
  rcases hdone with ⟨hzero, rfl⟩ | ⟨hsome, data, hprepare, hle, hrewrite⟩
  · have hnone : dev.envSize = 0 := by lia
    have hdivide : dev.eraseSize ≠ 0 := by
      by_cases habsent : dev.mtdType = .absent
      · have hlen := congrArg Area.eraseLen (area_absent habsent)
        have hpossible := (@possible_other dev bad hother).mpr
          ⟨hsize, by rw [hzero]; exact Nat.zero_le _, by rw [hlen, hnone]; exact Nat.zero_le _⟩
        exact ((exact_other hother hsize).mp (hexact hpossible)).1
      · exact hsize habsent
    refine ⟨?_, fun _ _ _ => rfl⟩
    rw [flashReadBuf_once hother hdivide (fun hsome => by lia), hnone]
    rfl
  · obtain ⟨hmax, hroom, rfl⟩ := rewrite_some hrewrite
    have hlen : (bytes data 0 dev.area.eraseLen).length = dev.area.eraseLen := length_bytes _ _ _
    rw [hlen] at hmax hroom
    have hpossible := (@possible_other dev bad hother).mpr ⟨hsize, hle, hmax⟩
    obtain ⟨hdivide, hrange⟩ := (exact_other hother hsize).mp (hexact hpossible)
    obtain ⟨hall, hlow⟩ := hrange.resolve_left (Nat.ne_of_gt hsome)
    have hbytes := range_bytes hother hprepare hdivide hall hroom hmax
    have htake : (goodPlaces dev bad).take dev.area.writeTotal = goodPlaces dev bad :=
      take_of_length_le (by rw [hplaces, length_range', hall])
    have hread := @flashReadBuf_once driver bad dev.mtdType
      ⟨burn dev.mtdType flash.mem dev.area.blockstart (bytes data 0 dev.area.eraseLen),
        max flash.size (dev.area.blockstart + (bytes data 0 dev.area.eraseLen).length)⟩
      dev.envSize dev.devoff dev hother hdivide fun _ => ⟨by simp only [hlen]; lia, by lia⟩
    by_cases hbelow : dev.mtdType.erased = true → dev.area.blockstart < 2 ^ 32
    · have hput := put_store flash.mem dev.area.blockstart (bytes data 0 dev.area.eraseLen)
      rw [hlen, ← hplaces, ← htake, ← burn_low (by rwa [hlen]) hbelow, ← hall] at hput
      have himage := kept_of_put hput hbytes hfit (by rw [hplaces, length_range', hall])
      rw [← imagePlaces, hall] at himage
      refine ⟨?_, fun x _ hx => himage.frame x hx⟩
      rw [hread, ← himage.read, imagePlaces_other hother hsize hle, map_range']
    · -- without an image the range is written as it was
      have hnone := hlow.resolve_right hbelow
      rw [hnone, bytes_zero, append_nil, Nat.add_zero, ← map_append, htake,
        take_append_drop, hplaces, map_range', hall] at hbytes
      refine ⟨by rw [hread, hnone]; rfl, fun x hx _ => ?_⟩
      have hplace := hx.resolve_left fun habsent => hbelow fun he => by
        rw [habsent] at he
        exact absurd he (by decide)
      rw [hplaces, mem_range'_1] at hplace
      simp only [hbytes]
      exact burn_self hmax hplace.1

end Other

end UBoot.EnvFlash
