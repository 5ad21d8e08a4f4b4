import UBoot.Env.FlashKeeps

/-!
# Where a written environment spoils its neighbours

Over a driver that refuses nothing the condition of `Exact` is needed as well as enough.
-/

namespace UBoot.EnvFlash

open Memory Places List

section Counter

variable {dev : EnvDev} {bad : ℕ → Bool} {driver : Driver} {malloc : ℕ → Option Mem}
  {buf data fresh mem : Mem} {flash flash' : Contents} {mtdType : MtdType}
  {count offset processed : ℕ} {old : List UInt8}

theorem flashWriteBuf_of {a : Area} (ha : area mtdType dev count offset = a)
    (hsize : mtdType ≠ .absent → dev.eraseSize ≠ 0)
    (hprepare : prepare driver bad mtdType dev malloc buf flash count a = .ok data)
    (hloop : writeLoop driver bad mtdType a.blocklen
      (if mtdType = .nandflash then a.blocklen else a.eraseLen) a.top a.writeTotal data (a.top + 2)
      flash 0 a.blockstart = .ok (processed, flash')) :
    flashWriteBuf driver bad mtdType dev malloc buf flash count offset
      = .ok (toInt processed, flash') := by
  have hnot : ¬ (mtdType ≠ .absent ∧ dev.eraseSize = 0) := fun h => hsize h.1 h.2
  rw [flashWriteBuf, if_neg hnot]
  simp only [ha, hprepare, hloop]
  rfl

theorem prepare_reads {a : Area} (hread : count < a.writeTotal →
    flashReadBuf driver bad mtdType dev flash a.writeTotal a.blockstart
      = .ok ((a.writeTotal : ℤ), old)) :
    prepare driver bad mtdType dev (fun _ => some fresh) buf flash count a
      = .ok (if count < a.writeTotal then store (store fresh 0 old) a.blockSeek (bytes buf 0 count)
        else buf) := by
  unfold prepare
  split
  · next hlt =>
    rw [hread hlt]
    simp
  · rfl

theorem otherWrite_willing (hother : dev.mtdType ≠ .nandflash) (hpossible : Possible dev bad)
    (hsome : 0 < dev.area.writeTotal) (mem fresh buf : Mem) :
    ∃ data, flashWriteBuf willing bad dev.mtdType dev (fun _ => some fresh) buf ⟨mem, dev.area.top⟩
        dev.envSize dev.devoff = .ok (toInt dev.area.eraseLen,
          ⟨burn dev.mtdType mem dev.area.blockstart (bytes data 0 dev.area.eraseLen), dev.area.top⟩) ∧
      data = if dev.envSize < dev.area.writeTotal then
          store (store fresh 0 (bytes mem dev.area.blockstart dev.area.writeTotal)) dev.area.blockSeek
            (bytes buf 0 dev.envSize)
        else buf := by
  obtain ⟨hsize, hle, hmax⟩ := (possible_other hother).mp hpossible
  obtain ⟨htop, hoffset, hfit, -⟩ := @area_other dev bad hother hsize
  have hmaxInt : maxTransfer < 2 ^ 31 := by decide
  have hread : dev.envSize < dev.area.writeTotal →
      flashReadBuf willing bad dev.mtdType dev ⟨mem, dev.area.top⟩ dev.area.writeTotal dev.area.blockstart
        = .ok ((dev.area.writeTotal : ℤ), bytes mem dev.area.blockstart dev.area.writeTotal) := by
    intro hlt
    have hmtd := mtd_of_more hlt
    rw [← toInt_of_lt (by lia : dev.area.writeTotal < 2 ^ 31)]
    exact flashReadBuf_once hother (hsize hmtd) fun _ => ⟨by simp only; lia, by lia⟩
  refine ⟨_, flashWriteBuf_of (a := dev.area) rfl hsize (prepare_reads hread) ?_, rfl⟩
  rw [if_neg hother]
  refine writeLoop_once_ok hother hsome htop hle ?_
  exact rewrite_willing (by rwa [length_bytes]) (by rw [length_bytes]; exact htop.le)

theorem burn_zero {s i : ℕ} {out : List UInt8} (hi : i < out.length) (hzero : out[i] = 0) :
    burn mtdType mem s out (s + i) = 0 := by
  unfold burn program
  cases mtdType.erased with
  | true =>
    rw [if_pos rfl, store_at _ _ _ (by rw [length_programmed]; exact hi), getElem_zipWith, hzero]
    exact UInt8.and_zero
  | false =>
    simp only [Bool.false_eq_true, if_false]
    rw [store_at _ _ _ hi, hzero]

theorem mem_bytes_const {n : ℕ} {b c : UInt8} (h : b ∈ bytes (fun _ => c) 0 n) : b = c := by
  obtain ⟨i, -, rfl⟩ := mem_map.mp h
  rfl

theorem size_of_keeps (habsent : dev.mtdType = .absent) (hkeeps : Keeps dev bad)
    (hpossible : Possible dev bad) : dev.eraseSize ≠ 0 := by
  intro hzero
  have hother : dev.mtdType ≠ .nandflash := by
    rw [habsent]
    decide
  have hmax := (possible_other hother).mp hpossible
  have hwrite : ∃ n : ℕ, ∃ flash', n ≤ maxTransfer ∧ flashWriteBuf willing bad dev.mtdType dev
      (fun _ => some fun _ => 0) (fun _ => 0) ⟨fun _ => 0, dev.area.top⟩ dev.envSize dev.devoff
        = .ok (toInt n, flash') := by
    rcases Nat.eq_zero_or_pos dev.area.writeTotal with hnone | hsome
    · have hprepare := @prepare_reads dev bad willing (fun _ => 0) (fun _ => 0)
        ⟨fun _ => 0, dev.area.top⟩ dev.mtdType dev.envSize [] dev.area fun hlt => by lia
      refine ⟨0, ⟨fun _ => 0, dev.area.top⟩, Nat.zero_le _,
        flashWriteBuf_of (a := dev.area) rfl hmax.1 hprepare ?_⟩
      rw [hnone]
      exact writeLoop_none
    · obtain ⟨data, hwrite, -⟩ := otherWrite_willing hother hpossible hsome (fun _ => 0) (fun _ => 0)
        fun _ => 0
      exact ⟨_, _, hmax.2.2, hwrite⟩
  obtain ⟨n, flash', hle, hwrite⟩ := hwrite
  have hread := (hkeeps _ _ _ _ _ _ hwrite (toInt_nonneg hle)).1
  rw [flashReadBuf, if_pos hzero] at hread
  cases hread

theorem all_of_keeps (hother : dev.mtdType ≠ .nandflash) (hkeeps : Keeps dev bad)
    (hpossible : Possible dev bad) (hsome : 0 < dev.area.writeTotal) :
    dev.area.writeTotal = dev.area.eraseLen := by
  obtain ⟨hsize, hle, hmax⟩ := (possible_other hother).mp hpossible
  obtain ⟨htop, hoffset, hfit, hplaces⟩ := @area_other dev bad hother hsize
  by_contra hne
  have hlt : dev.area.writeTotal < dev.area.eraseLen := by lia
  obtain ⟨data, hwrite, hdata⟩ := otherWrite_willing hother hpossible hsome (fun _ => 0xff) (fun _ => 0)
    fun _ => 0
  have hbyte : data dev.area.writeTotal = 0 := by
    rw [hdata]
    split
    · rw [store_above _ _ _ (by rw [length_bytes]; exact hfit),
        store_above _ _ _ (by rw [length_bytes]; lia)]
    · rfl
  have hkept := (hkeeps _ _ _ _ _ _ hwrite (toInt_nonneg hmax)).2 (dev.area.blockstart + dev.area.writeTotal)
    (.inr (by rw [hplaces, mem_range'_1]; lia))
    (by rw [imagePlaces_other hother hsize hle, mem_range'_1]; lia)
  have hchanged := @burn_zero (fun _ => 0xff) dev.mtdType dev.area.blockstart dev.area.writeTotal
    (bytes data 0 dev.area.eraseLen) (by rwa [length_bytes]) (by simp [bytes, hbyte])
  simp only [hchanged] at hkept
  exact absurd hkept (by decide)

theorem low_of_keeps (hother : dev.mtdType ≠ .nandflash) (hkeeps : Keeps dev bad)
    (hpossible : Possible dev bad) (hsome : 0 < dev.envSize) (he : dev.mtdType.erased = true) :
    dev.area.blockstart < 2 ^ 32 := by
  obtain ⟨hsize, hle, hmax⟩ := (possible_other hother).mp hpossible
  obtain ⟨htop, hoffset, hfit, hplaces⟩ := @area_other dev bad hother hsize
  have hmtd : dev.mtdType ≠ .absent := by
    intro habsent
    rw [habsent] at he
    exact absurd he (by decide)
  by_contra hhigh
  obtain ⟨data, hwrite, -⟩ := otherWrite_willing hother hpossible (by lia) (fun _ => 0) (fun _ => 0)
    fun _ => 0xff
  have hread := (hkeeps _ _ _ _ _ _ hwrite (toInt_nonneg hmax)).1
  rw [flashReadBuf_once hother (hsize hmtd) fun _ => ⟨by simp only; lia, by lia⟩] at hread
  have hbytes := (Prod.mk.inj (Except.ok.inj hread)).2
  obtain ⟨n, hn⟩ := Nat.exists_eq_succ_of_ne_zero (Nat.ne_of_gt hsome)
  have hfirst := congrArg List.head? hbytes
  rw [hn, bytes_succ, bytes_succ] at hfirst
  have hstuck := @burn_stuck dev.mtdType (fun _ => 0) dev.area.blockstart dev.devoff
    (bytes data 0 dev.area.eraseLen) (by rwa [length_bytes]) he (by lia) (by lia)
    (by rw [length_bytes]; lia) rfl
  simp only [head?_cons, hstuck] at hfirst
  exact absurd hfirst (by decide)

theorem exact_of_keeps_other (hother : dev.mtdType ≠ .nandflash) (hkeeps : Keeps dev bad)
    (hpossible : Possible dev bad) : Exact dev bad := by
  obtain ⟨hsize, hle, hmax⟩ := (possible_other hother).mp hpossible
  rw [exact_other hother hsize]
  constructor
  · by_cases habsent : dev.mtdType = .absent
    · exact size_of_keeps habsent hkeeps hpossible
    · exact hsize habsent
  · rcases Nat.eq_zero_or_pos dev.area.writeTotal with hzero | hsome
    · exact .inl hzero
    · refine .inr ⟨all_of_keeps hother hkeeps hpossible hsome, ?_⟩
      rcases Nat.eq_zero_or_pos dev.envSize with hnone | himage
      · exact .inl hnone
      · exact .inr (low_of_keeps hother hkeeps hpossible himage)

theorem le_last {places : List ℕ} {seek n x y : ℕ} (hsorted : places.Pairwise (· < ·))
    (hx : x ∈ (places.drop seek).take n) (hy : places[seek + n - 1]? = some y) : x ≤ y := by
  obtain ⟨k, hk⟩ := getElem?_of_mem hx
  have hlt : k < n := by
    by_contra hge
    rw [getElem?_take_eq_none (Nat.not_lt.mp hge)] at hk
    cases hk
  rw [getElem?_take_of_lt hlt, getElem?_drop] at hk
  rcases Nat.lt_or_ge (seek + k) (seek + n - 1) with hbefore | hlast
  · obtain ⟨hlenx, rfl⟩ := List.getElem?_eq_some_iff.mp hk
    obtain ⟨hleny, rfl⟩ := List.getElem?_eq_some_iff.mp hy
    exact (pairwise_iff_getElem.mp hsorted _ _ hlenx hleny hbefore).le
  · rw [show seek + k = seek + n - 1 by lia] at hk
    exact (Option.some.inj (hk.symm.trans hy)).le

theorem nandWrite_willing {y : ℕ} (hnand : dev.mtdType = .nandflash) (hpossible : Possible dev bad)
    (hy : Reach willing bad dev.eraseSize dev.top dev.top dev.first
      (dev.devoff % dev.eraseSize + dev.envSize) y) :
    ∃ flash', flashWriteBuf willing bad dev.mtdType dev (fun _ => some fun _ => 0) (fun _ => 0xff)
        ⟨fun _ => 0, dev.top⟩ dev.envSize dev.devoff
          = .ok (toInt (sectorsTouched dev * dev.eraseSize), flash') ∧
      (2 ^ 32 ≤ y / dev.eraseSize * dev.eraseSize → flash'.mem y = 0) := by
  have hmtd := mtd_of_nand hnand
  simp only [Possible, hnand, goodPlaces_nand hnand] at hpossible
  obtain ⟨hsize, hlen, hmax, -, hsmall⟩ := hpossible
  have hpos := Nat.pos_of_ne_zero hsize
  have hstart : dev.first % dev.eraseSize = 0 := Nat.mul_mod_left _ _
  have htop : dev.top % dev.eraseSize = 0 := Nat.mul_mod_left _ _
  have hread : dev.envSize < sectorsTouched dev * dev.eraseSize →
      flashReadBuf willing bad .nandflash dev ⟨fun _ => 0, dev.top⟩
        (sectorsTouched dev * dev.eraseSize) dev.first
        = .ok (((sectorsTouched dev * dev.eraseSize : ℕ) : ℤ),
          ((goodFrom bad dev.eraseSize dev.top dev.first).take
            (sectorsTouched dev * dev.eraseSize)).map fun _ => 0) := by
    intro hlt
    rw [read_before hsize fun htotal => ⟨hmax, reach_willing htop le_rfl hlen htotal⟩,
      toInt_of_lt (hsmall hlt)]
  obtain ⟨data, hprepare⟩ : ∃ data, prepare willing bad .nandflash dev (fun _ => some fun _ => 0)
      (fun _ => 0xff) ⟨fun _ => 0, dev.top⟩ dev.envSize dev.area = .ok data :=
    ⟨_, prepare_reads (by rw [area_mtd hmtd]; exact hread)⟩
  obtain ⟨⟨processed, flash'⟩, hloop, hstuck⟩ := @writeLoop_willing bad dev.eraseSize dev.top dev.first
    (dev.devoff % dev.eraseSize + dev.envSize) y ⟨fun _ => 0, dev.top⟩ data (dev.top + 2) 0 hpos hmax htop
    hstart (by lia) fun _ => hy
  obtain rfl : processed = sectorsTouched dev * dev.eraseSize :=
    (writeLoop_blocks hpos hstart hloop).count.trans (Nat.zero_add _)
  rw [Nat.zero_add, ← total_eq] at hloop
  refine ⟨flash', flashWriteBuf_of (a := dev.area) rfl (fun _ => hsize) (by rw [hnand]; exact hprepare) ?_,
    fun hhigh => hstuck (fun _ => hhigh) rfl⟩
  rw [area_mtd hmtd, hnand, if_pos rfl]
  exact hloop

theorem exact_of_keeps_nand (hnand : dev.mtdType = .nandflash) (hkeeps : Keeps dev bad)
    (hpossible : Possible dev bad) : Exact dev bad := by
  have hplaces : imagePlaces dev bad = ((goodFrom bad dev.eraseSize dev.top dev.first).drop
      (dev.devoff % dev.eraseSize)).take dev.envSize := by
    rw [imagePlaces, area_mtd (mtd_of_nand hnand), goodPlaces_nand hnand]
  obtain ⟨hsize, hlen, -, hret, -⟩ : dev.eraseSize ≠ 0 ∧
      sectorsTouched dev * dev.eraseSize ≤ (goodFrom bad dev.eraseSize dev.top dev.first).length ∧
        _ ∧ 0 ≤ toInt (sectorsTouched dev * dev.eraseSize) ∧ _ := by
    simpa only [Possible, hnand, goodPlaces_nand hnand] using hpossible
  have hfit := le_rounded (n := dev.devoff % dev.eraseSize + dev.envSize) (Nat.pos_of_ne_zero hsize)
  rw [← total_eq] at hfit
  simp only [Exact, hnand]
  intro x hx
  by_contra hhigh
  have hsome : 0 < dev.envSize := by
    by_contra hnone
    rw [imagePlaces, Nat.eq_zero_of_not_pos hnone, take_zero] at hx
    cases hx
  obtain ⟨y, hy⟩ := @reach_willing bad dev.eraseSize dev.top dev.first
    (dev.devoff % dev.eraseSize + dev.envSize) dev.top (Nat.mul_mod_left _ _) le_rfl (by lia) (by lia)
  have hxy := Nat.mul_le_mul_right dev.eraseSize (Nat.div_le_div_right (c := dev.eraseSize)
    (le_last sorted_goodFrom (hplaces ▸ hx) hy.last))
  have hplace : y ∈ imagePlaces dev bad := by
    rw [hplaces]
    exact last_mem hsome hy.last
  -- the last byte of the image is read back as zero
  obtain ⟨flash', hwrite, hstuck⟩ := nandWrite_willing hnand hpossible hy
  obtain ⟨_, hnandWrite⟩ := nandWrite_of_ok hnand hwrite hret
  have hback := (hkeeps _ _ _ _ _ _ hwrite hret).1
  rw [hnand, hnandWrite.reads_back hnand] at hback
  have hbytes := (Prod.mk.inj (Except.ok.inj hback)).2
  have hones := mem_bytes_const (hbytes ▸ mem_map_of_mem hplace)
  rw [hstuck (by lia)] at hones
  exact absurd hones (by decide)

end Counter

/-- For every device and pattern of bad blocks: a successful write reads back and keeps its neighbours
exactly where the range, if it can be written at all, ends with the environment (with bad blocks
skipped on NAND), and no erased block of the image begins at or above 4 GiB. -/
theorem flash_write_keeps_iff (dev : EnvDev) (bad : ℕ → Bool) :
    Keeps dev bad ↔ (Possible dev bad → Exact dev bad) := by
  by_cases hnand : dev.mtdType = .nandflash
  · exact ⟨exact_of_keeps_nand hnand, keeps_nand hnand⟩
  · exact ⟨exact_of_keeps_other hnand, keeps_other hnand⟩

/- `/dev/mtd1 0x0 0x4000 0x4000 0x2` on NOR flash. -/
def norTwoSectors : EnvDev where
  devoff := 0
  envSize := 0x4000
  eraseSize := 0x4000
  envSectors := 2
  mtdType := .norflash
  fits := by decide

/- The second sector is erased and written with what lies behind the buffer. -/
theorem flash_write_spoils : ¬ Keeps norTwoSectors fun _ => false := by
  intro hkeeps
  have hpossible : Possible norTwoSectors fun _ => false :=
    (possible_other (by decide)).mpr ⟨by decide, by decide, by decide⟩
  have hall := all_of_keeps (by decide) hkeeps hpossible (by decide)
  exact absurd hall (by decide)

end UBoot.EnvFlash
