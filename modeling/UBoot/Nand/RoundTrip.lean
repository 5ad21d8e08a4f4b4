import UBoot.Nand.Transfers

/-!
# Write and read back

What `nand_write_skip_bad` stores, `nand_read_skip_bad` returns, when the loops judge the blocks of
the range as the space check does.
-/

namespace UBoot.Nand

open Places Option

section Statements

variable (nand : NandInfo) (cell : ℕ → UInt8) (offset length : ℕ) (lim : ℤ) (buf : Buffer) (trim : Bool)

/- There are enough good bytes before the limit and the end of the device. -/
def Fits : Prop :=
  ∃ v, length ≤ (places (good nand) offset v).length ∧ offset + v ≤ nand.size ∧ (v : ℤ) ≤ lim

def Refuses (run : ℕ → Option Result) (flash : Flash) : Prop :=
  ∃ n, ∀ turns, n ≤ turns → ∃ r, run turns = some r ∧ r.rval ≠ 0 ∧ r.flash = flash

structure RoundTrips : Prop where
  back : ∀ turns w,
    nandWriteSkipBad nand turns ⟨cell, []⟩ offset length lim buf trim = some w → w.rval = 0 →
    ∃ n, ∀ turns, n ≤ turns → ∃ r, nandReadSkipBad nand turns w.flash offset length lim = some r ∧
      r.rval = 0 ∧ r.data = slice buf 0 length ∧ r.actual = w.actual ∧ (r.actual : ℤ) ≤ lim ∧
      ∀ x, Touches r.flash.touched x ∨ w.flash.cell x ≠ cell x →
        (offset ≤ x ∧ x < offset + r.actual) ∧ good nand x = true
  refuse : Refuses (fun turns => nandWriteSkipBad nand turns ⟨cell, []⟩ offset length lim buf trim)
      ⟨cell, []⟩ ∧
    Refuses (fun turns => nandReadSkipBad nand turns ⟨cell, []⟩ offset length lim) ⟨cell, []⟩ ↔
      ¬ Fits nand offset length lim

/- `u` is what a transfer that fits in the device takes. -/
structure Judged : Prop where
  -- no sum of the space check wraps
  space : ∀ u, Needs (good nand) offset length u → offset + u ≤ nand.size →
    u < 2 ^ 32 ∧ length + overshoot nand (offset + u) < 2 ^ 32
  -- the low 32 bits of an address are enough to tell if its block is bad
  blocks : ∀ u : ℕ, Needs (good nand) offset length u → offset + u ≤ nand.size → u ≤ lim →
    trim = true ∨ (∃ x, offset ≤ x ∧ x < offset + u ∧ good nand x = false) →
    ∀ x, offset ≤ x → x < offset + u → seen nand x = good nand x
  -- nothing to write behind the device
  empty : length = 0 → 0 ≤ lim → trim = true → offset ≤ nand.size

end Statements

section Check

variable {nand : NandInfo} {offset length u : ℕ}

theorem blocks_enough (offset u : ℕ) :
    offset + u ≤ (offset / nand.erasesize + (u + 1)) * nand.erasesize := by
  have hend : offset + blockLen nand offset = _ := add_blockLen
  have hpos : 0 < blockLen nand offset := blockLen_pos
  have hmul : u ≤ u * nand.erasesize := Nat.le_mul_of_pos_right u (erasesize_pos nand)
  have hsplit : offset / nand.erasesize + (u + 1) = offset / nand.erasesize + 1 + u := by lia
  rw [hsplit, Nat.add_mul, ← hend]
  lia

theorem checkSkipLen_fits (hneeds : Needs (good nand) offset length u) (hin : offset + u ≤ nand.size)
    (hspace : u < 2 ^ 32 ∧ length + overshoot nand (offset + u) < 2 ^ 32) :
    ∃ ret, (∀ turns, u + 1 < turns → checkSkipLen nand turns offset length = some (ret, u)) ∧
      (ret = 1 ∧ (∃ x, offset ≤ x ∧ x < offset + u ∧ good nand x = false) ∨
        ret = 0 ∧ ∀ x, offset ≤ x → x < offset + u → good nand x = true) := by
  have hcheck : ∃ ret, checkSkipLen nand (u + 2) offset length = some (ret, (0 + u) % 2 ^ 32) ∧
      (ret = 1 ∧ (∃ x, offset ≤ x ∧ x < offset + u ∧ good nand x = false) ∨
        ret = 0 ∧ ∀ x, offset ≤ x → x < offset + u → good nand x = true) :=
    checkLoop_fits hneeds (Nat.zero_add _) hin hspace.2 (by norm_num) (blocks_enough offset u)
      (Nat.lt_succ_self _)
  obtain ⟨ret, hrun, hret⟩ := hcheck
  rw [Nat.zero_add, Nat.mod_eq_of_lt hspace.1] at hrun
  exact ⟨ret, fun turns hturns => checkLoop_mono hturns hrun, hret⟩

theorem checkSkipLen_short (hshort : ∀ u, Needs (good nand) offset length u → nand.size < offset + u)
    (hlt : length < 2 ^ 32) (hpos : 0 < length) :
    ∃ used, ∀ turns, nand.size + 1 < turns → checkSkipLen nand turns offset length = some (-1, used) := by
  have hk : nand.size ≤ (offset / nand.erasesize + (nand.size + 1)) * nand.erasesize :=
    Nat.le_trans (Nat.le_add_left _ _) (blocks_enough offset nand.size)
  have hcheck : ∃ used, checkSkipLen nand (nand.size + 2) offset length = some (-1, used) :=
    checkLoop_short hshort (Nat.zero_add _) hlt hpos hk (Nat.lt_succ_self _)
  obtain ⟨used, hrun⟩ := hcheck
  exact ⟨used, fun turns hturns => checkLoop_mono hturns hrun⟩

theorem checkSkipLen_det {turns n : ℕ} {r r' : ℤ × ℕ} (h : checkSkipLen nand turns offset length = some r)
    (h' : ∀ turns, n < turns → checkSkipLen nand turns offset length = some r') : r = r' := by
  have hmore : checkSkipLen nand (max turns (n + 1)) offset length = some r :=
    checkLoop_mono (Nat.le_max_left _ _) h
  rw [h' (max turns (n + 1)) (Nat.lt_of_lt_of_le (Nat.lt_succ_self n) (Nat.le_max_right _ _))] at hmore
  exact (some.inj hmore).symm

theorem fits_or_short (nand : NandInfo) (offset length : ℕ) :
    (∃ u, Needs (good nand) offset length u ∧ offset + u ≤ nand.size) ∨
      ∀ u, Needs (good nand) offset length u → nand.size < offset + u := by
  by_cases h : ∃ u, Needs (good nand) offset length u ∧ offset + u ≤ nand.size
  · exact .inl h
  · exact .inr fun u hu => Nat.lt_of_not_le fun hin => h ⟨u, hu, hin⟩

end Check

section Transfer

variable {nand : NandInfo} {cell : ℕ → UInt8} {offset length u turns : ℕ} {lim : ℤ} {buf : Buffer}
  {trim : Bool} {flash : Flash} {w : Result}

theorem nandReadSkipBad_fits (hjudged : Judged nand offset length lim trim)
    (hofs : offset % nand.writesize = 0) (hneeds : Needs (good nand) offset length u)
    (hin : offset + u ≤ nand.size) (hlim : (u : ℤ) ≤ lim) (flash : Flash) :
    ∃ n, ∀ turns, n ≤ turns → ∃ r, nandReadSkipBad nand turns flash offset length lim = some r ∧
      r.rval = 0 ∧ r.actual = u ∧ r.data = (places (good nand) offset u).map flash.cell ∧
      DidRead (places (good nand) offset u) flash r.flash := by
  obtain ⟨ret, hcheck, hret⟩ := checkSkipLen_fits hneeds hin (hjudged.space u hneeds hin)
  refine ⟨u + 2, fun turns hturns => ?_⟩
  unfold nandReadSkipBad
  rw [if_neg (by simp [hofs]), hcheck turns (by lia)]
  rcases hret with ⟨rfl, hbad⟩ | ⟨rfl, hgood⟩
  · have hseen := hjudged.blocks u hneeds hin hlim (.inr hbad)
    obtain ⟨flash', hrun, hread⟩ := readLoop_run flash
      (hneeds.congr fun x hlo hhi => (hseen x hlo hhi).symm) hin (blocks_enough offset u)
      (show u + 1 < turns by lia)
    rw [places_congr hseen] at hrun hread
    simp only [hrun]
    rw [if_neg (by norm_num), if_neg (by lia), if_neg (by norm_num)]
    exact ⟨_, rfl, rfl, rfl, rfl, hread⟩
  · obtain rfl := hneeds.unique (Needs.all fun x hlo hhi => hgood x hlo (by have := hneeds.le; lia))
    obtain ⟨rval, flash', hrun, hrval, hread⟩ := nandRead_read flash hin
    simp only [hrun]
    rw [if_neg (by norm_num), if_neg (by lia), if_pos trivial, if_pos hrval, places_all hgood]
    exact ⟨_, rfl, rfl, rfl, rfl, hread⟩

theorem nandWriteSkipBad_fits (hjudged : Judged nand offset length lim trim) (hlen : length < 2 ^ 32)
    (hofs : offset % nand.writesize = 0) (herased : ∀ x, offset ≤ x → x < nand.size → cell x = 0xff)
    (hneeds : Needs (good nand) offset length u) (hin : offset + u ≤ nand.size)
    (h : nandWriteSkipBad nand turns ⟨cell, []⟩ offset length lim buf trim = some w)
    (hok : w.rval = 0) :
    w.actual = u ∧ (u : ℤ) ≤ lim ∧
      Stored (places (good nand) offset u) (slice buf 0 length) ⟨cell, []⟩ w.flash := by
  obtain ⟨ret, hall, hret⟩ := checkSkipLen_fits hneeds hin (hjudged.space u hneeds hin)
  unfold nandWriteSkipBad at h
  rw [if_neg (by simp [hofs])] at h
  cases hcheck : checkSkipLen nand turns offset length with
  | none => simp [hcheck] at h
  | some r =>
    obtain rfl := checkSkipLen_det hcheck hall
    have hret0 : ¬ ret < 0 := by
      rcases hret with ⟨rfl, -⟩ | ⟨rfl, -⟩
      · norm_num
      · norm_num
    simp only [hcheck, hret0, if_false] at h
    split at h
    · obtain rfl := some.inj h
      simp [efbig] at hok
    · rename_i hlim
      have herased' : ∀ x, x ∈ places (good nand) offset u → cell x = 0xff := by
        intro x hx
        have hx' := (mem_places.mp hx).1
        exact herased x hx'.1 (by lia)
      split at h
      · rename_i hfast
        obtain ⟨rfl, rfl⟩ := hfast
        have hgood := (hret.resolve_left (by rintro ⟨h, -⟩; cases h)).2
        obtain rfl := hneeds.unique
          (Needs.all fun x hlo hhi => hgood x hlo (by have := hneeds.le; lia))
        rw [places_all hgood] at herased' ⊢
        cases hwrite : nandWrite nand turns ⟨cell, []⟩ buf offset u 0 with
        | none => simp [hwrite] at h
        | some r =>
          obtain ⟨rval, retlen, flash'⟩ := r
          simp only [hwrite, some.injEq] at h
          subst h
          obtain rfl : rval = 0 := hok
          refine ⟨rfl, by lia, ?_⟩
          have hall : u = if false = true then dropFfs nand buf 0 u else u := rfl
          exact nandWrite_stored hofs hlen hall hwrite fun x hlo hhi =>
            herased' x (List.mem_range'_1.mpr ⟨hlo, hhi⟩)
      · rename_i hslow
        cases hloop : writeLoop nand buf trim turns ⟨cell, []⟩ offset 0 length with
        | none => simp [hloop] at h
        | some r =>
          obtain ⟨rval, left, flash'⟩ := r
          simp only [hloop, some.injEq] at h
          subst h
          obtain rfl : rval = 0 := hok
          have hseen := hjudged.blocks u hneeds hin (by lia) (by
            rcases hret with ⟨-, hbad⟩ | ⟨hzero, -⟩
            · exact .inr hbad
            · cases htrim : trim with
              | true => exact .inl rfl
              | false => exact absurd ⟨hzero, htrim⟩ hslow)
          obtain ⟨-, u', hneeds', hstored⟩ := writeLoop_stored (.inr hofs) hlen hloop
          obtain rfl := hneeds'.unique (hneeds.congr fun x hlo hhi => (hseen x hlo hhi).symm)
          rw [places_congr hseen] at hstored
          exact ⟨rfl, by lia, hstored herased'⟩

end Transfer

section Refused

variable {nand : NandInfo} {cell : ℕ → UInt8} {offset length turns : ℕ} {lim : ℤ} {buf : Buffer}
  {trim : Bool} {check : ℤ × ℕ}

/- What the space check says of a transfer that does not fit; nothing at all does not fit behind the
device. -/
def NoSpace (nand : NandInfo) (offset length : ℕ) (lim : ℤ) (check : ℤ × ℕ) : Prop :=
  check.1 < 0 ∨ lim < check.2 ∨ check.1 = 0 ∧ length = 0 ∧ nand.size < offset

theorem noSpace_of_not_fits (hjudged : Judged nand offset length lim trim) (hlen : length < 2 ^ 32)
    (h : ¬ Fits nand offset length lim) :
    ∃ n check, (∀ turns, n < turns → checkSkipLen nand turns offset length = some check) ∧
      NoSpace nand offset length lim check := by
  rcases fits_or_short nand offset length with ⟨u, hneeds, hin⟩ | hshort
  · obtain ⟨ret, hcheck, -⟩ := checkSkipLen_fits hneeds hin (hjudged.space u hneeds hin)
    refine ⟨u + 1, (ret, u), hcheck, .inr (.inl (Int.lt_of_not_ge fun hle => h ⟨u, ?_, hin, hle⟩))⟩
    exact Nat.le_of_eq hneeds.length.symm
  · rcases Nat.eq_zero_or_pos length with rfl | hpos
    · refine ⟨0, (0, 0), fun turns hturns => ?_, .inr (.inr ⟨rfl, rfl, hshort 0 (Needs.zero_iff.mpr rfl)⟩)⟩
      obtain _ | turns := turns
      · lia
      unfold checkSkipLen checkLoop
      rfl
    · obtain ⟨used, hcheck⟩ := checkSkipLen_short hshort hlen hpos
      exact ⟨nand.size + 1, (-1, used), hcheck, .inl (by norm_num)⟩

variable (buf) in
theorem nandWriteSkipBad_refused (hjudged : Judged nand offset length lim trim)
    (hcheck : checkSkipLen nand turns offset length = some check)
    (hno : NoSpace nand offset length lim check) (flash : Flash) :
    ∃ r, nandWriteSkipBad nand turns flash offset length lim buf trim = some r ∧ r.rval ≠ 0 ∧
      r.flash = flash := by
  obtain ⟨ret, used⟩ := check
  unfold nandWriteSkipBad
  split
  · exact ⟨_, rfl, by simp [einval], rfl⟩
  · simp only [hcheck]
    split
    · exact ⟨_, rfl, by simp [einval], rfl⟩
    · rename_i hret
      split
      · exact ⟨_, rfl, by simp [efbig], rfl⟩
      · rename_i hlim
        obtain ⟨hzero, hlen, hbehind⟩ := (hno.resolve_left hret).resolve_left hlim
        have htrim : trim = false := by
          cases htrim : trim with
          | false => rfl
          | true => exact absurd (hjudged.empty hlen (by lia) htrim) (Nat.not_le.mpr hbehind)
        rw [if_pos ⟨hzero, htrim⟩, nandWrite, if_pos (.inl hbehind)]
        exact ⟨_, rfl, by simp [einval], rfl⟩

theorem nandReadSkipBad_refused (hcheck : checkSkipLen nand turns offset length = some check)
    (hno : NoSpace nand offset length lim check) (flash : Flash) :
    ∃ r, nandReadSkipBad nand turns flash offset length lim = some r ∧ r.rval ≠ 0 ∧ r.flash = flash := by
  obtain ⟨ret, used⟩ := check
  unfold nandReadSkipBad
  split
  · exact ⟨_, rfl, by simp [einval], rfl⟩
  · simp only [hcheck]
    split
    · exact ⟨_, rfl, by simp [einval], rfl⟩
    · rename_i hret
      split
      · exact ⟨_, rfl, by simp [efbig], rfl⟩
      · rename_i hlim
        obtain ⟨hzero, hlen, hbehind⟩ := (hno.resolve_left hret).resolve_left hlim
        have hread : nandRead nand flash offset length = (-einval, [], flash) := if_pos (.inl hbehind)
        rw [if_pos hzero, hread]
        dsimp only
        rw [if_neg (by simp [einval, euclean])]
        exact ⟨_, rfl, by simp [einval], rfl⟩

end Refused

section RoundTrip

variable {nand : NandInfo} {cell : ℕ → UInt8} {offset length : ℕ} {lim : ℤ} {buf : Buffer} {trim : Bool}

theorem needs_of_fits (h : Fits nand offset length lim) :
    ∃ u, Needs (good nand) offset length u ∧ offset + u ≤ nand.size ∧ (u : ℤ) ≤ lim := by
  obtain ⟨v, henough, hin, hlim⟩ := h
  obtain ⟨u, hle, hneeds⟩ := Needs.exists_of_enough henough
  exact ⟨u, hneeds, by lia, by lia⟩

theorem roundTrips_of_judged (hjudged : Judged nand offset length lim trim) (hlen : length < 2 ^ 32)
    (hofs : offset % nand.writesize = 0) (herased : ∀ x, offset ≤ x → x < nand.size → cell x = 0xff) :
    RoundTrips nand cell offset length lim buf trim := by
  refine ⟨fun turns w hwrite hok => ?_, ?_⟩
  · by_cases hfits : Fits nand offset length lim
    · obtain ⟨u, hneeds, hin, -⟩ := needs_of_fits hfits
      obtain ⟨hactual, hlim, hstored⟩ :=
        nandWriteSkipBad_fits hjudged hlen hofs herased hneeds hin hwrite hok
      obtain ⟨n, hread⟩ := nandReadSkipBad_fits hjudged hofs hneeds hin hlim w.flash
      refine ⟨n, fun turns hturns => ?_⟩
      obtain ⟨r, hrun, hrval, hract, hdata, hdid⟩ := hread turns hturns
      refine ⟨r, hrun, hrval, hdata.trans hstored.data, hract.trans hactual.symm, hract ▸ hlim, ?_⟩
      intro x hx
      rw [hract]
      refine mem_places.mp ?_
      obtain ⟨t₁, ht₁, hin₁⟩ := hstored.touched
      obtain ⟨t₂, ht₂, hin₂⟩ := hdid.touched
      by_contra hnot
      rcases hx with htouch | hcell
      · rw [ht₂, ht₁, List.nil_append] at htouch
        rcases (touches_append t₁ t₂ x).mp htouch with hx | hx
        · exact hnot (hin₁ x hx)
        · exact hnot ((hin₂ x).mp hx)
      · exact hcell (hstored.keep x hnot)
    · obtain ⟨n, check, hcheck, hno⟩ := noSpace_of_not_fits hjudged hlen hfits
      cases hc : checkSkipLen nand turns offset length with
      | none =>
        unfold nandWriteSkipBad at hwrite
        rw [if_neg (by simp [hofs]), hc] at hwrite
        cases hwrite
      | some check' =>
        obtain rfl := checkSkipLen_det hc hcheck
        obtain ⟨r, hrun, hne, -⟩ := nandWriteSkipBad_refused buf hjudged hc hno ⟨cell, []⟩
        rw [hwrite] at hrun
        exact absurd (some.inj hrun ▸ hok) hne
  · constructor
    · rintro ⟨-, n, hrefuse⟩ hfits
      obtain ⟨u, hneeds, hin, hlim⟩ := needs_of_fits hfits
      obtain ⟨m, hread⟩ := nandReadSkipBad_fits hjudged hofs hneeds hin hlim ⟨cell, []⟩
      obtain ⟨r, hrun, hrval, -⟩ := hread (max n m) (Nat.le_max_right _ _)
      obtain ⟨r', hrun', hne, -⟩ := hrefuse (max n m) (Nat.le_max_left _ _)
      dsimp only at hrun'
      rw [hrun] at hrun'
      exact hne (some.inj hrun' ▸ hrval)
    · intro hfits
      obtain ⟨n, check, hcheck, hno⟩ := noSpace_of_not_fits hjudged hlen hfits
      exact ⟨⟨n + 1, fun turns hturns =>
        nandWriteSkipBad_refused buf hjudged (hcheck turns hturns) hno _⟩,
        n + 1, fun turns hturns => nandReadSkipBad_refused (hcheck turns hturns) hno _⟩

end RoundTrip

end UBoot.Nand
