import UBoot.Nand.RoundTrip

/-!
# When the round trip fails

A write without trimming that returns 0 is read back from its own range, or the loops judge the
blocks of that range as the space check does.
-/

namespace UBoot.Nand

open Places List Nat Option

section Check

variable {nand : NandInfo} {length offset lenExclBad used left u turns : ℕ} {ret ret' : ℤ} {used' : ℕ}

theorem checkLoop_lt (hused : used < 2 ^ 32)
    (h : checkLoop nand length turns offset lenExclBad used ret = some (ret', used')) :
    used' < 2 ^ 32 := by
  induction turns generalizing offset lenExclBad used ret with
  | zero => cases h
  | succ turns ih =>
    unfold checkLoop at h
    split at h
    · simp only [some.injEq, Prod.mk.injEq] at h
      rw [← h.2]
      split
      · exact mod_lt _ (by norm_num)
      · exact hused
    · split at h
      · simp only [some.injEq, Prod.mk.injEq] at h
        rw [← h.2]
        exact hused
      · dsimp only at h
        split at h
        · exact ih (mod_lt _ (by norm_num)) h
        · exact ih (mod_lt _ (by norm_num)) h

theorem checkLoop_wrapped (hofs : offset % nand.erasesize = 0)
    (hfar : ∀ v, v % nand.erasesize = lenExclBad % nand.erasesize → length ≤ v → 2 ^ 32 ≤ v)
    (hlt : lenExclBad < 2 ^ 32)
    (h : checkLoop nand length turns offset lenExclBad used ret = some (ret', used')) : ret' = -1 := by
  induction turns generalizing offset lenExclBad used ret with
  | zero => cases h
  | succ turns ih =>
    have hshort : lenExclBad < length := by
      by_contra hle
      exact absurd (hfar lenExclBad rfl (Nat.not_lt.mp hle)) (Nat.not_le.mpr hlt)
    have hblock : blockLen nand offset = nand.erasesize := by rw [blockLen, hofs, Nat.sub_zero]
    have hnext : (offset + blockLen nand offset) % nand.erasesize = 0 := by
      rw [hblock, add_mod_right, hofs]
    rcases Nat.lt_or_ge offset nand.size with hin | hend
    · rw [checkLoop_turn hshort hin] at h
      split at h
      · refine ih hnext (fun v hv hle => hfar v ?_ hle) (mod_lt _ (by norm_num)) h
        rw [hv, mod_mod_of_dvd _ (erasesize_dvd nand), hblock, add_mod_right]
      · exact ih hnext hfar hlt h
    · unfold checkLoop at h
      rw [if_neg (by lia), if_pos hend] at h
      simp only [some.injEq, Prod.mk.injEq] at h
      exact h.1.symm

theorem checkLoop_over (hneeds : Needs (good nand) offset left u) (hlen : lenExclBad + left = length)
    (hlt : length < 2 ^ 32) (hin : offset + u ≤ nand.size) (hpos : 0 < left)
    (hwrap : 2 ^ 32 ≤ length + overshoot nand (offset + u))
    (h : checkLoop nand length turns offset lenExclBad used ret = some (ret', used')) : ret' = -1 := by
  induction turns generalizing offset lenExclBad used left u ret with
  | zero => cases h
  | succ turns ih =>
    have hu : 0 < u := Nat.lt_of_lt_of_le hpos hneeds.le
    have hend : ∀ {n}, n ≤ u → offset + n + (u - n) = offset + u := by
      intro n hn
      lia
    rw [checkLoop_turn (by lia) (by lia)] at h
    cases hgood : good nand offset with
    | false =>
      rw [hgood, if_neg (by simp)] at h
      obtain ⟨hle, hrest⟩ := needs_bad (fun x hlo hhi => (good_block hlo hhi).trans hgood) hneeds hpos
      exact ih hrest hlen (by rw [hend hle]; exact hin) hpos (by rw [hend hle]; exact hwrap) h
    | true =>
      rw [hgood, if_pos rfl] at h
      have hall : ∀ x, offset ≤ x → x < offset + blockLen nand offset → good nand x = true :=
        fun x hlo hhi => (good_block hlo hhi).trans hgood
      have hover : overshoot nand (offset + u) < nand.erasesize := mod_lt _ (erasesize_pos nand)
      rcases Nat.lt_or_ge (blockLen nand offset) left with hfull | hlast
      · obtain ⟨hle, hrest⟩ := needs_good hall hneeds (Nat.le_of_lt hfull)
        rw [mod_eq_of_lt (show lenExclBad + blockLen nand offset < 2 ^ 32 by lia)] at h
        exact ih hrest (by lia) (by rw [hend hle]; exact hin) (by lia)
          (by rw [hend hle]; exact hwrap) h
      · obtain rfl := needs_last hall hneeds hlast
        have hsum : lenExclBad + blockLen nand offset = length + overshoot nand (offset + u) := by
          rw [overshoot_last hu hlast]
          lia
        have hofs : (offset + blockLen nand offset) % nand.erasesize = 0 := by
          rw [add_blockLen, mul_mod_left]
        refine checkLoop_wrapped hofs (fun v hv hle => ?_) (mod_lt _ (by norm_num)) h
        rw [mod_mod_of_dvd _ (erasesize_dvd nand), hsum] at hv
        by_contra hlow
        have hdvd : nand.erasesize ∣ length + overshoot nand (offset + u) - v :=
          dvd_of_mod_eq_zero (sub_mod_eq_zero_of_mod_eq hv.symm)
        have hfar := le_of_dvd (by lia) hdvd
        lia

end Check

section Reads

variable {nand : NandInfo} {offset length left left' turns : ℕ} {lim : ℤ} {data : List UInt8}
  {flash flash' : Flash} {r : Result}

theorem nandRead_outside {n : ℕ} (h : nand.size < offset + n) (flash : Flash) :
    nandRead nand flash offset n = (-einval, [], flash) := by
  unfold nandRead
  rw [if_pos (by lia)]

theorem readLoop_places (h : readLoop nand turns flash offset left = some (0, left', data, flash')) :
    ∃ u, Needs (seen nand) offset left u ∧ DidRead (places (seen nand) offset u) flash flash' := by
  induction turns generalizing flash offset left data with
  | zero => cases h
  | succ turns ih =>
    rcases Nat.eq_zero_or_pos left with rfl | hpos
    · rw [readLoop_zero] at h
      simp only [some.injEq, Prod.mk.injEq, true_and] at h
      rw [← h.2.2]
      exact ⟨0, Needs.zero_iff.mpr rfl, DidRead.nil flash⟩
    · cases hseen : seen nand offset with
      | false =>
        rw [readLoop_skip (Nat.ne_of_gt hpos) hseen] at h
        have hnone : ∀ x, offset ≤ x → x < offset + blockLen nand offset → seen nand x = false :=
          fun x hlo hhi => (seen_block hlo hhi).trans hseen
        obtain ⟨u, hneeds, hread⟩ := ih h
        refine ⟨blockLen nand offset + u, hneeds.skip hpos hnone, ?_⟩
        rw [places_append, places_none hnone, nil_append]
        exact hread
      | true =>
        obtain ⟨n, hn⟩ : ∃ n, n = if left < blockLen nand offset then left else blockLen nand offset :=
          ⟨_, rfl⟩
        have hle : n ≤ left ∧ n ≤ blockLen nand offset := by
          rw [hn]
          split
          · exact ⟨Nat.le_refl _, by lia⟩
          · exact ⟨by lia, Nat.le_refl _⟩
        have hall : ∀ x, offset ≤ x → x < offset + n → seen nand x = true :=
          fun x hlo hhi => (seen_block hlo (by lia)).trans hseen
        have hin : offset + n ≤ nand.size := by
          by_contra hout
          have hskip : nandBlockIsbad nand (maskedBlock nand offset) = false := by
            rw [seen_loop, hseen]
            rfl
          have hlen : nand.erasesize - offset % nand.erasesize = blockLen nand offset := rfl
          have hno := nandRead_outside (Nat.not_le.mp hout) flash
          unfold readLoop at h
          simp [hskip, hlen, ← hn, hno, Nat.ne_of_gt hpos, einval, euclean] at h
        obtain ⟨flash₁, hfirst, hrun⟩ := readLoop_chunk turns flash (Nat.ne_of_gt hpos) hseen hn hin
        rw [hrun] at h
        cases hrest : readLoop nand turns flash₁ (offset + n) (left - n) with
        | none => simp [hrest] at h
        | some s =>
          obtain ⟨rval, left₁, rest, flash₂⟩ := s
          simp only [hrest, map_some, some.injEq, Prod.mk.injEq] at h
          obtain ⟨rfl, rfl, -, rfl⟩ := h
          obtain ⟨u, hneeds, hread⟩ := ih hrest
          refine ⟨n + u, hneeds.take hle.1 hall, ?_⟩
          rw [places_append, places_all hall]
          exact hfirst.append hread

theorem nandReadSkipBad_places (hofs : offset % nand.writesize = 0)
    (h : nandReadSkipBad nand turns flash offset length lim = some r) (hok : r.rval = 0) :
    ∃ ret, checkSkipLen nand turns offset length = some (ret, r.actual) ∧ 0 ≤ ret ∧
      (ret = 0 ∧ DidRead (List.range' offset length) flash r.flash ∨
        ∃ u, Needs (seen nand) offset length u ∧
          DidRead (places (seen nand) offset u) flash r.flash) := by
  unfold nandReadSkipBad at h
  rw [if_neg (by simp [hofs])] at h
  cases hcheck : checkSkipLen nand turns offset length with
  | none => simp [hcheck] at h
  | some check =>
    obtain ⟨ret, used⟩ := check
    simp only [hcheck] at h
    split at h
    · obtain rfl := some.inj h
      simp [einval] at hok
    · rename_i hret
      split at h
      · obtain rfl := some.inj h
        simp [efbig] at hok
      · split at h
        · rename_i hzero
          rcases Nat.lt_or_ge nand.size (offset + length) with hout | hin
          · rw [nandRead_outside hout] at h
            simp [einval, euclean] at h
            obtain rfl := h
            simp at hok
          · obtain ⟨rval, flash', hrun, hrval, hread⟩ := nandRead_read flash hin
            simp only [hrun, hrval, if_true, some.injEq] at h
            obtain rfl := h
            exact ⟨ret, rfl, by lia, .inl ⟨hzero, hread⟩⟩
        · cases hloop : readLoop nand turns flash offset length with
          | none => simp [hloop] at h
          | some s =>
            obtain ⟨rval, left, data, flash'⟩ := s
            simp only [hloop, some.injEq] at h
            obtain rfl := h
            obtain rfl : rval = 0 := hok
            exact ⟨ret, rfl, by lia, .inr (readLoop_places hloop)⟩

end Reads

section Needed

variable {nand : NandInfo} {cell : ℕ → UInt8} {offset length u : ℕ} {lim : ℤ} {buf : Buffer}

theorem nodup_places (q : ℕ → Bool) (a n : ℕ) : (places q a n).Nodup := List.Nodup.filter _ nodup_range'

theorem enough_of_subset {l : List ℕ} {v : ℕ} (hnodup : l.Nodup) (hlen : l.length = length)
    (hsub : l ⊆ places (good nand) offset v) : length ≤ (places (good nand) offset v).length := by
  rw [← hlen]
  exact (subperm_of_subset hnodup hsub).length_le

theorem seen_eq_good {u' : ℕ} (hneeds : Needs (good nand) offset length u)
    (hneeds' : Needs (seen nand) offset length u')
    (hsub : places (seen nand) offset u' ⊆ places (good nand) offset u) (x : ℕ) (hlo : offset ≤ x)
    (hhi : x < offset + u) : seen nand x = good nand x := by
  have hperm : (places (seen nand) offset u').Perm (places (good nand) offset u) :=
    (subperm_of_subset (nodup_places _ _ _) hsub).perm_of_length_le
      (Nat.le_of_eq (hneeds.length.trans hneeds'.length.symm))
  cases hgood : good nand x with
  | true => exact (mem_places.mp (hperm.mem_iff.mpr (mem_places.mpr ⟨⟨hlo, hhi⟩, hgood⟩))).2
  | false =>
    by_contra hne
    have hseen : seen nand x = true := by simpa using hne
    rcases Nat.lt_or_ge x (offset + u') with hlt | hge
    · have hmem := hsub (mem_places.mpr ⟨⟨hlo, hlt⟩, hseen⟩)
      rw [(mem_places.mp hmem).2] at hgood
      cases hgood
    · have hfront : places (seen nand) offset u' ⊆ places (good nand) offset (x - offset) := by
        intro y hy
        obtain ⟨⟨hy₁, hy₂⟩, hy₃⟩ := mem_places.mp (hsub hy)
        have hy' := (mem_places.mp hy).1
        exact mem_places.mpr ⟨⟨hy₁, by lia⟩, hy₃⟩
      have hle := hneeds.le_of_enough (enough_of_subset (nodup_places _ _ _) hneeds'.length hfront)
      lia

theorem judged_of_roundTrips (hlen : length < 2 ^ 32) (hofs : offset % nand.writesize = 0)
    (h : RoundTrips nand cell offset length lim buf false) {turns : ℕ} {w : Result}
    (hwrite : nandWriteSkipBad nand turns ⟨cell, []⟩ offset length lim buf false = some w)
    (hok : w.rval = 0) : Judged nand offset length lim false := by
  obtain ⟨n, hback⟩ := h.back turns w hwrite hok
  obtain ⟨r, hrun, hrval, -, -, -, htouch⟩ := hback n (Nat.le_refl n)
  obtain ⟨ret, hcheck, hret, hreads⟩ := nandReadSkipBad_places hofs hrun hrval
  have hactual : r.actual < 2 ^ 32 := checkLoop_lt (by norm_num) hcheck
  -- what was read is good and in the range
  have hin : ∀ {l}, DidRead l w.flash r.flash → l ⊆ places (good nand) offset r.actual := by
    intro l hread x hx
    obtain ⟨t, ht, hmem⟩ := hread.touched
    refine mem_places.mpr (htouch x (.inl ?_))
    rw [ht]
    exact (touches_append _ _ _).mpr (.inr ((hmem x).mpr hx))
  have henough : length ≤ (places (good nand) offset r.actual).length := by
    rcases hreads with ⟨-, hread⟩ | ⟨u', hneeds', hread⟩
    · exact enough_of_subset nodup_range' (length_range' ..) (hin hread)
    · exact enough_of_subset (nodup_places _ _ _) hneeds'.length (hin hread)
  have hspace : ∀ u, Needs (good nand) offset length u → offset + u ≤ nand.size →
      u < 2 ^ 32 ∧ length + overshoot nand (offset + u) < 2 ^ 32 := by
    intro u hneeds hdev
    refine ⟨Nat.lt_of_le_of_lt (hneeds.le_of_enough henough) hactual, ?_⟩
    have hover : overshoot nand (offset + u) < 2 ^ 32 :=
      Nat.lt_trans (mod_lt _ (erasesize_pos nand)) erasesize_lt
    rcases Nat.eq_zero_or_pos length with rfl | hpos
    · lia
    · by_contra hwrap
      have hneg := checkLoop_over hneeds (Nat.zero_add _) hlen hdev hpos (Nat.not_lt.mp hwrap) hcheck
      lia
  refine ⟨hspace, fun u hneeds hdev _ hslow => ?_, fun _ _ htrim => by cases htrim⟩
  obtain ⟨ret', hcheck', hret'⟩ := checkSkipLen_fits hneeds hdev (hspace u hneeds hdev)
  have hsame := checkSkipLen_det hcheck hcheck'
  obtain ⟨x, hlo, hhi, hbad⟩ := hslow.resolve_left (by simp)
  rcases hret' with ⟨hone, -⟩ | ⟨-, hall⟩
  · simp only [Prod.mk.injEq] at hsame
    rcases hreads with ⟨hzero, -⟩ | ⟨u', hneeds', hread⟩
    · lia
    · have hsub := hin hread
      rw [hsame.2] at hsub
      exact seen_eq_good hneeds hneeds' hsub
  · rw [hall x hlo hhi] at hbad
    cases hbad

end Needed

/- With the condition the round trip works. Without it, and without trimming, it does not where the
write returns 0. -/
theorem skip_bad_round_trip (nand : NandInfo) (cell : ℕ → UInt8) (offset length : ℕ) (lim : ℤ)
    (buf : Buffer) (hlen : length < 2 ^ 32) (hofs : offset % nand.writesize = 0)
    (herased : ∀ x, offset ≤ x → x < nand.size → cell x = 0xff) :
    (∀ trim, Judged nand offset length lim trim → RoundTrips nand cell offset length lim buf trim) ∧
      ∀ turns w, nandWriteSkipBad nand turns ⟨cell, []⟩ offset length lim buf false = some w →
        w.rval = 0 →
        (RoundTrips nand cell offset length lim buf false ↔ Judged nand offset length lim false) := by
  refine ⟨fun trim hjudged => roundTrips_of_judged hjudged hlen hofs herased, ?_⟩
  intro turns w hwrite hok
  exact ⟨fun h => judged_of_roundTrips hlen hofs h hwrite hok,
    fun hjudged => roundTrips_of_judged hjudged hlen hofs herased⟩

section Example

def eightGiB : NandInfo where
  subpageShift := 9
  pageShift := 11
  eraseShift := 17
  blocks := 2 ^ 16
  bad b := b = 2 ^ 15
  writeProtect := false
  broken _ := false
  worn _ := false
  subpage_le := by norm_num
  page_le := by norm_num
  erase_lt := by norm_num

theorem judged_below {nand : NandInfo} {offset length : ℕ} (lim : ℤ) (trim : Bool)
    (hsize : nand.size < 2 ^ 32) (hlen : length + nand.erasesize ≤ 2 ^ 32) (hofs : offset ≤ nand.size) :
    Judged nand offset length lim trim := by
  refine ⟨fun u _ hin => ⟨by lia, ?_⟩, fun u _ hin _ _ x _ hhi => ?_, fun _ _ _ => hofs⟩
  · have hover : overshoot nand (offset + u) < nand.erasesize := mod_lt _ (erasesize_pos nand)
    lia
  · have hx : x < nand.size := by lia
    rw [seen, maskedBlock, mod_eq_of_lt (by lia), isbad_start hx, Bool.not_not]

/- 512-byte pages and 16 KiB blocks, the second one bad. -/
def oneMiB : NandInfo where
  subpageShift := 9
  pageShift := 9
  eraseShift := 14
  blocks := 2 ^ 6
  bad b := b = 1
  writeProtect := false
  broken _ := false
  worn _ := false
  subpage_le := by norm_num
  page_le := by norm_num
  erase_lt := by norm_num

/- The transfer goes over the bad block, and its last bytes are trimmed. -/
theorem skip_bad_round_trip_over :
    RoundTrips oneMiB (fun _ => 0xff) 0x3e00 0x1000 0x5000 (fun i => if i < 0xa00 then 0xaa else 0xff)
      true :=
  (skip_bad_round_trip oneMiB (fun _ => 0xff) 0x3e00 0x1000 0x5000 _ (by norm_num) (by decide)
    fun _ _ _ => rfl).1 true (judged_below _ _ (by decide) (by decide) (by decide))

/- Four bytes at 4 GiB go to the bad block. -/
theorem skip_bad_hits_bad :
    ¬ RoundTrips eightGiB (fun _ => 0xff) (2 ^ 32) 4 (2 ^ 20) (fun _ => 0xaa) false := by
  intro h
  have hrun : (nandWriteSkipBad eightGiB 5 ⟨fun _ => 0xff, []⟩ (2 ^ 32) 4 (2 ^ 20) (fun _ => 0xaa)
      false).map (fun w => (w.rval, w.flash.cell (2 ^ 32))) = some (0, 0xaa) := by decide +kernel
  obtain ⟨w, hwrite, hw⟩ := map_eq_some_iff.mp hrun
  simp only [Prod.mk.injEq] at hw
  obtain ⟨n, hback⟩ := h.back 5 w hwrite hw.1
  obtain ⟨r, -, -, -, -, -, hin⟩ := hback n (Nat.le_refl n)
  have hgood := (hin (2 ^ 32) (.inr (by rw [hw.2]; decide))).2
  exact absurd hgood (by decide +kernel)

end Example

end UBoot.Nand
