import UBoot.Nand.Blocks

/-!
# The transfer loops

Both loops go over the addresses that they take for good, as many as are asked for.
-/

namespace UBoot.Nand

open Places List

variable {nand : NandInfo} {offset p left left' u k n turns : ℕ} {buf : Buffer} {trim : Bool}
  {flash flash' : Flash}

theorem seen_loop (offset : ℕ) : nandBlockIsbad nand (maskedBlock nand offset) = !seen nand offset := (Bool.not_not _).symm

variable (turns flash) in
theorem readLoop_chunk (hpos : left ≠ 0) (hseen : seen nand offset = true)
    (hn : n = if left < blockLen nand offset then left else blockLen nand offset)
    (hin : offset + n ≤ nand.size) :
    ∃ flash₁, DidRead (List.range' offset n) flash flash₁ ∧
      readLoop nand (turns + 1) flash offset left
        = (readLoop nand turns flash₁ (offset + n) (left - n)).map fun r =>
            (r.1, r.2.1, slice flash.cell offset n ++ r.2.2.1, r.2.2.2) := by
  obtain ⟨rval, flash₁, hrun, hrval, hread⟩ := nandRead_read flash hin
  refine ⟨flash₁, hread, ?_⟩
  conv_lhs => unfold readLoop
  have hskip : nandBlockIsbad nand (maskedBlock nand offset) = false := by rw [seen_loop, hseen]; rfl
  have hok : ¬ (rval ≠ 0 ∧ rval ≠ -euclean) := by
    rintro ⟨h0, hflips⟩
    exact hrval.elim h0 hflips
  have hlen : nand.erasesize - offset % nand.erasesize = blockLen nand offset := rfl
  simp only [hskip, hlen, ← hn, hrun, hpos, hok, if_false, Bool.false_eq_true]
  cases readLoop nand turns flash₁ (offset + n) (left - n) with
  | none => rfl
  | some r => rfl

theorem readLoop_skip (hpos : left ≠ 0) (hseen : seen nand offset = false) :
    readLoop nand (turns + 1) flash offset left
      = readLoop nand turns flash (offset + blockLen nand offset) left := by
  have hskip : nandBlockIsbad nand (maskedBlock nand offset) = true := by rw [seen_loop, hseen]; rfl
  conv_lhs => unfold readLoop
  simp only [hskip, hpos, if_true, if_false]
  rfl

theorem readLoop_zero : readLoop nand (turns + 1) flash offset 0 = some (0, 0, [], flash) := by
  unfold readLoop
  rfl

variable (flash) in
theorem readLoop_run (hneeds : Needs (seen nand) offset left u) (hin : offset + u ≤ nand.size)
    (hk : offset + u ≤ (offset / nand.erasesize + k) * nand.erasesize) (hturns : k < turns) :
    ∃ flash', readLoop nand turns flash offset left
        = some (0, 0, (places (seen nand) offset u).map flash.cell, flash') ∧
      DidRead (places (seen nand) offset u) flash flash' := by
  induction k generalizing turns offset left u flash with
  | zero =>
    obtain _ | turns := turns
    · lia
    have hu : u = 0 := by
      by_contra hne
      exact absurd (blocks_pos hk (Nat.pos_of_ne_zero hne)) (Nat.lt_irrefl 0)
    have hleft : left = 0 := Nat.le_zero.mp (hu ▸ hneeds.le)
    rw [hleft, hu, readLoop_zero]
    exact ⟨flash, rfl, DidRead.nil flash⟩
  | succ k ih =>
    obtain _ | turns := turns
    · lia
    rcases Nat.eq_zero_or_pos left with rfl | hpos
    · obtain rfl := Needs.zero_iff.mp hneeds
      rw [readLoop_zero]
      exact ⟨flash, rfl, DidRead.nil flash⟩
    · have hsplit : ∀ {n}, n ≤ u → places (seen nand) offset u
          = places (seen nand) offset n ++ places (seen nand) (offset + n) (u - n) := by
        intro n hn
        rw [← places_append, Nat.add_sub_cancel' hn]
      cases hseen : seen nand offset with
      | false =>
        have hnone : ∀ x, offset ≤ x → x < offset + blockLen nand offset → seen nand x = false :=
          fun x hlo hhi => (seen_block hlo hhi).trans hseen
        obtain ⟨hle, hrest⟩ := needs_bad hnone hneeds hpos
        rw [readLoop_skip (by lia) hseen, hsplit hle, places_none hnone]
        exact ih flash hrest (by lia) (blocks_next hk hle) (by lia)
      | true =>
        have hall : ∀ x, offset ≤ x → x < offset + blockLen nand offset → seen nand x = true :=
          fun x hlo hhi => (seen_block hlo hhi).trans hseen
        rcases Nat.lt_or_ge left (blockLen nand offset) with hlast | hfull
        · obtain rfl := needs_last hall hneeds (Nat.le_of_lt hlast)
          obtain _ | turns := turns
          · lia
          have hplaces : places (seen nand) offset u = List.range' offset u :=
            places_all fun x hlo hhi => hall x hlo (by lia)
          obtain ⟨flash₁, hread, hrun⟩ := readLoop_chunk (turns + 1) flash
            (Nat.ne_of_gt hpos) hseen (if_pos hlast).symm hin
          rw [hrun, Nat.sub_self, readLoop_zero, hplaces]
          exact ⟨flash₁, by simp [slice], hread⟩
        · obtain ⟨hle, hrest⟩ := needs_good hall hneeds hfull
          obtain ⟨flash₁, hread, hrun⟩ := readLoop_chunk turns flash (Nat.ne_of_gt hpos)
            hseen (if_neg (Nat.not_lt.mpr hfull)).symm (show offset + blockLen nand offset ≤ nand.size by lia)
          obtain ⟨flash', hrec, hread'⟩ :=
            ih flash₁ hrest (by lia) (blocks_next hk hle)
              (show k < turns by lia)
          rw [hrun, hrec, hsplit hle, places_all hall, map_append, hread.cell]
          exact ⟨flash', rfl, hread.append hread'⟩

/- What was written at erased addresses, the first one first; nothing else changed or was touched. -/
structure Stored (l : List ℕ) (data : List UInt8) (flash flash' : Flash) : Prop where
  data : l.map flash'.cell = data
  keep : ∀ x, x ∉ l → flash'.cell x = flash.cell x
  touched : ∃ t, flash'.touched = flash.touched ++ t ∧ ∀ x, Touches t x → x ∈ l

theorem Stored.nil (flash : Flash) : Stored [] [] flash flash :=
  ⟨rfl, fun _ _ => rfl, [], (append_nil _).symm, fun x hx => absurd hx (touches_nil x)⟩

theorem Stored.append {l₁ l₂ : List ℕ} {data₁ data₂ : List UInt8} {flash₁ flash₂ : Flash}
    (h₁ : Stored l₁ data₁ flash flash₁) (h₂ : Stored l₂ data₂ flash₁ flash₂)
    (hdisj : ∀ x, x ∈ l₁ → x ∉ l₂) : Stored (l₁ ++ l₂) (data₁ ++ data₂) flash flash₂ := by
  refine ⟨?_, fun x hx => ?_, ?_⟩
  · have hsame : l₁.map flash₂.cell = l₁.map flash₁.cell :=
      map_congr_left fun x hx => h₂.keep x (hdisj x hx)
    rw [map_append, hsame, h₁.data, h₂.data]
  · obtain ⟨hx₁, hx₂⟩ := not_or.mp (mt mem_append.mpr hx)
    rw [h₂.keep x hx₂, h₁.keep x hx₁]
  · obtain ⟨t₁, ht₁, hin₁⟩ := h₁.touched
    obtain ⟨t₂, ht₂, hin₂⟩ := h₂.touched
    refine ⟨t₁ ++ t₂, by rw [ht₂, ht₁, append_assoc], fun x hx => ?_⟩
    rcases (touches_append t₁ t₂ x).mp hx with hx | hx
    · exact mem_append_left _ (hin₁ x hx)
    · exact mem_append_right _ (hin₂ x hx)

theorem lastUsed_ff {i : ℕ} (hlo : lastUsed buf p n ≤ i) (hhi : i < n) : buf (p + i) = 0xff := by
  induction n with
  | zero => lia
  | succ n ih =>
    unfold lastUsed at hlo
    split at hlo
    · lia
    · rename_i hff
      rcases Nat.lt_or_ge i n with hlt | hge
      · exact ih hlo hlt
      · obtain rfl : i = n := by lia
        exact not_not.mp hff

theorem dropFfs_ff {i : ℕ} (hlo : dropFfs nand buf p n ≤ i) (hhi : i < n) : buf (p + i) = 0xff := by
  refine lastUsed_ff ?_ hhi
  have hws := writesize_pos nand
  have hround : lastUsed buf p n
      ≤ (lastUsed buf p n + nand.writesize - 1) / nand.writesize * nand.writesize := by
    have hmod := Nat.div_add_mod (lastUsed buf p n + nand.writesize - 1) nand.writesize
    have hlt := Nat.mod_lt (lastUsed buf p n + nand.writesize - 1) hws
    rw [Nat.mul_comm] at hmod
    lia
  unfold dropFfs at hlo
  lia

theorem slice_shift (a : ℕ) : slice buf p n = (List.range' a n).map fun x => buf (p + (x - a)) := by
  refine ext_getElem (by simp) fun i h₁ h₂ => ?_
  simp [slice]

theorem nandWrite_stored {m retlen : ℕ} (hofs : offset % nand.writesize = 0) (hlt : n < 2 ^ 32)
    (hm : m = if trim then dropFfs nand buf p n else n)
    (h : nandWrite nand turns flash buf offset m p = some (0, retlen, flash'))
    (herased : ∀ x, offset ≤ x → x < offset + n → flash.cell x = 0xff) :
    Stored (List.range' offset n) (slice buf p n) flash flash' := by
  have hle : m ≤ n := by
    rw [hm]
    split
    · exact Nat.min_le_right _ _
    · exact Nat.le_refl n
  have hff : ∀ i, m ≤ i → i < n → buf (p + i) = 0xff := by
    intro i hlo hhi
    rw [hm] at hlo
    split at hlo
    · exact dropFfs_ff hlo hhi
    · lia
  obtain ⟨-, hwrote⟩ := nandWrite_wrote hofs (Nat.lt_of_le_of_lt hle hlt) h
  refine ⟨?_, fun x hx => ?_, ?_⟩
  · rw [slice_shift offset]
    refine map_congr_left fun x hx => ?_
    obtain ⟨hlo, hhi⟩ := mem_range'_1.mp hx
    rw [hwrote.cell x, herased x hlo hhi]
    by_cases hin : x < offset + m
    · rw [if_pos ⟨hlo, hin⟩, UInt8.and_comm, and_ones]
    · rw [if_neg (by lia), hff _ (by lia) (by lia)]
  · rw [hwrote.cell x, if_neg]
    rw [mem_range'_1] at hx
    lia
  · obtain ⟨t, ht, hin⟩ := hwrote.touched
    refine ⟨t, ht, fun x hx => ?_⟩
    have hxin := (hin x).mp hx
    exact mem_range'_1.mpr (by lia)

theorem writeLoop_turn (h : writeLoop nand buf trim (turns + 1) flash offset p left
      = some (0, left', flash')) (hpos : left ≠ 0) :
    seen nand offset = false ∧ writeLoop nand buf trim turns flash (offset + blockLen nand offset) p left
        = some (0, left', flash') ∨
      seen nand offset = true ∧ ∃ n m retlen flash₁,
        n = (if left < blockLen nand offset then left else blockLen nand offset) ∧
        m = (if trim then dropFfs nand buf p n else n) ∧
        nandWrite nand turns flash buf offset m p = some (0, retlen, flash₁) ∧
        writeLoop nand buf trim turns flash₁ (offset + n) (p + n) (left - n) = some (0, left', flash') := by
  unfold writeLoop at h
  rw [if_neg hpos, seen_loop] at h
  cases hseen : seen nand offset with
  | false =>
    rw [hseen] at h
    exact .inl ⟨rfl, h⟩
  | true =>
    rw [hseen] at h
    obtain ⟨n, hn⟩ : ∃ n, n = if left < blockLen nand offset then left else blockLen nand offset :=
      ⟨_, rfl⟩
    have hlen : nand.erasesize - offset % nand.erasesize = blockLen nand offset := rfl
    simp only [hlen, ← hn, Bool.not_true, Bool.false_eq_true, if_false] at h
    cases hrun : nandWrite nand turns flash buf offset (if trim then dropFfs nand buf p n else n) p with
    | none => simp [hrun] at h
    | some r =>
      obtain ⟨rval, retlen, flash₁⟩ := r
      simp only [hrun] at h
      split at h
      · rename_i hne
        simp only [Option.some.injEq, Prod.mk.injEq] at h
        exact absurd h.1 hne
      · rename_i hzero
        obtain rfl := not_not.mp hzero
        exact .inr ⟨rfl, n, _, retlen, flash₁, hn, rfl, hrun, h⟩

theorem writeLoop_stored (hofs : left = 0 ∨ offset % nand.writesize = 0) (hlt : left < 2 ^ 32)
    (h : writeLoop nand buf trim turns flash offset p left = some (0, left', flash')) :
    left' = 0 ∧ ∃ u, Needs (seen nand) offset left u ∧
      ((∀ x, x ∈ places (seen nand) offset u → flash.cell x = 0xff) →
        Stored (places (seen nand) offset u) (slice buf p left) flash flash') := by
  induction turns generalizing flash offset p left with
  | zero => cases h
  | succ turns ih =>
    rcases Nat.eq_zero_or_pos left with rfl | hpos
    · unfold writeLoop at h
      simp only [if_true, Option.some.injEq, Prod.mk.injEq, true_and] at h
      obtain ⟨rfl, rfl⟩ := h
      exact ⟨rfl, 0, Needs.zero_iff.mpr rfl, fun _ => Stored.nil flash⟩
    · have halign : offset % nand.writesize = 0 := hofs.resolve_left (Nat.ne_of_gt hpos)
      rcases writeLoop_turn h (Nat.ne_of_gt hpos) with
        ⟨hseen, hrec⟩ | ⟨hseen, n, m, retlen, flash₁, hn, hm, hwrite, hrec⟩
      · have hnone : ∀ x, offset ≤ x → x < offset + blockLen nand offset → seen nand x = false :=
          fun x hlo hhi => (seen_block hlo hhi).trans hseen
        obtain ⟨hleft, u, hneeds, hstored⟩ := ih (.inr next_aligned) hlt hrec
        refine ⟨hleft, blockLen nand offset + u, hneeds.skip hpos hnone, ?_⟩
        rw [places_append, places_none hnone, nil_append]
        exact hstored
      · have hnle : n ≤ left ∧ n ≤ blockLen nand offset ∧
            (left - n = 0 ∨ (offset + n) % nand.writesize = 0) := by
          rw [hn]
          split
          · exact ⟨Nat.le_refl _, by lia, .inl (Nat.sub_self _)⟩
          · exact ⟨by lia, Nat.le_refl _, .inr next_aligned⟩
        have hall : ∀ x, offset ≤ x → x < offset + n → seen nand x = true :=
          fun x hlo hhi => (seen_block hlo (by lia)).trans hseen
        obtain ⟨hleft, u, hneeds, hstored⟩ := ih hnle.2.2 (by lia) hrec
        refine ⟨hleft, n + u, hneeds.take hnle.1 hall, ?_⟩
        rw [places_append, places_all hall]
        intro herased
        have hfirst := nandWrite_stored halign (by lia) hm hwrite fun x hlo hhi =>
          herased x (mem_append_left _ (mem_range'_1.mpr ⟨hlo, hhi⟩))
        have hdisj : ∀ x, x ∈ List.range' offset n → x ∉ places (seen nand) (offset + n) u := by
          intro x hx hx'
          have hlo := (mem_range'_1.mp hx).2
          have hge := (mem_places.mp hx').1.1
          lia
        have hrest := hstored fun x hx => by
          rw [hfirst.keep x fun hx' => hdisj x hx' hx]
          exact herased x (mem_append_right _ hx)
        have hdata := slice_append buf p n (left - n)
        rw [Nat.add_sub_cancel' hnle.1] at hdata
        rw [hdata]
        exact hfirst.append hrest hdisj

end UBoot.Nand
