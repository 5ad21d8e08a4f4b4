import UBoot.Lib.Places
import UBoot.Nand.Pages

/-!
# Walking the blocks

The space check counts the bytes in good blocks; the transfer loops ask for the block whose low
32 address bits are those of the block they are in.
-/

namespace UBoot.Nand

open Places Nat

section Geometry

variable (nand : NandInfo)

def good (x : ℕ) : Bool := !nand.bad (x / nand.erasesize)

def seen (x : ℕ) : Bool := !nandBlockIsbad nand (maskedBlock nand x)

def blockLen (offset : ℕ) : ℕ := nand.erasesize - offset % nand.erasesize

variable {nand} {offset x : ℕ}

theorem blockLen_pos : 0 < blockLen nand offset := Nat.sub_pos_of_lt (mod_lt _ (erasesize_pos nand))

theorem blockLen_le : blockLen nand offset ≤ nand.erasesize := sub_le _ _

theorem erasesize_lt : nand.erasesize < 2 ^ 32 := Nat.pow_lt_pow_right (by norm_num) nand.erase_lt

theorem add_blockLen : offset + blockLen nand offset = (offset / nand.erasesize + 1) * nand.erasesize := by
  have hmod := div_add_mod offset nand.erasesize
  have hlt := mod_lt offset (erasesize_pos nand)
  rw [Nat.add_mul, Nat.one_mul, Nat.mul_comm, blockLen]
  lia

theorem same_block (hlo : offset ≤ x) (hhi : x < offset + blockLen nand offset) :
    x / nand.erasesize = offset / nand.erasesize := by
  rw [add_blockLen] at hhi
  exact Nat.le_antisymm (Nat.lt_succ_iff.mp (Nat.div_lt_of_lt_mul (by rwa [Nat.mul_comm])))
    (Nat.div_le_div_right hlo)

theorem next_block : (offset + blockLen nand offset) / nand.erasesize = offset / nand.erasesize + 1 := by
  rw [add_blockLen, Nat.mul_div_cancel _ (erasesize_pos nand)]

theorem next_aligned : (offset + blockLen nand offset) % nand.writesize = 0 := by
  rw [add_blockLen]
  exact mod_eq_zero_of_dvd ((writesize_dvd nand).trans (Nat.dvd_mul_left _ _))

theorem block_in (h : offset < nand.size) : offset + blockLen nand offset ≤ nand.size := by
  rw [add_blockLen]
  exact Nat.mul_le_mul_right _ (Nat.div_lt_of_lt_mul (by rwa [Nat.mul_comm]))

theorem good_block (hlo : offset ≤ x) (hhi : x < offset + blockLen nand offset) :
    good nand x = good nand offset := by
  unfold good
  rw [same_block hlo hhi]

theorem masked_div (x : ℕ) : x % 2 ^ 32 / nand.erasesize
    = x / nand.erasesize % (2 ^ 32 / nand.erasesize) := by
  obtain ⟨c, hc⟩ := erasesize_dvd nand
  rw [hc, Nat.mul_div_cancel_left c (erasesize_pos nand), mod_mul_right_div_self]

theorem seen_block (hlo : offset ≤ x) (hhi : x < offset + blockLen nand offset) :
    seen nand x = seen nand offset := by
  unfold seen maskedBlock
  rw [masked_div, masked_div, same_block hlo hhi]

theorem isbad_start (h : offset < nand.size) :
    nandBlockIsbad nand (offset / nand.erasesize * nand.erasesize) = !good nand offset := by
  have hle : offset / nand.erasesize * nand.erasesize ≤ offset := div_mul_le_self _ _
  rw [nandBlockIsbad, if_neg (by lia), Nat.mul_div_cancel _ (erasesize_pos nand), good, Bool.not_not]

theorem blocks_next {u k : ℕ} (hk : offset + u ≤ (offset / nand.erasesize + (k + 1)) * nand.erasesize)
    (hu : blockLen nand offset ≤ u) :
    offset + blockLen nand offset + (u - blockLen nand offset)
      ≤ ((offset + blockLen nand offset) / nand.erasesize + k) * nand.erasesize := by
  have hcount : offset / nand.erasesize + 1 + k = offset / nand.erasesize + (k + 1) := by lia
  rw [next_block, hcount, Nat.add_assoc, Nat.add_sub_cancel' hu]
  exact hk

theorem blocks_pos {u k : ℕ} (hk : offset + u ≤ (offset / nand.erasesize + k) * nand.erasesize)
    (hu : 0 < u) : 0 < k := by
  by_contra hzero
  have hle : offset / nand.erasesize * nand.erasesize ≤ offset := div_mul_le_self _ _
  rw [le_zero.mp (Nat.not_lt.mp hzero), Nat.add_zero] at hk
  lia

end Geometry

section Needs

variable {nand : NandInfo} {q : ℕ → Bool} {offset left u : ℕ}

theorem needs_bad (hq : ∀ x, offset ≤ x → x < offset + blockLen nand offset → q x = false)
    (h : Needs q offset left u) (hleft : 0 < left) :
    blockLen nand offset ≤ u ∧
      Needs q (offset + blockLen nand offset) left (u - blockLen nand offset) := by
  have hnone := places_none hq
  have hlt := h.lt_of_short (n := blockLen nand offset) (by rw [hnone]; exact hleft)
  have hdrop := h.drop (Nat.le_of_lt hlt)
  rw [hnone, List.length_nil, Nat.sub_zero] at hdrop
  exact ⟨Nat.le_of_lt hlt, hdrop⟩

theorem needs_good (hq : ∀ x, offset ≤ x → x < offset + blockLen nand offset → q x = true)
    (h : Needs q offset left u) (hleft : blockLen nand offset ≤ left) :
    blockLen nand offset ≤ u ∧
      Needs q (offset + blockLen nand offset) (left - blockLen nand offset)
        (u - blockLen nand offset) := by
  have hle : blockLen nand offset ≤ u := Nat.le_trans hleft h.le
  have hdrop := h.drop hle
  rw [places_all hq, List.length_range'] at hdrop
  exact ⟨hle, hdrop⟩

theorem needs_last (hq : ∀ x, offset ≤ x → x < offset + blockLen nand offset → q x = true)
    (h : Needs q offset left u) (hleft : left ≤ blockLen nand offset) : u = left :=
  h.unique (Needs.all fun x hlo hhi => hq x hlo (by lia))

end Needs

section Check

variable {nand : NandInfo} {length offset lenExclBad used left u k turns : ℕ} {ret : ℤ}

def overshoot (nand : NandInfo) (a : ℕ) : ℕ := (nand.erasesize - a % nand.erasesize) % nand.erasesize

theorem overshoot_last (hu : 0 < u) (hle : u ≤ blockLen nand offset) :
    overshoot nand (offset + u) = blockLen nand offset - u := by
  rcases Nat.lt_or_ge u (blockLen nand offset) with hlt | hge
  · have hmod : (offset + u) % nand.erasesize = offset % nand.erasesize + u := by
      rw [add_mod, mod_eq_of_lt (show u < nand.erasesize from
        Nat.lt_of_lt_of_le hlt blockLen_le), mod_eq_of_lt]
      unfold blockLen at hlt
      lia
    have hsub : nand.erasesize - (offset % nand.erasesize + u) = blockLen nand offset - u :=
      (Nat.sub_sub _ _ _).symm
    rw [overshoot, hmod, hsub, mod_eq_of_lt]
    exact Nat.lt_of_lt_of_le (Nat.sub_lt blockLen_pos hu) blockLen_le
  · obtain rfl : u = blockLen nand offset := Nat.le_antisymm hle hge
    rw [overshoot, add_blockLen, mul_mod_left, Nat.sub_zero, mod_self, Nat.sub_self]

theorem checkLoop_mono {more : ℕ} (hle : turns ≤ more) {r : ℤ × ℕ}
    (h : checkLoop nand length turns offset lenExclBad used ret = some r) :
    checkLoop nand length more offset lenExclBad used ret = some r := by
  induction turns generalizing more offset lenExclBad used ret with
  | zero => cases h
  | succ turns ih =>
    obtain _ | more := more
    · lia
    unfold checkLoop at h ⊢
    split
    · rwa [if_pos ‹_›] at h
    · rw [if_neg ‹_›] at h
      split
      · rwa [if_pos ‹_›] at h
      · rw [if_neg ‹_›] at h
        dsimp only at h ⊢
        split
        · rw [if_pos ‹_›] at h
          exact ih (by lia) h
        · rw [if_neg ‹_›] at h
          exact ih (by lia) h

theorem checkLoop_turn (hlen : lenExclBad < length) (hin : offset < nand.size) :
    checkLoop nand length (turns + 1) offset lenExclBad used ret
      = if good nand offset then
          checkLoop nand length turns (offset + blockLen nand offset)
            ((lenExclBad + blockLen nand offset) % 2 ^ 32) ((used + blockLen nand offset) % 2 ^ 32) ret
        else
          checkLoop nand length turns (offset + blockLen nand offset) lenExclBad
            ((used + blockLen nand offset) % 2 ^ 32) 1 := by
  conv_lhs => unfold checkLoop
  rw [if_neg (by lia), if_neg (by lia)]
  dsimp only
  rw [isbad_start hin]
  cases hgood : good nand offset with
  | true => rfl
  | false => rfl

theorem checkLoop_done {extra : ℕ} (hextra : lenExclBad = length + extra)
    (hlt : length + extra < 2 ^ 32) :
    checkLoop nand length (turns + 1) offset lenExclBad ((used + extra) % 2 ^ 32) ret
      = some (ret, used % 2 ^ 32) := by
  unfold checkLoop
  rw [if_pos (by lia)]
  split
  · have hsub : lenExclBad - length = extra := by lia
    have hsum : used + extra + (2 ^ 32 - extra) = used + 2 ^ 32 := by lia
    rw [hsub, mod_add_mod, hsum, add_mod_right]
  · have hzero : extra = 0 := by lia
    rw [hzero, Nat.add_zero]

theorem checkLoop_empty (hlen : lenExclBad = length) (hused : used < 2 ^ 32) (hturns : 0 < turns) :
    ∃ ret', checkLoop nand length turns offset lenExclBad used ret = some (ret', (used + 0) % 2 ^ 32) ∧
      (ret' = 1 ∧ (∃ x, offset ≤ x ∧ x < offset + 0 ∧ good nand x = false) ∨
        ret' = ret ∧ ∀ x, offset ≤ x → x < offset + 0 → good nand x = true) := by
  obtain _ | turns := turns
  · lia
  refine ⟨ret, ?_, .inr ⟨rfl, fun x hlo hhi => by lia⟩⟩
  unfold checkLoop
  rw [if_pos (by lia), if_neg (by lia), Nat.add_zero, mod_eq_of_lt hused]

theorem checkLoop_fits (hneeds : Needs (good nand) offset left u) (hlen : lenExclBad + left = length)
    (hin : offset + u ≤ nand.size) (hwrap : length + overshoot nand (offset + u) < 2 ^ 32)
    (hused : used < 2 ^ 32) (hk : offset + u ≤ (offset / nand.erasesize + k) * nand.erasesize)
    (hturns : k < turns) :
    ∃ ret', checkLoop nand length turns offset lenExclBad used ret = some (ret', (used + u) % 2 ^ 32) ∧
      (ret' = 1 ∧ (∃ x, offset ≤ x ∧ x < offset + u ∧ good nand x = false) ∨
        ret' = ret ∧ ∀ x, offset ≤ x → x < offset + u → good nand x = true) := by
  -- over the blocks of the range; the good bytes so far and those to come are the length
  induction k generalizing turns offset lenExclBad used left u ret with
  | zero =>
    have hleft : left = 0 := by
      by_contra hne
      have hpos := blocks_pos hk (Nat.lt_of_lt_of_le (Nat.pos_of_ne_zero hne) hneeds.le)
      exact absurd hpos (Nat.lt_irrefl 0)
    subst hleft
    obtain rfl := Needs.zero_iff.mp hneeds
    exact checkLoop_empty (by lia) hused (by lia)
  | succ k ih =>
    obtain _ | turns := turns
    · lia
    rcases Nat.eq_zero_or_pos left with rfl | hpos
    · obtain rfl := Needs.zero_iff.mp hneeds
      exact checkLoop_empty (by lia) hused (by lia)
    · have hu : 0 < u := Nat.lt_of_lt_of_le hpos hneeds.le
      rw [checkLoop_turn (by lia) (by lia)]
      have hend : ∀ {n}, n ≤ u → offset + n + (u - n) = offset + u := by
        intro n hn
        lia
      have hsum : ∀ {n}, n ≤ u → ((used + n) % 2 ^ 32 + (u - n)) % 2 ^ 32 = (used + u) % 2 ^ 32 := by
        intro n hn
        have h : used + n + (u - n) = used + u := by lia
        rw [mod_add_mod, h]
      cases hgood : good nand offset with
      | false =>
        rw [if_neg (by simp)]
        obtain ⟨hle, hrest⟩ := needs_bad
          (fun x hlo hhi => (good_block hlo hhi).trans hgood) hneeds hpos
        obtain ⟨ret', hrun, hret⟩ := @ih _ _ ((used + blockLen nand offset) % 2 ^ 32) _ _ turns 1 hrest hlen
          (by rw [hend hle]; exact hin) (by rw [hend hle]; exact hwrap) (mod_lt _ (by norm_num))
          (blocks_next hk hle) (by lia)
        rw [hsum hle] at hrun
        refine ⟨ret', hrun, .inl ⟨?_, offset, Nat.le_refl _, by lia, hgood⟩⟩
        rcases hret with ⟨hret, -⟩ | ⟨hret, -⟩
        · exact hret
        · exact hret
      | true =>
        rw [if_pos rfl]
        have hall : ∀ x, offset ≤ x → x < offset + blockLen nand offset → good nand x = true :=
          fun x hlo hhi => (good_block hlo hhi).trans hgood
        rcases Nat.lt_or_ge left (blockLen nand offset) with hlast | hfull
        · -- the range ends in this block
          obtain rfl := needs_last hall hneeds (Nat.le_of_lt hlast)
          rw [overshoot_last hu (Nat.le_of_lt hlast)] at hwrap
          obtain _ | turns := turns
          · lia
          have hsplit : used + blockLen nand offset = used + u + (blockLen nand offset - u) := by lia
          rw [mod_eq_of_lt (show lenExclBad + blockLen nand offset < 2 ^ 32 by lia), hsplit]
          refine ⟨ret, checkLoop_done (by lia) hwrap, .inr ⟨rfl, fun x hlo hhi => ?_⟩⟩
          exact hall x hlo (by lia)
        · obtain ⟨hle, hrest⟩ := needs_good hall hneeds hfull
          rw [mod_eq_of_lt (show lenExclBad + blockLen nand offset < 2 ^ 32 by lia)]
          obtain ⟨ret', hrun, hret⟩ := @ih _ (lenExclBad + blockLen nand offset)
            ((used + blockLen nand offset) % 2 ^ 32) _ _ turns ret hrest (by lia)
            (by rw [hend hle]; exact hin) (by rw [hend hle]; exact hwrap)
            (mod_lt _ (by norm_num)) (blocks_next hk hle) (by lia)
          rw [hsum hle] at hrun
          rw [hend hle] at hret
          refine ⟨ret', hrun, ?_⟩
          rcases hret with ⟨hret, x, hlo, hhi, hbad⟩ | ⟨hret, hgoods⟩
          · exact .inl ⟨hret, x, by lia, hhi, hbad⟩
          · refine .inr ⟨hret, fun x hlo hhi => ?_⟩
            rcases Nat.lt_or_ge x (offset + blockLen nand offset) with hlt | hge
            · exact hall x hlo hlt
            · exact hgoods x hge hhi

theorem checkLoop_short (hshort : ∀ u, Needs (good nand) offset left u → nand.size < offset + u)
    (hlen : lenExclBad + left = length) (hlt : length < 2 ^ 32) (hpos : 0 < left)
    (hk : nand.size ≤ (offset / nand.erasesize + k) * nand.erasesize) (hturns : k < turns) :
    ∃ used', checkLoop nand length turns offset lenExclBad used ret = some (-1, used') := by
  induction k generalizing turns offset lenExclBad used left ret with
  | zero =>
    obtain _ | turns := turns
    · lia
    have hle := div_mul_le_self offset nand.erasesize
    rw [Nat.add_zero] at hk
    unfold checkLoop
    rw [if_neg (by lia), if_pos (by lia)]
    exact ⟨used, rfl⟩
  | succ k ih =>
    obtain _ | turns := turns
    · lia
    rcases Nat.lt_or_ge offset nand.size with hin | hend
    · have hblock := block_in hin
      have hnext : nand.size
          ≤ ((offset + blockLen nand offset) / nand.erasesize + k) * nand.erasesize := by
        rw [next_block, Nat.add_assoc, Nat.add_comm 1 k]
        exact hk
      rw [checkLoop_turn (by lia) hin]
      cases hgood : good nand offset with
      | false =>
        rw [if_neg (by simp)]
        refine ih (fun u hu => ?_) hlen hpos hnext (by lia)
        have hfar := hshort _ (hu.skip hpos fun x hlo hhi => (good_block hlo hhi).trans hgood)
        lia
      | true =>
        rw [if_pos rfl]
        have hall : ∀ x, offset ≤ x → x < offset + blockLen nand offset → good nand x = true :=
          fun x hlo hhi => (good_block hlo hhi).trans hgood
        have hleft : blockLen nand offset < left := by
          by_contra hle
          have hfar := hshort left (Needs.all fun x hlo hhi => hall x hlo (by lia))
          lia
        rw [mod_eq_of_lt (show lenExclBad + blockLen nand offset < 2 ^ 32 by lia)]
        refine @ih _ _ _ (left - blockLen nand offset) _ _ (fun u hu => ?_) (by lia) (by lia) hnext
          (by lia)
        have hfar := hshort _ (hu.take (Nat.le_of_lt hleft) hall)
        lia
    · unfold checkLoop
      rw [if_neg (by lia), if_pos hend]
      exact ⟨used, rfl⟩

end Check

end UBoot.Nand
