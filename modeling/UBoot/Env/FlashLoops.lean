import UBoot.Env.Flash

/-!
# What the flash loops do

One transfer, the loops that run once, and the loops that go from block to block and leave out the
bad ones.
-/

namespace UBoot.EnvFlash

open Memory Places List Nat Option

section Transfers

variable {driver : Driver} {mtdType : MtdType} {mem : Mem} {flash flash' : Contents} {s x : ℕ}
  {data : List UInt8}

/- Memory after a block has been erased, where the driver was told to, and written. -/
def burn (mtdType : MtdType) (mem : Mem) (s : ℕ) (data : List UInt8) : Mem :=
  program mtdType
    (if mtdType.erased then erase mem (s % 2 ^ 32) (data.length % 2 ^ 32) else mem) s data

theorem length_erased (n : ℕ) : (List.replicate n (0xff : UInt8)).length = n := length_replicate

theorem length_programmed : (List.zipWith (· &&& ·) (bytes mem s data.length) data).length
    = data.length := by
  simp

theorem erase_apart (mem : Mem) (hlen : data.length ≤ maxTransfer) (hx : s + data.length ≤ x ∨
    2 ^ 32 ≤ s ∧ s ≤ x) : erase mem (s % 2 ^ 32) (data.length % 2 ^ 32) x = mem x := by
  have hmax : maxTransfer < 2 ^ 32 := by decide
  apply store_above
  rw [length_erased, mod_eq_of_lt (by lia : data.length < 2 ^ 32)]
  lia

theorem burn_above (hlen : data.length ≤ maxTransfer) (hx : s + data.length ≤ x) :
    burn mtdType mem s data x = mem x := by
  unfold burn program
  cases mtdType.erased with
  | true =>
    rw [if_pos rfl, if_pos rfl, store_above _ _ _ (by rw [length_programmed]; exact hx)]
    exact erase_apart mem hlen (.inl hx)
  | false => exact store_above _ _ _ hx

theorem program_erased : store (store mem s (List.replicate data.length 0xff)) s
    (List.zipWith (· &&& ·) (bytes (store mem s (List.replicate data.length 0xff)) s data.length) data)
      = store mem s data := by
  have hones : bytes (store mem s (List.replicate data.length 0xff)) s data.length
      = List.replicate data.length 0xff := by
    have hsame := bytes_store_same mem s (List.replicate data.length 0xff)
    rwa [length_erased] at hsame
  have hdata : List.zipWith (· &&& ·) (List.replicate data.length (0xff : UInt8)) data = data := by
    apply ext_getElem
    · simp
    · intro i _ _
      rw [getElem_zipWith, getElem_replicate]
      exact UInt8.neg_one_and
  rw [hones, hdata]
  funext x
  by_cases hx : s ≤ x ∧ x < s + data.length
  · obtain ⟨i, rfl⟩ := Nat.exists_eq_add_of_le hx.1
    rw [store_at _ _ _ (by lia), store_at _ _ _ (by lia)]
  · rw [store_outside _ _ _ (by lia), store_outside _ _ _ (by rw [length_erased]; lia),
      store_outside _ _ _ (by lia)]

theorem burn_low (hlen : data.length ≤ maxTransfer) (hlow : mtdType.erased = true → s < 2 ^ 32) :
    burn mtdType mem s data = store mem s data := by
  have hmax : maxTransfer < 2 ^ 32 := by decide
  unfold burn program
  cases he : mtdType.erased with
  | true =>
    rw [if_pos rfl, if_pos rfl, mod_eq_of_lt (hlow he), mod_eq_of_lt (by lia)]
    exact program_erased
  | false => rfl

theorem burn_stuck (hlen : data.length ≤ maxTransfer) (he : mtdType.erased = true) (hs : 2 ^ 32 ≤ s)
    (hlo : s ≤ x) (hhi : x < s + data.length) (hx : mem x = 0) : burn mtdType mem s data x = 0 := by
  unfold burn program
  rw [if_pos he, if_pos he]
  obtain ⟨i, rfl⟩ := Nat.exists_eq_add_of_le hlo
  have hkept := erase_apart mem hlen (.inr ⟨hs, hlo⟩)
  rw [store_at _ _ _ (by rw [length_programmed]; lia), getElem_zipWith]
  simp only [bytes, getElem_map, getElem_range, hkept, hx]
  exact UInt8.zero_and

theorem burn_self {n : ℕ} (hn : n ≤ maxTransfer) (hx : s ≤ x) :
    burn mtdType mem s (bytes mem s n) x = mem x := by
  have hlen : (bytes mem s n).length ≤ maxTransfer := by rwa [length_bytes]
  by_cases hlow : mtdType.erased = true → s < 2 ^ 32
  · rw [burn_low hlen hlow, store_bytes_self]
  · obtain ⟨he, hs⟩ := Classical.not_imp.mp hlow
    rw [Nat.not_lt] at hs
    rcases Nat.lt_or_ge x (s + n) with hlt | hge
    · -- nothing was erased here, and a cell written over itself stays
      unfold burn program
      rw [if_pos he, if_pos he]
      obtain ⟨i, rfl⟩ := Nat.exists_eq_add_of_le hx
      have hkept := erase_apart mem hlen (.inr ⟨hs, hx⟩)
      rw [store_at _ _ _ (by rw [length_programmed, length_bytes]; lia), getElem_zipWith]
      simp only [bytes, getElem_map, getElem_range] at hkept ⊢
      simp only [hkept]
      exact UInt8.and_self
    · exact burn_above hlen (by rwa [length_bytes])

theorem rewrite_some (h : rewrite driver mtdType flash s data = some flash') :
    data.length ≤ maxTransfer ∧ (mtdType ≠ .absent → s + data.length ≤ flash.size) ∧
      flash' = ⟨burn mtdType flash.mem s data, max flash.size (s + data.length)⟩ := by
  have hwrite : ∀ mem, write driver mtdType ⟨mem, flash.size⟩ s data = some flash' →
      data.length ≤ maxTransfer ∧ (mtdType ≠ .absent → s + data.length ≤ flash.size) ∧
        flash' = ⟨program mtdType mem s data, max flash.size (s + data.length)⟩ := by
    intro mem h
    unfold write at h
    split at h
    · next hok =>
      refine ⟨hok.1, fun hmtd => ?_, (some.inj h).symm⟩
      cases hok.2.2 with
      | inl hroom => exact hroom
      | inr hfile => exact absurd hfile.2 hmtd
    · exact absurd h (some_ne_none _).symm
  unfold rewrite at h
  unfold burn
  cases he : mtdType.erased with
  | true =>
    rw [if_pos he] at h
    simp only at h
    split at h
    · exact hwrite _ h
    · exact absurd h (some_ne_none _).symm
  | false =>
    rw [if_neg (by simp [he])] at h
    exact hwrite _ h

def willing : Driver where
  tells := fun _ => true
  erases := fun _ _ => true
  writes := fun _ _ => true
  grows := false

theorem rewrite_willing (hlen : data.length ≤ maxTransfer) (hroom : s + data.length ≤ flash.size) :
    rewrite willing mtdType flash s data = some ⟨burn mtdType flash.mem s data, flash.size⟩ := by
  have hmax : max flash.size (s + data.length) = flash.size := Nat.max_eq_left hroom
  have hwrite : ∀ mem, write willing mtdType ⟨mem, flash.size⟩ s data
      = some ⟨program mtdType mem s data, flash.size⟩ := by
    intro mem
    rw [write, if_pos ⟨hlen, rfl, .inl hroom⟩, hmax]
  unfold rewrite burn
  cases he : mtdType.erased with
  | true =>
    rw [if_pos rfl, if_pos rfl]
    exact hwrite _
  | false => exact hwrite _

end Transfers

section Once

variable {driver : Driver} {bad : ℕ → Bool} {mtdType : MtdType} {flash flash' : Contents}
  {data buf : Mem} {blocklen e s top total fuel processed count offset : ℕ} {ret : ℤ}
  {dev : EnvDev}

theorem flashBadBlock_other (h : mtdType ≠ .nandflash) :
    flashBadBlock driver bad mtdType s = some false := if_neg h

theorem writeLoop_once (hother : mtdType ≠ .nandflash) (hpos : 0 < total) (htop : s + e = top)
    (h : writeLoop driver bad mtdType blocklen e top total data fuel flash 0 s
      = .ok (processed, flash')) :
    total ≤ e ∧ processed = e ∧ rewrite driver mtdType flash s (bytes data 0 e) = some flash' := by
  rcases Nat.eq_zero_or_pos e with rfl | he
  · -- nothing is written, so the counter stays where it is
    exfalso
    induction fuel generalizing flash with
    | zero => exact absurd h (by simp [writeLoop])
    | succ fuel ih =>
      rw [writeLoop, if_pos hpos, flashBadBlock_other hother] at h
      simp only [Nat.add_zero, Bool.false_eq_true, if_false] at h
      split at h
      · cases h
      · split at h
        · cases h
        · exact ih h
  · cases fuel with
    | zero => exact absurd h (by simp [writeLoop])
    | succ fuel =>
      rw [writeLoop, if_pos hpos, flashBadBlock_other hother] at h
      simp only [htop, lt_self_iff_false, Bool.false_eq_true, if_false, Nat.zero_add] at h
      split at h
      · cases h
      · next flash₁ hrewrite =>
        cases fuel with
        | zero => exact absurd h (by simp [writeLoop])
        | succ fuel =>
          rw [writeLoop] at h
          split at h
          · rw [flashBadBlock_other hother] at h
            simp only [show top < top + e by lia, if_true] at h
            cases h
          · next hle =>
            obtain ⟨rfl, rfl⟩ := Prod.mk.inj (Except.ok.inj h)
            exact ⟨Nat.not_lt.mp hle, rfl, hrewrite⟩

theorem writeLoop_once_ok (hother : mtdType ≠ .nandflash) (hpos : 0 < total) (htop : s + e = top)
    (hle : total ≤ e) (hrewrite : rewrite driver mtdType flash s (bytes data 0 e) = some flash') :
    writeLoop driver bad mtdType blocklen e top total data (fuel + 2) flash 0 s = .ok (e, flash') := by
  rw [writeLoop, if_pos hpos, flashBadBlock_other hother]
  simp only [htop, lt_self_iff_false, Bool.false_eq_true, if_false, Nat.zero_add, hrewrite]
  rw [writeLoop, if_neg (Nat.not_lt.mpr hle)]

theorem writeLoop_none : writeLoop driver bad mtdType blocklen e top 0 data (fuel + 1) flash 0 s
    = .ok (0, flash) := by
  rw [writeLoop, if_neg (lt_irrefl 0)]

theorem flashReadBuf_once (hother : mtdType ≠ .nandflash) (hsize : dev.eraseSize ≠ 0)
    (hroom : 0 < count → offset + count ≤ flash.size ∧ count ≤ maxTransfer) :
    flashReadBuf driver bad mtdType dev flash count offset
      = .ok (toInt count, bytes flash.mem offset count) := by
  have hstart : offset / dev.eraseSize * dev.eraseSize + (offset - offset / dev.eraseSize * dev.eraseSize)
      = offset := add_sub_of_le (div_mul_le_self _ _)
  rw [flashReadBuf, if_neg hsize]
  simp only [hother, if_false]
  rw [readLoop]
  split
  · next hsome =>
    obtain ⟨hroom, hmax⟩ := hroom hsome
    rw [flashBadBlock_other hother]
    simp only [hstart, lt_self_iff_false, Bool.false_eq_true, if_false, read, hroom, hmax, and_self,
      if_true, Nat.zero_add]
    rw [readLoop, if_neg (lt_irrefl count)]
    rfl
  · next hzero =>
    obtain rfl : count = 0 := by lia
    rfl

end Once

section Blocks

def good (bad : ℕ → Bool) (blocklen x : ℕ) : Bool := !bad (x / blocklen * blocklen)

/- The bytes of the good blocks between `s` and `top`. -/
def goodFrom (bad : ℕ → Bool) (blocklen top s : ℕ) : List ℕ := places (good bad blocklen) s (top - s)

/- `n` bytes up to the end of their last block. -/
def rounded (blocklen n : ℕ) : ℕ := (n + blocklen - 1) / blocklen * blocklen

variable {driver : Driver} {bad : ℕ → Bool} {blocklen top s n x : ℕ}

theorem div_block {k : ℕ} (hpos : 0 < blocklen) (hs : s % blocklen = 0) (hk : k < blocklen) :
    (s + k) / blocklen * blocklen = s := by
  obtain ⟨b, rfl⟩ := dvd_of_mod_eq_zero hs
  rw [mul_add_div hpos, div_eq_of_lt hk, Nat.add_zero, Nat.mul_comm]

theorem good_block {k : ℕ} (hpos : 0 < blocklen) (hs : s % blocklen = 0) (hk : k < blocklen) :
    good bad blocklen (s + k) = !bad s := by
  rw [good, div_block hpos hs hk]

theorem next_block (hs : s % blocklen = 0) : (s + blocklen) % blocklen = 0 := by
  rw [add_mod_right, hs]

theorem block_fits (hs : s % blocklen = 0) (htop : top % blocklen = 0) (hlt : s < top) :
    s + blocklen ≤ top := by
  obtain ⟨b, rfl⟩ := dvd_of_mod_eq_zero hs
  obtain ⟨t, rfl⟩ := dvd_of_mod_eq_zero htop
  have hbt : b < t := Nat.lt_of_mul_lt_mul_left hlt
  calc blocklen * b + blocklen = blocklen * (b + 1) := by ring
    _ ≤ blocklen * t := Nat.mul_le_mul_left _ hbt

theorem start_le (hs : s % blocklen = 0) (hx : s ≤ x) : s ≤ x / blocklen * blocklen := by
  obtain ⟨b, rfl⟩ := dvd_of_mod_eq_zero hs
  rcases Nat.eq_zero_or_pos blocklen with rfl | hpos
  · simp
  · rw [Nat.mul_comm]
    exact Nat.mul_le_mul_right _ ((Nat.le_div_iff_mul_le hpos).mpr (by rwa [Nat.mul_comm]))

theorem goodFrom_split (hle : s + blocklen ≤ top) : goodFrom bad blocklen top s
    = places (good bad blocklen) s blocklen ++ goodFrom bad blocklen top (s + blocklen) := by
  rw [goodFrom, goodFrom, ← places_append, show blocklen + (top - (s + blocklen)) = top - s by lia]

theorem goodFrom_good (hs : s % blocklen = 0) (hle : s + blocklen ≤ top) (hgood : bad s = false) :
    goodFrom bad blocklen top s = List.range' s blocklen ++ goodFrom bad blocklen top (s + blocklen) := by
  rw [goodFrom_split hle, places_all]
  intro x hlo hhi
  obtain ⟨k, rfl⟩ := Nat.exists_eq_add_of_le hlo
  rw [good_block (by lia) hs (by lia), hgood, Bool.not_false]

theorem goodFrom_bad (hs : s % blocklen = 0) (hle : s + blocklen ≤ top) (hbad : bad s = true) :
    goodFrom bad blocklen top s = goodFrom bad blocklen top (s + blocklen) := by
  rw [goodFrom_split hle, places_none, nil_append]
  intro x hlo hhi
  obtain ⟨k, rfl⟩ := Nat.exists_eq_add_of_le hlo
  rw [good_block (by lia) hs (by lia), hbad, Bool.not_true]

theorem goodFrom_next (hs : s % blocklen = 0) (hle : s + blocklen ≤ top) (hgood : bad s = false)
    (hn : blocklen < n) : (goodFrom bad blocklen top s)[n - 1]?
      = (goodFrom bad blocklen top (s + blocklen))[n - blocklen - 1]? := by
  rw [goodFrom_good hs hle hgood, getElem?_append_right (by rw [length_range']; lia),
    length_range', show n - 1 - blocklen = n - blocklen - 1 by lia]

theorem take_goodFrom (hs : s % blocklen = 0) (hle : s + blocklen ≤ top) (hgood : bad s = false)
    (k : ℕ) : (goodFrom bad blocklen top s).take (blocklen + k)
      = List.range' s blocklen ++ (goodFrom bad blocklen top (s + blocklen)).take k := by
  have htake := @List.take_length_add_append ℕ (List.range' s blocklen)
    (goodFrom bad blocklen top (s + blocklen)) k
  rw [length_range'] at htake
  rw [goodFrom_good hs hle hgood, htake]

theorem mem_goodFrom (hx : x ∈ goodFrom bad blocklen top s) : s ≤ x ∧ x < top := by
  obtain ⟨hrange, -⟩ := mem_places.mp hx
  lia

theorem sorted_goodFrom : (goodFrom bad blocklen top s).Pairwise (· < ·) :=
  List.Pairwise.filter _ pairwise_lt_range'

theorem rounded_zero (hpos : 0 < blocklen) : rounded blocklen 0 = 0 := by
  rw [rounded, Nat.zero_add, div_eq_of_lt (by lia), Nat.zero_mul]

theorem rounded_block (hpos : 0 < blocklen) (hn : 0 < n) :
    rounded blocklen n = blocklen + rounded blocklen (n - blocklen) := by
  unfold rounded
  rcases Nat.lt_or_ge blocklen n with hlt | hge
  · rw [show n + blocklen - 1 = (n - blocklen + blocklen - 1) + blocklen by lia,
      add_div_right _ hpos]
    ring
  · rw [Nat.sub_eq_zero_of_le hge, Nat.zero_add, div_eq_of_lt (show blocklen - 1 < blocklen by lia),
      show n + blocklen - 1 = (n - 1) + blocklen by lia, add_div_right _ hpos,
      div_eq_of_lt (show n - 1 < blocklen by lia)]
    ring

theorem rounded_mul (hpos : 0 < blocklen) (k : ℕ) : rounded blocklen (k * blocklen) = k * blocklen := by
  rw [rounded, show k * blocklen + blocklen - 1 = blocklen - 1 + blocklen * k by
    rw [Nat.mul_comm]; lia, add_mul_div_left _ _ hpos, div_eq_of_lt (by lia), Nat.zero_add]

theorem le_rounded (hpos : 0 < blocklen) : n ≤ rounded blocklen n := by
  have hmod := mod_lt (n + blocklen - 1) hpos
  have hdiv := div_add_mod (n + blocklen - 1) blocklen
  rw [rounded, Nat.mul_comm]
  lia

/- The way over the blocks from `s` to `x`, the last of the next `n` bytes in good blocks. -/
structure Reach (driver : Driver) (bad : ℕ → Bool) (blocklen top size s n x : ℕ) : Prop where
  last : (goodFrom bad blocklen top s)[n - 1]? = some x
  tells : ∀ t, t % blocklen = 0 → s ≤ t → t ≤ x → driver.tells t = true
  room : x / blocklen * blocklen + blocklen ≤ size

namespace Reach

variable {size : ℕ}

theorem bounds (h : Reach driver bad blocklen top size s n x) : s ≤ x ∧ x < top :=
  mem_goodFrom (mem_of_getElem? h.last)

theorem start_cases {t : ℕ} (hs : s % blocklen = 0) (ht : t % blocklen = 0) (hle : s ≤ t) :
    t = s ∨ s + blocklen ≤ t := by
  rcases Nat.lt_or_ge s t with hlt | hge
  · exact .inr (block_fits hs ht hlt)
  · exact .inl (Nat.le_antisymm hge hle)

theorem step_iff {m : ℕ} (hs : s % blocklen = 0)
    (hsame : (goodFrom bad blocklen top s)[n - 1]? = (goodFrom bad blocklen top (s + blocklen))[m - 1]?) :
    Reach driver bad blocklen top size s n x ↔
      Reach driver bad blocklen top size (s + blocklen) m x ∧ driver.tells s = true := by
  constructor
  · intro h
    refine ⟨⟨hsame ▸ h.last, fun t ht hlo hhi => ?_, h.room⟩, ?_⟩
    · exact h.tells t ht (by lia) hhi
    · exact h.tells s hs (Nat.le_refl s) h.bounds.1
  · rintro ⟨h, htells⟩
    refine ⟨hsame ▸ h.last, fun t ht hlo hhi => ?_, h.room⟩
    rcases start_cases hs ht hlo with rfl | hnext
    · exact htells
    · exact h.tells t ht hnext hhi

theorem skip_iff (hs : s % blocklen = 0) (hle : s + blocklen ≤ top) (hbad : bad s = true) :
    Reach driver bad blocklen top size s n x ↔
      Reach driver bad blocklen top size (s + blocklen) n x ∧ driver.tells s = true :=
  step_iff hs (by rw [goodFrom_bad hs hle hbad])

theorem next_iff (hs : s % blocklen = 0) (hle : s + blocklen ≤ top) (hgood : bad s = false)
    (hn : blocklen < n) : Reach driver bad blocklen top size s n x ↔
      Reach driver bad blocklen top size (s + blocklen) (n - blocklen) x ∧ driver.tells s = true :=
  step_iff hs (goodFrom_next hs hle hgood hn)

theorem last_iff (hs : s % blocklen = 0) (hle : s + blocklen ≤ top) (hgood : bad s = false)
    (hpos : 0 < n) (hn : n ≤ blocklen) : Reach driver bad blocklen top size s n x ↔
      x = s + (n - 1) ∧ driver.tells s = true ∧ s + blocklen ≤ size := by
  have hlast : (goodFrom bad blocklen top s)[n - 1]? = some (s + (n - 1)) := by
    rw [goodFrom_good hs hle hgood, getElem?_append_left (by rw [length_range']; lia)]
    simp [show n - 1 < blocklen by lia]
  have hblock := div_block (k := n - 1) (by lia) hs (by lia)
  constructor
  · intro h
    obtain rfl : s + (n - 1) = x := some.inj (hlast.symm.trans h.last)
    have hroom := h.room
    rw [hblock] at hroom
    exact ⟨rfl, h.tells s hs (Nat.le_refl s) h.bounds.1, hroom⟩
  · rintro ⟨rfl, htells, hroom⟩
    refine ⟨hlast, fun t ht hlo hhi => ?_, by rwa [hblock]⟩
    rcases start_cases hs ht hlo with rfl | hnext
    · exact htells
    · lia

theorem block_room (hs : s % blocklen = 0) (h : Reach driver bad blocklen top size s n x) :
    s + blocklen ≤ size :=
  (Nat.add_le_add_right (start_le hs h.bounds.1) blocklen).trans h.room

end Reach

theorem flashBadBlock_tells (h : driver.tells s = true) :
    flashBadBlock driver bad .nandflash s = some (bad s) := by
  rw [flashBadBlock, if_pos rfl, if_pos h]

theorem flashBadBlock_some {rc : Bool} (h : flashBadBlock driver bad .nandflash s = some rc) :
    driver.tells s = true ∧ rc = bad s := by
  rw [flashBadBlock, if_pos rfl] at h
  split at h
  · next htells => exact ⟨htells, (some.inj h).symm⟩
  · cases h

theorem readLoop_blocks {flash : Contents} {fuel processed m seek : ℕ} {buf : List UInt8}
    (hpos : 0 < blocklen) (htop : top % blocklen = 0) (hs : s % blocklen = 0)
    (hseek : seek < blocklen) (hfuel : top - s < fuel)
    (hway : 0 < m → blocklen ≤ maxTransfer ∧
      ∃ x, Reach driver bad blocklen top flash.size s (seek + m) x) :
    readLoop driver bad .nandflash flash blocklen top (processed + m) fuel processed
        (min m (blocklen - seek)) seek s buf
      = .ok (processed + m,
          buf ++ (((goodFrom bad blocklen top s).drop seek).take m).map flash.mem) := by
  induction fuel generalizing processed m seek s buf with
  | zero => lia
  | succ fuel ih =>
    rw [readLoop]
    rcases Nat.eq_zero_or_pos m with rfl | hm
    · simp
    · obtain ⟨hmax, x, hx⟩ := hway hm
      have hbounds := hx.bounds
      have hle := block_fits hs htop (by lia)
      have htells := hx.tells s hs (Nat.le_refl s) hbounds.1
      have hroom := hx.block_room hs
      rw [if_pos (by lia), flashBadBlock_tells htells]
      simp only [show ¬ top < s + seek + min m (blocklen - seek) by lia, if_false]
      cases hbad : bad s with
      | true =>
        rw [if_pos rfl, ih (next_block hs) hseek (by lia) ?_, goodFrom_bad hs hle hbad]
        exact fun _ => ⟨hmax, x, ((Reach.skip_iff hs hle hbad).mp hx).1⟩
      | false =>
        have hrest : processed + m = processed + min m (blocklen - seek) + (m - (blocklen - seek)) := by
          lia
        have hread : read flash (s + seek) (min m (blocklen - seek))
            = some (bytes flash.mem (s + seek) (min m (blocklen - seek))) := by
          rw [read, if_pos (by lia)]
        simp only [Bool.false_eq_true, if_false, hread]
        rw [show min blocklen (processed + m - (processed + min m (blocklen - seek)))
            = min (m - (blocklen - seek)) (blocklen - 0) by lia, hrest,
          ih (next_block hs) hpos (by lia) ?_]
        · -- what this block gives, then what the others give
          rw [goodFrom_good hs hle hbad, drop_append_of_le_length (by simp; lia),
            drop_zero, drop_range', take_append, length_range', map_append,
            map_take_range', Nat.mul_one, append_assoc]
        · intro hleft
          refine ⟨hmax, x, ?_⟩
          have hnext := ((Reach.next_iff hs hle hbad (by lia)).mp hx).1
          rwa [show seek + m - blocklen = 0 + (m - (blocklen - seek)) by lia] at hnext

/- A write of `n` bytes, rounded up to blocks, that has come to its end. -/
structure Wrote (driver : Driver) (bad : ℕ → Bool) (blocklen top s n processed : ℕ) (data : Mem)
    (flash : Contents) (done : ℕ × Contents) : Prop where
  count : done.1 = processed + rounded blocklen n
  size : done.2.size = flash.size
  way : 0 < n → blocklen ≤ maxTransfer ∧ ∃ x, Reach driver bad blocklen top flash.size s n x
  put : (∀ x, 0 < n → (goodFrom bad blocklen top s)[n - 1]? = some x → x / blocklen * blocklen < 2 ^ 32) →
    Put flash.mem done.2.mem ((goodFrom bad blocklen top s).take (rounded blocklen n))
      (bytes data processed (rounded blocklen n))

namespace Wrote

variable {flash : Contents} {data : Mem} {processed : ℕ} {done : ℕ × Contents}

theorem nothing (hpos : 0 < blocklen) :
    Wrote driver bad blocklen top s 0 processed data flash (processed, flash) := by
  have hzero := rounded_zero hpos
  refine ⟨by rw [hzero]; rfl, rfl, fun h0 => absurd h0 (lt_irrefl 0), fun _ => ?_⟩
  rw [hzero]
  exact Put.nil

theorem skip (hs : s % blocklen = 0) (hle : s + blocklen ≤ top) (hbad : bad s = true)
    (htells : driver.tells s = true)
    (h : Wrote driver bad blocklen top (s + blocklen) n processed data flash done) :
    Wrote driver bad blocklen top s n processed data flash done := by
  refine ⟨h.count, h.size, fun hn => ?_, fun hlow => ?_⟩
  · obtain ⟨hmax, x, hx⟩ := h.way hn
    exact ⟨hmax, x, (Reach.skip_iff hs hle hbad).mpr ⟨hx, htells⟩⟩
  · rw [goodFrom_bad hs hle hbad] at hlow ⊢
    exact h.put hlow

theorem use (hpos : 0 < blocklen) (hs : s % blocklen = 0) (hle : s + blocklen ≤ top)
    (hgood : bad s = false) (htells : driver.tells s = true) (hn : 0 < n)
    (hmax : blocklen ≤ maxTransfer) (hfit : s + blocklen ≤ flash.size)
    (h : Wrote driver bad blocklen top (s + blocklen) (n - blocklen) (processed + blocklen) data
      ⟨burn .nandflash flash.mem s (bytes data processed blocklen), flash.size⟩ done) :
    Wrote driver bad blocklen top s n processed data flash done := by
  have hround := rounded_block hpos hn
  have hcount := h.count
  have hreach : ∃ x, Reach driver bad blocklen top flash.size s n x := by
    rcases Nat.lt_or_ge blocklen n with hmore | hlast
    · obtain ⟨-, x, hx⟩ := h.way (by lia)
      exact ⟨x, (Reach.next_iff hs hle hgood hmore).mpr ⟨hx, htells⟩⟩
    · exact ⟨_, (Reach.last_iff hs hle hgood hn hlast).mpr ⟨rfl, htells, hfit⟩⟩
  refine ⟨by lia, h.size, fun _ => ⟨hmax, hreach⟩, fun hlow => ?_⟩
  -- the last block begins below 4 GiB, so this one does, too
  obtain ⟨x, hx⟩ := hreach
  have hbelow := (start_le hs hx.bounds.1).trans_lt (hlow x hn hx.last)
  have hrest := h.put fun y hleft hy =>
    hlow y hn ((goodFrom_next hs hle hgood (by lia)).trans hy)
  have hfirst : Put flash.mem (burn .nandflash flash.mem s (bytes data processed blocklen))
      (List.range' s blocklen) (bytes data processed blocklen) := by
    rw [burn_low (by rwa [length_bytes]) fun _ => hbelow]
    simpa using put_store flash.mem s (bytes data processed blocklen)
  rw [hround, take_goodFrom hs hle hgood, bytes_add]
  refine hfirst.append hrest fun x hx hx' => ?_
  have hnext := (mem_goodFrom (mem_of_mem_take hx')).1
  rw [mem_range'_1] at hx
  lia

end Wrote

theorem writeLoop_blocks {flash : Contents} {data : Mem} {fuel processed : ℕ} {done : ℕ × Contents}
    (hpos : 0 < blocklen) (hs : s % blocklen = 0)
    (h : writeLoop driver bad .nandflash blocklen blocklen top (processed + rounded blocklen n) data
      fuel flash processed s = .ok done) :
    Wrote driver bad blocklen top s n processed data flash done := by
  induction fuel generalizing flash processed n s with
  | zero => exact absurd h (by simp [writeLoop])
  | succ fuel ih =>
    rcases Nat.eq_zero_or_pos n with rfl | hn
    · rw [rounded_zero hpos, Nat.add_zero, writeLoop, if_neg (lt_irrefl _)] at h
      obtain rfl := Except.ok.inj h
      exact Wrote.nothing hpos
    · have hround := rounded_block hpos hn
      rw [writeLoop, if_pos (by lia)] at h
      split at h
      · cases h
      · next rc hquery =>
        obtain ⟨htells, rfl⟩ := flashBadBlock_some hquery
        split at h
        · cases h
        · next htop =>
          have hle := Nat.not_lt.mp htop
          split at h
          · next hbad => exact (ih (next_block hs) h).skip hs hle hbad htells
          · next hbad =>
            rw [Bool.not_eq_true] at hbad
            split at h
            · cases h
            · next flash₁ hrewrite =>
              obtain ⟨hmax, hroom, rfl⟩ := rewrite_some hrewrite
              have hfit := hroom (by decide)
              rw [length_bytes] at hmax hfit
              rw [hround, ← Nat.add_assoc, length_bytes, Nat.max_eq_left hfit] at h
              exact (ih (next_block hs) h).use hpos hs hle hbad htells hn hmax hfit

theorem writeLoop_same {flash : Contents} {data : Mem} {fuel : ℕ} {done : ℕ × Contents}
    (hpos : 0 < blocklen) (hs : s % blocklen = 0)
    (hsame : bytes data 0 blocklen = ((goodFrom bad blocklen top s).take blocklen).map flash.mem)
    (h : writeLoop driver bad .nandflash blocklen blocklen top blocklen data fuel flash 0 s = .ok done) :
    ∀ x, x ∈ goodFrom bad blocklen top s → done.2.mem x = flash.mem x := by
  induction fuel generalizing s with
  | zero => exact absurd h (by simp [writeLoop])
  | succ fuel ih =>
    rw [writeLoop, if_pos hpos] at h
    split at h
    · cases h
    · next rc hquery =>
      obtain ⟨-, rfl⟩ := flashBadBlock_some hquery
      split at h
      · cases h
      · next htop =>
        have hle := Nat.not_lt.mp htop
        split at h
        · next hbad =>
          rw [goodFrom_bad hs hle hbad] at hsame ⊢
          exact ih (next_block hs) hsame h
        · next hbad =>
          rw [Bool.not_eq_true] at hbad
          split at h
          · cases h
          · next flash₁ hrewrite =>
            have htake := take_goodFrom hs hle hbad 0
            rw [Nat.add_zero, take_zero, append_nil] at htake
            rw [htake, map_range'] at hsame
            obtain ⟨hmax, -, rfl⟩ := rewrite_some hrewrite
            rw [length_bytes] at hmax
            cases fuel with
            | zero => exact absurd h (by simp [writeLoop])
            | succ fuel =>
              rw [writeLoop, if_neg (by lia)] at h
              obtain rfl := Except.ok.inj h
              intro x hx
              show burn .nandflash flash.mem s (bytes data 0 blocklen) x = flash.mem x
              rw [hsame]
              exact burn_self hmax (mem_goodFrom hx).1

theorem reach_willing {size : ℕ} (htop : top % blocklen = 0) (hsize : top ≤ size)
    (hlen : n ≤ (goodFrom bad blocklen top s).length) (hn : 0 < n) :
    ∃ x, Reach willing bad blocklen top size s n x := by
  have hlast := getElem?_eq_getElem (show n - 1 < (goodFrom bad blocklen top s).length by lia)
  refine ⟨_, hlast, fun _ _ _ _ => rfl, ?_⟩
  have hx := (mem_goodFrom (mem_of_getElem? hlast)).2
  have hstart := div_mul_le_self (goodFrom bad blocklen top s)[n - 1] blocklen
  exact (block_fits (mul_mod_left _ _) htop (by lia)).trans hsize

theorem writeLoop_willing {flash : Contents} {data : Mem} {fuel processed : ℕ} (hpos : 0 < blocklen)
    (hmax : blocklen ≤ maxTransfer) (htop : top % blocklen = 0) (hs : s % blocklen = 0)
    (hfuel : top - s < fuel) (hreach : 0 < n → Reach willing bad blocklen top flash.size s n x) :
    ∃ done, writeLoop willing bad .nandflash blocklen blocklen top (processed + rounded blocklen n)
        data fuel flash processed s = .ok done ∧
      ((0 < n → 2 ^ 32 ≤ x / blocklen * blocklen) → flash.mem x = 0 → done.2.mem x = 0) := by
  induction fuel generalizing flash processed n s with
  | zero => lia
  | succ fuel ih =>
    rw [writeLoop]
    rcases Nat.eq_zero_or_pos n with rfl | hn
    · rw [rounded_zero hpos, Nat.add_zero, if_neg (lt_irrefl _)]
      exact ⟨_, rfl, fun _ hzero => hzero⟩
    · have hround := rounded_block hpos hn
      have hx := hreach hn
      have hbounds := hx.bounds
      have hle := block_fits hs htop (by lia)
      have hroom := hx.block_room hs
      rw [if_pos (by lia), flashBadBlock_tells rfl]
      simp only [Nat.not_lt.mpr hle, if_false]
      cases hbad : bad s with
      | true =>
        exact @ih (s + blocklen) n flash processed (next_block hs) (by lia)
          fun hn => ((Reach.skip_iff hs hle hbad).mp (hreach hn)).1
      | false =>
        have hlen : (bytes data processed blocklen).length = blocklen := length_bytes _ _ _
        have hrewrite := @rewrite_willing .nandflash flash s (bytes data processed blocklen)
          (by rwa [hlen]) (by rwa [hlen])
        obtain ⟨done, hdone, hkept⟩ := @ih (s + blocklen) (n - blocklen)
          ⟨burn .nandflash flash.mem s (bytes data processed blocklen), flash.size⟩
          (processed + blocklen) (next_block hs) (by lia)
          fun hleft => ((Reach.next_iff hs hle hbad (by lia)).mp hx).1
        rw [Nat.add_assoc, ← hround] at hdone
        simp only [Bool.false_eq_true, if_false, hrewrite]
        refine ⟨done, hdone, fun habove hzero => ?_⟩
        rcases Nat.lt_or_ge blocklen n with hmore | hlast
        · have hnext := ((Reach.next_iff hs hle hbad hmore).mp hx).1.bounds.1
          refine hkept (fun _ => habove hn) ?_
          show burn .nandflash flash.mem s (bytes data processed blocklen) x = 0
          rw [burn_above (by rwa [hlen]) (by rwa [hlen]), hzero]
        · have hend := ((Reach.last_iff hs hle hbad hn hlast).mp hx).1
          have hstart := habove hn
          rw [hend, div_block hpos hs (by lia)] at hstart
          refine hkept (fun hleft => absurd hleft (by lia)) ?_
          show burn .nandflash flash.mem s (bytes data processed blocklen) x = 0
          exact burn_stuck (by rwa [hlen]) rfl hstart hbounds.1 (by lia) hzero

end Blocks

section Ends

variable {driver : Driver} {bad : ℕ → Bool} {mtdType : MtdType} {flash : Contents} {dev : EnvDev}
  {data buf : Mem} {malloc : ℕ → Option Mem} {blocklen e s top total count fuel processed offset : ℕ}

end Ends

end UBoot.EnvFlash
