import UBoot.Ext4.ReadFile

/-!
# What is read of a file

The loop with its delayed read counts as one that reads block by block. What has been read by then
is `reach`, which differs from what was asked for in a last block that is a hole.
-/

namespace UBoot.Ext4

open List Nat Option

section Stores

variable {dev : Device} {stored : ℕ → Option UInt8} {p : ℕ}

theorem storeAt_append (xs ys : List UInt8) :
    storeAt stored p (xs ++ ys) = storeAt (storeAt stored p xs) (p + xs.length) ys := by
  funext k
  simp only [storeAt, length_append]
  by_cases hy : p + xs.length ≤ k ∧ k < p + xs.length + ys.length
  · rw [if_pos hy, if_pos (by lia), getElem?_append_right (by lia)]
    congr 1
    lia
  · rw [if_neg hy]
    by_cases hx : p ≤ k ∧ k < p + xs.length
    · rw [if_pos hx, if_pos (by lia), getElem?_append_left (by lia)]
    · rw [if_neg hx, if_neg (by lia)]

theorem storeAt_fill {g : ℕ → UInt8} {bytes : List UInt8}
    (h : ∀ k, stored k = if k < p then some (g k) else none)
    (hbytes : ∀ j (hj : j < bytes.length), bytes[j] = g (p + j)) (k : ℕ) :
    storeAt stored p bytes k = if k < p + bytes.length then some (g k) else none := by
  rw [storeAt]
  by_cases hin : p ≤ k ∧ k < p + bytes.length
  · rw [if_pos hin, if_pos hin.2, getElem?_eq_getElem (by lia), hbytes]
    congr 2
    lia
  · rw [if_neg hin, h]
    by_cases hk : k < p
    · rw [if_pos hk, if_pos (by lia)]
    · rw [if_neg hk, if_neg (by lia)]

end Stores

/- The buffer and the read that is put off, if there is one. -/
structure Filling where
  stored : ℕ → Option UInt8
  buf : ℕ
  delayed : Option Delayed

def Reading.filling (s : Reading) : Filling :=
  ⟨s.stored, s.buf, if s.previousBlockNumber = noBlock then none else some s.delayed⟩

section Read

variable (dev : Device) (f : ℕ) (block : ℕ → ℕ)

theorem fsBlocksize_eq : fsBlocksize dev f = 2 ^ f * dev.blksz := pow_add _ _ _

theorem fsBlocksize_pos : 0 < fsBlocksize dev f := Nat.two_pow_pos _

variable {dev f} in
theorem lt_block_end {pos i : ℕ} (h : pos / fsBlocksize dev f < i) :
    pos < fsBlocksize dev f * i := by
  rw [Nat.mul_comm]
  exact (Nat.div_lt_iff_lt_mul (fsBlocksize_pos dev f)).mp h

variable {dev f} in
theorem shift_blksz (b : ℕ) : b <<< f * dev.blksz = b * fsBlocksize dev f := by
  rw [fsBlocksize_eq, shiftLeft_eq, Nat.mul_assoc]

def flush (s : Filling) : Option Filling :=
  match s.delayed with
  | none => some s
  | some d =>
    (ext4fsDevread dev d.start d.skipfirst (toLong 32 d.extent)).map fun bytes =>
      { s with stored := storeAt s.stored d.buf bytes, delayed := none }

def pending (s : Filling) : ℕ → Option UInt8 :=
  match s.delayed with
  | none => s.stored
  | some d => storeAt s.stored d.buf (dev.bytes (d.start * dev.blksz + d.skipfirst) d.extent)

def blockFrom (pos i : ℕ) : ℕ := max pos (fsBlocksize dev f * i)
def blockTo (pos len i : ℕ) : ℕ := min (fsBlocksize dev f * (i + 1)) (pos + len)

/- How far the buffer is filled behind a block; a hole is filled to its end. -/
def reach (pos len i : ℕ) : ℕ :=
  (if block i = 0 then fsBlocksize dev f * (i + 1) else blockTo dev f pos len i) - pos

/- The block behind the first one is not the same one again, where the first is read from its last
sector on. -/
def Straight (pos len : ℕ) : Prop :=
  fsBlocksize dev f < pos % fsBlocksize dev f + dev.blksz →
    fsBlocksize dev f * (pos / fsBlocksize dev f + 1) < pos + len →
    block (pos / fsBlocksize dev f) ≠ 0 →
    block (pos / fsBlocksize dev f + 1) ≠ block (pos / fsBlocksize dev f)

def endAddress (pos len : ℕ) : ℕ :=
  block ((pos + len) / fsBlocksize dev f) * fsBlocksize dev f + (pos + len) % fsBlocksize dev f

def EndReadable (pos len : ℕ) : Prop :=
  (pos + len) % dev.blksz ≠ 0 → block ((pos + len) / fsBlocksize dev f) ≠ 0 →
    dev.readable (endAddress dev f block pos len / dev.blksz) = true

/- A delayed read between two blocks: it goes on where the next block is, or it is the one of the
first block, which was not read from its start. -/
def Chained (pos i : ℕ) (d : Delayed) : Prop :=
  d.skipfirst = 0 ∧ d.next * dev.blksz = d.start * dev.blksz + d.extent ∨
    d.skipfirst = pos % fsBlocksize dev f ∧ d.skipfirst ≠ 0 ∧ i = pos / fsBlocksize dev f + 1 ∧
      d.start = block (pos / fsBlocksize dev f) <<< f ∧
      d.extent = fsBlocksize dev f - d.skipfirst ∧ d.next = d.start + d.extent / dev.blksz

/- Where the reading is before the block `i`. -/
structure Shape (pos len i : ℕ) (s : Filling) : Prop where
  buf : s.buf = fsBlocksize dev f * i - pos
  first : i = pos / fsBlocksize dev f → s.delayed = none
  small : ∀ d, s.delayed = some d → d.extent ≤ len
  joined : fsBlocksize dev f * i < pos + len → ∀ d, s.delayed = some d → d.buf + d.extent = s.buf

structure Progress (pos len i w : ℕ) (s : Filling) : Prop extends Shape dev f pos len i s where
  bytes : ∀ k, pending dev s k = if k < w then some (fileByte dev f block (pos + k)) else none
  ends : ∀ d, s.delayed = some d → d.start * dev.blksz + d.skipfirst + d.extent =
    block (i - 1) * fsBlocksize dev f + (blockTo dev f pos len (i - 1) - fsBlocksize dev f * (i - 1))
  waits : i ≠ pos / fsBlocksize dev f → (block (i - 1) ≠ 0 ↔ s.delayed ≠ none)
  chained : fsBlocksize dev f * i < pos + len → ∀ d, s.delayed = some d → Chained dev f block pos i d

end Read

section Step

variable {dev : Device} {f : ℕ} {block : ℕ → ℕ} {pos len i w : ℕ} {s s' : Filling}

theorem flush_pending (hsmall : ∀ d, s.delayed = some d → d.extent < 2 ^ 32)
    (hlost : ∀ d, s.delayed = some d → lost dev (d.start * dev.blksz + d.skipfirst + d.extent) = 0)
    (hflush : flush dev s = some s') :
    s'.stored = pending dev s := by
  rw [flush] at hflush
  unfold pending
  cases hd : s.delayed with
  | none =>
    rw [hd] at hflush
    obtain rfl := some.inj hflush
    rfl
  | some d =>
    rw [hd] at hflush
    obtain ⟨bytes, hread, rfl⟩ := map_eq_some_iff.mp hflush
    obtain ⟨hbytes, -⟩ := devread_eq (hsmall d hd) hread
    rw [← bytes_of_lost (hlost d hd)] at hbytes
    rw [hbytes]

theorem fileByte_block {q : ℕ} (hlo : fsBlocksize dev f * i ≤ q) (hhi : q < fsBlocksize dev f * (i + 1)) :
    fileByte dev f block q = if block i = 0 then 0
      else dev.byte (block i * fsBlocksize dev f + (q - fsBlocksize dev f * i)) := by
  have hdiv : q / fsBlocksize dev f = i :=
    Nat.div_eq_of_lt_le (by rwa [Nat.mul_comm]) (by rwa [Nat.mul_comm])
  have hmod : q % fsBlocksize dev f = q - fsBlocksize dev f * i := by
    have h := div_add_mod q (fsBlocksize dev f)
    rw [hdiv] at h
    lia
  rw [fileByte]
  simp only [hdiv, hmod]

theorem bytes_block {n : ℕ} (hmap : block i ≠ 0) (hfrom : fsBlocksize dev f * i ≤ pos + w)
    (hto : pos + w + n ≤ fsBlocksize dev f * (i + 1)) (j : ℕ)
    (hj : j < (dev.bytes (block i * fsBlocksize dev f + (pos + w - fsBlocksize dev f * i)) n).length) :
    (dev.bytes (block i * fsBlocksize dev f + (pos + w - fsBlocksize dev f * i)) n)[j] =
      fileByte dev f block (pos + (w + j)) := by
  have hjn : j < n := by rwa [length_bytes] at hj
  rw [fileByte_block (i := i) (by lia) (by lia), if_neg hmap]
  simp only [Device.bytes, getElem_map, getElem_range]
  congr 1
  lia

/- What the loop does for a block, whatever the numbers are that it keeps the delayed read in. -/
def Stepped (dev : Device) (f : ℕ) (block : ℕ → ℕ) (pos len i : ℕ) (s s' : Filling) : Prop :=
  let skip := blockFrom dev f pos i - fsBlocksize dev f * i
  let n := blockTo dev f pos len i - blockFrom dev f pos i
  let buf := s.buf + (fsBlocksize dev f - skip)
  (block i = 0 ∧ ∃ t, flush dev s = some t ∧
    s' = ⟨storeAt t.stored s.buf (List.replicate (fsBlocksize dev f - skip) 0), buf, none⟩) ∨
  (block i ≠ 0 ∧ ∃ d, s.delayed = some d ∧ d.next = block i <<< f ∧
    s' = ⟨s.stored, buf, some ⟨d.start, d.extent + n, d.skipfirst, d.next + n / dev.blksz, d.buf⟩⟩) ∨
  block i ≠ 0 ∧ (∀ d, s.delayed = some d → d.next ≠ block i <<< f) ∧ ∃ t, flush dev s = some t ∧
    s' = ⟨t.stored, buf, some ⟨block i <<< f, n, skip, block i <<< f + n / dev.blksz, s.buf⟩⟩

section Numbers

variable {blockcnt : ℕ} {map : BlockMap f} {s s' : Reading}

theorem spill_filling : (spill dev s).map Reading.filling = flush dev s.filling := by
  rw [spill, flush, Reading.filling]
  split
  · rw [map_some, Reading.filling, if_pos ‹_›]
  · dsimp only
    rw [Option.map_map]
    rfl

theorem spill_buf (h : spill dev s = some s') :
    s'.buf = s.buf ∧ s'.previousBlockNumber = noBlock := by
  rw [spill] at h
  split at h
  next hprev =>
    obtain rfl := some.inj h
    exact ⟨rfl, hprev⟩
  next =>
    obtain ⟨bytes, -, rfl⟩ := map_eq_some_iff.mp h
    exact ⟨rfl, rfl⟩

theorem flush_filling (h : spill dev s = some s') : flush dev s.filling = some s'.filling := by
  rw [← spill_filling, h, map_some]

theorem blknr_block (h : 0 ≤ map.long i) : map.blknr i = map.block i <<< f := by
  have hfits := map.fits i
  rw [abs_of_nonneg h] at hfits
  have hsector : (0 : ℤ) ≤ map.long i * 2 ^ f := Int.mul_nonneg h (by positivity)
  rw [BlockMap.blknr, BlockMap.block, Int.emod_eq_of_lt hsector (by lia), shiftLeft_eq,
    Int.toNat_mul h (by positivity)]
  norm_cast

theorem blknr_lt (h : 0 ≤ map.long i) : map.block i <<< f < 2 ^ 63 := by
  have hfits := map.fits i
  rw [abs_of_nonneg h, ← Int.toNat_of_nonneg h] at hfits
  rw [shiftLeft_eq]
  exact_mod_cast hfits

/- Where the loop is in the block `i`: how it skips and where it ends there. -/
theorem readStep_range
    (hcnt : blockcnt = (len + pos + fsBlocksize dev f - 1) / fsBlocksize dev f)
    (hfrom : pos / fsBlocksize dev f ≤ i) (hto : fsBlocksize dev f * i < pos + len) :
    (if i = pos / fsBlocksize dev f then pos - fsBlocksize dev f * i else 0) =
        blockFrom dev f pos i - fsBlocksize dev f * i ∧
      (if i = blockcnt - 1 then (if len + pos - fsBlocksize dev f * i = 0 then fsBlocksize dev f
          else len + pos - fsBlocksize dev f * i) else fsBlocksize dev f) =
        blockTo dev f pos len i - fsBlocksize dev f * i ∧
      blockTo dev f pos len i - fsBlocksize dev f * i -
          (blockFrom dev f pos i - fsBlocksize dev f * i) =
        blockTo dev f pos len i - blockFrom dev f pos i := by
  have hpos := fsBlocksize_pos dev f
  generalize hbs : fsBlocksize dev f = bs at *
  have hdiv : bs * (pos / bs) + pos % bs = pos := div_add_mod _ _
  have hmod : pos % bs < bs := mod_lt _ hpos
  have hnext : bs * (i + 1) = bs * i + bs := mul_succ _ _
  have hlast : i = blockcnt - 1 ↔ pos + len ≤ bs * (i + 1) := by
    have hc : bs * blockcnt < pos + len + bs ∧ pos + len ≤ bs * blockcnt := by
      rw [hcnt]
      have h₁ := div_add_mod (len + pos + bs - 1) bs
      have h₂ := mod_lt (len + pos + bs - 1) hpos
      lia
    constructor
    · intro hi
      have hge : bs * blockcnt ≤ bs * (i + 1) := Nat.mul_le_mul_left _ (by lia)
      lia
    · intro hi
      have hlt : bs * blockcnt < bs * (i + 2) := by
        rw [Nat.mul_add bs i 2]
        lia
      have hgt : bs * i < bs * blockcnt := by lia
      have h₁ := Nat.lt_of_mul_lt_mul_left hlt
      have h₂ := Nat.lt_of_mul_lt_mul_left hgt
      lia
  refine ⟨?_, ?_, ?_⟩
  · rw [blockFrom, hbs]
    split
    next hi => rw [hi]; lia
    next hi =>
      have hle : bs * (pos / bs + 1) ≤ bs * i := Nat.mul_le_mul_left _ (by lia)
      rw [Nat.mul_add] at hle
      lia
  · rw [blockTo, hbs]
    by_cases hi : i = blockcnt - 1
    · rw [if_pos hi, if_neg (by lia)]
      have := hlast.mp hi
      lia
    · rw [if_neg hi]
      have := mt hlast.mpr hi
      lia
  · rw [blockFrom, hbs]
    lia

theorem readStep_stepped
    (hcnt : blockcnt = (len + pos + fsBlocksize dev f - 1) / fsBlocksize dev f)
    (hfrom : pos / fsBlocksize dev f ≤ i) (hto : fsBlocksize dev f * i < pos + len)
    (hlong : 0 ≤ map.long i) (h : readStep dev f map pos len blockcnt i s = some s') :
    Stepped dev f map.block pos len i s.filling s'.filling := by
  obtain ⟨hskip, hend, hn⟩ := readStep_range hcnt hfrom hto
  have hlt := blknr_lt hlong
  have hblknr : map.block i <<< f = 0 ↔ map.block i = 0 := by
    rw [shiftLeft_eq, Nat.mul_eq_zero]
    have : 2 ^ f ≠ 0 := (Nat.two_pow_pos f).ne'
    tauto
  -- the block is no longer than one of the file system
  have hsectors : map.block i ≠ 0 →
      map.block i <<< f + (blockTo dev f pos len i - blockFrom dev f pos i) / dev.blksz < 2 ^ 64 := by
    intro hmap
    have hle : 1 * 2 ^ f ≤ map.block i * 2 ^ f := Nat.mul_le_mul_right _ (by lia)
    have hdiv : (blockTo dev f pos len i - blockFrom dev f pos i) / dev.blksz ≤
        fsBlocksize dev f / dev.blksz := by
      apply Nat.div_le_div_right
      rw [blockTo, blockFrom, mul_succ]
      lia
    rw [fsBlocksize_eq, Nat.mul_div_cancel _ (blksz_pos dev)] at hdiv
    rw [shiftLeft_eq] at hlt ⊢
    lia
  unfold readStep at h
  simp only [hskip, hend, hn, blknr_block hlong] at h
  by_cases hmap : map.block i = 0
  · rw [if_neg (by rw [not_not]; exact hblknr.mpr hmap)] at h
    obtain ⟨t, ht, rfl⟩ := map_eq_some_iff.mp h
    obtain ⟨hb, hd⟩ := spill_buf ht
    refine .inl ⟨hmap, t.filling, flush_filling ht, ?_⟩
    simp only [Reading.filling, hb, hd, if_true]
  · rw [if_pos (mt hblknr.mp hmap)] at h
    have hnone : map.block i <<< f ≠ noBlock := by
      rw [noBlock]
      lia
    have hmod := Nat.mod_eq_of_lt (hsectors hmap)
    by_cases hprev : s.previousBlockNumber = noBlock
    · rw [if_neg (not_not.mpr hprev), hmod] at h
      obtain rfl := some.inj h
      refine .inr (.inr ⟨hmap, ?_, s.filling, ?_, ?_⟩)
      · intro d hd
        rw [Reading.filling, if_pos hprev] at hd
        cases hd
      · rw [flush, Reading.filling, if_pos hprev]
      · simp only [Reading.filling, if_neg hnone]
    · rw [if_pos hprev] at h
      by_cases hmerge : s.delayed.next = map.block i <<< f
      · rw [if_pos hmerge, hmerge, hmod] at h
        obtain rfl := some.inj h
        refine .inr (.inl ⟨hmap, s.delayed, if_neg hprev, hmerge, ?_⟩)
        simp only [Reading.filling, if_neg hprev, hmerge]
      · rw [if_neg hmerge, hmod] at h
        obtain ⟨t, ht, rfl⟩ := map_eq_some_iff.mp h
        obtain ⟨hb, -⟩ := spill_buf ht
        refine .inr (.inr ⟨hmap, ?_, t.filling, flush_filling ht, ?_⟩)
        · intro d hd
          rw [Reading.filling, if_neg hprev] at hd
          rwa [← some.inj hd]
        · simp only [Reading.filling, if_neg hnone, hb]

end Numbers

theorem flush_progress (hlen : len < 2 ^ 32) (hfrom : pos / fsBlocksize dev f ≤ i)
    (hto : fsBlocksize dev f * i < pos + len) (h : Progress dev f block pos len i w s)
    (hflush : flush dev s = some s') : s'.stored = pending dev s := by
  apply flush_pending (fun d hd => Nat.lt_of_le_of_lt (h.small d hd) hlen) _ hflush
  intro d hd
  have hi : i ≠ 0 := by
    intro hi
    rw [h.first (Nat.le_antisymm (hi ▸ Nat.zero_le _) hfrom)] at hd
    cases hd
  rw [h.ends d hd]
  apply lost_of_aligned
  obtain ⟨j, rfl⟩ := exists_eq_succ_of_ne_zero hi
  have hnext : fsBlocksize dev f * j.succ = fsBlocksize dev f * j + fsBlocksize dev f :=
    mul_succ _ _
  rw [succ_sub_one, blockTo, Nat.min_eq_left (Nat.le_of_lt hto), hnext, Nat.add_sub_cancel_left,
    ← succ_mul, fsBlocksize_eq, ← Nat.mul_assoc]
  exact mul_mod_left _ _

theorem step_shape (hfrom : pos / fsBlocksize dev f ≤ i) (hto : fsBlocksize dev f * i < pos + len)
    (h : Shape dev f pos len i s) (hstep : Stepped dev f block pos len i s s') :
    Shape dev f pos len (i + 1) s' := by
  have hnext := Nat.mul_add_one (fsBlocksize dev f) i
  have hpos : pos < fsBlocksize dev f * (i + 1) := lt_block_end (by lia)
  have hbuf := h.buf
  have hbuf' : s.buf + (fsBlocksize dev f - (blockFrom dev f pos i - fsBlocksize dev f * i)) =
      fsBlocksize dev f * (i + 1) - pos := by
    rw [blockFrom]
    lia
  cases hstep with
  | inl hole =>
    obtain ⟨-, t, -, rfl⟩ := hole
    constructor
    · exact hbuf'
    · intro hi
      lia
    · intro d hd
      cases hd
    · intro _ d hd
      cases hd
  | inr hread =>
    cases hread with
    | inl hmerge =>
      obtain ⟨-, d, hd, -, rfl⟩ := hmerge
      have hjoined := h.joined hto d hd
      -- it is not the first block
      have hne : i ≠ pos / fsBlocksize dev f := by
        intro hi
        rw [h.first hi] at hd
        cases hd
      have hle : pos ≤ fsBlocksize dev f * i := Nat.le_of_lt (lt_block_end (by lia))
      constructor
      · exact hbuf'
      · intro hi
        lia
      · intro e he
        obtain rfl := some.inj he
        change d.extent + (blockTo dev f pos len i - blockFrom dev f pos i) ≤ len
        rw [blockFrom, blockTo]
        lia
      · intro hmore e he
        obtain rfl := some.inj he
        change d.buf + (d.extent + (blockTo dev f pos len i - blockFrom dev f pos i)) =
          s.buf + (fsBlocksize dev f - (blockFrom dev f pos i - fsBlocksize dev f * i))
        rw [blockFrom, blockTo]
        lia
    | inr hfresh =>
      obtain ⟨-, -, t, -, rfl⟩ := hfresh
      constructor
      · exact hbuf'
      · intro hi
        lia
      · intro d hd
        obtain rfl := some.inj hd
        change blockTo dev f pos len i - blockFrom dev f pos i ≤ len
        rw [blockFrom, blockTo]
        lia
      · intro hmore d hd
        obtain rfl := some.inj hd
        change s.buf + (blockTo dev f pos len i - blockFrom dev f pos i) =
          s.buf + (fsBlocksize dev f - (blockFrom dev f pos i - fsBlocksize dev f * i))
        rw [blockFrom, blockTo]
        lia

section Kinds

variable (hlen : len < 2 ^ 32)
  (hfrom : pos / fsBlocksize dev f ≤ i) (hto : fsBlocksize dev f * i < pos + len)
  (hw : w = fsBlocksize dev f * i - pos) (h : Progress dev f block pos len i w s)

include hlen hfrom hto hw h in
theorem hole_progress {t : Filling} (hmap : block i = 0) (hflush : flush dev s = some t)
    (hs : s' = ⟨storeAt t.stored s.buf (List.replicate
        (fsBlocksize dev f - (blockFrom dev f pos i - fsBlocksize dev f * i)) 0),
        s.buf + (fsBlocksize dev f - (blockFrom dev f pos i - fsBlocksize dev f * i)), none⟩)
    (hshape : Shape dev f pos len (i + 1) s') :
    Progress dev f block pos len (i + 1) (reach dev f block pos len i) s' := by
  have hpos : pos < fsBlocksize dev f * (i + 1) := lt_block_end (by lia)
  have hstored := flush_progress hlen hfrom hto h hflush
  have hbuf := h.buf
  have hreach : reach dev f block pos len i = s.buf +
      (fsBlocksize dev f - (blockFrom dev f pos i - fsBlocksize dev f * i)) := by
    rw [reach, if_pos hmap, blockFrom]
    lia
  refine ⟨hshape, ?_, ?_, ?_, ?_⟩
  · intro k
    have hzeros : ∀ j (hj : j < (List.replicate (fsBlocksize dev f -
        (blockFrom dev f pos i - fsBlocksize dev f * i)) (0 : UInt8)).length),
        (List.replicate (fsBlocksize dev f -
          (blockFrom dev f pos i - fsBlocksize dev f * i)) 0)[j] =
          fileByte dev f block (pos + (w + j)) := by
      intro j hj
      rw [length_replicate, blockFrom] at hj
      rw [fileByte_block (i := i) (by lia) (by lia), if_pos hmap, getElem_replicate]
    have hfill := storeAt_fill h.bytes hzeros k
    rw [length_replicate, hw, ← hbuf, ← hreach] at hfill
    rw [hs, pending, hstored]
    exact hfill
  · intro d hd
    rw [hs] at hd
    cases hd
  · intro _
    rw [hs, Nat.add_sub_cancel]
    exact ⟨fun hne => absurd hmap hne, fun hne => absurd rfl hne⟩
  · intro _ d hd
    rw [hs] at hd
    cases hd

include hfrom hto hw h in
theorem mapped_fill (hmap : block i ≠ 0) (k : ℕ) :
    storeAt (pending dev s) s.buf (dev.bytes (block i * fsBlocksize dev f +
      (blockFrom dev f pos i - fsBlocksize dev f * i))
      (blockTo dev f pos len i - blockFrom dev f pos i)) k =
    if k < reach dev f block pos len i then some (fileByte dev f block (pos + k)) else none := by
  have hposlt : pos < fsBlocksize dev f * (i + 1) := lt_block_end (by lia)
  have hbuf := h.buf
  have hoff : blockFrom dev f pos i - fsBlocksize dev f * i =
      pos + w - fsBlocksize dev f * i := by
    rw [blockFrom]
    lia
  have hfill := storeAt_fill h.bytes (bytes_block (n := blockTo dev f pos len i -
    blockFrom dev f pos i) hmap (by lia) (by rw [blockFrom, blockTo]; lia)) k
  have hreach : w + (blockTo dev f pos len i - blockFrom dev f pos i) =
      reach dev f block pos len i := by
    rw [reach, if_neg hmap, blockFrom, blockTo]
    lia
  rwa [length_bytes, ← hoff, hreach, hw, ← hbuf] at hfill

include hlen hfrom hto hw h in
theorem fresh_progress {t : Filling} (hmap : block i ≠ 0) (hflush : flush dev s = some t)
    (hs : s' = ⟨t.stored,
        s.buf + (fsBlocksize dev f - (blockFrom dev f pos i - fsBlocksize dev f * i)),
        some ⟨block i <<< f, blockTo dev f pos len i - blockFrom dev f pos i,
          blockFrom dev f pos i - fsBlocksize dev f * i,
          block i <<< f + (blockTo dev f pos len i - blockFrom dev f pos i) / dev.blksz, s.buf⟩⟩)
    (hshape : Shape dev f pos len (i + 1) s') :
    Progress dev f block pos len (i + 1) (reach dev f block pos len i) s' := by
  have hnext := Nat.mul_add_one (fsBlocksize dev f) i
  have hposlt : pos < fsBlocksize dev f * (i + 1) := lt_block_end (by lia)
  have hstored := flush_progress hlen hfrom hto h hflush
  have hbuf := h.buf
  have hle : fsBlocksize dev f * i ≤ blockFrom dev f pos i ∧
      blockFrom dev f pos i ≤ blockTo dev f pos len i := by
    rw [blockFrom, blockTo]
    lia
  refine ⟨hshape, ?_, ?_, ?_, ?_⟩
  · intro k
    simp only [hs, pending, hstored]
    rw [shift_blksz]
    exact mapped_fill hfrom hto hw h hmap k
  · intro d hd
    rw [hs] at hd
    obtain rfl := some.inj hd
    simp only [shift_blksz, Nat.add_sub_cancel]
    lia
  · intro _
    rw [hs, Nat.add_sub_cancel]
    exact ⟨fun _ => some_ne_none _, fun _ => hmap⟩
  · intro hmore d hd
    rw [hs] at hd
    obtain rfl := some.inj hd
    -- the block is read to its end
    have hfull : blockTo dev f pos len i - blockFrom dev f pos i =
        fsBlocksize dev f - (blockFrom dev f pos i - fsBlocksize dev f * i) := by
      rw [blockFrom, blockTo]
      lia
    rw [hfull]
    by_cases hz : blockFrom dev f pos i - fsBlocksize dev f * i = 0
    · rw [hz, Nat.sub_zero]
      have hsize := fsBlocksize_eq dev f
      exact .inl ⟨rfl, by rw [hsize, Nat.mul_div_cancel _ (blksz_pos dev), Nat.add_mul]⟩
    · have hi : i = pos / fsBlocksize dev f := by
        by_contra hne
        have hlt : pos < fsBlocksize dev f * i := lt_block_end (by lia)
        rw [blockFrom] at hz
        lia
      have hdiv := div_add_mod pos (fsBlocksize dev f)
      rw [← hi] at hdiv
      have hskipmod : blockFrom dev f pos i - fsBlocksize dev f * i = pos % fsBlocksize dev f := by
        rw [blockFrom]
        lia
      exact .inr ⟨hskipmod, hz, by rw [← hi], by rw [← hi], rfl, rfl⟩

theorem chained_goes_on {d : Delayed} (hstraight : Straight dev f block pos len) (hmap : block i ≠ 0)
    (hto : fsBlocksize dev f * i < pos + len) (hmerge : d.next = block i <<< f)
    (h : Chained dev f block pos i d) :
    d.skipfirst = 0 ∧ d.start * dev.blksz + d.extent = block i * fsBlocksize dev f := by
  have hsize := fsBlocksize_eq dev f
  have hblksz := blksz_pos dev
  have hmodpos := mod_lt pos (fsBlocksize_pos dev f)
  cases h with
  | inl hgo => exact ⟨hgo.1, by rw [← hgo.2, hmerge, shift_blksz]⟩
  | inr hfirst =>
    obtain ⟨hskip, hskip0, hi, hstart, hextent, hnxt⟩ := hfirst
    exfalso
    rw [hmerge, hstart, shiftLeft_eq, shiftLeft_eq] at hnxt
    have hsmall : d.extent / dev.blksz < 2 ^ f := by
      rw [Nat.div_lt_iff_lt_mul hblksz, ← hsize]
      lia
    have hzero : d.extent / dev.blksz = 0 := by
      have hmod := congrArg (· % 2 ^ f) hnxt
      simp only [mul_mod_left, Nat.mul_comm (block (pos / fsBlocksize dev f)) (2 ^ f),
        mul_add_mod, mod_eq_of_lt hsmall] at hmod
      exact hmod.symm
    rw [hzero, Nat.add_zero] at hnxt
    have hsame := eq_of_mul_eq_mul_right (Nat.two_pow_pos f) hnxt
    have hlt : d.extent < dev.blksz := by
      by_contra hge
      have := Nat.div_pos (Nat.le_of_not_lt hge) hblksz
      lia
    rw [hi] at hsame hto hmap
    exact hstraight (by lia) hto (by rwa [← hsame]) hsame

include hto hw h in
theorem merge_progress {d : Delayed} (hstraight : Straight dev f block pos len) (hmap : block i ≠ 0)
    (hd : s.delayed = some d) (hmerge : d.next = block i <<< f)
    (hs : s' = ⟨s.stored,
        s.buf + (fsBlocksize dev f - (blockFrom dev f pos i - fsBlocksize dev f * i)),
        some ⟨d.start, d.extent + (blockTo dev f pos len i - blockFrom dev f pos i), d.skipfirst,
          d.next + (blockTo dev f pos len i - blockFrom dev f pos i) / dev.blksz, d.buf⟩⟩)
    (hfrom : pos / fsBlocksize dev f ≤ i) (hshape : Shape dev f pos len (i + 1) s') :
    Progress dev f block pos len (i + 1) (reach dev f block pos len i) s' := by
  have hnext := Nat.mul_add_one (fsBlocksize dev f) i
  have hsize := fsBlocksize_eq dev f
  have hbuf := h.buf
  have hne : i ≠ pos / fsBlocksize dev f := by
    intro hi
    rw [h.first hi] at hd
    cases hd
  have hle : pos ≤ fsBlocksize dev f * i := Nat.le_of_lt (lt_block_end (by lia))
  have hfrom' : blockFrom dev f pos i = fsBlocksize dev f * i := by
    rw [blockFrom]
    lia
  obtain ⟨hskip, hstart⟩ := chained_goes_on hstraight hmap hto hmerge (h.chained hto d hd)
  refine ⟨hshape, ?_, ?_, ?_, ?_⟩
  · intro k
    rw [← mapped_fill hfrom hto hw h hmap, hfrom', Nat.sub_self]
    simp only [hs, pending, hd, hskip, Nat.add_zero]
    rw [bytes_append, storeAt_append, length_bytes, hstart, h.joined hto d hd, hfrom']
  · intro e he
    rw [hs] at he
    obtain rfl := some.inj he
    simp only [hskip, hfrom', Nat.add_sub_cancel, Nat.add_zero]
    lia
  · intro _
    rw [hs, Nat.add_sub_cancel]
    exact ⟨fun _ => some_ne_none _, fun _ => hmap⟩
  · intro hmore e he
    rw [hs] at he
    obtain rfl := some.inj he
    have hfull : blockTo dev f pos len i - blockFrom dev f pos i = fsBlocksize dev f := by
      rw [hfrom', blockTo]
      lia
    rw [hfull]
    refine .inl ⟨hskip, ?_⟩
    change (d.next + fsBlocksize dev f / dev.blksz) * dev.blksz =
      d.start * dev.blksz + (d.extent + fsBlocksize dev f)
    rw [← Nat.add_assoc, hstart, Nat.add_mul, hmerge, shift_blksz, hsize,
      Nat.mul_div_cancel _ (blksz_pos dev)]

end Kinds

theorem step_progress (hlen : len < 2 ^ 32) (hstraight : Straight dev f block pos len)
    (hfrom : pos / fsBlocksize dev f ≤ i) (hto : fsBlocksize dev f * i < pos + len)
    (h : Progress dev f block pos len i (fsBlocksize dev f * i - pos) s)
    (hstep : Stepped dev f block pos len i s s') :
    Progress dev f block pos len (i + 1) (reach dev f block pos len i) s' := by
  have hshape := step_shape hfrom hto h.toShape hstep
  cases hstep with
  | inl hole =>
    obtain ⟨hmap, t, hflush, hs⟩ := hole
    exact hole_progress hlen hfrom hto rfl h hmap hflush hs hshape
  | inr hread =>
    cases hread with
    | inl hmerge =>
      obtain ⟨hmap, d, hd, hnext, hs⟩ := hmerge
      exact merge_progress hto rfl h hstraight hmap hd hnext hs hfrom hshape
    | inr hfresh =>
      obtain ⟨hmap, -, t, hflush, hs⟩ := hfresh
      exact fresh_progress hlen hfrom hto rfl h hmap hflush hs hshape

theorem readLoop_succ {map : BlockMap f} {blockcnt m : ℕ} {s s' : Reading}
    (h : readLoop dev f map pos len blockcnt (m + 1) i s = some s') :
    ∃ t, readStep dev f map pos len blockcnt i s = some t ∧
      readLoop dev f map pos len blockcnt m (i + 1) t = some s' := by
  rw [readLoop] at h
  cases hstep : readStep dev f map pos len blockcnt i s with
  | none =>
    rw [hstep] at h
    cases h
  | some t => exact ⟨t, rfl, by rwa [hstep] at h⟩

/- No block of the range is an error of `read_allocated_block`. -/
def RangeMapped (dev : Device) (f : ℕ) (map : BlockMap f) (pos len : ℕ) : Prop :=
  ∀ i, pos / fsBlocksize dev f ≤ i → fsBlocksize dev f * i < pos + len → 0 ≤ map.long i

theorem loop_progress {map : BlockMap f} {blockcnt : ℕ} (hlen : len < 2 ^ 32)
    (hcnt : blockcnt = (len + pos + fsBlocksize dev f - 1) / fsBlocksize dev f)
    (hstraight : Straight dev f map.block pos len) (hmapped : RangeMapped dev f map pos len) (m : ℕ) :
    ∀ {i : ℕ} {s s' : Reading}, pos / fsBlocksize dev f ≤ i →
      fsBlocksize dev f * (i + m) < pos + len →
      Progress dev f map.block pos len i (fsBlocksize dev f * i - pos) s.filling →
      readLoop dev f map pos len blockcnt (m + 1) i s = some s' →
      Progress dev f map.block pos len (i + m + 1) (reach dev f map.block pos len (i + m))
        s'.filling := by
  induction m with
  | zero =>
    intro i s s' hfrom hto h hloop
    obtain ⟨t, hstep, hloop⟩ := readLoop_succ hloop
    obtain rfl := some.inj hloop
    exact step_progress hlen hstraight hfrom hto h
      (readStep_stepped hcnt hfrom hto (hmapped i hfrom hto) hstep)
  | succ m ih =>
    intro i s s' hfrom hto h hloop
    obtain ⟨t, hstep, hloop⟩ := readLoop_succ hloop
    have ht := step_progress hlen hstraight hfrom (by lia) h
      (readStep_stepped hcnt hfrom (by lia) (hmapped i hfrom (by lia)) hstep)
    -- the block is not the last one
    have hreach : reach dev f map.block pos len i = fsBlocksize dev f * (i + 1) - pos := by
      rw [reach, blockTo, Nat.min_eq_left (by lia), ite_self]
    rw [hreach] at ht
    have hsum : i + (m + 1) = i + 1 + m := by lia
    rw [hsum] at hto ⊢
    exact ih (by lia) hto ht hloop

/- How much of the buffer is filled: up to the end of the range, or of the block it ends in. -/
def filled (dev : Device) (f : ℕ) (block : ℕ → ℕ) (pos len : ℕ) : ℕ :=
  if (pos + len) % fsBlocksize dev f ≠ 0 ∧ block ((pos + len) / fsBlocksize dev f) = 0 then
    fsBlocksize dev f * ((pos + len) / fsBlocksize dev f + 1) - pos
  else len

theorem filled_eq : filled dev f block pos len = len ↔
    ((pos + len) % fsBlocksize dev f ≠ 0 → block ((pos + len) / fsBlocksize dev f) ≠ 0) := by
  have hdivend := div_add_mod (pos + len) (fsBlocksize dev f)
  have hmodend := mod_lt (pos + len) (fsBlocksize_pos dev f)
  rw [filled]
  split
  next hhole =>
    rw [mul_succ]
    constructor
    · intro heq
      lia
    · intro hno
      exact absurd hhole.2 (hno hhole.1)
  next hhole => exact ⟨fun _ hmod hmap => hhole ⟨hmod, hmap⟩, fun _ => rfl⟩

theorem mod_of_sectors (h : (pos + len) % dev.blksz ≠ 0) : (pos + len) % fsBlocksize dev f ≠ 0 := by
  intro hz
  apply h
  obtain ⟨q, hq⟩ := dvd_of_mod_eq_zero hz
  rw [hq, fsBlocksize_eq, Nat.mul_comm (2 ^ f), Nat.mul_assoc]
  exact mul_mod_right _ _

theorem endAddress_mod : endAddress dev f block pos len % dev.blksz = (pos + len) % dev.blksz := by
  rw [endAddress, fsBlocksize_eq, ← Nat.mul_assoc, Nat.mul_comm, mul_add_mod, mod_mul_left_mod]

/- When all the blocks are read the delayed read is that of the last block. -/
structure Ended (dev : Device) (f : ℕ) (block : ℕ → ℕ) (pos len : ℕ) (s : Filling) : Prop where
  bytes : ∀ k, pending dev s k = if k < filled dev f block pos len then
    some (fileByte dev f block (pos + k)) else none
  small : ∀ d, s.delayed = some d → d.extent ≤ len
  inside : (pos + len) % dev.blksz ≠ 0 →
    (block ((pos + len) / fsBlocksize dev f) ≠ 0 ↔ s.delayed ≠ none) ∧
      ∀ d, s.delayed = some d →
        d.start * dev.blksz + d.skipfirst + d.extent = endAddress dev f block pos len
  whole : (pos + len) % dev.blksz = 0 → ∀ d, s.delayed = some d →
    (d.start * dev.blksz + d.skipfirst + d.extent) % dev.blksz = 0

theorem start_shape : Shape dev f pos len (pos / fsBlocksize dev f) readStart.filling := by
  refine ⟨(Nat.sub_eq_zero_of_le (mul_div_le _ _)).symm, fun _ => rfl, ?_, ?_⟩
  · intro d hd
    cases hd
  · intro _ d hd
    cases hd

theorem start_progress : Progress dev f block pos len (pos / fsBlocksize dev f)
    (fsBlocksize dev f * (pos / fsBlocksize dev f) - pos) readStart.filling := by
  rw [Nat.sub_eq_zero_of_le (mul_div_le _ _)]
  refine ⟨start_shape, ?_, ?_, ?_, ?_⟩
  · intro k
    rw [if_neg (Nat.not_lt_zero k)]
    rfl
  · intro d hd
    cases hd
  · intro hne
    exact absurd rfl hne
  · intro _ d hd
    cases hd

/- There is no block to read. -/
theorem ended_start (hblocks : (len + pos + fsBlocksize dev f - 1) / fsBlocksize dev f ≤
    pos / fsBlocksize dev f) : Ended dev f block pos len readStart.filling := by
  have hdivpos := div_add_mod pos (fsBlocksize dev f)
  have hmodpos := mod_lt pos (fsBlocksize_pos dev f)
  have hle := Nat.mul_le_mul_left (fsBlocksize dev f) hblocks
  have h₁ := div_add_mod (len + pos + fsBlocksize dev f - 1) (fsBlocksize dev f)
  have h₂ := mod_lt (len + pos + fsBlocksize dev f - 1) (fsBlocksize_pos dev f)
  have hlen : len = 0 := by lia
  have hzero : (pos + len) % fsBlocksize dev f = 0 := by
    rw [hlen, Nat.add_zero]
    lia
  constructor
  · intro k
    have hfilled : filled dev f block pos len = 0 := by
      rw [filled, if_neg (fun hmod => hmod.1 hzero), hlen]
    rw [hfilled, if_neg (Nat.not_lt_zero k)]
    rfl
  · intro d hd
    cases hd
  · intro hne
    exact absurd hzero (mod_of_sectors hne)
  · intro _ d hd
    cases hd

/- What the last block is filled to is the end of the range, or of the block. -/
theorem reach_last (hlo : fsBlocksize dev f * i < pos + len)
    (hhi : pos + len ≤ fsBlocksize dev f * (i + 1)) :
    reach dev f block pos len i = filled dev f block pos len ∧
      ((pos + len) % fsBlocksize dev f ≠ 0 → (pos + len) / fsBlocksize dev f = i) := by
  have hnext := Nat.mul_add_one (fsBlocksize dev f) i
  -- a range that ends inside a block ends inside the last one
  have hdiv : (pos + len) % fsBlocksize dev f ≠ 0 → (pos + len) / fsBlocksize dev f = i := by
    intro hz
    apply Nat.div_eq_of_lt_le
    · rw [Nat.mul_comm]
      lia
    · rw [Nat.mul_comm]
      have hne : pos + len ≠ fsBlocksize dev f * (i + 1) := by
        intro hfull
        rw [hfull, mul_mod_right] at hz
        exact hz rfl
      lia
  refine ⟨?_, hdiv⟩
  rw [reach, blockTo, Nat.min_eq_right hhi, filled]
  by_cases hz : (pos + len) % fsBlocksize dev f = 0
  · have hnone : ¬((pos + len) % fsBlocksize dev f ≠ 0 ∧
        block ((pos + len) / fsBlocksize dev f) = 0) := fun hmod => hmod.1 hz
    rw [if_neg hnone]
    have hfull : pos + len = fsBlocksize dev f * (i + 1) := by
      obtain ⟨q, hq⟩ := dvd_of_mod_eq_zero hz
      rw [hq] at hlo hhi ⊢
      have h₁ := Nat.lt_of_mul_lt_mul_left hlo
      have h₂ := Nat.le_of_mul_le_mul_left hhi (fsBlocksize_pos dev f)
      congr 1
      lia
    split <;> lia
  · rw [hdiv hz]
    by_cases hmap : block i = 0
    · rw [if_pos hmap, if_pos ⟨hz, hmap⟩]
    · rw [if_neg hmap, if_neg (fun hhole => hmap hhole.2)]
      lia

theorem ended_progress (hfrom : pos / fsBlocksize dev f ≤ i) (hlo : fsBlocksize dev f * i < pos + len)
    (hhi : pos + len ≤ fsBlocksize dev f * (i + 1))
    (h : Progress dev f block pos len (i + 1) (reach dev f block pos len i) s) :
    Ended dev f block pos len s := by
  have hdivend := div_add_mod (pos + len) (fsBlocksize dev f)
  obtain ⟨hreach, hdiv⟩ := @reach_last dev f block pos len i hlo hhi
  have hends := h.ends
  have hwaits := h.waits (by lia)
  rw [Nat.add_sub_cancel, blockTo, Nat.min_eq_right hhi] at hends
  rw [Nat.add_sub_cancel] at hwaits
  constructor
  · rw [← hreach]
    exact h.bytes
  · exact h.small
  · intro hne
    have hz := mod_of_sectors (f := f) hne
    rw [endAddress, hdiv hz]
    refine ⟨hwaits, ?_⟩
    intro d hd
    rw [hends d hd]
    rw [hdiv hz] at hdivend
    lia
  · intro hz d hd
    rw [hends d hd]
    have hsum : block i * fsBlocksize dev f + (pos + len - fsBlocksize dev f * i) +
        dev.blksz * (2 ^ f * i) = pos + len + dev.blksz * (2 ^ f * block i) := by
      have h₁ : fsBlocksize dev f * i = dev.blksz * (2 ^ f * i) := by rw [fsBlocksize_eq]; ring
      have h₂ : block i * fsBlocksize dev f = dev.blksz * (2 ^ f * block i) := by
        rw [fsBlocksize_eq]
        ring
      lia
    have hmod := congrArg (· % dev.blksz) hsum
    simp only [add_mul_mod_self_left] at hmod
    rw [hmod, hz]

theorem ended {map : BlockMap f} {s : Reading} (hlen : len < 2 ^ 32)
    (hstraight : Straight dev f map.block pos len) (hmapped : RangeMapped dev f map pos len)
    (hloop : readLoop dev f map pos len ((len + pos + fsBlocksize dev f - 1) / fsBlocksize dev f)
      ((len + pos + fsBlocksize dev f - 1) / fsBlocksize dev f - pos / fsBlocksize dev f)
      (pos / fsBlocksize dev f) readStart = some s) :
    Ended dev f map.block pos len s.filling := by
  generalize hcnt : (len + pos + fsBlocksize dev f - 1) / fsBlocksize dev f = blockcnt at hloop
  cases hm : blockcnt - pos / fsBlocksize dev f with
  | zero =>
    rw [hm, readLoop] at hloop
    obtain rfl := some.inj hloop
    exact ended_start (by lia)
  | succ m =>
    have h₁ := div_add_mod (len + pos + fsBlocksize dev f - 1) (fsBlocksize dev f)
    have h₂ := mod_lt (len + pos + fsBlocksize dev f - 1) (fsBlocksize_pos dev f)
    have hlast : blockcnt = pos / fsBlocksize dev f + m + 1 := by lia
    rw [hcnt, hlast, mul_succ] at h₁
    rw [hm] at hloop
    have hrun := loop_progress hlen hcnt.symm hstraight hmapped m (Nat.le_refl _) (by lia)
      start_progress hloop
    exact ended_progress (Nat.le_add_right _ _) (by lia) (by rw [mul_succ]; lia) hrun

end Step

section Whole

variable {dev : Device} {f : ℕ} {map : BlockMap f} {filesize pos len : ℕ}

theorem readFile_some {actread : ℕ} {stored : ℕ → Option UInt8} {n : ℕ} (hn : min len filesize = n) :
    ext4fsReadFile dev f map filesize pos len = some (actread, stored) ↔
      actread = n ∧ ∃ s t, readLoop dev f map pos n
        ((n + pos + fsBlocksize dev f - 1) / fsBlocksize dev f)
        ((n + pos + fsBlocksize dev f - 1) / fsBlocksize dev f - pos / fsBlocksize dev f)
        (pos / fsBlocksize dev f) readStart = some s ∧ spill dev s = some t ∧
        t.stored = stored := by
  have hcut : (if filesize < len then filesize else len) = n := by
    split <;> lia
  unfold ext4fsReadFile
  dsimp only
  rw [hcut]
  cases readLoop dev f map pos n ((n + pos + fsBlocksize dev f - 1) / fsBlocksize dev f)
      ((n + pos + fsBlocksize dev f - 1) / fsBlocksize dev f - pos / fsBlocksize dev f)
      (pos / fsBlocksize dev f) readStart with
  | none => simp
  | some s =>
    rw [map_eq_some_iff]
    constructor
    · intro h
      obtain ⟨t, hspill, heq⟩ := h
      obtain ⟨hact, hstored⟩ := Prod.mk.inj heq
      exact ⟨hact.symm, s, t, rfl, hspill, hstored⟩
    · intro h
      obtain ⟨hact, s', t, hs, hspill, hstored⟩ := h
      rw [some.inj hs]
      exact ⟨t, hspill, by rw [hact, hstored]⟩

theorem readFile_filled {actread : ℕ} {stored : ℕ → Option UInt8} (hfile : filesize < 2 ^ 32)
    (hstraight : Straight dev f map.block pos (min len filesize))
    (hmapped : RangeMapped dev f map pos (min len filesize))
    (hend : EndReadable dev f map.block pos (min len filesize))
    (h : ext4fsReadFile dev f map filesize pos len = some (actread, stored)) (k : ℕ) :
    stored k = if k < filled dev f map.block pos (min len filesize) then
      some (fileByte dev f map.block (pos + k)) else none := by
  generalize hn : min len filesize = n at *
  obtain ⟨-, s, t, hloop, hspill, rfl⟩ := (readFile_some hn).mp h
  have hended := ended (by lia) hstraight hmapped hloop
  have hlost : ∀ d, s.filling.delayed = some d →
      lost dev (d.start * dev.blksz + d.skipfirst + d.extent) = 0 := by
    intro d hd
    by_cases hz : (pos + n) % dev.blksz = 0
    · exact lost_of_aligned (hended.whole hz d hd)
    · obtain ⟨hwaits, haddr⟩ := hended.inside hz
      rw [haddr d hd]
      apply lost_of_readable
      apply hend hz
      rw [hwaits, hd]
      exact some_ne_none d
  have hstored := flush_pending (fun d hd => by have := hended.small d hd; lia) hlost
    (flush_filling hspill)
  change t.filling.stored k = _
  rw [hstored]
  exact hended.bytes k

end Whole

end UBoot.Ext4
