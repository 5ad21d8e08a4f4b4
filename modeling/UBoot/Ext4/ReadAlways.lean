import UBoot.Ext4.ReadExact

/-!
# When a file is read as it should be

`ReadsAlways` quantifies over what the disk holds; whether the read succeeds does not depend on it.
-/

namespace UBoot.Ext4

open List Nat Option

section Holding

variable (dev : Device) {f : ℕ} {map : BlockMap f} {pos len i : ℕ} (byte stale : ℕ → UInt8)

def Device.holding : Device := { dev with byte := byte, stale := stale }

def Reading.shape (s : Reading) : ℕ × ℕ × Delayed := (s.buf, s.previousBlockNumber, s.delayed)

theorem blkDread_holding (sector cnt : ℕ) :
    (blkDread (dev.holding byte stale) sector cnt).isSome = (blkDread dev sector cnt).isSome := by
  have hread : (dev.holding byte stale).readable = dev.readable := rfl
  rw [blkDread, blkDread, hread, apply_ite Option.isSome, apply_ite Option.isSome]
  rfl

theorem devreadAligned_holding (sector byteLen : ℕ) :
    (devreadAligned (dev.holding byte stale) sector byteLen).isSome =
      (devreadAligned dev sector byteLen).isSome := by
  have hone := blkDread_holding dev byte stale (sector + byteLen / dev.blksz) 1
  have hmany := blkDread_holding dev byte stale sector (byteLen / dev.blksz)
  have hsize : (dev.holding byte stale).blksz = dev.blksz := rfl
  simp only [devreadAligned, hsize]
  split
  · rfl
  split
  · cases blkDread (dev.holding byte stale) sector 1 <;> cases blkDread dev sector 1 <;> rfl
  · cases hb : blkDread (dev.holding byte stale) sector (byteLen / dev.blksz) <;>
      cases hd : blkDread dev sector (byteLen / dev.blksz) <;>
      simp only [hb, hd, isSome_none, isSome_some, reduceCtorEq] at hmany
    · rfl
    · dsimp only
      split
      · rfl
      · simpa only [isSome_map] using hone

theorem devread_holding (sector byteOffset : ℕ) (byteLen : ℤ) :
    (ext4fsDevread (dev.holding byte stale) sector byteOffset byteLen).isSome =
      (ext4fsDevread dev sector byteOffset byteLen).isSome := by
  have hone := blkDread_holding dev byte stale (sector + byteOffset / dev.blksz) 1
  have hsize : (dev.holding byte stale).blksz = dev.blksz := rfl
  have hend : (dev.holding byte stale).size = dev.size := rfl
  simp only [ext4fsDevread, hsize, hend]
  split
  · rfl
  split
  · exact devreadAligned_holding dev byte stale _ _
  split
  · rfl
  cases hb : blkDread (dev.holding byte stale) (sector + byteOffset / dev.blksz) 1 <;>
    cases hd : blkDread dev (sector + byteOffset / dev.blksz) 1 <;>
    simp only [hb, hd, isSome_none, isSome_some, reduceCtorEq] at hone
  · rfl
  · simpa only [isSome_map] using devreadAligned_holding dev byte stale _ _

theorem spill_holding {s t : Reading} (h : s.shape = t.shape) :
    (spill (dev.holding byte stale) s).map Reading.shape = (spill dev t).map Reading.shape := by
  obtain ⟨hbuf, hrest⟩ := Prod.mk.inj h
  obtain ⟨hprev, hdelayed⟩ := Prod.mk.inj hrest
  rw [spill, spill, hprev, hdelayed]
  split
  · exact congrArg some h
  · generalize t.delayed = d
    have hread := devread_holding dev byte stale d.start d.skipfirst (toLong 32 d.extent)
    cases hb : ext4fsDevread (dev.holding byte stale) d.start d.skipfirst (toLong 32 d.extent) <;>
      cases hd : ext4fsDevread dev d.start d.skipfirst (toLong 32 d.extent) <;>
      simp only [hb, hd, isSome_none, isSome_some, reduceCtorEq] at hread
    · rfl
    · simp only [map_some, Reading.shape, hbuf]

theorem readStep_holding {blockcnt : ℕ} {s t : Reading} (h : s.shape = t.shape) :
    (readStep (dev.holding byte stale) f map pos len blockcnt i s).map Reading.shape =
      (readStep dev f map pos len blockcnt i t).map Reading.shape := by
  obtain ⟨hbuf, hrest⟩ := Prod.mk.inj h
  obtain ⟨hprev, hdelayed⟩ := Prod.mk.inj hrest
  have hspill := spill_holding dev byte stale h
  have hsize : fsBlocksize (dev.holding byte stale) f = fsBlocksize dev f := rfl
  have hsector : (dev.holding byte stale).blksz = dev.blksz := rfl
  -- what is done behind a spill
  have hbehind : ∀ {g k : Reading → Reading}, (∀ s t : Reading, s.shape = t.shape →
      (g s).shape = (k t).shape) → ((spill (dev.holding byte stale) s).map g).map Reading.shape =
        ((spill dev t).map k).map Reading.shape := by
    intro g k hgk
    cases hs : spill (dev.holding byte stale) s <;> cases ht : spill dev t <;>
      simp only [hs, ht, map_none, map_some, reduceCtorEq, some.injEq] at hspill
    · rfl
    · exact congrArg some (hgk _ _ hspill)
  unfold readStep
  dsimp only
  rw [hsize, hsector, hprev, hdelayed]
  split
  · split
    · split
      · simp only [map_some, Reading.shape, hbuf]
      · apply hbehind
        intro s' t' h'
        obtain ⟨hbuf', -⟩ := Prod.mk.inj h'
        simp only [Reading.shape, hbuf, hbuf']
    · simp only [map_some, Reading.shape, hbuf]
  · apply hbehind
    intro s' t' h'
    obtain ⟨hbuf', hrest'⟩ := Prod.mk.inj h'
    simp only [Reading.shape, hbuf', hrest']

theorem readLoop_holding {blockcnt : ℕ} (m : ℕ) : ∀ {i : ℕ} {s t : Reading}, s.shape = t.shape →
    (readLoop (dev.holding byte stale) f map pos len blockcnt m i s).map Reading.shape =
      (readLoop dev f map pos len blockcnt m i t).map Reading.shape := by
  induction m with
  | zero =>
    intro i s t h
    exact congrArg some h
  | succ m ih =>
    intro i s t h
    have hstep := @readStep_holding dev f map pos len i byte stale blockcnt s t h
    rw [readLoop, readLoop]
    cases hs : readStep (dev.holding byte stale) f map pos len blockcnt i s <;>
      cases ht : readStep dev f map pos len blockcnt i t <;>
      simp only [hs, ht, map_none, map_some, reduceCtorEq, some.injEq] at hstep
    · rfl
    · exact ih hstep

theorem readFile_holding (filesize : ℕ) :
    (ext4fsReadFile (dev.holding byte stale) f map filesize pos len).isSome =
      (ext4fsReadFile dev f map filesize pos len).isSome := by
  have hsize : fsBlocksize (dev.holding byte stale) f = fsBlocksize dev f := rfl
  unfold ext4fsReadFile
  dsimp only
  rw [hsize]
  generalize (if filesize < len then filesize else len) = len
  generalize (len + pos + fsBlocksize dev f - 1) / fsBlocksize dev f = blockcnt
  have hloop := @readLoop_holding dev f map pos len byte stale blockcnt
    (blockcnt - pos / fsBlocksize dev f) (pos / fsBlocksize dev f) readStart _ rfl
  cases hs : readLoop (dev.holding byte stale) f map pos len blockcnt
      (blockcnt - pos / fsBlocksize dev f) (pos / fsBlocksize dev f) readStart <;>
    cases ht : readLoop dev f map pos len blockcnt
      (blockcnt - pos / fsBlocksize dev f) (pos / fsBlocksize dev f) readStart <;>
    simp only [hs, ht, map_none, map_some, reduceCtorEq, some.injEq] at hloop
  · rfl
  · have hspill := congrArg Option.isSome (spill_holding dev byte stale hloop)
    simpa only [isSome_map] using hspill

end Holding

section Wrong

variable {dev : Device} {f : ℕ} {block : ℕ → ℕ} {pos len i : ℕ} {s t : Filling}

/- The byte `k` of the buffer will be 0. -/
structure Settled (dev : Device) (k : ℕ) (s : Filling) : Prop where
  below : k < s.buf
  stored : (∀ d, s.delayed = some d → k < d.buf) → s.stored k = some 0
  waiting : ∀ d, s.delayed = some d → d.buf ≤ k → k < d.buf + d.extent ∧
    dev.byte (d.start * dev.blksz + d.skipfirst + (k - d.buf)) = 0

variable {k : ℕ}

theorem storeAt_below {stored : ℕ → Option UInt8} {p : ℕ} (bytes : List UInt8) (h : k < p) :
    storeAt stored p bytes k = stored k := if_neg (fun hin => absurd hin.1 (Nat.not_le_of_lt h))

theorem flush_settled (hstale : ∀ j, dev.stale j = 0)
    (hsmall : ∀ d, s.delayed = some d → d.extent < 2 ^ 32) (h : Settled dev k s)
    (hflush : flush dev s = some t) : t.stored k = some 0 := by
  rw [flush] at hflush
  cases hd : s.delayed with
  | none =>
    rw [hd] at hflush
    rw [← some.inj hflush]
    apply h.stored
    intro d hd'
    rw [hd] at hd'
    cases hd'
  | some d =>
    rw [hd] at hflush
    obtain ⟨bytes, hread, rfl⟩ := map_eq_some_iff.mp hflush
    by_cases hk : d.buf ≤ k
    · obtain ⟨hlt, hzero⟩ := h.waiting d hd hk
      have hlength := length_devread (hsmall d hd) hread
      obtain ⟨hbytes, -⟩ := devread_eq (hsmall d hd) hread
      change storeAt s.stored d.buf bytes k = some 0
      rw [storeAt, if_pos ⟨hk, by lia⟩, getElem?_eq_getElem (by lia)]
      congr 1
      simp only [hbytes, getElem_append, Device.bytes, Device.staleBytes, getElem_map,
        getElem_range, hstale, hzero, dite_eq_ite, ite_self]
    · change storeAt s.stored d.buf bytes k = some 0
      rw [storeAt_below bytes (by lia)]
      apply h.stored
      intro e he
      rw [hd] at he
      obtain rfl := some.inj he
      lia

theorem step_settled (hlen : len < 2 ^ 32) (hstale : ∀ j, dev.stale j = 0) (hshape : Shape dev f pos len i s) (h : Settled dev k s)
    (hstep : Stepped dev f block pos len i s t) : Settled dev k t := by
  have hsmall : ∀ d, s.delayed = some d → d.extent < 2 ^ 32 :=
    fun d hd => Nat.lt_of_le_of_lt (hshape.small d hd) hlen
  have hbelow := h.below
  cases hstep with
  | inl hole =>
    obtain ⟨-, u, hflush, rfl⟩ := hole
    constructor
    · exact Nat.lt_of_lt_of_le hbelow (Nat.le_add_right _ _)
    · intro _
      change storeAt u.stored s.buf _ k = some 0
      rw [storeAt_below _ hbelow]
      exact flush_settled hstale hsmall h hflush
    · intro d hd
      cases hd
  | inr hread =>
    cases hread with
    | inl hmerge =>
      obtain ⟨-, d, hd, -, rfl⟩ := hmerge
      constructor
      · exact Nat.lt_of_lt_of_le hbelow (Nat.le_add_right _ _)
      · intro hbefore
        apply h.stored
        intro e he
        rw [hd] at he
        obtain rfl := some.inj he
        have hlt := hbefore _ rfl
        exact hlt
      · intro e he hk
        obtain rfl := some.inj he
        obtain ⟨hlt, hzero⟩ := h.waiting d hd hk
        exact ⟨Nat.lt_of_lt_of_le hlt (by dsimp only; lia), hzero⟩
    | inr hfresh =>
      obtain ⟨-, -, u, hflush, rfl⟩ := hfresh
      constructor
      · exact Nat.lt_of_lt_of_le hbelow (Nat.le_add_right _ _)
      · intro _
        change u.stored k = some 0
        exact flush_settled hstale hsmall h hflush
      · intro d hd hk
        obtain rfl := some.inj hd
        exact absurd hk (Nat.not_le_of_lt hbelow)

theorem loop_settled {map : BlockMap f} {blockcnt : ℕ} (hlen : len < 2 ^ 32) (hstale : ∀ j, dev.stale j = 0)
    (hcnt : blockcnt = (len + pos + fsBlocksize dev f - 1) / fsBlocksize dev f)
    (hmapped : RangeMapped dev f map pos len) (m : ℕ) :
    ∀ {i : ℕ} {s t : Reading}, pos / fsBlocksize dev f ≤ i → i + m = blockcnt →
      Shape dev f pos len i s.filling → Settled dev k s.filling →
      readLoop dev f map pos len blockcnt m i s = some t →
      Settled dev k t.filling ∧ Shape dev f pos len blockcnt t.filling := by
  induction m with
  | zero =>
    intro i s t hfrom hm hshape h hloop
    obtain rfl := some.inj hloop
    obtain rfl : i = blockcnt := hm
    exact ⟨h, hshape⟩
  | succ m ih =>
    intro i s t hfrom hm hshape h hloop
    have hto : fsBlocksize dev f * i < pos + len := by
      have h₁ := div_add_mod (len + pos + fsBlocksize dev f - 1) (fsBlocksize dev f)
      have h₂ := mod_lt (len + pos + fsBlocksize dev f - 1) (fsBlocksize_pos dev f)
      have h₃ : fsBlocksize dev f * (i + 1) ≤ fsBlocksize dev f * blockcnt :=
        Nat.mul_le_mul_left _ (by lia)
      rw [← hcnt] at h₁
      rw [mul_succ] at h₃
      lia
    obtain ⟨u, hstep, hloop⟩ := readLoop_succ hloop
    have hstepped := readStep_stepped hcnt hfrom hto (hmapped i hfrom hto) hstep
    exact ih (by lia) (by lia) (step_shape hfrom hto hshape hstepped)
      (step_settled hlen hstale hshape h hstepped) hloop

theorem second_settled {stored : ℕ → Option UInt8}
    (hlate : fsBlocksize dev f < pos % fsBlocksize dev f + dev.blksz)
    (hto : fsBlocksize dev f * (pos / fsBlocksize dev f + 1) < pos + len)
    (hmap : block (pos / fsBlocksize dev f) ≠ 0)
    (hsame : block (pos / fsBlocksize dev f + 1) = block (pos / fsBlocksize dev f))
    (hbyte : dev.byte (block (pos / fsBlocksize dev f) * fsBlocksize dev f + fsBlocksize dev f) = 0)
    (hs : Stepped dev f block pos len (pos / fsBlocksize dev f) ⟨stored, 0, none⟩ s)
    (ht : Stepped dev f block pos len (pos / fsBlocksize dev f + 1) s t) :
    Settled dev (fsBlocksize dev f - pos % fsBlocksize dev f) t := by
  have hdiv := div_add_mod pos (fsBlocksize dev f)
  have hmod := mod_lt pos (fsBlocksize_pos dev f)
  generalize hq : pos / fsBlocksize dev f = q at *
  have hnext : fsBlocksize dev f * (q + 1) = fsBlocksize dev f * q + fsBlocksize dev f :=
    mul_succ _ _
  have hnext' : fsBlocksize dev f * (q + 1 + 1) =
      fsBlocksize dev f * (q + 1) + fsBlocksize dev f := mul_succ _ _
  have hskip : blockFrom dev f pos q -
      fsBlocksize dev f * q = pos % fsBlocksize dev f := by
    rw [blockFrom]
    lia
  have hn : blockTo dev f pos len q -
      blockFrom dev f pos q =
      fsBlocksize dev f - pos % fsBlocksize dev f := by
    rw [blockFrom, blockTo]
    lia
  have hskip' : blockFrom dev f pos (q + 1) -
      fsBlocksize dev f * (q + 1) = 0 := by
    rw [blockFrom]
    lia
  have hzero : (fsBlocksize dev f - pos % fsBlocksize dev f) / dev.blksz = 0 :=
    div_eq_of_lt (by lia)
  have hfirst := hs
  have hsecond := ht
  dsimp only [Stepped] at hfirst hsecond
  rw [hskip, hn] at hfirst
  rw [hskip', hsame] at hsecond
  -- the first block is put off
  obtain ⟨u, hu, rfl⟩ : ∃ u, flush dev ⟨stored, 0, none⟩ = some u ∧ s =
      ⟨u.stored, 0 + (fsBlocksize dev f - pos % fsBlocksize dev f),
        some ⟨block q <<< f, fsBlocksize dev f - pos % fsBlocksize dev f,
          pos % fsBlocksize dev f, block q <<< f +
            (fsBlocksize dev f - pos % fsBlocksize dev f) / dev.blksz, 0⟩⟩ := by
    cases hfirst with
    | inl hole => exact absurd hole.1 hmap
    | inr hread =>
      cases hread with
      | inl hmerge =>
        obtain ⟨-, d, hd, -⟩ := hmerge
        cases hd
      | inr hfresh => exact hfresh.2.2
  rw [hzero, Nat.add_zero] at hsecond
  -- the second one is put with it
  cases hsecond with
  | inl hole => exact absurd hole.1 hmap
  | inr hread =>
    cases hread with
    | inr hfresh => exact absurd rfl (hfresh.2.1 _ rfl)
    | inl hmerge =>
      obtain ⟨-, d, hd, -, rfl⟩ := hmerge
      obtain rfl := some.inj hd
      constructor
      · change _ < 0 + _ + _
        lia
      · intro hbefore
        have hlt := hbefore _ rfl
        exact absurd hlt (Nat.not_lt_zero _)
      · intro e he _
        obtain rfl := some.inj he
        refine ⟨?_, ?_⟩
        · change fsBlocksize dev f - pos % fsBlocksize dev f <
            0 + (fsBlocksize dev f - pos % fsBlocksize dev f +
              (blockTo dev f pos len (q + 1) - blockFrom dev f pos (q + 1)))
          rw [blockFrom, blockTo]
          lia
        · change dev.byte (block q <<< f * dev.blksz + pos % fsBlocksize dev f +
            (fsBlocksize dev f - pos % fsBlocksize dev f - 0)) = 0
          rw [shift_blksz, ← hbyte]
          congr 1
          lia

end Wrong

section Unmapped

variable {dev : Device} {f : ℕ} {map : BlockMap f} {pos len i k blockcnt : ℕ} {s t : Reading}

theorem blknr_ne_zero (h : map.long i < 0) : map.blknr i ≠ 0 := by
  have hfits := map.fits i
  have hpos : (0 : ℤ) < 2 ^ f := by positivity
  rw [abs_of_neg h, Int.neg_mul] at hfits
  have hneg := Int.mul_neg_of_neg_of_pos h hpos
  rw [BlockMap.blknr, ← Int.add_emod_right, Int.emod_eq_of_lt (by lia) (by lia)]
  lia

section Ones

variable (hbyte : ∀ q, dev.byte q = 1) (hstale : ∀ j, dev.stale j = 1)

include hbyte in
theorem blkDread_ones {sector cnt : ℕ} {bytes : List UInt8}
    (h : blkDread dev sector cnt = some bytes) : ∀ b ∈ bytes, b = 1 := by
  rw [blkDread_eq h]
  intro b hb
  obtain ⟨j, -, rfl⟩ := mem_map.mp hb
  exact hbyte _

include hbyte hstale in
theorem devreadAligned_ones {sector byteLen : ℕ} {bytes : List UInt8}
    (h : devreadAligned dev sector byteLen = some bytes) : ∀ b ∈ bytes, b = 1 := by
  rw [devreadAligned] at h
  split at h
  · rw [← some.inj h]
    exact fun b hb => absurd hb (not_mem_nil)
  split at h
  · split at h
    · rw [← some.inj h]
      exact fun b hb => blkDread_ones hbyte ‹_› b (mem_of_mem_take hb)
    · rw [← some.inj h]
      intro b hb
      obtain ⟨j, -, rfl⟩ := mem_map.mp hb
      exact hstale j
  · split at h
    · cases h
    split at h
    · rw [← some.inj h]
      exact blkDread_ones hbyte ‹_›
    · obtain ⟨sec, hsec, rfl⟩ := map_eq_some_iff.mp h
      intro b hb
      cases mem_append.mp hb with
      | inl hbuf => exact blkDread_ones hbyte ‹_› b hbuf
      | inr htake => exact blkDread_ones hbyte hsec b (mem_of_mem_take htake)

include hbyte hstale in
theorem devread_ones {sector byteOffset : ℕ} {byteLen : ℤ} {bytes : List UInt8}
    (h : ext4fsDevread dev sector byteOffset byteLen = some bytes) : ∀ b ∈ bytes, b = 1 := by
  rw [ext4fsDevread] at h
  split at h
  · cases h
  dsimp only at h
  split at h
  · exact devreadAligned_ones hbyte hstale h
  split at h
  · cases h
  split at h
  · cases h
  · obtain ⟨rest, hrest, rfl⟩ := map_eq_some_iff.mp h
    intro b hb
    cases mem_append.mp hb with
    | inl hfirst => exact blkDread_ones hbyte ‹_› b (mem_of_mem_drop (mem_of_mem_take hfirst))
    | inr hlast => exact devreadAligned_ones hbyte hstale hrest b hlast

include hbyte hstale in
theorem spill_ones (h : s.stored k ≠ some 0) (hspill : spill dev s = some t) :
    t.stored k ≠ some 0 := by
  rw [spill] at hspill
  split at hspill
  · rwa [← some.inj hspill]
  · obtain ⟨bytes, hread, rfl⟩ := map_eq_some_iff.mp hspill
    change storeAt s.stored s.delayed.buf bytes k ≠ some 0
    rw [storeAt]
    split
    · intro hzero
      have hone := devread_ones hbyte hstale hread 0 (mem_of_getElem? hzero)
      exact absurd hone (by decide)
    · exact h

/- Only a hole puts zeros into the buffer, and only where it is. -/
include hbyte hstale in
theorem step_ones (hfrom : pos / fsBlocksize dev f ≤ i) (hbuf : s.buf = fsBlocksize dev f * i - pos)
    (hk : map.blknr i = 0 → pos + k < fsBlocksize dev f * i ∨ fsBlocksize dev f * (i + 1) ≤ pos + k)
    (h : s.stored k ≠ some 0) (hstep : readStep dev f map pos len blockcnt i s = some t) :
    t.stored k ≠ some 0 ∧ t.buf = fsBlocksize dev f * (i + 1) - pos := by
  have hdiv := div_add_mod pos (fsBlocksize dev f)
  have hmod := mod_lt pos (fsBlocksize_pos dev f)
  have hadvance : s.buf + (fsBlocksize dev f -
      (if i = pos / fsBlocksize dev f then pos - fsBlocksize dev f * i else 0)) =
        fsBlocksize dev f * (i + 1) - pos := by
    split
    next hi =>
      rw [← hi] at hdiv
      lia
    next hi =>
      have := @lt_block_end dev f pos i (by lia)
      lia
  unfold readStep at hstep
  dsimp only at hstep
  split at hstep
  · split at hstep
    · split at hstep
      · rw [← some.inj hstep]
        exact ⟨h, hadvance⟩
      · obtain ⟨u, hspill, rfl⟩ := map_eq_some_iff.mp hstep
        have hu : u.stored k ≠ some 0 := spill_ones hbyte hstale h hspill
        refine ⟨hu, ?_⟩
        rw [← hadvance, ← (spill_buf hspill).1]
    · rw [← some.inj hstep]
      exact ⟨h, hadvance⟩
  next hzero =>
    obtain ⟨u, hspill, rfl⟩ := map_eq_some_iff.mp hstep
    have hubuf := (spill_buf hspill).1
    refine ⟨?_, by rw [← hadvance, ← hubuf]⟩
    change storeAt u.stored u.buf (List.replicate _ 0) k ≠ some 0
    rw [storeAt, if_neg (by rw [length_replicate, hubuf]; lia)]
    exact spill_ones hbyte hstale h hspill

include hbyte hstale in
theorem loop_ones {j : ℕ} (hj : map.blknr j ≠ 0)
    (hlo : fsBlocksize dev f * j ≤ pos + k) (hhi : pos + k < fsBlocksize dev f * (j + 1)) (m : ℕ) :
    ∀ {i : ℕ} {s t : Reading}, pos / fsBlocksize dev f ≤ i → s.buf = fsBlocksize dev f * i - pos →
      s.stored k ≠ some 0 → readLoop dev f map pos len blockcnt m i s = some t →
      t.stored k ≠ some 0 := by
  induction m with
  | zero =>
    intro i s t _ _ h hloop
    rwa [← some.inj hloop]
  | succ m ih =>
    intro i s t hfrom hbuf h hloop
    obtain ⟨u, hstep, hloop⟩ := readLoop_succ hloop
    have hout : map.blknr i = 0 →
        pos + k < fsBlocksize dev f * i ∨ fsBlocksize dev f * (i + 1) ≤ pos + k := by
      intro hi
      have hne : i ≠ j := fun heq => hj (heq ▸ hi)
      cases Nat.lt_or_gt_of_ne hne with
      | inl hlt =>
        have := Nat.mul_le_mul_left (fsBlocksize dev f) (show i + 1 ≤ j from hlt)
        lia
      | inr hgt =>
        have := Nat.mul_le_mul_left (fsBlocksize dev f) (show j + 1 ≤ i from hgt)
        lia
    obtain ⟨hu, hubuf⟩ := step_ones hbyte hstale hfrom hbuf hout h hstep
    exact ih (by lia) hubuf hu hloop

end Ones

/- Nothing is stored when no byte is asked for and the block at `pos` is an error. -/
theorem loop_nothing (hmod : pos % fsBlocksize dev f ≠ 0)
    (hlong : map.long (pos / fsBlocksize dev f) < 0)
    (h : readLoop dev f map pos 0 ((0 + pos + fsBlocksize dev f - 1) / fsBlocksize dev f)
      ((0 + pos + fsBlocksize dev f - 1) / fsBlocksize dev f - pos / fsBlocksize dev f)
      (pos / fsBlocksize dev f) readStart = some s)
    (hspill : spill dev s = some t) (k : ℕ) : t.stored k = none := by
  have hdiv := div_add_mod pos (fsBlocksize dev f)
  have hlt := mod_lt pos (fsBlocksize_pos dev f)
  have hcnt : (0 + pos + fsBlocksize dev f - 1) / fsBlocksize dev f =
      pos / fsBlocksize dev f + 1 := by
    apply Nat.div_eq_of_lt_le
    · rw [Nat.mul_comm, mul_succ]
      lia
    · rw [Nat.mul_comm, mul_succ, mul_succ]
      lia
  rw [hcnt, Nat.add_sub_cancel_left] at h
  obtain ⟨u, hstep, h⟩ := readLoop_succ h
  obtain rfl := some.inj h
  have hsome : pos - fsBlocksize dev f * (pos / fsBlocksize dev f) ≠ 0 := by lia
  rw [readStep, if_pos (blknr_ne_zero hlong), if_neg (by decide)] at hstep
  simp only [Nat.add_sub_cancel, if_true, Nat.zero_add, if_neg hsome, Nat.sub_self] at hstep
  obtain rfl := some.inj hstep
  rw [spill] at hspill
  split at hspill
  · rw [← some.inj hspill]
    rfl
  · obtain ⟨bytes, hread, rfl⟩ := map_eq_some_iff.mp hspill
    have hlength : bytes.length = 0 := length_devread (Nat.two_pow_pos 32) hread
    change storeAt (fun _ => none) 0 bytes k = none
    rw [storeAt, if_neg (by lia)]

end Unmapped

section Whole

variable {dev : Device} {f : ℕ} {map : BlockMap f} {filesize pos len : ℕ}

theorem second_wrong {actread : ℕ} {stored : ℕ → Option UInt8} (hfile : filesize < 2 ^ 32)
    (hbyte : ∀ q, dev.byte q = if q = map.block (pos / fsBlocksize dev f) * fsBlocksize dev f
      then 1 else 0)
    (hstale : ∀ j, dev.stale j = 0)
    (hlate : fsBlocksize dev f < pos % fsBlocksize dev f + dev.blksz)
    (hto : fsBlocksize dev f * (pos / fsBlocksize dev f + 1) < pos + min len filesize)
    (hmap : map.block (pos / fsBlocksize dev f) ≠ 0)
    (hsame : map.block (pos / fsBlocksize dev f + 1) = map.block (pos / fsBlocksize dev f))
    (hmapped : RangeMapped dev f map pos (min len filesize))
    (h : ext4fsReadFile dev f map filesize pos len = some (actread, stored)) :
    stored (fsBlocksize dev f - pos % fsBlocksize dev f) = some 0 ∧
      fileByte dev f map.block (pos + (fsBlocksize dev f - pos % fsBlocksize dev f)) = 1 := by
  have hpos := fsBlocksize_pos dev f
  have hdiv := div_add_mod pos (fsBlocksize dev f)
  have hmod := mod_lt pos hpos
  have hnext : fsBlocksize dev f * (pos / fsBlocksize dev f + 1) =
      fsBlocksize dev f * (pos / fsBlocksize dev f) + fsBlocksize dev f := mul_succ _ _
  have hnext' : fsBlocksize dev f * (pos / fsBlocksize dev f + 1 + 1) =
      fsBlocksize dev f * (pos / fsBlocksize dev f + 1) + fsBlocksize dev f := mul_succ _ _
  generalize hn : min len filesize = n at *
  obtain ⟨-, s, t, hloop, hspill, rfl⟩ := (readFile_some hn).mp h
  generalize hcnt : (n + pos + fsBlocksize dev f - 1) / fsBlocksize dev f = blockcnt at hloop
  have hbound : pos + n ≤ fsBlocksize dev f * blockcnt := by
    rw [← hcnt]
    have h₁ := div_add_mod (n + pos + fsBlocksize dev f - 1) (fsBlocksize dev f)
    have h₂ := mod_lt (n + pos + fsBlocksize dev f - 1) hpos
    lia
  have hmore : pos / fsBlocksize dev f + 1 < blockcnt :=
    Nat.lt_of_mul_lt_mul_left (a := fsBlocksize dev f) (by lia)
  obtain ⟨m, hm⟩ : ∃ m, blockcnt - pos / fsBlocksize dev f = m + 2 :=
    ⟨blockcnt - pos / fsBlocksize dev f - 2, by lia⟩
  rw [hm] at hloop
  obtain ⟨s₁, hfirst, hloop⟩ := readLoop_succ hloop
  obtain ⟨s₂, hsecond, hloop⟩ := readLoop_succ hloop
  have hbehind : dev.byte
      (map.block (pos / fsBlocksize dev f) * fsBlocksize dev f + fsBlocksize dev f) = 0 := by
    rw [hbyte, if_neg (by lia)]
  have hfirst' := readStep_stepped hcnt.symm (Nat.le_refl _) (by lia)
    (hmapped _ (Nat.le_refl _) (by lia)) hfirst
  have hsecond' := readStep_stepped hcnt.symm (le_succ _) hto (hmapped _ (le_succ _) hto) hsecond
  have hsettled := second_settled hlate hto hmap hsame hbehind hfirst' hsecond'
  have hshape := step_shape (le_succ _) hto
    (step_shape (Nat.le_refl _) (by lia) start_shape hfirst') hsecond'
  obtain ⟨hset, hshape'⟩ := loop_settled (by lia) hstale hcnt.symm hmapped m (by lia) (by lia)
    hshape hsettled hloop
  have hsmall : ∀ d, s.filling.delayed = some d → d.extent < 2 ^ 32 := by
    intro d hd
    have := hshape'.small d hd
    lia
  refine ⟨flush_settled hstale hsmall hset (flush_filling hspill), ?_⟩
  rw [fileByte_block (i := pos / fsBlocksize dev f + 1) (by lia) (by lia),
    if_neg (by rwa [hsame]), hsame, hbyte, if_pos (by lia)]

theorem end_wrong {actread : ℕ} {stored : ℕ → Option UInt8} (hfile : filesize < 2 ^ 32)
    (hstale : ∀ j, dev.stale j = 1) (hstraight : Straight dev f map.block pos (min len filesize))
    (hmapped : RangeMapped dev f map pos (min len filesize))
    (hz : (pos + min len filesize) % dev.blksz ≠ 0)
    (hmap : map.block ((pos + min len filesize) / fsBlocksize dev f) ≠ 0)
    (hunreadable : ¬dev.readable (endAddress dev f map.block pos (min len filesize) / dev.blksz) = true)
    (h : ext4fsReadFile dev f map filesize pos len = some (actread, stored)) :
    ∃ k, stored k = some 1 := by
  generalize hn : min len filesize = n at *
  obtain ⟨-, s, t, hloop, hspill, rfl⟩ := (readFile_some hn).mp h
  have hended := ended (by lia) hstraight hmapped hloop
  obtain ⟨hwaits, haddr⟩ := hended.inside hz
  obtain ⟨d, hd⟩ := ne_none_iff_exists'.mp (hwaits.mp hmap)
  have hsmall := hended.small d hd
  have hflush := flush_filling hspill
  rw [flush, hd] at hflush
  obtain ⟨bytes, hbytes, htstored⟩ := map_eq_some_iff.mp hflush
  have hstored : t.stored = storeAt s.stored d.buf bytes :=
    (congrArg Filling.stored htstored).symm
  have hlength := length_devread (by lia) hbytes
  obtain ⟨heq, hle⟩ := devread_eq (by lia) hbytes
  rw [haddr d hd] at heq hle
  have hlost : lost dev (endAddress dev f map.block pos n) ≠ 0 := by
    rwa [lost, if_neg hunreadable, endAddress_mod]
  generalize lost dev (endAddress dev f map.block pos n) = l at *
  -- the first byte that is lost
  refine ⟨d.buf + (d.extent - l), ?_⟩
  rw [hstored]
  have hlast : bytes[d.extent - l]? = some 1 := by
    rw [heq, getElem?_append_right (by rw [length_bytes]), length_bytes, Nat.sub_self,
      Device.staleBytes, getElem?_map, getElem?_range (by lia), map_some, hstale]
  rw [storeAt, if_pos (by lia), Nat.add_sub_cancel_left, hlast]

/- A file is read as it should be whatever it holds, if it can be read. -/
def ReadsAlways (dev : Device) (f : ℕ) (map : BlockMap f) (filesize pos len : ℕ) : Prop :=
  ∀ byte stale actread stored,
    ext4fsReadFile (dev.holding byte stale) f map filesize pos len = some (actread, stored) →
      ReadsFile (dev.holding byte stale) f map.block filesize pos len actread stored

section Needed

variable (hfile : filesize < 2 ^ 32)
  (hret : (ext4fsReadFile dev f map filesize pos len).isSome = true)
  (h : ReadsAlways dev f map filesize pos len)

include hret in
theorem readFile_returns (byte stale : ℕ → UInt8) : ∃ stored,
    ext4fsReadFile (dev.holding byte stale) f map filesize pos len =
      some (min len filesize, stored) := by
  rw [← readFile_holding dev byte stale, isSome_iff_exists] at hret
  obtain ⟨⟨actread, stored⟩, hread⟩ := hret
  obtain ⟨rfl, -⟩ := (readFile_some rfl).mp hread
  exact ⟨stored, hread⟩

include hret h in
theorem actread_needed : min len filesize = min len (filesize - pos) := by
  obtain ⟨stored, hread⟩ := readFile_returns hret dev.byte dev.stale
  exact (h _ _ _ _ hread).actread

/- Where there is no block no byte but 0 is asked for, and on a disk of ones none is stored. -/
include hret h in
theorem mapped_needed (hsome : 0 < min len filesize) :
    RangeMapped dev f map pos (min len filesize) := by
  intro i hfrom hto
  by_contra hneg
  have hact := actread_needed hret h
  have hlt := @lt_block_end dev f pos (i + 1) (by lia)
  have hpos := fsBlocksize_pos dev f
  obtain ⟨stored, hread⟩ := readFile_returns hret (fun _ => 1) (fun _ => 1)
  have hstored := (h _ _ _ _ hread).stored (blockFrom dev f pos i - pos)
  obtain ⟨-, s, t, hloop, hspill, rfl⟩ := (readFile_some rfl).mp hread
  have hone := @loop_ones (dev.holding (fun _ => 1) (fun _ => 1)) f map pos (min len filesize)
    (blockFrom dev f pos i - pos) _ (fun _ => rfl) (fun _ => rfl) i (blknr_ne_zero (by lia))
    (by change fsBlocksize dev f * i ≤ _; rw [blockFrom]; lia)
    (by change _ < fsBlocksize dev f * (i + 1); rw [blockFrom]; lia) _ _ readStart s
    (Nat.le_refl _) (Nat.sub_eq_zero_of_le (mul_div_le _ _)).symm nofun hloop
  apply @spill_ones (dev.holding (fun _ => 1) (fun _ => 1)) _ _ _ (fun _ => rfl) (fun _ => rfl) hone
    hspill
  rw [hstored, if_pos (by rw [← hact, blockFrom]; lia)]
  have hblock : map.block i = 0 := Int.toNat_of_nonpos (by lia)
  have hzero := @fileByte_block (dev.holding (fun _ => 1) (fun _ => 1)) f map.block i
    (pos + (blockFrom dev f pos i - pos))
    (by change fsBlocksize dev f * i ≤ _; rw [blockFrom]; lia)
    (by change _ < fsBlocksize dev f * (i + 1); rw [blockFrom]; lia)
  rw [hzero, if_pos hblock]

/- A range of no bytes asks for the block at `pos` only. -/
theorem mapped_zero (hlong : 0 ≤ map.long (pos / fsBlocksize dev f)) :
    RangeMapped dev f map pos 0 := by
  intro i hfrom hto
  have hi : i = pos / fsBlocksize dev f := by
    by_contra hne
    have hlt := @lt_block_end dev f pos i (by lia)
    lia
  rwa [hi]

section Mapped

variable (hmapped : RangeMapped dev f map pos (min len filesize))

include hfile hret h hmapped in
theorem straight_needed : Straight dev f map.block pos (min len filesize) := by
  intro hlate hto hmap hsame
  have hact := actread_needed hret h
  obtain ⟨stored, hread⟩ := readFile_returns hret
    (fun q => if q = map.block (pos / fsBlocksize dev f) * fsBlocksize dev f then 1 else 0) (fun _ => 0)
  obtain ⟨hzero, hone⟩ := @second_wrong
    (dev.holding (fun q => if q = map.block (pos / fsBlocksize dev f) * fsBlocksize dev f then 1 else 0)
      (fun _ => 0)) f map filesize pos len _ _ hfile (fun _ => rfl) (fun _ => rfl) hlate hto hmap
      hsame hmapped hread
  have hstored := (h _ _ _ _ hread).stored (fsBlocksize dev f - pos % fsBlocksize dev f)
  have hsize : ∀ byte stale, fsBlocksize (dev.holding byte stale) f = fsBlocksize dev f :=
    fun _ _ => rfl
  rw [hsize] at hzero hone
  rw [← hact, if_pos (by lia), hzero, hone] at hstored
  exact absurd (some.inj hstored) (by decide)

include hfile hret h hmapped in
theorem end_needed : EndReadable dev f map.block pos (min len filesize) := by
  intro hz hmap
  by_contra hunreadable
  have hstraight := straight_needed hfile hret h hmapped
  obtain ⟨stored, hread⟩ := readFile_returns hret (fun _ => 0) (fun _ => 1)
  obtain ⟨k, hk⟩ := @end_wrong (dev.holding (fun _ => 0) (fun _ => 1)) f map filesize pos len _ _
    hfile (fun _ => rfl) hstraight hmapped hz hmap hunreadable hread
  rw [(h _ _ _ _ hread).stored, fileByte] at hk
  split at hk
  · have hbyte := some.inj hk
    split at hbyte
    · exact absurd hbyte (by decide)
    · exact absurd hbyte.symm (show (1 : UInt8) ≠ 0 by decide)
  · cases hk

include hfile hret h hmapped in
theorem hole_needed : (pos + min len filesize) % fsBlocksize dev f ≠ 0 →
    map.block ((pos + min len filesize) / fsBlocksize dev f) ≠ 0 := by
  have hact := actread_needed hret h
  have hstraight := straight_needed hfile hret h hmapped
  have hend := end_needed hfile hret h hmapped
  obtain ⟨stored, hread⟩ := readFile_returns hret dev.byte dev.stale
  have hfilled : ∀ k, stored k = if k < filled dev f map.block pos (min len filesize) then
      some (fileByte dev f map.block (pos + k)) else none := readFile_filled hfile hstraight hmapped hend hread
  have hstored : ∀ k, stored k = if k < min len (filesize - pos) then
      some (fileByte dev f map.block (pos + k)) else none := (h _ _ _ _ hread).stored
  rw [← filled_eq]
  rw [← hact] at hstored
  generalize min len filesize = n at *
  -- what is filled tells how much it is
  have hsame : ∀ k, k < filled dev f map.block pos n ↔ k < n := by
    intro k
    have hk := hstored k
    rw [hfilled] at hk
    constructor
    · intro hlt
      by_contra hge
      rw [if_pos hlt, if_neg hge] at hk
      cases hk
    · intro hlt
      by_contra hge
      rw [if_neg hge, if_pos hlt] at hk
      cases hk
  have h₁ := hsame n
  have h₂ := hsame (filled dev f map.block pos n)
  lia

end Mapped

end Needed

theorem readFile_mapped (hfile : filesize < 2 ^ 32)
    (hact : min len filesize = min len (filesize - pos))
    (hmapped : RangeMapped dev f map pos (min len filesize))
    (hhole : (pos + min len filesize) % fsBlocksize dev f ≠ 0 →
      map.block ((pos + min len filesize) / fsBlocksize dev f) ≠ 0)
    (hend : EndReadable dev f map.block pos (min len filesize))
    (hstraight : Straight dev f map.block pos (min len filesize)) :
    ReadsAlways dev f map filesize pos len := by
  intro byte stale actread stored hread
  obtain ⟨rfl, -⟩ := (readFile_some rfl).mp hread
  refine ⟨hact, ?_⟩
  intro k
  have hfilled : filled (dev.holding byte stale) f map.block pos (min len filesize) =
      min len filesize := filled_eq.mpr hhole
  have hstored := @readFile_filled (dev.holding byte stale) f map filesize pos len _ _ hfile
    hstraight hmapped hend hread k
  rw [hstored, hfilled, ← hact]

theorem readFile_nothing (hzero : min len filesize = 0)
    (hact : min len filesize = min len (filesize - pos))
    (hunmapped : ¬RangeMapped dev f map pos 0) : ReadsAlways dev f map filesize pos len := by
  intro byte stale actread stored hread
  obtain ⟨rfl, s, t, hloop, hspill, rfl⟩ := (readFile_some hzero).mp hread
  refine ⟨by rw [← hact, hzero], ?_⟩
  intro k
  have hlong : map.long (pos / fsBlocksize dev f) < 0 := by
    by_contra hge
    exact hunmapped (mapped_zero (by lia))
  have hmod : pos % fsBlocksize dev f ≠ 0 := by
    intro hz
    apply hunmapped
    intro i hfrom hto
    have hle := Nat.mul_le_mul_left (fsBlocksize dev f) hfrom
    have hdiv := div_add_mod pos (fsBlocksize dev f)
    lia
  rw [← hact, hzero, if_neg (Nat.not_lt_zero k)]
  exact @loop_nothing (dev.holding byte stale) f map pos _ _ hmod hlong hloop hspill k

/- A file that can be read is read as it should be unless the range starts in the file and ends behind
it, has a block that `read_allocated_block` fails for, ends in a hole or in a sector that cannot be
read, or starts in the last sector of a block that the file has twice in a row. -/
theorem readFile_exact (hfile : filesize < 2 ^ 32)
    (hret : (ext4fsReadFile dev f map filesize pos len).isSome = true) :
    ReadsAlways dev f map filesize pos len ↔
      min len filesize = min len (filesize - pos) ∧
        (0 < min len filesize → RangeMapped dev f map pos (min len filesize)) ∧
        ((pos + min len filesize) % fsBlocksize dev f ≠ 0 →
          map.long ((pos + min len filesize) / fsBlocksize dev f) ≠ 0) ∧
        EndReadable dev f map.block pos (min len filesize) ∧
        Straight dev f map.block pos (min len filesize) := by
  have hdivend := div_add_mod (pos + min len filesize) (fsBlocksize dev f)
  have hle : pos / fsBlocksize dev f ≤ (pos + min len filesize) / fsBlocksize dev f :=
    Nat.div_le_div_right (Nat.le_add_right _ _)
  constructor
  · intro h
    -- a range of no bytes has no block but the one at its end
    have hmapped : 0 ≤ map.long ((pos + min len filesize) / fsBlocksize dev f) ∨
        0 < min len filesize → RangeMapped dev f map pos (min len filesize) := by
      intro hor
      by_cases hsome : 0 < min len filesize
      · exact mapped_needed hret h hsome
      · have hzero : min len filesize = 0 := by lia
        rw [hzero] at hor ⊢
        exact mapped_zero (hor.resolve_right (Nat.lt_irrefl 0))
    refine ⟨actread_needed hret h, mapped_needed hret h, ?_, ?_, ?_⟩
    · intro hmod hlong
      exact hole_needed hfile hret h (hmapped (.inl hlong.ge)) hmod
        (Int.toNat_of_nonpos hlong.le)
    · intro hz hmap
      have hlong : 0 < map.long ((pos + min len filesize) / fsBlocksize dev f) := by
        by_contra hneg
        exact hmap (Int.toNat_of_nonpos (by lia))
      exact end_needed hfile hret h (hmapped (.inl hlong.le)) hz hmap
    · intro hlate hto
      have hmod := mod_lt pos (fsBlocksize_pos dev f)
      have hdiv := div_add_mod pos (fsBlocksize dev f)
      rw [mul_succ] at hto
      exact straight_needed hfile hret h (hmapped (.inr (by lia))) hlate (by rwa [mul_succ])
  · intro h
    obtain ⟨hact, hmapped, hhole, hend, hstraight⟩ := h
    by_cases hrange : RangeMapped dev f map pos (min len filesize)
    · refine readFile_mapped hfile hact hrange ?_ hend hstraight
      intro hmod hblock
      have hlong := hrange _ hle (by lia)
      exact hhole hmod (Int.le_antisymm (Int.toNat_eq_zero.mp hblock) hlong)
    · have hzero : min len filesize = 0 := by
        by_contra hne
        exact hrange (hmapped (by lia))
      rw [hzero] at hrange
      exact readFile_nothing hzero hact hrange

def wholeDisk : Device := ⟨9, 2 ^ 20, fun q => UInt8.ofNat q, fun _ => true, fun _ => 0⟩

def oneBlock : BlockMap 1 where
  long i := if i = 0 then 7 else 0
  fits i := by split <;> decide

/- A block of which nothing is known before the file's two blocks, which follow each other. -/
def twoBlocks : BlockMap 1 where
  long i := if i = 0 then -1 else if i < 3 then i + 7 else 0
  fits i := by
    split
    · decide
    split
    · rw [abs_of_nonneg (by lia)]
      lia
    · decide

theorem readFile_exact_middle :
    (ext4fsReadFile wholeDisk 1 twoBlocks 2500 1100 1200).isSome = true ∧
      (ReadsAlways wholeDisk 1 twoBlocks 2500 1100 1200 ↔
        min 1200 2500 = min 1200 (2500 - 1100) ∧
          (0 < min 1200 2500 → RangeMapped wholeDisk 1 twoBlocks 1100 (min 1200 2500)) ∧
          ((1100 + min 1200 2500) % fsBlocksize wholeDisk 1 ≠ 0 →
            twoBlocks.long ((1100 + min 1200 2500) / fsBlocksize wholeDisk 1) ≠ 0) ∧
          EndReadable wholeDisk 1 twoBlocks.block 1100 (min 1200 2500) ∧
          Straight wholeDisk 1 twoBlocks.block 1100 (min 1200 2500)) :=
  ⟨rfl, readFile_exact (by decide) rfl⟩

/- A file of one block, read behind its end. -/
theorem readFile_behind_end :
    ¬∀ (dev : Device) (f : ℕ) (map : BlockMap f) (filesize pos len actread : ℕ)
      (stored : ℕ → Option UInt8), filesize < 2 ^ 32 →
      ext4fsReadFile dev f map filesize pos len = some (actread, stored) →
      ReadsFile dev f map.block filesize pos len actread stored := by
  intro h
  have hread := h wholeDisk 1 oneBlock 1024 1024 1024 1024 _ (by decide) rfl
  exact absurd hread.actread (by decide)

end Whole

end UBoot.Ext4
