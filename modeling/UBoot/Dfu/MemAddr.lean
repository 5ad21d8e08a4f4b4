import UBoot.Dfu.Download

/-!
# Writing from memory (drivers/dfu/dfu.c)

`dfu_write_from_mem_addr` cuts a piece of memory into blocks. The number of a block is an `int`,
where `dfu_write` counts modulo 65536.
-/

namespace UBoot.Dfu

open Memory Option

variable {σ : Type} (c : Setup σ)

/- The loop with `i`, `left` and `dp`, and the flush behind it. -/
def memAddrLoop (dfuBufSize : ℕ) : ℕ → World σ → ℕ → ℕ → ℕ → Option (ℤ × World σ)
  | 0, _, _, _, _ => none
  | fuel + 1, w, i, left, dp =>
    if left = 0 then some (dfuFlush c w)
    else
      let write := min dfuBufSize left
      let (ret, w₁) := dfuWrite c w (bytes w.mem dp write) i
      if ret ≠ 0 then some (ret, w₁)
      else memAddrLoop dfuBufSize fuel w₁ (i + 1) (left - write) (dp + write)

/- With a buffer of no size the blocks are empty, and the counters end the loop. -/
def dfuWriteFromMemAddr (w : World σ) (buf size : ℕ) : Option (ℤ × World σ) :=
  let (_, w₁) := dfuGetBuf c w
  memAddrLoop c w₁.dfuBufSize (size + 2 ^ 16 + 2) w₁ 0 size buf

/- It returns 0, and the medium was written with the bytes at `buf`, in order and without gaps. -/
def WritesAll (w : World σ) (buf size : ℕ) : Prop :=
  ∃ w₁ events, dfuWriteFromMemAddr c w buf size = some (0, w₁) ∧ w₁.events = w.events ++ events ∧
    Consecutive 0 (writes events) ∧ stream events = bytes w.mem buf size

def bufAddr (w : World σ) : ℕ := if w.dfuBuf ≠ 0 then w.dfuBuf else c.memalign (chosenSize c)

def Apart (w : World σ) (buf size : ℕ) : Prop :=
  buf + size ≤ bufAddr c w ∨ bufAddr c w + bufSize c w ≤ buf

structure Keeps (n : ℕ) (w w₁ : World σ) : Prop where
  dfuBuf : w₁.dfuBuf = w.dfuBuf
  mem : ∀ a, a < w.dfuBuf ∨ w.dfuBuf + n ≤ a → w₁.mem a = w.mem a

section Keeps

variable {c} {n : ℕ} {w w₁ w₂ : World σ} {t : Transfer}

theorem Keeps.of_eq (hbuf : w₁.dfuBuf = w.dfuBuf) (hmem : w₁.mem = w.mem) : Keeps n w w₁ :=
  ⟨hbuf, fun a _ => by rw [hmem]⟩

theorem Keeps.trans (h : Keeps n w w₁) (h' : Keeps n w₁ w₂) : Keeps n w w₂ := by
  refine ⟨h'.dfuBuf.trans h.dfuBuf, fun a ha => ?_⟩
  rw [h'.mem a (by rw [h.dfuBuf]; exact ha), h.mem a ha]

theorem drainIf_keeps (full : Bool) (w : World σ) : Keeps n w (drainIf c full w).2 := by
  unfold drainIf dfuWriteBufferDrain
  cases full with
  | false => exact Keeps.of_eq rfl rfl
  | true =>
    simp only [if_true]
    by_cases hempty : w.dfu.iBuf - w.dfu.iBufStart = 0
    · simp only [if_pos hempty, ne_eq, not_true_eq_false, if_false]
      exact Keeps.of_eq rfl rfl
    · simp only [if_neg hempty]
      split
      · exact Keeps.of_eq rfl rfl
      · exact Keeps.of_eq rfl rfl

theorem appendBlock_keeps (h : Active n w t) (buf : List UInt8) : Keeps n w (appendBlock c w buf).2 := by
  unfold appendBlock
  split
  · exact Keeps.of_eq rfl rfl
  · next hroom =>
    rw [h.overflows, decide_eq_true_eq] at hroom
    have hgather : Keeps n w (gather w buf) := by
      refine ⟨rfl, fun a ha => ?_⟩
      have hhere := h.here
      have hstart := h.start
      exact store_outside w.mem w.dfu.iBuf buf (by lia)
    exact hgather.trans (drainIf_keeps _ _)

theorem writeBlock_keeps (h : Active n w t) (buf : List UInt8) (blkSeqNum : ℤ) :
    Keeps n w (writeBlock c w buf blkSeqNum).2 := by
  unfold writeBlock
  split
  · exact Keeps.of_eq rfl rfl
  · have hnext : Keeps n w (nextSeqNum w) := Keeps.of_eq rfl rfl
    have hdrain := hnext.trans (drainIf_keeps (c := c) (overflows (nextSeqNum w) buf.length) _)
    have hcases := Transfer.drainIf_cases c (overflows (nextSeqNum w) buf.length) w.medium
      { t with seq := (t.seq + 1) % 2 ^ 16 }
    have hagrees := drainIf_agrees (c := c) h.nextSeqNum (overflows (nextSeqNum w) buf.length)
    simp only
    split
    · exact hdrain
    · next hret =>
      rw [hagrees.ret] at hret
      rcases hcases with ⟨t', -, ht'⟩ | ⟨hfail, -⟩
      · have hshows := hagrees.shows
        rw [show (nextSeqNum w).medium = w.medium by rfl, ht'] at hshows
        exact hdrain.trans (appendBlock_keeps hshows buf)
      · exact absurd hfail hret

theorem dfuWrite_keeps {s : Option Transfer} (h : Shows (bufSize c w) w s) (hbuf : w.dfuBuf ≠ 0)
    (buf : List UInt8) (blkSeqNum : ℤ) : Keeps (bufSize c w) w (dfuWrite c w buf blkSeqNum).2 := by
  unfold dfuWrite
  cases s with
  | some t =>
    have ha : Active (bufSize c w) w t := h
    rw [ha.inited, if_pos rfl]
    exact writeBlock_keeps ha buf blkSeqNum
  | none =>
    have hi : Idle w := h
    have hready : hasBuf c w = true := by
      rw [hasBuf, decide_eq_true hbuf, Bool.true_or]
    have ha := initial_active (c := c) hready
    have hinit : Keeps (bufSize c w) w (initial c w) := by
      obtain ⟨-, heq⟩ | ⟨hnull, -⟩ | ⟨hnull, -⟩ := initial_cases c w
      · rw [heq]
        exact Keeps.of_eq rfl rfl
      · exact absurd hnull hbuf
      · exact absurd hnull hbuf
    rw [hi.inited, if_neg Bool.false_ne_true]
    simp only
    rw [if_neg ha.iBufStart_ne]
    exact hinit.trans (writeBlock_keeps ha buf blkSeqNum)

end Keeps

section Loop

variable {c} {n : ℕ} {w : World σ} {s : Option Transfer}

theorem hasBuf_of_ne (hbuf : w.dfuBuf ≠ 0) : hasBuf c w = true := by
  rw [hasBuf, decide_eq_true hbuf, Bool.true_or]

theorem dfuWrite_numbered (ho : Obedient c) (h : Shows (bufSize c w) w s) (hbuf : w.dfuBuf ≠ 0)
    {i : ℕ} (hseq : (s.getD Transfer.start).seq = i % 2 ^ 16) {buf : List UInt8}
    (hlen : buf.length ≤ bufSize c w) :
    (i = 2 ^ 16 → (dfuWrite c w buf i).1 ≠ 0) ∧
      (i < 2 ^ 16 → (dfuWrite c w buf i).1 = 0 ∧ ∃ t' events,
        Shows (bufSize c w) (dfuWrite c w buf i).2 (some t') ∧ t'.seq = (i + 1) % 2 ^ 16 ∧
        (dfuWrite c w buf i).2.events = w.events ++ events ∧
        Moved (s.getD Transfer.start) buf t' events) := by
  have hfollows := dfuWrite_follows h buf i
  have hstep : Transfer.step c (bufSize c w) (hasBuf c w) w.medium s (.write buf i) =
      Transfer.write c (bufSize c w) w.medium (s.getD Transfer.start) buf i := by
    rw [hasBuf_of_ne hbuf]
    cases s with
    | some t => rfl
    | none => rfl
  rw [hstep] at hfollows
  constructor
  · intro heq
    rw [hfollows.ret]
    exact write_wrong _ _ _ _ _ (by rw [hseq, heq]; decide)
  · intro hlt
    have hnum : (i : ℤ) = (s.getD Transfer.start).seq := by rw [hseq, Nat.mod_eq_of_lt hlt]
    obtain ⟨t', hret, hnext, -, hseq', hmoved⟩ :=
      write_moves (m := w.medium) (t := s.getD Transfer.start) ho hlen
    rw [← hnum] at hret hnext hmoved
    refine ⟨hfollows.ret.trans hret, t', _, ?_, ?_, hfollows.events, hmoved⟩
    · rw [← hnext]
      exact hfollows.shows
    · rw [hseq', hseq]
      lia

theorem room_behind {i left k : ℕ} (hi : i < 2 ^ 16) (hk : k ≤ left ∧ (k = n ∨ k = left ∧ left ≤ n)) :
    (i + 1) * n + (left - k) ≤ 2 ^ 16 * n ↔ i * n + left ≤ 2 ^ 16 * n := by
  have hmul := Nat.mul_le_mul_right n (show i + 1 ≤ 2 ^ 16 from hi)
  rw [Nat.add_mul, Nat.one_mul] at hmul ⊢
  obtain ⟨hle, rfl | ⟨rfl, hn⟩⟩ := hk
  · lia
  · lia

theorem memAddrLoop_moves (ho : Obedient c) {i left dp fuel : ℕ} (hn : 0 < n)
    (hsize : bufSize c w = n) (h : Shows n w s) (hbuf : w.dfuBuf ≠ 0)
    (hseq : (s.getD Transfer.start).seq = i % 2 ^ 16) (hi : i ≤ 2 ^ 16)
    (hsome : left = 0 → s.isSome = true) (hfuel : left < fuel)
    (hapart : dp + left ≤ w.dfuBuf ∨ w.dfuBuf + n ≤ dp) :
    ∃ ret w₁, memAddrLoop c n fuel w i left dp = some (ret, w₁) ∧
      (ret = 0 ↔ i * n + left ≤ 2 ^ 16 * n) ∧
      (ret = 0 → ∃ events t', w₁.events = w.events ++ events ∧ t'.pending = [] ∧
        Moved (s.getD Transfer.start) (bytes w.mem dp left) t' events) := by
  induction fuel generalizing w s i left dp with
  | zero => lia
  | succ fuel ih =>
    rw [memAddrLoop]
    by_cases hleft : left = 0
    · subst hleft
      obtain ⟨t, rfl⟩ := isSome_iff_exists.mp (hsome rfl)
      rw [← hsize] at h
      have hfollows := dfuFlush_follows (c := c) h
      obtain ⟨hret, -, t', hpending, hmoved⟩ := flush_moves (m := w.medium) (t := t) ho
      rw [if_pos rfl]
      refine ⟨_, _, rfl, ?_, fun _ => ⟨_, t', hfollows.events, hpending, hmoved⟩⟩
      have hmul := Nat.mul_le_mul_right n hi
      exact ⟨fun _ => by lia, fun _ => hfollows.ret.trans hret⟩
    · rw [if_neg hleft]
      obtain ⟨k, hk⟩ : ∃ k, min n left = k := ⟨_, rfl⟩
      have hpos : 0 < k ∧ k ≤ left ∧ (k = n ∨ k = left ∧ left ≤ n) := by lia
      rw [hk]
      rw [← hsize] at h
      have hlen : (bytes w.mem dp k).length ≤ bufSize c w := by
        rw [length_bytes]
        lia
      obtain ⟨hwrong, hright⟩ := dfuWrite_numbered ho h hbuf hseq hlen
      rcases Nat.lt_or_ge i (2 ^ 16) with hlt | hge
      · obtain ⟨hret, t', events, hshows, hseq', hevents, hmoved⟩ := hright hlt
        have hkeeps := dfuWrite_keeps (c := c) h hbuf (bytes w.mem dp k) i
        have hsize' := (dfuWrite_follows h (bytes w.mem dp k) i).bufSize
        rw [hsize] at hkeeps hshows hsize'
        simp only [hret, ne_eq, not_true_eq_false, if_false]
        obtain ⟨ret, w₁, hloop, hiff, hok⟩ := @ih _ (some t') (i + 1) (left - k) (dp + k) hsize'
          hshows (by rw [hkeeps.dfuBuf]; exact hbuf) hseq' (by lia) (fun _ => rfl) (by lia)
          (by rw [hkeeps.dfuBuf]; lia)
        refine ⟨ret, w₁, hloop, ?_, ?_⟩
        · rw [hiff]
          exact room_behind hlt hpos.2
        · intro hzero
          obtain ⟨events', t₁, hevents', hpending, hmoved'⟩ := hok hzero
          refine ⟨events ++ events', t₁, by rw [hevents', hevents, List.append_assoc], hpending, ?_⟩
          have hrest : bytes (dfuWrite c w (bytes w.mem dp k) i).2.mem (dp + k) (left - k) =
              bytes w.mem (dp + k) (left - k) := by
            apply bytes_congr
            intro x hx hx'
            exact hkeeps.mem x (by lia)
          rw [hrest] at hmoved'
          have htotal := hmoved.trans hmoved'
          rw [← bytes_add, Nat.add_sub_cancel' hpos.2.1] at htotal
          exact htotal
      · obtain rfl : i = 2 ^ 16 := Nat.le_antisymm hi hge
        have hne := hwrong rfl
        simp only [if_pos hne]
        refine ⟨_, _, rfl, ⟨fun hzero => absurd hzero hne, fun hle => ?_⟩,
          fun hzero => absurd hzero hne⟩
        lia

/- The buffer is there after `dfu_get_buf`, with its size. -/
structure Got (c : Setup σ) (w w₁ : World σ) : Prop where
  idle : Idle w₁
  dfuBuf : w₁.dfuBuf = bufAddr c w
  notNull : w₁.dfuBuf ≠ 0
  dfuBufSize : w₁.dfuBufSize = bufSize c w
  bufSize : bufSize c w₁ = bufSize c w
  mem : w₁.mem = w.mem
  events : w₁.events = w.events

theorem dfuGetBuf_got (h : Idle w) (hready : hasBuf c w = true) : Got c w (dfuGetBuf c w).2 := by
  unfold dfuGetBuf
  by_cases hbuf : w.dfuBuf ≠ 0
  · rw [if_pos hbuf]
    have haddr : w.dfuBuf = bufAddr c w := (if_pos hbuf).symm
    have hsize : w.dfuBufSize = Dfu.bufSize c w := (if_pos hbuf).symm
    exact ⟨h, haddr, hbuf, hsize, rfl, rfl, rfl⟩
  · have hnew : c.memalign (chosenSize c) ≠ 0 := by
      rw [hasBuf, decide_eq_false hbuf, Bool.false_or, decide_eq_true_eq] at hready
      exact hready
    have haddr : c.memalign (chosenSize c) = bufAddr c w := (if_neg hbuf).symm
    have hsize : chosenSize c = Dfu.bufSize c w := (if_neg hbuf).symm
    rw [if_neg hbuf]
    exact ⟨⟨h.inited, h.empty, fun hnull => absurd hnull hnew⟩, haddr, hnew, hsize,
      (if_pos hnew).trans hsize, rfl, rfl⟩

theorem dfuWriteFromMemAddr_spec {buf size : ℕ} (h : Idle w) (ho : Obedient c)
    (hready : hasBuf c w = true) (hn : 0 < bufSize c w) (hpos : 0 < size)
    (hapart : Apart c w buf size) :
    ∃ ret w₁, dfuWriteFromMemAddr c w buf size = some (ret, w₁) ∧
      (ret = 0 ↔ size ≤ 2 ^ 16 * bufSize c w) ∧
      (ret = 0 → ∃ events t', w₁.events = w.events ++ events ∧ t'.pending = [] ∧
        Moved Transfer.start (bytes w.mem buf size) t' events) := by
  have hgot := dfuGetBuf_got h hready
  have hshows : Shows (bufSize c w) (dfuGetBuf c w).2 none := hgot.idle
  have hapart' : buf + size ≤ (dfuGetBuf c w).2.dfuBuf ∨
      (dfuGetBuf c w).2.dfuBuf + bufSize c w ≤ buf := by
    rw [hgot.dfuBuf]
    exact hapart
  obtain ⟨ret, w₁, hloop, hiff, hok⟩ := memAddrLoop_moves ho hn hgot.bufSize hshows hgot.notNull
    (show (Option.getD none Transfer.start).seq = 0 % 2 ^ 16 from rfl) (Nat.zero_le _)
    (fun hzero => absurd hzero (Nat.pos_iff_ne_zero.mp hpos))
    (show size < size + 2 ^ 16 + 2 by lia) hapart'
  have hcall : dfuWriteFromMemAddr c w buf size = some (ret, w₁) := by
    rw [← hloop, ← hgot.dfuBufSize]
    rfl
  rw [Nat.zero_mul, Nat.zero_add] at hiff
  rw [hgot.mem, hgot.events] at hok
  exact ⟨ret, w₁, hcall, hiff, hok⟩

/- For an entity that is in no transfer, a buffer and a medium that takes everything: all of the
memory is written if it makes at most 65536 blocks, and only then. -/
theorem write_from_mem_addr_iff {buf size : ℕ} (h : Idle w) (ho : Obedient c)
    (hready : hasBuf c w = true) (hn : 0 < bufSize c w) (hpos : 0 < size) (hint : size < 2 ^ 31)
    (hapart : Apart c w buf size) : WritesAll c w buf size ↔ size ≤ 2 ^ 16 * bufSize c w := by
  obtain ⟨ret, w₁, hcall, hiff, hok⟩ := dfuWriteFromMemAddr_spec h ho hready hn hpos hapart
  rw [← hiff]
  constructor
  · intro hall
    obtain ⟨w₂, _, hzero, -⟩ := hall
    rw [hcall] at hzero
    exact (Prod.mk.inj (some.inj hzero)).1
  · intro hzero
    obtain ⟨events, t', hevents, hpending, hmoved⟩ := hok hzero
    have hstream := hmoved.stream
    rw [hpending, List.append_nil] at hstream
    refine ⟨w₁, events, by rw [hcall, hzero], hevents, ?_, hstream⟩
    refine hmoved.consecutive 0 rfl ?_
    rw [Nat.zero_add, List.length_append, length_bytes]
    show 0 + size ≤ 2 ^ 64
    lia

end Loop

theorem ten_bytes_written : WritesAll (fourBytes 0) blank 8192 10 :=
  (write_from_mem_addr_iff idle_blank obedient_fourBytes (by decide) (by decide) (by decide)
    (by decide) (.inr (by decide))).mpr (by decide)

/- 65537 blocks: the last one has the number 65536, where `dfu_write` waits for 0. -/
theorem block_65536_refused : ¬ WritesAll (fourBytes 0) blank 8192 262145 := by
  obtain ⟨ret, w₁, hcall, hiff, -⟩ := @dfuWriteFromMemAddr_spec _ (fourBytes 0) blank 8192 262145
    idle_blank obedient_fourBytes (by decide) (by decide) (by decide) (.inr (by decide))
  intro hall
  obtain ⟨w₂, _, hzero, -⟩ := hall
  rw [hcall] at hzero
  have hroom := hiff.mp (Prod.mk.inj (some.inj hzero)).1
  exact absurd hroom (by decide)

end UBoot.Dfu
