import UBoot.Dfu.Model

/-!
# The byte stream of a download

What the calls do depends on a transfer only through the bytes that wait in the buffer, the offset,
the sequence number, the checksum and `bad_skip`. `Transfer` is that state, `none` the uninitialised
entity.
-/

namespace UBoot.Dfu

open Memory List

structure Transfer where
  pending : List UInt8
  offset : ℕ
  seq : ℕ
  crc : ℕ
  badSkip : ℕ
deriving DecidableEq, Repr

structure Outcome (σ : Type) where
  ret : ℤ
  next : Option Transfer
  medium : σ
  events : List Event

variable {σ : Type} (c : Setup σ)

namespace Transfer

def start : Transfer := ⟨[], 0, 0, 0, 0⟩

def drain (m : σ) (t : Transfer) : Outcome σ :=
  if t.pending = [] then ⟨0, some t, m, []⟩
  else
    let crc := match c.hashUpdate with
      | some update => update t.crc t.pending
      | none => t.crc
    let a := c.writeMedium m t.badSkip t.offset t.pending
    ⟨a.ret, some ⟨[], ((t.offset + a.len) % 2 ^ 64).toNat, t.seq, crc, a.badSkip⟩, a.medium,
      [.write t.offset t.pending a.ret]⟩

/- A drain inside `dfu_write`: a failure ends the transfer. -/
def drainIf (full : Bool) (m : σ) (t : Transfer) : Outcome σ :=
  if full then
    let o := drain c m t
    if o.ret ≠ 0 then { o with next := none } else o
  else ⟨0, some t, m, []⟩

/- `n` is the size of the buffer. -/
def append (n : ℕ) (m : σ) (t : Transfer) (buf : List UInt8) : Outcome σ :=
  if n < t.pending.length + buf.length then ⟨-1, none, m, []⟩
  else
    let t₁ := { t with pending := t.pending ++ buf }
    drainIf c (buf.length = 0 || decide (n < t₁.pending.length + buf.length)) m t₁

def write (n : ℕ) (m : σ) (t : Transfer) (buf : List UInt8) (blkSeqNum : ℤ) : Outcome σ :=
  if (t.seq : ℤ) ≠ blkSeqNum then ⟨-1, none, m, []⟩
  else
    let o := drainIf c (decide (n < t.pending.length + buf.length)) m
      { t with seq := (t.seq + 1) % 2 ^ 16 }
    match o.next with
    | none => o
    | some t₁ =>
      let o₁ := append c n o.medium t₁ buf
      { o₁ with events := o.events ++ o₁.events }

def drained (m : σ) : Option Transfer → Outcome σ
  | some t => drain c m t
  | none => ⟨0, none, m, []⟩

def flush (m : σ) (s : Option Transfer) : Outcome σ :=
  let o := drained c m s
  if o.ret ≠ 0 then o
  else
    match c.flushMedium with
    | some f => ⟨(f o.medium).1, none, (f o.medium).2, o.events ++ [.flush (f o.medium).1]⟩
    | none => ⟨0, none, o.medium, o.events⟩

/- `ready` says that there is a buffer. -/
def step (n : ℕ) (ready : Bool) (m : σ) (s : Option Transfer) : Call → Outcome σ
  | .write buf blkSeqNum =>
    match s with
    | some t => write c n m t buf blkSeqNum
    | none => if ready then write c n m start buf blkSeqNum else ⟨enomem, none, m, []⟩
  | .flush => flush c m s

end Transfer

structure Active (n : ℕ) (w : World σ) (t : Transfer) : Prop where
  inited : w.dfu.inited = true
  start : w.dfu.iBufStart = w.dfuBuf
  notNull : w.dfuBuf ≠ 0
  size : w.dfuBufSize = n
  stop : w.dfu.iBufEnd = w.dfu.iBufStart + n
  here : w.dfu.iBuf = w.dfu.iBufStart + t.pending.length
  fits : t.pending.length ≤ n
  pending : bytes w.mem w.dfu.iBufStart t.pending.length = t.pending
  offset : w.dfu.offset = t.offset
  seq : w.dfu.iBlkSeqNum = t.seq
  crc : w.dfu.crc = t.crc
  badSkip : w.dfu.badSkip = t.badSkip

structure Idle (w : World σ) : Prop where
  inited : w.dfu.inited = false
  empty : w.dfu.iBuf = w.dfu.iBufStart
  null : w.dfuBuf = 0 → w.dfu.iBuf = 0

def Shows (n : ℕ) (w : World σ) : Option Transfer → Prop
  | none => Idle w
  | some t => Active n w t

/- The result `r` of a call in `w` is the outcome `o` of the abstract writer. -/
structure Agrees (n : ℕ) (w : World σ) (r : ℤ × World σ) (o : Outcome σ) : Prop where
  ret : r.1 = o.ret
  shows : Shows n r.2 o.next
  medium : r.2.medium = o.medium
  events : r.2.events = w.events ++ o.events
  dfuBuf : r.2.dfuBuf = w.dfuBuf
  dfuBufSize : r.2.dfuBufSize = w.dfuBufSize

section Refinement

variable {c} {n : ℕ} {w : World σ} {t : Transfer}

theorem idle_cleanup (w : World σ) : Idle (dfuWriteTransactionCleanup w) := ⟨rfl, rfl, fun h => h⟩

variable {r : ℤ × World σ} {o : Outcome σ}

theorem Agrees.cleanup (h : Agrees n w r o) (ret : ℤ) :
    Agrees n w (ret, dfuWriteTransactionCleanup r.2) { o with ret := ret, next := none } :=
  { ret := rfl
    shows := idle_cleanup _
    medium := h.medium
    events := h.events
    dfuBuf := h.dfuBuf
    dfuBufSize := h.dfuBufSize }

variable {s : Option Transfer}

theorem Agrees.done (h : Shows n w s) (ret : ℤ) : Agrees n w (ret, w) ⟨ret, s, w.medium, []⟩ :=
  { ret := rfl
    shows := h
    medium := rfl
    events := (append_nil _).symm
    dfuBuf := rfl
    dfuBufSize := rfl }

theorem Agrees.trans {r' : ℤ × World σ} {o' : Outcome σ} (h : Agrees n w r o)
    (h' : Agrees n r.2 r' o') : Agrees n w r' { o' with events := o.events ++ o'.events } :=
  { ret := h'.ret
    shows := h'.shows
    medium := h'.medium
    events := by rw [h'.events, h.events, append_assoc]
    dfuBuf := h'.dfuBuf.trans h.dfuBuf
    dfuBufSize := h'.dfuBufSize.trans h.dfuBufSize }

theorem Active.waiting (h : Active n w t) : w.dfu.iBuf - w.dfu.iBufStart = t.pending.length := by
  rw [h.here, Nat.add_sub_cancel_left]

theorem drain_agrees (h : Active n w t) : Agrees n w (dfuWriteBufferDrain c w) (t.drain c w.medium) := by
  unfold dfuWriteBufferDrain Transfer.drain
  simp only [h.waiting, h.pending, length_eq_zero_iff]
  split
  · exact Agrees.done (s := some t) h 0
  · simp only [h.offset, h.crc, h.badSkip]
    exact
      { ret := rfl
        shows :=
          { inited := h.inited
            start := h.start
            notNull := h.notNull
            size := h.size
            stop := h.stop
            here := rfl
            fits := Nat.zero_le n
            pending := rfl
            offset := rfl
            seq := h.seq
            crc := rfl
            badSkip := rfl }
        medium := rfl
        events := rfl
        dfuBuf := rfl
        dfuBufSize := rfl }

theorem drainIf_agrees (h : Active n w t) (full : Bool) :
    Agrees n w (drainIf c full w) (t.drainIf c full w.medium) := by
  have hdrain := drain_agrees (c := c) h
  unfold drainIf Transfer.drainIf
  cases full with
  | false => exact Agrees.done (s := some t) h 0
  | true =>
    simp only [if_true, hdrain.ret]
    split
    · exact hdrain.cleanup _
    · next hret =>
      have hzero : (t.drain c w.medium).ret = 0 := not_not.mp hret
      exact { hdrain with ret := hzero.symm }

theorem Active.overflows (h : Active n w t) (size : ℕ) :
    overflows w size = decide (n < t.pending.length + size) := by
  unfold Dfu.overflows
  rw [h.stop, h.here, decide_eq_decide]
  omega

theorem Active.gather (h : Active n w t) (buf : List UInt8)
    (hroom : t.pending.length + buf.length ≤ n) :
    Active n (gather w buf) { t with pending := t.pending ++ buf } :=
  { h with
    here := by
      show w.dfu.iBuf + buf.length = w.dfu.iBufStart + (t.pending ++ buf).length
      rw [length_append, h.here, Nat.add_assoc]
    fits := by
      rw [length_append]
      exact hroom
    pending := by
      show bytes (store w.mem w.dfu.iBuf buf) w.dfu.iBufStart (t.pending ++ buf).length = _
      rw [length_append, bytes_add, h.here, bytes_store_same,
        bytes_store_apart _ _ _ _ _ (.inl (le_refl _)), h.pending] }

theorem Active.nextSeqNum (h : Active n w t) :
    Active n (nextSeqNum w) { t with seq := (t.seq + 1) % 2 ^ 16 } :=
  { h with
    seq := by
      show (w.dfu.iBlkSeqNum + 1) % 2 ^ 16 = (t.seq + 1) % 2 ^ 16
      rw [h.seq] }

theorem Transfer.drainIf_cases (c : Setup σ) (full : Bool) (m : σ) (t : Transfer) :
    (∃ t', (t.drainIf c full m).ret = 0 ∧ (t.drainIf c full m).next = some t') ∨
      ((t.drainIf c full m).ret ≠ 0 ∧ (t.drainIf c full m).next = none) := by
  unfold Transfer.drainIf
  cases full with
  | false => exact .inl ⟨t, rfl, rfl⟩
  | true =>
    simp only [if_true]
    split
    · next hret => exact .inr ⟨hret, rfl⟩
    · next hret =>
      have hzero : (t.drain c m).ret = 0 := not_not.mp hret
      left
      unfold Transfer.drain at hzero ⊢
      split
      · exact ⟨t, rfl, rfl⟩
      · next hne =>
        rw [if_neg hne] at hzero
        exact ⟨_, hzero, rfl⟩

theorem appendBlock_agrees (h : Active n w t) (buf : List UInt8) :
    Agrees n w (appendBlock c w buf) (t.append c n w.medium buf) := by
  unfold appendBlock Transfer.append
  rw [h.overflows]
  simp only [decide_eq_true_eq]
  split
  · exact (Agrees.done (s := some t) h 0).cleanup (-1)
  · next hroom =>
    have hgather := h.gather buf (by omega)
    rw [hgather.overflows]
    exact { drainIf_agrees hgather _ with }

theorem writeBlock_agrees (h : Active n w t) (buf : List UInt8) (blkSeqNum : ℤ) :
    Agrees n w (writeBlock c w buf blkSeqNum) (t.write c n w.medium buf blkSeqNum) := by
  unfold writeBlock Transfer.write
  rw [h.seq]
  split
  · exact (Agrees.done (s := some t) h 0).cleanup (-1)
  · have hcases := Transfer.drainIf_cases c (decide (n < t.pending.length + buf.length)) w.medium
      { t with seq := (t.seq + 1) % 2 ^ 16 }
    have hdrain : Agrees n w _ (Transfer.drainIf c _ w.medium _) :=
      { drainIf_agrees (c := c) h.nextSeqNum (decide (n < t.pending.length + buf.length)) with }
    simp only [h.nextSeqNum.overflows, hdrain.ret]
    generalize drainIf c (decide (n < t.pending.length + buf.length)) (nextSeqNum w) = r at *
    generalize Transfer.drainIf c (decide (n < t.pending.length + buf.length)) w.medium
      { t with seq := (t.seq + 1) % 2 ^ 16 } = o at *
    cases hcases with
    | inl hok =>
      obtain ⟨t', hret, ht'⟩ := hok
      have hshows := hdrain.shows
      rw [ht'] at hshows
      have happ := appendBlock_agrees (c := c) hshows buf
      rw [hdrain.medium] at happ
      simp only [hret, ht', ne_eq, not_true_eq_false, if_false]
      exact hdrain.trans happ
    | inr hfail =>
      obtain ⟨hret, hnone⟩ := hfail
      simp only [hnone, if_pos hret]
      exact { hdrain with ret := rfl }

def bufSize (c : Setup σ) (w : World σ) : ℕ :=
  if w.dfuBuf ≠ 0 then w.dfuBufSize else chosenSize c

def hasBuf (c : Setup σ) (w : World σ) : Bool :=
  decide (w.dfuBuf ≠ 0) || decide (c.memalign (chosenSize c) ≠ 0)

/- The result `r` of a whole call in `w`; the buffer may have been allocated by it. -/
structure Follows (c : Setup σ) (w : World σ) (r : ℤ × World σ) (o : Outcome σ) : Prop where
  ret : r.1 = o.ret
  shows : Shows (bufSize c w) r.2 o.next
  medium : r.2.medium = o.medium
  events : r.2.events = w.events ++ o.events
  bufSize : bufSize c r.2 = bufSize c w
  hasBuf : hasBuf c r.2 = hasBuf c w

theorem Agrees.follows {w₁ : World σ} (h : Agrees (bufSize c w) w₁ r o)
    (hevents : w₁.events = w.events) (hsize : Dfu.bufSize c w₁ = Dfu.bufSize c w)
    (hbuf : Dfu.hasBuf c w₁ = Dfu.hasBuf c w) : Follows c w r o :=
  { ret := h.ret
    shows := h.shows
    medium := h.medium
    events := by rw [h.events, hevents]
    bufSize := by
      unfold Dfu.bufSize at hsize ⊢
      rw [h.dfuBuf, h.dfuBufSize, hsize]
    hasBuf := by
      unfold Dfu.hasBuf at hbuf ⊢
      rw [h.dfuBuf, hbuf] }

theorem initial_cases (c : Setup σ) (w : World σ) :
    (w.dfuBuf ≠ 0 ∧ initial c w = { w with
      dfu := ⟨0, 0, 0, w.dfuBuf, w.dfuBuf, w.dfuBuf + w.dfuBufSize, 0, true⟩ }) ∨
    (w.dfuBuf = 0 ∧ c.memalign (chosenSize c) ≠ 0 ∧ initial c w = { w with
      dfu := ⟨0, 0, 0, c.memalign (chosenSize c), c.memalign (chosenSize c),
        c.memalign (chosenSize c) + chosenSize c, 0, true⟩
      dfuBuf := c.memalign (chosenSize c)
      dfuBufSize := chosenSize c }) ∨
    (w.dfuBuf = 0 ∧ c.memalign (chosenSize c) = 0 ∧ initial c w = { w with
      dfu := ⟨0, 0, 0, w.dfu.iBuf, 0, w.dfu.iBufEnd, 0, w.dfu.inited⟩
      dfuBuf := 0
      dfuBufSize := chosenSize c }) := by
  unfold initial dfuGetBuf
  by_cases hbuf : w.dfuBuf = 0
  · by_cases hnew : c.memalign (chosenSize c) = 0
    · simp [hbuf, hnew]
    · simp [hbuf, hnew]
  · simp [hbuf]

theorem initial_frame (c : Setup σ) (w : World σ) :
    (initial c w).medium = w.medium ∧ (initial c w).events = w.events ∧
      bufSize c (initial c w) = bufSize c w ∧ hasBuf c (initial c w) = hasBuf c w := by
  unfold bufSize hasBuf
  obtain ⟨hbuf, heq⟩ | ⟨hbuf, hnew, heq⟩ | ⟨hbuf, hnew, heq⟩ := initial_cases c w
  · simp [heq]
  · simp [heq, hbuf, hnew]
  · simp [heq, hbuf, hnew]

theorem initial_active (h : hasBuf c w = true) : Active (bufSize c w) (initial c w) Transfer.start := by
  unfold hasBuf at h
  unfold bufSize
  obtain ⟨hbuf, heq⟩ | ⟨hbuf, hnew, heq⟩ | ⟨hbuf, hnew, heq⟩ := initial_cases c w
  · rw [heq, if_pos hbuf]
    exact ⟨rfl, rfl, hbuf, rfl, rfl, rfl, Nat.zero_le _, rfl, rfl, rfl, rfl, rfl⟩
  · rw [heq, if_neg (not_not.mpr hbuf)]
    exact ⟨rfl, rfl, hnew, rfl, rfl, rfl, Nat.zero_le _, rfl, rfl, rfl, rfl, rfl⟩
  · simp [hbuf, hnew] at h

theorem initial_idle (hi : Idle w) (h : hasBuf c w = false) :
    Idle (initial c w) ∧ (initial c w).dfu.iBufStart = 0 := by
  unfold hasBuf at h
  obtain ⟨hbuf, heq⟩ | ⟨hbuf, hnew, heq⟩ | ⟨hbuf, hnew, heq⟩ := initial_cases c w
  · simp [hbuf] at h
  · simp [hnew] at h
  · rw [heq]
    exact ⟨⟨hi.inited, hi.null hbuf, fun _ => hi.null hbuf⟩, rfl⟩

theorem Active.iBufStart_ne (h : Active n w t) : w.dfu.iBufStart ≠ 0 := by
  rw [h.start]
  exact h.notNull

theorem dfuWrite_follows (h : Shows (bufSize c w) w s) (buf : List UInt8) (blkSeqNum : ℤ) :
    Follows c w (dfuWrite c w buf blkSeqNum)
      (Transfer.step c (bufSize c w) (hasBuf c w) w.medium s (.write buf blkSeqNum)) := by
  obtain ⟨hmedium, hevents, hsize, hbuf⟩ := initial_frame c w
  cases s with
  | some t =>
    have ha : Active (bufSize c w) w t := h
    unfold dfuWrite
    rw [ha.inited]
    exact (writeBlock_agrees ha buf blkSeqNum).follows rfl rfl rfl
  | none =>
    have hi : Idle w := h
    unfold dfuWrite
    simp only [hi.inited, Bool.false_eq_true, if_false]
    cases hb : hasBuf c w with
    | true =>
      have ha := initial_active hb
      have hwrite := writeBlock_agrees (c := c) ha buf blkSeqNum
      rw [hmedium] at hwrite
      rw [if_neg ha.iBufStart_ne]
      exact hwrite.follows hevents hsize hbuf
    | false =>
      obtain ⟨hidle, hnull⟩ := initial_idle hi hb
      rw [if_pos hnull]
      exact
        { ret := rfl
          shows := hidle
          medium := hmedium
          events := by
            rw [hevents]
            exact (append_nil _).symm
          bufSize := hsize
          hasBuf := hbuf }

theorem drain_idle (hi : Idle w) : dfuWriteBufferDrain c w = (0, w) := by
  unfold dfuWriteBufferDrain
  rw [hi.empty, Nat.sub_self, if_pos rfl]

theorem finish_agrees (h : Agrees n w r o) :
    Agrees n w
      (if r.1 ≠ 0 then (r.1, r.2)
        else match c.flushMedium with
          | some flush =>
            ((flush r.2.medium).1, dfuWriteTransactionCleanup
              { r.2 with
                medium := (flush r.2.medium).2
                events := r.2.events ++ [.flush (flush r.2.medium).1] })
          | none => (0, dfuWriteTransactionCleanup r.2))
      (if o.ret ≠ 0 then o
        else match c.flushMedium with
          | some f => ⟨(f o.medium).1, none, (f o.medium).2, o.events ++ [.flush (f o.medium).1]⟩
          | none => ⟨0, none, o.medium, o.events⟩) := by
  rw [h.ret]
  split
  · exact { h with ret := rfl }
  · cases c.flushMedium with
    | none => exact { h.cleanup 0 with }
    | some f =>
      rw [h.medium]
      exact
        { ret := rfl
          shows := idle_cleanup _
          medium := rfl
          events := by
            show r.2.events ++ _ = _
            rw [h.events, append_assoc]
          dfuBuf := h.dfuBuf
          dfuBufSize := h.dfuBufSize }

theorem dfuFlush_follows (h : Shows (bufSize c w) w s) :
    Follows c w (dfuFlush c w) (Transfer.flush c w.medium s) := by
  have hdrain : Agrees (bufSize c w) w (dfuWriteBufferDrain c w)
      (Transfer.drained c w.medium s) := by
    cases s with
    | some t => exact drain_agrees h
    | none =>
      rw [drain_idle h]
      exact Agrees.done (s := none) h 0
  exact (finish_agrees (c := c) hdrain).follows rfl rfl rfl

theorem call_follows (h : Shows (bufSize c w) w s) (k : Call) :
    Follows c w (call c w k) (Transfer.step c (bufSize c w) (hasBuf c w) w.medium s k) := by
  cases k with
  | write buf blkSeqNum => exact dfuWrite_follows h buf blkSeqNum
  | flush => exact dfuFlush_follows h

def Transfer.run (c : Setup σ) (n : ℕ) (ready : Bool) :
    σ → Option Transfer → List Call → List ℤ × Outcome σ
  | m, s, [] => ([], ⟨0, s, m, []⟩)
  | m, s, k :: ks =>
    let o := Transfer.step c n ready m s k
    let (rets, o₁) := Transfer.run c n ready o.medium o.next ks
    (o.ret :: rets, { o₁ with events := o.events ++ o₁.events })

theorem run_follows (h : Shows (bufSize c w) w s) (ks : List Call) :
    (run c w ks).1 = (Transfer.run c (bufSize c w) (hasBuf c w) w.medium s ks).1 ∧
      Follows c w (0, (run c w ks).2)
        { (Transfer.run c (bufSize c w) (hasBuf c w) w.medium s ks).2 with ret := 0 } := by
  induction ks generalizing w s with
  | nil =>
    refine ⟨rfl, ?_⟩
    exact
      { ret := rfl
        shows := h
        medium := rfl
        events := (append_nil _).symm
        bufSize := rfl
        hasBuf := rfl }
  | cons k ks ih =>
    have hcall := call_follows h k
    have hshows := hcall.shows
    rw [← hcall.bufSize] at hshows
    obtain ⟨hrets, hrest⟩ := ih hshows
    rw [hcall.bufSize, hcall.hasBuf, hcall.medium] at hrets hrest
    constructor
    · show (call c w k).1 :: (run c (call c w k).2 ks).1 = _
      rw [hcall.ret, hrets]
      rfl
    · exact
        { ret := rfl
          shows := by
            have := hrest.shows
            rw [hcall.bufSize] at this
            exact this
          medium := hrest.medium
          events := by
            show (run c (call c w k).2 ks).2.events = _
            rw [hrest.events, hcall.events, append_assoc]
            rfl
          bufSize := hrest.bufSize.trans hcall.bufSize
          hasBuf := hrest.hasBuf.trans hcall.hasBuf }

end Refinement

end UBoot.Dfu
