import UBoot.Dfu.Stream

/-!
# A download writes the stream

With a medium that takes everything, the bytes that reach it are those of the blocks, in order and
without a gap. A failure ends the transfer with an error, but `dfu_flush` returns the error of its
own drain without the cleanup.
-/

namespace UBoot.Dfu

open List

variable {σ : Type}

def Event.written : Event → Option (ℕ × List UInt8)
  | .write offset data _ => some (offset, data)
  | .flush _ => none

/- The `write_medium` calls among some events. -/
def writes (events : List Event) : List (ℕ × List UInt8) := events.filterMap Event.written

def stream (events : List Event) : List UInt8 := ((writes events).map Prod.snd).flatten

def Consecutive : ℕ → List (ℕ × List UInt8) → Prop
  | _, [] => True
  | base, (offset, data) :: rest => offset = base ∧ Consecutive (base + data.length) rest

@[simp] theorem writes_append (es es' : List Event) :
    writes (es ++ es') = writes es ++ writes es' := filterMap_append

@[simp] theorem stream_append (es es' : List Event) :
    stream (es ++ es') = stream es ++ stream es' := by
  simp [stream]

theorem consecutive_append {base : ℕ} {xs ys : List (ℕ × List UInt8)} :
    Consecutive base (xs ++ ys) ↔
      Consecutive base xs ∧ Consecutive (base + (xs.map Prod.snd).flatten.length) ys := by
  induction xs generalizing base with
  | nil => simp [Consecutive]
  | cons x xs ih =>
    obtain ⟨offset, data⟩ := x
    simp only [cons_append, Consecutive, ih, map_cons, flatten_cons,
      length_append, Nat.add_assoc, and_assoc]

structure Obedient (c : Setup σ) : Prop where
  ret : ∀ m b offset data, (c.writeMedium m b offset data).ret = 0
  len : ∀ m b offset data, (c.writeMedium m b offset data).len = data.length
  flush : ∀ f, c.flushMedium = some f → ∀ m, (f m).1 = 0

/- Between `t` and `t'` the bytes `buf` came in and `events` went out. -/
structure Moved (t : Transfer) (buf : List UInt8) (t' : Transfer) (events : List Event) : Prop where
  stream : stream events ++ t'.pending = t.pending ++ buf
  offset : ∀ base, t.offset = base % 2 ^ 64 →
    t'.offset = (base + (Dfu.stream events).length) % 2 ^ 64
  consecutive : ∀ base, t.offset = base % 2 ^ 64 →
    base + (t.pending ++ buf).length ≤ 2 ^ 64 → Consecutive base (writes events)

section Moves

variable {c : Setup σ} {n : ℕ} {m : σ} {t t₁ t₂ : Transfer} {buf buf' : List UInt8}
  {es es' : List Event}

theorem Moved.refl (t : Transfer) : Moved t [] t [] :=
  { stream := by simp [Dfu.stream, writes]
    offset := fun base h => by simpa [Dfu.stream, writes] using h
    consecutive := fun _ _ _ => trivial }

theorem Moved.trans (h : Moved t buf t₁ es) (h' : Moved t₁ buf' t₂ es') :
    Moved t (buf ++ buf') t₂ (es ++ es') :=
  { stream := by
      rw [stream_append, append_assoc, h'.stream, ← append_assoc, h.stream, append_assoc]
    offset := by
      intro base hbase
      rw [stream_append, length_append, ← Nat.add_assoc]
      exact h'.offset _ (h.offset base hbase)
    consecutive := by
      intro base hbase hfits
      have hlen := congrArg List.length h.stream
      simp only [length_append] at hlen hfits
      rw [writes_append, consecutive_append]
      constructor
      · apply h.consecutive base hbase
        rw [length_append]
        lia
      · apply h'.consecutive _ (h.offset base hbase)
        rw [length_append]
        simp only [Dfu.stream] at hlen ⊢
        lia }

theorem drain_moves (ho : Obedient c) :
    ∃ t', (t.drain c m).ret = 0 ∧ (t.drain c m).next = some t' ∧ t'.pending = [] ∧
      t'.seq = t.seq ∧ Moved t [] t' (t.drain c m).events := by
  unfold Transfer.drain
  split
  · next hnil => exact ⟨t, rfl, rfl, hnil, rfl, Moved.refl t⟩
  · next hne =>
    refine ⟨_, ho.ret _ _ _ _, rfl, rfl, rfl, ?_⟩
    exact
      { stream := by simp [Dfu.stream, writes, Event.written]
        offset := by
          intro base hbase
          simp only [ho.len, Dfu.stream, writes, Event.written, filterMap_cons,
            filterMap_nil, map_cons, map_nil, flatten_cons,
            flatten_nil, append_nil]
          lia
        consecutive := by
          intro base hbase hfits
          have hpos := length_pos_iff.mpr hne
          rw [append_nil] at hfits
          refine ⟨?_, trivial⟩
          rw [hbase, Nat.mod_eq_of_lt (by lia)] }

theorem drainIf_moves (ho : Obedient c) (full : Bool) :
    ∃ t', (t.drainIf c full m).ret = 0 ∧ (t.drainIf c full m).next = some t' ∧
      (t'.pending = if full then [] else t.pending) ∧ t'.seq = t.seq ∧
      Moved t [] t' (t.drainIf c full m).events := by
  unfold Transfer.drainIf
  cases full with
  | false => exact ⟨t, rfl, rfl, rfl, rfl, Moved.refl t⟩
  | true =>
    obtain ⟨t', hret, hnext, hpending, hseq, hmoved⟩ := drain_moves (m := m) (t := t) ho
    have hnone : ¬ (t.drain c m).ret ≠ 0 := not_not.mpr hret
    simp only [if_true, if_neg hnone]
    exact ⟨t', hret, hnext, hpending, hseq, hmoved⟩

theorem append_moves (ho : Obedient c) (hfits : t.pending.length + buf.length ≤ n) :
    ∃ t', (t.append c n m buf).ret = 0 ∧ (t.append c n m buf).next = some t' ∧
      t'.pending.length ≤ n ∧ t'.seq = t.seq ∧ Moved t buf t' (t.append c n m buf).events := by
  have hgather : Moved t buf { t with pending := t.pending ++ buf } [] :=
    { stream := rfl
      offset := fun base h => by simpa [Dfu.stream, writes] using h
      consecutive := fun _ _ _ => trivial }
  unfold Transfer.append
  rw [if_neg (by lia)]
  obtain ⟨t', hret, hnext, hpending, hseq, hmoved⟩ :=
    drainIf_moves (m := m) (t := { t with pending := t.pending ++ buf }) ho
      (buf.length = 0 || decide (n < (t.pending ++ buf).length + buf.length))
  refine ⟨t', hret, hnext, ?_, hseq, ?_⟩
  · rw [hpending]
    split
    · exact Nat.zero_le n
    · rw [length_append]
      exact hfits
  · have := hgather.trans hmoved
    rwa [append_nil] at this

theorem write_moves (ho : Obedient c) (hbuf : buf.length ≤ n) :
    ∃ t', (t.write c n m buf t.seq).ret = 0 ∧ (t.write c n m buf t.seq).next = some t' ∧
      t'.pending.length ≤ n ∧ t'.seq = (t.seq + 1) % 2 ^ 16 ∧
      Moved t buf t' (t.write c n m buf t.seq).events := by
  obtain ⟨t₁, hret, hnext, hwait, hseq, hmoved⟩ :=
    drainIf_moves (m := m) (t := { t with seq := (t.seq + 1) % 2 ^ 16 }) ho
      (decide (n < t.pending.length + buf.length))
  have hroom : t₁.pending.length + buf.length ≤ n := by
    rw [hwait]
    split
    · simpa using hbuf
    · next hno => simpa using hno
  obtain ⟨t', hret', hnext', hfits, hseq', hmoved'⟩ := append_moves
    (m := (Transfer.drainIf c (decide (n < t.pending.length + buf.length)) m
      { t with seq := (t.seq + 1) % 2 ^ 16 }).medium) ho hroom
  unfold Transfer.write
  simp only [ne_eq, not_true_eq_false, if_false, hnext]
  refine ⟨t', hret', hnext', hfits, hseq'.trans hseq, ?_⟩
  have hbegin : Moved t [] t₁ _ := { hmoved with }
  exact hbegin.trans hmoved'

theorem run_moves (ho : Obedient c) (blocks : List (List UInt8)) (i : ℕ)
    (hblocks : ∀ b ∈ blocks, b.length ≤ n) (hseq : t.seq = i % 2 ^ 16) :
    ∃ t', (Transfer.run c n true m (some t)
        ((blocks.zipIdx i).map fun (b, j) => .write b ((j % 2 ^ 16 : ℕ) : ℤ))).1 =
          List.replicate blocks.length 0 ∧
      (Transfer.run c n true m (some t)
        ((blocks.zipIdx i).map fun (b, j) => .write b ((j % 2 ^ 16 : ℕ) : ℤ))).2.next = some t' ∧
      Moved t blocks.flatten t' (Transfer.run c n true m (some t)
        ((blocks.zipIdx i).map fun (b, j) => .write b ((j % 2 ^ 16 : ℕ) : ℤ))).2.events := by
  induction blocks generalizing m t i with
  | nil => exact ⟨t, rfl, rfl, Moved.refl t⟩
  | cons b bs ih =>
    obtain ⟨t₁, hret, hnext, -, hseq₁, hmoved⟩ :=
      write_moves (m := m) (t := t) ho (hblocks b (mem_cons_self ..))
    have hseq' : t₁.seq = (i + 1) % 2 ^ 16 := by
      rw [hseq₁, hseq]
      lia
    obtain ⟨t', hrets, hlast, hmoved'⟩ := ih (m := (t.write c n m b t.seq).medium) (i + 1)
      (fun b' hb' => hblocks b' (mem_cons_of_mem _ hb')) hseq'
    simp only [zipIdx_cons, map_cons, Transfer.run, Transfer.step, ← hseq, hnext]
    refine ⟨t', ?_, hlast, hmoved.trans hmoved'⟩
    rw [hret, hrets]
    rfl

theorem run_append (ready : Bool) (s : Option Transfer) (ks ks' : List Call) :
    (Transfer.run c n ready m s (ks ++ ks')).1 =
        (Transfer.run c n ready m s ks).1 ++
          (Transfer.run c n ready (Transfer.run c n ready m s ks).2.medium
            (Transfer.run c n ready m s ks).2.next ks').1 ∧
      (Transfer.run c n ready m s (ks ++ ks')).2.next =
        (Transfer.run c n ready (Transfer.run c n ready m s ks).2.medium
          (Transfer.run c n ready m s ks).2.next ks').2.next ∧
      (Transfer.run c n ready m s (ks ++ ks')).2.events =
        (Transfer.run c n ready m s ks).2.events ++
          (Transfer.run c n ready (Transfer.run c n ready m s ks).2.medium
            (Transfer.run c n ready m s ks).2.next ks').2.events := by
  induction ks generalizing m s with
  | nil => exact ⟨rfl, rfl, rfl⟩
  | cons k ks ih =>
    obtain ⟨hrets, hnext, hevents⟩ := ih (m := (Transfer.step c n ready m s k).medium)
      (Transfer.step c n ready m s k).next
    simp only [cons_append, Transfer.run, hrets, hnext, hevents, append_assoc, and_self]

theorem step_start (k : Call) :
    Transfer.step c n true m none k = Transfer.step c n true m (some Transfer.start) k := by
  cases k with
  | write buf blkSeqNum => rfl
  | flush => rfl

theorem run_start (k : Call) (ks : List Call) :
    Transfer.run c n true m none (k :: ks) = Transfer.run c n true m (some Transfer.start) (k :: ks) := by
  simp only [Transfer.run, step_start]

theorem flush_moves (ho : Obedient c) :
    (Transfer.flush c m (some t)).ret = 0 ∧ (Transfer.flush c m (some t)).next = none ∧
      ∃ t', t'.pending = [] ∧ Moved t [] t' (Transfer.flush c m (some t)).events := by
  obtain ⟨t', hret, -, hpending, -, hmoved⟩ := drain_moves (m := m) (t := t) ho
  have hnone : ¬ (t.drain c m).ret ≠ 0 := not_not.mpr hret
  unfold Transfer.flush Transfer.drained
  simp only [if_neg hnone]
  cases hf : c.flushMedium with
  | none => exact ⟨rfl, rfl, t', hpending, hmoved⟩
  | some f =>
    have hlast : Moved t' [] t' [.flush (f (t.drain c m).medium).1] := { Moved.refl t' with }
    exact ⟨ho.flush f hf _, rfl, t', hpending, hmoved.trans hlast⟩

theorem download_moves (ho : Obedient c) (blocks : List (List UInt8))
    (hblocks : ∀ b ∈ blocks, b.length ≤ n) :
    (Transfer.run c n true m none (download blocks)).1 = List.replicate (blocks.length + 1) 0 ∧
      (Transfer.run c n true m none (download blocks)).2.next = none ∧
      stream (Transfer.run c n true m none (download blocks)).2.events = blocks.flatten ∧
      (blocks.flatten.length ≤ 2 ^ 64 →
        Consecutive 0 (writes (Transfer.run c n true m none (download blocks)).2.events)) := by
  have hstart : Transfer.run c n true m none (download blocks) =
      Transfer.run c n true m (some Transfer.start) (download blocks) := by
    cases hd : download blocks with
    | nil => simp [download] at hd
    | cons k ks => exact run_start k ks
  obtain ⟨t₁, hrets, hnext, hmoved⟩ := run_moves (m := m) (t := Transfer.start) ho blocks 0
    hblocks rfl
  obtain ⟨hall, hlast, hevents⟩ := run_append (c := c) (n := n) (m := m) true
    (some Transfer.start)
    (blocks.zipIdx.map fun (b, i) => .write b ((i % 2 ^ 16 : ℕ) : ℤ)) [.flush]
  rw [hnext] at hall hlast hevents
  obtain ⟨hret, hnone, t', hpending, hend⟩ := flush_moves (t := t₁)
    (m := (Transfer.run c n true m (some Transfer.start)
      (blocks.zipIdx.map fun (b, i) => .write b ((i % 2 ^ 16 : ℕ) : ℤ))).2.medium) ho
  have hwhole := hmoved.trans hend
  rw [hstart]
  unfold download
  rw [hall, hlast, hevents, hrets]
  simp only [Transfer.run, Transfer.step, append_nil, hret, hnone]
  refine ⟨?_, trivial, ?_, ?_⟩
  · rw [replicate_succ']
  · have := hwhole.stream
    rwa [hpending, append_nil, append_nil] at this
  · intro hfits
    apply hwhole.consecutive 0 rfl
    simpa [Transfer.start] using hfits

end Moves

section Failures

variable (c : Setup σ) (n : ℕ) (m : σ) (t : Transfer) (buf : List UInt8)

theorem drain_events : ∀ e ∈ (t.drain c m).events, e.ret = (t.drain c m).ret := by
  unfold Transfer.drain
  split
  · intro e he
    simp at he
  · intro e he
    simp only [mem_singleton] at he
    rw [he]
    rfl

/- A step of `dfu_write` fails exactly if it ends the transfer, and every failure of the
medium is one. -/
structure Ends (o : Outcome σ) : Prop where
  next : o.ret ≠ 0 → o.next = none
  events : o.ret = 0 → ∀ e ∈ o.events, e.ret = 0

theorem drainIf_ends (full : Bool) : Ends (t.drainIf c full m) := by
  unfold Transfer.drainIf
  cases full with
  | false => exact ⟨fun h => absurd rfl h, fun _ e he => by simp at he⟩
  | true =>
    simp only [if_true]
    split
    · next hret => exact ⟨fun _ => rfl, fun h => absurd h hret⟩
    · next hret =>
      refine ⟨fun h => absurd h hret, ?_⟩
      intro hzero e he
      rw [drain_events c m t e he, hzero]

theorem append_ends : Ends (t.append c n m buf) := by
  unfold Transfer.append
  split
  · exact ⟨fun _ => rfl, fun _ e he => by simp at he⟩
  · exact drainIf_ends c m _ _

theorem write_ends (blkSeqNum : ℤ) : Ends (t.write c n m buf blkSeqNum) := by
  unfold Transfer.write
  split
  · exact ⟨fun _ => rfl, fun _ e he => by simp at he⟩
  · have hdrain := drainIf_ends c m { t with seq := (t.seq + 1) % 2 ^ 16 }
      (decide (n < t.pending.length + buf.length))
    have hcases := Transfer.drainIf_cases c (decide (n < t.pending.length + buf.length)) m
      { t with seq := (t.seq + 1) % 2 ^ 16 }
    generalize Transfer.drainIf c (decide (n < t.pending.length + buf.length)) m
      { t with seq := (t.seq + 1) % 2 ^ 16 } = o at *
    cases hcases with
    | inr hfail =>
      simp only [hfail.2]
      exact hdrain
    | inl hok =>
      obtain ⟨t₁, hret, hnext⟩ := hok
      have happ := append_ends c n o.medium t₁ buf
      simp only [hnext]
      refine ⟨happ.next, ?_⟩
      intro hzero e he
      cases mem_append.mp he with
      | inl he => exact hdrain.events hret e he
      | inr he => exact happ.events hzero e he

theorem write_wrong {blkSeqNum : ℤ} (h : blkSeqNum ≠ t.seq) : (t.write c n m buf blkSeqNum).ret ≠ 0 := by
  unfold Transfer.write
  rw [if_pos h.symm]
  exact (by decide : (-1 : ℤ) ≠ 0)

theorem drain_fails_iff : (t.drain c m).ret ≠ 0 ↔
    t.pending ≠ [] ∧ (c.writeMedium m t.badSkip t.offset t.pending).ret ≠ 0 := by
  unfold Transfer.drain
  split
  · next hnil => simp [hnil]
  · next hne => simp [hne]

theorem drain_next : ∃ t', (t.drain c m).next = some t' := by
  unfold Transfer.drain
  split
  · exact ⟨t, rfl⟩
  · exact ⟨_, rfl⟩

theorem flush_failed (h : (t.drain c m).ret ≠ 0) : Transfer.flush c m (some t) = t.drain c m := if_pos h

theorem flush_ends (s : Option Transfer) (h : (Transfer.drained c m s).ret = 0) :
    (Transfer.flush c m s).next = none ∧
      ((Transfer.flush c m s).ret = 0 → ∀ e ∈ (Transfer.flush c m s).events, e.ret = 0) := by
  have hevents : ∀ e ∈ (Transfer.drained c m s).events, e.ret = 0 := by
    cases s with
    | none =>
      intro e he
      simp [Transfer.drained] at he
    | some t =>
      intro e he
      rw [drain_events c m t e he]
      exact h
  unfold Transfer.flush
  rw [if_neg (not_not.mpr h)]
  cases c.flushMedium with
  | none => exact ⟨rfl, fun _ => hevents⟩
  | some f =>
    refine ⟨rfl, ?_⟩
    intro hzero e he
    cases mem_append.mp he with
    | inl he => exact hevents e he
    | inr he =>
      rw [mem_singleton.mp he]
      exact hzero

end Failures

variable (c : Setup σ)

def expectedSeq (w : World σ) : ℕ := if w.dfu.inited then w.dfu.iBlkSeqNum else 0

/- A wrong sequence number, or a call into the medium that returns an error. -/
def Fails (w : World σ) (k : Call) : Prop :=
  (∃ buf blkSeqNum, k = .write buf blkSeqNum ∧ blkSeqNum ≠ expectedSeq w) ∨
    ∃ e ∈ (call c w k).2.events.drop w.events.length, e.ret ≠ 0

/- The medium turns down the bytes that wait for the drain of `dfu_flush`. -/
def FlushWriteFails (w : World σ) (k : Call) : Prop :=
  k = .flush ∧ w.dfu.iBuf ≠ w.dfu.iBufStart ∧
    (c.writeMedium w.medium w.dfu.badSkip w.dfu.offset
      (Memory.bytes w.mem w.dfu.iBufStart (w.dfu.iBuf - w.dfu.iBufStart))).ret ≠ 0

/- What a list of calls returns and asks of a medium in the state `m`. -/
def answers (w : World σ) (m : σ) (ks : List Call) : List ℤ × List Event :=
  let r := run c { w with medium := m, events := [] } ks
  (r.1, r.2.events)

section Driver

variable {c} {w : World σ} {s : Option Transfer}

theorem answers_eq (h : Shows (bufSize c w) w s) (m : σ) (ks : List Call) :
    answers c w m ks = ((Transfer.run c (bufSize c w) (hasBuf c w) m s ks).1,
      (Transfer.run c (bufSize c w) (hasBuf c w) m s ks).2.events) := by
  have hshows : Shows (bufSize c w) { w with medium := m, events := [] } s := by
    cases s with
    | none => exact { (show Idle w from h) with }
    | some t => exact { (show Active (bufSize c w) w t from h) with }
  obtain ⟨hrets, hrest⟩ := run_follows (c := c) hshows ks
  have hevents := hrest.events
  rw [nil_append] at hevents
  exact Prod.ext hrets hevents

theorem Shows.none_iff (h : Shows (bufSize c w) w s) : w.dfu.inited = false ↔ s = none := by
  cases s with
  | none => exact ⟨fun _ => rfl, fun _ => (show Idle w from h).inited⟩
  | some t =>
    have hi := (show Active (bufSize c w) w t from h).inited
    simp [hi]

theorem Shows.flushWriteFails (h : Shows (bufSize c w) w s) :
    FlushWriteFails c w .flush ↔ (Transfer.drained c w.medium s).ret ≠ 0 := by
  unfold FlushWriteFails
  cases s with
  | none =>
    have hi : Idle w := h
    simp [hi.empty, Transfer.drained]
  | some t =>
    have ha : Active (bufSize c w) w t := h
    have hne : w.dfu.iBuf ≠ w.dfu.iBufStart ↔ t.pending ≠ [] := by
      rw [ha.here, ← length_pos_iff]
      lia
    rw [Transfer.drained, drain_fails_iff, hne, ha.waiting, ha.pending, ha.badSkip, ha.offset]
    simp

theorem Shows.expectedSeq (h : Shows (bufSize c w) w s) :
    expectedSeq w = (s.getD Transfer.start).seq := by
  unfold Dfu.expectedSeq
  cases s with
  | none =>
    rw [(show Idle w from h).inited]
    rfl
  | some t =>
    have ha : Active (bufSize c w) w t := h
    rw [ha.inited, ha.seq]
    rfl

theorem step_write_ends (m : σ) (buf : List UInt8) (blkSeqNum : ℤ) (n : ℕ) (ready : Bool) :
    Ends (Transfer.step c n ready m s (.write buf blkSeqNum)) ∧
      (blkSeqNum ≠ (s.getD Transfer.start).seq →
        (Transfer.step c n ready m s (.write buf blkSeqNum)).ret ≠ 0) := by
  cases s with
  | some t => exact ⟨write_ends c n m t buf blkSeqNum, write_wrong c n m t buf⟩
  | none =>
    cases ready with
    | true =>
      exact ⟨write_ends c n m Transfer.start buf blkSeqNum, write_wrong c n m Transfer.start buf⟩
    | false =>
      refine ⟨⟨fun _ => rfl, fun _ e he => ?_⟩, fun _ => (by decide : enomem ≠ 0)⟩
      simp [Transfer.step] at he

theorem step_fails (h : Shows (bufSize c w) w s) (k : Call) (hf : Fails c w k)
    (hflush : ¬ FlushWriteFails c w k) :
    (Transfer.step c (bufSize c w) (hasBuf c w) w.medium s k).ret ≠ 0 ∧
      (Transfer.step c (bufSize c w) (hasBuf c w) w.medium s k).next = none := by
  have hevents : (call c w k).2.events.drop w.events.length =
      (Transfer.step c (bufSize c w) (hasBuf c w) w.medium s k).events := by
    rw [(call_follows h k).events, drop_left]
  unfold Fails at hf
  rw [hevents, h.expectedSeq] at hf
  cases k with
  | write buf blkSeqNum =>
    obtain ⟨hends, hwrong⟩ := step_write_ends (c := c) (s := s) w.medium buf blkSeqNum
      (bufSize c w) (hasBuf c w)
    have hret : (Transfer.step c (bufSize c w) (hasBuf c w) w.medium s
        (.write buf blkSeqNum)).ret ≠ 0 := by
      intro hzero
      obtain ⟨buf', seq', heq, hne⟩ | ⟨e, he, hne⟩ := hf
      · obtain ⟨-, rfl⟩ := Call.write.inj heq
        exact hwrong hne hzero
      · exact hne (hends.events hzero e he)
    exact ⟨hret, hends.next hret⟩
  | flush =>
    have hdrained : (Transfer.drained c w.medium s).ret = 0 := by
      by_contra hne
      exact hflush (h.flushWriteFails.mpr hne)
    obtain ⟨hnext, hends⟩ := flush_ends c w.medium s hdrained
    refine ⟨?_, hnext⟩
    intro hzero
    obtain ⟨buf', seq', heq, -⟩ | ⟨e, he, hne⟩ := hf
    · cases heq
    · exact hne (hends hzero e he)

theorem call_keeps (h : Shows (bufSize c w) w s) (k : Call) (hflush : FlushWriteFails c w k) :
    (call c w k).2.dfu.inited = true := by
  obtain ⟨rfl, -, -⟩ := id hflush
  have hret := h.flushWriteFails.mp hflush
  cases s with
  | none => exact absurd rfl hret
  | some t =>
    have hcall := (call_follows h .flush).shows
    obtain ⟨t', ht'⟩ := drain_next c w.medium t
    have hret' : (t.drain c w.medium).ret ≠ 0 := hret
    rw [Transfer.step, flush_failed c w.medium t hret', ht'] at hcall
    exact Active.inited hcall

theorem download_stream (h : Shows (bufSize c w) w s) (hidle : w.dfu.inited = false)
    (hbuf : hasBuf c w = true) (ho : Obedient c) (blocks : List (List UInt8))
    (hblocks : ∀ b ∈ blocks, 1 ≤ b.length ∧ b.length ≤ bufSize c w)
    (hfits : blocks.flatten.length ≤ 2 ^ 64) :
    (∀ ret ∈ (run c w (download blocks)).1, ret = 0) ∧
      ∃ events, (run c w (download blocks)).2.events = w.events ++ events ∧
        Consecutive 0 (writes events) ∧ stream events = blocks.flatten := by
  rw [h.none_iff.mp hidle] at h
  obtain ⟨hrets, hrest⟩ := run_follows h (download blocks)
  rw [hbuf] at hrets hrest
  obtain ⟨hzero, -, hstream, hcons⟩ := download_moves (m := w.medium) ho blocks
    (fun b hb => (hblocks b hb).2)
  constructor
  · intro ret hret
    rw [hrets, hzero] at hret
    exact (mem_replicate.mp hret).2
  · exact ⟨_, hrest.events, hcons hfits, hstream⟩

/- In every state that calls reach from `w₀`: a download from the uninitialised entity is written as it
is, and a call that fails returns an error and puts the entity back, so that it answers like the first
one, if and only if it is not a flush whose own write is turned down. -/
theorem download_written_and_failures_reset (w₀ : World σ) (h₀ : Idle w₀) (history : List Call) :
    let w := (run c w₀ history).2
    (∀ blocks, w.dfu.inited = false → hasBuf c w₀ = true → Obedient c →
      (∀ b ∈ blocks, 1 ≤ b.length ∧ b.length ≤ bufSize c w₀) →
      blocks.flatten.length ≤ 2 ^ 64 →
      (∀ ret ∈ (run c w (download blocks)).1, ret = 0) ∧
        ∃ events, (run c w (download blocks)).2.events = w.events ++ events ∧
          Consecutive 0 (writes events) ∧ stream events = blocks.flatten) ∧
    ∀ k, Fails c w k →
      (((call c w k).1 ≠ 0 ∧ (call c w k).2.dfu.inited = false ∧
          ∀ m ks, answers c (call c w k).2 m ks = answers c w₀ m ks) ↔
        ¬ FlushWriteFails c w k) := by
  intro w
  have hidle : Shows (bufSize c w₀) w₀ none := h₀
  obtain ⟨-, hrun⟩ := run_follows hidle history
  have hshows := hrun.shows
  have hsize : bufSize c w = bufSize c w₀ := hrun.bufSize
  have hbuf : hasBuf c w = hasBuf c w₀ := hrun.hasBuf
  rw [← hsize] at hshows
  constructor
  · intro blocks hinited hready ho hblocks hfits
    rw [← hsize] at hblocks
    rw [← hbuf] at hready
    exact download_stream hshows hinited hready ho blocks hblocks hfits
  · intro k hf
    have hcall := call_follows hshows k
    constructor
    · intro hreset hflush
      have hkept := call_keeps hshows k hflush
      rw [hreset.2.1] at hkept
      cases hkept
    · intro hflush
      obtain ⟨hret, hnext⟩ := step_fails hshows k hf hflush
      have hafter := hcall.shows
      rw [hnext, ← hcall.bufSize] at hafter
      refine ⟨?_, hafter.none_iff.mpr rfl, ?_⟩
      · rw [hcall.ret]
        exact hret
      · intro m ks
        rw [answers_eq hafter, answers_eq hidle, hcall.bufSize, hcall.hasBuf, hsize, hbuf]

end Driver

/- A medium that answers every write with `ret`, and a buffer of four bytes. -/
def fourBytes (ret : ℤ) : Setup Unit where
  bufsiz := some 4
  dataBufSize := 8388608
  maxBufSize := 0
  memalign := fun _ => 4096
  hashUpdate := none
  writeMedium := fun _ badSkip _ data => ⟨ret, data.length, badSkip, ()⟩
  flushMedium := some fun _ => (0, ())

/- The entity as `calloc` leaves it. -/
def blank : World Unit where
  dfu := ⟨0, 0, 0, 0, 0, 0, 0, false⟩
  dfuBuf := 0
  dfuBufSize := 0
  mem := fun _ => 0
  medium := ()
  events := []

theorem idle_blank : Idle blank := ⟨rfl, rfl, fun _ => rfl⟩

theorem obedient_fourBytes : Obedient (fourBytes 0) :=
  ⟨fun _ _ _ _ => rfl, fun _ _ _ _ => rfl, fun f hf m => by
    obtain rfl := Option.some.inj hf
    rfl⟩

theorem download_written_three_blocks :
    ((∀ ret ∈ (run (fourBytes 0) blank (download [[1, 2, 3], [4, 5, 6, 7], [8]])).1, ret = 0) ∧
      ∃ events, (run (fourBytes 0) blank (download [[1, 2, 3], [4, 5, 6, 7], [8]])).2.events =
          [] ++ events ∧
        Consecutive 0 (writes events) ∧ stream events = [1, 2, 3, 4, 5, 6, 7, 8]) ∧
    ((call (fourBytes 0) blank (.write [1] 7)).1 ≠ 0 ∧
      (call (fourBytes 0) blank (.write [1] 7)).2.dfu.inited = false) := by
  have h := download_written_and_failures_reset (c := fourBytes 0) blank idle_blank []
  constructor
  · exact h.1 [[1, 2, 3], [4, 5, 6, 7], [8]] rfl (by decide) obedient_fourBytes (by decide)
      (by decide)
  · have hreset := (h.2 (.write [1] 7) (.inl ⟨[1], 7, rfl, by decide⟩)).mpr
      (fun hf => by cases hf.1)
    exact ⟨hreset.1, hreset.2.1⟩

/- The medium fails in the flush after the block `[1]`: the entity is not put back, and the
next download, of `[2]`, is refused, where the first one was not. -/
theorem flush_failure_kept :
    Fails (fourBytes (-5)) (run (fourBytes (-5)) blank [.write [1] 0]).2 .flush ∧
    (call (fourBytes (-5)) (run (fourBytes (-5)) blank [.write [1] 0]).2 .flush).1 = -5 ∧
    (call (fourBytes (-5)) (run (fourBytes (-5)) blank [.write [1] 0]).2 .flush).2.dfu.inited =
      true ∧
    (answers (fourBytes (-5)) (call (fourBytes (-5))
      (run (fourBytes (-5)) blank [.write [1] 0]).2 .flush).2 () [.write [2] 0]).1 = [-1] ∧
    (answers (fourBytes (-5)) blank () [.write [2] 0]).1 = [0] := by
  refine ⟨.inr ⟨.write 0 [1] (-5), ?_, ?_⟩, ?_, ?_, ?_, ?_⟩ <;> decide

end UBoot.Dfu
