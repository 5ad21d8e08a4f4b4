import UBoot.Dfu.Model

/-!
# DFU uploads (drivers/dfu/dfu.c)

`dfu_read` serves the host from the global buffer and fills the buffer when it is empty. `size`,
`r_left` and `b_left` are signed numbers; the buffer of the caller is a list of its own. The fill
loop takes fuel.
-/

namespace UBoot.Dfu

open Memory List

/- What `read_medium` leaves: its result, the bytes behind `buf`, `*len`, `dfu->bad_skip` and
   the medium. -/
structure Reading (σ : Type) where
  ret : ℤ
  data : List UInt8
  len : ℤ
  badSkip : ℕ
  medium : σ

structure ReadSetup (σ : Type) extends Setup σ where
  getMediumSize : σ → ℤ × σ
  readMedium : σ → ℕ → ℕ → ℤ → Reading σ

structure Reader (σ : Type) extends World σ where
  rLeft : ℤ
  bLeft : ℤ

variable {σ : Type} (c : ReadSetup σ)

/- `memcpy(buf, dfu->i_buf, chunk)`, the checksum and the pointers behind it. -/
def consume (w : Reader σ) (chunk : ℕ) : List UInt8 × Reader σ :=
  let data := bytes w.mem w.dfu.iBuf chunk
  let crc := match c.hashUpdate with
    | some update => update w.dfu.crc data
    | none => w.dfu.crc
  (data, { w with
    dfu := { w.dfu with
      crc := crc
      iBuf := w.dfu.iBuf + chunk }
    bLeft := w.bLeft - chunk })

def refill (w : Reader σ) : ℤ × Reader σ :=
  let room : ℤ := (w.dfu.iBufEnd : ℤ) - w.dfu.iBufStart
  let want := if w.rLeft < room then w.rLeft else room
  let a := c.readMedium w.medium w.dfu.badSkip w.dfu.offset want
  let w₁ : Reader σ := { w with
    mem := store w.mem w.dfu.iBufStart a.data
    dfu := { w.dfu with
      iBuf := w.dfu.iBufStart
      badSkip := a.badSkip }
    medium := a.medium
    bLeft := a.len }
  if a.ret ≠ 0 then (a.ret, w₁)
  else (0, { w₁ with
    dfu := { w₁.dfu with offset := ((w.dfu.offset + a.len) % 2 ^ 64).toNat }
    rLeft := w.rLeft - a.len })

/- The loop of `dfu_read_buffer_fill`; `out` is what has been copied to `buf`, and its length
   is `readn`. -/
def fillLoop : ℕ → Reader σ → ℤ → List UInt8 → Option (ℤ × List UInt8 × Reader σ)
  | 0, _, _, _ => none
  | fuel + 1, w, size, out =>
    if size ≤ 0 then some (out.length, out, w)
    else
      let chunk := min size w.bLeft
      let (data, w₁) := if 0 < chunk then consume c w chunk.toNat else ([], w)
      let left := if 0 < chunk then size - chunk else size
      if left ≤ 0 then fillLoop fuel w₁ left (out ++ data)
      -- no more to read
      else if w₁.rLeft = 0 then some ((out ++ data).length, out ++ data, w₁)
      else
        let (ret, w₂) := refill c w₁
        if ret ≠ 0 then some (ret, out ++ data, w₂)
        else fillLoop fuel w₂ left (out ++ data)

def dfuReadBufferFill (fuel : ℕ) (w : Reader σ) (size : ℤ) : Option (ℤ × List UInt8 × Reader σ) :=
  fillLoop c fuel w size []

/- The initial state of an upload; without a buffer or a size the entity stays uninitialised. -/
def beginRead (w : Reader σ) : ℤ × Reader σ :=
  let (p, w₁) := dfuGetBuf c.toSetup w.toWorld
  let dfu := { w₁.dfu with iBufStart := p }
  if p = 0 then (enomem, { w with toWorld := { w₁ with dfu := dfu } })
  else
    let (size, m) := c.getMediumSize w₁.medium
    if size < 0 then (size, ⟨{ w₁ with dfu := dfu, medium := m }, size, w.bLeft⟩)
    else (0, ⟨{ w₁ with
      dfu := { dfu with
        iBlkSeqNum := 0
        crc := 0
        offset := 0
        iBufEnd := p + w₁.dfuBufSize
        iBuf := p
        badSkip := 0
        inited := true }
      medium := m }, size, 0⟩)

def endRead (w : Reader σ) : Reader σ :=
  { w with
    dfu := { w.dfu with
      iBlkSeqNum := 0
      crc := 0
      offset := 0
      iBufStart := w.dfuBuf
      iBufEnd := w.dfuBuf
      iBuf := w.dfuBuf
      badSkip := 0
      inited := false }
    bLeft := 0 }

/- `dfu_read` after the initial state. -/
def readBlock (fuel : ℕ) (w : Reader σ) (size blkSeqNum : ℤ) :
    Option (ℤ × List UInt8 × Reader σ) :=
  if (w.dfu.iBlkSeqNum : ℤ) ≠ blkSeqNum then some (-1, [], w)
  else
    match dfuReadBufferFill c fuel { w with toWorld := nextSeqNum w.toWorld } size with
    | none => none
    | some (ret, out, w₁) =>
      if ret < 0 then some (-1, out, w₁)
      else if ret < size then some (ret, out, endRead w₁)
      else some (ret, out, w₁)

def dfuRead (fuel : ℕ) (w : Reader σ) (size blkSeqNum : ℤ) : Option (ℤ × List UInt8 × Reader σ) :=
  if w.dfu.inited then readBlock c fuel w size blkSeqNum
  else
    let (ret, w₁) := beginRead c w
    if ret ≠ 0 then some (ret, [], w₁) else readBlock c fuel w₁ size blkSeqNum

/- Requests of the given sizes under the numbers `i`, `i + 1`, … modulo 65536: what each
   returns and what it leaves in its buffer. -/
def dfuReads (fuel : ℕ) : Reader σ → ℕ → List ℕ → Option (List (ℤ × List UInt8) × Reader σ)
  | w, _, [] => some ([], w)
  | w, i, size :: sizes =>
    match dfuRead c fuel w size ((i % 2 ^ 16 : ℕ) : ℤ) with
    | none => none
    | some (ret, out, w₁) =>
      match dfuReads fuel w₁ (i + 1) sizes with
      | none => none
      | some (answers, w₂) => some ((ret, out) :: answers, w₂)

/- `idle` holds of the medium between uploads, `at_ n b` when `n` bytes have been read and
   `bad_skip` is `b`. The size is a C `long`, of 32 or 64 bits. -/
structure Serves (longBits : ℕ) (content : List UInt8) (idle : σ → Prop) (at_ : ℕ → ℕ → σ → Prop) :
    Prop where
  width : longBits ≤ 64
  long : content.length < 2 ^ (longBits - 1)
  size : ∀ m, idle m → (c.getMediumSize m).1 = content.length ∧ at_ 0 0 (c.getMediumSize m).2
  read : ∀ n b m (len : ℕ), at_ n b m → n + len ≤ content.length →
    (c.readMedium m b n len).ret = 0 ∧ (c.readMedium m b n len).len = len ∧
      (c.readMedium m b n len).data = (content.drop n).take len ∧
      at_ (n + len) (c.readMedium m b n len).badSkip (c.readMedium m b n len).medium
  done : ∀ n b m, at_ n b m → idle m

structure Buffered (w : World σ) : Prop where
  buf : w.dfuBuf ≠ 0
  size : 0 < w.dfuBufSize

/- `dfu_get_buf` has a buffer or gets one. -/
def CanBuffer (w : World σ) : Prop := Buffered w ∨
  w.dfuBuf = 0 ∧ 0 < c.dataBufSize ∧ c.memalign (chosenSize c.toSetup) ≠ 0

/- An upload of which the host has got `pos` bytes, next number `seq`. -/
structure Serving (content : List UInt8) (at_ : ℕ → ℕ → σ → Prop) (pos seq : ℕ)
    (w : Reader σ) : Prop where
  buffered : Buffered w.toWorld
  inited : w.dfu.inited = true
  iBufStart : w.dfu.iBufStart = w.dfuBuf
  iBufEnd : w.dfu.iBufEnd = w.dfuBuf + w.dfuBufSize
  seq : w.dfu.iBlkSeqNum = seq
  left : ∃ b r : ℕ, w.bLeft = b ∧ w.rLeft = r ∧ pos + b + r = content.length ∧
    w.dfu.offset = pos + b ∧ bytes w.mem w.dfu.iBuf b = (content.drop pos).take b
  medium : at_ w.dfu.offset w.dfu.badSkip w.medium

section Upload

variable {c} {content : List UInt8} {idle : σ → Prop} {at_ : ℕ → ℕ → σ → Prop}

variable {longBits pos seq : ℕ} {w : Reader σ}

theorem consume_serving {n : ℕ} (h : Serving content at_ pos seq w) (hn : (n : ℤ) ≤ w.bLeft) :
    (consume c w n).1 = (content.drop pos).take n ∧
      Serving content at_ (pos + n) seq (consume c w n).2 := by
  obtain ⟨b, r, hb, hr, hsum, hoff, hbytes⟩ := h.left
  have hnb : n ≤ b := by lia
  obtain ⟨d, rfl⟩ := Nat.exists_eq_add_of_le hnb
  have hlen : ((content.drop pos).take n).length = n := by
    rw [length_take, length_drop]
    lia
  rw [take_add] at hbytes
  obtain ⟨hhead, htail⟩ := bytes_append_inj _ _ _ _ hbytes hlen
  rw [drop_drop] at htail
  refine ⟨hhead, ⟨h.buffered.buf, h.buffered.size⟩, h.inited, h.iBufStart, h.iBufEnd, h.seq, ?_, h.medium⟩
  refine ⟨d, r, ?_, hr, by lia, ?_, htail⟩
  · simp only [consume, hb]
    lia
  · simp only [consume, hoff]
    lia

theorem refill_serving (hs : Serves c longBits content idle at_) {r : ℕ} (h : Serving content at_ pos seq w)
    (hb : w.bLeft = 0) (hr : w.rLeft = r) (hpos : 0 < r) :
    ∃ w₁ r', refill c w = (0, w₁) ∧ Serving content at_ pos seq w₁ ∧ w₁.rLeft = (r' : ℕ) ∧ r' < r := by
  obtain ⟨b, r₀, hb₀, hr₀, hsum, hoff, -⟩ := h.left
  obtain rfl : b = 0 := by lia
  obtain rfl : r₀ = r := by lia
  rw [Nat.add_zero] at hoff hsum
  have hroom : ((w.dfu.iBufEnd : ℤ) - w.dfu.iBufStart) = w.dfuBufSize := by
    rw [h.iBufEnd, h.iBufStart]
    push_cast
    ring
  let n := min r₀ w.dfuBufSize
  have hwant : (if w.rLeft < (w.dfuBufSize : ℤ) then w.rLeft else (w.dfuBufSize : ℤ)) = (n : ℕ) := by
    simp only [n, hr]
    split <;> lia
  have hsize := h.buffered.size
  have hn : 0 < n ∧ n ≤ r₀ := by
    simp only [n]
    lia
  obtain ⟨hret, hlen, hdata, hat⟩ := hs.read _ _ _ n h.medium (by lia)
  have hlong := hs.long
  have hwidth : 2 ^ (longBits - 1) ≤ 2 ^ 63 :=
    Nat.pow_le_pow_right (by decide) (Nat.sub_le_sub_right hs.width 1)
  have hfill : ((content.drop pos).take n).length = n := by
    rw [length_take, length_drop]
    lia
  have hnext : ((((w.dfu.offset : ℤ) + n) % 2 ^ 64).toNat) = w.dfu.offset + n := by
    lia
  simp only [refill, hroom, hwant, hret, ne_eq, not_true_eq_false, if_false]
  refine ⟨_, r₀ - n, rfl, ⟨⟨h.buffered.buf, h.buffered.size⟩, h.inited, h.iBufStart, h.iBufEnd,
    h.seq, ?_, ?_⟩, ?_, by lia⟩
  · refine ⟨n, r₀ - n, hlen, ?_, by lia, ?_, ?_⟩
    · simp only [hr, hlen]
      lia
    · dsimp only
      rw [hlen, hnext, hoff]
    · have hstored := bytes_store_same w.mem w.dfu.iBufStart ((content.drop pos).take n)
      rw [hfill] at hstored
      dsimp only
      rw [hdata, hoff]
      exact hstored
  · simp only [hlen, hnext]
    exact hat
  · simp only [hr, hlen]
    lia

theorem turn_consumes {n b : ℕ} (h : Serving content at_ pos seq w)
    (hb : w.bLeft = b) (hn : n ≤ b) :
    ∃ w₁, (if (0 : ℤ) < n then consume c w (n : ℤ).toNat else ([], w)) =
        ((content.drop pos).take n, w₁) ∧
      Serving content at_ (pos + n) seq w₁ ∧ w₁.rLeft = w.rLeft ∧ w₁.bLeft = (b - n : ℕ) := by
  cases Nat.eq_zero_or_pos n with
  | inl h0 =>
    subst h0
    exact ⟨w, by simp, h, rfl, by simpa using hb⟩
  | inr hpos =>
    obtain ⟨hdata, hserving⟩ := consume_serving (c := c) h (n := n) (by lia)
    refine ⟨(consume c w n).2, ?_, hserving, rfl, ?_⟩
    · rw [if_pos (by lia), Int.toNat_natCast, ← hdata]
    · simp only [consume, hb]
      lia

theorem fillLoop_serving (hs : Serves c longBits content idle at_) {r : ℕ} :
    ∀ {pos : ℕ} (size fuel : ℕ) {w : Reader σ} (out : List UInt8), Serving content at_ pos seq w →
      w.rLeft = r → r + 2 ≤ fuel →
      ∃ w', fillLoop c fuel w size out =
          some (((out ++ (content.drop pos).take size).length : ℤ),
            out ++ (content.drop pos).take size, w') ∧
        Serving content at_ (pos + min size (content.length - pos)) seq w' := by
  induction r using Nat.strong_induction_on with
  | _ r ih =>
    intro pos size fuel w out h hr hfuel
    obtain ⟨fuel, rfl⟩ : ∃ k, fuel = k + 1 + 1 := ⟨fuel - 2, by lia⟩
    cases Nat.eq_zero_or_pos size with
    | inl h0 =>
      subst h0
      refine ⟨w, ?_, by simpa using h⟩
      rw [fillLoop, if_pos (by simp)]
      simp
    | inr hsize =>
      obtain ⟨b, r₀, hb, hr₀, hsum, -, -⟩ := h.left
      obtain rfl : r₀ = r := by lia
      obtain ⟨w₁, hturn, h₁, hr₁, hb₁⟩ := turn_consumes (c := c) h hb (Nat.min_le_right size b)
      have hchunk : min (size : ℤ) w.bLeft = (min size b : ℕ) := by
        rw [hb]
        lia
      have hleft : (if (0 : ℤ) < (min size b : ℕ) then (size : ℤ) - (min size b : ℕ) else size) =
          (size - min size b : ℕ) := by
        split <;> lia
      rw [fillLoop, if_neg (by lia)]
      simp only [hchunk, hturn, hleft]
      by_cases hdone : size ≤ b
      · -- the buffer holds all that is asked for
        have hmin : min size b = size := Nat.min_eq_left hdone
        refine ⟨w₁, ?_, ?_⟩
        · rw [if_pos (by lia), fillLoop, if_pos (by lia), hmin]
        · rw [hmin] at h₁
          rw [Nat.min_eq_left (by lia)]
          exact h₁
      · have hmin : min size b = b := Nat.min_eq_right (by lia)
        rw [if_neg (by lia)]
        rw [hmin] at h₁ hb₁ ⊢
        by_cases hend : r₀ = 0
        · have htake : (content.drop pos).take b = (content.drop pos).take size := by
            rw [take_of_length_le (by rw [length_drop]; lia),
              take_of_length_le (by rw [length_drop]; lia)]
          refine ⟨w₁, ?_, ?_⟩
          · rw [if_pos (by lia), htake]
          · rw [Nat.min_eq_right (by lia), show content.length - pos = b by lia]
            exact h₁
        · rw [if_neg (by lia)]
          obtain ⟨w₂, r', hrefill, h₂, hr₂, hlt⟩ :=
            refill_serving hs h₁ (by lia) (hr₁.trans hr) (by lia)
          simp only [hrefill, ne_eq, not_true_eq_false, if_false]
          obtain ⟨w', hloop, h'⟩ := ih r' hlt (size - b) (fuel + 1)
            (out ++ (content.drop pos).take b) h₂ hr₂ (by lia)
          have htake : (content.drop pos).take size =
              (content.drop pos).take b ++ (content.drop (pos + b)).take (size - b) := by
            rw [← drop_drop, ← take_add, Nat.add_sub_cancel' (by lia)]
          refine ⟨w', ?_, ?_⟩
          · rw [hloop, htake, append_assoc]
          · rw [show pos + min size (content.length - pos) =
              pos + b + min (size - b) (content.length - (pos + b)) by lia]
            exact h'

theorem chosenSize_pos (h : 0 < c.dataBufSize) : 0 < chosenSize c.toSetup := by
  unfold chosenSize
  extract_lets size
  have hsize : 0 < size := by
    simp only [size]
    cases c.bufsiz with
    | none => exact h
    | some n =>
      dsimp only
      split <;> lia
  by_cases hmax : c.maxBufSize ≠ 0 ∧ c.maxBufSize < size
  · rw [if_pos hmax]
    lia
  · rw [if_neg hmax]
    exact hsize

theorem dfuGetBuf_buffered {w : World σ} (h : CanBuffer c w) :
    Buffered (dfuGetBuf c.toSetup w).2 ∧
      (dfuGetBuf c.toSetup w).1 = (dfuGetBuf c.toSetup w).2.dfuBuf := by
  cases h with
  | inl h =>
    rw [dfuGetBuf, if_pos h.buf]
    exact ⟨h, rfl⟩
  | inr h =>
    obtain ⟨hbuf, hsize, halloc⟩ := h
    rw [dfuGetBuf, if_neg (by simpa using hbuf)]
    exact ⟨⟨halloc, chosenSize_pos hsize⟩, rfl⟩

theorem dfuGetBuf_medium (w : World σ) : (dfuGetBuf c.toSetup w).2.medium = w.medium := by
  rw [dfuGetBuf]
  split <;> rfl

theorem beginRead_serving (hs : Serves c longBits content idle at_) (hbuf : CanBuffer c w.toWorld)
    (hidle : idle w.medium) : ∃ w₁, beginRead c w = (0, w₁) ∧ Serving content at_ 0 0 w₁ := by
  obtain ⟨hb, hp⟩ := dfuGetBuf_buffered hbuf
  have hmedium := dfuGetBuf_medium (c := c) w.toWorld
  rw [beginRead]
  generalize dfuGetBuf c.toSetup w.toWorld = g at hb hp hmedium
  obtain ⟨p, w₁⟩ := g
  dsimp only at hb hp hmedium ⊢
  obtain ⟨hsize, hat⟩ := hs.size _ hidle
  rw [if_neg (by rw [hp]; exact hb.buf), hmedium, if_neg (by rw [hsize]; lia)]
  refine ⟨_, rfl, ⟨hb.buf, hb.size⟩, rfl, hp, ?_, rfl, ?_, hat⟩
  · dsimp only
    rw [hp]
  · exact ⟨0, content.length, rfl, hsize, by lia, rfl, rfl⟩

/- What a request gets when `pos` bytes have been delivered. -/
def answer (content : List UInt8) (pos size : ℕ) : ℤ × List UInt8 :=
  ((((content.drop pos).take size).length : ℤ), (content.drop pos).take size)

/- The state behind a request: the upload goes on, or the request came out short and the
   entity waits for the next upload. -/
structure After (c : ReadSetup σ) (content : List UInt8) (idle : σ → Prop) (at_ : ℕ → ℕ → σ → Prop)
    (pos seq size : ℕ) (w : Reader σ) : Prop where
  more : pos + size ≤ content.length → Serving content at_ (pos + size) ((seq + 1) % 2 ^ 16) w
  short : content.length < pos + size → w.dfu.inited = false ∧ CanBuffer c w.toWorld ∧ idle w.medium

variable {fuel : ℕ}

theorem readBlock_serving (hs : Serves c longBits content idle at_) {size : ℕ}
    (h : Serving content at_ pos seq w) (hfuel : content.length + 2 ≤ fuel) :
    ∃ w', readBlock c fuel w size seq =
        some ((answer content pos size).1, (answer content pos size).2, w') ∧
      After c content idle at_ pos seq size w' := by
  obtain ⟨b, r, hb, hr, hsum, hoff, hbytes⟩ := h.left
  let w₀ : Reader σ := { w with toWorld := nextSeqNum w.toWorld }
  have h₀ : Serving content at_ pos ((seq + 1) % 2 ^ 16) w₀ := by
    refine ⟨⟨h.buffered.buf, h.buffered.size⟩, h.inited, h.iBufStart, h.iBufEnd, ?_, ?_, h.medium⟩
    · simp only [w₀, nextSeqNum, h.seq]
    · exact ⟨b, r, hb, hr, hsum, hoff, hbytes⟩
  obtain ⟨w₁, hloop, h₁⟩ := fillLoop_serving hs size fuel [] h₀ hr (by lia)
  have hlen : ((content.drop pos).take size).length = min size (content.length - pos) := by
    rw [length_take, length_drop]
  rw [readBlock, if_neg (by rw [h.seq]; simp), dfuReadBufferFill, hloop]
  simp only [nil_append, hlen]
  rw [if_neg (by lia)]
  by_cases hfull : pos + size ≤ content.length
  · rw [Nat.min_eq_left (by lia)] at h₁ ⊢
    rw [if_neg (by lia)]
    refine ⟨w₁, ?_, fun _ => h₁, fun hshort => ?_⟩
    · rw [answer, hlen, Nat.min_eq_left (by lia)]
    · lia
  · rw [if_pos (by lia)]
    refine ⟨endRead w₁, ?_, fun hle => ?_, fun _ => ?_⟩
    · rw [answer, hlen]
    · lia
    · exact ⟨rfl, .inl ⟨h₁.buffered.buf, h₁.buffered.size⟩, hs.done _ _ _ h₁.medium⟩

/- The state in which the request number `i` is made. -/
def Expects (c : ReadSetup σ) (content : List UInt8) (idle : σ → Prop) (at_ : ℕ → ℕ → σ → Prop)
    (i pos : ℕ) (w : Reader σ) : Prop :=
  Serving content at_ pos (i % 2 ^ 16) w ∨
    i = 0 ∧ pos = 0 ∧ w.dfu.inited = false ∧ CanBuffer c w.toWorld ∧ idle w.medium

theorem dfuRead_serving (hs : Serves c longBits content idle at_) {i : ℕ} (size : ℕ)
    (h : Expects c content idle at_ i pos w) (hfuel : content.length + 2 ≤ fuel) :
    ∃ w', dfuRead c fuel w size ((i % 2 ^ 16 : ℕ) : ℤ) =
        some ((answer content pos size).1, (answer content pos size).2, w') ∧
      After c content idle at_ pos (i % 2 ^ 16) size w' := by
  cases h with
  | inl h =>
    rw [dfuRead, if_pos h.inited]
    exact readBlock_serving hs h hfuel
  | inr h =>
    obtain ⟨rfl, rfl, hinited, hbuf, hidle⟩ := h
    obtain ⟨w₁, hbegin, h₁⟩ := beginRead_serving hs hbuf hidle
    rw [dfuRead, if_neg (by simp [hinited])]
    simp only [hbegin, ne_eq, not_true_eq_false, if_false]
    exact readBlock_serving hs h₁ hfuel

/- The chunks of an upload with the requests of the sizes from number `i` on. -/
structure Delivered (bytes : List UInt8) (sizes : ℕ → ℕ) (i : ℕ) (chunks : List (List UInt8)) :
    Prop where
  all : chunks.flatten = bytes
  full : ∀ j, j + 1 < chunks.length → (chunks.getD j []).length = sizes (i + j)
  short : (chunks.getD (chunks.length - 1) []).length < sizes (i + (chunks.length - 1))

theorem uploads_from (hs : Serves c longBits content idle at_) {sizes : ℕ → ℕ} (hpos : ∀ i, 0 < sizes i) (hfuel : content.length + 2 ≤ fuel) (d : ℕ) :
    ∀ {i pos : ℕ} {w : Reader σ}, Expects c content idle at_ i pos w → content.length - pos = d →
      pos ≤ content.length →
      ∃ chunks w', chunks ≠ [] ∧ dfuReads c fuel w i ((List.range' i chunks.length).map sizes) =
          some (chunks.map fun x => ((x.length : ℤ), x), w') ∧
        Delivered (content.drop pos) sizes i chunks ∧
        w'.dfu.inited = false ∧ CanBuffer c w'.toWorld ∧ idle w'.medium := by
  induction d using Nat.strong_induction_on with
  | _ d ih =>
    intro i pos w h hd hle
    obtain ⟨w₁, hread, hafter⟩ := dfuRead_serving hs (sizes i) h hfuel
    have hsize := hpos i
    by_cases hshort : content.length < pos + sizes i
    · have htake : (content.drop pos).take (sizes i) = content.drop pos := by
        rw [take_of_length_le]
        rw [length_drop]
        lia
      refine ⟨[content.drop pos], w₁, by simp, ?_, ⟨by simp, by simp, ?_⟩, hafter.short hshort⟩
      · simp only [length_singleton, range'_one, map_cons, map_nil, dfuReads, hread, answer, htake]
      · simp only [length_singleton, Nat.sub_self, getD_cons_zero, length_drop,
          Nat.add_zero]
        lia
    · have hnext : Expects c content idle at_ (i + 1) (pos + sizes i) w₁ := by
        have hserving := hafter.more (by lia)
        rw [Nat.mod_add_mod] at hserving
        exact .inl hserving
      obtain ⟨chunks, w', hne, hreads, hdel, hend⟩ :=
        ih (content.length - (pos + sizes i)) (by lia) hnext rfl (by lia)
      have hlen : ((content.drop pos).take (sizes i)).length = sizes i := by
        rw [length_take, length_drop]
        lia
      refine ⟨(content.drop pos).take (sizes i) :: chunks, w', by simp, ?_, ⟨?_, ?_, ?_⟩, hend⟩
      · simp only [length_cons, range'_succ, map_cons, dfuReads, hread, hreads, answer]
      · rw [flatten_cons, hdel.all, ← drop_drop, take_append_drop]
      · intro j hj
        cases j with
        | zero => simpa using hlen
        | succ j =>
          rw [getD_cons_succ, hdel.full j (by simpa using hj)]
          congr 1
          lia
      · obtain ⟨n, hn⟩ : ∃ n, chunks.length = n + 1 :=
          Nat.exists_eq_succ_of_ne_zero (by simpa using hne)
        have hlast := hdel.short
        rw [hn, Nat.add_sub_cancel] at hlast
        rw [length_cons, hn, Nat.add_sub_cancel, getD_cons_succ,
          show i + (n + 1) = i + 1 + n by lia]
        exact hlast

/- Two uploads in a row, each with requests of its own sizes, up to the request that comes out
   short. -/
theorem upload_reads_medium (hs : Serves c longBits content idle at_) {w : Reader σ}
    (hinited : w.dfu.inited = false) (hbuf : CanBuffer c w.toWorld) (hidle : idle w.medium)
    {sizes sizes' : ℕ → ℕ} (hpos : ∀ i, 0 < sizes i) (hpos' : ∀ i, 0 < sizes' i) {fuel : ℕ}
    (hfuel : content.length + 2 ≤ fuel) :
    ∃ chunks w₁, chunks ≠ [] ∧
      dfuReads c fuel w 0 ((List.range chunks.length).map sizes) =
        some (chunks.map fun x => ((x.length : ℤ), x), w₁) ∧
      Delivered content sizes 0 chunks ∧ w₁.dfu.inited = false ∧
      ∃ chunks' w₂, chunks' ≠ [] ∧
        dfuReads c fuel w₁ 0 ((List.range chunks'.length).map sizes') =
          some (chunks'.map fun x => ((x.length : ℤ), x), w₂) ∧
        Delivered content sizes' 0 chunks' ∧ w₂.dfu.inited = false := by
  have hready : Expects c content idle at_ 0 0 w := .inr ⟨rfl, rfl, hinited, hbuf, hidle⟩
  obtain ⟨chunks, w₁, hne, hreads, hdel, hinited₁, hbuf₁, hidle₁⟩ :=
    uploads_from hs hpos hfuel _ hready rfl (Nat.zero_le _)
  have hready₁ : Expects c content idle at_ 0 0 w₁ := .inr ⟨rfl, rfl, hinited₁, hbuf₁, hidle₁⟩
  obtain ⟨chunks', w₂, hne', hreads', hdel', hinited₂, -, -⟩ :=
    uploads_from hs hpos' hfuel _ hready₁ rfl (Nat.zero_le _)
  rw [← range_eq_range'] at hreads hreads'
  exact ⟨chunks, w₁, hne, hreads, hdel, hinited₁, chunks', w₂, hne', hreads', hdel', hinited₂⟩

end Upload

def sixBytes : ReadSetup Unit where
  bufsiz := some 4
  dataBufSize := 8388608
  maxBufSize := 0
  memalign := fun _ => 4096
  hashUpdate := none
  writeMedium := fun _ badSkip _ data => ⟨0, data.length, badSkip, ()⟩
  flushMedium := none
  getMediumSize := fun _ => (6, ())
  readMedium := fun _ badSkip offset len =>
    ⟨0, (([1, 2, 3, 4, 5, 6] : List UInt8).drop offset).take len.toNat, len, badSkip, ()⟩

/- The entity as `calloc` leaves it. -/
def blankReader : Reader Unit where
  dfu := ⟨0, 0, 0, 0, 0, 0, 0, false⟩
  dfuBuf := 0
  dfuBufSize := 0
  mem := fun _ => 0
  medium := ()
  events := []
  rLeft := 0
  bLeft := 0

theorem sixBytes_serves :
    Serves sixBytes 32 [1, 2, 3, 4, 5, 6] (fun _ => True) (fun _ _ _ => True) where
  width := by decide
  long := by decide
  size := fun _ _ => ⟨rfl, trivial⟩
  read := fun _ _ _ _ _ _ => ⟨rfl, rfl, rfl, trivial⟩
  done := fun _ _ _ _ => trivial

/- Requests of three bytes, then of two: both sizes divide the medium's. -/
theorem upload_reads_six :
    ∃ chunks w₁, chunks ≠ [] ∧
      dfuReads sixBytes 8 blankReader 0 ((List.range chunks.length).map fun _ => 3) =
        some (chunks.map fun x => ((x.length : ℤ), x), w₁) ∧
      Delivered [1, 2, 3, 4, 5, 6] (fun _ => 3) 0 chunks ∧ w₁.dfu.inited = false ∧
      ∃ chunks' w₂, chunks' ≠ [] ∧
        dfuReads sixBytes 8 w₁ 0 ((List.range chunks'.length).map fun _ => 2) =
          some (chunks'.map fun x => ((x.length : ℤ), x), w₂) ∧
        Delivered [1, 2, 3, 4, 5, 6] (fun _ => 2) 0 chunks' ∧ w₂.dfu.inited = false :=
  upload_reads_medium sixBytes_serves rfl (.inr ⟨rfl, by decide, by decide⟩) trivial
    (fun _ => by decide) (fun _ => by decide) (by decide)

end UBoot.Dfu
