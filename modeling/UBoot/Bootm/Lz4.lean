import UBoot.Lib.LittleEndian
import UBoot.Lib.Memory

/-!
# LZ4 frames (lib/lz4_wrapper.c)

Memory is the address space from `src` on. `LZ4_decompress_generic` is a parameter that sees the
block only and takes its capacity as an `int`. Pointer differences are exact, and so are their sums
with the 31 bits of a size.
-/

namespace UBoot.Lz4

open Memory LittleEndian List

/-- From a block and an `outputSize`: how many bytes the decoder stores, and the contents of the block
unless it fails. More capacity does not change contents. -/
structure Decoder where
  decode : List UInt8 → ℤ → ℕ × Option (List UInt8)
  bounded : ∀ block cap, (decode block cap).1 ≤ cap.toNat
  counted : ∀ block cap out, (decode block cap).2 = some out → out.length ≤ (decode block cap).1
  fits : ∀ block cap out, (decode block cap).2 = some out → (out.length : ℤ) ≤ cap
  stable : ∀ block cap cap' out, cap ≤ cap' → (decode block cap).2 = some out →
    (decode block cap').2 = some out

/- A pointer difference as an `int` argument. -/
def intOf (n : ℕ) : ℤ := (n : ℤ).bmod (2 ^ 32)

/-- `in`, the bytes from `dst` to `out`, and the accesses as offsets and lengths. -/
structure State where
  inp : ℕ
  out : List UInt8 := []
  reads : List (ℕ × ℕ) := []
  writes : List (ℕ × ℕ) := []

section Code

variable (d : Decoder) (mem : Mem) (srcn cap : ℕ)

def raw (p : ℕ) : ℕ := leValue (bytes mem p 4)

def size (p : ℕ) : ℕ := raw mem p % 2 ^ 31

def notCompressed (p : ℕ) : Bool := 2 ^ 31 ≤ raw mem p

/-- The checks of the header: an error, or where the blocks start and what follows each of them. -/
def header : Except ℤ (ℕ × ℕ) :=
  let flags := (mem 4).toNat
  let blockDescriptor := (mem 5).toNat
  if raw mem 0 ≠ 0x184d2204 ∨ flags / 64 ≠ 1 then .error (-93)
  else if flags % 4 ≠ 0 ∨ blockDescriptor % 16 ≠ 0 ∨ blockDescriptor / 128 ≠ 0 then .error (-22)
  else if flags / 32 % 2 = 0 then .error (-93)
  else .ok (6 + (if flags / 8 % 2 = 1 then 8 else 0) + 1, if flags / 16 % 2 = 1 then 4 else 0)

/-- One turn of the loop, with the return value if it is the last one. -/
def turn (chk : ℕ) (s : State) : State × Option ℤ :=
  let p := s.inp
  let n := size mem p
  let s := { s with inp := p + 4, reads := (p, 4) :: s.reads }
  if srcn < p + 4 + n then (s, some (-22))
  else if n = 0 then (s, some 0)
  else if notCompressed mem p then
    let k := min n (cap - s.out.length)
    let s := { s with
      out := s.out ++ bytes mem (p + 4) k
      reads := (p + 4, k) :: s.reads
      writes := (s.out.length, k) :: s.writes }
    if k < n then (s, some (-105)) else ({ s with inp := p + 4 + n + chk }, none)
  else
    let r := d.decode (bytes mem (p + 4) n) (intOf (cap - s.out.length))
    let s := { s with
      reads := (p + 4, n) :: s.reads
      writes := (s.out.length, r.1) :: s.writes }
    match r.2 with
    | none => (s, some (-71))
    | some out => ({ s with inp := p + 4 + n + chk, out := s.out ++ out }, none)

def loop (chk : ℕ) : ℕ → State → Option (State × ℤ)
  | 0, _ => none
  | fuel + 1, s =>
    match turn d mem srcn cap chk s with
    | (s, some ret) => some (s, ret)
    | (s, none) => loop chk fuel s

structure Result where
  state : State
  ret : ℤ
  dstn : ℕ

def ulz4fn (fuel : ℕ) : Option Result :=
  if srcn < 15 then some ⟨{ inp := 0 }, -22, 0⟩
  else match header mem with
    | .error ret => some ⟨{ inp := 0, reads := [(0, 6)] }, ret, 0⟩
    | .ok (start, chk) => (loop d mem srcn cap chk fuel { inp := start, reads := [(0, 6)] }).map
        fun r => ⟨r.1, r.2, r.1.out.length⟩

end Code

/-! ### Frames -/

section Frames

variable (d : Decoder) (mem : Mem) (srcn cap : ℕ)

/-- What a block stands for, if there is room for it. -/
def content (p room : ℕ) : Option (List UInt8) :=
  if notCompressed mem p then
    if size mem p ≤ room then some (bytes mem (p + 4) (size mem p)) else none
  else (d.decode (bytes mem (p + 4) (size mem p)) (intOf room)).2

/-- Complete blocks lead to a place, and their contents fit. -/
inductive Complete : ℕ → List UInt8 → Prop where
  | start {p chk : ℕ} (hlong : 15 ≤ srcn) (hheader : header mem = .ok (p, chk)) : Complete p []
  | next {p start chk : ℕ} {out c : List UInt8} (h : Complete p out)
      (hheader : header mem = .ok (start, chk)) (hsize : size mem p ≠ 0)
      (hin : p + 4 + size mem p ≤ srcn) (hc : content d mem p (cap - out.length) = some c) :
      Complete (p + 4 + size mem p + chk) (out ++ c)

/-- The contents of the block at `p`. -/
def Holds (p : ℕ) (c : List UInt8) : Prop :=
  if notCompressed mem p then c = bytes mem (p + 4) (size mem p)
  else (d.decode (bytes mem (p + 4) (size mem p)) c.length).2 = some c

/-- The blocks of a frame with their contents, and the end behind the mark. -/
def Blocks (chk : ℕ) : ℕ → List (List UInt8) → ℕ → Prop
  | p, [], e => raw mem p = 0 ∧ e = p + 4
  | p, c :: cs, e => size mem p ≠ 0 ∧ Holds d mem p c ∧ Blocks chk (p + 4 + size mem p + chk) cs e

/-- A single frame with independent blocks, from the magic number to the content checksum. -/
structure Frame (contents : List (List UInt8)) : Prop where
  magic : raw mem 0 = 0x184d2204
  version : (mem 4).toNat / 64 = 1
  reserved : (mem 4).toNat % 4 = 0 ∧ (mem 5).toNat % 16 = 0 ∧ (mem 5).toNat / 128 = 0
  independent : (mem 4).toNat / 32 % 2 = 1
  blocks : ∃ e, Blocks d mem (if (mem 4).toNat / 16 % 2 = 1 then 4 else 0)
    (if (mem 4).toNat / 8 % 2 = 1 then 15 else 7) contents e ∧
    srcn = e + if (mem 4).toNat / 4 % 2 = 1 then 4 else 0

/-- There is a compressed block at `p`, all of it in `src`. -/
def Packed (p : ℕ) : Prop :=
  p + 4 + size mem p ≤ srcn ∧ size mem p ≠ 0 ∧ notCompressed mem p = false

/-- The stored block at `p` is larger than what is left behind `n` bytes of output. -/
def Overflows (p n : ℕ) : Prop :=
  p + 4 + size mem p ≤ srcn ∧ notCompressed mem p = true ∧ cap - n < size mem p

/-- The output of complete blocks, and of the one that is cut off behind them, goes as far as `e`. -/
def Covered (e : ℕ) : Prop :=
  ∃ p out, Complete d mem srcn cap p out ∧ (e ≤ out.length ∨ Overflows mem srcn cap p out.length)

/-- The capacity left behind `out`, as an `int`, holds what the block at `p` contains if there is room
for it. -/
def IntHolds (p : ℕ) (out : List UInt8) : Prop :=
  ∀ c, Holds d mem p c → out.length + c.length ≤ cap → (c.length : ℤ) ≤ intOf (cap - out.length)

end Frames

/-! ### One turn -/

section Turn

variable {d : Decoder} {mem : Mem} {srcn cap chk : ℕ} {s : State}

theorem turn_next (h : (turn d mem srcn cap chk s).2 = none) :
    s.inp + 4 + size mem s.inp ≤ srcn ∧ size mem s.inp ≠ 0 ∧
      ∃ c, content d mem s.inp (cap - s.out.length) = some c := by
  unfold turn at h
  dsimp only at h
  split at h
  · cases h
  next hin =>
  split at h
  · cases h
  next hsize =>
  refine ⟨Nat.le_of_not_lt hin, hsize, ?_⟩
  rw [content]
  split at h
  · next hraw =>
    split at h
    · cases h
    · next hfit =>
      rw [if_pos hraw, if_pos (by lia)]
      exact ⟨_, rfl⟩
  · next hraw =>
    rw [if_neg hraw]
    split at h
    · cases h
    · next c hc => exact ⟨c, hc⟩

theorem turn_content {c : List UInt8} (hin : s.inp + 4 + size mem s.inp ≤ srcn)
    (hsize : size mem s.inp ≠ 0) (hc : content d mem s.inp (cap - s.out.length) = some c) :
    (turn d mem srcn cap chk s).2 = none ∧
      (turn d mem srcn cap chk s).1.inp = s.inp + 4 + size mem s.inp + chk ∧
      (turn d mem srcn cap chk s).1.out = s.out ++ c := by
  rw [content] at hc
  unfold turn
  dsimp only
  rw [if_neg (Nat.not_lt.mpr hin), if_neg hsize]
  split at hc
  · next hraw =>
    split at hc
    · next hfit =>
      cases hc
      rw [if_pos hraw, Nat.min_eq_left hfit, if_neg (Nat.lt_irrefl _)]
      exact ⟨rfl, rfl, rfl⟩
    · cases hc
  · next hraw =>
    rw [if_neg hraw, hc]
    exact ⟨rfl, rfl, rfl⟩

/-- Later in a run: what has been read, stored and put out stays. -/
structure Later (s s' : State) : Prop where
  reads : s.reads ⊆ s'.reads
  writes : s.writes ⊆ s'.writes
  out : s.out.length ≤ s'.out.length

theorem turn_later : Later s (turn d mem srcn cap chk s).1 ∧
    (s.inp, 4) ∈ (turn d mem srcn cap chk s).1.reads := by
  unfold turn
  dsimp only
  repeat' split
  all_goals
    refine ⟨⟨?_, ?_, ?_⟩, ?_⟩
    · intro r hr
      simp [hr]
    · intro w hw
      simp [hw]
    · simp
    · simp

theorem turn_packed (h : Packed mem srcn s.inp) :
    (s.out.length, (d.decode (bytes mem (s.inp + 4) (size mem s.inp)) (intOf (cap - s.out.length))).1) ∈
      (turn d mem srcn cap chk s).1.writes := by
  unfold turn
  dsimp only
  rw [if_neg (Nat.not_lt.mpr h.1), if_neg h.2.1, if_neg (by simp [h.2.2])]
  split
  · simp
  · simp

theorem turn_overflows (h : Overflows mem srcn cap s.inp s.out.length) :
    cap ≤ (turn d mem srcn cap chk s).1.out.length := by
  obtain ⟨hin, hraw, hsize⟩ := h
  unfold turn
  dsimp only
  rw [if_neg (Nat.not_lt.mpr hin), if_neg (Nat.ne_zero_of_lt hsize), if_pos hraw,
    Nat.min_eq_right hsize.le, if_pos hsize]
  dsimp only
  rw [length_append, length_bytes]
  lia

theorem turn_last {ret : ℤ} (h : (turn d mem srcn cap chk s).2 = some ret) :
    (turn d mem srcn cap chk s).1.out = s.out ∨ Overflows mem srcn cap s.inp s.out.length := by
  unfold turn at h ⊢
  dsimp only at h ⊢
  split at h
  · next hin => exact .inl (by rw [if_pos hin])
  next hin =>
  rw [if_neg hin]
  split at h
  · next hsize => exact .inl (by rw [if_pos hsize])
  next hsize =>
  rw [if_neg hsize]
  split at h
  · next hraw =>
    split at h
    · next hcut => exact .inr ⟨Nat.le_of_not_lt hin, hraw, by lia⟩
    · cases h
  · next hraw =>
    rw [if_neg hraw]
    split at h
    · exact .inl rfl
    · cases h

theorem intOf_le (n : ℕ) : intOf n ≤ n := by
  unfold intOf
  rw [Int.bmod_def]
  lia

/-- The bytes stored are those of the output, and such as later output covers. -/
structure Stored (d : Decoder) (mem : Mem) (srcn cap : ℕ) (s : State) : Prop where
  all : ∀ i < s.out.length, ∃ w ∈ s.writes, w.1 ≤ i ∧ i < w.1 + w.2
  covered : ∀ w ∈ s.writes, Covered d mem srcn cap (w.1 + w.2)

/-- The accesses so far lie in the buffers. -/
structure Bounded (srcn cap : ℕ) (s : State) : Prop where
  reads : ∀ r ∈ s.reads, r.1 + r.2 ≤ srcn
  writes : ∀ w ∈ s.writes, w.1 + w.2 ≤ cap
  out : s.out.length ≤ cap

theorem turn_bounded (h : Bounded srcn cap s) (hhere : s.inp + 4 ≤ srcn) :
    Bounded srcn cap (turn d mem srcn cap chk s).1 := by
  obtain ⟨hreads, hwrites, hout⟩ := h
  have hdecode := (d.bounded (bytes mem (s.inp + 4) (size mem s.inp))
    (intOf (cap - s.out.length))).trans (Int.toNat_le.mpr (intOf_le _))
  have hcount := d.counted (bytes mem (s.inp + 4) (size mem s.inp)) (intOf (cap - s.out.length))
  unfold turn
  dsimp only
  repeat' split
  all_goals
    refine ⟨?_, ?_, ?_⟩
    · grind
    · grind
    · grind [length_bytes]

theorem Stored.write {s' : State} {k : ℕ} (h : Stored d mem srcn cap s)
    (hw : s'.writes = (s.out.length, k) :: s.writes) (hout : s'.out.length ≤ s.out.length + k)
    (hk : Covered d mem srcn cap (s.out.length + k)) : Stored d mem srcn cap s' := by
  refine ⟨fun i hi => ?_, fun w hmem => ?_⟩
  · rw [hw]
    by_cases hold : i < s.out.length
    · obtain ⟨w, hmem, hcover⟩ := h.all i hold
      exact ⟨w, mem_cons_of_mem _ hmem, hcover⟩
    · exact ⟨_, mem_cons_self, Nat.le_of_not_lt hold, hi.trans_le hout⟩
  · rw [hw] at hmem
    rcases mem_cons.mp hmem with rfl | hmem
    · exact hk
    · exact h.covered w hmem

theorem turn_stored {start : ℕ} (hheader : header mem = .ok (start, chk))
    (h : Stored d mem srcn cap s) (hcomplete : Complete d mem srcn cap s.inp s.out)
    (hpacked : Packed mem srcn s.inp → Covered d mem srcn cap (s.out.length +
      (d.decode (bytes mem (s.inp + 4) (size mem s.inp)) (intOf (cap - s.out.length))).1)) :
    Stored d mem srcn cap (turn d mem srcn cap chk s).1 := by
  have hcount := d.counted (bytes mem (s.inp + 4) (size mem s.inp)) (intOf (cap - s.out.length))
  unfold turn
  dsimp only
  split
  · exact ⟨h.all, h.covered⟩
  next hin =>
  split
  · exact ⟨h.all, h.covered⟩
  next hsize =>
  split
  · next hraw =>
    have hlen : (s.out ++ bytes mem (s.inp + 4) (min (size mem s.inp) (cap - s.out.length))).length =
        s.out.length + min (size mem s.inp) (cap - s.out.length) := by
      rw [length_append, length_bytes]
    split
    · next hcut =>
      exact h.write rfl hlen.le ⟨_, _, hcomplete, .inr ⟨Nat.le_of_not_lt hin, hraw, by lia⟩⟩
    · next hfit =>
      refine h.write rfl hlen.le ⟨_, _, hcomplete.next hheader hsize (Nat.le_of_not_lt hin)
        (by rw [content, if_pos hraw, if_pos (by lia)]), .inl ?_⟩
      rw [length_append, length_bytes]
      lia
  · next hraw =>
    have hnew := hpacked ⟨Nat.le_of_not_lt hin, hsize, by simpa using hraw⟩
    split
    · exact h.write rfl (Nat.le_add_right _ _) hnew
    · next c hc =>
      refine h.write rfl ?_ hnew
      rw [length_append]
      exact Nat.add_le_add_left (hcount c hc) _

end Turn

/-! ### Whole runs -/

section Runs

variable {d : Decoder} {mem : Mem} {srcn cap chk : ℕ} {s : State}

theorem loop_next (n : ℕ) (h : (turn d mem srcn cap chk s).2 = none) :
    loop d mem srcn cap chk (n + 1) s = loop d mem srcn cap chk n (turn d mem srcn cap chk s).1 := by
  rw [loop]
  cases hturn : turn d mem srcn cap chk s with
  | mk s' r =>
    rw [hturn] at h
    cases h
    rfl

theorem loop_last (n : ℕ) {ret : ℤ} (h : (turn d mem srcn cap chk s).2 = some ret) :
    loop d mem srcn cap chk (n + 1) s = some ((turn d mem srcn cap chk s).1, ret) := by
  rw [loop]
  cases hturn : turn d mem srcn cap chk s with
  | mk s' r =>
    rw [hturn] at h
    cases h
    rfl

/-- What every turn keeps holds where the loop ends, and it ends: a turn takes five bytes at
least. -/
theorem loop_rule {Inv : State → Prop} {Post : State → ℤ → Prop}
    (hnext : ∀ s, Inv s → (turn d mem srcn cap chk s).2 = none → Inv (turn d mem srcn cap chk s).1)
    (hlast : ∀ s ret, Inv s → (turn d mem srcn cap chk s).2 = some ret →
      Post (turn d mem srcn cap chk s).1 ret) (hs : Inv s) :
    ∃ s' ret, Post s' ret ∧
      ∀ n, srcn < n + s.inp → 0 < n → loop d mem srcn cap chk n s = some (s', ret) := by
  induction hd : srcn - s.inp using Nat.strong_induction_on generalizing s with
  | _ k ih =>
    cases hturn : (turn d mem srcn cap chk s).2 with
    | some ret =>
      refine ⟨_, ret, hlast s ret hs hturn, fun n _ hn => ?_⟩
      obtain _ | n := n
      · lia
      exact loop_last n hturn
    | none =>
      obtain ⟨hin, hsize, c, hc⟩ := turn_next hturn
      obtain ⟨-, hinp, -⟩ := @turn_content d mem srcn cap chk s c hin hsize hc
      obtain ⟨s', ret, hpost, hloop⟩ := ih _ (by lia) (hnext s hs hturn) rfl
      refine ⟨s', ret, hpost, fun n hfuel hn => ?_⟩
      obtain _ | n := n
      · lia
      rw [loop_next n hturn]
      exact hloop n (by lia) (by lia)

theorem loop_later {n : ℕ} {s' : State} {ret : ℤ}
    (h : loop d mem srcn cap chk n s = some (s', ret)) : Later (turn d mem srcn cap chk s).1 s' := by
  induction n generalizing s with
  | zero => cases h
  | succ n ih =>
    cases hturn : (turn d mem srcn cap chk s).2 with
    | some ret =>
      rw [loop_last n hturn] at h
      cases h
      exact ⟨Subset.refl _, Subset.refl _, le_rfl⟩
    | none =>
      rw [loop_next n hturn] at h
      obtain ⟨hreads, hwrites, hout⟩ := (@turn_later d mem srcn cap chk _).1
      have hrest := ih h
      exact ⟨fun r hr => hrest.reads (hreads hr), fun w hw => hrest.writes (hwrites hw),
        hout.trans hrest.out⟩

/- The loop comes to every place that complete blocks lead to. -/
theorem complete_visited {start p : ℕ} {out : List UInt8} (hheader : header mem = .ok (start, chk))
    (h : Complete d mem srcn cap p out) : 15 ≤ srcn ∧ ∃ k s, s.inp = p ∧ s.out = out ∧
      ∀ n, loop d mem srcn cap chk (n + k) { inp := start, reads := [(0, 6)] } =
        loop d mem srcn cap chk n s := by
  induction h with
  | start hlong hheader' =>
    cases hheader.symm.trans hheader'
    exact ⟨hlong, 0, _, rfl, rfl, fun n => rfl⟩
  | next h hheader' hsize hin hc ih =>
    cases hheader.symm.trans hheader'
    obtain ⟨hlong, k, s, rfl, rfl, hloop⟩ := ih
    obtain ⟨hturn, hinp, hout⟩ := @turn_content d mem srcn cap chk s _ hin hsize hc
    refine ⟨hlong, k + 1, _, hinp, hout, fun n => ?_⟩
    rw [← loop_next n hturn, ← hloop, Nat.add_assoc, Nat.add_comm 1 k]

theorem Blocks.le {p e : ℕ} {cs : List (List UInt8)} (h : Blocks d mem chk p cs e) : p + 4 ≤ e := by
  induction cs generalizing p with
  | nil => exact h.2.ge
  | cons c cs ih =>
    have := ih h.2.2
    lia

theorem Holds.content_eq {p : ℕ} {out c : List UInt8} (h : Holds d mem p c)
    (hfit : out.length + c.length ≤ cap)
    (hint : notCompressed mem p = false → IntHolds d mem cap p out) :
    content d mem p (cap - out.length) = some c := by
  have hholds := h
  rw [Holds] at h
  rw [content]
  split at h
  · next hraw =>
    have hlen : c.length = size mem p := by rw [h, length_bytes]
    rw [if_pos hraw, if_pos (by lia), h]
  · next hraw =>
    rw [if_neg hraw]
    exact d.stable _ _ _ c (hint (by simpa using hraw) c hholds hfit) h

theorem blocks_decoded {start p e : ℕ} {cs : List (List UInt8)} (hheader : header mem = .ok (start, chk))
    (hint : ∀ p out, Complete d mem srcn cap p out → Packed mem srcn p → IntHolds d mem cap p out)
    (hblocks : Blocks d mem chk p cs e) (he : e ≤ srcn) (hinp : s.inp = p)
    (hcomplete : Complete d mem srcn cap s.inp s.out) (hroom : (s.out ++ cs.flatten).length ≤ cap) :
    ∃ s', s'.out = s.out ++ cs.flatten ∧
      ∀ n, srcn < n + p → 0 < n → loop d mem srcn cap chk n s = some (s', 0) := by
  induction cs generalizing s p with
  | nil =>
    obtain ⟨hraw, rfl⟩ := hblocks
    have hsize : size mem s.inp = 0 := by rw [hinp, size, hraw, Nat.zero_mod]
    have hturn : (turn d mem srcn cap chk s).2 = some 0 ∧
        (turn d mem srcn cap chk s).1.out = s.out := by
      unfold turn
      dsimp only
      rw [hsize, if_neg (by lia), if_pos rfl]
      exact ⟨rfl, rfl⟩
    refine ⟨_, hturn.2.trans (append_nil _).symm, fun n _ hn => ?_⟩
    obtain _ | n := n
    · lia
    exact loop_last n hturn.1
  | cons c cs ih =>
    obtain ⟨hsize, hc, hrest⟩ := hblocks
    subst hinp
    rw [flatten_cons, ← append_assoc] at hroom ⊢
    have hfit := hroom
    rw [length_append, length_append] at hfit
    have hle := hrest.le
    have hcontent := @Holds.content_eq d mem cap _ s.out c hc (by lia) fun hraw =>
      hint _ _ hcomplete ⟨by lia, hsize, hraw⟩
    obtain ⟨hturn, hinp, hout⟩ := @turn_content d mem srcn cap chk s c (by lia) hsize hcontent
    obtain ⟨s', hs', hloop⟩ := ih (s := (turn d mem srcn cap chk s).1) hrest hinp
      (by rw [hinp, hout]; exact hcomplete.next hheader hsize (by lia) hcontent) (by rwa [hout])
    refine ⟨s', hs'.trans (by rw [hout]), fun n hn hpos => ?_⟩
    obtain _ | n := n
    · lia
    rw [loop_next n hturn]
    exact hloop n (by lia) (by lia)

theorem Frame.header_eq {contents : List (List UInt8)} (h : Frame d mem srcn contents) :
    header mem = .ok (if (mem 4).toNat / 8 % 2 = 1 then 15 else 7,
      if (mem 4).toNat / 16 % 2 = 1 then 4 else 0) := by
  unfold header
  dsimp only
  rw [if_neg (by simp [h.magic, h.version]), if_neg (by simp [h.reserved]),
    if_neg (by simp [h.independent])]
  split <;> rfl

/-- The state that the loop starts in. -/
def begun (start : ℕ) : State := { inp := start, reads := [(0, 6)] }

/-- What the end of a run says of a place that complete blocks lead to. -/
structure Visited (d : Decoder) (mem : Mem) (srcn cap : ℕ) (s : State) (ret : ℤ) (p : ℕ)
    (out : List UInt8) : Prop where
  read : (p, 4) ∈ s.reads
  grown : out.length ≤ s.out.length
  full : Overflows mem srcn cap p out.length → cap ≤ s.out.length
  stored : Packed mem srcn p → (out.length,
    (d.decode (bytes mem (p + 4) (size mem p)) (intOf (cap - out.length))).1) ∈ s.writes
  taken : Packed mem srcn p → ret = 0 → content d mem p (cap - out.length) ≠ none

theorem turn_refused (hp : Packed mem srcn s.inp)
    (hc : content d mem s.inp (cap - s.out.length) = none) :
    (turn d mem srcn cap chk s).2 = some (-71) := by
  have hraw : ¬notCompressed mem s.inp = true := by simp [hp.2.2]
  rw [content, if_neg hraw] at hc
  unfold turn
  dsimp only
  rw [if_neg (Nat.not_lt.mpr hp.1), if_neg hp.2.1, if_neg hraw, hc]

theorem visited {start p : ℕ} {out : List UInt8} {ret : ℤ} {s' : State}
    (hheader : header mem = .ok (start, chk))
    (hrun : ∀ n > srcn, loop d mem srcn cap chk n (begun start) = some (s', ret))
    (h : Complete d mem srcn cap p out) : Visited d mem srcn cap s' ret p out := by
  obtain ⟨-, k, s, rfl, rfl, hloop⟩ := complete_visited hheader h
  have hend : loop d mem srcn cap chk (srcn + 1) s = some (s', ret) := by
    rw [← hloop]
    exact hrun _ (by lia)
  have hlater := loop_later hend
  refine ⟨hlater.reads turn_later.2, turn_later.1.out.trans hlater.out,
    fun hfull => (turn_overflows hfull).trans hlater.out, fun hp => hlater.writes (turn_packed hp),
    fun hp hret hc => ?_⟩
  rw [loop_last srcn (turn_refused hp hc)] at hend
  obtain ⟨-, rfl⟩ := Prod.mk.inj (Option.some.inj hend)
  exact absurd hret (by decide)

/-- From an accepted header on the loop ends, and its output is that of complete blocks and of one
that is cut off. -/
theorem begun_ends {start : ℕ} (hlong : 15 ≤ srcn) (hheader : header mem = .ok (start, chk)) :
    ∃ s ret, Covered d mem srcn cap s.out.length ∧
      ∀ n > srcn, loop d mem srcn cap chk n (begun start) = some (s, ret) := by
  have hkeep : ∀ s, Complete d mem srcn cap s.inp s.out → (turn d mem srcn cap chk s).2 = none →
      Complete d mem srcn cap (turn d mem srcn cap chk s).1.inp (turn d mem srcn cap chk s).1.out := by
    intro s hs hturn
    obtain ⟨hin, hsize, c, hc⟩ := turn_next hturn
    obtain ⟨-, hinp, hout⟩ := @turn_content d mem srcn cap chk s c hin hsize hc
    rw [hinp, hout]
    exact hs.next hheader hsize hin hc
  have hlast : ∀ s ret, Complete d mem srcn cap s.inp s.out →
      (turn d mem srcn cap chk s).2 = some ret →
      Covered d mem srcn cap (turn d mem srcn cap chk s).1.out.length := by
    intro s ret hs hturn
    rcases turn_last hturn with hsame | hfull
    · exact ⟨_, _, hs, .inl (by rw [hsame])⟩
    · exact ⟨_, _, hs, .inr hfull⟩
  obtain ⟨s, ret, hcovered, hloop⟩ := @loop_rule d mem srcn cap chk (begun start) _
    (fun s _ => Covered d mem srcn cap s.out.length) hkeep hlast
    (show Complete d mem srcn cap (begun start).inp (begun start).out from .start hlong hheader)
  exact ⟨s, ret, hcovered, fun n hn => hloop n (by lia) (by lia)⟩

theorem Covered.le {e : ℕ} {s : State} {ret : ℤ} (h : Covered d mem srcn cap e) (he : e ≤ cap)
    (hvisited : ∀ p out, Complete d mem srcn cap p out → Visited d mem srcn cap s ret p out) :
    e ≤ s.out.length := by
  obtain ⟨p, out, hcomplete, hle | hfull⟩ := h
  · exact hle.trans (hvisited p out hcomplete).grown
  · exact he.trans ((hvisited p out hcomplete).full hfull)

end Runs

/-! ### The function -/

section Function

variable (d : Decoder) (mem : Mem) (srcn cap : ℕ)

/-- The call returns; it reads inside of `src` and writes inside of the capacity, `*dstn` is the
number of bytes written, and a frame whose contents fit is decoded. -/
def Correct : Prop :=
  ∃ r, (∀ fuel > srcn, ulz4fn d mem srcn cap fuel = some r) ∧ Bounded srcn cap r.state ∧
    (∀ i, i < r.dstn ↔ ∃ w ∈ r.state.writes, w.1 ≤ i ∧ i < w.1 + w.2) ∧
    ∀ contents, Frame d mem srcn contents → contents.flatten.length ≤ cap →
      r.ret = 0 ∧ r.dstn = contents.flatten.length ∧ r.state.out = contents.flatten

/-- Complete blocks never end less than four bytes before the end of `src`; what the decoder stores
for a block lies under the output of complete blocks; and a frame is not shorter than 15 bytes, nor
has it a block that the capacity left holds, but not as an `int`. -/
structure Meets : Prop where
  whole : ∀ p out, Complete d mem srcn cap p out → p + 4 ≤ srcn
  covered : ∀ p out, Complete d mem srcn cap p out → Packed mem srcn p → Covered d mem srcn cap
    (out.length + (d.decode (bytes mem (p + 4) (size mem p)) (intOf (cap - out.length))).1)
  frames : ∀ contents, Frame d mem srcn contents → contents.flatten.length ≤ cap → 15 ≤ srcn ∧
    ∀ p out, Complete d mem srcn cap p out → Packed mem srcn p → IntHolds d mem cap p out

variable {d mem srcn cap}

theorem ulz4fn_begun {start chk n : ℕ} {s : State} {ret : ℤ} (hlong : 15 ≤ srcn)
    (hheader : header mem = .ok (start, chk))
    (h : loop d mem srcn cap chk n (begun start) = some (s, ret)) :
    ulz4fn d mem srcn cap n = some ⟨s, ret, s.out.length⟩ := by
  rw [begun] at h
  rw [ulz4fn, if_neg (Nat.not_lt.mpr hlong), hheader]
  dsimp only
  rw [h, Option.map_some]

theorem Complete.header_ok {p : ℕ} {out : List UInt8} (h : Complete d mem srcn cap p out) :
    15 ≤ srcn ∧ ∃ start chk, header mem = .ok (start, chk) := by
  induction h with
  | start hlong hheader => exact ⟨hlong, _, _, hheader⟩
  | next _ hheader _ _ _ ih => exact ⟨ih.1, _, _, hheader⟩

/- What a correct call says of the run behind the header. -/
theorem Correct.run {start chk : ℕ} (h : Correct d mem srcn cap) (hlong : 15 ≤ srcn)
    (hheader : header mem = .ok (start, chk)) : ∃ s ret, Bounded srcn cap s ∧
      (∀ w ∈ s.writes, Covered d mem srcn cap (w.1 + w.2) ∨ w.2 = 0) ∧
      (∀ contents, Frame d mem srcn contents → contents.flatten.length ≤ cap → ret = 0) ∧
      ∀ p out, Complete d mem srcn cap p out → Visited d mem srcn cap s ret p out := by
  obtain ⟨r, hrun, hbounded, hdstn, hframe⟩ := h
  obtain ⟨s, ret, hcovered, hloop⟩ := @begun_ends d mem srcn cap chk start hlong hheader
  have hfuel := hrun (srcn + 1) (Nat.lt_succ_self _)
  rw [ulz4fn_begun hlong hheader (hloop _ (Nat.lt_succ_self _))] at hfuel
  obtain rfl := Option.some.inj hfuel
  refine ⟨s, ret, hbounded, fun w hw => ?_, fun contents hvalid hfit => (hframe contents hvalid hfit).1,
    fun p out hcomplete => visited hheader hloop hcomplete⟩
  rcases Nat.eq_zero_or_pos w.2 with hnone | hsome
  · exact .inr hnone
  · obtain ⟨p, out, hcomplete, hle⟩ := hcovered
    have hlast := (hdstn (w.1 + w.2 - 1)).mpr ⟨w, hw, by lia, by lia⟩
    dsimp only at hlast
    exact .inl ⟨p, out, hcomplete, hle.imp_left fun hle => by lia⟩

theorem Correct.meets (h : Correct d mem srcn cap) : Meets d mem srcn cap := by
  refine ⟨fun p out hcomplete => ?_, fun p out hcomplete hp => ?_, fun contents hvalid hfit => ?_⟩
  · obtain ⟨hlong, start, chk, hheader⟩ := hcomplete.header_ok
    obtain ⟨s, ret, hbounded, -, -, hvisited⟩ := h.run hlong hheader
    exact hbounded.reads _ (hvisited p out hcomplete).read
  · obtain ⟨hlong, start, chk, hheader⟩ := hcomplete.header_ok
    obtain ⟨s, ret, -, hcovered, -, hvisited⟩ := h.run hlong hheader
    rcases hcovered _ ((hvisited p out hcomplete).stored hp) with hcovered | hnone
    · exact hcovered
    · exact ⟨p, out, hcomplete, .inl (by dsimp only at hnone; lia)⟩
  · have hlong : 15 ≤ srcn := by
      by_contra hshort
      obtain ⟨r, hrun, -, -, hframe⟩ := h
      have hfuel := hrun (srcn + 1) (Nat.lt_succ_self _)
      rw [ulz4fn, if_pos (Nat.not_le.mp hshort)] at hfuel
      cases hfuel
      cases (hframe contents hvalid hfit).1
    refine ⟨hlong, fun p out hcomplete hp c hc hroom => ?_⟩
    obtain ⟨s, ret, -, -, hzero, hvisited⟩ := h.run hlong hvalid.header_eq
    have htaken := (hvisited p out hcomplete).taken hp (hzero contents hvalid hfit)
    have hraw : ¬notCompressed mem p = true := by simp [hp.2.2]
    rw [content, if_neg hraw] at htaken
    obtain ⟨c', hc'⟩ := Option.ne_none_iff_exists'.mp htaken
    rw [Holds, if_neg hraw] at hc
    by_contra hcut
    -- what is decoded into less room is decoded into the room for `c`, and is `c` itself
    have hlen := d.fits _ _ c' hc'
    obtain rfl := Option.some.inj (hc.symm.trans (d.stable _ _ _ c' (by lia) hc'))
    lia

theorem Meets.correct (h : Meets d mem srcn cap) : Correct d mem srcn cap := by
  have hnothing : ∀ i, i < 0 ↔ ∃ w ∈ ([] : List (ℕ × ℕ)), w.1 ≤ i ∧ i < w.1 + w.2 := by simp
  by_cases hlong : srcn < 15
  · refine ⟨⟨{ inp := 0 }, -22, 0⟩, fun fuel _ => if_pos hlong, ⟨by simp, by simp, Nat.zero_le _⟩,
      hnothing, fun contents hvalid hfit => ?_⟩
    exact absurd (h.frames contents hvalid hfit).1 (Nat.not_le.mpr hlong)
  have hfirst : Bounded srcn cap { inp := 0, reads := [(0, 6)] } :=
    ⟨by simp; lia, by simp, Nat.zero_le _⟩
  cases hheader : header mem with
  | error ret =>
    refine ⟨⟨{ inp := 0, reads := [(0, 6)] }, ret, 0⟩, fun fuel _ => ?_, hfirst, hnothing,
      fun contents hvalid _ => ?_⟩
    · rw [ulz4fn, if_neg hlong, hheader]
    · cases hheader.symm.trans hvalid.header_eq
  | ok r =>
    obtain ⟨start, chk⟩ := r
    have hlong := Nat.not_lt.mp hlong
    have hstart : Complete d mem srcn cap start [] := .start hlong hheader
    have hkeep : ∀ s, (Bounded srcn cap s ∧ Stored d mem srcn cap s ∧
          Complete d mem srcn cap s.inp s.out) → (turn d mem srcn cap chk s).2 = none →
        Bounded srcn cap (turn d mem srcn cap chk s).1 ∧
          Stored d mem srcn cap (turn d mem srcn cap chk s).1 ∧ Complete d mem srcn cap
            (turn d mem srcn cap chk s).1.inp (turn d mem srcn cap chk s).1.out := by
      rintro s ⟨hbounded, hstored, hcomplete⟩ hturn
      obtain ⟨hin, hsize, c, hc⟩ := turn_next hturn
      obtain ⟨-, hinp, hout⟩ := @turn_content d mem srcn cap chk s c hin hsize hc
      have hstored' := turn_stored hheader hstored hcomplete (h.covered _ _ hcomplete)
      refine ⟨turn_bounded hbounded (h.whole _ _ hcomplete), hstored', ?_⟩
      rw [hinp, hout]
      exact hcomplete.next hheader hsize hin hc
    obtain ⟨s, ret, ⟨hbounded, hstored⟩, hloop⟩ := @loop_rule d mem srcn cap chk (begun start) _
      (fun s _ => Bounded srcn cap s ∧ Stored d mem srcn cap s) hkeep
      (fun s _ hs _ => ⟨turn_bounded hs.1 (h.whole _ _ hs.2.2),
        turn_stored hheader hs.2.1 hs.2.2 (h.covered _ _ hs.2.2)⟩)
      ⟨⟨hfirst.1, hfirst.2, hfirst.3⟩, ⟨fun i hi => absurd hi (Nat.not_lt_zero i), fun w hw => by cases hw⟩,
        hstart⟩
    have hruns : ∀ n > srcn, loop d mem srcn cap chk n (begun start) = some (s, ret) :=
      fun n hn => hloop n (by lia) (by lia)
    refine ⟨⟨s, ret, s.out.length⟩, fun fuel hfuel => ulz4fn_begun hlong hheader (hruns fuel hfuel),
      hbounded, fun i => ⟨hstored.all i, ?_⟩, fun contents hvalid hfit => ?_⟩
    · rintro ⟨w, hw, -, hi⟩
      exact hi.trans_le ((hstored.covered w hw).le (hbounded.writes w hw) fun p out hcomplete =>
        visited hheader hruns hcomplete)
    · obtain ⟨rfl, rfl⟩ := Prod.mk.inj (Except.ok.inj (hheader.symm.trans hvalid.header_eq))
      obtain ⟨e, hblocks, he⟩ := hvalid.blocks
      obtain ⟨s', hout, hdecoded⟩ := @blocks_decoded d mem srcn cap _ (begun _) _ _ _ _ hheader
        (h.frames contents hvalid hfit).2 hblocks (he ▸ Nat.le_add_right _ _) rfl hstart hfit
      obtain ⟨rfl, rfl⟩ := Prod.mk.inj (Option.some.inj
        ((hruns (srcn + 1) (by lia)).symm.trans (hdecoded (srcn + 1) (by lia) (by lia))))
      exact ⟨rfl, by rw [hout]; rfl, hout⟩

/-- A call is correct exactly if it meets no block that is read behind `src`, stored behind its
contents, or too large for an `int`, and `src` is not one of the frames shorter than 15 bytes. -/
theorem ulz4fn_exact (d : Decoder) (mem : Mem) (srcn cap : ℕ) :
    Correct d mem srcn cap ↔ Meets d mem srcn cap :=
  ⟨Correct.meets, Meets.correct⟩

/-- A header with a content size fills 15 bytes. -/
def headerOnly : Mem := fun i => [0x04, 0x22, 0x4d, 0x18, 0x68].getD i 0

def noDecoder : Decoder where
  decode := fun _ _ => (0, none)
  bounded := fun _ _ => Nat.zero_le _
  counted := fun _ _ out h => absurd h.symm (Option.some_ne_none out)
  fits := fun _ _ out h => absurd h.symm (Option.some_ne_none out)
  stable := fun _ _ _ _ _ h => h

/- The first block is read behind them. -/
theorem ulz4fn_truncated : ¬ Correct noDecoder headerOnly 15 0 := by
  intro h
  have hheader : header headerOnly = .ok (15, 0) := by
    simp [header, raw, headerOnly, bytes, leValue, range_succ]
  exact absurd (h.meets.whole 15 [] (.start (by decide) hheader)) (by decide)

end Function

end UBoot.Lz4
