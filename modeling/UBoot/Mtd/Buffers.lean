import UBoot.Mtd.RoundTrip

/-!
# The bytes that are stored (cmd/mtdparts.c)

`generate_mtdparts` with the buffer it writes to, and the space behind the partition that
`part_parse` writes a name to. A buffer is the list of the bytes stored to it, from its start.
-/

namespace UBoot.Mtd

open List Option

def nul : Char := Char.ofNat 0

/- `bytes` are stored at the offset `p`. -/
def store (buf : List Char) (p : ℕ) (bytes : List Char) : List Char :=
  buf.take p ++ bytes ++ buf.drop (p + bytes.length)

theorem length_store {buf : List Char} (bytes : List Char) {p : ℕ} (h : p ≤ buf.length) :
    (store buf p bytes).length = max buf.length (p + bytes.length) := by
  simp only [store, length_append, length_take, length_drop]
  lia

/- The pieces up to the first one that `maxlen` has no room for: whether all have been written,
the pointer `p` and the buffer. -/
def writePieces : ℕ → ℕ → List Char → List (List Char) → Bool × ℕ × List Char
  | _, p, buf, [] => (true, p, buf)
  | maxlen, p, buf, piece :: pieces =>
    if maxlen < piece.length then (false, p, buf)
    else writePieces (maxlen - piece.length) (p + piece.length) (store buf p piece) pieces

/- The result and the bytes stored to `buf`. -/
def generateMtdpartsBuf (devices : List MtdDevice) (buflen : ℕ) : ℤ × List Char :=
  if devices = [] then (0, store [] 0 [nul])
  else
    let buf := store [] 0 ("mtdparts=".toList ++ [nul])
    match writePieces ((buflen + 2 ^ 32 - 1) % 2 ^ 32) 9 buf (devicesPieces devices) with
    | (true, p, buf) => (0, store buf p [nul])
    | (false, _, buf) => (1, buf)

def accepted : ℕ → List (List Char) → ℕ
  | _, [] => 0
  | maxlen, piece :: pieces =>
    if maxlen < piece.length then 0 else piece.length + accepted (maxlen - piece.length) pieces

section Pieces

theorem accepted_le (pieces : List (List Char)) :
    ∀ maxlen, accepted maxlen pieces ≤ min maxlen pieces.flatten.length := by
  induction pieces with
  | nil => exact fun _ => Nat.zero_le _
  | cons piece pieces ih =>
    intro maxlen
    rw [accepted]
    split
    · exact Nat.zero_le _
    · have hrest := ih (maxlen - piece.length)
      rw [flatten_cons, length_append]
      lia

theorem accepted_all {pieces : List (List Char)} : ∀ {maxlen : ℕ},
    pieces.flatten.length ≤ maxlen → accepted maxlen pieces = pieces.flatten.length := by
  induction pieces with
  | nil => exact fun _ => rfl
  | cons piece pieces ih =>
    intro maxlen h
    rw [flatten_cons, length_append] at h
    rw [accepted, if_neg (by lia), ih (by lia), flatten_cons, length_append]

theorem accepted_bound {n : ℕ} (pieces : List (List Char)) : ∀ maxlen,
    accepted maxlen pieces ≤ n ↔
      ∀ pre, pre <+: pieces → pre.flatten.length ≤ maxlen → pre.flatten.length ≤ n := by
  induction pieces generalizing n with
  | nil =>
    intro maxlen
    simp [accepted]
  | cons piece pieces ih =>
    intro maxlen
    rw [accepted]
    split
    · next hroom =>
      refine iff_of_true (Nat.zero_le _) fun pre hpre hlen => ?_
      cases pre with
      | nil => exact Nat.zero_le _
      | cons first pre =>
        obtain ⟨rfl, -⟩ := cons_prefix_cons.mp hpre
        rw [flatten_cons, length_append] at hlen
        lia
    · next hroom =>
      have hstep := ih (n := n - piece.length) (maxlen - piece.length)
      constructor
      · intro h pre hpre hlen
        cases pre with
        | nil => exact Nat.zero_le _
        | cons first pre =>
          obtain ⟨rfl, hrest⟩ := cons_prefix_cons.mp hpre
          rw [flatten_cons, length_append] at hlen ⊢
          have hbound := hstep.mp (by lia) pre hrest (by lia)
          lia
      · intro h
        have hfirst := h [piece] (cons_prefix_cons.mpr ⟨rfl, nil_prefix⟩)
          (by simpa using not_lt.mp hroom)
        simp only [flatten_cons, flatten_nil, append_nil] at hfirst
        have hrest := hstep.mpr fun pre hpre hlen => by
          have hall := h (piece :: pre) (cons_prefix_cons.mpr ⟨rfl, hpre⟩)
            (by rw [flatten_cons, length_append]; lia)
          rw [flatten_cons, length_append] at hall
          lia
        lia

theorem writePieces_spec (pieces : List (List Char)) : ∀ (maxlen p : ℕ) (buf : List Char),
    p ≤ buf.length →
    (writePieces maxlen p buf pieces).1 = decide (pieces.flatten.length ≤ maxlen) ∧
      (writePieces maxlen p buf pieces).2.1 = p + accepted maxlen pieces ∧
      (writePieces maxlen p buf pieces).2.2.length = max buf.length (p + accepted maxlen pieces) := by
  induction pieces with
  | nil =>
    intro maxlen p buf h
    simp [writePieces, accepted, h]
  | cons piece pieces ih =>
    intro maxlen p buf h
    rw [writePieces, accepted, flatten_cons, length_append]
    split
    · next hroom =>
      have hnot : ¬ piece.length + pieces.flatten.length ≤ maxlen := by lia
      exact ⟨(decide_eq_false hnot).symm, rfl, (Nat.max_eq_left h).symm⟩
    · next hroom =>
      have hlen := length_store piece h
      obtain ⟨hok, hp, hbuf⟩ := ih (maxlen - piece.length) (p + piece.length)
        (store buf p piece) (by lia)
      refine ⟨?_, ?_, ?_⟩
      · rw [hok, decide_eq_decide]
        lia
      · rw [hp]
        lia
      · rw [hbuf, hlen]
        lia

end Pieces

section Generate

variable {devices : List MtdDevice} {buflen : ℕ}

theorem devicesPieces_pos (h : devices ≠ []) : 0 < (devicesPieces devices).flatten.length :=
  lt_of_lt_of_le (length_pos_iff.mpr h) (length_devicesPieces devices)

/- No piece of the text ends less than nine bytes behind the end of the buffer, and the text does
not end with it. -/
def TextFits (devices : List MtdDevice) (buflen : ℕ) : Prop :=
  (∀ pre, pre <+: devicesPieces devices → ("mtdparts=".toList ++ pre.flatten).length < buflen + 9 →
    ("mtdparts=".toList ++ pre.flatten).length ≤ buflen) ∧
  ("mtdparts=".toList ++ (devicesPieces devices).flatten).length ≠ buflen

theorem textFits_iff (h : 10 ≤ buflen) : TextFits devices buflen ↔
    accepted (buflen - 1) (devicesPieces devices) + 9 ≤ buflen ∧
      (devicesPieces devices).flatten.length + 9 ≠ buflen := by
  have hnine : "mtdparts=".toList.length = 9 := by decide
  have hbound := accepted_bound (n := buflen - 9) (devicesPieces devices) (buflen - 1)
  rw [show accepted (buflen - 1) (devicesPieces devices) + 9 ≤ buflen ↔
    accepted (buflen - 1) (devicesPieces devices) ≤ buflen - 9 by lia, hbound, TextFits]
  refine and_congr (forall_congr' fun pre => forall_congr' fun _ => ?_) ?_
  · rw [length_append, hnine]
    lia
  · rw [length_append, hnine]
    lia

theorem generateMtdpartsBuf_length (h : 10 ≤ buflen) (hlt : buflen < 2 ^ 32) :
    (generateMtdpartsBuf devices buflen).2.length ≤ buflen ↔ TextFits devices buflen := by
  rw [textFits_iff h, generateMtdpartsBuf]
  by_cases hne : devices = []
  · subst hne
    simp [store, accepted, devicesPieces]
    lia
  · rw [if_neg hne]
    have hmax : (buflen + 2 ^ 32 - 1) % 2 ^ 32 = buflen - 1 := by lia
    have hpos := devicesPieces_pos hne
    have hten : (store [] 0 ("mtdparts=".toList ++ [nul])).length = 10 := by decide
    obtain ⟨hok, hp, hbuf⟩ := writePieces_spec (devicesPieces devices) (buflen - 1) 9
      (store [] 0 ("mtdparts=".toList ++ [nul])) (by lia)
    rw [hten] at hbuf
    dsimp only
    rw [hmax]
    generalize writePieces (buflen - 1) 9 (store [] 0 ("mtdparts=".toList ++ [nul]))
      (devicesPieces devices) = written at hok hp hbuf ⊢
    obtain ⟨ok, p, buf⟩ := written
    dsimp only at hok hp hbuf
    cases ok with
    | true =>
      have htotal : (devicesPieces devices).flatten.length ≤ buflen - 1 := by simpa using hok
      rw [accepted_all htotal] at hp hbuf ⊢
      dsimp only
      rw [length_store [nul] (by lia), length_singleton]
      lia
    | false =>
      have htotal : ¬ (devicesPieces devices).flatten.length ≤ buflen - 1 := by simpa using hok
      dsimp only
      lia

end Generate

def sizeAtOffset (size offset : ℕ) : List Char :=
  "0x".toList ++ hex08 size ++ "@0x".toList ++ hex08 offset

/- `name_len` and the bytes stored to the space behind the partition, `none` when 1 is returned. -/
def partParseName (partdef : List Char) : Option (ℕ × List Char) := do
  let (size, p) ← parseSize partdef
  let (offset, p) := parseOffset p
  let (name, p) ← parseName p
  let (_, p) := parseOptions p
  let _ ← parseEnd size p
  match name with
  | some name => return (name.length + 1, store (store [] 0 name) name.length [nul])
  | none => return (22, store (store [] 0 (sizeAtOffset size offset ++ [nul])) 21 [nul])

theorem length_hex08 (n : ℕ) : 8 ≤ (hex08 n).length ∧ ((hex08 n).length ≤ 8 ↔ n < 2 ^ 32) := by
  have hlen : (hex08 n).length = max 8 (Nat.toDigits 16 n).length := length_leftpad
  have hdigits := Nat.length_toDigits_le_iff (b := 16) (n := n) (k := 8) (by decide) (by decide)
  have hpow : 16 ^ 8 = 2 ^ 32 := by decide
  rw [hpow] at hdigits
  lia

theorem length_sizeAtOffset (size offset : ℕ) :
    21 ≤ (sizeAtOffset size offset).length ∧
      ((sizeAtOffset size offset).length ≤ 21 ↔ size < 2 ^ 32 ∧ offset < 2 ^ 32) := by
  have hlen : (sizeAtOffset size offset).length = 5 + (hex08 size).length + (hex08 offset).length := by
    simp only [sizeAtOffset, length_append]
    have h2 : "0x".toList.length = 2 := by decide
    have h3 : "@0x".toList.length = 3 := by decide
    lia
  obtain ⟨hsize, hsize'⟩ := length_hex08 size
  obtain ⟨hoffset, hoffset'⟩ := length_hex08 offset
  rw [← hsize', ← hoffset']
  lia

/- A definition that is accepted without a name, whose size or offset has more than eight
digits; an offset that is left out has sixteen. -/
def Overlong (partdef : List Char) : Prop :=
  ∃ size p p' ret, parseSize partdef = some (size, p) ∧
    parseName (parseOffset p).2 = some (none, p') ∧
    parseEnd size (parseOptions p').2 = some ret ∧
    (2 ^ 32 ≤ size ∨ 2 ^ 32 ≤ (parseOffset p).1)

theorem partParseName_length (partdef : List Char) :
    (∀ nameLen bytes, partParseName partdef = some (nameLen, bytes) → bytes.length ≤ nameLen) ↔
      ¬ Overlong partdef := by
  rw [partParseName, Overlong]
  cases hsize : parseSize partdef with
  | none => simp
  | some r =>
    obtain ⟨size, p⟩ := r
    simp only [bind_eq_bind, bind_some]
    cases hname : parseName (parseOffset p).2 with
    | none => simp [hname]
    | some r =>
      obtain ⟨name, p'⟩ := r
      simp only [bind_some]
      cases hend : parseEnd size (parseOptions p').2 with
      | none => simp [hname, hend]
      | some ret =>
        cases name with
        | some name => simp [hname, store]
        | none =>
          obtain ⟨hmin, hlong⟩ := length_sizeAtOffset size (parseOffset p).1
          have hbytes : (store (store [] 0 (sizeAtOffset size (parseOffset p).1 ++ [nul])) 21
              [nul]).length = (sizeAtOffset size (parseOffset p).1).length + 1 := by
            have hin : (store [] 0 (sizeAtOffset size (parseOffset p).1 ++ [nul])).length =
                (sizeAtOffset size (parseOffset p).1).length + 1 := by simp [store]
            rw [length_store [nul] (by lia), hin, length_singleton]
            lia
          have hleft : (∀ nameLen bytes, some (22, store (store []
              0 (sizeAtOffset size (parseOffset p).1 ++ [nul])) 21 [nul]) = some (nameLen, bytes) →
              bytes.length ≤ nameLen) ↔ (sizeAtOffset size (parseOffset p).1).length ≤ 21 := by
            refine ⟨fun h => ?_, fun h nameLen bytes heq => ?_⟩
            · have := h 22 _ rfl
              lia
            · cases heq
              lia
          simp only [bind_some, Option.pure_def]
          rw [hleft, hlong]
          simp [hname, hend, not_or]

theorem mtdparts_buffers (devices : List MtdDevice) {buflen : ℕ} (h : 10 ≤ buflen)
    (hlt : buflen < 2 ^ 32) :
    ((generateMtdpartsBuf devices buflen).2.length ≤ buflen ↔ TextFits devices buflen) ∧
      ∀ partdef, (∀ nameLen bytes, partParseName partdef = some (nameLen, bytes) →
        bytes.length ≤ nameLen) ↔ ¬ Overlong partdef :=
  ⟨generateMtdpartsBuf_length h hlt, partParseName_length⟩

theorem mtdparts_buffers_sample :
    ((generateMtdpartsBuf sampleDevs 512).2.length ≤ 512 ↔ TextFits sampleDevs 512) ∧
      ∀ partdef, (∀ nameLen bytes, partParseName partdef = some (nameLen, bytes) →
        bytes.length ≤ nameLen) ↔ ¬ Overlong partdef :=
  mtdparts_buffers sampleDevs (by decide) (by decide)

/- The text mtdparts=nor0:4k in a buffer of 12 bytes, and the definition 4k. -/
theorem mtdparts_buffers_overrun :
    (generateMtdpartsBuf [⟨⟨.nor, 0, 2 ^ 20, "nor0".toList⟩,
      1, [⟨0, "boot".toList, true, 4096, 0, 0, 0⟩]⟩] 12).2.length = 17 ∧
      (partParseName "4k".toList).map (fun r => (r.1, r.2.length)) = some (22, 30) := by
  decide +kernel

end UBoot.Mtd
