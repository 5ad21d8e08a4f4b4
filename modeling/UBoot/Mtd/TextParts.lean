import UBoot.Mtd.Text

/-!
# Parsing the partitions of one device

Numbers, partitions and the list of partitions of a device are read back as they were written.
-/

namespace UBoot.Mtd

open List Strto

variable {n : ℕ}

theorem digitChar_digit (h : n < 10) : Strto.isxdigit (Nat.digitChar n).toNat = true ∧
    digitValue (Nat.digitChar n).toNat = n := by
  interval_cases n <;> decide

variable {tail : List Char}

theorem toDigits_digits (n : ℕ) : (∀ c ∈ Nat.toDigits 10 n, Strto.isxdigit c.toNat = true ∧
    digitValue c.toNat < 10) ∧ value Char.toNat 10 0 (Nat.toDigits 10 n) = n := by
  induction n using Nat.strong_induction_on with
  | _ n ih =>
    rw [Nat.toDigits_eq_if (by decide)]
    split
    · next hlt =>
      obtain ⟨hx, hvalue⟩ := digitChar_digit hlt
      exact ⟨by simp [hx, hvalue, hlt], by simp [value, hvalue]⟩
    · next hge =>
      obtain ⟨hall, hback⟩ := ih (n / 10) (by lia)
      obtain ⟨hx, hvalue⟩ := digitChar_digit (Nat.mod_lt n (by decide))
      refine ⟨fun c hc => ?_, ?_⟩
      · rcases mem_append.mp hc with hc | hc
        · exact hall c hc
        · rw [mem_singleton.mp hc, hvalue]
          exact ⟨hx, Nat.mod_lt n (by decide)⟩
      · rw [value] at hback
        rw [value, foldl_append, hback, foldl_cons, foldl_nil, hvalue]
        lia

theorem toDigits_head (n : ℕ) : 0 < n → ∃ c cs, Nat.toDigits 10 n = c :: cs ∧ c ≠ '0' := by
  induction n using Nat.strong_induction_on with
  | _ n ih =>
    intro hpos
    rw [Nat.toDigits_eq_if (by decide)]
    split
    · next hlt =>
      refine ⟨_, [], rfl, ?_⟩
      interval_cases n <;> decide
    · next hge =>
      obtain ⟨c, cs, hcs, hc⟩ := ih (n / 10) (by lia) (by lia)
      exact ⟨c, cs ++ [(n % 10).digitChar], by rw [hcs, cons_append], hc⟩

theorem simpleStrtoull_toDigits (hn : n < 2 ^ 64) (htail : Ends Char.toNat tail) :
    simpleStrtoull (Nat.toDigits 10 n ++ tail) = (n, tail) := by
  rcases Nat.eq_zero_or_pos n with rfl | hpos
  · have hbase : baseOf Char.toNat 0 ('0' :: tail) = (8, tail) :=
      baseOf_zero rfl fun c hc => (htail c hc).2
    rw [Nat.toDigits_zero, singleton_append, simpleStrtoull, simpleStrtoul, hbase]
    exact digits_append (g := []) (fun c hc => absurd hc not_mem_nil) htail (by decide)
  · obtain ⟨c, cs, hcs, hc⟩ := toDigits_head n hpos
    obtain ⟨hall, hvalue⟩ := toDigits_digits n
    have hcode : c.toNat ≠ 48 := fun h => hc (Char.toNat_inj.mp h)
    rw [hcs] at hall hvalue
    rw [hcs, cons_append, simpleStrtoull, simpleStrtoul, baseOf_nonzero hcode, if_pos rfl,
      ← cons_append, digits_append hall htail (by decide), hvalue, Nat.mod_eq_of_lt hn]

def EndsSize (tail : List Char) : Prop :=
  Ends Char.toNat tail ∧ ∀ c cs, tail = c :: cs → c ∉ ['G', 'g', 'M', 'm', 'K', 'k']

theorem ends_suffix {c : Char} (h : c ∈ ['g', 'm', 'k']) : Ends Char.toNat (c :: tail) := by
  rintro d hd
  obtain rfl := Option.some.inj hd
  fin_cases h <;> decide

theorem memsizeParse_format (hn : n < 2 ^ 64) (htail : EndsSize tail) :
    memsizeParse (memsizeFormat n ++ tail) = (n, tail) := by
  have hsuffix : ∀ (c : Char) (unit : ℕ), c ∈ ['g', 'm', 'k'] → n % unit = 0 →
      simpleStrtoull (Nat.toDigits 10 (n / unit) ++ [c] ++ tail) = (n / unit, c :: tail) ∧
      u64 (n / unit * unit) = n := by
    intro c unit hc hunit
    rw [append_assoc, singleton_append]
    refine ⟨simpleStrtoull_toDigits (lt_of_le_of_lt (Nat.div_le_self n unit) hn) (ends_suffix hc), ?_⟩
    rw [Nat.div_mul_cancel (Nat.dvd_of_mod_eq_zero hunit), u64, Nat.mod_eq_of_lt hn]
  rw [memsizeFormat]
  split
  · next h =>
    obtain ⟨hread, hback⟩ := hsuffix 'g' _ (by decide) h
    rw [memsizeParse, hread]
    simp only [hback, or_true, if_true]
  split
  · next h =>
    obtain ⟨hread, hback⟩ := hsuffix 'm' _ (by decide) h
    rw [memsizeParse, hread]
    simp only [Char.reduceEq, or_self, hback, or_true, if_true, if_false]
  split
  · next h =>
    obtain ⟨hread, hback⟩ := hsuffix 'k' _ (by decide) h
    rw [memsizeParse, hread]
    simp only [Char.reduceEq, or_self, hback, or_true, if_true, if_false]
  · rw [memsizeParse, simpleStrtoull_toDigits hn htail.1]
    cases tail with
    | nil => rfl
    | cons c cs =>
      have hc := htail.2 c cs rfl
      simp only [mem_cons, not_mem_nil, or_false, not_or] at hc
      simp only [hc, or_self, if_false]

def StartsIn (cs : List Char) (text : List Char) : Prop := ∀ c p, text = c :: p → c ∈ cs

theorem StartsIn.mono {cs cs' text : List Char} (h : StartsIn cs text) (hsub : cs ⊆ cs') :
    StartsIn cs' text := fun c p hc => hsub (h c p hc)

theorem startsIn_cons {cs text : List Char} {c : Char} (hc : c ∈ cs) : StartsIn cs (c :: text) := by
  intro d p h
  obtain ⟨rfl, -⟩ := List.cons.inj h
  exact hc

theorem StartsIn.endsSize {text : List Char} (h : StartsIn ['@', '(', 'r', ',', ';'] text) :
    EndsSize text := by
  have hall : ∀ c ∈ ['@', '(', 'r', ',', ';'], (Strto.isxdigit c.toNat = false ∧ c.toNat ≠ 120) ∧
      c ∉ ['G', 'g', 'M', 'm', 'K', 'k'] := by
    intro c hc
    fin_cases hc <;> decide
  exact ⟨fun c hc => (hall c (h c _ (eq_cons_of_mem_head? hc))).1, fun c p hc => (hall c (h c p hc)).2⟩

theorem memsizeFormat_head (n : ℕ) : ∃ c cs, memsizeFormat n = c :: cs ∧ c.isDigit = true := by
  have hhead : ∀ k rest, ∃ c cs, Nat.toDigits 10 k ++ rest = c :: cs ∧ c.isDigit = true := by
    intro k rest
    cases hk : Nat.toDigits 10 k with
    | nil => exact absurd hk Nat.toDigits_ne_nil
    | cons c cs =>
      have hmem : c ∈ Nat.toDigits 10 k := by
        rw [hk]
        exact mem_cons_self
      exact ⟨c, cs ++ rest, rfl, Nat.isDigit_of_mem_toDigits (by decide) (by decide) hmem⟩
  rw [memsizeFormat]
  split
  · exact hhead _ _
  split
  · exact hhead _ _
  split
  · exact hhead _ _
  · have h := hhead n []
    rw [append_nil] at h
    exact h

section Stages

variable {text : List Char}

theorem span_at {part : List Char} {mark : Char} (h : mark ∉ part) :
    (part ++ mark :: text).span (fun c => decide (c ≠ mark)) = (part, mark :: text) := by
  have hpart : ∀ c ∈ part, decide (c ≠ mark) = true := by
    intro c hc
    rw [decide_eq_true_eq]
    rintro rfl
    exact h hc
  rw [span_eq_takeWhile_dropWhile, takeWhile_append_of_pos hpart,
    dropWhile_append_of_pos hpart, takeWhile_cons_of_neg (by simp),
    dropWhile_cons_of_neg (by simp), append_nil]

theorem parseSize_text {size : ℕ} (hmin : minPartSize ≤ size) (hsize : size < 2 ^ 64)
    (htext : EndsSize text) : parseSize (memsizeFormat size ++ text) = some (size, text) := by
  obtain ⟨c, cs, hcs, hc⟩ := memsizeFormat_head size
  have hread := memsizeParse_format hsize htext
  rw [parseSize, hread]
  · exact if_neg (not_lt.mpr hmin)
  · rintro p hp
    rw [hcs, cons_append] at hp
    rw [(List.cons.inj hp).1] at hc
    cases hc

theorem parseOffset_none (h : StartsIn ['(', 'r', ',', ';'] text) :
    parseOffset text = (offsetNotSpecified, text) := by
  rw [parseOffset]
  rintro p rfl
  exact absurd (h '@' p rfl) (by decide)

theorem parseName_user {name : List Char} (hne : name ≠ []) (hname : ')' ∉ name) :
    parseName ('(' :: name ++ [')'] ++ text) = some (some name, text) := by
  rw [append_assoc, cons_append, singleton_append, parseName, span_at hname]
  exact if_neg hne

theorem parseName_none (h : StartsIn ['r', ',', ';'] text) : parseName text = some (none, text) := by
  rw [parseName]
  rintro p rfl
  exact absurd (h '(' p rfl) (by decide)

theorem parseOptions_none (h : StartsIn [',', ';'] text) : parseOptions text = (0, text) := by
  rw [parseOptions]
  rintro p rfl
  exact absurd (h 'r' _ rfl) (by decide)

end Stages

/- A partition as the code allows it: of the least size or more, inside the device, aligned, with a
name that can be written, and with no flag but the one for reading only. -/
structure PartOk (f : Flash) (id : MtdIds) (part : PartInfo) : Prop where
  min : minPartSize ≤ part.size
  inside : part.offset + part.size ≤ id.size
  aligned : partValidateEraseblock f id part ≠ none
  named : part.autoName = false → part.name ≠ [] ∧ ')' ∉ part.name
  flags : part.maskFlags ≤ 1

/- What is read of a partition behind `prev`. -/
def written (addr : ℕ) (prev : Option PartInfo) (part : PartInfo) : PartInfo :=
  let offset := if gap prev part then part.offset else offsetNotSpecified
  ⟨addr, if part.autoName then autoNameOf part.size offset else part.name, part.autoName, part.size,
    offset, part.maskFlags, 0⟩

section Part

variable {f : Flash} {id : MtdIds} {part : PartInfo} {prev : Option PartInfo}

variable {tail : List Char}

theorem partParse_text (hid : id.size < 2 ^ 64) (hok : PartOk f id part) (addr : ℕ)
    {ret : List Char} (htail : StartsIn [',', ';'] tail)
    (hret : parseEnd part.size tail = some ret) :
    partParse addr ((partPieces prev part).flatten ++ tail) =
      some (written addr prev part, ret) := by
  have hsize := hok.inside
  -- the stages from the last to the first
  obtain ⟨ro, hro⟩ : ∃ ro, ro = (if part.maskFlags ≠ 0 then "ro".toList else []) := ⟨_, rfl⟩
  obtain ⟨nm, hnm⟩ : ∃ nm, nm = (if part.autoName then [] else '(' :: part.name ++ [')']) := ⟨_, rfl⟩
  obtain ⟨off, hoff⟩ : ∃ off, off = (if gap prev part then '@' :: memsizeFormat part.offset else []) :=
    ⟨_, rfl⟩
  have htext : (partPieces prev part).flatten ++ tail =
      memsizeFormat part.size ++ (off ++ (nm ++ (ro ++ tail))) := by
    rw [partPieces, hoff, hnm, hro]
    split <;> split <;> split <;> simp
  have hopts : parseOptions (ro ++ tail) = (part.maskFlags, tail) ∧
      StartsIn ['r', ',', ';'] (ro ++ tail) := by
    rw [hro]
    split
    · next hne =>
      have hone : part.maskFlags = 1 := by
        have h := hok.flags
        lia
      rw [hone]
      exact ⟨rfl, startsIn_cons (by decide)⟩
    · next heq =>
      rw [not_not] at heq
      rw [heq]
      exact ⟨parseOptions_none htail, htail.mono (by decide)⟩
  have hname : parseName (nm ++ (ro ++ tail)) =
        some (if part.autoName then none else some part.name, ro ++ tail) ∧
      StartsIn ['(', 'r', ',', ';'] (nm ++ (ro ++ tail)) := by
    rw [hnm]
    cases hauto : part.autoName with
    | true => exact ⟨parseName_none hopts.2, hopts.2.mono (by decide)⟩
    | false =>
      obtain ⟨hne, hmem⟩ := hok.named hauto
      exact ⟨parseName_user hne hmem, startsIn_cons (by decide)⟩
  have hoffset : parseOffset (off ++ (nm ++ (ro ++ tail))) =
        (if gap prev part then part.offset else offsetNotSpecified, nm ++ (ro ++ tail)) ∧
      StartsIn ['@', '(', 'r', ',', ';'] (off ++ (nm ++ (ro ++ tail))) := by
    rw [hoff]
    cases hgap : gap prev part with
    | true =>
      refine ⟨?_, startsIn_cons (by decide)⟩
      exact memsizeParse_format (by lia) (hname.2.mono (by decide)).endsSize
    | false => exact ⟨parseOffset_none hname.2, hname.2.mono (by decide)⟩
  have hfirst := parseSize_text hok.min (by lia) hoffset.2.endsSize
  rw [htext, partParse, hfirst]
  simp only [Option.bind_eq_bind, Option.bind_some, hoffset.1, hname.1, hopts.1, hret]
  rw [written]
  cases part.autoName with
  | true => rfl
  | false => rfl

/- What is compared of a partition: the name only when the user gave it. -/
def view (part : PartInfo) : ℕ × ℕ × Option (List Char) × ℕ :=
  (part.offset, part.size, if part.autoName then none else some part.name, part.maskFlags)

theorem partValidateEraseblock_congr {part' : PartInfo} (hoffset : part'.offset = part.offset)
    (hsize : part'.size = part.size) (h : partValidateEraseblock f id part ≠ none) :
    partValidateEraseblock f id part' ≠ none := by
  rw [partValidateEraseblock] at h ⊢
  cases hm : f.getMtdDeviceNm id.type id.num with
  | none =>
    rw [hm] at h
    exact absurd rfl h
  | some mtd =>
    simp only [hm] at h ⊢
    cases hr : mtd.eraseregions.getLast? with
    | none =>
      simp only [hr, hoffset, hsize] at h ⊢
      split at h
      · exact absurd rfl h
      next hstart =>
      split at h
      · exact absurd rfl h
      next hend =>
      rw [if_neg hstart, if_neg hend]
      exact Option.some_ne_none _
    | some last =>
      simp only [hr, hoffset, hsize] at h ⊢
      split at h
      · exact absurd rfl h
      next hstart =>
      split at h
      · next hend =>
        rw [if_neg hstart, if_pos hend]
        exact Option.some_ne_none _
      · exact absurd rfl h

theorem withRemaining_inside {part : PartInfo} (hid : id.size < 2 ^ 64)
    (h : part.offset + part.size ≤ id.size) : withRemaining id part = part := by
  rw [withRemaining]
  split
  · next hsize =>
    -- all of the device
    have hzero : part.offset = 0 ∧ id.size = 2 ^ 64 - 1 := by
      rw [hsize, sizeRemaining] at h
      lia
    have hsame : u64 (id.size + 2 ^ 64 - part.offset) = part.size := by
      rw [hsize, sizeRemaining, hzero.1, hzero.2, u64]
      decide
    rw [hsame]
  · rfl

theorem partValidate_view {part' : PartInfo} (hid : id.size < 2 ^ 64) (hok : PartOk f id part)
    (hview : view part' = view part) :
    ∃ n, partValidate f id part' = some { part' with sectorSize := n } := by
  have hoffset : part'.offset = part.offset := congrArg (·.1) hview
  have hsize : part'.size = part.size := congrArg (·.2.1) hview
  have hin : part'.offset + part'.size ≤ id.size := by
    rw [hoffset, hsize]
    exact hok.inside
  have hmin : 4096 ≤ part'.size := by
    rw [hsize]
    exact hok.min
  have hsum : u64 (part'.offset + part'.size) = part'.offset + part'.size :=
    Nat.mod_eq_of_lt (lt_of_le_of_lt hin hid)
  have haligned := partValidateEraseblock_congr hoffset hsize hok.aligned
  obtain ⟨p, hp⟩ := Option.ne_none_iff_exists'.mp haligned
  obtain ⟨n, hn⟩ := partValidateEraseblock_eq hp
  refine ⟨n, ?_⟩
  rw [partValidate, withRemaining_inside hid hin, hsum, if_neg (by lia), if_neg (by lia), if_neg (by lia), hp, hn]

/- The offset that is not written is the one behind the last partition. -/
def expected : Option PartInfo → ℕ
  | none => 0
  | some prev => u64 (prev.offset + prev.size)

def placed (addr : ℕ) (prev : Option PartInfo) (part : PartInfo) : PartInfo :=
  if (written addr prev part).offset = offsetNotSpecified
  then { written addr prev part with offset := expected prev }
  else written addr prev part

variable (prev) in
theorem view_placed (hid : id.size < 2 ^ 64) (hok : PartOk f id part) (addr : ℕ) :
    view (placed addr prev part) = view part := by
  rw [placed]
  have hin := hok.inside
  have hmin : 4096 ≤ part.size := hok.min
  cases hgap : gap prev part with
  | true =>
    have hoff : (written addr prev part).offset = part.offset := by
      rw [written]
      exact if_pos hgap
    have hne : part.offset ≠ offsetNotSpecified := by
      rw [offsetNotSpecified]
      lia
    rw [hoff, if_neg hne]
    cases hauto : part.autoName <;> simp [view, written, hauto, hgap]
  | false =>
    have hoff : (written addr prev part).offset = offsetNotSpecified := by
      rw [written]
      exact if_neg (by rw [hgap]; decide)
    have hexp : expected prev = part.offset := by
      cases prev with
      | none =>
        rw [gap, decide_eq_false_iff_not, not_not] at hgap
        exact hgap.symm
      | some q =>
        rw [gap, decide_eq_false_iff_not, not_not] at hgap
        exact hgap
    rw [hoff, if_pos rfl, hexp]
    cases hauto : part.autoName <;> simp [view, written, hauto]

theorem parseEnd_tail {size : ℕ} (h : StartsIn [';'] tail) : parseEnd size tail = some tail := by
  cases tail with
  | nil => rfl
  | cons c p =>
    have hc := mem_singleton.mp (h c p rfl)
    subst hc
    rfl

theorem tail_ends (h : StartsIn [';'] tail) : tail = [] ∨ tail.head? = some ';' := by
  cases tail with
  | nil => exact .inl rfl
  | cons c p =>
    rw [mem_singleton.mp (h c p rfl)]
    exact .inr rfl

variable (prev) in
theorem partsPieces_head (numParts cnt : ℕ) (part : PartInfo) (parts : List PartInfo)
    (tail : List Char) : ∃ c cs, c.isDigit = true ∧
      (partsPieces numParts cnt prev (part :: parts)).flatten ++ tail = c :: cs := by
  obtain ⟨c, cs, hcs, hc⟩ := memsizeFormat_head part.size
  obtain ⟨rest, hrest⟩ : ∃ rest, (partsPieces numParts cnt prev (part :: parts)).flatten ++ tail =
      memsizeFormat part.size ++ rest := by
    simp only [partsPieces, partPieces, append_assoc, flatten_append, flatten_cons,
      flatten_nil, nil_append]
    exact ⟨_, rfl⟩
  exact ⟨c, cs ++ rest, hc, by rw [hrest, hcs, cons_append]⟩

variable (prev) in
theorem parseParts_turn (hid : id.size < 2 ^ 64) (hok : PartOk f id part) (addr fuel : ℕ)
    {ret : List Char} (htail : StartsIn [',', ';'] tail)
    (hret : parseEnd part.size tail = some ret) :
    ∃ part', view part' = view part ∧
      parseParts f id (fuel + 1) addr (expected prev) ((partPieces prev part).flatten ++ tail) =
        if ret = [] ∨ ret.head? = some ';' then some ([part'], ret)
        else
          match parseParts f id fuel (addr + 1) (expected (some part)) ret with
          | none => none
          | some (parts, rest) => some (part' :: parts, rest) := by
  have hview := view_placed prev hid hok addr
  obtain ⟨n, hvalid⟩ := partValidate_view hid hok hview
  have hnext : u64 ((placed addr prev part).offset + (placed addr prev part).size) =
      expected (some part) := by
    rw [expected, show (placed addr prev part).offset = part.offset from congrArg (·.1) hview,
      show (placed addr prev part).size = part.size from congrArg (·.2.1) hview]
  refine ⟨{ placed addr prev part with sectorSize := n }, hview, ?_⟩
  rw [parseParts, partParse_text hid hok addr htail hret]
  show (match partValidate f id (placed addr prev part) with
    | none => none
    | some q =>
      if ret = [] ∨ ret.head? = some ';' then some ([q], ret)
      else
        match parseParts f id fuel (addr + 1) (u64 (q.offset + q.size)) ret with
        | none => none
        | some (parts, rest) => some (q :: parts, rest)) = _
  rw [hvalid]
  dsimp only
  rw [hnext]

theorem parseParts_text (hid : id.size < 2 ^ 64) {numParts : ℕ}
    (htail : StartsIn [';'] tail) (parts : List PartInfo) :
    ∀ (cnt addr fuel : ℕ) (prev : Option PartInfo), parts ≠ [] → (∀ p ∈ parts, PartOk f id p) →
      (∀ p ∈ parts.dropLast, p.size ≠ sizeRemaining) → numParts + 1 = cnt + parts.length →
      parts.length ≤ fuel →
      ∃ parsed, parseParts f id fuel addr (expected prev)
          ((partsPieces numParts cnt prev parts).flatten ++ tail) = some (parsed, tail) ∧
        parsed.map view = parts.map view := by
  induction parts with
  | nil => exact fun _ _ _ _ hne => absurd rfl hne
  | cons part parts ih =>
    intro cnt addr fuel prev _ hok hfill hcnt hfuel
    have hpart := hok part mem_cons_self
    rw [length_cons] at hcnt hfuel
    obtain _ | fuel := fuel
    · lia
    cases parts with
    | nil =>
      -- the last one: no comma
      obtain ⟨part', hview, hrun⟩ := parseParts_turn prev hid hpart addr fuel
        (htail.mono (by decide)) (parseEnd_tail htail)
      rw [if_pos (tail_ends htail)] at hrun
      rw [length_nil] at hcnt
      refine ⟨[part'], ?_, by rw [map_singleton, map_singleton, hview]⟩
      rw [partsPieces, partsPieces, if_neg (by lia), append_nil, append_nil]
      exact hrun
    | cons part₁ parts =>
      rw [length_cons] at hcnt hfuel
      obtain ⟨parsed, hrest, hviews⟩ := ih (cnt + 1) (addr + 1) fuel (some part) (cons_ne_nil _ _)
        (fun p hp => hok p (mem_cons_of_mem _ hp))
        (fun p hp => hfill p (mem_cons_of_mem _ hp)) (by rw [length_cons]; lia)
        (by rw [length_cons]; lia)
      obtain ⟨c, cs, hc, hcs⟩ := partsPieces_head (some part) numParts (cnt + 1) part₁ parts tail
      have hcomma : parseEnd part.size (',' :: c :: cs) = some (c :: cs) :=
        if_neg (hfill part mem_cons_self)
      obtain ⟨part', hview, hrun⟩ := parseParts_turn prev hid hpart addr fuel
        (startsIn_cons (by decide)) hcomma
      have hgo : ¬ (c :: cs = [] ∨ (c :: cs).head? = some ';') := by
        rintro (h | h)
        · cases h
        · rw [head?_cons, Option.some.injEq] at h
          subst h
          cases hc
      rw [if_neg hgo, ← hcs, hrest] at hrun
      refine ⟨part' :: parsed, ?_, by rw [map_cons, map_cons, hview, hviews]⟩
      rw [partsPieces, if_pos (by lia), flatten_append, flatten_append,
        append_assoc, append_assoc]
      exact hrun

end Part

end UBoot.Mtd
