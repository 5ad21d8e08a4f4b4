import UBoot.Lib.Memory

/-!
# Answers of a name server (net/dns.c)

`dns_handler` on the bytes of memory at the packet, with the offsets that it reads.
-/

namespace UBoot.Dns

open Memory List Option

def aRecord : ℕ := 1

def cnameRecord : ℕ := 5

/- `get_unaligned_be16` and `ntohs`. -/
def be16 (mem : Mem) (i : ℕ) : ℕ := (mem i).toNat * 2 ^ 8 + (mem (i + 1)).toNat

def skip (mem : Mem) : ℕ → ℕ → ℕ
  | 0, p => p
  | n + 1, p => if mem p = 0 then p else skip mem n (p + 1)

/- Skip possible name: the offsets read, and `p` behind it, two bytes in front of the type. -/
def skipName (mem : Mem) (e p : ℕ) : List ℕ × ℕ :=
  if mem p = 0xc0 then ([p], p)
  else
    let q := skip mem (e - 12 - p) p
    (List.range' p (q + 1 - p), q - 1)

/- Loop through the answers: the offsets read, and `p` when an A record is found. -/
def answers (mem : Mem) (e : ℕ) : ℕ → ℕ → Option (List ℕ × Option ℕ)
  | 0, _ => none
  | n + 1, p =>
    if p + 12 < e then
      let (reads, p) := skipName mem e p
      let reads := reads ++ [p + 2, p + 3]
      if be16 mem (p + 2) = cnameRecord then
        (answers mem e n (p + 12 + be16 mem (p + 10))).map fun (more, found) =>
          (reads ++ [p + 10, p + 11] ++ more, found)
      else some (reads, if be16 mem (p + 2) = aRecord then some p else none)
    else some ([], none)

inductive Outcome where
  | ignored
  | hostNotFound
  | notARecord
  | noAddress
  | invalidIp
  -- the address at an offset
  | stored (p : ℕ)
  deriving DecidableEq

def address (mem : Mem) (len : ℕ) (reads : List ℕ) : List ℕ × Option ℕ → List ℕ × Outcome
  | (more, none) => (reads ++ more, .noAddress)
  | (more, some p) =>
    if p + 12 < len then
      (reads ++ more ++ [p + 10, p + 11, p + 12, p + 13, p + 14, p + 15],
        if p + 12 + be16 mem (p + 10) ≤ len then .stored (p + 12) else .invalidIp)
    else (reads ++ more, .noAddress)

def dnsHandler (mem : Mem) (dest ourPort len : ℕ) : Option (List ℕ × Outcome) :=
  if dest ≠ ourPort then some ([], .ignored)
  else if be16 mem 4 ≠ 1 then some ([4, 5], .ignored)
  else if be16 mem 6 = 0 then some ([4, 5, 6, 7], .hostNotFound)
  else
    let p := skip mem (len - 12) 12
    let reads := [4, 5, 6, 7] ++ List.range' 12 (min (p + 1) len - 12)
    if len < p + 5 then some (reads, .notARecord)
    else
      let reads := reads ++ [p + 1, p + 2]
      if be16 mem (p + 1) ≠ aRecord then some (reads, .notARecord)
      else
        (answers mem len len (p + 5)).map (address mem len reads)

def ipToString (ip : List UInt8) : String := ".".intercalate (ip.map fun b => toString b.toNat)

/- The environment behind it, with `net_dns_env_var`. -/
def Outcome.environment (mem : Mem) (netDnsEnvVar : Option String) (env : String → Option String) :
    Outcome → String → Option String
  | .stored p =>
    match netDnsEnvVar with
    | none => env
    | some var => Function.update env var (some (ipToString (bytes mem p 4)))
  | _ => env

section Reads

variable {mem : Mem} {e : ℕ}

theorem skip_bounds (mem : Mem) (n p : ℕ) : p ≤ skip mem n p ∧ skip mem n p ≤ p + n := by
  induction n generalizing p with
  | zero => exact ⟨Nat.le_refl p, Nat.le_refl p⟩
  | succ n ih =>
    rw [skip]
    split
    · lia
    · have hrest := ih (p + 1)
      lia

theorem skipName_bounds {p : ℕ} (h : p + 12 < e) :
    p ≤ (skipName mem e p).2 + 1 ∧ (skipName mem e p).2 + 12 < e ∧ ∀ i ∈ (skipName mem e p).1, i < e := by
  rw [skipName]
  split
  · exact ⟨Nat.le_succ p, h, fun i hi => by rw [mem_singleton] at hi; lia⟩
  · obtain ⟨hlow, hhigh⟩ := skip_bounds mem (e - 12 - p) p
    refine ⟨by dsimp only; lia, by dsimp only; lia, fun i hi => ?_⟩
    rw [mem_range'_1] at hi
    lia

inductive Reaches (mem : Mem) (e : ℕ) : ℕ → ℕ → Prop
  | here (p : ℕ) : Reaches mem e p p
  | next {p q r : ℕ} : p + 12 < e → (skipName mem e p).2 = q → be16 mem (q + 2) = cnameRecord →
    Reaches mem e (q + 12 + be16 mem (q + 10)) r → Reaches mem e p r

def LeadsTo (mem : Mem) (e p q : ℕ) : Prop :=
  ∃ r, Reaches mem e p r ∧ r + 12 < e ∧ (skipName mem e r).2 = q ∧ be16 mem (q + 2) = aRecord

theorem leadsTo_next {p q r : ℕ} (hp : p + 12 < e) (hq : (skipName mem e p).2 = q)
    (htype : be16 mem (q + 2) = cnameRecord) :
    LeadsTo mem e p r ↔ LeadsTo mem e (q + 12 + be16 mem (q + 10)) r := by
  constructor
  · intro h
    obtain ⟨p', hreach, hp', hr, hA⟩ := h
    cases hreach with
    | here =>
      rw [← hr, hq, htype] at hA
      cases hA
    | next _ hq' _ hrest =>
      rw [← hq', hq] at hrest
      exact ⟨p', hrest, hp', hr, hA⟩
  · intro h
    obtain ⟨p', hreach, hend⟩ := h
    exact ⟨p', .next hp hq htype hreach, hend⟩

theorem leadsTo_here {p q r : ℕ} (hq : (skipName mem e p).2 = q)
    (htype : be16 mem (q + 2) ≠ cnameRecord) :
    LeadsTo mem e p r ↔ p + 12 < e ∧ q = r ∧ be16 mem (q + 2) = aRecord := by
  constructor
  · intro h
    obtain ⟨p', hreach, hp', hr, hA⟩ := h
    cases hreach with
    | here =>
      rw [hq] at hr
      exact ⟨hp', hr, hr ▸ hA⟩
    | next _ hq' htype' _ => exact absurd (hq ▸ hq' ▸ htype') htype
  · intro h
    exact ⟨p, .here p, h.1, hq.trans h.2.1, h.2.1 ▸ h.2.2⟩

theorem answers_spec {n p : ℕ} (hpos : 0 < n) (hn : e < p + n) : ∃ reads found,
    answers mem e n p = some (reads, found) ∧ (∀ i ∈ reads, i < e) ∧
      ∀ q, found = some q ↔ LeadsTo mem e p q := by
  induction n generalizing p with
  | zero => cases hpos
  | succ n ih =>
    rw [answers]
    by_cases hp : p + 12 < e
    · obtain ⟨hlow, hroom, hin⟩ := @skipName_bounds mem _ _ hp
      rw [if_pos hp]
      cases hskip : skipName mem e p with
      | mk reads q =>
        rw [hskip] at hlow hroom hin
        have hq : (skipName mem e p).2 = q := congrArg Prod.snd hskip
        dsimp only at hlow hroom hin ⊢
        by_cases htype : be16 mem (q + 2) = cnameRecord
        · obtain ⟨more, found, hrest, hmore, hfound⟩ :=
            ih (p := q + 12 + be16 mem (q + 10)) (by lia) (by lia)
          rw [if_pos htype, hrest]
          refine ⟨_, found, rfl, fun i hi => ?_, fun r => ?_⟩
          · simp only [mem_append, mem_cons, not_mem_nil, or_false] at hi
            obtain ((h | h | h) | h | h) | h := hi
            · exact hin i h
            · lia
            · lia
            · lia
            · lia
            · exact hmore i h
          · rw [hfound, leadsTo_next hp hq htype]
        · rw [if_neg htype]
          refine ⟨_, _, rfl, fun i hi => ?_, fun r => ?_⟩
          · simp only [mem_append, mem_cons, not_mem_nil, or_false] at hi
            obtain h | h | h := hi
            · exact hin i h
            · lia
            · lia
          · rw [leadsTo_here hq htype]
            split
            next hA => simp only [some.injEq, hp, hA, true_and, and_true]
            next hA => simp only [reduceCtorEq, hA, and_false]
    · rw [if_neg hp]
      refine ⟨[], none, rfl, fun i hi => (by cases hi), fun r => ?_⟩
      simp only [reduceCtorEq, false_iff]
      intro h
      obtain ⟨p', hreach, hp', -⟩ := h
      cases hreach with
      | here => exact hp hp'
      | next hp'' => exact hp hp''

/- The condition on a packet: the header is there, and four bytes behind the A record. -/
def InPacket (mem : Mem) (dest ourPort len : ℕ) : Prop :=
  dest ≠ ourPort ∨ 6 ≤ len ∧ (be16 mem 4 ≠ 1 ∨ 8 ≤ len ∧ (be16 mem 6 = 0 ∨
    be16 mem (skip mem (len - 12) 12 + 1) ≠ aRecord ∨
      ∀ q, LeadsTo mem len (skip mem (len - 12) 12 + 5) q → q + 16 ≤ len))

theorem dnsHandler_reads (dest ourPort len : ℕ) : ∃ reads out,
    dnsHandler mem dest ourPort len = some (reads, out) ∧
      (((∀ i ∈ reads, i < len) ∧ ∀ p, out = .stored p → p + 4 ≤ len) ↔
        InPacket mem dest ourPort len) := by
  rw [dnsHandler, InPacket]
  by_cases hport : dest ≠ ourPort
  · rw [if_pos hport]
    exact ⟨_, _, rfl, by simp [hport]⟩
  rw [if_neg hport, or_iff_right hport]
  by_cases hqueries : be16 mem 4 ≠ 1
  · rw [if_pos hqueries]
    refine ⟨_, _, rfl, ?_⟩
    simp only [mem_cons, not_mem_nil, or_false, forall_eq_or_imp, forall_eq, reduceCtorEq,
      false_imp_iff, implies_true, and_true, ne_eq, hqueries, not_false_eq_true, true_or]
    lia
  rw [if_neg hqueries, or_iff_right hqueries]
  by_cases hanswers : be16 mem 6 = 0
  · rw [if_pos hanswers]
    refine ⟨_, _, rfl, ?_⟩
    simp only [mem_cons, not_mem_nil, or_false, forall_eq_or_imp, forall_eq, reduceCtorEq,
      false_imp_iff, implies_true, and_true, hanswers, true_or]
    lia
  rw [if_neg hanswers, or_iff_right hanswers]
  obtain ⟨hlow, hhigh⟩ := skip_bounds mem (len - 12) 12
  dsimp only
  generalize skip mem (len - 12) 12 = p at hlow hhigh ⊢
  have hname : ∀ i ∈ [4, 5, 6, 7] ++ List.range' 12 (min (p + 1) len - 12), 8 ≤ len → i < len := by
    intro i hi hlen
    simp only [mem_append, mem_cons, not_mem_nil, or_false, mem_range'_1] at hi
    lia
  generalize hreads : [4, 5, 6, 7] ++ List.range' 12 (min (p + 1) len - 12) = reads at hname ⊢
  have hseven : 7 ∈ reads := hreads ▸ by simp
  by_cases hshort : len < p + 5
  · rw [if_pos hshort]
    refine ⟨_, _, rfl, fun h => ?_, fun h => ⟨fun i hi => hname i hi h.2.1, by simp⟩⟩
    have hlen := h.1 7 hseven
    refine ⟨by lia, by lia, .inr fun q hq => ?_⟩
    obtain ⟨r, hreach, hr, -⟩ := hq
    cases hreach with
    | here => lia
    | next hp => lia
  rw [if_neg hshort]
  by_cases htype : be16 mem (p + 1) ≠ aRecord
  · rw [if_pos htype]
    refine ⟨_, _, rfl, fun h => ?_, fun h => ⟨fun i hi => ?_, by simp⟩⟩
    · have hlen := h.1 7 (mem_append_left _ hseven)
      exact ⟨by lia, by lia, .inl htype⟩
    · simp only [mem_append, mem_cons, not_mem_nil, or_false] at hi
      obtain hi | hi | hi := hi
      · exact hname i hi h.2.1
      · lia
      · lia
  rw [if_neg htype, or_iff_right htype]
  obtain ⟨more, found, hloop, hmore, hfound⟩ :=
    @answers_spec mem len len (p + 5) (by lia) (by lia)
  rw [hloop, map_some]
  have hall : ∀ i ∈ reads ++ [p + 1, p + 2] ++ more, 8 ≤ len → i < len := by
    intro i hi hlen
    simp only [mem_append, mem_cons, not_mem_nil, or_false] at hi
    obtain (hi | hi | hi) | hi := hi
    · exact hname i hi hlen
    · lia
    · lia
    · exact hmore i hi
  have hseven' : 7 ∈ reads ++ [p + 1, p + 2] ++ more := mem_append_left _ (mem_append_left _ hseven)
  cases found with
  | none =>
    rw [address]
    generalize reads ++ [p + 1, p + 2] ++ more = reads' at hall hseven' ⊢
    refine ⟨_, _, rfl, fun h => ?_, fun h => ⟨fun i hi => hall i hi h.2.1, by simp⟩⟩
    have hlen := h.1 7 hseven'
    refine ⟨by lia, by lia, fun q hq => ?_⟩
    cases (hfound q).mpr hq
  | some q =>
    have hq := (hfound q).mp rfl
    have honly : ∀ r, LeadsTo mem len (p + 5) r → r = q := by
      intro r hr
      exact some.inj ((hfound r).mpr hr).symm
    have hroom : q + 12 < len := by
      obtain ⟨r, -, hr, hend, -⟩ := hq
      exact hend ▸ (skipName_bounds hr).2.1
    rw [address, if_pos hroom]
    generalize reads ++ [p + 1, p + 2] ++ more = reads' at hall hseven' ⊢
    refine ⟨_, _, rfl, fun h => ?_, fun h => ?_⟩
    · have hlen := h.1 7 (mem_append_left _ hseven')
      have hlast := h.1 (q + 15) (mem_append_right _ (by simp))
      refine ⟨by lia, by lia, fun r hr => ?_⟩
      rw [honly r hr]
      lia
    · have hlast := h.2.2 q hq
      refine ⟨fun i hi => ?_, fun a ha => ?_⟩
      · simp only [mem_append, mem_cons, not_mem_nil, or_false] at hi
        obtain hi | hi := hi
        · exact hall i hi h.2.1
        · lia
      · split at ha
        · cases ha
          lia
        · cases ha

end Reads

def two (n : ℕ) : List UInt8 := [UInt8.ofNat (n / 2 ^ 8), UInt8.ofNat n]

structure Name where
  labels : List (List UInt8)
  rest : Option ℕ
  hlabels : ∀ l ∈ labels, 0 < l.length ∧ l.length < 2 ^ 6
  hrest : ∀ offset ∈ rest, offset < 2 ^ 14

def Name.front (n : Name) : List UInt8 := n.labels.flatMap fun l => UInt8.ofNat l.length :: l

def Name.bytes (n : Name) : List UInt8 :=
  n.front ++ match n.rest with
    | none => [0]
    | some offset => two (0xc000 + offset)

structure Record where
  name : Name
  ttl : ℕ
  data : List UInt8
  hdata : data.length < 2 ^ 16

def Record.bytes (type : ℕ) (r : Record) : List UInt8 :=
  r.name.bytes ++ (two type ++ (two 1 ++ (two (r.ttl / 2 ^ 16) ++ (two r.ttl ++
    (two r.data.length ++ r.data)))))

/- One question of type A, CNAME records and an A record, and whatever comes behind it. -/
structure Response where
  tid : ℕ
  flags : ℕ
  nanswers : ℕ
  nauth : ℕ
  nother : ℕ
  question : Name
  cnames : List Record
  a : Record
  others : List UInt8
  hnanswers : 0 < nanswers ∧ nanswers < 2 ^ 16
  ha : a.data.length = 4

def Response.bytes (r : Response) : List UInt8 :=
  two r.tid ++ (two r.flags ++ (two 1 ++ (two r.nanswers ++ (two r.nauth ++ (two r.nother ++
    (r.question.bytes ++ (two aRecord ++ (two 1 ++ (r.cnames.flatMap (Record.bytes cnameRecord) ++
      (r.a.bytes aRecord ++ r.others))))))))))

/- What the loop takes a name for: a pointer below 256, or bytes up to a zero. -/
def Name.Read (n : Name) : Prop :=
  n.bytes.head? = some 0xc0 ∨ ∃ front, n.bytes = front ++ [0] ∧ 0 ∉ front

section Responses

variable {mem : Mem}

def Lies (mem : Mem) (p : ℕ) (bs : List UInt8) : Prop := bytes mem p bs.length = bs

variable {p : ℕ}

theorem lies_append {xs ys : List UInt8} :
    Lies mem p (xs ++ ys) ↔ Lies mem p xs ∧ Lies mem (p + xs.length) ys := by
  rw [Lies, length_append]
  constructor
  · exact fun h => bytes_append_inj mem p xs.length ys.length h rfl
  · intro h
    rw [bytes_add, h.1, h.2]

theorem lies_cons {b : UInt8} {bs : List UInt8} :
    Lies mem p (b :: bs) ↔ mem p = b ∧ Lies mem (p + 1) bs := by
  rw [Lies, length_cons, bytes_succ, List.cons.injEq, Lies]

theorem be16_two {n : ℕ} (h : Lies mem p (two n)) (hn : n < 2 ^ 16) : be16 mem p = n := by
  rw [two, lies_cons, lies_cons] at h
  rw [be16, h.1, h.2.1, UInt8.toNat_ofNat', UInt8.toNat_ofNat']
  lia

theorem skip_front {n : ℕ} {front : List UInt8} (h : Lies mem p (front ++ [0]))
    (hfront : 0 ∉ front) (hn : front.length ≤ n) : skip mem n p = p + front.length := by
  induction front generalizing n p with
  | nil =>
    have hz : mem p = 0 := (lies_cons.mp h).1
    cases n with
    | zero => rfl
    | succ n => rw [skip, if_pos hz, length_nil, Nat.add_zero]
  | cons c front ih =>
    rw [cons_append, lies_cons] at h
    rw [mem_cons, not_or] at hfront
    rw [length_cons] at hn ⊢
    cases n with
    | zero => lia
    | succ n =>
      rw [skip, if_neg (h.1 ▸ Ne.symm hfront.1), ih h.2 hfront.2 (by lia)]
      lia

theorem Name.length_pos (n : Name) : 0 < n.bytes.length := by
  rw [Name.bytes, length_append]
  cases n.rest with
  | none => exact Nat.succ_pos _
  | some offset => exact Nat.succ_pos _

variable {n : Name}

theorem Name.head_pointer (h : n.bytes.head? = some 0xc0) : n.bytes.length = 2 ∧ n.rest ≠ none := by
  obtain ⟨labels, rest, hlabels, hrest⟩ := n
  cases labels with
  | nil =>
    cases rest with
    | none => cases h
    | some offset => exact ⟨rfl, fun hnone => by cases hnone⟩
  | cons l labels =>
    have hl := hlabels l mem_cons_self
    have hhead : UInt8.ofNat l.length = 0xc0 := some.inj h
    have hnat := congrArg UInt8.toNat hhead
    rw [UInt8.toNat_ofNat', Nat.mod_eq_of_lt (by lia)] at hnat
    lia

theorem ofNat_ne_zero {n : ℕ} (h : 0 < n ∧ n < 2 ^ 8) : (0 : UInt8) ≠ UInt8.ofNat n := by
  intro hz
  have hnat := congrArg UInt8.toNat hz
  rw [UInt8.toNat_ofNat', Nat.mod_eq_of_lt h.2] at hnat
  exact h.1.ne hnat

theorem Name.zeros (h : ∀ l ∈ n.labels, 0 ∉ l) (hread : ¬n.Read) : 0 ∉ n.bytes := by
  have hfront : 0 ∉ n.front := by
    rw [Name.front, mem_flatMap]
    intro hz
    obtain ⟨l, hl, hz⟩ := hz
    have hlen := n.hlabels l hl
    obtain hz | hz := mem_cons.mp hz
    · exact ofNat_ne_zero ⟨hlen.1, by lia⟩ hz
    · exact h l hl hz
  rw [Name.Read, not_or, Name.bytes] at hread
  rw [Name.bytes]
  cases hrest : n.rest with
  | none =>
    rw [hrest] at hread
    exact absurd ⟨_, rfl, hfront⟩ hread.2
  | some offset =>
    rw [hrest] at hread
    have hoffset := n.hrest offset hrest
    have hhigh : 0 ∉ n.front ++ [UInt8.ofNat ((0xc000 + offset) / 2 ^ 8)] := by
      rw [mem_append, mem_singleton]
      exact not_or.mpr ⟨hfront, ofNat_ne_zero (by lia)⟩
    have hsplit : n.front ++ two (0xc000 + offset) =
        n.front ++ [UInt8.ofNat ((0xc000 + offset) / 2 ^ 8)] ++ [UInt8.ofNat (0xc000 + offset)] := by
      rw [two, append_assoc]
      rfl
    dsimp only at hread ⊢
    rw [hsplit] at hread ⊢
    rw [mem_append, mem_singleton]
    refine not_or.mpr ⟨hhigh, fun hlow => hread.2 ⟨_, ?_, hhigh⟩⟩
    rw [← hlow]

theorem Name.bytes_head (n : Name) : ∃ c bs, n.bytes = c :: bs :=
  exists_cons_of_length_pos n.length_pos

variable {e : ℕ}

theorem skipName_read (hpos : 0 < p) (hmem : Lies mem p n.bytes) (h : n.Read)
    (hroom : p + n.bytes.length + 11 ≤ e) : (skipName mem e p).2 + 2 = p + n.bytes.length := by
  obtain ⟨c, bs, hbs⟩ := n.bytes_head
  have hp : mem p = c := (lies_cons.mp (hbs ▸ hmem)).1
  rw [skipName]
  by_cases hc : c = 0xc0
  · have hlen := Name.head_pointer (n := n) (by rw [hbs, hc]; rfl)
    rw [if_pos (hp.trans hc), hlen.1]
  · rw [if_neg (hp ▸ hc)]
    cases h with
    | inl h =>
      rw [hbs] at h
      exact absurd (some.inj h) hc
    | inr h =>
      obtain ⟨front, hfront, hzero⟩ := h
      rw [hfront] at hmem hroom ⊢
      rw [length_append, length_singleton] at hroom ⊢
      have hskip := skip_front (n := e - 12 - p) hmem hzero (by lia)
      dsimp only
      lia

theorem skipName_unread (hmem : Lies mem p (n.bytes ++ [0]))
    (h : ∀ l ∈ n.labels, 0 ∉ l) (hread : ¬n.Read) (hroom : p + n.bytes.length + 12 ≤ e) :
    (skipName mem e p).2 + 1 = p + n.bytes.length := by
  obtain ⟨c, bs, hbs⟩ := n.bytes_head
  have hp : mem p = c := (lies_cons.mp (hbs ▸ hmem)).1
  have hc : c ≠ 0xc0 := fun hc => hread (.inl (by rw [hbs, hc]; rfl))
  rw [skipName, if_neg (hp ▸ hc)]
  have hskip := skip_front (n := e - 12 - p) hmem (Name.zeros h hread) (by lia)
  have hpos := n.length_pos
  dsimp only
  lia

theorem record_read {type : ℕ} {r : Record} {tail : List UInt8} (hpos : 0 < p)
    (hmem : Lies mem p (r.bytes type ++ tail)) (h : r.name.Read) (htype : type < 2 ^ 16)
    (hroom : p + r.name.bytes.length + 11 ≤ e) : ∃ reads q, skipName mem e p = (reads, q) ∧
      be16 mem (q + 2) = type ∧ be16 mem (q + 10) = r.data.length ∧ Lies mem (q + 12) r.data ∧
      Lies mem (q + 12 + r.data.length) tail ∧ q + 12 + r.data.length = p + (r.bytes type).length := by
  obtain ⟨hrec, htail⟩ := lies_append.mp hmem
  rw [Record.bytes, lies_append, lies_append, lies_append, lies_append, lies_append, lies_append]
    at hrec
  obtain ⟨hname, htyp, -, -, -, hlen, hdata⟩ := hrec
  have hq := skipName_read hpos hname h hroom
  rw [← hq] at htyp hlen hdata
  have htotal : (r.bytes type).length = r.name.bytes.length + 10 + r.data.length := by
    simp only [Record.bytes, length_append, two, length_cons, length_nil]
    lia
  have hend : (skipName mem e p).2 + 12 + r.data.length = p + (r.bytes type).length := by lia
  exact ⟨_, _, rfl, be16_two htyp htype, be16_two hlen r.hdata, hdata, hend ▸ htail, hend⟩

theorem record_unread {type : ℕ} {r : Record} {tail : List UInt8}
    (hmem : Lies mem p (r.bytes type ++ tail)) (h : ∀ l ∈ r.name.labels, 0 ∉ l)
    (hread : ¬r.name.Read) (htype : 0 < type ∧ type < 2 ^ 8)
    (hroom : p + r.name.bytes.length + 12 ≤ e) : ∃ reads q, skipName mem e p = (reads, q) ∧
      be16 mem (q + 2) = type * 2 ^ 8 := by
  obtain ⟨hrec, -⟩ := lies_append.mp hmem
  rw [Record.bytes, lies_append, lies_append, lies_append] at hrec
  obtain ⟨hname, htyp, hclass, -⟩ := hrec
  rw [two, lies_cons, lies_cons] at htyp
  have hzero : mem (p + r.name.bytes.length) = 0 := by
    rw [htyp.1, Nat.div_eq_of_lt htype.2]
    rfl
  have hhigh : mem (p + r.name.bytes.length + 1 + 1) = 0 := (lies_cons.mp hclass).1
  have hq := skipName_unread (lies_append.mpr ⟨hname, lies_cons.mpr ⟨hzero, rfl⟩⟩) h hread hroom
  refine ⟨(skipName mem e p).1, (skipName mem e p).2, rfl, ?_⟩
  rw [show (skipName mem e p).2 + 2 = p + r.name.bytes.length + 1 by lia, be16, htyp.2.1,
    hhigh, UInt8.toNat_ofNat', Nat.mod_eq_of_lt htype.2]
  exact Nat.add_zero _

theorem answers_records {n : ℕ} {cnames : List Record} {a : Record} {others : List UInt8}
    (hpos : 0 < p) (ha : a.data.length = 4) (hn : cnames.length < n)
    (hmem : Lies mem p (cnames.flatMap (Record.bytes cnameRecord) ++ (a.bytes aRecord ++ others)))
    (he : e = p + (cnames.flatMap (Record.bytes cnameRecord) ++
      (a.bytes aRecord ++ others)).length) :
    ((∀ r ∈ cnames ++ [a], r.name.Read) → ∃ reads q, answers mem e n p = some (reads, some q) ∧
      be16 mem (q + 10) = 4 ∧ q + 16 ≤ e ∧ Lies mem (q + 12) a.data) ∧
    ((∀ r ∈ cnames ++ [a], ∀ l ∈ r.name.labels, 0 ∉ l) → ¬(∀ r ∈ cnames ++ [a], r.name.Read) →
      ∃ reads, answers mem e n p = some (reads, none)) := by
  have hlen : ∀ (type : ℕ) (r : Record),
      (r.bytes type).length = r.name.bytes.length + 10 + r.data.length := by
    intro type r
    simp only [Record.bytes, length_append, two, length_cons, length_nil]
    lia
  induction cnames generalizing n p with
  | nil =>
    rw [flatMap_nil, nil_append] at hmem he
    rw [length_append, hlen, ha] at he
    have hname := a.name.length_pos
    cases n with
    | zero => cases hn
    | succ n =>
      rw [answers, if_pos (by lia), nil_append, forall_mem_singleton, forall_mem_singleton]
      constructor
      · intro hread
        obtain ⟨reads, q, hq, htype, hdlen, hdata, -, hend⟩ :=
          record_read (e := e) hpos hmem hread (by decide) (by lia)
        rw [hlen] at hend
        rw [hq]
        dsimp only
        rw [if_neg (by rw [htype]; decide), if_pos htype]
        exact ⟨_, q, rfl, hdlen.trans ha, by lia, hdata⟩
      · intro hzero hread
        obtain ⟨reads, q, hq, htype⟩ := record_unread (e := e) hmem hzero hread (by decide) (by lia)
        rw [hq]
        dsimp only
        rw [if_neg (by rw [htype]; decide), if_neg (by rw [htype]; decide)]
        exact ⟨_, rfl⟩
  | cons c cnames ih =>
    rw [flatMap_cons, append_assoc] at hmem he
    rw [length_append] at he
    have hca := hlen cnameRecord c
    have haa := hlen aRecord a
    have hrest := @List.length_append _ (cnames.flatMap (Record.bytes cnameRecord))
      (a.bytes aRecord ++ others)
    rw [@List.length_append _ (a.bytes aRecord)] at hrest
    have hname := c.name.length_pos
    have hname' := a.name.length_pos
    cases n with
    | zero => cases hn
    | succ n =>
      rw [answers, if_pos (by lia), cons_append, forall_mem_cons, forall_mem_cons]
      by_cases hread : c.name.Read
      · obtain ⟨reads, q, hq, htype, hdlen, -, htail, hend⟩ :=
          record_read (e := e) hpos hmem hread (by decide) (by lia)
        rw [hend] at htail
        obtain ⟨hgood, hbad⟩ := ih (n := n) (p := p + (c.bytes cnameRecord).length) (by lia)
          (Nat.lt_of_succ_lt_succ hn) htail (by lia)
        rw [hq]
        dsimp only
        rw [if_pos htype, hdlen, hend]
        constructor
        · intro h
          obtain ⟨more, q', hloop, hrest⟩ := hgood h.2
          rw [hloop]
          exact ⟨_, q', rfl, hrest⟩
        · intro h hnot
          obtain ⟨more, hloop⟩ := hbad h.2 fun h' => hnot ⟨hread, h'⟩
          rw [hloop]
          exact ⟨_, rfl⟩
      · refine ⟨fun h => absurd h.1 hread, fun h _ => ?_⟩
        obtain ⟨reads, q, hq, htype⟩ := record_unread (e := e) hmem h.1 hread (by decide) (by lia)
        rw [hq]
        dsimp only
        rw [if_neg (by rw [htype]; decide), if_neg (by rw [htype]; decide)]
        exact ⟨_, rfl⟩

def Response.Answered (r : Response) (mem : Mem) : Prop :=
  ∀ ourPort, ∃ reads out, dnsHandler mem ourPort ourPort r.bytes.length = some (reads, out) ∧
    ∀ var env, out.environment mem (some var) env var = some (ipToString r.a.data)

def Response.names (r : Response) : List Name := r.question :: (r.cnames ++ [r.a]).map Record.name

theorem Name.Read.front (hrest : n.rest = none) (h : n.Read) :
    ∃ front, n.bytes = front ++ [0] ∧ 0 ∉ front :=
  h.resolve_left fun hhead => (Name.head_pointer hhead).2 hrest

theorem Name.read_of_zeros (hrest : n.rest = none) (h : ∀ l ∈ n.labels, 0 ∉ l) : n.Read := by
  by_contra hread
  refine Name.zeros h hread ?_
  rw [Name.bytes, hrest]
  exact mem_append_right _ mem_cons_self

theorem dnsHandler_question {r : Response} (hrest : r.question.rest = none)
    (hmem : Lies mem 0 r.bytes) (hread : r.question.Read) (ourPort : ℕ) : ∃ reads,
      dnsHandler mem ourPort ourPort r.bytes.length =
        (answers mem r.bytes.length r.bytes.length (16 + r.question.bytes.length)).map
          (address mem r.bytes.length reads) := by
  have hlen : 16 + r.question.bytes.length ≤ r.bytes.length := by
    simp only [Response.bytes, length_append, two, length_cons, length_nil]
    lia
  rw [Response.bytes] at hmem
  simp only [lies_append] at hmem
  obtain ⟨-, -, hqueries, hanswers, -, -, hquestion, htype, -⟩ := hmem
  obtain ⟨front, hfront, hzero⟩ := hread.front hrest
  have hone : be16 mem 4 = 1 := be16_two hqueries (by decide)
  have hsome : be16 mem 6 = r.nanswers := be16_two hanswers r.hnanswers.2
  have htype : be16 mem (12 + r.question.bytes.length) = aRecord := be16_two htype (by decide)
  have hquestion : Lies mem 12 (front ++ [0]) := hfront ▸ hquestion
  rw [hfront, length_append, length_singleton] at htype hlen ⊢
  have hskip := skip_front (n := r.bytes.length - 12) hquestion hzero (by lia)
  rw [dnsHandler, if_neg (not_not_intro rfl), if_neg (not_not_intro hone),
    if_neg (hsome ▸ r.hnanswers.1.ne'), hskip]
  dsimp only
  rw [if_neg (by lia), if_neg (not_not_intro (show be16 mem (12 + front.length + 1) = _ from htype)),
    show 12 + front.length + 5 = 16 + (front.length + 1) by lia]
  exact ⟨_, rfl⟩

theorem response_exact (r : Response) (hrest : r.question.rest = none) (hmem : Lies mem 0 r.bytes) :
    ((∀ n ∈ r.names, n.Read) → r.Answered mem) ∧
      ((∀ n ∈ r.names, ∀ l ∈ n.labels, 0 ∉ l) → (r.Answered mem ↔ ∀ n ∈ r.names, n.Read)) := by
  have hlen : r.bytes.length = 16 + r.question.bytes.length +
      (r.cnames.flatMap (Record.bytes cnameRecord) ++ (r.a.bytes aRecord ++ r.others)).length := by
    simp only [Response.bytes, length_append, two, length_cons, length_nil]
    lia
  have hrecords : Lies mem (16 + r.question.bytes.length)
      (r.cnames.flatMap (Record.bytes cnameRecord) ++ (r.a.bytes aRecord ++ r.others)) := by
    rw [Response.bytes] at hmem
    simp only [lies_append] at hmem ⊢
    obtain ⟨-, -, -, -, -, -, -, -, -, hrecords⟩ := hmem
    rw [show 16 + r.question.bytes.length = 12 + r.question.bytes.length + 2 + 2 by lia]
    exact hrecords
  have hcount : r.cnames.length < r.bytes.length := by
    have hmin : ∀ cs : List Record, cs.length ≤ (cs.flatMap (Record.bytes cnameRecord)).length := by
      intro cs
      induction cs with
      | nil => exact Nat.le_refl 0
      | cons c cs ih =>
        rw [flatMap_cons, length_append, length_cons, Record.bytes, length_append]
        have hname := c.name.length_pos
        lia
    have hcs := hmin r.cnames
    rw [length_append] at hlen
    lia
  obtain ⟨hgood, hbad⟩ := answers_records (by lia) r.ha hcount hrecords hlen
  have hanswered : (∀ n ∈ r.names, n.Read) → r.Answered mem := by
    intro h ourPort
    rw [Response.names, forall_mem_cons, List.forall_mem_map] at h
    obtain ⟨reads, hhandler⟩ := dnsHandler_question hrest hmem h.1 ourPort
    obtain ⟨more, q, hloop, hdlen, hroom, hdata⟩ := hgood h.2
    rw [hhandler, hloop, map_some, address, if_pos (by lia), hdlen, if_pos (by lia)]
    refine ⟨_, _, rfl, fun var env => ?_⟩
    rw [Lies, r.ha] at hdata
    rw [Outcome.environment, Function.update_self, hdata]
  refine ⟨hanswered, fun hzero => ⟨fun h => ?_, hanswered⟩⟩
  rw [Response.names, forall_mem_cons, List.forall_mem_map] at hzero ⊢
  have hread := Name.read_of_zeros hrest hzero.1
  refine ⟨hread, ?_⟩
  by_contra hnot
  obtain ⟨reads, hhandler⟩ := dnsHandler_question hrest hmem hread 0
  obtain ⟨more, hloop⟩ := hbad hzero.2 hnot
  obtain ⟨reads', out, hout, henv⟩ := h 0
  rw [hhandler, hloop, map_some, address] at hout
  cases hout
  cases henv "" fun _ => none

end Responses

/-- What `dns_handler` reads of any packet, and which responses it answers. -/
theorem dnsHandler_exact (mem : Mem) :
    (∀ dest ourPort len, ∃ reads out, dnsHandler mem dest ourPort len = some (reads, out) ∧
      (((∀ i ∈ reads, i < len) ∧ ∀ p, out = .stored p → p + 4 ≤ len) ↔
        InPacket mem dest ourPort len)) ∧
    ∀ r : Response, r.question.rest = none → Lies mem 0 r.bytes →
      ((∀ n ∈ r.names, n.Read) → r.Answered mem) ∧
      ((∀ n ∈ r.names, ∀ l ∈ n.labels, 0 ∉ l) → (r.Answered mem ↔ ∀ n ∈ r.names, n.Read)) :=
  ⟨dnsHandler_reads, response_exact⟩

/- The question is `a.b`; the answer is for the label `a` and a pointer to `b`. -/
def partlyCompressed : Response where
  tid := 1
  flags := 0x8180
  nanswers := 1
  nauth := 0
  nother := 0
  question := ⟨[[97], [98]], none, by decide, by decide⟩
  cnames := []
  a := ⟨⟨[[97]], some 14, by decide, by decide⟩, 60, [10, 0, 0, 1], by decide⟩
  others := []
  hnanswers := by decide
  ha := rfl

theorem dnsHandler_partlyCompressed : ¬∀ (mem : Mem) (r : Response), r.question.rest = none →
    Lies mem 0 r.bytes → r.Answered mem := by
  intro h
  set packet : Mem := fun x => partlyCompressed.bytes.getD x 0 with hpacket
  have hrun : (dnsHandler packet 0 0 partlyCompressed.bytes.length).map Prod.snd =
      some .noAddress := by decide +kernel
  obtain ⟨reads, out, hout, henv⟩ := h packet partlyCompressed rfl (by rw [Lies]; decide +kernel) 0
  rw [hout] at hrun
  cases hrun
  cases henv "" fun _ => none

end UBoot.Dns
