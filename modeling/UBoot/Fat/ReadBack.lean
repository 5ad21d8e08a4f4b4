import UBoot.Fat.LongName

/-!
# Slots read back as the name

The slots of a name stand in front of its real entry, the first part of it last. In one buffer or in
two, both readers get the name.
-/

namespace UBoot.Fat

open Memory List Option

/- The slots of what is left of a name, behind `counter` others. -/
inductive IsSlots (checksum : UInt8) : ℕ → Text → List Mem → Prop where
  | last {counter : ℕ} {name : Text} (h : name.length ≤ 13) : IsSlots checksum counter name
      [slotOf checksum (UInt8.ofNat (counter + 1) ||| lastLongEntryMask)
        (str2slot (fun _ => 0) name).2.1]
  | more {counter : ℕ} {name : Text} {rest : List Mem} (h : 13 < name.length)
      (hrest : IsSlots checksum (counter + 1) (name.drop 13) rest) : IsSlots checksum counter name
      (slotOf checksum (UInt8.ofNat (counter + 1)) (str2slot (fun _ => 0) name).2.1 :: rest)

/- Slots in front of record `top`, the first of them next to it. -/
def HoldsDown (buf : Mem) : ℕ → List Mem → Prop
  | _, [] => True
  | 0, _ :: _ => False
  | k + 1, slot :: rest => (∀ i < 32, buf (32 * k + i) = slot i) ∧ HoldsDown buf k rest

theorem holdsDown_nil (buf : Mem) (k : ℕ) : HoldsDown buf k [] := by
  cases k with
  | zero => exact trivial
  | succ k => exact trivial

section Slots

variable {checksum : UInt8} {counter top limit : ℕ} {name lName : Text} {sl a b : List Mem}
  {buf cluster block : Mem}

theorem slotsFrom_isSlots {fuel : ℕ} (hfuel : name.length < fuel) :
    ∃ sl, slotsFrom checksum fuel counter name = some sl ∧ IsSlots checksum counter name sl := by
  induction fuel generalizing counter name with
  | zero => lia
  | succ fuel ih =>
    have hfst : (str2slot (fun _ => 0) name).1 = decide (name.length ≤ 13) := str2slotFrom_fst
    have hrest : (str2slot (fun _ => 0) name).2.2 = name.drop 13 := str2slotFrom_rest
    unfold slotsFrom
    by_cases hlen : name.length ≤ 13
    · rw [show str2slot (fun _ => 0) name = (true, (str2slot (fun _ => 0) name).2) from
        Prod.ext (hfst.trans (decide_eq_true hlen)) rfl]
      exact ⟨_, rfl, IsSlots.last hlen⟩
    · rw [show str2slot (fun _ => 0) name = (false, (str2slot (fun _ => 0) name).2) from
        Prod.ext (hfst.trans (decide_eq_false hlen)) rfl]
      simp only [hrest]
      obtain ⟨sl, hsl, hslots⟩ := @ih (counter + 1) (name.drop 13) (by rw [length_drop]; lia)
      rw [hsl]
      exact ⟨_, rfl, IsSlots.more (by lia) hslots⟩

theorem IsSlots.length_eq (h : IsSlots checksum counter name sl) :
    sl.length = max 1 ((name.length + 12) / 13) := by
  induction h with
  | last h =>
    rw [length_singleton]
    lia
  | more h hrest ih =>
    rw [length_cons, ih, length_drop]
    lia

theorem IsSlots.ne_nil (h : IsSlots checksum counter name sl) : sl ≠ [] := by
  cases h with
  | last h => exact cons_ne_nil _ _
  | more h hrest => exact cons_ne_nil _ _

theorem id_bits : ∀ n : Fin 64, (UInt8.ofNat n &&& 0xbf).toNat = n ∧
    ((UInt8.ofNat n ||| lastLongEntryMask) &&& 0xbf).toNat = n ∧
    (UInt8.ofNat n &&& lastLongEntryMask != 0) = false ∧
    ((UInt8.ofNat n ||| lastLongEntryMask) &&& lastLongEntryMask != 0) = true := by
  decide

theorem slotOf_id (checksum id : UInt8) (slot : Mem) : slotOf checksum id slot 0 = id := rfl

theorem slotOf_char (checksum id : UInt8) (slot : Mem) {o : ℕ} (ho : o ∈ slotChars) :
    slotOf checksum id slot o = slot o := by
  have hne : o ≠ 0 ∧ o ≠ 11 ∧ o ≠ 13 := by
    revert o
    decide
  rw [slotOf, put_of_ne _ hne.2.2, put_of_ne _ hne.2.1, put_of_ne _ hne.1]

theorem slot2str_slotOf {k : ℕ} {id : UInt8} (hname : (0 : UInt8) ∉ name)
    (hroom : lName.length + 13 ≤ vfatMaxlenBytes)
    (hbuf : ∀ i < 32, buf (32 * k + i) = slotOf checksum id (str2slot (fun _ => 0) name).2.1 i) :
    slot2str buf k lName = some (decide (name.length < 13), lName ++ name.take 13) := by
  have hsmall : ∀ o ∈ slotChars, o < 32 := by decide
  refine @slot2strFrom_str2slotFrom slotChars (fun _ => 0) buf name lName (32 * k)
    slotChars_spaced hname hroom fun o ho => ?_
  rw [hbuf o (hsmall o ho), slotOf_char _ _ _ ho]
  rfl

theorem seqOf_slotOf {k n : ℕ} (hn : n < 64) {slot : Mem} (id : UInt8)
    (hid : id = UInt8.ofNat n ∨ id = UInt8.ofNat n ||| lastLongEntryMask)
    (hbuf : ∀ i < 32, buf (32 * k + i) = slotOf checksum id slot i) : seqOf buf k = n := by
  have hzero := hbuf 0 (by lia)
  rw [Nat.add_zero, slotOf_id] at hzero
  obtain ⟨hplain, hlast, -, -⟩ := id_bits ⟨n, hn⟩
  rw [seqOf, hzero]
  obtain rfl | rfl := hid
  · exact hplain
  · exact hlast

theorem isLast_slotOf {k : ℕ} {slot : Mem} (id : UInt8)
    (hbuf : ∀ i < 32, buf (32 * k + i) = slotOf checksum id slot i) :
    isLast buf k = (id &&& lastLongEntryMask != 0) := by
  have hzero := hbuf 0 (by lia)
  rw [Nat.add_zero, slotOf_id] at hzero
  rw [isLast, hzero]

theorem backWalk_slots (h : IsSlots checksum counter name sl) (hdown : HoldsDown buf top sl)
    (hname : (0 : UInt8) ∉ name) (hcount : counter + sl.length < 64)
    (hroom : lName.length + 13 * sl.length ≤ vfatMaxlenBytes) :
    backWalk buf top lName = some (lName ++ name) := by
  induction h generalizing top lName with
  | @last counter name hlen =>
    cases top with
    | zero => exact absurd hdown (by simp [HoldsDown])
    | succ k =>
      obtain ⟨hbuf, -⟩ := hdown
      have htake : name.take 13 = name := take_of_length_le hlen
      rw [length_singleton] at hcount hroom
      have hbits := (id_bits ⟨counter + 1, by lia⟩).2.2.2
      rw [backWalk, slot2str_slotOf hname (by lia) hbuf, htake]
      by_cases hterm : name.length < 13
      · rw [decide_eq_true hterm]
      · rw [decide_eq_false hterm]
        simp only [isLast_slotOf _ hbuf, hbits, if_true]
  | @more counter name rest hlen hrest ih =>
    cases top with
    | zero => exact absurd hdown (by simp [HoldsDown])
    | succ k =>
      obtain ⟨hbuf, hdown⟩ := hdown
      rw [length_cons] at hcount hroom
      have hbits := (id_bits ⟨counter + 1, by lia⟩).2.2.1
      have htaken : (lName ++ name.take 13).length + 13 * rest.length ≤ vfatMaxlenBytes := by
        rw [length_append, length_take]
        lia
      rw [backWalk, slot2str_slotOf hname (by lia) hbuf, decide_eq_false (by lia)]
      simp only [isLast_slotOf _ hbuf, hbits, Bool.false_eq_true, if_false]
      rw [ih hdown (fun h0 => hname (mem_of_mem_drop h0)) (by lia) htaken, append_assoc,
        take_append_drop]

theorem blockNames_slots (h : IsSlots checksum counter name (a ++ b)) (hb : b ≠ [])
    (hdown : HoldsDown block a.length a) (hname : (0 : UInt8) ∉ name)
    (hroom : lName.length + 13 * a.length ≤ vfatMaxlenBytes) :
    blockNames block a.length lName = some (lName ++ name.take (13 * a.length)) ∧
      IsSlots checksum (counter + a.length) (name.drop (13 * a.length)) b := by
  induction a generalizing counter name lName with
  | nil =>
    rw [length_nil, Nat.mul_zero, take_zero, append_nil, drop_zero]
    exact ⟨rfl, h⟩
  | cons slot a ih =>
    rw [cons_append] at h
    obtain ⟨hbuf, hdown⟩ := hdown
    rw [length_cons] at hroom
    generalize hsl : slot :: (a ++ b) = sl at h
    cases h with
    | last hlen =>
      have := (List.cons.inj hsl).2
      exact absurd (append_eq_nil_iff.mp this).2 hb
    | more hlen hrest =>
      obtain ⟨rfl, rfl⟩ := List.cons.inj hsl
      have htaken : (lName ++ name.take 13).length = lName.length + 13 := by
        rw [length_append, length_take, Nat.min_eq_left hlen.le]
      obtain ⟨hnames, hslots⟩ := @ih (counter + 1) (name.drop 13) (lName ++ name.take 13) hrest hdown
        (fun h0 => hname (mem_of_mem_drop h0)) (by lia)
      have hmul : 13 * (a.length + 1) = 13 + 13 * a.length := by ring
      rw [length_cons, blockNames, slot2str_slotOf hname (by lia) hbuf]
      simp only
      rw [hnames, hmul, append_assoc, take_add]
      refine ⟨rfl, ?_⟩
      rw [drop_drop] at hslots
      rw [Nat.add_assoc, Nat.add_comm 1] at hslots
      exact hslots

theorem seqOf_slots (h : IsSlots checksum counter name (a ++ b)) (hdown : HoldsDown buf top a)
    (hcount : counter + a.length < 64) :
    a.length ≤ top ∧ ∀ j < a.length, seqOf buf (top - 1 - j) = counter + j + 1 := by
  induction a generalizing counter name top with
  | nil => exact ⟨Nat.zero_le _, fun j hj => absurd hj (Nat.not_lt_zero j)⟩
  | cons slot a ih =>
    cases top with
    | zero => exact absurd hdown (by simp [HoldsDown])
    | succ k =>
      obtain ⟨hbuf, hdown⟩ := hdown
      rw [length_cons] at hcount ⊢
      rw [cons_append] at h
      generalize hsl : slot :: (a ++ b) = sl at h
      cases h with
      | last hlen =>
        obtain ⟨rfl, hnil⟩ := List.cons.inj hsl
        obtain ⟨rfl, -⟩ := append_eq_nil_iff.mp hnil
        rw [length_nil] at hcount ⊢
        refine ⟨by lia, fun j hj => ?_⟩
        obtain rfl : j = 0 := by lia
        exact seqOf_slotOf hcount _ (.inr rfl) hbuf
      | more hlen hrest =>
        obtain ⟨rfl, rfl⟩ := List.cons.inj hsl
        obtain ⟨hle, hseq⟩ := ih hrest hdown (by lia)
        refine ⟨by lia, fun j hj => ?_⟩
        cases j with
        | zero => exact seqOf_slotOf (by lia) _ (.inl rfl) hbuf
        | succ j =>
          have := hseq j (by lia)
          rw [show k + 1 - 1 - (j + 1) = k - 1 - j by lia, this]
          lia

theorem slotWalk_down {m : ℕ} (hm : m ≤ top) (hin : 32 * (top - 1) < limit ∨ m = 0)
    (hseq : ∀ j < m, seqOf buf (top - 1 - j) = counter + j + 1) :
    slotWalk buf limit (counter + m) (top - m) = slotWalk buf limit counter top := by
  induction m with
  | zero => rfl
  | succ m ih =>
    have hhere := hseq m (by lia)
    rw [show top - 1 - m = top - (m + 1) by lia] at hhere
    rw [← Nat.add_assoc, slotWalk, if_neg (by lia), if_neg (by rw [hhere]; exact not_not.mpr rfl),
      show top - (m + 1) + 1 = top - m by lia]
    exact ih (by lia) (by lia) fun j hj => hseq j (by lia)

theorem blockWalk_down {m : ℕ} (hm : m ≤ top) (hin : 32 * top < limit)
    (hseq : ∀ j < m, seqOf block (top - 1 - j) = j + 1) :
    blockWalk block limit m (top - m) = some (.at top 0) := by
  induction m with
  | zero =>
    rw [blockWalk, if_neg (by lia)]
    rfl
  | succ m ih =>
    have hhere := hseq m (by lia)
    rw [show top - 1 - m = top - (m + 1) by lia] at hhere
    rw [blockWalk, if_neg (by lia), if_neg (by rw [hhere]; exact not_not.mpr rfl),
      show top - (m + 1) + 1 = top - m by lia]
    exact ih (by lia) fun j hj => hseq j (by lia)

structure Plain (name : Text) : Prop where
  nonempty : name ≠ []
  noNul : (0 : UInt8) ∉ name
  first : name.head? ≠ some deletedFlag ∧ name.head? ≠ some aRING
  short : name.length ≤ 13 * vfatMaxseq

theorem finishName_plain (h : Plain name) : finishName name = some (downcase name) := by
  have hshort := h.short
  unfold vfatMaxseq at hshort
  unfold finishName vfatMaxlenBytes
  rw [if_neg (by lia)]
  cases name with
  | nil => exact absurd rfl h.nonempty
  | cons c rest =>
    have hfirst := h.first
    rw [head?_cons] at hfirst
    have h1 : c ≠ deletedFlag := fun heq => hfirst.1 (heq ▸ rfl)
    have h2 : c ≠ aRING := fun heq => hfirst.2 (heq ▸ rfl)
    simp only [if_neg h1, if_neg h2]

theorem Plain.slots_le (hn : Plain name) (h : IsSlots checksum 0 name sl) :
    1 ≤ sl.length ∧ sl.length ≤ vfatMaxseq := by
  have hlen := h.length_eq
  have hshort := hn.short
  unfold vfatMaxseq at hshort ⊢
  lia

theorem nameHere_slots (hn : Plain name) (h : IsSlots checksum 0 name sl)
    (hdown : HoldsDown cluster top sl) : nameHere cluster top = some (downcase name) := by
  have hle := (hn.slots_le h).2
  unfold vfatMaxseq at hle
  have hback := @backWalk_slots checksum 0 top name [] sl cluster h hdown hn.noNul (by lia)
    (by rw [length_nil]; unfold vfatMaxlenBytes; lia)
  rw [nameHere, hback, nil_append, bind_some, finishName_plain hn]

theorem nameAcross_slots (hn : Plain name) (h : IsSlots checksum 0 name (a ++ b)) (hb : b ≠ [])
    (hblock : HoldsDown block a.length a) (hcluster : HoldsDown cluster top b) :
    nameAcross cluster top block a.length = some (downcase name) := by
  have hle := (hn.slots_le h).2
  rw [length_append] at hle
  unfold vfatMaxseq at hle
  obtain ⟨hnames, hslots⟩ := @blockNames_slots checksum 0 name [] a b block h hb hblock hn.noNul
    (by rw [length_nil]; unfold vfatMaxlenBytes; lia)
  rw [nil_append] at hnames
  have hback := @backWalk_slots checksum (0 + a.length) top (name.drop (13 * a.length))
    (name.take (13 * a.length)) b cluster hslots hcluster
    (fun h0 => hn.noNul (mem_of_mem_drop h0)) (by lia)
    (by rw [length_take]; unfold vfatMaxlenBytes; lia)
  rw [nameAcross, hnames, bind_some, hback, take_append_drop, bind_some, finishName_plain hn]

theorem slotWalk_slots (hn : Plain name) (h : IsSlots checksum 0 name (a ++ b)) (hb : b ≠ [])
    (hcluster : HoldsDown cluster top b) (hslots : IsSlots checksum a.length (name.drop (13 * a.length)) b)
    (hin : 32 * (top - 1) < limit) :
    seqOf cluster (top - b.length) = a.length + b.length ∧
      slotWalk cluster limit (a.length + b.length) (top - b.length) =
        slotWalk cluster limit a.length top := by
  have hle := (hn.slots_le h).2
  rw [length_append] at hle
  unfold vfatMaxseq at hle
  have hpos : 0 < b.length := length_pos_iff.mpr hb
  rw [← append_nil b] at hslots
  obtain ⟨htop, hseq⟩ := seqOf_slots hslots hcluster (by lia)
  have hfirst := hseq (b.length - 1) (by lia)
  rw [show top - 1 - (b.length - 1) = top - b.length by lia] at hfirst
  exact ⟨by lia, slotWalk_down htop (.inl hin) hseq⟩

end Slots

section Readers

variable {v : FsData} {answers : ℕ → Bool} {checksum : UInt8} {name : Text} {sl a b : List Mem}
  {w w₁ : World} {cluster : Mem} {curclust next k front : ℕ}

theorem getVfatname_here (hn : Plain name) (h : IsSlots checksum 0 name sl)
    (hdown : HoldsDown cluster k sl) (hin : 32 * k < v.nameLimit curclust) :
    v.getVfatname answers w curclust cluster (k - sl.length) =
      some (some (downcase name, record cluster k), w) := by
  obtain ⟨hcounter, hwalk⟩ := @slotWalk_slots checksum k (v.nameLimit curclust) name [] sl cluster hn
    h h.ne_nil hdown h (by lia)
  rw [length_nil, Nat.zero_add] at hcounter hwalk
  unfold FsData.getVfatname
  simp only [hcounter, if_neg (Nat.not_lt_of_le (hn.slots_le h).2), hwalk, slotWalk, if_pos hin,
    nameHere_slots hn h hdown, map_some]

/- The slots `b` end the cluster, the slots `a` and the real entry start the next one. -/
structure Across (v : FsData) (answers : ℕ → Bool) (disk cluster : Mem) (front next : ℕ)
    (a b : List Mem) : Prop where
  whole : v.bytesperclust = 32 * front
  some : b ≠ []
  valid : v.checkClust next = false
  answers : answers next = true
  room : 32 * a.length < v.bytesperclust
  front : HoldsDown cluster front b
  back : HoldsDown (v.dirBlock disk next) a.length a

theorem Across.walks {disk : Mem} (h : Across v answers disk cluster front next a b)
    (hcur : curclust ≠ 0) (hn : Plain name) (hs : IsSlots checksum 0 name (a ++ b)) :
    seqOf cluster (front - b.length) = a.length + b.length ∧ a.length + b.length ≤ vfatMaxseq ∧
      v.nameLimit curclust = 32 * front ∧
      slotWalk cluster (32 * front) (a.length + b.length) (front - b.length) = .at front a.length ∧
      blockWalk (v.dirBlock disk next) v.bytesperclust a.length 0 = .some (.at a.length 0) ∧
      nameAcross cluster front (v.dirBlock disk next) a.length = .some (downcase name) := by
  have hle := (hn.slots_le hs).2
  rw [length_append] at hle
  have hle' := hle
  unfold vfatMaxseq at hle'
  have hroom := h.room
  have hwhole := h.whole
  have hslots := (@blockNames_slots checksum 0 name [] a b (v.dirBlock disk next) hs h.some h.back
    hn.noNul (by rw [length_nil]; unfold vfatMaxlenBytes; lia)).2
  rw [Nat.zero_add] at hslots
  obtain ⟨hcounter, hwalk⟩ := @slotWalk_slots checksum front (32 * front) name a b cluster hn hs h.some
    h.front hslots (by lia)
  refine ⟨hcounter, hle, by rw [FsData.nameLimit, if_neg hcur, hwhole], hwalk.trans ?_, ?_,
    nameAcross_slots hn hs h.some h.back h.front⟩
  · cases a with
    | nil => rfl
    | cons s a => rw [length_cons, slotWalk, if_pos (Nat.le_refl _)]
  · have hseq : ∀ j < a.length, seqOf (v.dirBlock disk next) (a.length - 1 - j) = j + 1 :=
      fun j hj => by rw [(seqOf_slots hs h.back (by lia)).2 j hj, Nat.zero_add]
    have hwalk := @blockWalk_down a.length v.bytesperclust (v.dirBlock disk next) a.length le_rfl
      hroom hseq
    rwa [Nat.sub_self] at hwalk

theorem getVfatname_across (hcur : curclust ≠ 0) (hn : Plain name)
    (hs : IsSlots checksum 0 name (a ++ b)) (hget : v.getFatent w curclust = (next, w₁))
    (h : Across v answers w₁.disk cluster front next a b) :
    v.getVfatname answers w curclust cluster (front - b.length) =
      some (some (downcase name, record (v.dirBlock w₁.disk next) a.length), w₁) := by
  obtain ⟨hcounter, hle, hlimit, hwalk, hblock, hname⟩ := h.walks hcur hn hs
  unfold FsData.getVfatname
  simp only [hcounter, if_neg (Nat.not_lt_of_le hle), hlimit, hwalk, if_neg (Nat.lt_irrefl _),
    if_neg hcur, hget, h.valid, h.answers, Bool.false_eq_true, Bool.true_eq_false, if_false, hblock,
    hname, map_some]

variable {d : FsData.Dir}

theorem getLongFileName_here (hn : Plain name) (h : IsSlots checksum 0 name sl)
    (hdown : HoldsDown d.block k sl) (hin : 32 * k < v.nameLimit curclust) :
    v.getLongFileName answers d curclust (k - sl.length) = some (some (downcase name, k), d) := by
  obtain ⟨hcounter, hwalk⟩ := @slotWalk_slots checksum k (v.nameLimit curclust) name [] sl d.block hn
    h h.ne_nil hdown h (by lia)
  rw [length_nil, Nat.zero_add] at hcounter hwalk
  unfold FsData.getLongFileName
  simp only [hcounter, if_neg (Nat.not_lt_of_le (hn.slots_le h).2), hwalk, slotWalk, if_pos hin,
    nameHere_slots hn h hdown, map_some]

theorem getLongFileName_across (hcur : curclust ≠ 0) (hn : Plain name)
    (hs : IsSlots checksum 0 name (a ++ b))
    (hget : v.getFatentValue d.world d.dirCurclust = (next, w₁))
    (h : Across v answers w₁.disk d.block front next a b) :
    v.getLongFileName answers d curclust (front - b.length) =
      some (some (downcase name, a.length), ⟨w₁, v.dirBlock w₁.disk next, next⟩) := by
  obtain ⟨hcounter, hle, hlimit, hwalk, hblock, hname⟩ := h.walks hcur hn hs
  unfold FsData.getLongFileName
  simp only [hcounter, if_neg (Nat.not_lt_of_le hle), hlimit, hwalk, if_neg (Nat.lt_irrefl _),
    if_neg hcur, hget, h.valid, h.answers, Bool.false_eq_true, Bool.true_eq_false, if_false, hblock,
    hname, map_some]

end Readers

end UBoot.Fat
