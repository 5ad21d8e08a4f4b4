import UBoot.Mtd.Parts

/-!
# The current partition

Adding and deleting correct the position of the current partition by comparing offsets: that is
right unless the partition deleted follows the current one at the same offset, or the number does
not fit its byte.
-/

namespace UBoot.Mtd

open List Option

inductive Op where
  | add (d : ℕ) (part : PartInfo)
  | sortAdd (d : ℕ) (part : PartInfo)
  | del (d addr : ℕ)
  | deviceAdd (d : ℕ)

def step (f : Flash) (s : State) : Op → Option (ℤ × State)
  | .add d part => partAdd f s d part
  | .sortAdd d part => partSortAdd s d part
  | .del d addr => partDel s d addr
  | .deviceAdd d => (deviceAdd s d).map ((0, ·))

def current (s : State) : Option PartInfo :=
  match s.currentMtdDev with
  | some d => mtdPartInfo (s.heap d) s.currentMtdPartnum
  | none => none

structure InOrder (dev : MtdDevice) : Prop where
  sorted : dev.parts.Pairwise fun p q => p.offset ≤ q.offset
  count : dev.numParts = dev.parts.length

/- A device as `device_parse` makes it and the operations keep it. -/
structure DevOk (dev : MtdDevice) : Prop extends InOrder dev where
  word : dev.parts.length < 2 ^ 16
  nonempty : dev.parts ≠ []
  apart : (dev.parts.map PartInfo.addr).Nodup

structure Good (s : State) : Prop where
  nodup : s.devices.Nodup
  dev : ∀ d ∈ s.devices, DevOk (s.heap d)
  cur : ∀ d, s.currentMtdDev = some d →
    d ∈ s.devices ∧ s.currentMtdPartnum < (s.heap d).parts.length
  byte : s.currentMtdPartnum < 2 ^ 8

/- What the callers see to: devices and partitions of the list, a new `part_info` for each
   addition. -/
def Legal (s : State) : Op → Prop
  | .add d part | .sortAdd d part =>
    d ∈ s.devices ∧ part.addr ∉ (s.heap d).parts.map PartInfo.addr
  | .del d addr => d ∈ s.devices ∧ addr ∈ (s.heap d).parts.map PartInfo.addr
  | .deviceAdd d => d ∉ s.devices ∧ DevOk (s.heap d)

/- Room for one more on the device, and for the number when the partition comes before the
   current one. -/
def Room (s : State) (d offset : ℕ) : Prop :=
  (s.heap d).parts.length + 1 < 2 ^ 16 ∧
    ∀ curr, s.currentMtdDev = some d → current s = some curr → offset ≤ curr.offset →
      s.currentMtdPartnum + 1 < 2 ^ 8

/- The partition to delete does not come behind the current one at the same offset. -/
def NoTie (s : State) (d addr : ℕ) : Prop :=
  ∀ i part curr, s.currentMtdDev = some d → current s = some curr →
    (s.heap d).parts[i]? = some part → part.addr = addr → part.offset = curr.offset →
    i ≤ s.currentMtdPartnum

def Careful (f : Flash) (s : State) : Op → Prop
  | .add d part => ∀ p, partValidate f (s.heap d).id part = some p → Room s d p.offset
  | .sortAdd d part => Room s d part.offset
  | .del d addr => NoTie s d addr
  | .deviceAdd _ => True

def Deletes (s : State) (op : Op) (p : PartInfo) : Prop :=
  ∃ d, s.currentMtdDev = some d ∧ op = .del d p.addr

/- The current partition stays, or it is deleted and the number becomes 0. -/
def Kept (s : State) (op : Op) (s' : State) : Prop :=
  ∀ p, current s = some p →
    (¬ Deletes s op p → current s' = some p) ∧ (Deletes s op p → s'.currentMtdPartnum = 0)

inductive Reach (f : Flash) (s₀ : State) : State → Prop
  | start : Reach f s₀ s₀
  | step {s s' : State} {op : Op} {ret : ℤ} : Reach f s₀ s → Legal s op → Careful f s op →
      step f s op = some (ret, s') → Reach f s₀ s'

/- What the environment and `last_partition` do not count for. -/
structure Same (s s' : State) : Prop where
  heap : s'.heap = s.heap
  devices : s'.devices = s.devices
  dev : s'.currentMtdDev = s.currentMtdDev
  num : s'.currentMtdPartnum = s.currentMtdPartnum

variable {s s' : State}

theorem Same.current (h : Same s s') : current s' = current s := by
  simp only [Mtd.current, h.dev, h.heap, h.num]

theorem Same.good (h : Same s s') (hg : Good s) : Good s' := by
  refine ⟨?_, ?_, ?_, ?_⟩
  · rw [h.devices]
    exact hg.nodup
  · rw [h.devices, h.heap]
    exact hg.dev
  · rw [h.devices, h.heap, h.dev, h.num]
    exact hg.cur
  · rw [h.num]
    exact hg.byte

variable {dev : MtdDevice}

theorem mtdPartInfo_eq (h : InOrder dev) (n : ℕ) : mtdPartInfo dev n = dev.parts[n]? := by
  rw [mtdPartInfo, h.count]
  split
  · rw [getElem?_eq_none (by lia)]
  · rfl

theorem indexPartitions_same (h : Good s) : ∃ s', indexPartitions s = some s' ∧ Same s s' := by
  rw [indexPartitions]
  cases hd : s.currentMtdDev with
  | none => exact ⟨_, rfl, rfl, rfl, by simp [hd], rfl⟩
  | some d =>
    obtain ⟨hmem, hlt⟩ := h.cur d hd
    simp only [mtdPartInfo_eq (h.dev d hmem).toInOrder, getElem?_eq_getElem hlt]
    exact ⟨_, rfl, rfl, rfl, by simp [hd], rfl⟩

theorem currentSave_eq (s : State) : ∃ partition last,
    currentSave s = indexPartitions { s with partition := partition, lastPartition := last } := by
  rw [currentSave]
  split <;> exact ⟨_, _, rfl⟩

theorem currentSave_same (h : Good s) : ∃ s', currentSave s = some s' ∧ Same s s' := by
  obtain ⟨partition, last, heq⟩ := currentSave_eq s
  obtain ⟨s', hs', hsame⟩ :=
    indexPartitions_same (s := { s with partition := partition, lastPartition := last })
      ⟨h.nodup, h.dev, h.cur, h.byte⟩
  exact ⟨s', heq.trans hs', hsame.heap, hsame.devices, hsame.dev, hsame.num⟩

variable {part : PartInfo}

theorem insertSorted_spec {l l' : List PartInfo} {before : Option PartInfo}
    (h : insertSorted part l = some (l', before)) :
    ∃ front back, l = front ++ back ∧ l' = front ++ part :: back ∧ before = back.head? ∧
      (∀ x ∈ front, x.offset < part.offset) ∧ ∀ x, before = some x → part.offset ≤ x.offset := by
  induction l generalizing l' before with
  | nil =>
    simp only [insertSorted, some.injEq, Prod.mk.injEq] at h
    obtain ⟨rfl, rfl⟩ := h
    exact ⟨[], [], rfl, rfl, rfl, by simp, by simp⟩
  | cons pi rest ih =>
    rw [insertSorted] at h
    split at h
    · cases h
    · split at h
      · next hle =>
        simp only [some.injEq, Prod.mk.injEq] at h
        obtain ⟨rfl, rfl⟩ := h
        refine ⟨[], pi :: rest, rfl, rfl, rfl, by simp, ?_⟩
        intro x hx
        obtain rfl := some.inj hx
        exact hle
      · next hlt =>
        cases hrec : insertSorted part rest with
        | none => simp [hrec] at h
        | some found =>
          obtain ⟨parts, before'⟩ := found
          simp only [hrec, some.injEq, Prod.mk.injEq] at h
          obtain ⟨rfl, rfl⟩ := h
          obtain ⟨front, back, rfl, rfl, hhead, hfront, hback⟩ := ih hrec
          refine ⟨pi :: front, back, rfl, rfl, hhead, ?_, hback⟩
          intro x hx
          cases mem_cons.mp hx with
          | inl heq => rw [heq]; lia
          | inr hmem => exact hfront x hmem

variable {back front : List PartInfo}

theorem sorted_insert (hs : (front ++ back).Pairwise fun p q => p.offset ≤ q.offset)
    (hfront : ∀ x ∈ front, x.offset < part.offset)
    (hback : ∀ x, back.head? = some x → part.offset ≤ x.offset) :
    (front ++ part :: back).Pairwise fun p q => p.offset ≤ q.offset := by
  rw [pairwise_append] at hs
  obtain ⟨h₁, h₂, h₁₂⟩ := hs
  have hall : ∀ x ∈ back, part.offset ≤ x.offset := by
    cases back with
    | nil => simp
    | cons y back =>
      have hy := hback y rfl
      intro x hx
      cases mem_cons.mp hx with
      | inl heq => rw [heq]; exact hy
      | inr hmem => exact hy.trans ((pairwise_cons.mp h₂).1 x hmem)
  refine pairwise_append.mpr ⟨h₁, pairwise_cons.mpr ⟨hall, h₂⟩, ?_⟩
  intro x hx y hy
  cases mem_cons.mp hy with
  | inl heq => rw [heq]; exact (hfront x hx).le
  | inr hmem => exact h₁₂ x hx y hmem

theorem getElem?_insert {α : Type} (front back : List α) (x : α) (n : ℕ) :
    (front ++ x :: back)[if n < front.length then n else n + 1]? = (front ++ back)[n]? := by
  split
  · next h => rw [getElem?_append_left h, getElem?_append_left h]
  · next h =>
    rw [getElem?_append_right (by lia), getElem?_append_right (by lia),
      show n + 1 - front.length = n - front.length + 1 by lia, getElem?_cons_succ]

section SetDev

variable {s : State} {d n : ℕ} {dev : MtdDevice}

theorem Good.setDev (h : Good s) (hdev : DevOk dev) (hbyte : n < 2 ^ 8)
    (hcur : s.currentMtdDev = some d → n < dev.parts.length)
    (hother : s.currentMtdDev ≠ some d → n = s.currentMtdPartnum) :
    Good { s.setDev d dev with currentMtdPartnum := n } := by
  refine ⟨h.nodup, ?_, ?_, hbyte⟩
  · intro e he
    by_cases hed : e = d
    · simpa [State.setDev, hed] using hdev
    · simpa [State.setDev, hed] using h.dev e he
  · intro e he
    obtain ⟨hmem, hlt⟩ := h.cur e he
    refine ⟨hmem, ?_⟩
    by_cases hed : e = d
    · subst hed
      simpa [State.setDev] using hcur he
    · have hn : n = s.currentMtdPartnum := by
        refine hother fun hsome => hed ?_
        exact some.inj (he.symm.trans hsome)
      simpa [State.setDev, hed, hn] using hlt

theorem current_setDev (hcur : s.currentMtdDev = some d) (hdev : DevOk dev) :
    current { s.setDev d dev with currentMtdPartnum := n } = dev.parts[n]? := by
  simp only [current, State.setDev, hcur, Function.update_self]
  exact mtdPartInfo_eq hdev.toInOrder n

theorem current_setDev_other (hcur : s.currentMtdDev ≠ some d) :
    current (s.setDev d dev) = current s := by
  simp only [current, State.setDev]
  cases hd : s.currentMtdDev with
  | none => rfl
  | some e =>
    have hne : e ≠ d := by
      intro hed
      rw [hd, hed] at hcur
      exact hcur rfl
    simp only [Function.update_of_ne hne]

theorem Good.current_eq (h : Good s) (hcur : s.currentMtdDev = some d) :
    current s = (s.heap d).parts[s.currentMtdPartnum]? := by
  simp only [current, hcur]
  exact mtdPartInfo_eq (h.dev d (h.cur d hcur).1).toInOrder _

end SetDev

theorem DevOk.insert (h : DevOk dev) (hparts : dev.parts = front ++ back)
    (hroom : dev.parts.length + 1 < 2 ^ 16) (hnew : part.addr ∉ dev.parts.map PartInfo.addr)
    (hfront : ∀ x ∈ front, x.offset < part.offset)
    (hback : ∀ x, back.head? = some x → part.offset ≤ x.offset) :
    DevOk { dev with parts := front ++ part :: back, numParts := (dev.numParts + 1) % 2 ^ 16 } := by
  have hlen : (front ++ part :: back).length = dev.parts.length + 1 := by
    rw [hparts]
    simp only [length_append, length_cons]
    lia
  have hperm : (front ++ part :: back).Perm (part :: dev.parts) := by
    rw [hparts]
    exact perm_middle
  refine ⟨⟨?_, ?_⟩, ?_, by simp, ?_⟩
  · have hs := h.sorted
    rw [hparts] at hs
    exact sorted_insert hs hfront hback
  · simp only [hlen, h.count]
    lia
  · simp only [hlen]
    lia
  · refine (hperm.map PartInfo.addr).nodup_iff.mpr ?_
    exact nodup_cons.mpr ⟨hnew, h.apart⟩

variable {curr : PartInfo} {n : ℕ}

theorem current_moves (hs : (front ++ back).Pairwise fun p q => p.offset ≤ q.offset)
    (hn : (front ++ back)[n]? = some curr) (hfront : ∀ x ∈ front, x.offset < part.offset)
    (hback : ∀ x, back.head? = some x → part.offset ≤ x.offset) :
    (∃ pi, back.head? = some pi ∧ pi.offset ≤ curr.offset) ↔ front.length ≤ n := by
  constructor
  · rintro ⟨pi, hpi, hle⟩
    by_contra hlt
    rw [getElem?_append_left (by lia)] at hn
    have h₁ := hfront curr (mem_of_getElem? hn)
    have h₂ := hback pi hpi
    lia
  · intro hle
    rw [getElem?_append_right hle] at hn
    cases back with
    | nil => simp at hn
    | cons pi back =>
      refine ⟨pi, rfl, ?_⟩
      cases hk : n - front.length with
      | zero =>
        rw [hk] at hn
        obtain rfl := some.inj hn
        exact le_refl _
      | succ k =>
        rw [hk, getElem?_cons_succ] at hn
        have htail := (pairwise_append.mp hs).2.1
        exact (pairwise_cons.mp htail).1 curr (mem_of_getElem? hn)

/- What a step leaves: a good state in which the current partition is the same. -/
def Steady (s s' : State) : Prop := Good s' ∧ ∀ p, current s = some p → current s' = some p

variable {d : ℕ}

theorem partSortAdd_steady (h : Good s) (hd : d ∈ s.devices)
    (hnew : part.addr ∉ (s.heap d).parts.map PartInfo.addr) (hroom : Room s d part.offset) :
    ∃ ret s', partSortAdd s d part = some (ret, s') ∧ Steady s s' := by
  have hok := h.dev d hd
  rw [partSortAdd]
  simp only [if_neg hok.nonempty]
  cases hins : insertSorted part (s.heap d).parts with
  | none => exact ⟨1, s, rfl, h, fun _ hp => hp⟩
  | some found =>
    obtain ⟨parts, before⟩ := found
    obtain ⟨front, back, hparts, rfl, rfl, hfront, hback⟩ := insertSorted_spec hins
    have hgrown := hok.insert hparts hroom.1 hnew hfront hback
    -- the state when the number stays
    have hstays (hlt : s.currentMtdDev = some d →
        s.currentMtdPartnum < (front ++ part :: back).length) : Good (s.setDev d _) :=
      h.setDev hgrown h.byte hlt (fun _ => rfl)
    have hsorted := hok.sorted
    rw [hparts] at hsorted
    by_cases hcur : s.currentMtdDev = some d
    · -- the current device
      have hlt := (h.cur d hcur).2
      obtain ⟨curr, hcurr⟩ : ∃ curr, (s.heap d).parts[s.currentMtdPartnum]? = some curr :=
        ⟨_, getElem?_eq_getElem hlt⟩
      have hcs : current s = some curr := (h.current_eq hcur).trans hcurr
      have hmove := current_moves hsorted (by rw [← hparts]; exact hcurr) hfront hback
      have hkept := getElem?_insert front back part s.currentMtdPartnum
      rw [← hparts, hcurr] at hkept
      simp only [if_pos hcur, mtdPartInfo_eq hok.toInOrder, hcurr]
      by_cases hbefore : front.length ≤ s.currentMtdPartnum
      · obtain ⟨pi, hpi, hle⟩ := hmove.mpr hbefore
        have hbyte := hroom.2 curr hcur hcs ((hback pi hpi).trans hle)
        rw [if_neg (by lia)] at hkept
        rw [Nat.mod_eq_of_lt hbyte]
        have hgood := h.setDev (d := d) hgrown hbyte
          (fun _ => (List.getElem?_eq_some_iff.mp hkept).1) (fun hne => absurd hcur hne)
        obtain ⟨s', hsave, hsame⟩ := currentSave_same hgood
        simp only [hpi, if_pos hle, hsave, map_some]
        refine ⟨0, s', rfl, hsame.good hgood, ?_⟩
        intro p hp
        rw [hsame.current, current_setDev hcur hgrown, hkept, ← hcs]
        exact hp
      · have hnot : ¬ ∃ pi, back.head? = some pi ∧ pi.offset ≤ curr.offset := fun hex =>
          hbefore (hmove.mp hex)
        rw [if_pos (by lia)] at hkept
        have hgood := hstays fun _ => (List.getElem?_eq_some_iff.mp hkept).1
        obtain ⟨s', hindex, hsame⟩ := indexPartitions_same hgood
        have hsteady : Steady s s' := by
          refine ⟨hsame.good hgood, ?_⟩
          intro p hp
          have hcurr' := current_setDev (n := s.currentMtdPartnum) hcur hgrown
          rw [hsame.current]
          exact hcurr'.trans (hkept.trans (hcs.symm.trans hp))
        refine ⟨0, s', ?_, hsteady⟩
        cases hhead : back.head? with
        | none => simp only [hindex, map_some]
        | some pi =>
          simp only
          rw [if_neg fun hle => hnot ⟨pi, hhead, hle⟩, hindex, map_some]
    · have hgood := hstays fun hc => absurd hc hcur
      obtain ⟨s', hindex, hsame⟩ := indexPartitions_same hgood
      refine ⟨0, s', ?_, hsame.good hgood, ?_⟩
      · simp only [if_neg hcur, hindex, map_some]
        cases back.head? <;> rfl
      · intro p hp
        rw [hsame.current]
        exact (current_setDev_other hcur).trans hp

variable {f : Flash}

theorem partAdd_steady (h : Good s)
    (hd : d ∈ s.devices) (hnew : part.addr ∉ (s.heap d).parts.map PartInfo.addr)
    (hroom : ∀ p, partValidate f (s.heap d).id part = some p → Room s d p.offset) :
    ∃ ret s', partAdd f s d part = some (ret, s') ∧ Steady s s' := by
  rw [partAdd]
  cases hv : partValidate f (s.heap d).id part with
  | none => exact ⟨1, s, rfl, h, fun _ hp => hp⟩
  | some p =>
    obtain ⟨n, size, hp⟩ := partValidate_eq hv
    have haddr : p.addr = part.addr := by rw [hp]
    exact partSortAdd_steady h hd (by rwa [haddr]) (hroom p hv)

theorem Good.erase (h : Good s) (hcur : s.currentMtdDev ≠ some d) :
    Good { s with devices := s.devices.erase d } := by
  refine ⟨h.nodup.erase d, fun e he => h.dev e (mem_of_mem_erase he), ?_, h.byte⟩
  intro e he
  obtain ⟨hmem, hlt⟩ := h.cur e he
  refine ⟨(mem_erase_of_ne ?_).mpr hmem, hlt⟩
  intro hed
  rw [hed] at he
  exact hcur he

variable {addr : ℕ}

theorem deviceDel_kept (h : Good s)
    (haddr : addr ∈ (s.heap d).parts.map PartInfo.addr) (hone : (s.heap d).parts.length = 1) :
    ∃ ret s', deviceDel s d = some (ret, s') ∧ Good s' ∧ Kept s (.del d addr) s' := by
  rw [deviceDel]
  by_cases hcur : s.currentMtdDev = some d
  · have hlt := (h.cur d hcur).2
    have hzero : s.currentMtdPartnum = 0 := by lia
    -- the partition is the current one
    have hall : ∀ p, current s = some p → Deletes s (.del d addr) p := by
      intro p hp
      obtain ⟨only, honly⟩ := length_eq_one_iff.mp hone
      rw [h.current_eq hcur, hzero, honly] at hp
      rw [honly] at haddr
      obtain rfl := some.inj hp
      rw [map_singleton, mem_singleton] at haddr
      exact ⟨d, hcur, by rw [haddr]⟩
    simp only [if_pos hcur]
    cases hrest : s.devices.erase d with
    | nil =>
      have hgood : Good { s with devices := [], currentMtdDev := none } :=
        ⟨nodup_nil, by simp, by simp, h.byte⟩
      obtain ⟨s', hsave, hsame⟩ := currentSave_same hgood
      simp only [hsave, map_some]
      refine ⟨0, s', rfl, hsame.good hgood, fun p hp => ⟨fun hnot => absurd (hall p hp) hnot, ?_⟩⟩
      intro _
      rw [hsame.num]
      exact hzero
    | cons first rest =>
      have hsub : ∀ e ∈ first :: rest, e ∈ s.devices := fun e he =>
        mem_of_mem_erase (by rw [hrest]; exact he)
      have hgood : Good { s with
          devices := first :: rest
          currentMtdDev := some first
          currentMtdPartnum := 0 } := by
        refine ⟨hrest ▸ h.nodup.erase d, fun e he => h.dev e (hsub e he), ?_, Nat.two_pow_pos 8⟩
        intro e he
        obtain rfl := some.inj he
        refine ⟨mem_cons_self, ?_⟩
        exact length_pos_of_ne_nil (h.dev _ (hsub _ mem_cons_self)).nonempty
      obtain ⟨s', hsave, hsame⟩ := currentSave_same hgood
      simp only [hsave, map_some]
      exact ⟨0, s', rfl, hsame.good hgood, fun p hp =>
        ⟨fun hnot => absurd (hall p hp) hnot, fun _ => hsame.num⟩⟩
  · have hgood := h.erase hcur
    obtain ⟨s', hindex, hsame⟩ := indexPartitions_same hgood
    simp only [if_neg hcur, hindex, map_some]
    refine ⟨0, s', rfl, hsame.good hgood, fun p hp => ⟨fun _ => ?_, fun hdel => ?_⟩⟩
    · rw [hsame.current]
      exact hp
    · obtain ⟨e, he, hop⟩ := hdel
      cases hop
      exact absurd he hcur

theorem found_split {l : List PartInfo} (h : addr ∈ l.map PartInfo.addr) :
    ∃ front part back, l = front ++ part :: back ∧ part.addr = addr ∧
      l.find? (·.addr = addr) = some part ∧ l.eraseP (·.addr = addr) = front ++ back := by
  induction l with
  | nil => simp at h
  | cons x l ih =>
    by_cases hx : x.addr = addr
    · exact ⟨[], x, l, rfl, hx, by simp [hx], by simp [hx]⟩
    · have hmem : addr ∈ l.map PartInfo.addr := by
        cases mem_cons.mp h with
        | inl heq => exact absurd heq.symm hx
        | inr hmem => exact hmem
      obtain ⟨front, part, back, rfl, hpart, hfind, herase⟩ := ih hmem
      exact ⟨x :: front, part, back, rfl, hpart, by simpa [hx] using hfind, by simpa [hx] using herase⟩

theorem DevOk.remove (h : DevOk dev)
    (hparts : dev.parts = front ++ part :: back) (hmore : dev.numParts ≠ 1) :
    DevOk { dev with parts := front ++ back, numParts := (dev.numParts + 2 ^ 16 - 1) % 2 ^ 16 } := by
  have hsub : (front ++ back).Sublist dev.parts := by
    rw [hparts]
    exact List.Sublist.append (List.Sublist.refl _) (sublist_cons_self _ _)
  have hlen : dev.parts.length = (front ++ back).length + 1 := by
    rw [hparts]
    simp only [length_append, length_cons]
    lia
  have hword := h.word
  have hcount := h.count
  refine ⟨⟨h.sorted.sublist hsub, ?_⟩, ?_, ?_, h.apart.sublist (hsub.map _)⟩
  · simp only
    lia
  · simp only
    lia
  · intro hnil
    simp only at hnil
    rw [hnil] at hlen
    simp only [length_nil] at hlen
    lia

theorem current_falls (hs : (front ++ part :: back).Pairwise fun p q => p.offset ≤ q.offset)
    (hn : (front ++ part :: back)[n]? = some curr) (hne : curr ≠ part)
    (htie : part.offset = curr.offset → front.length ≤ n) :
    if part.offset ≤ curr.offset then 0 < n ∧ (front ++ back)[n - 1]? = some curr
    else (front ++ back)[n]? = some curr := by
  obtain ⟨-, htail, hcross⟩ := pairwise_append.mp hs
  have hat : n ≠ front.length := by
    intro heq
    rw [heq, getElem?_append_right (le_refl _), Nat.sub_self] at hn
    exact hne (some.inj hn).symm
  by_cases hfront : n < front.length
  · rw [getElem?_append_left hfront] at hn
    have hle := hcross curr (mem_of_getElem? hn) part mem_cons_self
    have hgt : ¬ part.offset ≤ curr.offset := by
      intro h
      have := htie (by lia)
      lia
    rw [if_neg hgt, getElem?_append_left hfront]
    exact hn
  · have hins := getElem?_insert front back part (n - 1)
    rw [if_neg (by lia), Nat.sub_add_cancel (by lia), hn] at hins
    have hle : part.offset ≤ curr.offset := by
      rw [getElem?_append_right (by lia), show n - front.length = n - front.length - 1 + 1 by lia,
        getElem?_cons_succ] at hn
      exact (pairwise_cons.mp htail).1 curr (mem_of_getElem? hn)
    rw [if_pos hle]
    exact ⟨by lia, hins.symm⟩

theorem removed_kept (h : Good s) (hcur : s.currentMtdDev = some d) (hcs : current s = some curr)
    (hdev : DevOk dev) (hbyte : n < 2 ^ 8) (hn : n < dev.parts.length)
    (hself : curr.addr = addr → n = 0) (hother : curr.addr ≠ addr → dev.parts[n]? = some curr) :
    ∃ (ret : ℤ) (s' : State),
      (currentSave { s.setDev d dev with currentMtdPartnum := n }).map ((0, ·)) = some (ret, s') ∧
      Good s' ∧ Kept s (.del d addr) s' := by
  have hgood := h.setDev (d := d) hdev hbyte (fun _ => hn) (fun hne => absurd hcur hne)
  obtain ⟨s', hsave, hsame⟩ := currentSave_same hgood
  rw [hsave]
  refine ⟨0, s', rfl, hsame.good hgood, fun p hp => ?_⟩
  obtain rfl := some.inj (hcs.symm.trans hp)
  refine ⟨fun hnot => ?_, fun hdel => ?_⟩
  · rw [hsame.current, current_setDev hcur hdev]
    exact hother fun heq => hnot ⟨d, hcur, by rw [heq]⟩
  · obtain ⟨e, -, hop⟩ := hdel
    cases hop
    rw [hsame.num]
    exact hself rfl

theorem partDel_kept (h : Good s) (hd : d ∈ s.devices)
    (haddr : addr ∈ (s.heap d).parts.map PartInfo.addr) (htie : NoTie s d addr) :
    ∃ ret s', partDel s d addr = some (ret, s') ∧ Good s' ∧ Kept s (.del d addr) s' := by
  have hok := h.dev d hd
  rw [partDel]
  by_cases hone : (s.heap d).numParts = 1
  · simp only [if_pos hone]
    exact deviceDel_kept h haddr (by rw [← hok.count]; exact hone)
  obtain ⟨front, part, back, hparts, hpart, hfind, herase⟩ := found_split haddr
  have hless := hok.remove hparts hone
  simp only [if_neg hone, hfind, herase]
  by_cases hcur : s.currentMtdDev = some d
  · obtain ⟨curr, hcurr⟩ : ∃ curr, (s.heap d).parts[s.currentMtdPartnum]? = some curr :=
      ⟨_, getElem?_eq_getElem (h.cur d hcur).2⟩
    have hcs : current s = some curr := (h.current_eq hcur).trans hcurr
    have hbyte := h.byte
    simp only [currentAfterDel, if_pos hcur, mtdPartInfo_eq hok.toInOrder, hcurr]
    by_cases hself : curr.addr = part.addr
    · simp only [if_pos hself, if_true]
      exact removed_kept h hcur hcs hless (by decide) (length_pos_of_ne_nil hless.nonempty)
        (fun _ => rfl) (fun hne => absurd (hself.trans hpart) hne)
    · have hne : curr.addr ≠ addr := fun heq => hself (heq.trans hpart.symm)
      have hfalls := current_falls (hparts ▸ hok.sorted) (hparts ▸ hcurr)
        (fun heq => hself (by rw [heq]))
        (fun heq => htie front.length part curr hcur hcs (by rw [hparts]; simp) hpart heq)
      by_cases hle : part.offset ≤ curr.offset
      · rw [if_pos hle] at hfalls
        have hnum : (s.currentMtdPartnum + 2 ^ 8 - 1) % 2 ^ 8 = s.currentMtdPartnum - 1 := by lia
        simp only [if_neg hself, if_pos hle, if_true, hnum]
        exact removed_kept h hcur hcs hless (by lia) (List.getElem?_eq_some_iff.mp hfalls.2).1
          (fun heq => absurd heq hne) (fun _ => hfalls.2)
      · rw [if_neg hle] at hfalls
        simp only [if_neg hself, if_neg hle, if_true]
        exact removed_kept h hcur hcs hless hbyte (List.getElem?_eq_some_iff.mp hfalls).1
          (fun heq => absurd heq hne) (fun _ => hfalls)
  · have hgood : Good (s.setDev d _) :=
      h.setDev hless h.byte (fun hc => absurd hc hcur) (fun _ => rfl)
    obtain ⟨s', hindex, hsame⟩ := indexPartitions_same hgood
    refine ⟨0, s', ?_, hsame.good hgood, fun p hp => ⟨fun _ => ?_, fun hdel => ?_⟩⟩
    · simp only [currentAfterDel, if_neg hcur]
      exact congrArg (Option.map ((0 : ℤ), ·)) hindex
    · rw [hsame.current, current_setDev_other hcur]
      exact hp
    · obtain ⟨e, he, hop⟩ := hdel
      cases hop
      exact absurd he hcur

theorem deviceAdd_steady (h : Good s) (hd : d ∉ s.devices)
    (hdev : DevOk (s.heap d)) : ∃ s', deviceAdd s d = some s' ∧ Steady s s' := by
  rw [deviceAdd]
  by_cases hempty : s.devices = []
  · have hgood : Good { s with
        currentMtdDev := some d
        currentMtdPartnum := 0
        devices := [d] } := by
      refine ⟨nodup_singleton d, ?_, ?_, Nat.two_pow_pos 8⟩
      · intro e he
        rw [mem_singleton.mp he]
        exact hdev
      · intro e he
        obtain rfl := some.inj he
        exact ⟨mem_singleton_self _, length_pos_of_ne_nil hdev.nonempty⟩
    obtain ⟨s', hsave, hsame⟩ := currentSave_same hgood
    rw [if_pos hempty]
    refine ⟨s', hsave, hsame.good hgood, fun p hp => ?_⟩
    -- no device, so no current one
    cases hc : s.currentMtdDev with
    | none => simp [current, hc] at hp
    | some e =>
      have hmem := (h.cur e hc).1
      rw [hempty] at hmem
      simp at hmem
  · have hgood : Good { s with devices := s.devices ++ [d] } := by
      refine ⟨?_, ?_, ?_, h.byte⟩
      · exact h.nodup.append (nodup_singleton d) (by simpa using hd)
      · intro e he
        cases mem_append.mp he with
        | inl hmem => exact h.dev e hmem
        | inr hnew =>
          rw [mem_singleton.mp hnew]
          exact hdev
      · intro e he
        exact ⟨mem_append_left _ (h.cur e he).1, (h.cur e he).2⟩
    obtain ⟨s', hindex, hsame⟩ := indexPartitions_same hgood
    rw [if_neg hempty]
    refine ⟨s', hindex, hsame.good hgood, fun p hp => ?_⟩
    rw [hsame.current]
    exact hp

theorem Steady.kept {op : Op} (h : Steady s s') (hop : ∀ d addr, op ≠ .del d addr) :
    Good s' ∧ Kept s op s' := by
  refine ⟨h.1, fun p hp => ⟨fun _ => h.2 p hp, fun hdel => ?_⟩⟩
  obtain ⟨d, -, heq⟩ := hdel
  exact absurd heq (hop d p.addr)

theorem step_kept {op : Op} (h : Good s) (hlegal : Legal s op) (hcareful : Careful f s op) :
    ∃ ret s', step f s op = some (ret, s') ∧ Good s' ∧ Kept s op s' := by
  cases op with
  | add d part =>
    obtain ⟨ret, s', hstep, hsteady⟩ := partAdd_steady h hlegal.1 hlegal.2 hcareful
    exact ⟨ret, s', hstep, hsteady.kept (by simp)⟩
  | sortAdd d part =>
    obtain ⟨ret, s', hstep, hsteady⟩ := partSortAdd_steady h hlegal.1 hlegal.2 hcareful
    exact ⟨ret, s', hstep, hsteady.kept (by simp)⟩
  | del d addr => exact partDel_kept h hlegal.1 hlegal.2 hcareful
  | deviceAdd d =>
    obtain ⟨s', hstep, hsteady⟩ := deviceAdd_steady h hlegal.1 hlegal.2
    exact ⟨0, s', by simp [step, hstep], hsteady.kept (by simp)⟩

theorem Reach.good {s₀ : State} (h₀ : Good s₀) (h : Reach f s₀ s) : Good s := by
  induction h with
  | start => exact h₀
  | step _ hlegal hcareful hstep ih =>
    obtain ⟨ret, s', hstep', hgood, -⟩ := step_kept ih hlegal hcareful
    rw [hstep] at hstep'
    cases hstep'
    exact hgood

theorem current_partition_stable {f : Flash} {s₀ s : State} (h₀ : Good s₀) (h : Reach f s₀ s) :
    (∀ d ∈ s.devices, InOrder (s.heap d)) ∧
    ∀ op, Legal s op → Careful f s op →
      ∃ ret s', step f s op = some (ret, s') ∧ Kept s op s' ∧
        ∀ d ∈ s'.devices, InOrder (s'.heap d) := by
  have hgood := h.good h₀
  refine ⟨fun d hd => (hgood.dev d hd).toInOrder, fun op hlegal hcareful => ?_⟩
  obtain ⟨ret, s', hstep, hgood', hkept⟩ := step_kept hgood hlegal hcareful
  exact ⟨ret, s', hstep, hkept, fun d hd => (hgood'.dev d hd).toInOrder⟩

/- Three partitions of a NOR flash, the last two at the same offset. -/
def bootPart : PartInfo := ⟨100, "boot".toList, false, 0x10000, 0, 0, 0x1000⟩
def envPart : PartInfo := ⟨101, "env".toList, false, 0x10000, 0x10000, 0, 0x1000⟩
def allPart : PartInfo := ⟨102, "all".toList, false, 0x70000, 0x10000, 0, 0x1000⟩

def norId : MtdIds := ⟨.nor, 0, 0x80000, "flash".toList⟩

def norFlash : Flash := ⟨32, fun _ _ => some ⟨0x1000, []⟩⟩

/- The partition number `n` of the flash is the current one. -/
def threeParts (n : ℕ) : State where
  heap := fun _ => ⟨norId, 3, [bootPart, envPart, allPart]⟩
  devices := [0]
  currentMtdDev := some 0
  currentMtdPartnum := n
  lastPartition := []
  partition := none
  mtddevnum := none
  mtddevname := none

theorem threeParts_good (hn : n < 3) : Good (threeParts n) where
  nodup := nodup_singleton 0
  dev := fun _ _ => ⟨⟨by simp [threeParts, bootPart, envPart, allPart], rfl⟩, by simp [threeParts],
    cons_ne_nil _ _, by simp [threeParts, bootPart, envPart, allPart]⟩
  cur := fun d hd => by
    obtain rfl := some.inj hd
    exact ⟨mem_singleton_self 0, hn⟩
  byte := lt_trans hn (by decide)

/- The last of the three is the current one, and the one before it, at its offset, is
   deleted. -/
theorem current_partition_stable_three :
    (∀ d ∈ (threeParts 2).devices, InOrder ((threeParts 2).heap d)) ∧
      ∃ ret s', step norFlash (threeParts 2) (.del 0 101) = some (ret, s') ∧
        Kept (threeParts 2) (.del 0 101) s' ∧ ∀ d ∈ s'.devices, InOrder (s'.heap d) := by
  have h := current_partition_stable (f := norFlash) (threeParts_good (by decide : 2 < 3)) .start
  refine ⟨h.1, h.2 (.del 0 101) ⟨by decide, by decide⟩ ?_⟩
  intro i part curr _ _ hpart haddr _
  by_contra hlt
  have hnone : (threeParts 2 |>.heap 0).parts[i]? = none := getElem?_eq_none (by
    have hnum : (threeParts 2).currentMtdPartnum = 2 := rfl
    have hlen : ((threeParts 2).heap 0).parts.length = 3 := rfl
    lia)
  rw [hnone] at hpart
  cases hpart

/- The second of the three is the current one, and the last is deleted: the number goes back
   to the first. -/
theorem tie_moves_current :
    Good (threeParts 1) ∧ Legal (threeParts 1) (.del 0 102) ∧
    current (threeParts 1) = some envPart ∧ ¬ Deletes (threeParts 1) (.del 0 102) envPart ∧
    (step norFlash (threeParts 1) (.del 0 102)).map (fun r => current r.2) =
      some (some bootPart) := by
  refine ⟨threeParts_good (by decide), ⟨by decide, by decide⟩, by decide, ?_, by decide⟩
  rintro ⟨d, -, hop⟩
  cases hop

end UBoot.Mtd
