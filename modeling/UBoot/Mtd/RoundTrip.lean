import UBoot.Mtd.Current
import UBoot.Mtd.TextParts

/-!
# Parsing what was written

A text that `generate_mtdparts` writes is parsed to the same devices with the same partitions.
-/

namespace UBoot.Mtd

open Function List Option

section Adding

variable {s : State} {d : ℕ}

/- The state behind some additions to the device `d`, with no current device. -/
structure Grown (s s' : State) (d : ℕ) : Prop where
  current : s'.currentMtdDev = none
  devices : s'.devices = s.devices
  others : ∀ e, e ≠ d → s'.heap e = s.heap e
  id : (s'.heap d).id = (s.heap d).id

theorem Grown.trans {s₁ s₂ : State} (h : Grown s s₁ d) (h' : Grown s₁ s₂ d) : Grown s s₂ d :=
  ⟨h'.current, h'.devices.trans h.devices, fun e he => (h'.others e he).trans (h.others e he),
    h'.id.trans h.id⟩

theorem insertSorted_some {part : PartInfo} : ∀ {l : List PartInfo},
    (part.offset = 0 → ∀ p ∈ l, p.offset ≠ 0) → ∃ r, insertSorted part l = some r := by
  intro l
  induction l with
  | nil => exact fun _ => ⟨_, rfl⟩
  | cons pi rest ih =>
    intro h
    obtain ⟨r, hr⟩ := ih fun hzero p hp => h hzero p (mem_cons_of_mem _ hp)
    have hok : ¬ (part.offset = pi.offset ∧ pi.offset = 0) := by
      rintro ⟨heq, hzero⟩
      exact h (heq.trans hzero) pi mem_cons_self hzero
    rw [insertSorted, if_neg hok]
    split
    · exact ⟨_, rfl⟩
    · rw [hr]
      exact ⟨_, rfl⟩

theorem partSortAdd_grown {part : PartInfo} (hcur : s.currentMtdDev = none)
    (hsorted : (s.heap d).parts.Pairwise fun p q => p.offset ≤ q.offset)
    (hzero : part.offset = 0 → ∀ p ∈ (s.heap d).parts, p.offset ≠ 0) :
    ∃ s', partSortAdd s d part = some (0, s') ∧ Grown s s' d ∧
      (s'.heap d).parts.Perm (part :: (s.heap d).parts) ∧
      (s'.heap d).parts.Pairwise (fun p q => p.offset ≤ q.offset) ∧
      (s'.heap d).numParts = ((s.heap d).numParts + 1) % 2 ^ 16 := by
  obtain ⟨⟨parts, before⟩, hins⟩ := insertSorted_some hzero
  obtain ⟨front, back, hparts, rfl, rfl, hfront, hback⟩ := insertSorted_spec hins
  have hindex : ∀ dev, indexPartitions (s.setDev d dev) =
      some { s.setDev d dev with mtddevnum := none, mtddevname := none } := by
    intro dev
    rw [indexPartitions]
    simp only [State.setDev, hcur]
  have hadd : partSortAdd s d part = some (0, { s.setDev d { s.heap d with
      parts := front ++ part :: back
      numParts := ((s.heap d).numParts + 1) % 2 ^ 16 } with mtddevnum := none, mtddevname := none }) := by
    rw [partSortAdd]
    split
    · next hempty =>
      rw [hempty] at hparts
      obtain ⟨rfl, rfl⟩ := append_eq_nil_iff.mp hparts.symm
      rw [hindex]
      rfl
    · have hnone : (if s.currentMtdDev = some d then mtdPartInfo (s.heap d) s.currentMtdPartnum
          else none) = none := if_neg (by rw [hcur]; exact some_ne_none d |>.symm)
      simp only [hins, hnone, hindex, map_some]
      cases back.head? with
      | none => rfl
      | some pi => rfl
  rw [hparts] at hsorted
  refine ⟨_, hadd, ⟨hcur, rfl, fun e he => update_of_ne he _ _, ?_⟩, ?_, ?_, ?_⟩
  · show (update s.heap d _ d).id = _
    rw [update_self]
  · show (update s.heap d _ d).parts.Perm _
    rw [update_self, hparts]
    exact perm_middle
  · show (update s.heap d _ d).parts.Pairwise _
    rw [update_self]
    exact sorted_insert hsorted hfront hback
  · show (update s.heap d _ d).numParts = _
    rw [update_self]

theorem addParts_grown (parts : List PartInfo) : ∀ {s : State}, s.currentMtdDev = none →
    ((s.heap d).parts.Pairwise fun p q => p.offset ≤ q.offset) →
    (parts.Pairwise fun p q => p.offset = 0 → q.offset ≠ 0) →
    (∀ p ∈ parts, p.offset = 0 → ∀ q ∈ (s.heap d).parts, q.offset ≠ 0) →
    (s.heap d).numParts + parts.length < 2 ^ 16 →
    ∃ s', addParts s d parts = some (0, s') ∧ Grown s s' d ∧
      (s'.heap d).parts.Perm (parts ++ (s.heap d).parts) ∧
      (s'.heap d).parts.Pairwise (fun p q => p.offset ≤ q.offset) ∧
      (s'.heap d).numParts = (s.heap d).numParts + parts.length := by
  induction parts with
  | nil =>
    intro s hcur hsorted _ _ _
    exact ⟨s, rfl, ⟨hcur, rfl, fun _ _ => rfl, rfl⟩, List.Perm.refl _, hsorted, rfl⟩
  | cons part parts ih =>
    intro s hcur hsorted hpair hzero hnum
    rw [length_cons] at hnum
    obtain ⟨s₁, hadd, hgrown, hperm, hsorted₁, hnum₁⟩ := partSortAdd_grown hcur hsorted
      (hzero part mem_cons_self)
    rw [Nat.mod_eq_of_lt (by lia)] at hnum₁
    obtain ⟨hpart, hrest⟩ := pairwise_cons.mp hpair
    have hzero₁ : ∀ p ∈ parts, p.offset = 0 → ∀ q ∈ (s₁.heap d).parts, q.offset ≠ 0 := by
      intro p hp hp0 q hq
      cases mem_cons.mp (hperm.mem_iff.mp hq) with
      | inl heq =>
        intro hq0
        exact hpart p hp (heq ▸ hq0) hp0
      | inr hmem => exact hzero p (mem_cons_of_mem _ hp) hp0 q hmem
    obtain ⟨s₂, hadds, hgrown₂, hperm₂, hsorted₂, hnum₂⟩ := ih hgrown.current hsorted₁ hrest hzero₁
      (by lia)
    refine ⟨s₂, ?_, hgrown.trans hgrown₂, ?_, hsorted₂, ?_⟩
    · rw [addParts, hadd]
      exact hadds
    · exact hperm₂.trans ((List.Perm.append_left parts hperm).trans perm_middle)
    · rw [hnum₂, hnum₁, length_cons]
      lia

end Adding

/- The id of a device is one of the mtdids, with a tag of its own, and its partitions are counted,
sorted, and allowed. A size that is the mark of a fill-up partition comes last. -/
structure DeviceOk (f : Flash) (ids : List MtdIds) (dev : MtdDevice) : Prop where
  known : dev.id ∈ ids
  unique : ∀ id ∈ ids, id.mtdId = dev.id.mtdId → id = dev.id
  plain : ':' ∉ dev.id.mtdId
  size : dev.id.size < 2 ^ 64
  nonempty : dev.parts ≠ []
  count : dev.numParts = dev.parts.length
  word : dev.parts.length < 2 ^ 16
  parts : ∀ p ∈ dev.parts, PartOk f dev.id p
  sorted : dev.parts.Pairwise fun p q => p.offset ≤ q.offset
  zero : dev.parts.Pairwise fun p q => p.offset = 0 → q.offset ≠ 0
  fill : ∀ p ∈ dev.parts.dropLast, p.size ≠ sizeRemaining

/- The same device with the same partitions, each offset at the same place. -/
structure SameDevice (dev dev' : MtdDevice) : Prop where
  id : dev'.id = dev.id
  count : dev'.numParts = dev.numParts
  parts : (dev'.parts.map view).Perm (dev.parts.map view)
  offsets : dev'.parts.map PartInfo.offset = dev.parts.map PartInfo.offset
  order : (dev.parts.map PartInfo.offset).Nodup → dev'.parts.map view = dev.parts.map view

section Device

variable {f : Flash} {ids : List MtdIds} {dev : MtdDevice} {s : State} {d : ℕ}

theorem DeviceOk.find (h : DeviceOk f ids dev) : idFindByMtdId ids dev.id.mtdId = some dev.id := by
  rw [idFindByMtdId]
  cases hfind : ids.find? fun id => decide (id.mtdId = dev.id.mtdId) with
  | none =>
    rw [find?_eq_none] at hfind
    exact absurd (decide_eq_true rfl) (hfind dev.id h.known)
  | some id =>
    have htag := find?_some hfind
    rw [decide_eq_true_eq] at htag
    rw [h.unique id (mem_of_find?_eq_some hfind) htag]

theorem map_offset (l : List PartInfo) : (l.map view).map (fun v => v.1) = l.map PartInfo.offset := by
  rw [List.map_map]
  rfl

theorem sameDevice_of_perm {dev' : MtdDevice} (hid : dev'.id = dev.id)
    (hcount : dev'.numParts = dev.numParts) (hperm : (dev'.parts.map view).Perm (dev.parts.map view))
    (hsorted : dev.parts.Pairwise fun p q => p.offset ≤ q.offset)
    (hsorted' : dev'.parts.Pairwise fun p q => p.offset ≤ q.offset) : SameDevice dev dev' := by
  have hviews : ∀ {l : List PartInfo}, (l.Pairwise fun p q => p.offset ≤ q.offset) →
      (l.map view).Pairwise fun v w => v.1 ≤ w.1 := fun h => pairwise_map.mpr h
  refine ⟨hid, hcount, hperm, ?_, fun hnodup => ?_⟩
  · rw [← map_offset, ← map_offset]
    exact (hperm.map _).eq_of_pairwise (fun a b _ _ hab hba => le_antisymm hab hba)
      (pairwise_map.mpr (hviews hsorted')) (pairwise_map.mpr (hviews hsorted))
  · refine hperm.eq_of_pairwise (fun a b ha hb hab hba => ?_) (hviews hsorted') (hviews hsorted)
    rw [← map_offset] at hnodup
    exact inj_on_of_nodup_map hnodup (hperm.mem_iff.mp ha) hb (le_antisymm hab hba)

theorem length_partsPieces (numParts : ℕ) (parts : List PartInfo) : ∀ (cnt : ℕ) (prev : Option PartInfo),
    parts.length ≤ (partsPieces numParts cnt prev parts).flatten.length := by
  induction parts with
  | nil => exact fun _ _ => Nat.zero_le _
  | cons part parts ih =>
    intro cnt prev
    obtain ⟨c, cs, hcs, -⟩ := memsizeFormat_head part.size
    have hrest := ih (cnt + 1) (some part)
    simp only [partsPieces, partPieces, hcs, flatten_append, length_append,
      flatten_cons, flatten_nil, length_cons]
    lia

theorem deviceParse_text (hok : DeviceOk f ids dev) (hcur : s.currentMtdDev = none)
    (hnew : deviceFind s dev.id.type dev.id.num = none) (addr : ℕ) {tail : List Char}
    (htail : StartsIn [';'] tail) :
    ∃ s', deviceParse f ids s d addr (dev.id.mtdId ++ [':'] ++
          (partsPieces dev.numParts 1 none dev.parts).flatten ++ tail) = some (0, tail.drop 1, s') ∧
      s'.currentMtdDev = none ∧ s'.devices = s.devices ∧ (∀ e, e ≠ d → s'.heap e = s.heap e) ∧
      SameDevice dev (s'.heap d) := by
  have hcnt : dev.numParts + 1 = 1 + dev.parts.length := by
    rw [hok.count]
    lia
  have hfuel := length_partsPieces dev.numParts dev.parts 1 none
  generalize htext : (partsPieces dev.numParts 1 none dev.parts).flatten ++ tail = text
  obtain ⟨parsed, hparse, hviews⟩ := parseParts_text hok.size htail dev.parts 1 addr text.length none
    hok.nonempty hok.parts hok.fill hcnt (by rw [← htext, length_append]; lia)
  rw [htext] at hparse
  have hlength : parsed.length = dev.parts.length := by
    have h := congrArg List.length hviews
    rw [length_map, length_map] at h
    exact h
  have hpos : 0 < dev.parts.length := length_pos_iff.mpr hok.nonempty
  have hword := hok.word
  -- the text starts with a digit
  have hgo : ¬ (text = [] ∨ text.head? = some ';') := by
    obtain ⟨part, parts, hparts⟩ := exists_cons_of_ne_nil hok.nonempty
    obtain ⟨c, cs, hc, hcs⟩ := partsPieces_head none dev.numParts 1 part parts tail
    rw [← hparts, htext] at hcs
    rw [hcs]
    rintro (h | h)
    · cases h
    · rw [head?_cons, some.injEq] at h
      subst h
      cases hc
  have hzero : parsed.Pairwise fun p q => p.offset = 0 → q.offset ≠ 0 := by
    have h : (dev.parts.map view).Pairwise fun v w => v.1 = 0 → w.1 ≠ 0 :=
      pairwise_map.mpr hok.zero
    rw [← hviews] at h
    exact pairwise_map.mp h
  have hdev : (s.setDev d ⟨dev.id, 0, []⟩).heap d = ⟨dev.id, 0, []⟩ := update_self d _ _
  obtain ⟨s', hadds, hgrown, hperm, hsorted, hnum⟩ := addParts_grown (d := d) parsed
    (s := s.setDev d ⟨dev.id, 0, []⟩) hcur (by rw [hdev]; exact List.Pairwise.nil) hzero
    (by rw [hdev]; exact fun _ _ _ q hq => absurd hq not_mem_nil)
    (by rw [hdev]; show 0 + parsed.length < _; lia)
  rw [hdev] at hperm hnum
  refine ⟨s', ?_, hgrown.current, hgrown.devices,
    fun e he => (hgrown.others e he).trans (update_of_ne he _ _), ?_⟩
  · have hstart : startOffset s dev.id = expected none := by
      rw [startOffset, hnew]
      rfl
    rw [append_assoc, htext, append_assoc, singleton_append, deviceParse, span_at hok.plain]
    simp only [hok.find, if_neg hgo, hstart, hparse, hadds, map_some]
    rw [if_neg (by rw [hlength, Nat.mod_eq_of_lt hword]; lia)]
    cases tail with
    | nil => rfl
    | cons c p =>
      rw [mem_singleton.mp (htail c p rfl)]
      rfl
  · rw [append_nil] at hperm
    have hid : (s'.heap d).id = dev.id := by
      rw [hgrown.id, hdev]
    refine sameDevice_of_perm hid ?_ ?_ hok.sorted hsorted
    · rw [hnum, hok.count, ← hlength]
      exact Nat.zero_add _
    · rw [← hviews]
      exact hperm.map view

end Device

def Apart (devs : List MtdDevice) : Prop :=
  devs.Pairwise fun a b => ¬ (a.id.type = b.id.type ∧ a.id.num = b.id.num)

section Devices

variable {f : Flash} {ids : List MtdIds}

theorem deviceFind_none {s : State} {type : DevType} {num : ℕ}
    (h : ∀ e ∈ s.devices, ¬ ((s.heap e).id.type = type ∧ (s.heap e).id.num = num)) :
    deviceFind s type num = none := by
  rw [deviceFind, find?_eq_none]
  intro e he
  rw [decide_eq_true_eq]
  exact h e he

theorem devicesPieces_ne_nil {devs : List MtdDevice} (h : devs ≠ []) :
    (devicesPieces devs).flatten ≠ [] := by
  obtain ⟨dev, rest, rfl⟩ := exists_cons_of_ne_nil h
  rw [devicesPieces]
  simp

theorem parseDevices_text (devs : List MtdDevice) : ∀ (s : State) (fuel d addr : ℕ), devs ≠ [] →
    (∀ dev ∈ devs, DeviceOk f ids dev) → Apart devs → s.currentMtdDev = none →
    (∀ e ∈ s.devices, e < d) →
    (∀ e ∈ s.devices, ∀ dev ∈ devs,
      ¬ ((s.heap e).id.type = dev.id.type ∧ (s.heap e).id.num = dev.id.num)) →
    devs.length ≤ fuel →
    ∃ s' new, parseDevices f ids fuel s d addr (devicesPieces devs).flatten = some (0, s') ∧
      s'.devices = s.devices ++ new ∧ (∀ e < d, s'.heap e = s.heap e) ∧
      List.Forall₂ SameDevice devs (new.map s'.heap) := by
  induction devs with
  | nil => exact fun _ _ _ _ hne => absurd rfl hne
  | cons dev devs ih =>
    intro s fuel d addr _ hok hapart hcur hbelow hnew hfuel
    rw [length_cons] at hfuel
    obtain _ | fuel := fuel
    · lia
    obtain ⟨hdev, hrest⟩ := pairwise_cons.mp hapart
    have hnone := deviceFind_none fun e he => hnew e he dev mem_cons_self
    -- what comes behind the device
    obtain ⟨tail, htail, hdrop, htext⟩ : ∃ tail, StartsIn [';'] tail ∧
        tail.drop 1 = (devicesPieces devs).flatten ∧ (devicesPieces (dev :: devs)).flatten =
          dev.id.mtdId ++ [':'] ++ (partsPieces dev.numParts 1 none dev.parts).flatten ++ tail := by
      cases devs with
      | nil => exact ⟨[], (fun c p h => by cases h), rfl, by simp [devicesPieces]⟩
      | cons dev' devs =>
        refine ⟨';' :: (devicesPieces (dev' :: devs)).flatten, startsIn_cons (by decide), rfl, ?_⟩
        rw [devicesPieces, if_neg (cons_ne_nil _ _)]
        simp
    obtain ⟨s₁, hparse, hcur₁, hdevices, hheap, hsame⟩ := deviceParse_text (d := d)
      (hok dev mem_cons_self) hcur hnone addr htail
    have hkept : ∀ e ∈ s.devices, s₁.heap e = s.heap e := fun e he => hheap e (hbelow e he).ne
    have hnone₁ : deviceFind s₁ (s₁.heap d).id.type (s₁.heap d).id.num = none := by
      refine deviceFind_none fun e he => ?_
      rw [hdevices] at he
      rw [hkept e he, hsame.id]
      exact hnew e he dev mem_cons_self
    have hturn : parseDevices f ids (fuel + 1) s d addr (devicesPieces (dev :: devs)).flatten =
        if (devicesPieces devs).flatten = [] then some (0, { s₁ with devices := s₁.devices ++ [d] })
        else parseDevices f ids fuel { s₁ with devices := s₁.devices ++ [d] } (d + 1)
          (addr + (s₁.heap d).parts.length) (devicesPieces devs).flatten := by
      rw [htext, parseDevices, hparse, hdrop]
      simp only [hnone₁, ne_eq, not_true_eq_false, if_false]
    rw [hturn]
    by_cases hempty : devs = []
    · subst hempty
      refine ⟨{ s₁ with devices := s₁.devices ++ [d] }, [d], rfl, ?_, fun e he => hheap e he.ne, ?_⟩
      · rw [← hdevices]
      · exact List.Forall₂.cons hsame List.Forall₂.nil
    · rw [if_neg (devicesPieces_ne_nil hempty)]
      have hmem : ∀ e ∈ s₁.devices ++ [d], e ∈ s.devices ∨ e = d := by
        intro e he
        rw [mem_append, mem_singleton, hdevices] at he
        exact he
      obtain ⟨s₂, new, hrun, hnew₂, hheap₂, hsame₂⟩ := ih { s₁ with devices := s₁.devices ++ [d] } fuel
        (d + 1) (addr + (s₁.heap d).parts.length) hempty
        (fun dev' h => hok dev' (mem_cons_of_mem _ h)) hrest hcur₁
        (fun e he => by
          rcases hmem e he with h | h
          · exact (hbelow e h).trans (Nat.lt_succ_self d)
          · rw [h]
            exact Nat.lt_succ_self d)
        (fun e he dev' hdev' => by
          rcases hmem e he with h | h
          · show ¬ ((s₁.heap e).id.type = _ ∧ _)
            rw [hkept e h]
            exact hnew e h dev' (mem_cons_of_mem _ hdev')
          · subst h
            show ¬ ((s₁.heap e).id.type = _ ∧ _)
            rw [hsame.id]
            exact hdev dev' hdev') (by lia)
      refine ⟨s₂, d :: new, hrun, ?_, fun e he => ?_, ?_⟩
      · rw [hnew₂, ← hdevices]
        exact append_assoc _ [d] new
      · exact (hheap₂ e (he.trans (Nat.lt_succ_self d))).trans (hheap e he.ne)
      · rw [map_cons, hheap₂ d (Nat.lt_succ_self d)]
        exact List.Forall₂.cons hsame hsame₂

end Devices

theorem foldlM_put (pieces : List (List Char)) : ∀ {out out' : ℕ × List Char},
    pieces.foldlM put out = some out' → out'.2 = out.2 ++ pieces.flatten := by
  induction pieces with
  | nil =>
    intro out out' h
    obtain rfl := some.inj h
    rw [flatten_nil, append_nil]
  | cons piece pieces ih =>
    intro out out' h
    rw [foldlM_cons, put] at h
    split at h
    · cases h
    · have hrest := ih h
      rw [hrest, flatten_cons, append_assoc]

theorem generateMtdparts_eq {devs : List MtdDevice} {buflen : ℕ} {text : List Char} (hne : devs ≠ [])
    (h : generateMtdparts devs buflen = some text) :
    text = "mtdparts=".toList ++ (devicesPieces devs).flatten := by
  rw [generateMtdparts, if_neg hne, map_eq_some_iff] at h
  obtain ⟨out, hout, rfl⟩ := h
  exact foldlM_put _ hout

theorem length_devicesPieces (devs : List MtdDevice) :
    devs.length ≤ (devicesPieces devs).flatten.length := by
  induction devs with
  | nil => exact Nat.zero_le _
  | cons dev devs ih =>
    simp only [devicesPieces, flatten_append, length_append, flatten_cons,
      flatten_nil, length_cons, length_nil]
    lia

theorem mtdDevicesInit_empty (s : State) : ∃ s', mtdDevicesInit s = some s' ∧
    s'.currentMtdDev = none ∧ s'.devices = [] := ⟨_, rfl, rfl, rfl⟩

section RoundTrip

variable {f : Flash} {ids : List MtdIds} {devs : List MtdDevice} {buflen : ℕ} {text : List Char}

/- What was written of the devices is parsed to the same devices. Nothing is written for none. -/
theorem mtdparts_round_trip (hok : ∀ dev ∈ devs, DeviceOk f ids dev) (hapart : Apart devs)
    (hgen : generateMtdparts devs buflen = some text) (s : State) :
    devs = [] ∧ text = [] ∨ ∃ s', parseMtdparts f ids s text = some (0, s') ∧
      List.Forall₂ SameDevice devs (s'.devices.map s'.heap) := by
  by_cases hne : devs = []
  · subst hne
    exact .inl ⟨rfl, (some.inj hgen).symm⟩
  refine .inr ?_
  have htext := generateMtdparts_eq hne hgen
  obtain ⟨s₀, hinit, hcur, hdevices⟩ := mtdDevicesInit_empty s
  have hnone : ∀ e, e ∉ s₀.devices := by
    intro e he
    rw [hdevices] at he
    exact absurd he not_mem_nil
  have hfuel : devs.length ≤ text.length := by
    have h := length_devicesPieces devs
    rw [htext, length_append]
    lia
  obtain ⟨s', new, hrun, hnew, -, hsame⟩ := parseDevices_text devs s₀ text.length 0 0 hne hok hapart
    hcur (fun e he => absurd he (hnone e)) (fun e he => absurd he (hnone e)) hfuel
  rw [hdevices, nil_append] at hnew
  have hhead : text.take 9 = "mtdparts=".toList ∧ text.drop 9 = (devicesPieces devs).flatten := by
    rw [htext]
    exact ⟨rfl, rfl⟩
  refine ⟨s', ?_, ?_⟩
  · rw [parseMtdparts, hinit]
    simp only [hhead.1, hhead.2, ne_eq, not_true_eq_false, if_false,
      if_neg (devicesPieces_ne_nil hne)]
    exact hrun
  · rw [hnew]
    exact hsame

end RoundTrip

def sampleFlash : Flash := ⟨32, fun _ _ => some ⟨1024, []⟩⟩

def sampleId : MtdIds := ⟨.nor, 0, 0x2000, "nor".toList⟩

def sampleState : State := ⟨fun _ => ⟨sampleId, 0, []⟩, [], none, 0, [], none, none, none⟩

def sampleDevs : List MtdDevice :=
  [⟨sampleId, 2, [⟨0, "boot".toList, false, 4096, 0, 1, 1024⟩,
    ⟨1, "root".toList, false, 4096, 4096, 0, 1024⟩]⟩]

theorem sample_deviceOk : ∀ dev ∈ sampleDevs, DeviceOk sampleFlash [sampleId] dev := by
  intro dev hdev
  rw [sampleDevs, mem_singleton] at hdev
  subst hdev
  have hparts : ∀ p ∈ [(⟨0, "boot".toList, false, 4096, 0, 1, 1024⟩ : PartInfo),
      ⟨1, "root".toList, false, 4096, 4096, 0, 1024⟩], PartOk sampleFlash sampleId p := by
    rw [forall_mem_cons, forall_mem_singleton]
    exact ⟨⟨by decide, by decide, by decide, by decide, by decide⟩,
      ⟨by decide, by decide, by decide, by decide, by decide⟩⟩
  exact
    { known := by decide
      unique := by decide
      plain := by decide
      size := by decide
      nonempty := by decide
      count := rfl
      word := by decide
      parts := hparts
      sorted := by decide
      zero := by decide
      fill := by decide }

theorem mtdparts_round_trip_nor :
    generateMtdparts sampleDevs 512 = some "mtdparts=nor:4k(boot)ro,4k(root)".toList ∧
    ∃ s', parseMtdparts sampleFlash [sampleId] sampleState
        "mtdparts=nor:4k(boot)ro,4k(root)".toList = some (0, s') ∧
      List.Forall₂ SameDevice sampleDevs (s'.devices.map s'.heap) := by
  have hgen : generateMtdparts sampleDevs 512 = some "mtdparts=nor:4k(boot)ro,4k(root)".toList := by
    decide +kernel
  refine ⟨hgen, (mtdparts_round_trip sample_deviceOk (pairwise_singleton _ _) hgen
    sampleState).resolve_left ?_⟩
  rintro ⟨h, -⟩
  cases h

def RoundTrips (f : Flash) (ids : List MtdIds) (devs : List MtdDevice) : Prop :=
  ∀ buflen text s, generateMtdparts devs buflen = some text →
    ∃ s', parseMtdparts f ids s text = some (0, s') ∧
      (s'.devices.map s'.heap).map (fun dev => (dev.id, dev.parts.map view)) =
        devs.map fun dev => (dev.id, dev.parts.map view)

def parsed (text : String) (id : MtdIds) : Option (ℤ × List MtdDevice) :=
  (parseMtdparts sampleFlash [id] sampleState text.toList).map fun r => (r.1, r.2.devices.map r.2.heap)

theorem not_roundTrips {f : Flash} {ids : List MtdIds} {devs : List MtdDevice} {text : List Char}
    (hgen : generateMtdparts devs 512 = some text)
    (hparse : (parseMtdparts f ids sampleState text).map Prod.fst = some 1) :
    ¬ RoundTrips f ids devs := by
  intro h
  obtain ⟨s', hrun, -⟩ := h 512 text sampleState hgen
  rw [hrun, map_some] at hparse
  have hcode : (0 : ℤ) = 1 := some.inj hparse
  exact absurd hcode (by decide)

/- A fill-up partition of less than the least size, two partitions at one offset, a user's name
that is empty, and a size that is the mark of a fill-up partition. -/
def smallDev : MtdDevice :=
  ⟨⟨.nor, 0, 6144, "nor".toList⟩, 2, [⟨0, "a".toList, false, 4096, 0, 0, 1024⟩,
    ⟨1, "b".toList, false, 2048, 4096, 0, 1024⟩]⟩

def tiedDev : MtdDevice :=
  ⟨sampleId, 2, [⟨1, "b".toList, false, 4096, 1024, 0, 1024⟩,
    ⟨0, "a".toList, false, 4096, 1024, 0, 1024⟩]⟩

def namelessDev : MtdDevice := ⟨sampleId, 1, [⟨0, [], false, 4096, 0, 0, 1024⟩]⟩

def wholeDev : MtdDevice :=
  ⟨⟨.nor, 0, 2 ^ 64 - 1, "nor".toList⟩, 2, [⟨0, "a".toList, false, 2 ^ 64 - 1, 0, 0, 5⟩,
    ⟨1, "b".toList, false, 5000, 5000, 0, 5⟩]⟩

/- The sizes and the empty name are written and refused, and the partitions at one offset change
places. The first two devices come from a text. -/
theorem small_or_tied_lost :
    parsed "mtdparts=nor:4k(a),-(b)" smallDev.id = some (0, [smallDev]) ∧
    ¬ RoundTrips sampleFlash [smallDev.id] [smallDev] ∧
    parsed "mtdparts=nor:4k@1k(a),4k@1k(b)" sampleId = some (0, [tiedDev]) ∧
    ¬ RoundTrips sampleFlash [sampleId] [tiedDev] ∧
    ¬ RoundTrips sampleFlash [sampleId] [namelessDev] ∧
    ¬ RoundTrips ⟨32, fun _ _ => some ⟨5, []⟩⟩ [wholeDev.id] [wholeDev] := by
  have hsmall : generateMtdparts [smallDev] 512 = some "mtdparts=nor:4k(a),2k(b)".toList := by
    decide +kernel
  have htied : generateMtdparts [tiedDev] 512 = some "mtdparts=nor:4k@1k(b),4k@1k(a)".toList := by
    decide +kernel
  have hnameless : generateMtdparts [namelessDev] 512 = some "mtdparts=nor:4k()".toList := by
    decide +kernel
  have hwhole : generateMtdparts [wholeDev] 512 =
      some "mtdparts=nor:18446744073709551615(a),5000@5000(b)".toList := by decide +kernel
  refine ⟨by decide +kernel, not_roundTrips hsmall (by decide +kernel), by decide +kernel, fun h => ?_,
    not_roundTrips hnameless (by decide +kernel), not_roundTrips hwhole (by decide +kernel)⟩
  obtain ⟨s', hparse, hsame⟩ := h 512 _ sampleState htied
  have hnames : (parseMtdparts sampleFlash [sampleId] sampleState
      "mtdparts=nor:4k@1k(b),4k@1k(a)".toList).map (fun r =>
        ((r.2.devices.map r.2.heap).map (fun dev => (dev.id, dev.parts.map view))).map
          fun v => v.2.map fun p => p.2.2.1) =
      some [[some "a".toList, some "b".toList]] := by decide +kernel
  rw [hparse, map_some, hsame] at hnames
  exact absurd (some.inj hnames) (by decide)

end UBoot.Mtd
