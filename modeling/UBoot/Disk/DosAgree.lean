import UBoot.Disk.DosScan

/-!
# The listing and the lookup

The two scans number the entries of a plain disk alike. They part where a record has a second
extended entry, another boot indicator, or the boot signature but not the look of an MBR.
-/

namespace UBoot.Dos

open Memory Walks Relation List Option

section Numbers

variable {sector partNum : ℕ} {ps : List DosPartition} {x : ℕ × DosPartition}

theorem le_lastNum (sector partNum : ℕ) (ps : List DosPartition) :
    partNum ≤ lastNum sector partNum ps := by
  induction ps generalizing partNum with
  | nil => exact le_refl _
  | cons p ps ih =>
    have hbump : partNum ≤ bump sector partNum p := by
      unfold bump
      split
      · omega
      · exact le_refl _
    exact hbump.trans (ih _)

theorem le_of_mem_numbered (h : x ∈ numbered sector partNum ps) : partNum ≤ x.1 := by
  induction ps generalizing partNum with
  | nil => simp [numbered] at h
  | cons p ps ih =>
    cases mem_cons.mp h with
    | inl h => rw [h]
    | inr h => exact (le_lastNum sector partNum [p]).trans (ih h)

theorem lt_lastNum (h : x ∈ numbered sector partNum ps) (hc : counted sector x.2 = true) :
    x.1 < lastNum sector partNum ps := by
  induction ps generalizing partNum with
  | nil => simp [numbered] at h
  | cons p ps ih =>
    cases mem_cons.mp h with
    | inl h =>
      subst h
      have hbump : bump sector partNum p = partNum + 1 := if_pos hc
      have hle := le_lastNum sector (bump sector partNum p) ps
      rw [hbump] at hle
      exact hle.trans_eq (by rw [lastNum, lastNum, foldl_cons, hbump])
    | inr h => exact ih h

theorem mem_of_mem_numbered (h : x ∈ numbered sector partNum ps) : x.2 ∈ ps := by
  induction ps generalizing partNum with
  | nil => simp [numbered] at h
  | cons p ps ih =>
    cases mem_cons.mp h with
    | inl h =>
      rw [h]
      exact mem_cons_self ..
    | inr h => exact mem_cons_of_mem _ (ih h)

theorem counted_of_shown {p : DosPartition} (h : shown sector p = true) : counted sector p = true := by
  simp only [shown, Bool.and_eq_true, Bool.or_eq_true] at h
  simp only [counted, Bool.or_eq_true, Bool.and_eq_true]
  obtain ⟨hused, hzero | hplain⟩ := h
  · exact .inl hzero
  · exact .inr ⟨hused, hplain⟩

theorem pairwise_shown (sector partNum : ℕ) (ps : List DosPartition) :
    ((numbered sector partNum ps).filter fun x => shown sector x.2).Pairwise fun x y => x.1 < y.1 := by
  induction ps generalizing partNum with
  | nil => exact List.Pairwise.nil
  | cons p ps ih =>
    rw [numbered, filter_cons]
    split
    · next hs =>
      refine pairwise_cons.mpr ⟨?_, ih _⟩
      intro y hy
      have hbump : bump sector partNum p = partNum + 1 := if_pos (counted_of_shown hs)
      have hle := le_of_mem_numbered (mem_of_mem_filter hy)
      rw [hbump] at hle
      exact hle
    · exact ih _

end Numbers

structure PlainRecord (buffer : Mem) : Prop where
  kind : testBlockType buffer = .mbr ∨ signed buffer = false
  single : testBlockType buffer = .mbr → (extendedSlots buffer).length ≤ 1
  bootInd : testBlockType buffer = .mbr → ∀ p ∈ slots buffer, p.sysInd ≠ 0 →
    isExtended p.sysInd = false → p.bootInd = 0 ∨ p.bootInd = 0x80

def Plain (d : BlkDesc) : Prop :=
  ∀ pos buffer, ReflTransGen (Edge (printNext d)) (0, 0) pos → d.read pos.1 = some buffer →
    PlainRecord buffer

def linesOf (outs : List Output) : List Line :=
  outs.filterMap fun
    | .part line => some line
    | _ => none

@[simp] theorem linesOf_append (xs ys : List Output) :
    linesOf (xs ++ ys) = linesOf xs ++ linesOf ys := filterMap_append

@[simp] theorem linesOf_part (ls : List Line) : linesOf (ls.map Output.part) = ls := by
  induction ls with
  | nil => rfl
  | cons l ls ih =>
    rw [map_cons, linesOf, filterMap_cons]
    exact congrArg (l :: ·) ih

def recordLines (d : BlkDesc) (sector sig partNum : ℕ) (buffer : Mem) : List Line :=
  ((numbered sector partNum (slots buffer)).filter fun x => shown sector x.2).map
    fun x => printOnePart d x.2 sector x.1 sig

section Records

variable {d : BlkDesc} {pos : Position} {partNum sig depth : ℕ} {buffer : Mem} {out : List Output}

theorem print_succ_cases (h : printPartitionExtended d (depth + 1) pos partNum sig = some out)
    (hplain : ∀ buffer, d.read pos.1 = some buffer → PlainRecord buffer) :
    (linesOf out = [] ∧ printNext d pos = [] ∧
      ∀ buffer, d.read pos.1 = some buffer → signed buffer = false) ∨
    ∃ buffer, d.read pos.1 = some buffer ∧ testBlockType buffer = .mbr ∧
      ((extendedSlots buffer = [] ∧ linesOf out =
          recordLines d pos.1 (recordSig buffer pos.1 sig) partNum buffer) ∨
        ∃ p rest, extendedSlots buffer = [p] ∧
          printPartitionExtended d depth (d.follow pos.1 pos.2 p)
            (lastNum pos.1 partNum (slots buffer)) (recordSig buffer pos.1 sig) = some rest ∧
          linesOf out = recordLines d pos.1 (recordSig buffer pos.1 sig) partNum buffer ++
            linesOf rest) := by
  obtain ⟨sector, relative⟩ := pos
  unfold printPartitionExtended at h
  cases hread : d.read sector with
  | none =>
    simp only [hread, some.injEq] at h
    left
    subst h
    exact ⟨rfl, by simp [printNext, hread], fun b hb => by simp at hb⟩
  | some buffer =>
    have hrec := hplain buffer hread
    simp only [hread] at h
    by_cases htype : testBlockType buffer = .mbr
    · right
      rw [if_neg (not_not.mpr htype), printSlots_eq] at h
      refine ⟨buffer, rfl, htype, ?_⟩
      have hsingle := hrec.single htype
      change Option.map _ ((extendedSlots buffer).mapM _) = some out at h
      cases hext : extendedSlots buffer with
      | nil =>
        left
        rw [hext] at h
        simp only [mapM_nil, Option.pure_def, map_some, flatten_nil, append_nil, some.injEq] at h
        subst h
        exact ⟨rfl, linesOf_part _⟩
      | cons p ps =>
        right
        have hnil : ps = [] := by
          rw [hext] at hsingle
          simpa using hsingle
        subst hnil
        rw [hext] at h
        obtain ⟨outs, houts, rfl⟩ := map_eq_some_iff.mp h
        rw [mapM_cons, mapM_nil] at houts
        cases hrest : printPartitionExtended d depth (d.follow sector relative p)
            (lastNum sector partNum (slots buffer)) (recordSig buffer sector sig) with
        | none => simp [hrest] at houts
        | some rest =>
          simp only [hrest, Option.pure_def, bind_eq_bind, bind_some, some.injEq] at houts
          subst houts
          refine ⟨p, rest, rfl, hrest, ?_⟩
          rw [linesOf_append, linesOf_part, flatten_singleton]
          rfl
    · left
      rw [if_pos htype, some.injEq] at h
      subst h
      refine ⟨rfl, by simp [printNext, hread, htype], ?_⟩
      intro b hb
      cases hrec.kind with
      | inl hm => exact absurd hm htype
      | inr hs =>
        obtain rfl := some.inj hb
        exact hs

theorem edge_single {p : DosPartition} (hread : d.read pos.1 = some buffer)
    (htype : testBlockType buffer = .mbr) (hext : extendedSlots buffer = [p]) :
    Edge (printNext d) pos (d.follow pos.1 pos.2 p) := by
  unfold Edge printNext
  simp [hread, htype, hext]

theorem recordLines_bounds {line : Line} (h : line ∈ recordLines d pos.1 sig partNum buffer) :
    partNum ≤ line.partNum ∧ line.partNum < lastNum pos.1 partNum (slots buffer) := by
  obtain ⟨x, hx, rfl⟩ := mem_map.mp h
  obtain ⟨hmem, hs⟩ := mem_filter.mp hx
  exact ⟨le_of_mem_numbered hmem, lt_lastNum hmem (counted_of_shown hs)⟩

theorem recordLines_pairwise (d : BlkDesc) (sector sig partNum : ℕ) (buffer : Mem) :
    (recordLines d sector sig partNum buffer).Pairwise fun l l' => l.partNum < l'.partNum :=
  pairwise_map.mpr (pairwise_shown sector partNum (slots buffer))

theorem print_numbers (hp : Plain d) (hreach : ReflTransGen (Edge (printNext d)) (0, 0) pos)
    (h : printPartitionExtended d depth pos partNum sig = some out) :
    (∀ l ∈ linesOf out, partNum ≤ l.partNum) ∧
      (linesOf out).Pairwise fun l l' => l.partNum < l'.partNum := by
  induction depth generalizing pos partNum sig out with
  | zero => simp [printPartitionExtended] at h
  | succ depth ih =>
    obtain ⟨hnil, -, -⟩ | ⟨buffer, hread, htype, ⟨-, hlines⟩ | ⟨p, rest, hext, hrest, hlines⟩⟩ :=
      print_succ_cases h fun buffer hread => hp pos buffer hreach hread
    · rw [hnil]
      exact ⟨fun l hl => absurd hl not_mem_nil, List.Pairwise.nil⟩
    · rw [hlines]
      exact ⟨fun l hl => (recordLines_bounds hl).1, recordLines_pairwise d _ _ _ buffer⟩
    · obtain ⟨hfrom, hpair⟩ := ih (hreach.tail (edge_single hread htype hext)) hrest
      rw [hlines]
      constructor
      · intro l hl
        cases mem_append.mp hl with
        | inl hl => exact (recordLines_bounds hl).1
        | inr hl => exact (le_lastNum _ _ _).trans (hfrom l hl)
      · refine pairwise_append.mpr ⟨recordLines_pairwise d _ _ _ buffer, hpair, ?_⟩
        intro l hl l' hl'
        exact (recordLines_bounds hl).2.trans_le (hfrom l' hl')

theorem signed_of_mbr (h : testBlockType buffer = .mbr) : signed buffer = true := by
  by_contra hs
  unfold testBlockType at h
  rw [if_neg hs] at h
  cases h

theorem shown_iff_usable (hrec : PlainRecord buffer) (htype : testBlockType buffer = .mbr)
    {p : DosPartition} (hmem : p ∈ slots buffer) (sector : ℕ) :
    (shown sector p = true ∧ isExtended p.sysInd = false) ↔ usable p = true := by
  have hboot := hrec.bootInd htype p hmem
  simp only [shown, usable, Bool.and_eq_true, Bool.or_eq_true, bne_iff_ne, ne_eq,
    Bool.not_eq_true', beq_iff_eq]
  constructor
  · intro h
    obtain ⟨⟨hused, -⟩, hplain⟩ := h
    refine ⟨⟨?_, hused⟩, hplain⟩
    cases hboot hused hplain with
    | inl h => rw [h]; rfl
    | inr h => rw [h]; rfl
  · intro h
    obtain ⟨⟨-, hused⟩, hplain⟩ := h
    exact ⟨⟨hused, .inr hplain⟩, hplain⟩

/- A listed partition with the number `part`. -/
def Listed (ls : List Line) (part : ℤ) (start size : ℕ) : Prop :=
  ∃ l ∈ ls, (l.partNum : ℤ) = part ∧ l.start = start ∧ l.size = size ∧ isExtended l.sysInd = false

def Found (r : Option DiskPartition) (start size : ℕ) : Prop :=
  ∃ info, r = some info ∧ info.start = start ∧ info.size = size

theorem listed_record_iff (hrec : PlainRecord buffer) (htype : testBlockType buffer = .mbr)
    (part : ℤ) (start size : ℕ) :
    Listed (recordLines d pos.1 sig partNum buffer) part start size ↔
      ∃ x ∈ numbered pos.1 partNum (slots buffer), sought part x = true ∧
        d.add pos.1 x.2.start = start ∧ x.2.size = size := by
  constructor
  · intro h
    obtain ⟨l, hl, hnum, hstart, hsize, hplain⟩ := h
    obtain ⟨x, hx, rfl⟩ := mem_map.mp hl
    obtain ⟨hmem, hs⟩ := mem_filter.mp hx
    refine ⟨x, hmem, ?_, hstart, hsize⟩
    have husable := (shown_iff_usable hrec htype (mem_of_mem_numbered hmem) pos.1).mp ⟨hs, hplain⟩
    simp only [sought, husable, Bool.true_and, decide_eq_true_eq]
    exact hnum
  · intro h
    obtain ⟨x, hmem, hsought, hstart, hsize⟩ := h
    simp only [sought, Bool.and_eq_true, decide_eq_true_eq] at hsought
    obtain ⟨hs, hplain⟩ := (shown_iff_usable hrec htype (mem_of_mem_numbered hmem) pos.1).mpr
      hsought.1
    exact ⟨_, mem_map.mpr ⟨x, mem_filter.mpr ⟨hmem, hs⟩, rfl⟩, hsought.2, hstart, hsize, hplain⟩

variable {part : ℤ} {size start : ℕ}

theorem listed_append {ls ls' : List Line} :
    Listed (ls ++ ls') part start size ↔ Listed ls part start size ∨ Listed ls' part start size := by
  unfold Listed
  simp only [mem_append, or_and_right, exists_or]

variable {x : ℕ × DosPartition}

theorem sought_unique {y : ℕ × DosPartition}
    (hx : x ∈ numbered pos.1 partNum (slots buffer)) (hxs : sought part x = true)
    (hy : y ∈ numbered pos.1 partNum (slots buffer)) (hys : sought part y = true) : x = y := by
  have hshown : ∀ z : ℕ × DosPartition, sought part z = true → shown pos.1 z.2 = true := by
    intro z hz
    simp only [sought, usable, Bool.and_eq_true] at hz
    simp only [shown, Bool.and_eq_true, Bool.or_eq_true]
    exact ⟨hz.1.1.2, .inr hz.1.2⟩
  have hnum : x.1 = y.1 := by
    simp only [sought, Bool.and_eq_true, decide_eq_true_eq] at hxs hys
    omega
  have hnodup : (((numbered pos.1 partNum (slots buffer)).filter
      fun x => shown pos.1 x.2).map Prod.fst).Nodup :=
    pairwise_map.mpr ((pairwise_shown pos.1 partNum (slots buffer)).imp Nat.ne_of_lt)
  exact inj_on_of_nodup_map hnodup (mem_filter.mpr ⟨hx, hshown x hxs⟩)
    (mem_filter.mpr ⟨hy, hshown y hys⟩) hnum

theorem counted_of_sought {sector : ℕ} (h : sought part x = true) : counted sector x.2 = true := by
  simp only [sought, usable, Bool.and_eq_true] at h
  simp only [counted, Bool.or_eq_true, Bool.and_eq_true]
  exact .inr ⟨h.1.1.2, h.1.2⟩

theorem listed_sought_iff (sig : ℕ) (hrec : PlainRecord buffer)
    (htype : testBlockType buffer = .mbr) (hx : x ∈ numbered pos.1 partNum (slots buffer))
    (hxs : sought part x = true) :
    Listed (recordLines d pos.1 sig partNum buffer) part start size ↔
      d.add pos.1 x.2.start = start ∧ x.2.size = size := by
  rw [listed_record_iff hrec htype]
  constructor
  · intro h
    obtain ⟨y, hy, hys, hyeq⟩ := h
    rw [sought_unique hx hxs hy hys]
    exact hyeq
  · intro h
    exact ⟨x, hx, hxs, h⟩

theorem found_info :
    Found (some (infoOf d x.2 pos.1 x.1 sig)) start size ↔
      d.add pos.1 x.2.start = start ∧ x.2.size = size := by
  simp [Found, infoOf]

theorem print_lookup_agree (hp : Plain d) (hreach : ReflTransGen (Edge (printNext d)) (0, 0) pos)
    {depth' : ℕ} {r : Option DiskPartition}
    (h : printPartitionExtended d depth pos partNum sig = some out)
    (h' : partGetInfoExtended d part depth' pos partNum sig = some r) (start size : ℕ) :
    Listed (linesOf out) part start size ↔ Found r start size := by
  induction depth generalizing pos partNum sig out depth' with
  | zero => simp [printPartitionExtended] at h
  | succ depth ih =>
    cases depth' with
    | zero => simp [partGetInfoExtended] at h'
    | succ depth' =>
      rw [lookup_succ] at h'
      obtain ⟨hnil, -, hunsigned⟩ | ⟨buffer, hread, htype, hlines⟩ :=
        print_succ_cases h fun buffer hread => hp pos buffer hreach hread
      · -- both stop here
        have hr : r = none := by
          cases hread : d.read pos.1 with
          | none => simpa [hread, eq_comm] using h'
          | some buffer => simpa [hread, hunsigned buffer hread, eq_comm] using h'
        rw [hnil, hr]
        simp [Listed, Found]
      · have hrec := hp pos buffer hreach hread
        simp only [hread, signed_of_mbr htype, Bool.true_eq_false, if_false, htype] at h'
        cases hfind : (numbered pos.1 partNum (slots buffer)).find? (sought part) with
        | some x =>
          have hx := mem_of_find?_eq_some hfind
          have hxs := find?_some hfind
          simp only [hfind, some.injEq] at h'
          rw [← h', found_info, ← listed_sought_iff (recordSig buffer pos.1 sig) hrec htype hx hxs]
          obtain ⟨-, hlines⟩ | ⟨p, rest, hext, hrest, hlines⟩ := hlines
          · rw [hlines]
          · rw [hlines, listed_append]
            apply or_iff_left
            intro hlisted
            obtain ⟨l, hl, hnum, -⟩ := hlisted
            have hle := (print_numbers hp (hreach.tail (edge_single hread htype hext)) hrest).1 l hl
            have hlt := lt_lastNum hx (counted_of_sought hxs)
            simp only [sought, Bool.and_eq_true, decide_eq_true_eq] at hxs
            omega
        | none =>
          have hmiss : ¬ Listed (recordLines d pos.1 (recordSig buffer pos.1 sig) partNum buffer)
              part start size := by
            rw [listed_record_iff hrec htype]
            intro hex
            obtain ⟨y, hy, hys, -⟩ := hex
            exact absurd hys (find?_eq_none.mp hfind y hy)
          simp only [hfind] at h'
          obtain ⟨hext, hlines⟩ | ⟨p, rest, hext, hrest, hlines⟩ := hlines
          · simp only [hext, head?_nil, reduceCtorEq, if_false, some.injEq] at h'
            rw [hlines, ← h']
            simpa [Found] using hmiss
          · simp only [hext, head?_cons] at h'
            rw [hlines, listed_append]
            have hagree := ih (hreach.tail (edge_single hread htype hext)) hrest h'
            rw [← hagree]
            exact or_iff_right hmiss

end Records

variable {pos : Position}

theorem lookupNext_of_plain {d : BlkDesc} (hp : Plain d)
    (hreach : ReflTransGen (Edge (printNext d)) (0, 0) pos) : lookupNext d pos = printNext d pos := by
  unfold lookupNext printNext
  cases hread : d.read pos.1 with
  | none => rfl
  | some buffer =>
    have hrec := hp pos buffer hreach hread
    simp only
    by_cases htype : testBlockType buffer = .mbr
    · rw [if_neg (not_not.mpr htype), signed_of_mbr htype, if_neg (by decide)]
      have hsingle := hrec.single htype
      cases hext : extendedSlots buffer with
      | nil => rfl
      | cons p ps =>
        rw [hext] at hsingle
        have hnil : ps = [] := by simpa using hsingle
        rw [hnil]
        rfl
    · rw [if_pos htype]
      cases hrec.kind with
      | inl hm => exact absurd hm htype
      | inr hs => rw [if_pos hs]

theorem short_lookup_of_print {d : BlkDesc} (hp : Plain d) {depth : ℕ}
    (hreach : ReflTransGen (Edge (printNext d)) (0, 0) pos)
    (h : Short (printNext d) depth pos) : Short (lookupNext d) depth pos := by
  induction depth generalizing pos with
  | zero => exact h
  | succ depth ih =>
    intro q hq
    rw [lookupNext_of_plain hp hreach] at hq
    exact ih (hreach.tail hq) (h q hq)

/- On a plain disk without a cycle of records both scans end, a partition is listed under a number
exactly if the lookup of the number returns it, and no number is listed twice. -/
theorem dos_listing_agrees (d : BlkDesc) (hacyclic : NoCycle (printNext d) (0, 0)) (hp : Plain d) :
    ∃ enough, ∀ depth ≥ enough, ∃ out, partPrintDos d depth = some out ∧
      ((linesOf out).map Line.partNum).Nodup ∧
      ∀ part, ∃ r, partGetInfoDos d depth part = some r ∧
        ∀ start size, Listed (linesOf out) part start size ↔ Found r start size := by
  obtain ⟨enough, hshort⟩ :=
    (exists_short_iff (finite_reachable d _ (edge_printNext d))).mpr hacyclic
  refine ⟨enough, ?_⟩
  intro depth hdepth
  have hlong := hshort.mono hdepth
  obtain ⟨out, hout⟩ := isSome_iff_exists.mp ((isSome_print_iff d depth (0, 0) 1 0).mpr hlong)
  refine ⟨out, hout, ?_, ?_⟩
  · exact pairwise_map.mpr ((print_numbers hp ReflTransGen.refl hout).2.imp Nat.ne_of_lt)
  · intro part
    have hsome : (partGetInfoDos d depth part).isSome = true :=
      isSome_lookup_of_short (short_lookup_of_print hp ReflTransGen.refl hlong)
    obtain ⟨r, hr⟩ := isSome_iff_exists.mp hsome
    exact ⟨r, hr, print_lookup_agree hp ReflTransGen.refl hout hr⟩

def twoPartitions : BlkDesc where
  ifType := .mmc
  devnum := 0
  lba := 64
  lbaBits := 32
  read := fun sector => some (tableRecord
    (if sector = 0 then [(0x80, 0x83, 32, 8), (0, 5, 2, 8)] else [(0, 0x83, 1, 6)]))

theorem printNext_twoPartitions :
    printNext twoPartitions (0, 0) = [(2, 2)] ∧ printNext twoPartitions (2, 2) = [] := by
  decide +kernel

theorem reaches_twoPartitions (h : ReflTransGen (Edge (printNext twoPartitions)) (0, 0) pos) :
    pos = (0, 0) ∨ pos = (2, 2) := by
  induction h with
  | refl => exact .inl rfl
  | tail _ he ih =>
    unfold Edge at he
    obtain rfl | rfl := ih
    · rw [printNext_twoPartitions.1] at he
      exact .inr (mem_singleton.mp he)
    · rw [printNext_twoPartitions.2] at he
      cases he

theorem dos_listing_two_partitions :
    ∃ enough, ∀ depth ≥ enough, ∃ out, partPrintDos twoPartitions depth = some out ∧
      ((linesOf out).map Line.partNum).Nodup ∧
      ∀ part, ∃ r, partGetInfoDos twoPartitions depth part = some r ∧
        ∀ start size, Listed (linesOf out) part start size ↔ Found r start size := by
  apply dos_listing_agrees
  · apply (exists_short_iff (finite_reachable _ _ (edge_printNext _))).mp
    refine ⟨2, ?_⟩
    intro q hq
    rw [printNext_twoPartitions.1, mem_singleton] at hq
    intro q' hq'
    rw [hq, printNext_twoPartitions.2] at hq'
    cases hq'
  · intro pos buffer hreach hread
    obtain rfl | rfl := reaches_twoPartitions hreach
    · obtain rfl := some.inj hread
      exact ⟨by decide +kernel, by decide +kernel, by decide +kernel⟩
    · obtain rfl := some.inj hread
      exact ⟨by decide +kernel, by decide +kernel, by decide +kernel⟩

/- An MBR with two extended entries, each with one logical partition. -/
def twoExtended : BlkDesc where
  ifType := .mmc
  devnum := 0
  lba := 64
  lbaBits := 32
  read := fun sector => some (tableRecord
    (if sector = 0 then [(0, 5, 2, 8), (0, 5, 16, 8)]
      else if sector = 2 then [(0, 0x83, 1, 6)]
      else [(0, 0x83, 1, 4)]))

/- The listing follows both and gives both logical partitions the number 5; the lookup
follows the first and returns that one. -/
theorem two_extended_listed_twice :
    (partPrintDos twoExtended 2).map (fun out => (linesOf out).map fun l =>
        (l.partNum, l.start, l.size, isExtended l.sysInd)) =
      some [(1, 2, 8, true), (2, 16, 8, true), (5, 3, 6, false), (5, 17, 4, false)] ∧
    (partGetInfoDos twoExtended 2 5).map (fun r => r.map fun i => (i.start, i.size)) =
      some (some (3, 6)) := by
  decide +kernel

end UBoot.Dos
