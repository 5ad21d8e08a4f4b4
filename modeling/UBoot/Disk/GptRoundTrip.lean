import UBoot.Disk.GptRestore

/-!
# The round trip of a partition table

`gpt_restore`, then `part_get_info_efi` and `gpt_verify_partitions`: what always comes back,
and exactly when all of it does.
-/

namespace UBoot.Gpt

open Memory LittleEndian List

section RoundTrip

variable {dev : BlkDesc} {parts : List Request}

structure Serves (dev : BlkDesc) (parts : List Request) (t : GptHeader × Mem) : Prop where
  num : t.1.numPartitionEntries = 128
  entry : ∀ i p, parts[i]? = some p → ∃ o e, (offsetsFrom dev 34 parts)[i]? = some o ∧
    EntryFor dev (dev.lba - 34) o (i + 1 = parts.length ∧ p.size = 0) p e ∧
    entryAt t.2 i = e ∧
    bytes t.2 (128 * i + 56) (2 * e.partitionName.length) = e.partitionName.flatMap (leBytes 2)

variable {es : List GptEntry}

theorem fits_of_fill (hlba : 67 ≤ dev.lba)
    (hfill : gptFillPte dev (dev.lba - 34) 34 parts = some es)
    (hparts : ∀ p ∈ parts, p.Proper dev) : ∀ e ∈ es, e.Fits := by
  have hlt := dev.lba_lt
  have hword := lt_word dev.lba_lt
  obtain ⟨hlen, hall⟩ := gptFillPte_spec hfill
  intro e he
  obtain ⟨i, hi⟩ := mem_iff_getElem?.mp he
  have hbound : i < parts.length := by
    rw [← hlen]
    exact (List.getElem?_eq_some_iff.mp hi).1
  obtain ⟨o, e', ho, he', hfor⟩ := hall i _ (getElem?_eq_getElem hbound)
  obtain rfl : e' = e := Option.some.inj (he'.symm.trans hi)
  exact hfor.fits (hparts _ (getElem_mem hbound))
    (offsets_lt (by lia) _ o (mem_of_getElem? ho)) (by lia)

theorem length_flatMap_entries (hfits : ∀ e ∈ es, e.Fits) :
    (es.flatMap entryBytes).length = 128 * es.length := by
  induction es with
  | nil => rfl
  | cons e es ih =>
    rw [flatMap_cons, length_append, length_entryBytes (hfits e (mem_cons_self ..)),
      ih fun e' he' => hfits e' (mem_cons_of_mem _ he'), length_cons]
    lia

variable {disk : Mem} {h : GptHeader}

theorem Written.serves {lba : ℕ} {h' : GptHeader} (hlba : 67 ≤ dev.lba) (hh : Filled dev h)
    (hw : Written dev disk lba h' (entriesBuf dev h es))
    (hfill : gptFillPte dev (dev.lba - 34) 34 parts = some es) (hparts : ∀ p ∈ parts, p.Proper dev)
    (hcount : parts.length ≤ 128) : ∃ t, (isGptValid dev disk lba).1 = some t ∧ Serves dev parts t := by
  have hfits := fits_of_fill hlba hfill hparts
  have htotal := length_flatMap_entries hfits
  obtain ⟨hlen, hall⟩ := gptFillPte_spec hfill
  obtain ⟨pte, hvalid, hpte⟩ := hw.valid
  have hsplit : bytes pte 0 (128 * es.length + (16384 - 128 * es.length)) =
      es.flatMap entryBytes ++ (List.replicate (pteBlocks dev * dev.blksz -
        (es.flatMap entryBytes).length) 0).take (16384 - 128 * es.length) := by
    rw [show 128 * es.length + (16384 - 128 * es.length) = 16384 by lia, hpte, entriesBuf,
      hh.pteBlkCnt_eq, padTo, take_append, take_of_length_le (by lia), htotal]
  have hentries : bytes pte 0 (128 * es.length) = es.flatMap entryBytes :=
    (bytes_append_inj _ _ _ _ hsplit htotal).1
  refine ⟨(h', pte), hvalid, hw.numPartitionEntries, ?_⟩
  intro i p hp
  obtain ⟨o, e, ho, he, hfor⟩ := hall i p hp
  have hbytes := bytes_flatMap (fun e he => length_entryBytes (hfits e he)) hentries he
  rw [Nat.zero_add] at hbytes
  obtain ⟨heq, hname⟩ := entryAt_eq (hfits e (mem_of_getElem? he)) hbytes
  exact ⟨o, e, ho, hfor, heq, hname⟩

theorem gptRestore_written (hd : Works dev) {writes : ℕ → ℕ → Bool}
    {strDiskGuid : List ℕ} (hparts : ∀ p ∈ parts, p.Proper dev) (hcount : parts.length ≤ 128)
    (hret : (gptRestore dev writes disk strDiskGuid parts).1 = true) :
    ∃ h es, Filled dev h ∧ gptFillPte dev (dev.lba - 34) 34 parts = some es ∧
      Written dev (gptRestore dev writes disk strDiskGuid parts).2 1 (primaryHeader dev h es)
        (entriesBuf dev h es) ∧
      Written dev (gptRestore dev writes disk strDiskGuid parts).2 (dev.lba - 1)
        (prepareBackupGptHeader (primaryHeader dev h es)) (entriesBuf dev h es) := by
  have hlba := hd.large
  have hlt := dev.lba_lt
  unfold gptRestore at hret ⊢
  split at hret
  · cases hret
  · next ha =>
    rw [if_neg ha]
    split at hret
    · cases hret
    · next hb =>
      rw [if_neg hb]
      cases hheader : gptFillHeader dev strDiskGuid with
      | none =>
        rw [hheader] at hret
        cases hret
      | some h =>
        have hh := gptFillHeader_filled hlba hheader
        rw [hheader] at hret
        simp only [hh.lastUsableLba, hh.firstUsableLba,
          Nat.mod_eq_of_lt (show 34 < 2 ^ dev.lbaBits by lia)] at hret ⊢
        cases hfill : gptFillPte dev (dev.lba - 34) 34 parts with
        | none =>
          rw [hfill] at hret
          cases hret
        | some es =>
          rw [hfill] at hret
          simp only at hret ⊢
          have hes : (es.flatMap entryBytes).length ≤ 16384 := by
            rw [length_flatMap_entries (fits_of_fill hlba hfill hparts), (gptFillPte_spec hfill).1]
            lia
          rw [writeGptTable_disk hret]
          exact ⟨h, es, hh, rfl, primary_written hd hh hes disk, backup_written hd hh hes disk⟩

variable {t : GptHeader × Mem} {i : ℕ} {p : Request}

theorem Serves.info (hs : Serves dev parts t) (ht : (chosenTable dev disk).1 = some t)
    (hcount : parts.length ≤ 128) (hp : parts[i]? = some p) :
    ∃ o e, (offsetsFrom dev 34 parts)[i]? = some o ∧
      EntryFor dev (dev.lba - 34) o (i + 1 = parts.length ∧ p.size = 0) p e ∧
      (partGetInfoEfi dev disk (i + 1)).1 = some (infoOf dev e) := by
  have hi := (List.getElem?_eq_some_iff.mp hp).1
  obtain ⟨o, e, ho, hfor, heq, -⟩ := hs.entry i p hp
  refine ⟨o, e, ho, hfor, ?_⟩
  have hused : isPteValid (entryAt t.2 (i + 1 - 1)) = true := by
    rw [Nat.add_sub_cancel, heq, isPteValid, hfor.type]
    decide
  obtain ⟨hnone, -, -⟩ | ⟨t', ht', hcases⟩ :=
    @partGetInfoEfi_cases dev disk (i + 1) (Nat.succ_pos i)
  · rw [hnone] at ht
    cases ht
  · obtain rfl : t' = t := Option.some.inj (ht'.symm.trans ht)
    obtain ⟨hnum, -, -⟩ | ⟨-, hno, -, -⟩ | ⟨-, -, -, hinfo⟩ := hcases
    · rw [hs.num] at hnum
      lia
    · rw [hused] at hno
      cases hno
    · rw [hinfo, Nat.add_sub_cancel, heq]

/- Name and start of every partition come back, and its size unless it was extended. -/
def ReadsMost (dev : BlkDesc) (disk : Mem) (parts : List Request) : Prop :=
  ∀ i p o, parts[i]? = some p → (offsetsFrom dev 34 parts)[i]? = some o →
    ∃ info, (partGetInfoEfi dev disk (i + 1)).1 = some info ∧ info.name = p.text ∧
      info.start = startFrom o p ∧
      (¬ (i + 1 = parts.length ∧ p.size = 0) → info.size = p.size)

def ReadsBack (dev : BlkDesc) (disk : Mem) (parts : List Request) : Prop :=
  ∀ i p o, parts[i]? = some p → (offsetsFrom dev 34 parts)[i]? = some o →
    ∃ info, (partGetInfoEfi dev disk (i + 1)).1 = some info ∧ info.name = p.text ∧
      info.start = startFrom o p ∧ info.size = p.size ∧ info.uuid = p.uuid.map lower

/- The disk after its block 1 was overwritten with something that is no table. -/
structure Destroyed (dev : BlkDesc) (disk disk' : Mem) : Prop where
  rest : ∀ x, x < dev.blksz ∨ 2 * dev.blksz ≤ x → disk' x = disk x
  invalid : (isGptValid dev disk' 1).1 = none

structure RoundTrip (dev : BlkDesc) (disk : Mem) (parts : List Request) : Prop where
  primary : (isGptValid dev disk 1).1 ≠ none
  backup : (isGptValid dev disk (backupLba dev)).1 ≠ none
  read : ReadsBack dev disk parts
  readBackup : ∀ disk', Destroyed dev disk disk' → ReadsBack dev disk' parts
  verify : gptVerifyPartitions dev disk parts = true

/- What a list of partitions must be like: both formats read its UUIDs alike, the last
partition has a size, and with a narrow `lbaint_t` no end wraps. -/
structure Survives (dev : BlkDesc) (parts : List Request) : Prop where
  uuid : ∀ p ∈ parts, uuidStrToBin p.uuid .std = uuidStrToBin p.uuid .guid
  size : ∀ p, parts.getLast? = some p → p.size ≠ 0
  room : dev.lbaBits = 64 ∨ ∀ (i : ℕ) (p : Request) (o : ℕ), parts[i]? = some p →
    (offsetsFrom dev 34 parts)[i]? = some o →
    1 ≤ startFrom o p + p.size ∧ startFrom o p + p.size ≤ 2 ^ dev.lbaBits

theorem Serves.reads (hs : Serves dev parts t) (ht : (chosenTable dev disk).1 = some t)
    (hlba : 67 ≤ dev.lba) (hcount : parts.length ≤ 128) (hparts : ∀ p ∈ parts, p.Proper dev) {o : ℕ}
    (hp : parts[i]? = some p) (ho : (offsetsFrom dev 34 parts)[i]? = some o) :
    ∃ info, (partGetInfoEfi dev disk (i + 1)).1 = some info ∧ info.name = p.text ∧
      info.start = startFrom o p ∧
      (info.size = p.size ↔ ¬ (i + 1 = parts.length ∧ p.size = 0)) ∧
      (info.uuid = p.uuid.map lower ↔ uuidStrToBin p.uuid .std = uuidStrToBin p.uuid .guid) := by
  have hlt := dev.lba_lt
  have hproper := hparts p (mem_of_getElem? hp)
  obtain ⟨o', e, ho', hfor, hinfo⟩ := hs.info ht hcount hp
  obtain rfl : o' = o := Option.some.inj (ho'.symm.trans ho)
  have hoff := offsets_lt (show 34 < 2 ^ dev.lbaBits by lia) parts o' (mem_of_getElem? ho)
  obtain ⟨hsize, hext⟩ := hfor.size_read hproper hoff (by lia) fun h => h.2
  obtain ⟨bin, hbin, -, huuid⟩ := uuid_round_trip (valid_of_uuidStrToBin hfor.uuid)
  obtain rfl : bin = e.uniquePartitionGuid := Option.some.inj (hbin.symm.trans hfor.uuid)
  refine ⟨infoOf dev e, hinfo, hfor.printed hproper, ?_, ?_, huuid⟩
  · rw [infoOf, hfor.start]
    exact Nat.mod_eq_of_lt (startFrom_lt hproper hoff)
  · exact ⟨fun heq hyes => hext hyes heq, hsize⟩

theorem getElem?_offsets (dev : BlkDesc) (hp : parts[i]? = some p) :
    ∃ o, (offsetsFrom dev 34 parts)[i]? = some o := by
  have hi := (List.getElem?_eq_some_iff.mp hp).1
  exact ⟨_, getElem?_eq_getElem (by rwa [length_offsetsFrom])⟩

theorem getLast?_iff_getElem? :
    parts.getLast? = some p ↔ ∃ i, parts[i]? = some p ∧ i + 1 = parts.length := by
  rw [getLast?_eq_getElem?]
  constructor
  · intro hp
    have hi := (List.getElem?_eq_some_iff.mp hp).1
    exact ⟨parts.length - 1, hp, by lia⟩
  · intro ⟨i, hp, hi⟩
    rw [show parts.length - 1 = i by lia]
    exact hp

theorem Serves.readsBack_iff (hs : Serves dev parts t) (ht : (chosenTable dev disk).1 = some t)
    (hlba : 67 ≤ dev.lba) (hcount : parts.length ≤ 128) (hparts : ∀ p ∈ parts, p.Proper dev) :
    ReadsBack dev disk parts ↔
      (∀ p ∈ parts, uuidStrToBin p.uuid .std = uuidStrToBin p.uuid .guid) ∧
        ∀ p, parts.getLast? = some p → p.size ≠ 0 := by
  constructor
  · intro hback
    refine ⟨?_, ?_⟩
    · intro p hmem
      obtain ⟨i, hp⟩ := mem_iff_getElem?.mp hmem
      obtain ⟨o, ho⟩ := getElem?_offsets dev hp
      obtain ⟨info, hinfo, -, -, -, huuid⟩ := hback i p o hp ho
      obtain ⟨info', hinfo', -, -, -, hiff⟩ := hs.reads ht hlba hcount hparts hp ho
      obtain rfl : info' = info := Option.some.inj (hinfo'.symm.trans hinfo)
      exact hiff.mp huuid
    · intro p hlast hzero
      obtain ⟨i, hp, hi⟩ := getLast?_iff_getElem?.mp hlast
      obtain ⟨o, ho⟩ := getElem?_offsets dev hp
      obtain ⟨info, hinfo, -, -, hsize, -⟩ := hback i p o hp ho
      obtain ⟨info', hinfo', -, -, hiff, -⟩ := hs.reads ht hlba hcount hparts hp ho
      obtain rfl : info' = info := Option.some.inj (hinfo'.symm.trans hinfo)
      exact hiff.mp hsize ⟨hi, hzero⟩
  · intro ⟨huuid, hsize⟩ i p o hp ho
    obtain ⟨info, hinfo, hname, hstart, hsz, hid⟩ := hs.reads ht hlba hcount hparts hp ho
    refine ⟨info, hinfo, hname, hstart, hsz.mpr ?_, hid.mpr (huuid p (mem_of_getElem? hp))⟩
    intro ⟨hi, hzero⟩
    exact hsize p (getLast?_iff_getElem?.mpr ⟨i, hp, hi⟩) hzero

theorem verifyFrom_iff {pte : Mem} (hnum : h.numPartitionEntries = 128)
    (ps : List Request) (k : ℕ) (hk : k + ps.length ≤ 128)
    (hgood : ∀ j p, ps[j]? = some p →
      strncmpEq 32 (gptConvertEfiNameToChar pte (k + j) 37) p.name = true ∧
        (p.start ≠ 0 → (entryAt pte (k + j)).startingLba = p.start)) :
    verifyFrom h pte k ps = true ↔
      ∀ j p, ps[j]? = some p → gptPartSize (entryAt pte (k + j)) = p.size := by
  induction ps generalizing k with
  | nil => exact iff_of_true rfl fun j p hp => by cases hp
  | cons q qs ih =>
    rw [length_cons] at hk
    obtain ⟨hname, hstart⟩ := hgood 0 q rfl
    rw [Nat.add_zero] at hname hstart
    have hnext : ∀ j, k + 1 + j = k + (j + 1) := fun j => by lia
    have hrest := ih (k + 1) (by lia) fun j p hp => by
      rw [hnext]
      exact hgood (j + 1) p hp
    have hno : ¬ (q.start ≠ 0 ∧ (entryAt pte k).startingLba ≠ q.start) :=
      fun hboth => hboth.2 (hstart hboth.1)
    rw [verifyFrom]
    simp only [if_neg (show ¬ k = h.numPartitionEntries by lia), hname, if_neg hno,
      Bool.true_eq_false, if_false]
    by_cases hsize : gptPartSize (entryAt pte k) = q.size
    · rw [if_neg (not_not.mpr hsize), hrest]
      constructor
      · intro hall j p hp
        cases j with
        | zero =>
          rw [getElem?_cons_zero, Option.some.injEq] at hp
          rw [← hp]
          exact hsize
        | succ j =>
          rw [← hnext]
          exact hall j p hp
      · intro hall j p hp
        rw [hnext]
        exact hall (j + 1) p hp
    · rw [if_pos hsize]
      exact iff_of_false Bool.false_ne_true fun hall => hsize (hall 0 q rfl)

theorem Serves.verify_iff (hs : Serves dev parts t) (hlba : 67 ≤ dev.lba)
    (hcount : parts.length ≤ 128) (hparts : ∀ p ∈ parts, p.Proper dev) :
    verifyFrom t.1 t.2 0 parts = true ↔
      (∀ p, parts.getLast? = some p → p.size ≠ 0) ∧
        (dev.lbaBits = 64 ∨ ∀ (i : ℕ) (p : Request) (o : ℕ), parts[i]? = some p →
          (offsetsFrom dev 34 parts)[i]? = some o →
          1 ≤ startFrom o p + p.size ∧ startFrom o p + p.size ≤ 2 ^ dev.lbaBits) := by
  have hlt := dev.lba_lt
  have hentry : ∀ (i : ℕ) (p : Request) (o : ℕ), parts[i]? = some p →
      (offsetsFrom dev 34 parts)[i]? = some o →
      (gptPartSize (entryAt t.2 i) = p.size ↔ ¬ (i + 1 = parts.length ∧ p.size = 0) ∧
        (dev.lbaBits = 64 ∨ (1 ≤ startFrom o p + p.size ∧
          startFrom o p + p.size ≤ 2 ^ dev.lbaBits))) := by
    intro i p o hp ho
    obtain ⟨o', e, ho', hfor, heq, -⟩ := hs.entry i p hp
    obtain rfl : o' = o := Option.some.inj (ho'.symm.trans ho)
    rw [heq]
    exact hfor.size_verified (hparts p (mem_of_getElem? hp))
      (offsets_lt (by lia) parts o' (mem_of_getElem? ho)) (by lia) fun h => h.2
  have hgood : ∀ j p, parts[j]? = some p →
      strncmpEq 32 (gptConvertEfiNameToChar t.2 (0 + j) 37) p.name = true ∧
        (p.start ≠ 0 → (entryAt t.2 (0 + j)).startingLba = p.start) := by
    intro j p hp
    obtain ⟨o, e, -, hfor, heq, hname⟩ := hs.entry j p hp
    rw [Nat.zero_add, hfor.converted (hparts p (mem_of_getElem? hp)) hname, heq]
    exact ⟨strncmpEq_takeWhile 32 p.name, fun hne => by rw [hfor.start, startFrom, if_pos hne]⟩
  rw [verifyFrom_iff hs.num parts 0 (by lia) hgood]
  simp only [Nat.zero_add]
  constructor
  · intro hall
    have hboth := fun i p o hp ho => (hentry i p o hp ho).mp (hall i p hp)
    refine ⟨?_, ?_⟩
    · intro p hlast hzero
      obtain ⟨i, hp, hi⟩ := getLast?_iff_getElem?.mp hlast
      obtain ⟨o, ho⟩ := getElem?_offsets dev hp
      exact (hboth i p o hp ho).1 ⟨hi, hzero⟩
    · by_cases hbits : dev.lbaBits = 64
      · exact .inl hbits
      · exact .inr fun i p o hp ho => (hboth i p o hp ho).2.resolve_left hbits
  · intro ⟨hsize, hroom⟩ i p hp
    obtain ⟨o, ho⟩ := getElem?_offsets dev hp
    refine (hentry i p o hp ho).mpr ⟨?_, ?_⟩
    · intro ⟨hi, hzero⟩
      exact hsize p (getLast?_iff_getElem?.mpr ⟨i, hp, hi⟩) hzero
    · cases hroom with
      | inl hbits => exact .inl hbits
      | inr hroom => exact .inr (hroom i p o hp ho)

theorem backupLba_eq (hlba : 67 ≤ dev.lba) : backupLba dev = dev.lba - 1 :=
  lbaMinus_eq (n := 1) (by lia)

theorem chosen_primary (ht : (isGptValid dev disk 1).1 = some t) : (chosenTable dev disk).1 = some t := by
  unfold chosenTable
  generalize isGptValid dev disk 1 = r at *
  obtain ⟨t', es⟩ := r
  simp only at ht
  subst ht
  rfl

theorem chosen_backup (hnone : (isGptValid dev disk 1).1 = none)
    (ht : (isGptValid dev disk (backupLba dev)).1 = some t) : (chosenTable dev disk).1 = some t := by
  unfold chosenTable
  generalize isGptValid dev disk 1 = r at *
  obtain ⟨t', es⟩ := r
  simp only at hnone
  subst hnone
  exact ht

theorem Written.destroyed {disk' : Mem} {buf : List UInt8} (hd : Works dev)
    (hw : Written dev disk (dev.lba - 1) h buf) (hentry : h.partitionEntryLba = dev.lba - 33)
    (hdes : Destroyed dev disk disk') : Written dev disk' (dev.lba - 1) h buf := by
  have hlba := hd.large
  have m1 : 2 * dev.blksz ≤ (dev.lba - 1) * dev.blksz := Nat.mul_le_mul_right _ (by lia)
  have m2 : 2 * dev.blksz ≤ (dev.lba - 33) * dev.blksz := Nat.mul_le_mul_right _ (by lia)
  apply hw.mono
  · intro x hx _
    exact hdes.rest x (.inr (by lia))
  · intro x hx _
    rw [hentry] at hx
    exact hdes.rest x (.inr (by lia))

theorem gptRestore_serves (hd : Works dev) {writes : ℕ → ℕ → Bool} {strDiskGuid : List ℕ}
    (hparts : ∀ p ∈ parts, p.Proper dev) (hcount : parts.length ≤ gptEntryNumbers)
    (hret : (gptRestore dev writes disk strDiskGuid parts).1 = true) :
    (∃ t, (isGptValid dev (gptRestore dev writes disk strDiskGuid parts).2 1).1 = some t ∧
      Serves dev parts t) ∧
    (∃ t, (isGptValid dev (gptRestore dev writes disk strDiskGuid parts).2 (backupLba dev)).1 =
      some t ∧ Serves dev parts t) ∧
    ∀ disk', Destroyed dev (gptRestore dev writes disk strDiskGuid parts).2 disk' →
      ∃ t, (chosenTable dev disk').1 = some t ∧ Serves dev parts t := by
  have hlba := hd.large
  obtain ⟨h, es, hh, hfill, hw1, hw2⟩ := gptRestore_written hd hparts hcount hret
  have hentry : (prepareBackupGptHeader (primaryHeader dev h es)).partitionEntryLba =
      dev.lba - 33 := by
    change (h.lastUsableLba + 1) % 2 ^ 64 = dev.lba - 33
    have hword := lt_word dev.lba_lt
    rw [hh.lastUsableLba, Nat.mod_eq_of_lt (by lia)]
    lia
  rw [backupLba_eq hlba]
  refine ⟨hw1.serves hlba hh hfill hparts hcount, hw2.serves hlba hh hfill hparts hcount, ?_⟩
  intro disk' hdes
  obtain ⟨t, hv, hs⟩ := (hw2.destroyed hd hentry hdes).serves hlba hh hfill hparts hcount
  exact ⟨t, chosen_backup hdes.invalid (by rw [backupLba_eq hlba]; exact hv), hs⟩

theorem gpt_restore_round_trip (hd : Works dev) {writes : ℕ → ℕ → Bool} (disk : Mem)
    {strDiskGuid : List ℕ} (hparts : ∀ p ∈ parts, p.Proper dev)
    (hcount : parts.length ≤ gptEntryNumbers)
    (hret : (gptRestore dev writes disk strDiskGuid parts).1 = true) :
    ((isGptValid dev (gptRestore dev writes disk strDiskGuid parts).2 1).1 ≠ none ∧
      (isGptValid dev (gptRestore dev writes disk strDiskGuid parts).2 (backupLba dev)).1 ≠ none ∧
      ReadsMost dev (gptRestore dev writes disk strDiskGuid parts).2 parts ∧
      ∀ disk', Destroyed dev (gptRestore dev writes disk strDiskGuid parts).2 disk' →
        ReadsMost dev disk' parts) ∧
    (RoundTrip dev (gptRestore dev writes disk strDiskGuid parts).2 parts ↔
      Survives dev parts) := by
  have hlba := hd.large
  obtain ⟨⟨t1, hv1, hs1⟩, ⟨t2, hv2, hs2⟩, hafter⟩ := gptRestore_serves hd hparts hcount hret
  generalize (gptRestore dev writes disk strDiskGuid parts).2 = disk₁ at *
  have hmost : ∀ disk' t, (chosenTable dev disk').1 = some t → Serves dev parts t →
      ReadsMost dev disk' parts := by
    intro disk' t ht hs i p o hp ho
    obtain ⟨info, hinfo, hname, hstart, hsize, -⟩ := hs.reads ht hlba hcount hparts hp ho
    exact ⟨info, hinfo, hname, hstart, hsize.mpr⟩
  have hsome1 : (isGptValid dev disk₁ 1).1 ≠ none := by simp [hv1]
  have hsome2 : (isGptValid dev disk₁ (backupLba dev)).1 ≠ none := by simp [hv2]
  have hverify : gptVerifyPartitions dev disk₁ parts = verifyFrom t2.1 t2.2 0 parts := by
    rw [gptVerifyPartitions, gptVerifyHeaders, hv1]
    simp only [hv2]
  have hback := hs1.readsBack_iff (chosen_primary hv1) hlba hcount hparts
  have hver := hs2.verify_iff hlba hcount hparts
  refine ⟨⟨hsome1, hsome2, hmost _ t1 (chosen_primary hv1) hs1, ?_⟩, ?_⟩
  · intro disk' hdes
    obtain ⟨t, ht, hs⟩ := hafter disk' hdes
    exact hmost disk' t ht hs
  · constructor
    · intro hrt
      obtain ⟨huuid, hsize⟩ := hback.mp hrt.read
      exact ⟨huuid, hsize, (hver.mp (hverify ▸ hrt.verify)).2⟩
    · intro hsur
      refine ⟨hsome1, hsome2, hback.mpr ⟨hsur.uuid, hsur.size⟩, ?_, ?_⟩
      · intro disk' hdes
        obtain ⟨t, ht, hs⟩ := hafter disk' hdes
        exact (hs.readsBack_iff ht hlba hcount hparts).mpr ⟨hsur.uuid, hsur.size⟩
      · rw [hverify]
        exact hver.mpr ⟨hsur.size, hsur.room⟩

end RoundTrip

/- A UUID whose first fields read the same backwards: 01010101-0202-0303-0405-060708090a0b. -/
def evenUuid : List ℕ :=
  [48, 49, 48, 49, 48, 49, 48, 49, 45, 48, 50, 48, 50, 45, 48, 51, 48, 51, 45, 48, 52, 48, 53, 45,
    48, 54, 48, 55, 48, 56, 48, 57, 48, 97, 48, 98]

def plainUuid : List ℕ :=
  [48, 49, 48, 50, 48, 51, 48, 52, 45, 48, 53, 48, 54, 45, 48, 55, 48, 56, 45, 48, 57, 48, 97, 45,
    48, 98, 48, 99, 48, 100, 48, 101, 48, 102, 49, 48]

def smallRequest (uuid : List ℕ) : Request where
  start := 0
  size := 10
  name := 97 :: List.replicate 31 0
  bootable := false
  uuid := uuid
  name_length := by decide
  name_byte := by decide

theorem smallRequest_proper (uuid : List ℕ) : (smallRequest uuid).Proper smallCard :=
  ⟨show 0 < 2 ^ 32 by decide, show 10 < 2 ^ 32 by decide, by simp [smallRequest],
    show ∀ c ∈ (97 :: List.replicate 31 0).takeWhile (· ≠ 0), isprint c = true by decide⟩

theorem smallCard_works : Works smallCard := by
  refine ⟨by decide, ?_, by decide⟩
  intro blk count h
  exact decide_eq_true h

theorem two_even_partitions_survive :
    RoundTrip smallCard (gptRestore smallCard (fun _ _ => true) (fun _ => 0) plainUuid
      [smallRequest evenUuid, smallRequest evenUuid]).2
      [smallRequest evenUuid, smallRequest evenUuid] := by
  have hret : (gptRestore smallCard (fun _ _ => true) (fun _ => 0) plainUuid
      [smallRequest evenUuid, smallRequest evenUuid]).1 = true := by
    decide +kernel
  refine (gpt_restore_round_trip smallCard_works _ ?_ (by decide) hret).2.mpr ⟨?_, ?_, ?_⟩
  · intro p hp
    simp only [mem_cons, not_mem_nil, or_false, or_self] at hp
    rw [hp]
    exact smallRequest_proper _
  · intro p hp
    simp only [mem_cons, not_mem_nil, or_false, or_self] at hp
    rw [hp]
    decide +kernel
  · intro p hp
    obtain rfl := Option.some.inj hp
    decide
  · refine .inr fun i p o hp ho => ?_
    match i, hp, ho with
    | 0, hp, ho =>
      obtain rfl := Option.some.inj hp
      obtain rfl := Option.some.inj ho
      decide
    | 1, hp, ho =>
      obtain rfl := Option.some.inj hp
      obtain rfl := Option.some.inj ho
      decide

/- The partition is written and both tables are valid, but its UUID is read as
04030201-0605-0807-090a-0b0c0d0e0f10. -/
theorem plain_uuid_lost :
    (gptRestore smallCard (fun _ _ => true) (fun _ => 0) plainUuid
      [smallRequest plainUuid]).1 = true ∧
    ¬ RoundTrip smallCard (gptRestore smallCard (fun _ _ => true) (fun _ => 0) plainUuid
      [smallRequest plainUuid]).2 [smallRequest plainUuid] := by
  have hret : (gptRestore smallCard (fun _ _ => true) (fun _ => 0) plainUuid
      [smallRequest plainUuid]).1 = true := by
    decide +kernel
  have hparts : ∀ p ∈ [smallRequest plainUuid], p.Proper smallCard := by
    intro p hp
    rw [mem_singleton.mp hp]
    exact smallRequest_proper _
  refine ⟨hret, fun hrt => ?_⟩
  obtain ⟨⟨t, hv, hs⟩, -⟩ := gptRestore_serves smallCard_works hparts (by decide) hret
  have hback := (hs.readsBack_iff (chosen_primary hv) (by decide) (by decide) hparts).mp hrt.read
  exact absurd (hback.1 _ (mem_singleton.mpr rfl)) (by decide +kernel)

end UBoot.Gpt
