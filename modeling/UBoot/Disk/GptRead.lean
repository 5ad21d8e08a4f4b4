import UBoot.Disk.Gpt

/-!
# Reading a hostile table

The crcs protect nothing against who writes the disk, so the fields of a table are any numbers.
-/

namespace UBoot.Gpt

open Memory LittleEndian Option

def Event.Ok (blksz : ℕ) : Event → Prop
  | .access size stop => stop ≤ size
  | .table num entrySize count allocated read =>
    count = num * entrySize ∧ allocated = padCount count blksz * blksz ∧ read = allocated

def AllOk (blksz : ℕ) (es : List Event) : Prop := ∀ e ∈ es, e.Ok blksz

section Lists

variable {blksz : ℕ}

@[simp] theorem allOk_nil : AllOk blksz [] := fun _ h => by cases h

@[simp] theorem allOk_append {es es' : List Event} :
    AllOk blksz (es ++ es') ↔ AllOk blksz es ∧ AllOk blksz es' := List.forall_mem_append

@[simp] theorem allOk_singleton {e : Event} : AllOk blksz [e] ↔ e.Ok blksz :=
  List.forall_mem_singleton

@[simp] theorem access_ok {size stop : ℕ} : (Event.access size stop).Ok blksz ↔ stop ≤ size :=
  Iff.rfl

@[simp] theorem table_ok {num entrySize count allocated read : ℕ} :
    (Event.table num entrySize count allocated read).Ok blksz ↔
      count = num * entrySize ∧ allocated = padCount count blksz * blksz ∧ read = allocated :=
  Iff.rfl

end Lists

variable (dev : BlkDesc) (disk : Mem)

/- The header at `lba`, as it is read. -/
def headerBuf (lba : ℕ) : Mem := blkDread dev disk lba 1 dev.stack

def paddedCount (h : GptHeader) : ℕ := padCount (entriesCount h) dev.blksz * dev.blksz

/- The entries of the header at `lba` are read. -/
structure EntriesRead (lba : ℕ) : Prop where
  header : dev.reads lba 1 = true
  valid : (validateGptHeader dev (headerBuf dev disk lba) lba).1 = true
  count : entriesCount (headerAt (headerBuf dev disk lba)) ≠ 0
  alloc : dev.alloc (paddedCount dev (headerAt (headerBuf dev disk lba)) % 2 ^ 32) = true
  entries : dev.reads ((headerAt (headerBuf dev disk lba)).partitionEntryLba % 2 ^ dev.lbaBits)
    (padCount (entriesCount (headerAt (headerBuf dev disk lba))) dev.blksz) = true

/- What the header at `lba` must be like. -/
structure Sound (lba : ℕ) : Prop where
  headerSize : dev.reads lba 1 = true →
    (headerAt (headerBuf dev disk lba)).signature = gptHeaderSignature →
    (headerAt (headerBuf dev disk lba)).headerSize ≤ dev.blksz
  transfer : EntriesRead dev disk lba → paddedCount dev (headerAt (headerBuf dev disk lba)) < 2 ^ 32
  product : ∀ t, (isGptValid dev disk lba).1 = some t →
    t.1.numPartitionEntries * t.1.sizeofPartitionEntry < 2 ^ 32

section Tables

variable {dev disk}

theorem padded_ge (count : ℕ) : count ≤ padCount count dev.blksz * dev.blksz := by
  have hpos := dev.blksz_ge
  have hdiv := Nat.div_add_mod (count - 1) dev.blksz
  have hmod := Nat.mod_lt (count - 1) (show 0 < dev.blksz by lia)
  rw [padCount, Nat.add_mul, Nat.one_mul, Nat.mul_comm]
  lia

theorem validateGptHeader_events (buf : Mem) (lba : ℕ) :
    AllOk dev.blksz (validateGptHeader dev buf lba).2 ↔
      ((headerAt buf).signature = gptHeaderSignature → (headerAt buf).headerSize ≤ dev.blksz) := by
  unfold validateGptHeader
  simp only
  split
  · next hsig => simp [hsig]
  · next hsig =>
    rw [not_not] at hsig
    have hall : AllOk dev.blksz [Event.access dev.blksz (headerAt buf).headerSize] ↔
        ((headerAt buf).signature = gptHeaderSignature → (headerAt buf).headerSize ≤ dev.blksz) := by
      simp [hsig]
    split
    · exact hall
    · split
      · exact hall
      · split
        · exact hall
        · split
          · exact hall
          · exact hall

theorem allocReadGptEntries_cases (h : GptHeader) :
    (allocReadGptEntries dev disk h = (none, []) ∧
      ¬ (entriesCount h ≠ 0 ∧ dev.alloc (paddedCount dev h % 2 ^ 32) = true ∧
        dev.reads (h.partitionEntryLba % 2 ^ dev.lbaBits)
          (padCount (entriesCount h) dev.blksz) = true)) ∨
    (allocReadGptEntries dev disk h =
        (some (blkDread dev disk (h.partitionEntryLba % 2 ^ dev.lbaBits)
          (padCount (entriesCount h) dev.blksz) dev.heap),
        [.access (paddedCount dev h % 2 ^ 32) (paddedCount dev h)]) ∧
      entriesCount h ≠ 0 ∧ dev.alloc (paddedCount dev h % 2 ^ 32) = true ∧
      dev.reads (h.partitionEntryLba % 2 ^ dev.lbaBits)
        (padCount (entriesCount h) dev.blksz) = true) := by
  unfold allocReadGptEntries paddedCount
  simp only
  split
  · next hcount => exact .inl ⟨rfl, fun hall => hall.1 hcount⟩
  · next hcount =>
    split
    · next halloc => exact .inl ⟨rfl, fun hall => by rw [halloc] at hall; cases hall.2.1⟩
    · next halloc =>
      split
      · next hreads => exact .inl ⟨rfl, fun hall => by rw [hreads] at hall; cases hall.2.2⟩
      · next hreads =>
        exact .inr ⟨rfl, hcount, Bool.eq_true_of_not_eq_false halloc,
          Bool.eq_true_of_not_eq_false hreads⟩

theorem entries_events (h : GptHeader) :
    AllOk dev.blksz [.access (paddedCount dev h % 2 ^ 32) (paddedCount dev h),
      .access (paddedCount dev h % 2 ^ 32) (entriesCount h)] ↔ paddedCount dev h < 2 ^ 32 := by
  have hge : entriesCount h ≤ paddedCount dev h := padded_ge _
  rw [← List.singleton_append, allOk_append, allOk_singleton, allOk_singleton, access_ok, access_ok]
  lia

/- The header of the table at `lba` and its entries, once both are read. -/
def tableAt (dev : BlkDesc) (disk : Mem) (lba : ℕ) : GptHeader × Mem :=
  (headerAt (headerBuf dev disk lba),
    blkDread dev disk ((headerAt (headerBuf dev disk lba)).partitionEntryLba % 2 ^ dev.lbaBits)
      (padCount (entriesCount (headerAt (headerBuf dev disk lba))) dev.blksz) dev.heap)

def headerEvents (dev : BlkDesc) (disk : Mem) (lba : ℕ) : List Event :=
  (validateGptHeader dev (headerBuf dev disk lba) lba).2

def entriesEvents (dev : BlkDesc) (h : GptHeader) : List Event :=
  [.access (paddedCount dev h % 2 ^ 32) (paddedCount dev h),
    .access (paddedCount dev h % 2 ^ 32) (entriesCount h)]

def tableEvent (dev : BlkDesc) (h : GptHeader) : Event :=
  .table h.numPartitionEntries h.sizeofPartitionEntry (entriesCount h)
    (paddedCount dev h % 2 ^ 32) (paddedCount dev h)

theorem isGptValid_cases (lba : ℕ) :
    (dev.reads lba 1 = false ∧ isGptValid dev disk lba = (none, [])) ∨
    (dev.reads lba 1 = true ∧ ¬ EntriesRead dev disk lba ∧
      isGptValid dev disk lba = (none, headerEvents dev disk lba)) ∨
    (EntriesRead dev disk lba ∧
      validateGptEntries (tableAt dev disk lba).1 (tableAt dev disk lba).2 = false ∧
      isGptValid dev disk lba = (none, headerEvents dev disk lba ++
        entriesEvents dev (tableAt dev disk lba).1)) ∨
    (EntriesRead dev disk lba ∧
      validateGptEntries (tableAt dev disk lba).1 (tableAt dev disk lba).2 = true ∧
      isGptValid dev disk lba = (some (tableAt dev disk lba), headerEvents dev disk lba ++
        entriesEvents dev (tableAt dev disk lba).1 ++ [tableEvent dev (tableAt dev disk lba).1])) := by
  rw [@isGptValid_eq dev disk (headerBuf dev disk lba) lba rfl]
  cases hreads : dev.reads lba 1 with
  | false => exact .inl ⟨rfl, rfl⟩
  | true =>
    cases hvalid : (validateGptHeader dev (headerBuf dev disk lba) lba).1 with
    | false =>
      exact .inr (.inl ⟨rfl, fun hr => Bool.noConfusion (hvalid.symm.trans hr.valid), rfl⟩)
    | true =>
      cases @allocReadGptEntries_cases dev disk (headerAt (headerBuf dev disk lba)) with
      | inl hnone =>
        rw [hnone.1]
        refine .inr (.inl ⟨rfl, fun hr => hnone.2 ⟨hr.count, hr.alloc, hr.entries⟩, ?_⟩)
        simp only [Bool.true_eq_false, if_false, List.append_nil]
        rfl
      | inr hsome =>
        obtain ⟨hsome, hcount, halloc, hentries⟩ := hsome
        have hread : EntriesRead dev disk lba := ⟨hreads, hvalid, hcount, halloc, hentries⟩
        rw [hsome]
        simp only [Bool.true_eq_false, if_false, List.append_assoc]
        cases hcrc : validateGptEntries (tableAt dev disk lba).1 (tableAt dev disk lba).2 with
        | false => exact .inr (.inr (.inl ⟨hread, rfl, if_pos hcrc⟩))
        | true =>
          refine .inr (.inr (.inr ⟨hread, rfl, if_neg ?_⟩))
          exact fun hfalse => Bool.noConfusion (hcrc.symm.trans hfalse)

theorem tableEvent_ok (h : GptHeader) : (tableEvent dev h).Ok dev.blksz ↔
    h.numPartitionEntries * h.sizeofPartitionEntry < 2 ^ 32 ∧ paddedCount dev h < 2 ^ 32 := by
  have hcount : entriesCount h = h.numPartitionEntries * h.sizeofPartitionEntry % 2 ^ 32 := rfl
  rw [tableEvent, table_ok]
  change _ ∧ _ = paddedCount dev h ∧ _ ↔ _
  lia

theorem isGptValid_events (lba : ℕ) :
    AllOk dev.blksz (isGptValid dev disk lba).2 ↔ Sound dev disk lba := by
  have hheader := @validateGptHeader_events dev (headerBuf dev disk lba) lba
  change AllOk dev.blksz (headerEvents dev disk lba) ↔ _ at hheader
  have hentries := @entries_events dev (tableAt dev disk lba).1
  change AllOk dev.blksz (entriesEvents dev _) ↔ _ at hentries
  obtain ⟨hreads, heq⟩ | ⟨hreads, hnot, heq⟩ | ⟨hread, hcrc, heq⟩ | ⟨hread, hcrc, heq⟩ :=
    @isGptValid_cases dev disk lba
  · rw [heq]
    refine iff_of_true allOk_nil ⟨fun h => ?_, fun h => ?_, fun t ht => ?_⟩
    · exact Bool.noConfusion (hreads.symm.trans h)
    · exact Bool.noConfusion (hreads.symm.trans h.header)
    · rw [heq] at ht
      cases ht
  · rw [heq, hheader]
    constructor
    · intro hsize
      exact ⟨fun _ => hsize, fun hr => absurd hr hnot, fun t ht => by rw [heq] at ht; cases ht⟩
    · intro hs
      exact hs.headerSize hreads
  · rw [heq, allOk_append, hheader, hentries]
    constructor
    · intro ⟨hsize, hfit⟩
      exact ⟨fun _ => hsize, fun _ => hfit, fun t ht => by rw [heq] at ht; cases ht⟩
    · intro hs
      exact ⟨hs.headerSize hread.header, hs.transfer hread⟩
  · rw [heq, allOk_append, allOk_append, hheader, hentries, allOk_singleton, tableEvent_ok]
    constructor
    · intro ⟨⟨hsize, hfit⟩, hproduct, _⟩
      refine ⟨fun _ => hsize, fun _ => hfit, fun t ht => ?_⟩
      rw [heq] at ht
      rw [← some.inj ht]
      exact hproduct
    · intro hs
      have hproduct := hs.product _ (by rw [heq])
      exact ⟨⟨hs.headerSize hread.header, hs.transfer hread⟩, hproduct, hs.transfer hread⟩

end Tables

def backupLba : ℕ := (dev.lba + 2 ^ dev.lbaBits - 1) % 2 ^ dev.lbaBits

/- One of the characters that fit into `info->name` is 0. -/
def ShortName (e : GptEntry) : Prop := ∃ k < 32, e.partitionName.getD k 0 % 256 = 0

/- The blocks of an entry as `lbaint_t`s: not empty, in order, and not too many. -/
def InOrder (e : GptEntry) : Prop :=
  e.startingLba % 2 ^ dev.lbaBits ≤ e.endingLba ∧ e.endingLba < 2 ^ dev.lbaBits ∧
    e.endingLba + 1 - e.startingLba % 2 ^ dev.lbaBits < 2 ^ dev.lbaBits

/- What the disk must be like for the entry `part`. -/
structure Harmless (part : ℕ) : Prop where
  primary : Sound dev disk 1
  backup : (isGptValid dev disk 1).1 = none → Sound dev disk (backupLba dev)
  entry : ∀ t, (chosenTable dev disk).1 = some t → part ≤ t.1.numPartitionEntries →
    128 * part ≤ t.1.numPartitionEntries * t.1.sizeofPartitionEntry
  used : ∀ t, (chosenTable dev disk).1 = some t → part ≤ t.1.numPartitionEntries →
    isPteValid (entryAt t.2 (part - 1)) = true →
    ShortName (entryAt t.2 (part - 1)) ∧ InOrder dev (entryAt t.2 (part - 1))

section Lookup

variable {dev disk}

theorem efiChar_eq_zero (u : ℕ) : efiChar u = 0 ↔ u % 256 = 0 := by
  unfold efiChar
  by_cases hu : u % 256 = 0
  · simp [hu]
  · simp only [ne_eq, hu, not_false_eq_true, decide_true, Bool.true_and, iff_false]
    split
    · decide
    · exact hu

theorem length_takeWhile_lt {xs : List ℕ} {n : ℕ} (hn : n ≤ xs.length) :
    ((xs.map efiChar).takeWhile (· ≠ 0)).length < n ↔ ∃ k < n, xs.getD k 0 % 256 = 0 := by
  induction xs generalizing n with
  | nil =>
    obtain rfl : n = 0 := Nat.le_zero.mp hn
    simp
  | cons x xs ih =>
    cases n with
    | zero => simp
    | succ n =>
      rw [List.map_cons, List.takeWhile_cons]
      by_cases hx : x % 256 = 0
      · have hzero := (efiChar_eq_zero x).mpr hx
        simp only [hzero, ne_eq, not_true_eq_false, decide_false, Bool.false_eq_true, if_false,
          List.length_nil]
        exact iff_of_true (Nat.succ_pos n) ⟨0, Nat.succ_pos n, hx⟩
      · have hne : efiChar x ≠ 0 := fun hz => hx ((efiChar_eq_zero x).mp hz)
        simp only [ne_eq, hne, not_false_eq_true, decide_true, if_true, List.length_cons,
          Nat.add_lt_add_iff_right]
        rw [ih (Nat.le_of_succ_le_succ hn)]
        constructor
        · intro ⟨k, hk, hz⟩
          exact ⟨k + 1, Nat.succ_lt_succ hk, hz⟩
        · intro ⟨k, hk, hz⟩
          cases k with
          | zero => exact absurd hz hx
          | succ k => exact ⟨k, Nat.lt_of_succ_lt_succ hk, hz⟩

theorem shortName_iff (pte : Mem) (i : ℕ) :
    (printEfiname (entryAt pte i)).length + 1 ≤ 32 ↔ ShortName (entryAt pte i) :=
  length_takeWhile_lt (by simp [entryAt])

theorem inOrder_iff (e : GptEntry) :
    (1 ≤ (infoOf dev e).size ∧ (infoOf dev e).start + (infoOf dev e).size - 1 = e.endingLba ∧
      e.endingLba < 2 ^ dev.lbaBits) ↔ InOrder dev e := by
  have hstart : e.startingLba % 2 ^ dev.lbaBits < 2 ^ dev.lbaBits :=
    Nat.mod_lt _ (Nat.two_pow_pos _)
  unfold infoOf InOrder
  simp only
  generalize e.startingLba % 2 ^ dev.lbaBits = start at *
  generalize 2 ^ dev.lbaBits = w at *
  generalize e.endingLba = last
  by_cases hlast : last < w
  · rw [Nat.mod_eq_of_lt hlast]
    by_cases hle : start ≤ last
    · have hsum : last + 1 + (w - start) = (last + 1 - start) + w := by lia
      rw [hsum, Nat.add_mod_right]
      by_cases hfull : last + 1 - start < w
      · rw [Nat.mod_eq_of_lt hfull]
        lia
      · have hexact : last + 1 - start = w := by lia
        rw [hexact, Nat.mod_self]
        lia
    · have hlt := Nat.mod_lt (last + 1 + (w - start)) (show 0 < w by lia)
      have hor : last + 1 + (w - start) < w ∨ last + 1 + (w - start) = w := by lia
      cases hor with
      | inl hor =>
        rw [Nat.mod_eq_of_lt hor]
        lia
      | inr hor =>
        rw [hor, Nat.mod_self]
        lia
  · lia

theorem chosenTable_events :
    AllOk dev.blksz (chosenTable dev disk).2 ↔
      Sound dev disk 1 ∧ ((isGptValid dev disk 1).1 = none → Sound dev disk (backupLba dev)) := by
  have hprimary := @isGptValid_events dev disk 1
  have hbackup := @isGptValid_events dev disk (backupLba dev)
  unfold chosenTable
  cases hv : isGptValid dev disk 1 with
  | mk t es =>
    rw [hv] at hprimary
    cases t with
    | some t =>
      simp only [reduceCtorEq, false_implies, and_true]
      exact hprimary
    | none =>
      simp only [true_implies, allOk_append]
      exact and_congr hprimary hbackup

theorem chosenTable_product {t : GptHeader × Mem} (ht : (chosenTable dev disk).1 = some t)
    (h1 : Sound dev disk 1)
    (h2 : (isGptValid dev disk 1).1 = none → Sound dev disk (backupLba dev)) :
    entriesCount t.1 = t.1.numPartitionEntries * t.1.sizeofPartitionEntry := by
  apply Nat.mod_eq_of_lt
  unfold chosenTable at ht
  cases hv : isGptValid dev disk 1 with
  | mk t' es =>
    rw [hv] at ht
    cases t' with
    | some t' =>
      obtain rfl : t' = t := some.inj ht
      exact h1.product _ (by rw [hv])
    | none => exact (h2 (by rw [hv])).product _ ht

theorem partGetInfoEfi_cases {part : ℕ} (hpart : 1 ≤ part) :
    ((chosenTable dev disk).1 = none ∧ (lookupEntry dev disk part).1 = none ∧
      partGetInfoEfi dev disk part = (none, (chosenTable dev disk).2)) ∨
    ∃ t, (chosenTable dev disk).1 = some t ∧
      ((t.1.numPartitionEntries < part ∧ (lookupEntry dev disk part).1 = none ∧
        partGetInfoEfi dev disk part = (none, (chosenTable dev disk).2)) ∨
      (part ≤ t.1.numPartitionEntries ∧ isPteValid (entryAt t.2 (part - 1)) = false ∧
        (lookupEntry dev disk part).1 = none ∧
        partGetInfoEfi dev disk part = (none, (chosenTable dev disk).2 ++
          [.access (entriesCount t.1) (128 * part)])) ∨
      (part ≤ t.1.numPartitionEntries ∧ isPteValid (entryAt t.2 (part - 1)) = true ∧
        (lookupEntry dev disk part).1 = some (entryAt t.2 (part - 1)) ∧
        partGetInfoEfi dev disk part = (some (infoOf dev (entryAt t.2 (part - 1))),
          (chosenTable dev disk).2 ++ [.access (entriesCount t.1) (128 * part)] ++
            [.access 32 ((printEfiname (entryAt t.2 (part - 1))).length + 1)]))) := by
  have hzero : ¬ part < 1 := by lia
  unfold partGetInfoEfi lookupEntry
  simp only [if_neg hzero]
  cases chosenTable dev disk with
  | mk t es =>
    cases t with
    | none => exact .inl ⟨rfl, rfl, rfl⟩
    | some t =>
      refine .inr ⟨t, rfl, ?_⟩
      by_cases hnum : t.1.numPartitionEntries < part
      · simp only [if_pos hnum]
        exact .inl ⟨hnum, trivial, trivial⟩
      · simp only [if_neg hnum]
        cases hvalid : isPteValid (entryAt t.2 (part - 1)) with
        | false =>
          refine .inr (.inl ⟨Nat.le_of_not_lt hnum, rfl, ?_⟩)
          simp
        | true =>
          refine .inr (.inr ⟨Nat.le_of_not_lt hnum, rfl, ?_⟩)
          simp

theorem tables_of_info {part : ℕ} (hpart : 1 ≤ part)
    (hall : AllOk dev.blksz (partGetInfoEfi dev disk part).2) :
    AllOk dev.blksz (chosenTable dev disk).2 := by
  obtain ⟨-, -, heq⟩ | ⟨t, -, ⟨-, -, heq⟩ | ⟨-, -, -, heq⟩ | ⟨-, -, -, heq⟩⟩ :=
    @partGetInfoEfi_cases dev disk part hpart
  · rwa [heq] at hall
  · rwa [heq] at hall
  · rw [heq, allOk_append] at hall
    exact hall.1
  · rw [heq, allOk_append, allOk_append] at hall
    exact hall.1.1

/- Reading the table touches nothing outside the buffers and gives a partition that is in
order exactly if the disk is harmless for that entry. -/
theorem hostile_gpt_safe_iff {part : ℕ} (hpart : 1 ≤ part) :
    (AllOk dev.blksz (partGetInfoEfi dev disk part).2 ∧
      ∀ e info, (lookupEntry dev disk part).1 = some e →
        (partGetInfoEfi dev disk part).1 = some info →
        1 ≤ info.size ∧ info.start + info.size - 1 = e.endingLba ∧ e.endingLba < 2 ^ dev.lbaBits) ↔
    Harmless dev disk part := by
  have htables := @chosenTable_events dev disk
  obtain ⟨hnone, hlook, heq⟩ | ⟨t, ht, hcases⟩ := @partGetInfoEfi_cases dev disk part hpart
  · have hno : ∀ t, (chosenTable dev disk).1 ≠ some t := by simp [hnone]
    rw [heq, htables, hlook]
    constructor
    · intro ⟨⟨h1, h2⟩, _⟩
      exact ⟨h1, h2, fun t ht => absurd ht (hno t), fun t ht => absurd ht (hno t)⟩
    · intro hh
      exact ⟨⟨hh.primary, hh.backup⟩, fun e info he => by cases he⟩
  · have hsame : ∀ t', (chosenTable dev disk).1 = some t' → t' = t :=
      fun t' ht' => (some.inj (ht.symm.trans ht')).symm
    obtain ⟨hnum, hlook, heq⟩ | ⟨hnum, hvalid, hlook, heq⟩ | ⟨hnum, hvalid, hlook, heq⟩ := hcases
    · rw [heq, htables, hlook]
      constructor
      · intro ⟨⟨h1, h2⟩, _⟩
        refine ⟨h1, h2, ?_, ?_⟩
        · intro t' ht' hle
          rw [hsame t' ht'] at hle
          lia
        · intro t' ht' hle
          rw [hsame t' ht'] at hle
          lia
      · intro hh
        exact ⟨⟨hh.primary, hh.backup⟩, fun e info he => by cases he⟩
    · rw [heq, hlook, allOk_append, htables, allOk_singleton, access_ok]
      constructor
      · intro ⟨⟨⟨h1, h2⟩, hin⟩, _⟩
        refine ⟨h1, h2, ?_, ?_⟩
        · intro t' ht' _
          rw [hsame t' ht', ← chosenTable_product ht h1 h2]
          exact hin
        · intro t' ht' _ hused
          rw [hsame t' ht', hvalid] at hused
          cases hused
      · intro hh
        refine ⟨⟨⟨hh.primary, hh.backup⟩, ?_⟩, fun e info he => by cases he⟩
        rw [chosenTable_product ht hh.primary hh.backup]
        exact hh.entry t ht hnum
    · rw [heq, hlook, allOk_append, allOk_append, htables, allOk_singleton, allOk_singleton,
        access_ok, access_ok, shortName_iff]
      have horder := @inOrder_iff dev (entryAt t.2 (part - 1))
      constructor
      · intro ⟨⟨⟨⟨h1, h2⟩, hin⟩, hname⟩, hsize⟩
        refine ⟨h1, h2, ?_, ?_⟩
        · intro t' ht' _
          rw [hsame t' ht', ← chosenTable_product ht h1 h2]
          exact hin
        · intro t' ht' _ _
          rw [hsame t' ht']
          exact ⟨hname, horder.mp (hsize _ _ rfl rfl)⟩
      · intro hh
        obtain ⟨hname, hord⟩ := hh.used t ht hnum hvalid
        refine ⟨⟨⟨⟨hh.primary, hh.backup⟩, ?_⟩, hname⟩, ?_⟩
        · rw [chosenTable_product ht hh.primary hh.backup]
          exact hh.entry t ht hnum
        · intro e info he hinfo
          rw [← some.inj he, ← some.inj hinfo]
          exact horder.mpr hord

end Lookup

def smallCard : BlkDesc where
  blksz := 512
  blksz_ge := by decide
  blksz_lt := by decide
  lba := 100
  lbaBits := 32
  lba_lt := by decide
  lbaBits_le := by decide
  reads := fun blk count => blk + count ≤ 100
  alloc := fun size => size ≤ 2 ^ 20
  stack := fun _ => 0
  heap := fun _ => 0

def smallEntry : GptEntry where
  partitionTypeGuid := systemGuid
  uniquePartitionGuid := systemGuid
  startingLba := 40
  endingLba := 49
  attributes := 0
  partitionName := 97 :: List.replicate 35 0

def smallHeader : GptHeader where
  signature := gptHeaderSignature
  revision := 0x10000
  headerSize := 92
  headerCrc32 := 2399018544
  reserved1 := 0
  myLba := 1
  alternateLba := 99
  firstUsableLba := 34
  lastUsableLba := 66
  diskGuid := systemGuid
  partitionEntryLba := 2
  numPartitionEntries := 1
  sizeofPartitionEntry := 128
  partitionEntryArrayCrc32 := 1415664395

def smallDisk : Mem :=
  store (store (fun _ => 0) 512 (headerBytes smallHeader)) 1024 (entryBytes smallEntry)

theorem small_table_read :
    (partGetInfoEfi smallCard smallDisk 1).1 = some ⟨40, 10, 512, [97], typeText, true,
      uuidBinToStr systemGuid .guid⟩ ∧
    AllOk 512 (partGetInfoEfi smallCard smallDisk 1).2 := by
  have hproduct : (isGptValid smallCard smallDisk 1).1.map
      (fun t => t.1.numPartitionEntries * t.1.sizeofPartitionEntry) = some 128 := by
    decide +kernel
  have hchosen : (chosenTable smallCard smallDisk).1.map
      (fun t => (t.1.numPartitionEntries, t.1.sizeofPartitionEntry, entryAt t.2 0)) =
        some (1, 128, smallEntry) := by
    decide +kernel
  have hsound : Sound smallCard smallDisk 1 := by
    refine ⟨fun _ _ => by decide +kernel, fun _ => by decide +kernel, ?_⟩
    intro t ht
    rw [ht, map_some, some.injEq] at hproduct
    rw [hproduct]
    decide
  have hharmless : Harmless smallCard smallDisk 1 := by
    refine ⟨hsound, ?_, ?_, ?_⟩
    · intro hnone
      rw [hnone] at hproduct
      cases hproduct
    · intro t ht _
      rw [ht, map_some, some.injEq, Prod.mk.injEq, Prod.mk.injEq] at hchosen
      rw [hchosen.1, hchosen.2.1]
    · intro t ht _ _
      rw [ht, map_some, some.injEq, Prod.mk.injEq, Prod.mk.injEq] at hchosen
      rw [hchosen.2.2]
      exact ⟨⟨1, by decide, by decide⟩, by unfold InOrder; decide⟩
  exact ⟨by decide +kernel, ((hostile_gpt_safe_iff (Nat.le_refl 1)).mpr hharmless).1⟩

/- A header that claims 513 bytes: its crc is taken of the block and of a byte behind it. -/
theorem header_crc_leaves_block :
    ¬ AllOk smallCard.blksz (partGetInfoEfi smallCard
      (store (fun _ => 0) 512 (headerBytes { smallHeader with headerSize := 513 })) 1).2 := by
  intro hall
  have hsound := (chosenTable_events.mp (tables_of_info (Nat.le_refl 1) hall)).1
  exact absurd (hsound.headerSize (by decide) (by decide +kernel)) (by decide +kernel)

end UBoot.Gpt
