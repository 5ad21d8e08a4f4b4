import UBoot.Disk.GptWrite

/-!
# What is written is read back

After `gpt_restore` every partition has its name, start and size in both tables. Its UUID is written
in the standard format but read in the GUID format, and `gpt_verify_partitions` compares the size of
an extended partition with the 0 it was asked for.
-/

namespace UBoot.Gpt

open Memory LittleEndian List Nat Option

theorem bytes_flatMap {α : Type} {f : α → List UInt8} {m : ℕ} {xs : List α}
    (hf : ∀ x ∈ xs, (f x).length = m) {mem : Mem} {a k : ℕ} {x : α}
    (hb : bytes mem a (m * xs.length) = xs.flatMap f) (hk : xs[k]? = some x) :
    bytes mem (a + m * k) m = f x := by
  induction xs generalizing a k with
  | nil => cases hk
  | cons y ys ih =>
    rw [length_cons, mul_succ, Nat.add_comm, flatMap_cons] at hb
    obtain ⟨hhead, htail⟩ := bytes_append_inj _ _ _ _ hb (hf y (mem_cons_self ..))
    cases k with
    | zero =>
      rw [getElem?_cons_zero, some.injEq] at hk
      rw [Nat.mul_zero, Nat.add_zero, hhead, hk]
    | succ k =>
      rw [getElem?_cons_succ] at hk
      have hrest := ih (fun z hz => hf z (mem_cons_of_mem _ hz)) htail hk
      rwa [Nat.add_assoc, Nat.add_comm m, ← mul_succ] at hrest

theorem leValue_of_bytes {mem : Mem} {a n x : ℕ} (h : bytes mem a n = leBytes n x)
    (hx : x < 256 ^ n) : leValue (bytes mem a n) = x := by
  rw [h, leValue_leBytes, mod_eq_of_lt hx]

structure GptHeader.Fits (h : GptHeader) : Prop where
  signature : h.signature < 2 ^ 64
  revision : h.revision < 2 ^ 32
  headerSize : h.headerSize < 2 ^ 32
  headerCrc32 : h.headerCrc32 < 2 ^ 32
  reserved1 : h.reserved1 < 2 ^ 32
  myLba : h.myLba < 2 ^ 64
  alternateLba : h.alternateLba < 2 ^ 64
  firstUsableLba : h.firstUsableLba < 2 ^ 64
  lastUsableLba : h.lastUsableLba < 2 ^ 64
  diskGuid : h.diskGuid.length = 16
  partitionEntryLba : h.partitionEntryLba < 2 ^ 64
  numPartitionEntries : h.numPartitionEntries < 2 ^ 32
  sizeofPartitionEntry : h.sizeofPartitionEntry < 2 ^ 32
  partitionEntryArrayCrc32 : h.partitionEntryArrayCrc32 < 2 ^ 32

variable {h : GptHeader}

theorem length_headerBytes (hg : h.diskGuid.length = 16) : (headerBytes h).length = 92 := by
  simp [headerBytes, hg]

theorem headerAt_eq (hf : h.Fits) {buf : Mem}
    (hb : bytes buf 0 92 = headerBytes h) : headerAt buf = h := by
  unfold headerBytes at hb
  simp only [flatten_cons, flatten_nil, append_nil] at hb
  obtain ⟨b0, hb⟩ := bytes_append_inj _ 0 8 84 hb (length_leBytes ..)
  obtain ⟨b1, hb⟩ := bytes_append_inj _ 8 4 80 hb (length_leBytes ..)
  obtain ⟨b2, hb⟩ := bytes_append_inj _ 12 4 76 hb (length_leBytes ..)
  obtain ⟨b3, hb⟩ := bytes_append_inj _ 16 4 72 hb (length_leBytes ..)
  obtain ⟨b4, hb⟩ := bytes_append_inj _ 20 4 68 hb (length_leBytes ..)
  obtain ⟨b5, hb⟩ := bytes_append_inj _ 24 8 60 hb (length_leBytes ..)
  obtain ⟨b6, hb⟩ := bytes_append_inj _ 32 8 52 hb (length_leBytes ..)
  obtain ⟨b7, hb⟩ := bytes_append_inj _ 40 8 44 hb (length_leBytes ..)
  obtain ⟨b8, hb⟩ := bytes_append_inj _ 48 8 36 hb (length_leBytes ..)
  obtain ⟨b9, hb⟩ := bytes_append_inj _ 56 16 20 hb hf.diskGuid
  obtain ⟨b10, hb⟩ := bytes_append_inj _ 72 8 12 hb (length_leBytes ..)
  obtain ⟨b11, hb⟩ := bytes_append_inj _ 80 4 8 hb (length_leBytes ..)
  obtain ⟨b12, b13⟩ := bytes_append_inj _ 84 4 4 hb (length_leBytes ..)
  unfold headerAt
  rw [leValue_of_bytes b0 hf.signature, leValue_of_bytes b1 hf.revision,
    leValue_of_bytes b2 hf.headerSize, leValue_of_bytes b3 hf.headerCrc32,
    leValue_of_bytes b4 hf.reserved1, leValue_of_bytes b5 hf.myLba,
    leValue_of_bytes b6 hf.alternateLba, leValue_of_bytes b7 hf.firstUsableLba,
    leValue_of_bytes b8 hf.lastUsableLba, b9, leValue_of_bytes b10 hf.partitionEntryLba,
    leValue_of_bytes b11 hf.numPartitionEntries, leValue_of_bytes b12 hf.sizeofPartitionEntry,
    leValue_of_bytes b13 hf.partitionEntryArrayCrc32]

theorem headerCrc_eq (hf : h.Fits) {buf : Mem} (hsize : h.headerSize = 92)
    (hb : bytes buf 0 92 = headerBytes h) :
    headerCrc buf = crc32 (headerBytes { h with headerCrc32 := 0 }) := by
  rw [headerCrc, headerAt_eq hf hb, hsize]
  congr 1
  unfold headerBytes at hb ⊢
  simp only [flatten_cons, flatten_nil, append_nil] at hb ⊢
  obtain ⟨b0, hb⟩ := bytes_append_inj _ 0 8 84 hb (length_leBytes ..)
  obtain ⟨b1, hb⟩ := bytes_append_inj _ 8 4 80 hb (length_leBytes ..)
  obtain ⟨b2, hb⟩ := bytes_append_inj _ 12 4 76 hb (length_leBytes ..)
  obtain ⟨b3, hb⟩ := bytes_append_inj _ 16 4 72 hb (length_leBytes ..)
  have happart : ∀ a n, a + n ≤ 16 ∨ 20 ≤ a →
      bytes (store buf 16 [0, 0, 0, 0]) a n = bytes buf a n :=
    fun a n ha => bytes_store_apart buf 16 a n [0, 0, 0, 0] ha
  have hzero : bytes (store buf 16 [0, 0, 0, 0]) 16 4 = leBytes 4 0 :=
    bytes_store_same buf 16 [0, 0, 0, 0]
  have hparts : bytes (store buf 16 [0, 0, 0, 0]) 0 92 = bytes (store buf 16 [0, 0, 0, 0]) 0 8 ++
      (bytes (store buf 16 [0, 0, 0, 0]) 8 4 ++ (bytes (store buf 16 [0, 0, 0, 0]) 12 4 ++
        (bytes (store buf 16 [0, 0, 0, 0]) 16 4 ++ bytes (store buf 16 [0, 0, 0, 0]) 20 72))) := by
    rw [show 92 = 8 + (4 + (4 + (4 + 72))) by rfl, bytes_add, bytes_add, bytes_add, bytes_add]
  rw [hparts, happart 0 8 (by decide), happart 8 4 (by decide), happart 12 4 (by decide),
    happart 20 72 (by decide), b0, b1, b2, hzero, hsize]
  exact congrArg _ (congrArg _ (congrArg _ (congrArg _ hb)))

structure GptEntry.Fits (e : GptEntry) : Prop where
  partitionTypeGuid : e.partitionTypeGuid.length = 16
  uniquePartitionGuid : e.uniquePartitionGuid.length = 16
  startingLba : e.startingLba < 2 ^ 64
  endingLba : e.endingLba < 2 ^ 64
  attributes : e.attributes < 2 ^ 64
  partitionName : e.partitionName.length = 36
  character : ∀ c ∈ e.partitionName, c < 256

theorem length_entryBytes {e : GptEntry} (hf : e.Fits) : (entryBytes e).length = 128 := by
  have hname : (e.partitionName.flatMap (leBytes 2)).length = 72 := by
    rw [length_flatMap]
    simp [hf.partitionName]
  simp [entryBytes, hf.partitionTypeGuid, hf.uniquePartitionGuid, hname]

theorem entryAt_eq {e : GptEntry} (hf : e.Fits) {pte : Mem} {i : ℕ}
    (hb : bytes pte (128 * i) 128 = entryBytes e) :
    entryAt pte i = e ∧
      bytes pte (128 * i + 56) (2 * e.partitionName.length) =
        e.partitionName.flatMap (leBytes 2) := by
  unfold entryBytes at hb
  simp only [flatten_cons, flatten_nil, append_nil] at hb
  obtain ⟨b0, hb⟩ := bytes_append_inj _ _ 16 112 hb hf.partitionTypeGuid
  obtain ⟨b1, hb⟩ := bytes_append_inj _ _ 16 96 hb hf.uniquePartitionGuid
  obtain ⟨b2, hb⟩ := bytes_append_inj _ _ 8 88 hb (length_leBytes ..)
  obtain ⟨b3, hb⟩ := bytes_append_inj _ _ 8 80 hb (length_leBytes ..)
  obtain ⟨b4, hb⟩ := bytes_append_inj _ _ 8 72 hb (length_leBytes ..)
  simp only [Nat.add_assoc, Nat.reduceAdd] at b0 b1 b2 b3 b4 hb
  have hname : bytes pte (128 * i + 56) (2 * e.partitionName.length) =
      e.partitionName.flatMap (leBytes 2) := by
    rw [hf.partitionName]
    exact hb
  refine ⟨?_, hname⟩
  have hchars : ((List.range 36).map fun k => leValue (bytes pte (128 * i + 56 + 2 * k) 2)) =
      e.partitionName := by
    apply ext_getElem?
    intro k
    by_cases hk : k < 36
    · have hsome : e.partitionName[k]? = some (e.partitionName.get ⟨k, by rw [hf.partitionName]; exact hk⟩) :=
        getElem?_eq_getElem _
      have hchar := bytes_flatMap (fun x _ => length_leBytes 2 x) hname hsome
      have hlt := hf.character _ (get_mem e.partitionName ⟨k, by rw [hf.partitionName]; exact hk⟩)
      rw [getElem?_map, getElem?_range hk, map_some, hsome, leValue_of_bytes hchar (by lia)]
    · rw [getElem?_eq_none (by simp; lia), getElem?_eq_none (by rw [hf.partitionName]; lia)]
  unfold entryAt
  rw [b0, b1, leValue_of_bytes b2 hf.startingLba, leValue_of_bytes b3 hf.endingLba,
    leValue_of_bytes b4 hf.attributes, hchars]

section Tables

variable {dev : BlkDesc} {disk : Mem} {lba : ℕ}

theorem bytes_blkDread {blk count n : ℕ} (hn : n ≤ count * dev.blksz) (buf : Mem) :
    bytes (blkDread dev disk blk count buf) 0 n = bytes disk (blk * dev.blksz) n := by
  unfold bytes
  apply map_congr_left
  intro i hi
  have hlt := mem_range.mp hi
  rw [Nat.zero_add, blkDread, if_pos (by lia)]

def pteBlocks (dev : BlkDesc) : ℕ := padCount 16384 dev.blksz

/- The header `h` at `lba`, its entries in `buf`, and everything that is checked of them. -/
structure Written (dev : BlkDesc) (disk : Mem) (lba : ℕ) (h : GptHeader) (buf : List UInt8) :
    Prop where
  header : bytes disk (lba * dev.blksz) 92 = headerBytes h
  fits : h.Fits
  signature : h.signature = gptHeaderSignature
  headerSize : h.headerSize = 92
  headerCrc32 : h.headerCrc32 = crc32 (headerBytes { h with headerCrc32 := 0 })
  myLba : h.myLba = lba
  firstUsableLba : h.firstUsableLba ≤ dev.lba
  lastUsableLba : h.lastUsableLba ≤ dev.lba
  numPartitionEntries : h.numPartitionEntries = 128
  sizeofPartitionEntry : h.sizeofPartitionEntry = 128
  partitionEntryLba : h.partitionEntryLba < 2 ^ dev.lbaBits
  entries : bytes disk (h.partitionEntryLba * dev.blksz) (pteBlocks dev * dev.blksz) = buf
  arrayCrc32 : h.partitionEntryArrayCrc32 = crc32 (buf.take 16384)
  headerReads : dev.reads lba 1 = true
  entriesReads : dev.reads h.partitionEntryLba (pteBlocks dev) = true
  alloc : dev.alloc (pteBlocks dev * dev.blksz) = true

variable {h : GptHeader} {buf : List UInt8}

theorem Written.entriesCount_eq (hw : Written dev disk lba h buf) : entriesCount h = 16384 := by
  rw [entriesCount, hw.numPartitionEntries, hw.sizeofPartitionEntry]
  rfl

theorem pteBlocks_lt (dev : BlkDesc) : pteBlocks dev * dev.blksz < 2 ^ 32 := by
  have hlt := dev.blksz_lt
  have hdiv := div_mul_le_self 16383 dev.blksz
  unfold pteBlocks padCount
  rw [show 16384 - 1 = 16383 by rfl]
  by_cases hsmall : dev.blksz ≤ 16383
  · rw [Nat.add_mul]
    lia
  · rw [div_eq_of_lt (by lia)]
    lia

theorem Written.headerBuf_eq
    (hw : Written dev disk lba h buf) : bytes (headerBuf dev disk lba) 0 92 = headerBytes h := by
  have hge := dev.blksz_ge
  rw [headerBuf, bytes_blkDread (by lia), hw.header]

theorem Written.validate (hw : Written dev disk lba h buf) :
    (validateGptHeader dev (headerBuf dev disk lba) lba).1 = true := by
  unfold validateGptHeader
  simp only [headerAt_eq hw.fits hw.headerBuf_eq, headerCrc_eq hw.fits hw.headerSize hw.headerBuf_eq]
  rw [if_neg (not_not.mpr hw.signature), if_neg (not_not.mpr hw.headerCrc32.symm),
    if_neg (not_not.mpr hw.myLba), if_neg (Nat.not_lt.mpr hw.firstUsableLba),
    if_neg (Nat.not_lt.mpr hw.lastUsableLba)]

theorem Written.valid (hw : Written dev disk lba h buf) :
    ∃ pte, (isGptValid dev disk lba).1 = some (h, pte) ∧ bytes pte 0 16384 = buf.take 16384 := by
  have hh : headerAt (headerBuf dev disk lba) = h := headerAt_eq hw.fits hw.headerBuf_eq
  have hcount := hw.entriesCount_eq
  have hlba : h.partitionEntryLba % 2 ^ dev.lbaBits = h.partitionEntryLba :=
    mod_eq_of_lt hw.partitionEntryLba
  have hread : EntriesRead dev disk lba := by
    refine ⟨hw.headerReads, hw.validate, ?_, ?_, ?_⟩
    · rw [hh, hcount]
      decide
    · rw [hh, paddedCount, hcount]
      exact (congrArg dev.alloc (mod_eq_of_lt (pteBlocks_lt dev))).trans hw.alloc
    · rw [hh, hcount, hlba]
      exact hw.entriesReads
  have htable : tableAt dev disk lba =
      (h, blkDread dev disk h.partitionEntryLba (pteBlocks dev) dev.heap) := by
    rw [tableAt, hh, hcount, hlba]
    rfl
  have hfit : 16384 ≤ pteBlocks dev * dev.blksz := padded_ge 16384
  have hbytes : bytes (blkDread dev disk h.partitionEntryLba (pteBlocks dev) dev.heap) 0 16384 =
      buf.take 16384 := by
    rw [bytes_blkDread hfit, ← hw.entries, take_bytes, Nat.min_eq_left hfit]
  have hcrc : validateGptEntries (tableAt dev disk lba).1 (tableAt dev disk lba).2 = true := by
    rw [htable, validateGptEntries, hcount, hbytes, hw.arrayCrc32, beq_iff_eq]
  obtain ⟨hno, -⟩ | ⟨-, hno, -⟩ | ⟨-, hno, -⟩ | ⟨-, -, heq⟩ := @isGptValid_cases dev disk lba
  · rw [hw.headerReads] at hno
    cases hno
  · exact absurd hread hno
  · rw [hcrc] at hno
    cases hno
  · rw [heq, htable]
    exact ⟨_, rfl, hbytes⟩

theorem Written.mono {disk' : Mem}
    (hw : Written dev disk lba h buf)
    (hheader : ∀ x, lba * dev.blksz ≤ x → x < lba * dev.blksz + 92 → disk' x = disk x)
    (hentries : ∀ x, h.partitionEntryLba * dev.blksz ≤ x →
      x < h.partitionEntryLba * dev.blksz + pteBlocks dev * dev.blksz → disk' x = disk x) :
    Written dev disk' lba h buf :=
  { hw with
    header := (bytes_congr _ _ hheader).trans hw.header
    entries := (bytes_congr _ _ hentries).trans hw.entries }

end Tables

section Writing

variable {dev : BlkDesc}

variable {n : ℕ}

theorem lbaMinus_eq (hn : n ≤ dev.lba) : lbaMinus dev n = dev.lba - n := by
  have hlt := dev.lba_lt
  have hsum : dev.lba + 2 ^ dev.lbaBits - n = dev.lba - n + 2 ^ dev.lbaBits := by lia
  rw [lbaMinus, hsum, add_mod_right, mod_eq_of_lt (by lia)]

theorem lt_word (hn : n < 2 ^ dev.lbaBits) : n < 2 ^ 64 :=
  Nat.lt_of_lt_of_le hn (Nat.pow_le_pow_right (by decide) dev.lbaBits_le)

/- The header that `gpt_fill_header` fills in. -/
structure Filled (dev : BlkDesc) (h : GptHeader) : Prop where
  fits : h.Fits
  signature : h.signature = gptHeaderSignature
  headerSize : h.headerSize = 92
  headerCrc32 : h.headerCrc32 = 0
  myLba : h.myLba = 1
  alternateLba : h.alternateLba = dev.lba - 1
  firstUsableLba : h.firstUsableLba = 34
  lastUsableLba : h.lastUsableLba = dev.lba - 34
  partitionEntryLba : h.partitionEntryLba = 2
  numPartitionEntries : h.numPartitionEntries = 128
  sizeofPartitionEntry : h.sizeofPartitionEntry = 128

variable {h : GptHeader}

theorem gptFillHeader_filled (hlba : 67 ≤ dev.lba) {strGuid : List ℕ}
    (hh : gptFillHeader dev strGuid = some h) : Filled dev h := by
  have hlt := lt_word dev.lba_lt
  unfold gptFillHeader at hh
  cases hg : uuidStrToBin strGuid .guid with
  | none =>
    rw [hg] at hh
    cases hh
  | some diskGuid =>
    rw [hg, lbaMinus_eq (by lia), lbaMinus_eq (by lia)] at hh
    obtain rfl := some.inj hh
    refine ⟨?_, rfl, rfl, rfl, rfl, rfl, rfl, rfl, rfl, rfl, rfl⟩
    constructor <;> first
      | exact length_uuidStrToBin hg
      | (simp only [gptHeaderSignature, gptEntryNumbers]; lia)

theorem Filled.pteBlkCnt_eq (hh : Filled dev h) : pteBlkCnt dev h = pteBlocks dev := by
  rw [pteBlkCnt, hh.numPartitionEntries]
  rfl

theorem pteBlocks_le (dev : BlkDesc) : pteBlocks dev ≤ 32 := by
  have hdiv : 16383 / dev.blksz ≤ 16383 / 512 := div_le_div_left dev.blksz_ge (by decide)
  unfold pteBlocks padCount
  rw [show 16384 - 1 = 16383 by rfl]
  lia

theorem length_padTo {bs : List UInt8} (h : bs.length ≤ n) : (padTo n bs).length = n := by
  rw [padTo, length_append, length_replicate]
  lia

theorem bytes_of_padTo {mem : Mem} {a : ℕ} {bs : List UInt8} (hlen : bs.length ≤ n)
    (hb : bytes mem a n = padTo n bs) : bytes mem a bs.length = bs := by
  obtain ⟨m, rfl⟩ := Nat.exists_eq_add_of_le hlen
  exact (bytes_append_inj _ _ _ _ hb rfl).1

def finalDisk (dev : BlkDesc) (h : GptHeader) (es : List GptEntry) (disk : Mem) : Mem :=
  blkDwrite dev (blkDwrite dev (blkDwrite dev (blkDwrite dev (blkDwrite dev disk 0
    (mbrBytes dev ++ bytes dev.stack 512 (dev.blksz - 512)))
    1 (padTo dev.blksz (headerBytes (primaryHeader dev h es))))
    2 (entriesBuf dev h es))
    ((h.lastUsableLba + 1) % 2 ^ dev.lbaBits) (entriesBuf dev h es))
    (h.alternateLba % 2 ^ dev.lbaBits)
    (padTo dev.blksz (headerBytes (prepareBackupGptHeader (primaryHeader dev h es))))

variable {es : List GptEntry}

theorem writeGptTable_disk {writes : ℕ → ℕ → Bool}
    {disk : Mem} (hret : (writeGptTable dev writes h es disk).1 = true) :
    (writeGptTable dev writes h es disk).2 = finalDisk dev h es disk := by
  unfold writeGptTable at hret ⊢
  split at hret
  · cases hret
  · next h0 =>
    rw [if_neg h0]
    simp only at hret ⊢
    split at hret
    · cases hret
    · next h1 =>
      rw [if_neg h1]
      split at hret
      · cases hret
      · next h2 =>
        rw [if_neg h2]
        split at hret
        · cases hret
        · next h3 =>
          rw [if_neg h3]
          split at hret
          · cases hret
          · next h4 =>
            rw [if_neg h4]
            rfl

theorem finalDisk_bytes (hlba : 67 ≤ dev.lba) (hh : Filled dev h) (hes : (es.flatMap entryBytes).length ≤ 16384) (disk : Mem) :
    bytes (finalDisk dev h es disk) (1 * dev.blksz) dev.blksz =
        padTo dev.blksz (headerBytes (primaryHeader dev h es)) ∧
      bytes (finalDisk dev h es disk) (2 * dev.blksz) (pteBlocks dev * dev.blksz) =
        entriesBuf dev h es ∧
      bytes (finalDisk dev h es disk) ((dev.lba - 33) * dev.blksz) (pteBlocks dev * dev.blksz) =
        entriesBuf dev h es ∧
      bytes (finalDisk dev h es disk) ((dev.lba - 1) * dev.blksz) dev.blksz =
        padTo dev.blksz (headerBytes (prepareBackupGptHeader (primaryHeader dev h es))) := by
  have hlt := dev.lba_lt
  have hge := dev.blksz_ge
  have hn := pteBlocks_le dev
  have hfit : 16384 ≤ pteBlocks dev * dev.blksz := padded_ge 16384
  have hb : (h.lastUsableLba + 1) % 2 ^ dev.lbaBits = dev.lba - 33 := by
    rw [hh.lastUsableLba, mod_eq_of_lt (by lia)]
    lia
  have hc : h.alternateLba % 2 ^ dev.lbaBits = dev.lba - 1 := by
    rw [hh.alternateLba, mod_eq_of_lt (by lia)]
  have g1 : (headerBytes (primaryHeader dev h es)).length = 92 := length_headerBytes hh.fits.diskGuid
  have g3 : (headerBytes (prepareBackupGptHeader (primaryHeader dev h es))).length = 92 :=
    length_headerBytes hh.fits.diskGuid
  have l1 : (padTo dev.blksz (headerBytes (primaryHeader dev h es))).length = dev.blksz :=
    length_padTo (by lia)
  have l2 : (entriesBuf dev h es).length = pteBlocks dev * dev.blksz := by
    rw [entriesBuf, hh.pteBlkCnt_eq, length_padTo (by lia)]
  have l3 : (padTo dev.blksz (headerBytes (prepareBackupGptHeader
      (primaryHeader dev h es)))).length = dev.blksz :=
    length_padTo (by lia)
  -- blocks in the order of the disk
  have m2 : 2 * dev.blksz + pteBlocks dev * dev.blksz ≤ (dev.lba - 33) * dev.blksz := by
    rw [← Nat.add_mul]
    exact Nat.mul_le_mul_right _ (by lia)
  have m3 : (dev.lba - 33) * dev.blksz + pteBlocks dev * dev.blksz ≤ (dev.lba - 1) * dev.blksz := by
    rw [← Nat.add_mul]
    exact Nat.mul_le_mul_right _ (by lia)
  unfold finalDisk blkDwrite
  rw [hb, hc]
  generalize padTo dev.blksz (headerBytes (primaryHeader dev h es)) = b1 at *
  generalize entriesBuf dev h es = b2 at *
  generalize padTo dev.blksz (headerBytes (prepareBackupGptHeader (primaryHeader dev h es))) = b3
    at *
  generalize (dev.lba - 33) * dev.blksz = x3 at *
  generalize (dev.lba - 1) * dev.blksz = x4 at *
  generalize pteBlocks dev * dev.blksz = n at *
  refine ⟨?_, ?_, ?_, ?_⟩
  · rw [bytes_store_apart _ _ _ _ _ (.inl (by lia)),
      bytes_store_apart _ _ _ _ _ (.inl (by lia)),
      bytes_store_apart _ _ _ _ _ (.inl (by lia))]
    exact l1 ▸ bytes_store_same _ _ _
  · rw [bytes_store_apart _ _ _ _ _ (.inl (by lia)),
      bytes_store_apart _ _ _ _ _ (.inl (by lia))]
    exact l2 ▸ bytes_store_same _ _ _
  · rw [bytes_store_apart _ _ _ _ _ (.inl (by lia))]
    exact l2 ▸ bytes_store_same _ _ _
  · exact l3 ▸ bytes_store_same _ _ _

theorem setHeaderCrc_crc (hguid : h.diskGuid.length = 16) (hsize : h.headerSize = 92)
    (hzero : h.headerCrc32 = 0) :
    (setHeaderCrc h).headerCrc32 = crc32 (headerBytes { setHeaderCrc h with headerCrc32 := 0 }) := by
  have hsame : { setHeaderCrc h with headerCrc32 := 0 } = h := by
    rw [setHeaderCrc, ← hzero]
  rw [hsame, setHeaderCrc, hsize, take_of_length_le (by rw [length_headerBytes hguid])]

structure Works (dev : BlkDesc) : Prop where
  large : 67 ≤ dev.lba
  reads : ∀ blk count, blk + count ≤ dev.lba → dev.reads blk count = true
  alloc : dev.alloc (pteBlocks dev * dev.blksz) = true

/- A header that differs from the filled one in its place and that of its copy and its entries. -/
theorem written_header (hd : Works dev) (hh : Filled dev h) (alternateLba : ℕ) {g : GptHeader}
    {disk : Mem} {lba entryLba : ℕ} (hg : g = setHeaderCrc { h with
      headerCrc32 := 0, myLba := lba, alternateLba := alternateLba, partitionEntryLba := entryLba,
      partitionEntryArrayCrc32 := crc32 ((entriesBuf dev h es).take (entriesCount h)) })
    (hlba : lba < dev.lba) (halternate : alternateLba < dev.lba)
    (hentry : entryLba + 32 < dev.lba)
    (hheader : bytes disk (lba * dev.blksz) dev.blksz = padTo dev.blksz (headerBytes g))
    (hentries : bytes disk (entryLba * dev.blksz) (pteBlocks dev * dev.blksz) = entriesBuf dev h es) :
    Written dev disk lba g (entriesBuf dev h es) := by
  have hlarge := hd.large
  have hlt := dev.lba_lt
  have hword := lt_word hlt
  have hge := dev.blksz_ge
  have hn := pteBlocks_le dev
  have hcount : entriesCount h = 16384 := by
    rw [entriesCount, hh.numPartitionEntries, hh.sizeofPartitionEntry]
    rfl
  subst hg
  have hguid := length_headerBytes (h := setHeaderCrc { h with
    headerCrc32 := 0, myLba := lba, alternateLba := alternateLba, partitionEntryLba := entryLba,
    partitionEntryArrayCrc32 := crc32 ((entriesBuf dev h es).take (entriesCount h)) })
    hh.fits.diskGuid
  exact
    { header := hguid ▸ bytes_of_padTo (by lia) hheader
      fits := { hh.fits with
        headerCrc32 := crc32_lt _
        myLba := by change lba < _; lia
        alternateLba := by change alternateLba < _; lia
        partitionEntryLba := by change entryLba < _; lia
        partitionEntryArrayCrc32 := crc32_lt _ }
      signature := hh.signature
      headerSize := hh.headerSize
      headerCrc32 := setHeaderCrc_crc hh.fits.diskGuid hh.headerSize rfl
      myLba := rfl
      firstUsableLba := by change h.firstUsableLba ≤ _; rw [hh.firstUsableLba]; lia
      lastUsableLba := by change h.lastUsableLba ≤ _; rw [hh.lastUsableLba]; lia
      numPartitionEntries := hh.numPartitionEntries
      sizeofPartitionEntry := hh.sizeofPartitionEntry
      partitionEntryLba := by change entryLba < _; lia
      entries := hentries
      arrayCrc32 := by rw [← hcount]; rfl
      headerReads := hd.reads lba 1 hlba
      entriesReads := hd.reads entryLba _ (by lia)
      alloc := hd.alloc }

theorem primary_written (hd : Works dev) (hh : Filled dev h) (hes : (es.flatMap entryBytes).length ≤ 16384) (disk : Mem) :
    Written dev (finalDisk dev h es disk) 1 (primaryHeader dev h es) (entriesBuf dev h es) := by
  have hlba := hd.large
  obtain ⟨r1, r2, -, -⟩ := finalDisk_bytes hlba hh hes disk
  refine written_header hd hh (dev.lba - 1) ?_ (by lia) (by lia) (by lia) r1 r2
  rw [primaryHeader, ← hh.alternateLba]
  congr 1
  simp only [hh.headerCrc32, hh.myLba, hh.partitionEntryLba]

theorem backup_written (hd : Works dev) (hh : Filled dev h) (hes : (es.flatMap entryBytes).length ≤ 16384) (disk : Mem) :
    Written dev (finalDisk dev h es disk) (dev.lba - 1)
      (prepareBackupGptHeader (primaryHeader dev h es)) (entriesBuf dev h es) := by
  have hlba := hd.large
  have hlt := dev.lba_lt
  have hword := lt_word hlt
  obtain ⟨-, -, r3, r4⟩ := finalDisk_bytes hlba hh hes disk
  have hentry : (h.lastUsableLba + 1) % 2 ^ 64 = dev.lba - 33 := by
    rw [hh.lastUsableLba, mod_eq_of_lt (by lia)]
    lia
  refine written_header hd hh 1 ?_ (by lia) (by lia) (by lia) r4 r3
  unfold prepareBackupGptHeader primaryHeader
  simp only [setHeaderCrc, hh.alternateLba, hh.myLba, hentry]

end Writing

section Entries

variable {dev : BlkDesc}

def offsetsFrom (dev : BlkDesc) : ℕ → List Request → List ℕ
  | _, [] => []
  | offset, p :: ps => offset :: offsetsFrom dev (endFrom dev offset p) ps

/- The entry `e` for the partition `p` behind `offset`; `last` is the last usable block, and
`extended` that the partition reaches up to it. -/
structure EntryFor (dev : BlkDesc) (last offset : ℕ) (extended : Prop) (p : Request)
    (e : GptEntry) : Prop where
  uuid : uuidStrToBin p.uuid .std = some e.uniquePartitionGuid
  type : e.partitionTypeGuid = basicDataGuid
  start : e.startingLba = startFrom offset p
  toLast : extended → e.endingLba = last
  ending : ¬ extended → e.endingLba = (endFrom dev offset p + 2 ^ dev.lbaBits - 1) % 2 ^ dev.lbaBits
  attributes : e.attributes < 2 ^ 64
  name : e.partitionName = p.name ++ List.replicate 4 0
  room : endFrom dev offset p < last % 2 ^ dev.lbaBits

variable {last offset : ℕ}

theorem gptFillPte_cons {p : Request} {ps : List Request} {es : List GptEntry}
    (hfill : gptFillPte dev last offset (p :: ps) = some es) :
    ∃ e rest, es = e :: rest ∧ gptFillPte dev last (endFrom dev offset p) ps = some rest ∧
      EntryFor dev last offset (ps = [] ∧ p.size = 0) p e := by
  rw [gptFillPte] at hfill
  split at hfill
  · cases hfill
  split at hfill
  · cases hfill
  next hroom =>
  split at hfill
  · cases hfill
  next bin hbin =>
  split at hfill
  · cases hfill
  next rest hrest =>
  cases hfill
  refine ⟨_, rest, rfl, hrest, hbin, rfl, rfl, fun hext => if_pos hext,
    fun hext => if_neg hext, ?_, rfl, by lia⟩
  dsimp only
  split
  · decide
  · decide

theorem gptFillPte_spec {ps : List Request} {es : List GptEntry}
    (hfill : gptFillPte dev last offset ps = some es) :
    es.length = ps.length ∧ ∀ i p, ps[i]? = some p → ∃ o e,
      (offsetsFrom dev offset ps)[i]? = some o ∧ es[i]? = some e ∧
        EntryFor dev last o (i + 1 = ps.length ∧ p.size = 0) p e := by
  induction ps generalizing offset es with
  | nil =>
    obtain rfl := some.inj hfill
    exact ⟨rfl, fun i p hp => by cases hp⟩
  | cons p ps ih =>
    obtain ⟨e, rest, rfl, hrest, hfor⟩ := gptFillPte_cons hfill
    obtain ⟨hlen, hall⟩ := ih hrest
    refine ⟨by rw [length_cons, length_cons, hlen], ?_⟩
    intro i q hq
    cases i with
    | zero =>
      rw [getElem?_cons_zero, some.injEq] at hq
      subst hq
      refine ⟨offset, e, rfl, rfl, ?_⟩
      simpa only [length_cons, Nat.right_eq_add, Nat.zero_add, length_eq_zero_iff] using hfor
    | succ i =>
      rw [getElem?_cons_succ] at hq
      obtain ⟨o, e, ho, he, hfor⟩ := hall i q hq
      refine ⟨o, e, ho, he, ?_⟩
      rw [length_cons]
      simpa only [Nat.add_right_cancel_iff] using hfor

theorem length_offsetsFrom (offset : ℕ) (ps : List Request) :
    (offsetsFrom dev offset ps).length = ps.length := by
  induction ps generalizing offset with
  | nil => rfl
  | cons p ps ih => rw [offsetsFrom, length_cons, ih, length_cons]

/- What a caller passes: numbers of `lbaint_t`, and a printable name with its end in the array. -/
structure Request.Proper (dev : BlkDesc) (p : Request) : Prop where
  start : p.start < 2 ^ dev.lbaBits
  size : p.size < 2 ^ dev.lbaBits
  short : 0 ∈ p.name
  printable : ∀ c ∈ p.text, isprint c = true

theorem offsets_lt (hoff : offset < 2 ^ dev.lbaBits) (ps : List Request) :
    ∀ o ∈ offsetsFrom dev offset ps, o < 2 ^ dev.lbaBits := by
  induction ps generalizing offset with
  | nil =>
    intro o ho
    cases ho
  | cons p ps ih =>
    intro o ho
    cases mem_cons.mp ho with
    | inl ho =>
      rw [ho]
      exact hoff
    | inr ho => exact ih (mod_lt _ (Nat.two_pow_pos _)) o ho

variable {p : Request}

theorem startFrom_lt (hp : p.Proper dev)
    (hoff : offset < 2 ^ dev.lbaBits) : startFrom offset p < 2 ^ dev.lbaBits := by
  unfold startFrom
  split
  · exact hp.start
  · exact hoff

variable {extended : Prop} {e : GptEntry}

theorem EntryFor.fits (he : EntryFor dev last offset extended p e) (hp : p.Proper dev)
    (hoff : offset < 2 ^ dev.lbaBits) (hlast : last < 2 ^ 64) : e.Fits := by
  refine ⟨?_, length_uuidStrToBin he.uuid, ?_, ?_, he.attributes, ?_, ?_⟩
  · rw [he.type]
    rfl
  · rw [he.start]
    exact lt_word (startFrom_lt hp hoff)
  · by_cases hext : extended
    · rw [he.toLast hext]
      exact hlast
    · rw [he.ending hext]
      exact lt_word (mod_lt _ (Nat.two_pow_pos _))
  · rw [he.name, length_append, p.name_length, length_replicate]
  · intro c hc
    rw [he.name] at hc
    cases mem_append.mp hc with
    | inl hc => exact p.name_byte c hc
    | inr hc =>
      rw [eq_of_mem_replicate hc]
      decide

theorem takeWhile_zeros (xs : List ℕ) (n : ℕ) :
    (xs ++ List.replicate n 0).takeWhile (· ≠ 0) = xs.takeWhile (· ≠ 0) := by
  induction xs with
  | nil => cases n <;> simp [replicate_succ]
  | cons x xs ih =>
    rw [cons_append, takeWhile_cons, takeWhile_cons, ih]

theorem takeWhile_efiChar {xs : List ℕ} (hlt : ∀ c ∈ xs, c < 256)
    (hprint : ∀ c ∈ xs.takeWhile (· ≠ 0), isprint c = true) :
    (xs.map efiChar).takeWhile (· ≠ 0) = xs.takeWhile (· ≠ 0) := by
  induction xs with
  | nil => rfl
  | cons x xs ih =>
    have hx := hlt x (mem_cons_self ..)
    by_cases hzero : x = 0
    · subst hzero
      rfl
    · have hcons : ∀ ys : List ℕ, (x :: ys).takeWhile (· ≠ 0) = x :: ys.takeWhile (· ≠ 0) :=
        fun ys => takeWhile_cons_of_pos (by simpa using hzero)
      rw [hcons] at hprint
      have hchar : efiChar x = x := by
        have hp := hprint x (mem_cons_self ..)
        simp [efiChar, mod_eq_of_lt hx, hp]
      rw [map_cons, hchar, hcons, hcons,
        ih (fun c hc => hlt c (mem_cons_of_mem _ hc))
          (fun c hc => hprint c (mem_cons_of_mem _ hc))]

theorem EntryFor.printed (he : EntryFor dev last offset extended p e) (hp : p.Proper dev) :
    printEfiname e = p.text := by
  rw [printEfiname, he.name]
  have hsame := takeWhile_zeros p.name 4
  rw [takeWhile_efiChar]
  · exact hsame
  · intro c hc
    cases mem_append.mp hc with
    | inl hc => exact p.name_byte c hc
    | inr hc =>
      rw [eq_of_mem_replicate hc]
      decide
  · rw [hsame]
    exact hp.printable

theorem strncmpEq_takeWhile (n : ℕ) (xs : List ℕ) : strncmpEq n (xs.takeWhile (· ≠ 0)) xs = true := by
  induction n generalizing xs with
  | zero => rfl
  | succ n ih =>
    cases xs with
    | nil => rfl
    | cons x xs =>
      rw [strncmpEq]
      by_cases hzero : x = 0
      · subst hzero
        rfl
      · have hcons : (x :: xs).takeWhile (· ≠ 0) = x :: xs.takeWhile (· ≠ 0) :=
          takeWhile_cons_of_pos (by simpa using hzero)
        rw [hcons, headD_cons, headD_cons, if_neg (not_not.mpr rfl), if_neg hzero]
        exact ih xs

theorem EntryFor.converted
    (he : EntryFor dev last offset extended p e) (hp : p.Proper dev) {pte : Mem} {i : ℕ}
    (hname : bytes pte (128 * i + 56) (2 * e.partitionName.length) =
      e.partitionName.flatMap (leBytes 2)) :
    gptConvertEfiNameToChar pte i 37 = p.text := by
  have hchar : ∀ k, (hk : k < 32) →
      (pte (128 * i + 56 + 2 * k)).toNat = p.name.get ⟨k, by rw [p.name_length]; exact hk⟩ := by
    intro k hk
    have hlen : k < p.name.length := by rw [p.name_length]; exact hk
    have hget : e.partitionName[k]? = some (p.name.get ⟨k, hlen⟩) := by
      rw [he.name, getElem?_append_left hlen]
      exact getElem?_eq_getElem hlen
    have hb := bytes_flatMap (fun x _ => length_leBytes 2 x) hname hget
    have hlt := p.name_byte _ (get_mem p.name ⟨k, hlen⟩)
    rw [show (2 : ℕ) = 1 + 1 by rfl, bytes_succ, leBytes, List.cons.injEq] at hb
    rw [hb.1, UInt8.toNat_ofNat', mod_eq_of_lt (by lia)]
  have hmap : ((List.range 32).map fun k => (pte (128 * i + 56 + 2 * k)).toNat) = p.name := by
    apply ext_getElem
    · simp [p.name_length]
    · intro k h1 h2
      rw [getElem_map, getElem_range]
      exact hchar k (by rw [p.name_length] at h2; exact h2)
  have hstop : ∀ rest : List ℕ, (p.name ++ rest).takeWhile (· ≠ 0) = p.name.takeWhile (· ≠ 0) := by
    intro rest
    rw [takeWhile_append, if_neg]
    intro hfull
    have hself : p.name.takeWhile (· ≠ 0) = p.name := ( takeWhile_prefix _).eq_of_length hfull
    have hmem := hp.short
    rw [← hself] at hmem
    simpa using all_eq_true.mp all_takeWhile _ hmem
  rw [gptConvertEfiNameToChar, show 37 = 32 + 5 by rfl, range_add, map_append, hmap, hstop]
  rfl

theorem size_read {w s z : ℕ} (hs : s < w) (hz : z < w) :
    (((s + z) % w + w - 1) % w % w + 1 + (w - s)) % w = z := by
  have hsum : (s + z) % w = s + z ∨ (w ≤ s + z ∧ (s + z) % w = s + z - w) := by
    by_cases hlt : s + z < w
    · exact .inl (mod_eq_of_lt hlt)
    · refine .inr ⟨by lia, ?_⟩
      rw [mod_eq_sub_mod (by lia), mod_eq_of_lt (by lia)]
  have hx : (s + z) % w < w := mod_lt _ (by lia)
  generalize (s + z) % w = x at *
  rw [mod_mod]
  by_cases hzero : x = 0
  · rw [hzero, Nat.zero_add, mod_eq_of_lt (show w - 1 < w by lia),
      show w - 1 + 1 + (w - s) = w - s + w by lia, add_mod_right]
    by_cases hs0 : s = 0
    · rw [hs0, Nat.sub_zero, mod_self]
      lia
    · rw [mod_eq_of_lt (by lia)]
      lia
  · rw [show x + w - 1 = x - 1 + w by lia, add_mod_right,
      mod_eq_of_lt (show x - 1 < w by lia)]
    have hcases : x - 1 + 1 + (w - s) = z + w ∨ x - 1 + 1 + (w - s) = z := by lia
    cases hcases with
    | inl h => rw [h, add_mod_right, mod_eq_of_lt hz]
    | inr h => rw [h, mod_eq_of_lt hz]

theorem size_verified {w m s z : ℕ} (hwm : w ≤ m) (hs : s < w) (hz : z < w) :
    ((((s + z) % w + w - 1) % w) + (m - s) + 1) % m = z ↔ w = m ∨ (1 ≤ s + z ∧ s + z ≤ w) := by
  by_cases hlt : s + z < w
  · rw [mod_eq_of_lt hlt]
    by_cases hzero : s + z = 0
    · have hs0 : s = 0 := by lia
      have hz0 : z = 0 := by lia
      subst hs0 hz0
      rw [Nat.add_zero, Nat.zero_add, mod_eq_of_lt (show w - 1 < w by lia), Nat.sub_zero,
        show w - 1 + m + 1 = w + m by lia, add_mod_right]
      by_cases heq : w = m
      · rw [heq, mod_self]
        lia
      · rw [mod_eq_of_lt (by lia)]
        lia
    · rw [show s + z + w - 1 = s + z - 1 + w by lia, add_mod_right,
        mod_eq_of_lt (show s + z - 1 < w by lia),
        show s + z - 1 + (m - s) + 1 = z + m by lia, add_mod_right,
        mod_eq_of_lt (by lia)]
      lia
  · have hsub : (s + z) % w = s + z - w := by
      rw [mod_eq_sub_mod (by lia), mod_eq_of_lt (by lia)]
    rw [hsub]
    by_cases hexact : s + z = w
    · rw [hexact, Nat.sub_self, Nat.zero_add, mod_eq_of_lt (show w - 1 < w by lia),
        show w - 1 + (m - s) + 1 = z + m by lia, add_mod_right, mod_eq_of_lt (by lia)]
      lia
    · rw [show s + z - w + w - 1 = s + z - w - 1 + w by lia, add_mod_right,
        mod_eq_of_lt (show s + z - w - 1 < w by lia)]
      by_cases heq : w = m
      · rw [show s + z - w - 1 + (m - s) + 1 = z by lia, mod_eq_of_lt (by lia)]
        lia
      · rw [mod_eq_of_lt (by lia)]
        lia

theorem EntryFor.size_read (he : EntryFor dev last offset extended p e) (hp : p.Proper dev)
    (hoff : offset < 2 ^ dev.lbaBits) (hlast : last + 1 < 2 ^ dev.lbaBits)
    (hext : extended → p.size = 0) :
    (¬ extended → (infoOf dev e).size = p.size) ∧ (extended → (infoOf dev e).size ≠ p.size) := by
  have hs := startFrom_lt hp hoff
  have hroom := he.room
  have hlast' : last < 2 ^ dev.lbaBits := by lia
  unfold endFrom at hroom
  constructor
  · intro hnot
    simp only [infoOf, he.start, he.ending hnot, mod_eq_of_lt hs]
    exact Gpt.size_read hs hp.size
  · intro hyes
    rw [hext hyes, Nat.add_zero, mod_eq_of_lt hs, mod_eq_of_lt hlast'] at hroom
    simp only [infoOf, he.start, he.toLast hyes, mod_eq_of_lt hs, mod_eq_of_lt hlast', hext hyes]
    generalize startFrom offset p = s at *
    generalize 2 ^ dev.lbaBits = w at *
    rw [show last + 1 + (w - s) = last + 1 - s + w by lia, add_mod_right, mod_eq_of_lt (by lia)]
    lia

theorem EntryFor.size_verified (he : EntryFor dev last offset extended p e) (hp : p.Proper dev)
    (hoff : offset < 2 ^ dev.lbaBits) (hlast : last + 1 < 2 ^ dev.lbaBits)
    (hext : extended → p.size = 0) :
    gptPartSize e = p.size ↔
      ¬ extended ∧ (dev.lbaBits = 64 ∨ (1 ≤ startFrom offset p + p.size ∧
        startFrom offset p + p.size ≤ 2 ^ dev.lbaBits)) := by
  have hs := startFrom_lt hp hoff
  have hroom := he.room
  have hle : 2 ^ dev.lbaBits ≤ 2 ^ 64 := Nat.pow_le_pow_right (by decide) dev.lbaBits_le
  have hbits : 2 ^ dev.lbaBits = 2 ^ 64 ↔ dev.lbaBits = 64 :=
    ⟨fun h => Nat.pow_right_injective (Nat.le_refl 2) h, fun h => by rw [h]⟩
  have hlast' : last < 2 ^ dev.lbaBits := by lia
  unfold endFrom at hroom
  rw [gptPartSize, he.start]
  by_cases hyes : extended
  · rw [hext hyes, Nat.add_zero, mod_eq_of_lt hs, mod_eq_of_lt hlast'] at hroom
    rw [he.toLast hyes, hext hyes]
    have hbig : last + (2 ^ 64 - startFrom offset p) + 1 =
        last - startFrom offset p + 1 + 2 ^ 64 := by omega
    rw [hbig, add_mod_right, mod_eq_of_lt (by omega)]
    exact iff_of_false (by lia) fun h => h.1 hyes
  · rw [he.ending hyes, endFrom, Gpt.size_verified hle hs hp.size, hbits]
    exact ⟨fun h => ⟨hyes, h⟩, fun h => h.2⟩

end Entries

end UBoot.Gpt
