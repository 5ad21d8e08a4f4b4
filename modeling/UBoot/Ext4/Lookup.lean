import UBoot.Ext4.Inverse

/-!
# Looking blocks up (fs/ext4/ext4_common.c)

`read_allocated_block` for every inode, and what the disk says a block of a file is. Words are little
endian; what is read behind the end of a block, or behind the map of an inode, has no value. Allocations
of memory and transfers succeed, `lbaint_t` has 64 bits and `long` has `longBits`.
-/

namespace UBoot.Ext4

open List Option

/- A block or the map of an inode by words; `none` is behind its end. -/
abbrev Words := ℕ → Option ℕ

structure FileInode where
  flags : ℕ
  blocks : Inode

def ext4ExtentsFl : ℕ := 0x00080000
def ext4ExtMagic : ℕ := 0xf30a

def FileInode.extents (inode : FileInode) : Bool := inode.flags &&& ext4ExtentsFl ≠ 0

/- `b.blocks` from `dir_blocks` on. -/
def FileInode.words (inode : FileInode) : Words := fun i =>
  if i < indirectBlocks then some (inode.blocks.dirBlocks i)
  else if i = 12 then some inode.blocks.indirBlock
  else if i = 13 then some inode.blocks.doubleIndirBlock
  else if i = 14 then some inode.blocks.tripleIndirBlock
  else none

def blockWords (blksz : ℕ) (disk : ℕ → ℕ → ℕ) (b : ℕ) : Words := fun i =>
  if i < blksz / 4 then some (disk b i) else none

structure ExtentHeader where
  magic : ℕ
  entries : ℕ
  depth : ℕ

structure Extent where
  block : ℕ
  len : ℕ
  start : ℕ

def headerOf (w : Words) : Option ExtentHeader := do
  let first ← w 0
  let second ← w 1
  return ⟨first % 2 ^ 16, first / 2 ^ 16, second / 2 ^ 16⟩

/- `ei_block` or `ee_block`. -/
def keyAt (w : Words) (i : ℕ) : Option ℕ := w (3 + 3 * i)

def leafAt (w : Words) (i : ℕ) : Option ℕ := do
  let lo ← w (3 + 3 * i + 1)
  let hi ← w (3 + 3 * i + 2)
  return (hi % 2 ^ 16) * 2 ^ 32 + lo

def extentAt (w : Words) (i : ℕ) : Option Extent := do
  let block ← keyAt w i
  let lenHi ← w (3 + 3 * i + 1)
  let lo ← w (3 + 3 * i + 2)
  return ⟨block, lenHi % 2 ^ 16, (lenHi / 2 ^ 16) * 2 ^ 32 + lo⟩

/- The loop over the entries from `i` on, of which `m` are left. -/
def scanEntries (w : Words) (fileblock : ℕ) : ℕ → ℕ → Option ℕ
  | 0, i => some i
  | m + 1, i =>
    match keyAt w i with
    | none => none
    | some key => if key ≤ fileblock then scanEntries w fileblock m (i + 1) else some i

inductive Descent where
  | leaf (w : Words)
  -- a null pointer
  | invalid
  -- a word behind the end of a block
  | outside

section Lookup

variable (blksz log2Blksz : ℕ) (disk : ℕ → ℕ → ℕ)

def ext4fsGetExtentBlock (fileblock : ℕ) : ℕ → Words → Option Descent
  | 0, _ => none
  | fuel + 1, w =>
    match headerOf w with
    | none => some .outside
    | some header =>
      if header.magic ≠ ext4ExtMagic then some .invalid
      else if header.depth = 0 then some (.leaf w)
      else
        match scanEntries w fileblock header.entries 0 with
        | none => some .outside
        | some 0 => some .invalid
        | some (i + 1) =>
          match leafAt w i with
          | none => some .outside
          | some block => ext4fsGetExtentBlock fileblock fuel (blockWords blksz disk block)

/- A number as a `long`. -/
def toLong (longBits n : ℕ) : ℤ :=
  if n % 2 ^ longBits < 2 ^ (longBits - 1) then (n % 2 ^ longBits : ℕ)
  else (n % 2 ^ longBits : ℕ) - 2 ^ longBits

def readLeaf (longBits fileblock : ℕ) (w : Words) : Option ℤ := do
  let header ← headerOf w
  match ← scanEntries w fileblock header.entries 0 with
  | 0 => return -1
  | i + 1 =>
    let extent ← extentAt w i
    if extent.len ≤ fileblock - extent.block then return 0
    else return toLong longBits (fileblock - extent.block + extent.start)

/- `none` when the call does not return or reads behind a buffer. -/
def readBlock (longBits fuel : ℕ) (inode : FileInode) (s : Caches) (fileblock : ℕ) :
    Option (ℤ × Caches) :=
  if inode.extents then
    match ext4fsGetExtentBlock blksz disk fileblock fuel inode.words with
    | none => none
    | some .outside => none
    -- -EINVAL
    | some .invalid => some (-22, s)
    | some (.leaf w) => (readLeaf longBits fileblock w).map fun r => (r, s)
  else
    (readAllocatedBlock blksz log2Blksz disk inode.blocks s fileblock).map fun r =>
      (toLong longBits r.1, r.2)

def readBlocks (longBits fuel : ℕ) : Caches → List (FileInode × ℕ) → Option (List ℤ × Caches)
  | s, [] => some ([], s)
  | s, (inode, fileblock) :: calls =>
    match readBlock blksz log2Blksz disk longBits fuel inode s fileblock with
    | none => none
    | some (r, s₁) =>
      match readBlocks longBits fuel s₁ calls with
      | none => none
      | some (rs, s₂) => some (r :: rs, s₂)

/- Without extents: the blocks on the way to a block of the file, and its number. -/
def indirectPath (inode : Inode) (fileblock : ℕ) : List ℕ × ℕ :=
  let k := blksz / 4
  if fileblock < indirectBlocks then ([], inode.dirBlocks fileblock)
  else if fileblock < indirectBlocks + k then
    ([inode.indirBlock], disk inode.indirBlock (fileblock - indirectBlocks))
  else if fileblock < indirectBlocks + k + k * k then
    let r := fileblock - (indirectBlocks + k)
    let child := disk inode.doubleIndirBlock (r / k)
    ([inode.doubleIndirBlock, child], disk child (r % k))
  else
    let r := fileblock - (indirectBlocks + k + k * k)
    let parent := disk inode.tripleIndirBlock (r / (k * k))
    let child := disk parent (r / k % k)
    ([inode.tripleIndirBlock, parent, child], disk child (r % k))

/- The way from the root of a tree of extents to the leaf for a block. -/
inductive Descends (fileblock : ℕ) : Words → Words → Prop where
  | leaf {w : Words} {header : ExtentHeader} (hheader : headerOf w = some header)
      (hmagic : header.magic = ext4ExtMagic) (hdepth : header.depth = 0) : Descends fileblock w w
  | index {w leaf : Words} {header : ExtentHeader} {i block : ℕ}
      (hheader : headerOf w = some header) (hmagic : header.magic = ext4ExtMagic)
      (hdepth : header.depth ≠ 0)
      (hscan : scanEntries w fileblock header.entries 0 = some (i + 1))
      (hblock : leafAt w i = some block)
      (hrest : Descends fileblock (blockWords blksz disk block) leaf) : Descends fileblock w leaf

/- `EXT_INIT_MAX_LEN` of the format: a greater length is that of an uninitialised extent. -/
def extInitMaxLen : ℕ := 32768

def Extent.initialised (e : Extent) : Prop := e.len ≤ extInitMaxLen

def Extent.length (e : Extent) : ℕ := if e.len ≤ extInitMaxLen then e.len else e.len - extInitMaxLen

def Extent.Covers (e : Extent) (fileblock : ℕ) : Prop :=
  e.block ≤ fileblock ∧ fileblock < e.block + e.length

def HasExtents (w : Words) (es : List Extent) : Prop :=
  ∃ header, headerOf w = some header ∧ es.length = header.entries ∧
    ∀ i (h : i < es.length), extentAt w i = some es[i]

structure Mapped (es : List Extent) (fileblock : ℕ) (r : ℤ) : Prop where
  block : ∀ e ∈ es, e.Covers fileblock → e.initialised → r = e.start + (fileblock - e.block)
  hole : (∀ e ∈ es, e.Covers fileblock → ¬ e.initialised) → r = 0

def OnDisk (inode : FileInode) (fileblock : ℕ) (r : ℤ) : Prop :=
  if inode.extents then
    ∃ leaf es, Descends blksz disk fileblock inode.words leaf ∧ HasExtents leaf es ∧
      Mapped es fileblock r
  else r = (indirectPath blksz disk inode.blocks fileblock).2

/- The lookups the code is right about. The indirect blocks are of a set on which 32 bits of the
sector tell them apart, a block behind three of them is in the first tree of the second level, an
extent is found whose length is not that of an uninitialised one, and the number is positive as a
`long`. -/
def LookupOk (longBits : ℕ) (blocks : Set ℕ) (inode : FileInode) (fileblock : ℕ) : Prop :=
  if inode.extents then
    ∃ leaf es, Descends blksz disk fileblock inode.words leaf ∧ HasExtents leaf es ∧
      es.Pairwise (fun e e' => e.block + e.length ≤ e'.block) ∧
      (∃ e ∈ es, e.block ≤ fileblock) ∧
      (∀ e ∈ es, e.block ≤ fileblock → fileblock < e.block + e.len → e.initialised) ∧
      ∀ e ∈ es, e.Covers fileblock → e.start + (fileblock - e.block) < 2 ^ (longBits - 1)
  else
    (∀ b ∈ (indirectPath blksz disk inode.blocks fileblock).1, b ∈ blocks) ∧
      (indirectPath blksz disk inode.blocks fileblock).2 < 2 ^ (longBits - 1) ∧
      fileblock < indirectBlocks + blksz / 4 + 2 * (blksz / 4 * (blksz / 4))

end Lookup

section Extents

variable {blksz : ℕ} {disk : ℕ → ℕ → ℕ} {fileblock : ℕ}

variable {w : Words}

theorem Descends.found {leaf : Words} (h : Descends blksz disk fileblock w leaf) :
    ∃ n, ∀ m, n ≤ m → ext4fsGetExtentBlock blksz disk fileblock m w = some (.leaf leaf) := by
  induction h with
  | leaf hheader hmagic hdepth =>
    refine ⟨1, fun m hm => ?_⟩
    obtain ⟨k, rfl⟩ := Nat.exists_eq_add_of_le' hm
    simp only [ext4fsGetExtentBlock, hheader, hmagic, ne_eq, not_true_eq_false, if_false, hdepth,
      if_true]
  | index hheader hmagic hdepth hscan hblock _ ih =>
    obtain ⟨n, hn⟩ := ih
    refine ⟨n + 1, fun m hm => ?_⟩
    obtain ⟨k, rfl⟩ := Nat.exists_eq_add_of_le' (le_of_add_le_right hm)
    simp only [ext4fsGetExtentBlock, hheader, hmagic, ne_eq, not_true_eq_false, if_false, hdepth,
      hscan, hblock]
    exact hn k (by lia)

theorem scanEntries_spec (keys : List ℕ)
    (hkeys : ∀ i (h : i < keys.length), keyAt w i = some keys[i]) (m : ℕ) :
    ∀ i, i + m = keys.length →
      ∃ j, scanEntries w fileblock m i = some j ∧ i ≤ j ∧ j ≤ keys.length ∧
        (∀ t (ht : t < keys.length), i ≤ t → t < j → keys[t] ≤ fileblock) ∧
        ∀ h : j < keys.length, fileblock < keys[j] := by
  induction m with
  | zero =>
    intro i hi
    exact ⟨i, rfl, le_rfl, by lia, fun t _ hle hlt => by lia, fun h => by lia⟩
  | succ m ih =>
    intro i hi
    have hlt : i < keys.length := by lia
    rw [scanEntries, hkeys i hlt]
    by_cases hkey : keys[i] ≤ fileblock
    · obtain ⟨j, hj, hij, hjn, hall, hstop⟩ := ih (i + 1) (by lia)
      simp only [hkey, if_true]
      refine ⟨j, hj, by lia, hjn, fun t ht hit htj => ?_, hstop⟩
      by_cases heq : t = i
      · subst heq
        exact hkey
      · exact hall t ht (by lia) htj
    · simp only [hkey, if_false]
      exact ⟨i, rfl, le_rfl, hlt.le, fun t _ hle htj => by lia, fun _ => by lia⟩

theorem keyAt_of_extentAt {i : ℕ} {e : Extent} (h : extentAt w i = some e) :
    keyAt w i = some e.block := by
  rw [extentAt] at h
  cases hkey : keyAt w i with
  | none => simp [hkey] at h
  | some block =>
    simp only [hkey, bind_eq_bind, bind_some, bind_eq_some_iff] at h
    obtain ⟨_, -, _, -, heq⟩ := h
    rw [← some.inj heq]

theorem toLong_of_lt {longBits n : ℕ} (h : n < 2 ^ (longBits - 1)) : toLong longBits n = n := by
  have hle : 2 ^ (longBits - 1) ≤ 2 ^ longBits := Nat.pow_le_pow_right (by decide) (Nat.sub_le _ _)
  have hmod : n % 2 ^ longBits = n := Nat.mod_eq_of_lt (h.trans_le hle)
  rw [toLong, hmod, if_pos h]

theorem Extent.length_le (e : Extent) : e.length ≤ e.len := by
  rw [Extent.length]
  split
  · exact le_rfl
  · exact Nat.sub_le _ _

theorem Extent.length_of_initialised {e : Extent} (h : e.initialised) : e.length = e.len := if_pos h

theorem readLeaf_mapped {longBits : ℕ} {es : List Extent} (hw : HasExtents w es)
    (hsorted : es.Pairwise fun e e' => e.block + e.length ≤ e'.block)
    (hfirst : ∃ e ∈ es, e.block ≤ fileblock)
    (hinit : ∀ e ∈ es, e.block ≤ fileblock → fileblock < e.block + e.len → e.initialised)
    (hlong : ∀ e ∈ es, e.Covers fileblock → e.start + (fileblock - e.block) < 2 ^ (longBits - 1)) :
    ∃ r, readLeaf longBits fileblock w = some r ∧ Mapped es fileblock r := by
  obtain ⟨header, hheader, hlen, hes⟩ := hw
  have hlength : (es.map Extent.block).length = header.entries := by rw [length_map, hlen]
  have hkeys : ∀ i (h : i < (es.map Extent.block).length),
      keyAt w i = some (es.map Extent.block)[i] := by
    intro i h
    rw [getElem_map]
    exact keyAt_of_extentAt (hes i (by rwa [length_map] at h))
  obtain ⟨j, hscan, -, hjn, hall, hstop⟩ := scanEntries_spec
    (es.map Extent.block) hkeys header.entries 0 (by lia)
  have hblocks : ∀ t (ht : t < es.length), t < j → es[t].block ≤ fileblock := by
    intro t ht htj
    have hkey := hall t (by rw [length_map]; exact ht) (Nat.zero_le t) htj
    rwa [getElem_map] at hkey
  -- an extent in front of another one ends there
  have hbefore : ∀ t u (ht : t < es.length) (hu : u < es.length), t < u →
      es[t].block + es[t].length ≤ es[u].block :=
    fun t u ht hu htu => pairwise_iff_getElem.mp hsorted t u ht hu htu
  have hafter : ∀ t (ht : t < es.length), j ≤ t → fileblock < es[t].block := by
    intro t ht hjt
    have hj : j < es.length := by lia
    have hkey := hstop (by rw [length_map]; exact hj)
    rw [getElem_map] at hkey
    by_cases heq : t = j
    · subst heq
      exact hkey
    · have hpair := hbefore j t hj ht (by lia)
      lia
  cases j with
  | zero =>
    obtain ⟨e, he, hle⟩ := hfirst
    obtain ⟨t, ht, rfl⟩ := getElem_of_mem he
    have hlt := hafter t ht (Nat.zero_le t)
    lia
  | succ i =>
    have hi : i < es.length := by
      rw [length_map] at hjn
      lia
    have hblock := hblocks i hi (Nat.lt_succ_self i)
    have honly : ∀ e ∈ es, e.Covers fileblock → e = es[i] := by
      intro e he hcov
      obtain ⟨t, ht, rfl⟩ := getElem_of_mem he
      obtain ⟨hle, hlt⟩ := hcov
      by_cases hti : t < i
      · have hpair := hbefore t i ht hi hti
        lia
      · by_cases heq : t = i
        · subst heq
          rfl
        · have hgt := hafter t ht (by lia)
          lia
    rw [readLeaf]
    simp only [hheader, bind_eq_bind, bind_some, hscan, hes i hi]
    by_cases hbehind : es[i].len ≤ fileblock - es[i].block
    · rw [if_pos hbehind]
      have hnot : ¬ es[i].Covers fileblock := by
        intro hcov
        have hlen := es[i].length_le
        have hlt := hcov.2
        lia
      refine ⟨0, rfl, ⟨fun e he hcov _ => ?_, fun _ => rfl⟩⟩
      rw [honly e he hcov] at hcov
      exact absurd hcov hnot
    · rw [if_neg hbehind]
      have hin := hinit es[i] (getElem_mem hi) hblock (by lia)
      have hcov : es[i].Covers fileblock := by
        refine ⟨hblock, ?_⟩
        rw [Extent.length_of_initialised hin]
        lia
      have hsmall := hlong es[i] (getElem_mem hi) hcov
      refine ⟨_, rfl, ⟨fun e he hcov' _ => ?_, fun hnone => ?_⟩⟩
      · rw [honly e he hcov', toLong_of_lt (by lia)]
        push_cast [hblock]
        ring
      · exact absurd hin (hnone es[i] (getElem_mem hi) hcov)

end Extents

section Indirect

variable {blksz log2Blksz : ℕ} {disk : ℕ → ℕ → ℕ} {blocks : Set ℕ}

structure AllHold (blksz log2Blksz : ℕ) (disk : ℕ → ℕ → ℕ) (blocks : Set ℕ) (s : Caches) :
    Prop where
  first : s.indir1.Holds blksz log2Blksz disk blocks
  second : s.indir2.Holds blksz log2Blksz disk blocks
  third : s.indir3.Holds blksz log2Blksz disk blocks

section Reads

variable {inode : Inode} {s : Caches} {r : ℕ} (hinj : Set.InjOn (sector log2Blksz) blocks)
  (h : AllHold blksz log2Blksz disk blocks s)

include hinj h

theorem readSingle_held (hr : r < blksz / 4) (htop : inode.indirBlock ∈ blocks) :
    ∃ s', readSingle blksz log2Blksz disk inode r s = some (disk inode.indirBlock r, s') ∧
      AllHold blksz log2Blksz disk blocks s' := by
  obtain ⟨hblock, hheld⟩ := h.first.load hinj htop
  refine ⟨{ s with indir1 := s.indir1.load blksz log2Blksz disk inode.indirBlock }, ?_,
    ⟨hheld, h.second, h.third⟩⟩
  rw [readSingle]
  simp only [Cache.word, if_pos hr, hblock]

theorem readDouble_held (hr : r < blksz / 4 * (blksz / 4)) (htop : inode.doubleIndirBlock ∈ blocks)
    (hchild : disk inode.doubleIndirBlock (r / (blksz / 4)) ∈ blocks) :
    ∃ s', readDouble blksz log2Blksz disk inode r s =
        some (disk (disk inode.doubleIndirBlock (r / (blksz / 4))) (r % (blksz / 4)), s') ∧
      AllHold blksz log2Blksz disk blocks s' := by
  obtain ⟨hblock, hheld⟩ := h.first.load hinj htop
  obtain ⟨hblock₂, hheld₂⟩ := h.second.load hinj hchild
  exact ⟨_, readDouble_loads hr rfl rfl hblock hblock₂, hheld, hheld₂, h.third⟩

theorem readTriple_held (hr : r < blksz / 4 * (blksz / 4)) (htop : inode.tripleIndirBlock ∈ blocks)
    (hparent : disk inode.tripleIndirBlock 0 ∈ blocks)
    (hchild : disk (disk inode.tripleIndirBlock 0) (r / (blksz / 4)) ∈ blocks) :
    ∃ s', readTriple blksz log2Blksz disk inode r s =
        some (disk (disk (disk inode.tripleIndirBlock 0) (r / (blksz / 4))) (r % (blksz / 4)), s') ∧
      AllHold blksz log2Blksz disk blocks s' := by
  obtain ⟨hblock, hheld⟩ := h.first.load hinj htop
  obtain ⟨hblock₂, hheld₂⟩ := h.second.load hinj hparent
  obtain ⟨hblock₃, hheld₃⟩ := h.third.load hinj hchild
  exact ⟨_, readTriple_loads hr rfl rfl rfl hblock hblock₂ hblock₃, hheld, hheld₂, hheld₃⟩

theorem readAllocatedBlock_held {fileblock : ℕ} (hblksz : 4 ∣ blksz)
    (hpath : ∀ b ∈ (indirectPath blksz disk inode fileblock).1, b ∈ blocks)
    (hlt : fileblock < indirectBlocks + blksz / 4 + 2 * (blksz / 4 * (blksz / 4))) :
    ∃ s', readAllocatedBlock blksz log2Blksz disk inode s fileblock =
        some ((indirectPath blksz disk inode fileblock).2, s') ∧
      AllHold blksz log2Blksz disk blocks s' := by
  have hmul : blksz / 4 * blksz / 4 = blksz / 4 * (blksz / 4) := Nat.mul_div_assoc _ hblksz
  have hsucc : blksz / 4 * (blksz / 4 + 1) = blksz / 4 + blksz / 4 * (blksz / 4) := by ring
  rw [readAllocatedBlock, hmul, hsucc, ← Nat.add_assoc]
  unfold indirectPath at hpath ⊢
  dsimp only at hpath ⊢
  split
  · exact ⟨s, rfl, h⟩
  next hdirect =>
  rw [if_neg hdirect] at hpath
  split
  · next hsingle =>
    rw [if_pos hsingle] at hpath
    exact readSingle_held hinj h (by lia) (hpath _ mem_cons_self)
  next hsingle =>
  rw [if_neg hsingle] at hpath
  split
  · next hdouble =>
    rw [if_pos hdouble] at hpath
    exact readDouble_held hinj h (by lia) (hpath _ (by simp)) (hpath _ (by simp))
  next hdouble =>
  rw [if_neg hdouble] at hpath
  -- only the first tree below the triple indirect block
  have hr : fileblock - (indirectBlocks + blksz / 4 + blksz / 4 * (blksz / 4)) <
      blksz / 4 * (blksz / 4) := by lia
  have hzero := Nat.div_eq_of_lt hr
  have hhigh := Nat.div_lt_of_lt_mul hr
  simp only [hzero, Nat.mod_eq_of_lt hhigh] at hpath ⊢
  exact readTriple_held hinj h hr (hpath _ (by simp)) (hpath _ (by simp)) (hpath _ (by simp))

end Reads

variable {longBits : ℕ}

theorem readBlock_onDisk {inode : FileInode} {fileblock : ℕ} (hblksz : 4 ∣ blksz)
    (hinj : Set.InjOn (sector log2Blksz) blocks)
    (hok : LookupOk blksz disk longBits blocks inode fileblock) :
    ∃ n r, OnDisk blksz disk inode fileblock r ∧ ∀ m, n ≤ m → ∀ s,
      AllHold blksz log2Blksz disk blocks s →
      ∃ s', readBlock blksz log2Blksz disk longBits m inode s fileblock = some (r, s') ∧
        AllHold blksz log2Blksz disk blocks s' := by
  unfold LookupOk at hok
  unfold OnDisk readBlock
  cases hext : inode.extents with
  | true =>
    simp only [hext, if_true] at hok ⊢
    obtain ⟨leaf, es, hdesc, hes, hsorted, hfirst, hinit, hlong⟩ := hok
    obtain ⟨n, hn⟩ := hdesc.found
    obtain ⟨r, hr, hmapped⟩ := readLeaf_mapped hes hsorted hfirst hinit hlong
    refine ⟨n, r, ⟨leaf, es, hdesc, hes, hmapped⟩, fun m hm s hs => ⟨s, ?_, hs⟩⟩
    simp only [hn m hm, hr, map_some]
  | false =>
    simp only [hext, Bool.false_eq_true, if_false] at hok ⊢
    obtain ⟨hpath, hlong, hlt⟩ := hok
    refine ⟨0, _, rfl, fun m _ s hs => ?_⟩
    obtain ⟨s', hread, hs'⟩ := readAllocatedBlock_held hinj hs hblksz hpath hlt
    refine ⟨s', ?_, hs'⟩
    simp only [hread, map_some, toLong_of_lt hlong]

theorem readBlocks_onDisk (hblksz : 4 ∣ blksz) (hinj : Set.InjOn (sector log2Blksz) blocks)
    (calls : List (FileInode × ℕ)) :
    (∀ c ∈ calls, LookupOk blksz disk longBits blocks c.1 c.2) →
    ∃ n rs, List.Forall₂ (fun c r => OnDisk blksz disk c.1 c.2 r) calls rs ∧
      ∀ m, n ≤ m → ∀ s, AllHold blksz log2Blksz disk blocks s →
        ∃ s', readBlocks blksz log2Blksz disk longBits m s calls = some (rs, s') ∧
          AllHold blksz log2Blksz disk blocks s' := by
  induction calls with
  | nil => exact fun _ => ⟨0, [], List.Forall₂.nil, fun m _ s hs => ⟨s, rfl, hs⟩⟩
  | cons c calls ih =>
    intro hok
    obtain ⟨n, r, hr, hread⟩ := readBlock_onDisk hblksz hinj (hok c mem_cons_self)
    obtain ⟨n', rs, hrs, hreads⟩ := ih fun c' hc' => hok c' (mem_cons_of_mem _ hc')
    refine ⟨max n n', r :: rs, List.Forall₂.cons hr hrs, fun m hm s hs => ?_⟩
    obtain ⟨s₁, hfirst, hs₁⟩ := hread m (le_of_max_le_left hm) s hs
    obtain ⟨s₂, hrest, hs₂⟩ := hreads m (le_of_max_le_right hm) s₁ hs₁
    refine ⟨s₂, ?_, hs₂⟩
    rw [readBlocks]
    simp only [hfirst, hrest]

theorem lookups_onDisk (hblksz : 4 ∣ blksz) (hinj : Set.InjOn (sector log2Blksz) blocks)
    (hno : ∀ b ∈ blocks, sector log2Blksz b ≠ noBlkno) {calls : List (FileInode × ℕ)}
    (hok : ∀ c ∈ calls, LookupOk blksz disk longBits blocks c.1 c.2) :
    ∃ n rs, List.Forall₂ (fun c r => OnDisk blksz disk c.1 c.2 r) calls rs ∧
      ∀ m, n ≤ m → ∃ s', readBlocks blksz log2Blksz disk longBits m emptyCaches calls =
        some (rs, s') := by
  obtain ⟨n, rs, hrs, hreads⟩ := readBlocks_onDisk hblksz hinj calls hok
  refine ⟨n, rs, hrs, fun m hm => ?_⟩
  obtain ⟨s', hread, -⟩ := hreads m hm emptyCaches
    ⟨holds_unallocated rfl hno, holds_unallocated rfl hno, holds_unallocated rfl hno⟩
  exact ⟨s', hread⟩

end Indirect

/- An inode whose map has one extent, from the block `first` of the file on. -/
def oneExtent (first len : ℕ) : FileInode :=
  ⟨ext4ExtentsFl, ⟨fun i => [0x1f30a, 4, 0, first, len, 50].getD i 0, 0, 0, 0⟩⟩

theorem oneExtent_flag (first len : ℕ) : (oneExtent first len).extents = true := by
  simp [FileInode.extents, oneExtent, ext4ExtentsFl]

theorem oneExtent_header (first len : ℕ) :
    headerOf (oneExtent first len).words = some ⟨0xf30a, 1, 0⟩ := by
  simp [headerOf, FileInode.words, oneExtent, indirectBlocks]

theorem oneExtent_descends (first len fileblock : ℕ) (disk : ℕ → ℕ → ℕ) :
    Descends 1024 disk fileblock (oneExtent first len).words (oneExtent first len).words :=
  .leaf (oneExtent_header first len) rfl rfl

theorem oneExtent_extents {first len : ℕ} (h : len < 2 ^ 16) {es : List Extent} :
    HasExtents (oneExtent first len).words es ↔ es = [⟨first, len, 50⟩] := by
  have hext : extentAt (oneExtent first len).words 0 = some ⟨first, len, 50⟩ := by
    have hlow : len % 2 ^ 16 = len := Nat.mod_eq_of_lt h
    have hhigh : len / 2 ^ 16 = 0 := Nat.div_eq_of_lt h
    show some (Extent.mk first (len % 2 ^ 16) (len / 2 ^ 16 * 2 ^ 32 + 50)) = _
    rw [hlow, hhigh, Nat.zero_mul, Nat.zero_add]
  constructor
  · intro hes
    obtain ⟨header, hheader, hlen, hes⟩ := hes
    obtain rfl := some.inj (hheader.symm.trans (oneExtent_header first len))
    obtain ⟨e, rfl⟩ := length_eq_one_iff.mp hlen
    have h0 := hes 0 (by simp)
    rw [hext] at h0
    rw [some.inj h0]
    rfl
  · intro hes
    subst hes
    refine ⟨⟨0xf30a, 1, 0⟩, oneExtent_header first len, rfl, fun i hi => ?_⟩
    obtain rfl : i = 0 := by simpa using hi
    exact hext

/- A file with an indirect block and one with an extent. -/
theorem lookups_onDisk_two :
    ∃ n rs, List.Forall₂ (fun c r => OnDisk 1024 (fun b i => 1000 * b + i) c.1 c.2 r)
      [(⟨0, ⟨fun i => i + 20, 5, 0, 0⟩⟩, 14), (oneExtent 0 8, 3)] rs ∧
      ∀ m, n ≤ m → ∃ s', readBlocks 1024 1 (fun b i => 1000 * b + i) 32 m emptyCaches
        [(⟨0, ⟨fun i => i + 20, 5, 0, 0⟩⟩, 14), (oneExtent 0 8, 3)] = some (rs, s') := by
  have hno : ∀ b ∈ ({5} : Set ℕ), sector 1 b ≠ noBlkno := by
    intro b hb
    rw [Set.mem_singleton_iff.mp hb]
    decide
  refine lookups_onDisk (by decide) (Set.injOn_singleton _ _) hno ?_
  · intro c hc
    simp only [mem_cons, not_mem_nil, or_false] at hc
    cases hc with
    | inl hc =>
      rw [hc]
      exact ⟨by simp [indirectPath, indirectBlocks], by decide, by decide⟩
    | inr hc =>
      rw [hc]
      refine ⟨_, _, oneExtent_descends 0 8 3 _, (oneExtent_extents (by decide)).mpr rfl, ?_⟩
      simp [Extent.initialised, Extent.Covers, Extent.length, extInitMaxLen]

def selfIndex : ℕ → ℕ → ℕ := fun _ i => [0x1f30a, 0x10004, 0, 0, 7, 0].getD i 0

theorem selfIndex_descends (fileblock fuel : ℕ) :
    ext4fsGetExtentBlock 1024 selfIndex fileblock fuel (blockWords 1024 selfIndex 7) = none := by
  induction fuel with
  | zero => rfl
  | succ fuel ih =>
    rw [ext4fsGetExtentBlock]
    have hheader : headerOf (blockWords 1024 selfIndex 7) = some ⟨0xf30a, 1, 1⟩ := by
      simp [headerOf, blockWords, selfIndex]
    have hscan : scanEntries (blockWords 1024 selfIndex 7) fileblock 1 0 = some 1 := by
      simp [scanEntries, keyAt, blockWords, selfIndex]
    have hleaf : leafAt (blockWords 1024 selfIndex 7) 0 = some 7 := by
      simp [leafAt, blockWords, selfIndex]
    simp only [hheader, ext4ExtMagic, ne_eq, not_true_eq_false, if_false, Nat.one_ne_zero, hscan,
      hleaf]
    exact ih

theorem oneExtent_onDisk {first len fileblock : ℕ} {disk : ℕ → ℕ → ℕ} {r : ℤ} (h : len < 2 ^ 16) :
    OnDisk 1024 disk (oneExtent first len) fileblock r ↔ Mapped [⟨first, len, 50⟩] fileblock r := by
  rw [OnDisk, if_pos (oneExtent_flag first len)]
  constructor
  · intro hdisk
    obtain ⟨leaf, es, hdesc, hes, hmapped⟩ := hdisk
    cases hdesc with
    | leaf hheader hmagic hdepth =>
      rw [(oneExtent_extents h).mp hes] at hmapped
      exact hmapped
    | index hheader hmagic hdepth hscan hblock hrest =>
      rw [oneExtent_header] at hheader
      obtain rfl := some.inj hheader
      exact absurd rfl hdepth
  · intro hmapped
    exact ⟨_, _, oneExtent_descends first len fileblock disk, (oneExtent_extents h).mpr rfl, hmapped⟩

theorem oneExtent_read {first len fileblock : ℕ} {r : ℤ} (s : Caches)
    (h : readLeaf 64 fileblock (oneExtent first len).words = some r) :
    readBlocks 1024 1 (fun _ _ => 0) 64 1 s [(oneExtent first len, fileblock)] = some ([r], s) := by
  simp only [readBlocks, readBlock, oneExtent_flag, if_true, ext4fsGetExtentBlock, oneExtent_header,
    ext4ExtMagic, ne_eq, not_true_eq_false, if_false, h, map_some]

/- A block in front of the first extent, an uninitialised extent and a tree without an end. -/
theorem lookups_not_onDisk :
    (∃ s', readBlocks 1024 1 (fun _ _ => 0) 64 1 emptyCaches [(oneExtent 5 8, 2)] = some ([-1], s') ∧
      OnDisk 1024 (fun _ _ => 0) (oneExtent 5 8) 2 0 ∧
      ¬ OnDisk 1024 (fun _ _ => 0) (oneExtent 5 8) 2 (-1)) ∧
    (∃ s', readBlocks 1024 1 (fun _ _ => 0) 64 1 emptyCaches [(oneExtent 0 32776, 2)] =
        some ([52], s') ∧
      OnDisk 1024 (fun _ _ => 0) (oneExtent 0 32776) 2 0 ∧
      ¬ OnDisk 1024 (fun _ _ => 0) (oneExtent 0 32776) 2 52) ∧
    ∀ fuel, ext4fsGetExtentBlock 1024 selfIndex 0 fuel (blockWords 1024 selfIndex 7) = none := by
  refine ⟨⟨_, oneExtent_read _ ?_, ?_, ?_⟩, ⟨_, oneExtent_read _ ?_, ?_, ?_⟩, selfIndex_descends 0⟩
  · decide +kernel
  · rw [oneExtent_onDisk (by decide)]
    exact ⟨by simp [Extent.Covers], by simp⟩
  · rw [oneExtent_onDisk (by decide)]
    intro h
    exact absurd (h.hole (by simp [Extent.Covers])) (by decide)
  · decide +kernel
  · rw [oneExtent_onDisk (by decide)]
    exact ⟨by simp [Extent.initialised, extInitMaxLen], by simp⟩
  · rw [oneExtent_onDisk (by decide)]
    intro h
    exact absurd (h.hole (by simp [Extent.initialised, extInitMaxLen])) (by decide)

end UBoot.Ext4
