import UBoot.Sparse.Store

/-!
# Sparse images over several sessions

A run that starts where another one ended goes on like one run over both chunk lists. Only the last
check, of the blocks counted against the header, sees where the list was cut.
-/

namespace UBoot.Sparse

open Memory LittleEndian List

section Shift

variable {s : Storage} {h h' : Header} {start base : ℕ}

/- The result of a run whose position starts at `base` blocks of another run. -/
structure Shifted (base : ℕ) (r r' : Option Stop × State) : Prop where
  stop : r.1 = r'.1
  requests : r.2.requests = r'.2.requests
  total : r.2.totalBlocks = (base + r'.2.totalBlocks) % 2 ^ 32

variable {st st' : State}

theorem requestFor_shift (b : Buffer)
    (htotal : st.totalBlocks = (base + st'.totalBlocks) % 2 ^ 32) :
    requestFor s start b st = requestFor s ((start + base) % 2 ^ 32) b st' := by
  unfold requestFor
  rw [htotal]
  congr 1
  lia

theorem writeTurns_shift (b : Buffer) (turns : ℕ) (hreq : st.requests = st'.requests)
    (htotal : st.totalBlocks = (base + st'.totalBlocks) % 2 ^ 32) :
    Shifted base (writeTurns s start b turns st)
      (writeTurns s ((start + base) % 2 ^ 32) b turns st') := by
  induction turns generalizing st st' with
  | zero => exact ⟨rfl, hreq, htotal⟩
  | succ turns ih =>
    unfold writeTurns
    have hsame : requestFor s start b st = requestFor s ((start + base) % 2 ^ 32) b st' :=
      requestFor_shift b htotal
    rw [hsame, hreq]
    generalize requestFor s ((start + base) % 2 ^ 32) b st' = request
    simp only
    split
    · exact ⟨rfl, rfl, htotal⟩
    · have hnext : (st.totalBlocks + (s.write st'.requests request).toNat) % 2 ^ 32 =
          (base + (st'.totalBlocks + (s.write st'.requests request).toNat) % 2 ^ 32) % 2 ^ 32 := by
        lia
      exact @ih ⟨st.chunk, _, st'.requests ++ [request]⟩ ⟨st'.chunk, _, _⟩ rfl hnext

theorem writeBuffer_shift (halloc : ∀ i, s.alloc i = true) (b : Buffer)
    (hreq : st.requests = st'.requests)
    (htotal : st.totalBlocks = (base + st'.totalBlocks) % 2 ^ 32) :
    Shifted base (writeBuffer s start b st) (writeBuffer s ((start + base) % 2 ^ 32) b st') := by
  unfold writeBuffer
  simp only [halloc, Bool.true_eq_false, if_false]
  have hend : (start + st.totalBlocks + b.length / s.blockSz * b.times % 2 ^ 32) % 2 ^ 32 =
      ((start + base) % 2 ^ 32 + st'.totalBlocks + b.length / s.blockSz * b.times % 2 ^ 32) %
        2 ^ 32 := by
    rw [htotal]
    generalize b.length / s.blockSz * b.times = n
    lia
  rw [hend]
  split
  · exact ⟨rfl, hreq, htotal⟩
  · exact writeTurns_shift b b.times hreq htotal

theorem storeChunk_shift (halloc : ∀ i, s.alloc i = true) (c : Chunk)
    (hreq : st.requests = st'.requests)
    (htotal : st.totalBlocks = (base + st'.totalBlocks) % 2 ^ 32) :
    Shifted base (storeChunk s h start c st) (storeChunk s h ((start + base) % 2 ^ 32) c st') := by
  unfold storeChunk
  cases c.chunkType with
  | raw =>
    simp only
    split
    · exact ⟨rfl, hreq, htotal⟩
    · split
      · exact ⟨rfl, hreq, htotal⟩
      · exact writeBuffer_shift halloc _ hreq htotal
  | fill =>
    simp only
    split
    · exact ⟨rfl, hreq, htotal⟩
    · exact writeBuffer_shift halloc _ hreq htotal
  | dontCare =>
    refine ⟨rfl, hreq, ?_⟩
    simp only
    split
    · lia
    · exact htotal
  | crc32 => exact ⟨rfl, hreq, htotal⟩
  | unknown => exact ⟨rfl, hreq, htotal⟩

theorem storeList_shift (halloc : ∀ i, s.alloc i = true) (cs : List Chunk)
    (hreq : st.requests = st'.requests)
    (htotal : st.totalBlocks = (base + st'.totalBlocks) % 2 ^ 32) :
    Shifted base (storeList s h start cs st) (storeList s h ((start + base) % 2 ^ 32) cs st') := by
  induction cs generalizing st st' with
  | nil => exact ⟨rfl, hreq, htotal⟩
  | cons c cs ih =>
    have hone : Shifted base (storeChunk s h start c st)
        (storeChunk s h ((start + base) % 2 ^ 32) c st') :=
      storeChunk_shift halloc c hreq htotal
    unfold storeList
    generalize storeChunk s h start c st = r at *
    generalize storeChunk s h ((start + base) % 2 ^ 32) c st' = r' at *
    obtain ⟨stop, st₁⟩ := r
    obtain ⟨stop', st₁'⟩ := r'
    obtain rfl : stop = stop' := hone.stop
    cases stop with
    | some stop => exact hone
    | none => exact ih hone.requests hone.total

theorem storeList_header (hblk : h'.blkSz = h.blkSz) (hhdr : h'.chunkHdrSz = h.chunkHdrSz)
    (cs : List Chunk) (st : State) : storeList s h' start cs st = storeList s h start cs st := by
  have hone : ∀ c st, storeChunk s h' start c st = storeChunk s h start c st := by
    intro c st
    have hsize : chunkDataSize h' c.totalSz = chunkDataSize h c.totalSz := by
      rw [chunkDataSize, hhdr, chunkDataSize]
    have hraw : sparseGetRawBuffer h' c = sparseGetRawBuffer h c := by
      rw [sparseGetRawBuffer, hsize, sparseGetRawBuffer]
    have hfill : sparseGetFillBuffer s h' c = sparseGetFillBuffer s h c := by
      rw [sparseGetFillBuffer, hblk, sparseGetFillBuffer]
    have hto : sparseBlockSizeToStorage s h' c.chunkSz =
        sparseBlockSizeToStorage s h c.chunkSz := by
      rw [sparseBlockSizeToStorage, hblk, sparseBlockSizeToStorage]
    unfold storeChunk
    rw [hblk, hsize, hraw, hfill, hto]
  induction cs generalizing st with
  | nil => rfl
  | cons c cs ih =>
    simp only [storeList, hone, ih]

theorem storeList_append (cs ds : List Chunk) (st : State) :
    storeList s h start (cs ++ ds) st =
      match storeList s h start cs st with
      | (some stop, st₁) => (some stop, st₁)
      | (none, st₁) => storeList s h start ds st₁ := by
  induction cs generalizing st with
  | nil => rfl
  | cons c cs ih =>
    simp only [cons_append, storeList]
    generalize storeChunk s h start c st = r
    obtain ⟨stop, st₁⟩ := r
    cases stop with
    | some stop => rfl
    | none => exact ih _

end Shift

section Counts

variable (s : Storage) (h : Header)

/- The blocks by which a chunk moves the position: the bytes of a fill chunk are multiplied
out in 32 bits, those of the others in 64. -/
def countOf (c : Chunk) : ℕ :=
  match c.chunkType with
  | .raw => c.chunkSz * h.blkSz / s.blockSz
  | .fill => c.chunkSz * h.blkSz % 2 ^ 32 / s.blockSz
  | .dontCare => if s.countDontCare then c.chunkSz * h.blkSz / s.blockSz else 0
  | .crc32 | .unknown => 0

def Counted (c : Chunk) : Prop := countOf s h c % 2 ^ 32 = blocksOf s h c % 2 ^ 32

def countAll (cs : List Chunk) : ℕ := (cs.map (countOf s h)).sum

instance (c : Chunk) : Decidable (Counted s h c) :=
  inferInstanceAs (Decidable (countOf s h c % 2 ^ 32 = blocksOf s h c % 2 ^ 32))

variable {s h} {start : ℕ}

theorem writeTurns_counts (hs : s.Writes) (b : Buffer) {count : ℕ}
    (hcount : b.length / s.blockSz = count) (hlt : count < 2 ^ 32) (turns : ℕ) (st : State)
    (hst : st.totalBlocks < 2 ^ 32) (hnone : (writeTurns s start b turns st).1 = none) :
    (writeTurns s start b turns st).2.totalBlocks = (st.totalBlocks + count * turns) % 2 ^ 32 := by
  induction turns generalizing st with
  | zero => exact (Nat.mod_eq_of_lt hst).symm
  | succ turns ih =>
    unfold writeTurns at hnone ⊢
    have hret : s.write st.requests (requestFor s start b st) = (count : ℤ).bmod (2 ^ 32) := by
      rw [hs, requestFor, hcount]
    simp only [hret] at hnone ⊢
    split at hnone
    · cases hnone
    · next hpos =>
      rw [if_neg hpos]
      rw [bmod_count hlt hpos, Int.toNat_natCast] at hnone ⊢
      rw [ih _ (Nat.mod_lt _ (by decide)) hnone, Nat.mul_succ]
      simp only
      lia

theorem writeBuffer_counts (hs : s.Writes) (halloc : ∀ i, s.alloc i = true) (b : Buffer) {count : ℕ}
    (hcount : b.length / s.blockSz = count) (hlt : count < 2 ^ 32) (st : State)
    (hst : st.totalBlocks < 2 ^ 32) (hnone : (writeBuffer s start b st).1 = none) :
    (writeBuffer s start b st).2.totalBlocks = (st.totalBlocks + count * b.times) % 2 ^ 32 := by
  unfold writeBuffer at hnone ⊢
  simp only [halloc, Bool.true_eq_false, if_false] at hnone ⊢
  split at hnone
  · cases hnone
  · next hcheck =>
    rw [if_neg hcheck]
    exact writeTurns_counts hs b hcount hlt b.times st hst hnone

theorem storeChunk_counts (hs : s.Writes) (halloc : ∀ i, s.alloc i = true) (hpos : 0 < s.blockSz)
    (c : Chunk) (st : State) (hst : st.totalBlocks < 2 ^ 32)
    (hnone : (storeChunk s h start c st).1 = none) :
    (storeChunk s h start c st).2.totalBlocks = (st.totalBlocks + countOf s h c) % 2 ^ 32 := by
  unfold storeChunk at hnone ⊢
  cases htype : c.chunkType with
  | raw =>
    simp only [htype] at hnone ⊢
    split at hnone
    · cases hnone
    · next hzero =>
      rw [if_neg hzero]
      split at hnone
      · cases hnone
      · next hsize =>
        rw [if_neg hsize]
        rw [not_or, not_not, not_not] at hsize
        have hdata := Nat.div_add_mod (chunkDataSize h c.totalSz) h.blkSz
        rw [hsize.1, hsize.2, Nat.add_zero, Nat.mul_comm] at hdata
        have hcount : (sparseGetRawBuffer h c).length / s.blockSz = countOf s h c := by
          simp only [sparseGetRawBuffer, countOf, htype, ← hdata]
        have hlt : countOf s h c < 2 ^ 32 := by
          rw [← hcount]
          exact lt_of_le_of_lt (Nat.div_le_self _ _) (Nat.mod_lt _ (by decide))
        rw [writeBuffer_counts hs halloc _ hcount hlt st hst hnone]
        simp only [sparseGetRawBuffer, Nat.mul_one]
  | fill =>
    simp only [htype] at hnone ⊢
    split at hnone
    · cases hnone
    · next hsize =>
      rw [if_neg hsize]
      have hcount : (sparseGetFillBuffer s h c).length / s.blockSz = 1 := Nat.div_self hpos
      rw [writeBuffer_counts hs halloc _ hcount (by decide) st hst hnone]
      simp only [sparseGetFillBuffer, countOf, htype, Nat.one_mul]
  | dontCare =>
    simp only [countOf, htype, sparseBlockSizeToStorage]
    generalize c.chunkSz * h.blkSz / s.blockSz = n
    split
    · lia
    · lia
  | crc32 =>
    simp only [countOf, htype]
    exact (Nat.mod_eq_of_lt hst).symm
  | unknown =>
    simp only [htype] at hnone
    cases hnone

theorem storeList_counts (hs : s.Writes) (halloc : ∀ i, s.alloc i = true) (hpos : 0 < s.blockSz)
    (cs : List Chunk) (st : State) (hst : st.totalBlocks < 2 ^ 32)
    (hnone : (storeList s h start cs st).1 = none) :
    (storeList s h start cs st).2.totalBlocks = (st.totalBlocks + countAll s h cs) % 2 ^ 32 := by
  induction cs generalizing st with
  | nil => exact (Nat.mod_eq_of_lt hst).symm
  | cons c cs ih =>
    have hone := @storeChunk_counts s h start hs halloc hpos c st hst
    unfold storeList at hnone ⊢
    generalize storeChunk s h start c st = r at *
    obtain ⟨stop, st₁⟩ := r
    cases stop with
    | some stop => cases hnone
    | none =>
      have hst₁ := hone rfl
      simp only at hst₁ hnone ⊢
      have hlt : st₁.totalBlocks < 2 ^ 32 := by lia
      have hall : countAll s h (c :: cs) = countOf s h c + countAll s h cs := by
        simp [countAll]
      rw [ih ⟨st₁.chunk + 1, st₁.totalBlocks, st₁.requests⟩ hlt hnone, hall]
      simp only
      lia

theorem countAll_eq {cs : List Chunk} (hcs : ∀ c ∈ cs, Counted s h c) :
    countAll s h cs % 2 ^ 32 = totalOf s h cs % 2 ^ 32 := by
  induction cs with
  | nil => rfl
  | cons c cs ih =>
    have hc : countOf s h c % 2 ^ 32 = blocksOf s h c % 2 ^ 32 := hcs c (mem_cons_self ..)
    have hrest := ih fun c' hc' => hcs c' (mem_cons_of_mem _ hc')
    simp only [countAll, totalOf, map_cons, sum_cons] at hrest ⊢
    lia

end Counts

structure Image where
  mem : Mem
  data : ℕ

def Image.header (i : Image) : Header := headerAt i.mem i.data

def Image.chunks (i : Image) : List Chunk :=
  chunksAt i.mem i.header i.header.totalChunks (i.data + i.header.fileHdrSz)

/- The blocks of the output image that a chunk stands for, in blocks of the image. -/
def outBlocks (c : Chunk) : ℕ :=
  match c.chunkType with
  | .raw | .fill | .dontCare => c.chunkSz
  | .crc32 | .unknown => 0

/- The header counts the blocks of the chunks, and don't-care chunks carry no bytes. -/
structure Image.Consistent (i : Image) : Prop where
  total : i.header.totalBlks = (i.chunks.map outBlocks).sum
  bare : Bare i.header i.chunks

/- The images of `pieces` hold the chunks of `whole`, one image after the other. -/
structure Cut (whole : Image) (pieces : List Image) : Prop where
  nonempty : pieces ≠ []
  chunks : pieces.flatMap Image.chunks = whole.chunks
  consistent : ∀ i ∈ pieces, i.Consistent
  blkSz : ∀ i ∈ pieces, i.header.blkSz = whole.header.blkSz
  chunkHdrSz : ∀ i ∈ pieces, i.header.chunkHdrSz = whole.header.chunkHdrSz

variable (s : Storage)

/- Sessions `id`, `id + 1`, ... up to the first that fails. -/
def storePieces : ℕ → ℕ → List Request → List Image → Result
  | _, last, before, [] => ⟨.ret 0, last, before⟩
  | id, last, before, i :: is =>
    let r := storeSparseImage s i.mem i.data id last before
    if r.stop = .ret 0 then storePieces (id + 1) r.lastOffset r.requests is else r

/- The run over a chunk list from `start` on. -/
def runOf (h : Header) (cs : List Chunk) (start : ℕ) (before : List Request) :
    Option Stop × State :=
  storeList s h start cs ⟨0, 0, before⟩

/- What a run must be like for `store_sparse_image` to return 0. -/
structure Succeeds (h : Header) (cs : List Chunk) (start : ℕ) (before : List Request) : Prop where
  pos : 0 < s.blockSz
  dvd : s.blockSz ∣ h.blkSz
  none : (runOf s h cs start before).1 = none
  total : (runOf s h cs start before).2.totalBlocks = totalOf s h cs % 2 ^ 32

section Sessions

variable {s} {h h' : Header}

theorem storeList_nonzero (start : ℕ) (cs : List Chunk) (st : State) :
    (storeList s h start cs st).1 ≠ some (.ret 0) := by
  induction cs generalizing st with
  | nil => simp [storeList]
  | cons c cs ih =>
    have hone : (storeChunk s h start c st).1 ≠ some (.ret 0) := by
      intro hzero
      by_cases hraw : h.blkSz = 0 ∧ c.chunkType = .raw
      · simp [storeChunk, hraw.1, hraw.2] at hzero
      · obtain ⟨code, hcode, hneg⟩ := storeChunk_stop c (fun hz ht => hraw ⟨hz, ht⟩) st _ hzero
        lia
    unfold storeList
    generalize storeChunk s h start c st = r at *
    obtain ⟨stop, st₁⟩ := r
    cases stop with
    | some stop => exact hone
    | none => exact ih _

theorem totalOf_eq (hdvd : s.blockSz ∣ h.blkSz) (cs : List Chunk) :
    (cs.map outBlocks).sum * h.blkSz / s.blockSz = totalOf s h cs := by
  rw [Nat.mul_div_assoc _ hdvd, ← sum_map_mul_right, totalOf]
  congr 1
  apply map_congr_left
  intro c _
  unfold outBlocks blocksOf
  cases c.chunkType <;> simp [Nat.mul_div_assoc _ hdvd]

variable {i : Image} {id last : ℕ} {before : List Request}

theorem storeSparseImage_of_succeeds (hi : i.Consistent) (hok : Succeeds s i.header i.chunks (startOf s id last) before) :
    storeSparseImage s i.mem i.data id last before =
      ⟨.ret 0, (startOf s id last +
          (runOf s i.header i.chunks (startOf s id last) before).2.totalBlocks) % 2 ^ 32,
        (runOf s i.header i.chunks (startOf s id last) before).2.requests⟩ := by
  have heq := storeChunks_eq (s := s) i.mem (startOf s id last) i.header.totalChunks
    (i.data + i.header.fileHdrSz) ⟨0, 0, before⟩ (hi.bare.along _ _)
  have hexp : sparseBlockSizeToStorage s i.header i.header.totalBlks =
      totalOf s i.header i.chunks % 2 ^ 32 := by
    rw [sparseBlockSizeToStorage, hi.total, totalOf_eq hok.dvd]
  have hnone := hok.none
  have htotal := hok.total
  unfold storeSparseImage
  change storeChunks s i.header i.mem (startOf s id last) _ _ _ = runOf s i.header i.chunks _ _
    at heq
  change (if _ then _ else if i.header.blkSz % s.blockSz ≠ 0 then _ else
    match storeChunks s i.header i.mem (startOf s id last) i.header.totalChunks
      (i.data + i.header.fileHdrSz) ⟨0, 0, before⟩ with
    | (some stop, st) => _
    | (none, st) => _) = _
  rw [if_neg (Nat.pos_iff_ne_zero.mp hok.pos), if_neg (not_not.mpr (Nat.mod_eq_zero_of_dvd hok.dvd)),
    heq]
  generalize runOf s i.header i.chunks (startOf s id last) before = r at *
  obtain ⟨stop, st⟩ := r
  simp only at hnone htotal
  subst hnone
  change (if st.totalBlocks ≠ sparseBlockSizeToStorage s i.header i.header.totalBlks then _
    else _) = _
  rw [hexp, if_neg (not_not.mpr htotal)]
  rfl

theorem succeeds_of_ret (hi : i.Consistent)
    (hret : (storeSparseImage s i.mem i.data id last before).stop = .ret 0) :
    Succeeds s i.header i.chunks (startOf s id last) before := by
  have heq := storeChunks_eq (s := s) i.mem (startOf s id last) i.header.totalChunks
    (i.data + i.header.fileHdrSz) ⟨0, 0, before⟩ (hi.bare.along _ _)
  have hnonzero := @storeList_nonzero s i.header (startOf s id last) i.chunks ⟨0, 0, before⟩
  unfold storeSparseImage at hret
  change storeChunks s i.header i.mem (startOf s id last) _ _ _ = runOf s i.header i.chunks _ _
    at heq
  change (runOf s i.header i.chunks _ _).1 ≠ _ at hnonzero
  change (if _ then _ else if i.header.blkSz % s.blockSz ≠ 0 then _ else
    match storeChunks s i.header i.mem (startOf s id last) i.header.totalChunks
      (i.data + i.header.fileHdrSz) ⟨0, 0, before⟩ with
    | (some stop, st) => _
    | (none, st) => _ : Result).stop = _ at hret
  rw [heq] at hret
  split at hret
  · cases hret
  · next hpos =>
    split at hret
    · exact absurd (Stop.ret.inj hret) (by decide)
    · next hmod =>
      have hdvd := Nat.dvd_of_mod_eq_zero (not_not.mp hmod)
      have hexp : sparseBlockSizeToStorage s i.header i.header.totalBlks =
          totalOf s i.header i.chunks % 2 ^ 32 := by
        rw [sparseBlockSizeToStorage, hi.total, totalOf_eq hdvd]
      cases hrun : runOf s i.header i.chunks (startOf s id last) before with
      | mk stop st =>
        rw [hrun] at hret hnonzero
        cases stop with
        | some stop =>
          have hstop : stop = .ret 0 := hret
          rw [hstop] at hnonzero
          exact absurd rfl hnonzero
        | none =>
          change (if st.totalBlocks ≠ sparseBlockSizeToStorage s i.header i.header.totalBlks then
            _ else _ : Result).stop = _ at hret
          rw [hexp] at hret
          split at hret
          · exact absurd (Stop.ret.inj hret) (by decide)
          · next htotal =>
            exact ⟨Nat.pos_of_ne_zero hpos, hdvd, by rw [hrun], by rw [hrun]; exact not_not.mp htotal⟩

theorem runOf_lt (halloc : ∀ i, s.alloc i = true) (cs : List Chunk) (start : ℕ)
    (before : List Request) : (runOf s h cs start before).2.totalBlocks < 2 ^ 32 := by
  have hself : Shifted 0 (runOf s h cs start before) (runOf s h cs ((start + 0) % 2 ^ 32) before) :=
    storeList_shift halloc cs rfl rfl
  rw [hself.total]
  exact Nat.mod_lt _ (by decide)

theorem runOf_append (halloc : ∀ i, s.alloc i = true) (cs ds : List Chunk) (start : ℕ)
    (before : List Request) (hnone : (runOf s h cs start before).1 = none) :
    Shifted (runOf s h cs start before).2.totalBlocks (runOf s h (cs ++ ds) start before)
      (runOf s h ds ((start + (runOf s h cs start before).2.totalBlocks) % 2 ^ 32)
        (runOf s h cs start before).2.requests) := by
  have hlt := @runOf_lt s h halloc cs start before
  have happ : runOf s h (cs ++ ds) start before = match runOf s h cs start before with
      | (some stop, st₁) => (some stop, st₁)
      | (none, st₁) => storeList s h start ds st₁ := storeList_append cs ds _
  rw [happ]
  generalize runOf s h cs start before = r at *
  obtain ⟨stop, st⟩ := r
  simp only at hnone
  subst hnone
  exact storeList_shift halloc ds rfl (Nat.mod_eq_of_lt hlt).symm

variable {start : ℕ}

theorem runOf_append_none {cs ds : List Chunk}
    (hnone : (runOf s h (cs ++ ds) start before).1 = none) : (runOf s h cs start before).1 = none := by
  have happ : runOf s h (cs ++ ds) start before = match runOf s h cs start before with
      | (some stop, st₁) => (some stop, st₁)
      | (none, st₁) => storeList s h start ds st₁ := storeList_append cs ds _
  rw [happ] at hnone
  generalize runOf s h cs start before = r at *
  obtain ⟨stop, st⟩ := r
  cases stop with
  | some stop => cases hnone
  | none => rfl

/- An image with the sizes of the header `h`. -/
structure PieceOf (h : Header) (i : Image) : Prop where
  consistent : i.Consistent
  blkSz : i.header.blkSz = h.blkSz
  chunkHdrSz : i.header.chunkHdrSz = h.chunkHdrSz

theorem PieceOf.run (hi : PieceOf h i) (cs : List Chunk) (start : ℕ)
    (before : List Request) : runOf s i.header cs start before = runOf s h cs start before :=
  storeList_header hi.blkSz hi.chunkHdrSz cs _

theorem totalOf_append (cs ds : List Chunk) :
    totalOf s h (cs ++ ds) = totalOf s h cs + totalOf s h ds := by
  simp [totalOf]

theorem PieceOf.succeeds_iff (hi : PieceOf h i) (cs : List Chunk) (start : ℕ)
    (before : List Request) : Succeeds s i.header cs start before ↔ Succeeds s h cs start before := by
  have htotal : totalOf s i.header cs = totalOf s h cs := by
    unfold totalOf blocksOf
    rw [hi.blkSz]
  constructor
  · intro hok
    exact ⟨hok.pos, by rw [← hi.blkSz]; exact hok.dvd, by rw [← hi.run]; exact hok.none,
      by rw [← hi.run, ← htotal]; exact hok.total⟩
  · intro hok
    exact ⟨hok.pos, by rw [hi.blkSz]; exact hok.dvd, by rw [hi.run]; exact hok.none,
      by rw [hi.run, htotal]; exact hok.total⟩

def success (h : Header) (cs : List Chunk) (start : ℕ) (before : List Request) (s : Storage) :
    Result :=
  ⟨.ret 0, (start + (runOf s h cs start before).2.totalBlocks) % 2 ^ 32,
    (runOf s h cs start before).2.requests⟩

theorem PieceOf.store (hi : PieceOf h i) (hok : Succeeds s h i.chunks (startOf s id last) before) :
    storeSparseImage s i.mem i.data id last before = success h i.chunks (startOf s id last) before s := by
  rw [storeSparseImage_of_succeeds hi.consistent ((hi.succeeds_iff _ _ _).mpr hok), hi.run]
  rfl

theorem succeeds_append (halloc : ∀ i, s.alloc i = true) {cs ds : List Chunk} (hcs : Succeeds s h cs start before)
    (hds : Succeeds s h ds (success h cs start before s).lastOffset
      (success h cs start before s).requests) :
    Succeeds s h (cs ++ ds) start before ∧
      success h (cs ++ ds) start before s =
        success h ds (success h cs start before s).lastOffset
          (success h cs start before s).requests s := by
  have hsh := runOf_append halloc cs ds start before hcs.none
  have htotal := hsh.total
  unfold success at hds ⊢
  have hfirst := hcs.total
  have hsecond := hds.total
  simp only at hds hsecond ⊢
  refine ⟨⟨hcs.pos, hcs.dvd, hsh.stop.trans hds.none, ?_⟩, ?_⟩
  · rw [totalOf_append, htotal, hfirst] at *
    rw [hsecond, ← Nat.add_mod]
  · rw [hsh.requests, htotal]
    congr 1
    generalize (runOf s h ds _ _).2.totalBlocks = n
    generalize (runOf s h cs start before).2.totalBlocks = m
    lia

theorem storePieces_ret (halloc : ∀ i, s.alloc i = true) (i : Image) (is : List Image)
    (id last : ℕ) (before : List Request) (hpieces : ∀ j ∈ i :: is, PieceOf h j)
    (hret : (storePieces s id last before (i :: is)).stop = .ret 0) :
    Succeeds s h ((i :: is).flatMap Image.chunks) (startOf s id last) before ∧
      storePieces s id last before (i :: is) =
        success h ((i :: is).flatMap Image.chunks) (startOf s id last) before s := by
  induction is generalizing i id last before with
  | nil =>
    have hi := hpieces i (mem_cons_self ..)
    rw [storePieces] at hret ⊢
    split at hret
    · next hzero =>
      have hok := (hi.succeeds_iff _ _ _).mp (succeeds_of_ret hi.consistent hzero)
      rw [if_pos hzero, hi.store hok]
      simp only [flatMap_cons, flatMap_nil, append_nil]
      exact ⟨hok, rfl⟩
    · next hzero => exact absurd hret hzero
  | cons j js ih =>
    have hi := hpieces i (mem_cons_self ..)
    rw [storePieces] at hret ⊢
    split at hret
    · next hzero =>
      have hok := (hi.succeeds_iff _ _ _).mp (succeeds_of_ret hi.consistent hzero)
      rw [if_pos hzero]
      rw [hi.store hok] at hret ⊢
      obtain ⟨hrest, hres⟩ := ih j (id + 1) _ _ (fun k hk => hpieces k (mem_cons_of_mem _ hk))
        hret
      obtain ⟨hboth, heq⟩ := succeeds_append halloc hok hrest
      rw [hres, flatMap_cons]
      exact ⟨hboth, heq.symm⟩
    · next hzero => exact absurd hret hzero

theorem storePieces_counted (hs : s.Writes) (halloc : ∀ i, s.alloc i = true) (hpos : 0 < s.blockSz)
    (hdvd : s.blockSz ∣ h.blkSz) (is : List Image) (id last : ℕ) (before : List Request)
    (hpieces : ∀ j ∈ is, PieceOf h j) (hcounted : ∀ c ∈ is.flatMap Image.chunks, Counted s h c)
    (hnone : (runOf s h (is.flatMap Image.chunks) (startOf s id last) before).1 = none) :
    (storePieces s id last before is).stop = .ret 0 := by
  induction is generalizing id last before with
  | nil => rfl
  | cons i is ih =>
    have hi := hpieces i (mem_cons_self ..)
    rw [flatMap_cons] at hnone hcounted
    have hfirst := runOf_append_none hnone
    have hok : Succeeds s h i.chunks (startOf s id last) before := by
      refine ⟨hpos, hdvd, hfirst, ?_⟩
      have htotal := storeList_counts hs halloc hpos i.chunks ⟨0, 0, before⟩
        (show 0 < 2 ^ 32 by decide) hfirst
      rw [← countAll_eq fun c hc => hcounted c (mem_append_left _ hc), runOf, htotal, Nat.zero_add]
    have hsh := runOf_append halloc i.chunks (is.flatMap Image.chunks) (startOf s id last) before
      hfirst
    rw [storePieces, hi.store hok]
    exact ih (id + 1) _ _ (fun k hk => hpieces k (mem_cons_of_mem _ hk))
      (fun c hc => hcounted c (mem_append_right _ hc)) (hsh.stop.symm.trans hnone)

/- An image with one chunk, the one at `a` of the memory of another image with the header
`h`. -/
def oneChunk (mem : Mem) (h : Header) (a : ℕ) : Image where
  mem := store (fun x => mem (a + (x - 28))) 0 (List.flatten [leBytes 4 0xed26ff3a, leBytes 2 1,
    leBytes 2 0, leBytes 2 28, leBytes 2 h.chunkHdrSz, leBytes 4 h.blkSz,
    leBytes 4 (outBlocks (chunkAt mem h a)), leBytes 4 1, leBytes 4 0])
  data := 0

theorem bytes_store_part (mem : Mem) (xs ys zs : List UInt8) :
    bytes (store mem 0 (xs ++ ys ++ zs)) xs.length ys.length = ys := by
  rw [store_append, bytes_store_apart _ _ _ _ _ (.inl (by simp)), store_append, Nat.zero_add,
    bytes_store_same]

theorem header_oneChunk (mem : Mem) (h : Header) (a : ℕ) (hhdr : h.chunkHdrSz < 2 ^ 16)
    (hblk : h.blkSz < 2 ^ 32) (hout : outBlocks (chunkAt mem h a) < 2 ^ 32) :
    (oneChunk mem h a).header = ⟨28, h.chunkHdrSz, h.blkSz, outBlocks (chunkAt mem h a), 1⟩ := by
  have hfield : ∀ (xs : List UInt8) (n x : ℕ) (zs : List UInt8), x < 256 ^ n →
      leValue (bytes (store (fun x => mem (a + (x - 28))) 0 (xs ++ leBytes n x ++ zs))
        xs.length n) = x := by
    intro xs n x zs hx
    have hpart := bytes_store_part (fun x => mem (a + (x - 28))) xs (leBytes n x) zs
    rw [length_leBytes] at hpart
    rw [hpart, leValue_leBytes, Nat.mod_eq_of_lt hx]
  unfold Image.header headerAt oneChunk
  simp only [Nat.zero_add, Header.mk.injEq]
  generalize hm : leBytes 4 0xed26ff3a = m
  generalize h1 : leBytes 2 1 = one
  generalize h0 : leBytes 2 0 = zero
  have hlm : m.length = 4 := by rw [← hm, length_leBytes]
  have hl1 : one.length = 2 := by rw [← h1, length_leBytes]
  have hl0 : zero.length = 2 := by rw [← h0, length_leBytes]
  have f1 := hfield (m ++ one ++ zero) 2 28 (List.flatten [leBytes 2 h.chunkHdrSz,
    leBytes 4 h.blkSz, leBytes 4 (outBlocks (chunkAt mem h a)), leBytes 4 1, leBytes 4 0])
    (by decide)
  have f2 := hfield (m ++ one ++ zero ++ leBytes 2 28) 2 h.chunkHdrSz (List.flatten [
    leBytes 4 h.blkSz, leBytes 4 (outBlocks (chunkAt mem h a)), leBytes 4 1, leBytes 4 0]) hhdr
  have f3 := hfield (m ++ one ++ zero ++ leBytes 2 28 ++ leBytes 2 h.chunkHdrSz) 4 h.blkSz
    (List.flatten [leBytes 4 (outBlocks (chunkAt mem h a)), leBytes 4 1, leBytes 4 0]) hblk
  have f4 := hfield (m ++ one ++ zero ++ leBytes 2 28 ++ leBytes 2 h.chunkHdrSz ++
    leBytes 4 h.blkSz) 4 (outBlocks (chunkAt mem h a)) (List.flatten [leBytes 4 1, leBytes 4 0])
    hout
  have f5 := hfield (m ++ one ++ zero ++ leBytes 2 28 ++ leBytes 2 h.chunkHdrSz ++
    leBytes 4 h.blkSz ++ leBytes 4 (outBlocks (chunkAt mem h a))) 4 1 (leBytes 4 0) (by decide)
  simp only [length_append, hlm, hl1, hl0, length_leBytes, Nat.reduceAdd, flatten_cons,
    flatten_nil, append_nil, append_assoc] at f1 f2 f3 f4 f5 ⊢
  exact ⟨f1, f2, f3, f4, f5⟩

theorem chunkAt_copy {mem mem' : Mem} {a b : ℕ} (hhdr : h'.chunkHdrSz = h.chunkHdrSz)
    (hcopy : ∀ k n, bytes mem' (b + k) n = bytes mem (a + k) n) :
    chunkAt mem' h' b = chunkAt mem h a := by
  have hzero : bytes mem' b 2 = bytes mem a 2 := hcopy 0 2
  unfold chunkAt chunkDataSize
  rw [hzero, hcopy, hcopy, hhdr, hcopy]

theorem chunks_oneChunk (mem : Mem) (h : Header) (a : ℕ) (hhdr : h.chunkHdrSz < 2 ^ 16)
    (hblk : h.blkSz < 2 ^ 32) (hout : outBlocks (chunkAt mem h a) < 2 ^ 32) :
    (oneChunk mem h a).chunks = [chunkAt mem h a] := by
  have hcopy : ∀ k n, bytes (oneChunk mem h a).mem (28 + k) n = bytes mem (a + k) n := by
    intro k n
    unfold bytes
    apply map_congr_left
    intro i _
    unfold oneChunk
    simp only
    rw [store_above _ _ _ (by simp; lia)]
    congr 1
    lia
  unfold Image.chunks
  rw [header_oneChunk mem h a hhdr hblk hout]
  exact congrArg (fun c => [c]) (chunkAt_copy rfl hcopy)

/- Where the chunks of `chunksAt` lie. -/
def placesAt (mem : Mem) (h : Header) : ℕ → ℕ → List ℕ
  | 0, _ => []
  | chunks + 1, data =>
    data :: placesAt mem h chunks
      (data + h.chunkHdrSz + chunkDataSize h (chunkAt mem h data).totalSz)

theorem chunksAt_eq_map (mem : Mem) (h : Header) (chunks data : ℕ) :
    chunksAt mem h chunks data = (placesAt mem h chunks data).map (chunkAt mem h) := by
  induction chunks generalizing data with
  | zero => rfl
  | succ chunks ih => simp only [chunksAt, placesAt, ih, map_cons]

def Image.places (i : Image) : List ℕ :=
  placesAt i.mem i.header i.header.totalChunks (i.data + i.header.fileHdrSz)

def Image.singles (i : Image) : List Image := i.places.map (oneChunk i.mem i.header)

theorem Image.chunks_eq (i : Image) : i.chunks = i.places.map (chunkAt i.mem i.header) :=
  chunksAt_eq_map ..

theorem Image.header_one (i : Image) (a : ℕ) :
    (oneChunk i.mem i.header a).header = ⟨28, i.header.chunkHdrSz, i.header.blkSz,
        outBlocks (chunkAt i.mem i.header a), 1⟩ ∧
      (oneChunk i.mem i.header a).chunks = [chunkAt i.mem i.header a] := by
  have hhdr : i.header.chunkHdrSz < 2 ^ 16 :=
    lt_of_lt_of_le (leValue_lt _) (by rw [length_bytes]; decide)
  have hblk : i.header.blkSz < 2 ^ 32 :=
    lt_of_lt_of_le (leValue_lt _) (by rw [length_bytes]; decide)
  have hsz : (chunkAt i.mem i.header a).chunkSz < 2 ^ 32 :=
    lt_of_lt_of_le (leValue_lt _) (by rw [length_bytes]; decide)
  have hout : outBlocks (chunkAt i.mem i.header a) < 2 ^ 32 := by
    unfold outBlocks
    cases (chunkAt i.mem i.header a).chunkType <;> first | exact hsz | exact Nat.two_pow_pos 32
  exact ⟨header_oneChunk _ _ _ hhdr hblk hout, chunks_oneChunk _ _ _ hhdr hblk hout⟩

theorem cut_singles {whole : Image} (hwhole : whole.Consistent) (hne : whole.chunks ≠ []) :
    Cut whole whole.singles := by
  have hbare := hwhole.bare
  rw [whole.chunks_eq] at hne hbare
  have hmem : ∀ i ∈ whole.singles, ∃ a ∈ whole.places, oneChunk whole.mem whole.header a = i :=
    fun i hi => mem_map.mp hi
  refine ⟨?_, ?_, ?_, ?_, ?_⟩
  · intro hnil
    rw [map_eq_nil_iff.mp hnil] at hne
    exact hne rfl
  · rw [whole.chunks_eq, Image.singles, flatMap_map]
    simp only [(whole.header_one _).2]
    induction whole.places with
    | nil => rfl
    | cons a as ih => rw [flatMap_cons, ih, map_cons, singleton_append]
  · intro i hi
    obtain ⟨a, ha, rfl⟩ := hmem i hi
    obtain ⟨hheader, hchunks⟩ := whole.header_one a
    refine ⟨by simp [hheader, hchunks], ?_⟩
    rw [hheader, hchunks]
    intro c hc hdc
    rw [mem_singleton.mp hc] at hdc ⊢
    exact hbare _ (mem_map_of_mem ha) hdc
  · intro i hi
    obtain ⟨a, -, rfl⟩ := hmem i hi
    rw [(whole.header_one a).1]
  · intro i hi
    obtain ⟨a, -, rfl⟩ := hmem i hi
    rw [(whole.header_one a).1]

theorem storePieces_each (is : List Image) (id last : ℕ) (before : List Request)
    (hpieces : ∀ j ∈ is, PieceOf h j) (hret : (storePieces s id last before is).stop = .ret 0) :
    ∀ i ∈ is, ∃ start before', Succeeds s h i.chunks start before' := by
  induction is generalizing id last before with
  | nil =>
    intro i hi
    cases hi
  | cons j js ih =>
    have hj := hpieces j (mem_cons_self ..)
    rw [storePieces] at hret
    split at hret
    · next hzero =>
      intro i hi
      cases mem_cons.mp hi with
      | inl hi =>
        rw [hi]
        exact ⟨_, _, (hj.succeeds_iff _ _ _).mp (succeeds_of_ret hj.consistent hzero)⟩
      | inr hi => exact ih _ _ _ (fun k hk => hpieces k (mem_cons_of_mem _ hk)) hret i hi
    · next hzero => exact absurd hret hzero

theorem counted_of_succeeds (hs : s.Writes) (halloc : ∀ i, s.alloc i = true) {c : Chunk} (hok : Succeeds s h [c] start before) :
    Counted s h c := by
  have hcount := storeList_counts hs halloc hok.pos [c] ⟨0, 0, before⟩
    (show 0 < 2 ^ 32 by decide) hok.none
  have htotal := hok.total
  rw [runOf, hcount, Nat.zero_add] at htotal
  simpa [countAll, totalOf, Counted] using htotal

theorem Cut.pieceOf {whole : Image} {pieces : List Image} (hcut : Cut whole pieces) :
    ∀ i ∈ pieces, PieceOf whole.header i :=
  fun i hi => ⟨hcut.consistent i hi, hcut.blkSz i hi, hcut.chunkHdrSz i hi⟩

theorem sparse_sessions_agree {whole : Image} (hwhole : whole.Consistent)
    (halloc : ∀ i, s.alloc i = true) (last : ℕ) (before : List Request) :
    (∀ pieces, Cut whole pieces → (storePieces s 0 last before pieces).stop = .ret 0 →
      storeSparseImage s whole.mem whole.data 0 last before = storePieces s 0 last before pieces) ∧
    (s.Writes → (storeSparseImage s whole.mem whole.data 0 last before).stop = .ret 0 →
      ((∀ pieces, Cut whole pieces → (storePieces s 0 last before pieces).stop = .ret 0) ↔
        ∀ c ∈ whole.chunks, Counted s whole.header c)) := by
  have hself : PieceOf whole.header whole := ⟨hwhole, rfl, rfl⟩
  refine ⟨?_, ?_⟩
  · intro pieces hcut hret
    cases pieces with
    | nil => exact absurd rfl hcut.nonempty
    | cons i is =>
      obtain ⟨hok, heq⟩ := storePieces_ret halloc i is 0 last before hcut.pieceOf hret
      rw [hcut.chunks] at hok heq
      rw [heq, hself.store hok]
  · intro hs hret
    have hok := succeeds_of_ret hwhole hret
    constructor
    · intro hall c hc
      have hne : whole.chunks ≠ [] := ne_nil_of_mem hc
      have hcut := cut_singles hwhole hne
      rw [whole.chunks_eq] at hc
      obtain ⟨a, ha, rfl⟩ := mem_map.mp hc
      obtain ⟨start, before', hone⟩ := storePieces_each whole.singles 0 last before hcut.pieceOf
        (hall _ hcut) (oneChunk whole.mem whole.header a) (mem_map_of_mem ha)
      rw [(whole.header_one a).2] at hone
      exact counted_of_succeeds hs halloc hone
    · intro hcounted pieces hcut
      rw [← hcut.chunks] at hcounted
      refine storePieces_counted hs halloc hok.pos hok.dvd pieces 0 last before hcut.pieceOf
        hcounted ?_
      rw [hcut.chunks]
      exact hok.none

end Sessions

/- The image of `smallImage` in two sessions: its first two chunks, and the third. -/
def smallPieces : List Image :=
  [⟨imageMem (imageBytes 8 2 [(0xCAC1, 1, [1, 2, 3, 4, 5, 6, 7, 8]), (0xCAC3, 1, [])]), 0⟩,
    ⟨imageMem (imageBytes 8 2 [(0xCAC2, 2, [9, 9, 9, 9])]), 0⟩]

theorem sparse_two_sessions :
    storeSparseImage smallStorage smallImage 0 0 0 [] =
        storePieces smallStorage 0 0 [] smallPieces ∧
      ∀ pieces, Cut ⟨smallImage, 0⟩ pieces →
        (storePieces smallStorage 0 0 [] pieces).stop = .ret 0 := by
  have hwrites : smallStorage.Writes := by
    intro rs r
    simp only [smallStorage]
  have hwhole : Image.Consistent ⟨smallImage, 0⟩ :=
    ⟨by decide +kernel, by unfold Bare; decide +kernel⟩
  have hcut : Cut ⟨smallImage, 0⟩ smallPieces := by
    refine ⟨by simp [smallPieces], by decide +kernel, ?_, by decide +kernel, by decide +kernel⟩
    intro i hi
    have hone : ∀ i ∈ smallPieces, i.header.totalBlks = (i.chunks.map outBlocks).sum ∧
        ∀ c ∈ i.chunks, c.chunkType = .dontCare → chunkDataSize i.header c.totalSz = 0 := by
      decide +kernel
    exact ⟨(hone i hi).1, (hone i hi).2⟩
  obtain ⟨hsame, hall⟩ := @sparse_sessions_agree smallStorage _ hwhole (fun _ => rfl) 0 []
  have hret : (storeSparseImage smallStorage smallImage 0 0 0 []).stop = .ret 0 := by
    decide +kernel
  have hpieces := (hall hwrites hret).mpr (by decide +kernel)
  exact ⟨hsame _ hcut (hpieces _ hcut), hpieces⟩

def cardStorage : Storage where
  blockSz := 512
  start := 0
  size := 2 ^ 24
  write := fun _ r => (r.size : ℤ).bmod (2 ^ 32)
  countDontCare := true
  alloc := fun _ => true
  heap := fun _ => 0

/- A fill chunk of `2 ^ 28` blocks of 4096 bytes: its bytes are `0` in 32 bits, and nothing is written.
Two of them are `2 ^ 32` blocks of the card, again `0`; one of them is `2 ^ 31`, which was not counted. -/
theorem fill_chunks_stored_whole_only :
    (storeSparseImage cardStorage (imageMem (imageBytes 4096 (2 ^ 29)
      [(0xCAC2, 2 ^ 28, [1, 2, 3, 4]), (0xCAC2, 2 ^ 28, [1, 2, 3, 4])])) 0 0 0 []).stop = .ret 0 ∧
    Cut ⟨imageMem (imageBytes 4096 (2 ^ 29)
        [(0xCAC2, 2 ^ 28, [1, 2, 3, 4]), (0xCAC2, 2 ^ 28, [1, 2, 3, 4])]), 0⟩
      (List.replicate 2 ⟨imageMem (imageBytes 4096 (2 ^ 28) [(0xCAC2, 2 ^ 28, [1, 2, 3, 4])]), 0⟩) ∧
    (storePieces cardStorage 0 0 [] (List.replicate 2
      ⟨imageMem (imageBytes 4096 (2 ^ 28) [(0xCAC2, 2 ^ 28, [1, 2, 3, 4])]), 0⟩)).stop =
        .ret eio := by
  refine ⟨by decide +kernel, ⟨by simp, by decide +kernel, ?_, by decide +kernel,
    by decide +kernel⟩, by decide +kernel⟩
  intro i hi
  rw [eq_of_mem_replicate hi]
  exact ⟨by decide +kernel, by unfold Bare; decide +kernel⟩

end UBoot.Sparse
