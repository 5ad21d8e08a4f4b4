import UBoot.Fat.Entries

/-!
# A file is its cluster chain

What `get_contents` stores are the bytes of the clusters of the chain, one after another, from the
position on.
-/

namespace UBoot.Fat

open Memory LittleEndian List Nat

namespace FsData

variable (v : FsData)

def sectorOf (c : ℕ) : ℕ := (v.dataBegin + c * v.clustSize).toNat

/- A cluster of the volume: the FAT has an entry for it and the disk its sectors. -/
structure IsCluster (c : ℕ) : Prop where
  valid : v.checkClust c = false
  entry : v.HasEntry c
  above : 0 ≤ v.dataBegin + c * v.clustSize
  below : v.dataBegin + c * v.clustSize + v.clustSize ≤ 2 ^ 32

/- Clusters of the volume, and the FAT leads from each one to the next. -/
structure Chain (disk : Mem) (cs : List ℕ) : Prop where
  clusters : ∀ c ∈ cs, v.IsCluster c
  linked : cs.IsChain fun c next => v.fatEntry disk c = next

def clusterBytes (disk : Mem) (c : ℕ) : List UInt8 :=
  bytes disk (v.sectorOf c * v.sectSize) v.bytesperclust

def chainBytes (disk : Mem) (cs : List ℕ) : List UInt8 := cs.flatMap (v.clusterBytes disk)

def endOf (dent : DirEntry) (pos maxsize : ℕ) : ℕ :=
  if maxsize = 0 then dent.size else min dent.size (pos + maxsize)

/- It returns 0 and says how many bytes it stored, and these are the ones of the chain; the rest of
memory is as before. -/
def ReadsRight (w : World) (mem : Mem) (dent : DirEntry) (cs : List ℕ) (pos buffer maxsize : ℕ) :
    Prop :=
  ∃ w', v.getContents w mem dent pos buffer maxsize = some ⟨0, endOf dent pos maxsize - pos,
    store mem buffer (((v.chainBytes w.disk cs).drop pos).take (endOf dent pos maxsize - pos)), w'⟩

end FsData

variable {v : FsData} {w : World} {disk mem : Mem} {c : ℕ} {cs : List ℕ}

theorem bytesperclust_pos (hv : v.Sound) : 0 < v.bytesperclust := Nat.mul_pos hv.cluster hv.sector

section Clusters

theorem startsect_eq (hv : v.Sound) (hc : v.IsCluster c) : v.startsect c = v.sectorOf c := by
  have hpos : 0 < c := by
    have hvalid := hc.valid
    unfold Volume.checkClust at hvalid
    simp only [Bool.or_eq_false_iff, decide_eq_false_iff_not] at hvalid
    lia
  have habove := hc.above
  have hbelow := hc.below
  have hsize := hv.cluster
  rw [FsData.startsect, if_pos hpos, FsData.sectorOf, Int.emod_eq_of_lt habove (by lia)]

theorem sectorOf_succ (hc : v.IsCluster c) : v.sectorOf (c + 1) = v.sectorOf c + v.clustSize := by
  have habove := hc.above
  unfold FsData.sectorOf
  push_cast
  rw [add_mul, one_mul]
  lia

theorem sectorOf_le (hc : v.IsCluster c) : v.sectorOf c + v.clustSize ≤ 2 ^ 32 := by
  have habove := hc.above
  have hbelow := hc.below
  unfold FsData.sectorOf
  lia

theorem chainBytes_range' (disk : Mem) (k : ℕ) (hc : ∀ d ∈ List.range' c k, v.IsCluster d) :
    v.chainBytes disk (List.range' c k) =
        bytes disk (v.sectorOf c * v.sectSize) (k * v.bytesperclust) ∧
      (0 < k → v.sectorOf c + k * v.clustSize ≤ 2 ^ 32) := by
  induction k generalizing c with
  | zero => simp [FsData.chainBytes]
  | succ k ih =>
    rw [range'_succ] at hc ⊢
    obtain ⟨hrest, hroom⟩ := ih fun d hd => hc d (mem_cons_of_mem _ hd)
    have hfirst := hc c mem_cons_self
    have hsucc := sectorOf_succ hfirst
    constructor
    · rw [FsData.chainBytes] at hrest ⊢
      rw [flatMap_cons, hrest, FsData.clusterBytes, hsucc, succ_mul,
        Nat.add_comm _ v.bytesperclust, bytes_add, Nat.add_mul]
      rfl
    · intro _
      have hle := sectorOf_le hfirst
      cases k with
      | zero => lia
      | succ k =>
        have := hroom (succ_pos k)
        rw [hsucc] at this
        rw [succ_mul]
        lia

theorem oneByOne_eq (n s buffer : ℕ) (hs : s + n ≤ 2 ^ 32) :
    v.oneByOne disk n s mem buffer = store mem buffer (v.sectors disk s n) := by
  induction n generalizing s mem buffer with
  | zero => simp [FsData.oneByOne, FsData.sectors]
  | succ n ih =>
    rw [FsData.oneByOne]
    have hsplit : v.sectors disk s (n + 1) = v.sectors disk s 1 ++ v.sectors disk (s + 1) n := by
      unfold FsData.sectors
      rw [Nat.add_comm n 1, Nat.add_mul, bytes_add, Nat.add_mul]
    have hlen : (v.sectors disk s 1).length = v.sectSize := by
      rw [FsData.sectors, length_bytes, Nat.one_mul]
    rw [hsplit, store_append, hlen]
    cases n with
    | zero => simp [FsData.oneByOne, FsData.sectors]
    | succ n => rw [mod_eq_of_lt (by lia), ih (s + 1) _ (by lia)]

theorem getCluster_eq (hv : v.Sound) {size : ℕ} (buffer : ℕ)
    (hroom : v.startsect c * v.sectSize + size ≤ 2 ^ 32 * v.sectSize) :
    v.getCluster disk mem c buffer size =
      store mem buffer (bytes disk (v.startsect c * v.sectSize) size) := by
  have hsect := hv.sector
  set s := v.startsect c with hs
  have hdm : size / v.sectSize * v.sectSize + size % v.sectSize = size := div_add_mod' _ _
  have hmod : size % v.sectSize < v.sectSize := mod_lt _ hsect
  have hidx : s + size / v.sectSize ≤ 2 ^ 32 := by
    refine Nat.le_of_mul_le_mul_right ?_ hsect
    rw [Nat.add_mul]
    lia
  unfold FsData.getCluster
  simp only [← hs]
  rw [oneByOne_eq _ _ _ hidx, ite_self, show size - size / v.sectSize * v.sectSize =
    size % v.sectSize by lia]
  split
  · next hleft => rw [FsData.sectors, show size / v.sectSize * v.sectSize = size by lia]
  · next hleft =>
    have hlt : s + size / v.sectSize < 2 ^ 32 := by
      refine Nat.lt_of_mul_lt_mul_right (a := v.sectSize) ?_
      rw [Nat.add_mul]
      lia
    have happ := store_append mem buffer (v.sectors disk s (size / v.sectSize))
      ((v.sectors disk (s + size / v.sectSize) 1).take (size % v.sectSize))
    have hlen : (v.sectors disk s (size / v.sectSize)).length = size / v.sectSize * v.sectSize := by
      rw [FsData.sectors, length_bytes]
    rw [hlen] at happ
    rw [mod_eq_of_lt hlt, ← happ]
    congr 1
    unfold FsData.sectors
    rw [take_bytes, Nat.one_mul, Nat.min_eq_left hmod.le, Nat.add_mul, ← bytes_add, hdm]

end Clusters

section Steps

variable {next : ℕ} {rest : List ℕ}

theorem FsData.Chain.tail (h : v.Chain disk (c :: rest)) : v.Chain disk rest :=
  ⟨fun d hd => h.clusters d (mem_cons_of_mem _ hd), h.linked.tail⟩

theorem FsData.Chain.append_right {front : List ℕ} (h : v.Chain disk (front ++ rest)) :
    v.Chain disk rest :=
  ⟨fun d hd => h.clusters d (mem_append_right _ hd), h.linked.right_of_append⟩

theorem clustLimit_lt (v : FsData) : v.clustLimit < 2 ^ 32 - 1 := by
  unfold Volume.clustLimit
  cases v.fatsize with
  | fat12 => decide
  | fat16 => decide
  | fat32 => decide

theorem cluster_bounds (hc : v.IsCluster c) : 2 ≤ c ∧ c < 2 ^ 32 - 1 := by
  have hlimit := clustLimit_lt v
  have hvalid := hc.valid
  unfold Volume.checkClust at hvalid
  simp only [Bool.or_eq_false_iff, decide_eq_false_iff_not] at hvalid
  lia

theorem getFatent_chain (hv : v.Sound) (hw : v.Cached w) (h : v.Chain w.disk (c :: next :: rest)) :
    ∃ w', v.getFatent w c = (next, w') ∧ v.Cached w' ∧ w'.disk = w.disk := by
  have hc := h.clusters c mem_cons_self
  obtain ⟨hentry, hcached, hdisk⟩ := getFatent_spec hv hw hc.entry (cluster_bounds hc).2
  have hlink : v.fatEntry w.disk c = next := (isChain_cons_cons.mp h.linked).1
  exact ⟨(v.getFatent w c).2, by rw [← hlink, ← hentry], hcached, hdisk⟩

theorem length_chainBytes (disk : Mem) (cs : List ℕ) :
    (v.chainBytes disk cs).length = cs.length * v.bytesperclust := by
  induction cs with
  | nil => simp [FsData.chainBytes]
  | cons c cs ih =>
    rw [FsData.chainBytes] at ih ⊢
    rw [flatMap_cons, length_append, ih, FsData.clusterBytes, length_bytes,
      length_cons, succ_mul, Nat.add_comm]

theorem chainBytes_append (disk : Mem) (cs ds : List ℕ) :
    v.chainBytes disk (cs ++ ds) = v.chainBytes disk cs ++ v.chainBytes disk ds :=
  flatMap_append

end Steps

section Loops

variable {fuel : ℕ}

theorem skipLoop_spec (hv : v.Sound) {pos b : ℕ} {rest : List ℕ} (hw : v.Cached w)
    (h : v.Chain w.disk (c :: rest)) (hbase : b ≤ pos) (hfuel : pos < b + fuel)
    (hin : pos < b + (rest.length + 1) * v.bytesperclust) :
    ∃ front d back w', v.skipLoop pos fuel w c (b + v.bytesperclust) =
        some (.cluster d (b + (front.length + 1) * v.bytesperclust), w') ∧
      c :: rest = front ++ d :: back ∧ b + front.length * v.bytesperclust ≤ pos ∧
      pos < b + (front.length + 1) * v.bytesperclust ∧ v.Cached w' ∧ w'.disk = w.disk := by
  have hpos := bytesperclust_pos hv
  induction fuel generalizing w c rest b with
  | zero => lia
  | succ fuel ih =>
    unfold FsData.skipLoop
    by_cases hhere : pos < b + v.bytesperclust
    · rw [if_pos hhere]
      refine ⟨[], c, rest, w, ?_, rfl, ?_, ?_, hw, rfl⟩
      · rw [length_nil, Nat.zero_add, Nat.one_mul]
      · rw [length_nil, Nat.zero_mul]
        exact hbase
      · rw [length_nil, Nat.zero_add, Nat.one_mul]
        exact hhere
    rw [if_neg hhere]
    cases rest with
    | nil =>
      rw [length_nil, Nat.zero_add, Nat.one_mul] at hin
      exact absurd hin hhere
    | cons next rest =>
      obtain ⟨w₁, hget, hw₁, hdisk⟩ := getFatent_chain hv hw h
      have hnext := h.clusters next (mem_cons_of_mem _ mem_cons_self)
      rw [hget]
      simp only [hnext.valid, Bool.false_eq_true, if_false]
      rw [length_cons, succ_mul] at hin
      obtain ⟨front, d, back, w', hskip, hsplit, hle, hlt, hw', hdisk'⟩ :=
        ih (b := b + v.bytesperclust) hw₁ (hdisk ▸ h.tail) (by lia) (by lia) (by lia)
      have hmul : (front.length + 1) * v.bytesperclust =
          front.length * v.bytesperclust + v.bytesperclust := succ_mul _ _
      have hmul' : (front.length + 1 + 1) * v.bytesperclust =
          (front.length + 1) * v.bytesperclust + v.bytesperclust := succ_mul _ _
      refine ⟨c :: front, d, back, w', ?_, ?_, ?_, ?_, hw', hdisk'.trans hdisk⟩
      · rw [hskip, length_cons, hmul', Nat.add_assoc, Nat.add_comm v.bytesperclust]
      · rw [cons_append, hsplit]
      · rw [length_cons, hmul]
        lia
      · rw [length_cons, hmul']
        lia

theorem mergeLoop_spec (hv : v.Sound) {filesize k : ℕ} {rest : List ℕ} (hw : v.Cached w)
    (h : v.Chain w.disk (List.range' c (k + 1) ++ rest)) (hless : k * v.bytesperclust < filesize)
    (hfuel : filesize ≤ fuel + k * v.bytesperclust)
    (hin : filesize ≤ (k + 1 + rest.length) * v.bytesperclust) :
    ∃ n back w', v.Cached w' ∧ w'.disk = w.disk ∧
      List.range' c (k + 1) ++ rest = List.range' c (n + 1) ++ back ∧
      (v.mergeLoop filesize fuel w (c + k) ((k + 1) * v.bytesperclust) = some (.all, w') ∧
          filesize ≤ (n + 1) * v.bytesperclust ∨
        v.mergeLoop filesize fuel w (c + k) ((k + 1) * v.bytesperclust) =
            some (.some (c + n) ((n + 1) * v.bytesperclust), w') ∧
          (n + 1) * v.bytesperclust < filesize) := by
  have hb := bytesperclust_pos hv
  induction fuel generalizing w k rest with
  | zero => lia
  | succ fuel ih =>
    unfold FsData.mergeLoop
    by_cases hall : filesize ≤ (k + 1) * v.bytesperclust
    · rw [if_pos hall]
      exact ⟨k, rest, w, hw, rfl, rfl, .inl ⟨rfl, hall⟩⟩
    rw [if_neg hall]
    have hsplit : List.range' c (k + 1) = List.range' c k ++ [c + k] := by
      rw [range'_concat, Nat.one_mul]
    cases rest with
    | nil =>
      rw [length_nil, Nat.add_zero] at hin
      exact absurd hin hall
    | cons next rest =>
      have hlast : v.Chain w.disk ((c + k) :: next :: rest) := by
        rw [hsplit, append_assoc] at h
        exact h.append_right
      obtain ⟨w₁, hget, hw₁, hdisk⟩ := getFatent_chain hv hw hlast
      have hnext := hlast.clusters next (mem_cons_of_mem _ mem_cons_self)
      have hbounds := cluster_bounds hnext
      rw [hget]
      simp only
      by_cases hjump : (next + 2 ^ 32 - 1) % 2 ^ 32 ≠ c + k
      · rw [if_pos hjump]
        exact ⟨k, next :: rest, w₁, hw₁, hdisk, rfl, .inr ⟨rfl, by lia⟩⟩
      rw [if_neg hjump, hnext.valid]
      simp only [Bool.false_eq_true, if_false]
      have hseq : next = c + (k + 1) := by lia
      have hgrown : List.range' c (k + 1) ++ next :: rest = List.range' c (k + 1 + 1) ++ rest := by
        rw [range'_concat (n := k + 1), Nat.one_mul, hseq, append_assoc]
        rfl
      have hmul : (k + 1) * v.bytesperclust + v.bytesperclust = (k + 1 + 1) * v.bytesperclust :=
        (succ_mul _ _).symm
      rw [hgrown] at h ⊢
      rw [length_cons] at hin
      obtain ⟨n, back, w', hw', hdisk', hback, hcases⟩ := ih (k := k + 1) hw₁ (hdisk ▸ h)
        (by lia) (by lia) (by rw [Nat.add_right_comm (k + 1) 1]; exact hin)
      refine ⟨n, back, w', hw', hdisk'.trans hdisk, hback, ?_⟩
      rw [hmul, hseq]
      exact hcases

theorem take_chainBytes_run {n f : ℕ} {back : List ℕ}
    (h : v.Chain disk (List.range' c (n + 1) ++ back)) :
    (n + 1) * v.bytesperclust ≤ f →
    (v.chainBytes disk (List.range' c (n + 1) ++ back)).take f =
      bytes disk (v.sectorOf c * v.sectSize) ((n + 1) * v.bytesperclust) ++
        (v.chainBytes disk back).take (f - (n + 1) * v.bytesperclust) := by
  intro hle
  have hrun := (chainBytes_range' disk (n + 1) fun d hd => h.clusters d (mem_append_left _ hd)).1
  rw [chainBytes_append, hrun, take_append, length_bytes,
    take_of_length_le (by rw [length_bytes]; exact hle)]

theorem getCluster_run (hv : v.Sound) {n size : ℕ} {back : List ℕ} (buffer : ℕ)
    (h : v.Chain disk (List.range' c (n + 1) ++ back)) (hsize : size ≤ (n + 1) * v.bytesperclust) :
    v.getCluster disk mem c buffer size =
      store mem buffer ((v.chainBytes disk (List.range' c (n + 1) ++ back)).take size) := by
  have hmem : c ∈ List.range' c (n + 1) := by
    rw [range'_succ]
    exact mem_cons_self
  have hc := h.clusters c (mem_append_left _ hmem)
  obtain ⟨hrun, hroom⟩ := chainBytes_range' disk (n + 1)
    fun d hd => h.clusters d (mem_append_left _ hd)
  have hstart := startsect_eq hv hc
  have hle : v.sectorOf c * v.sectSize + size ≤ 2 ^ 32 * v.sectSize := by
    have hmul := Nat.mul_le_mul_right v.sectSize (hroom (succ_pos n))
    have hbytes : (n + 1) * v.clustSize * v.sectSize = (n + 1) * v.bytesperclust := Nat.mul_assoc _ _ _
    rw [Nat.add_mul, hbytes] at hmul
    lia
  rw [getCluster_eq hv buffer (by rw [hstart]; exact hle), hstart, chainBytes_append, hrun,
    take_append_of_le_length (by rw [length_bytes]; exact hsize), take_bytes,
    Nat.min_eq_left hsize]

theorem mergeLoop_start (hv : v.Sound) {filesize : ℕ} {rest : List ℕ} (hw : v.Cached w)
    (h : v.Chain w.disk (c :: rest)) (hpos : 0 < filesize)
    (hin : filesize ≤ (rest.length + 1) * v.bytesperclust) :
    ∃ n back w', v.Cached w' ∧ w'.disk = w.disk ∧ c :: rest = List.range' c (n + 1) ++ back ∧
      (v.mergeLoop filesize (filesize + 1) w c v.bytesperclust = some (.all, w') ∧
          filesize ≤ (n + 1) * v.bytesperclust ∨
        v.mergeLoop filesize (filesize + 1) w c v.bytesperclust =
            some (.some (c + n) ((n + 1) * v.bytesperclust), w') ∧
          (n + 1) * v.bytesperclust < filesize) := by
  have hmerge := @mergeLoop_spec v w c (filesize + 1) hv filesize 0 rest hw h
    (by rw [Nat.zero_mul]; exact hpos) (by rw [Nat.zero_mul]; lia)
    (by rw [Nat.zero_add, Nat.add_comm]; exact hin)
  rw [Nat.add_zero, Nat.one_mul] at hmerge
  exact hmerge

theorem mainLoop_spec (hv : v.Sound) {filesize gotsize : ℕ} {rest : List ℕ} (buffer : ℕ)
    (hw : v.Cached w) (hdisk : w.disk = disk) (h : v.Chain disk (c :: rest)) (hpos : 0 < filesize)
    (hfuel : filesize < fuel) (hint : filesize < 2 ^ 31)
    (hin : filesize ≤ (rest.length + 1) * v.bytesperclust) :
    ∃ w', v.mainLoop disk fuel w mem c buffer filesize gotsize = some ⟨0, gotsize + filesize,
      store mem buffer ((v.chainBytes disk (c :: rest)).take filesize), w'⟩ := by
  have hb := bytesperclust_pos hv
  induction fuel generalizing w mem c buffer filesize gotsize rest with
  | zero => lia
  | succ fuel ih =>
    unfold FsData.mainLoop
    obtain ⟨n, back, w₁, hw₁, hdisk₁, hsplit, ⟨hloop, hle⟩ | ⟨hloop, hlt⟩⟩ :=
      mergeLoop_start hv hw (hdisk ▸ h) hpos hin
    · rw [hloop, hsplit]
      simp only [if_neg (Nat.not_le_of_lt hint)]
      rw [getCluster_run hv buffer (hsplit ▸ h) hle]
      exact ⟨w₁, rfl⟩
    · have hrun : v.Chain disk (List.range' c (n + 1) ++ back) := hsplit ▸ h
      have hsize : (n + 1) * v.bytesperclust ≤ filesize := hlt.le
      have hlen : rest.length + 1 = n + 1 + back.length := by
        have := congrArg List.length hsplit
        rwa [length_cons, length_append, length_range'] at this
      rw [hlen, Nat.add_mul] at hin
      rw [hloop]
      simp only [if_neg (show ¬2 ^ 31 ≤ (n + 1) * v.bytesperclust by lia)]
      -- the run ends before the file does, so the chain goes on
      cases back with
      | nil =>
        rw [length_nil, Nat.zero_mul] at hin
        lia
      | cons next back =>
        have hlast : v.Chain disk ((c + n) :: next :: back) := by
          rw [range'_concat, Nat.one_mul, append_assoc] at hrun
          exact hrun.append_right
        obtain ⟨w₂, hget, hw₂, hdisk₂⟩ := getFatent_chain hv hw₁ ((hdisk₁.trans hdisk).symm ▸ hlast)
        have hnext := hlast.clusters next (mem_cons_of_mem _ mem_cons_self)
        rw [hget]
        simp only [hnext.valid, Bool.false_eq_true, if_false]
        obtain ⟨w', hmain⟩ := @ih w₂ (v.getCluster disk mem c buffer ((n + 1) * v.bytesperclust))
          next (filesize - (n + 1) * v.bytesperclust) (gotsize + (n + 1) * v.bytesperclust) back
          (buffer + (n + 1) * v.bytesperclust) hw₂ (hdisk₂.trans (hdisk₁.trans hdisk))
          hrun.append_right (by lia) (by lia) (by lia)
          (by rw [length_cons] at hin; lia)
        refine ⟨w', hmain.trans ?_⟩
        rw [hsplit, take_chainBytes_run hrun hsize, store_append, length_bytes,
          getCluster_run hv buffer hrun le_rfl, take_chainBytes_run hrun le_rfl, Nat.sub_self,
          take_zero, append_nil, Nat.add_assoc, Nat.add_sub_cancel' hsize]

end Loops

section Contents

/- The position in a cluster is 0, or what is taken of it fits the buffer between. -/
def FitsBlock (v : FsData) (filesize pos : ℕ) : Prop :=
  pos = 0 ∨ min filesize v.bytesperclust ≤ maxClustSize

theorem fromCluster_overruns {filesize pos buffer : ℕ} (h : ¬FitsBlock v filesize pos) :
    v.fromCluster w mem c buffer filesize pos = none := by
  unfold FitsBlock at h
  rw [not_or, not_le] at h
  unfold FsData.fromCluster
  rw [if_neg h.1]
  simp only [if_pos h.2]

theorem fromCluster_spec (hv : v.Sound) {filesize pos : ℕ} {rest : List ℕ} (buffer : ℕ)
    (hw : v.Cached w) (h : v.Chain w.disk (c :: rest)) (hpos : pos < v.bytesperclust)
    (hmore : pos < filesize) (hint : filesize < 2 ^ 31)
    (hin : filesize ≤ (rest.length + 1) * v.bytesperclust) (hfits : FitsBlock v filesize pos) :
    ∃ w', v.fromCluster w mem c buffer filesize pos = some ⟨0, filesize - pos,
      store mem buffer (((v.chainBytes w.disk (c :: rest)).drop pos).take (filesize - pos)), w'⟩ := by
  unfold FsData.fromCluster
  by_cases hzero : pos = 0
  · subst hzero
    rw [if_pos rfl, drop_zero, Nat.sub_zero]
    obtain ⟨w', hmain⟩ := @mainLoop_spec v w w.disk mem c (filesize + 1) hv filesize 0 rest buffer hw
      rfl h hmore (lt_succ_self _) hint hin
    rw [Nat.zero_add] at hmain
    exact ⟨w', hmain⟩
  rw [if_neg hzero]
  have hblock : min filesize v.bytesperclust ≤ maxClustSize := hfits.resolve_left hzero
  simp only [if_neg (Nat.not_lt_of_le hblock)]
  set actsize := min filesize v.bytesperclust with hact
  have hle : actsize ≤ v.bytesperclust := Nat.min_le_right _ _
  -- the block has the start of the cluster
  have hone : v.Chain w.disk (List.range' c (0 + 1) ++ rest) := h
  have hcluster : v.chainBytes w.disk (c :: rest) =
      v.clusterBytes w.disk c ++ v.chainBytes w.disk rest := rfl
  have hlen : (v.clusterBytes w.disk c).length = v.bytesperclust := length_bytes _ _ _
  have hread : bytes (v.getCluster w.disk (fun _ => 0) c 0 actsize) pos (actsize - pos) =
      ((v.clusterBytes w.disk c).take actsize).drop pos := by
    rw [getCluster_run hv 0 hone (by rw [Nat.zero_add, Nat.one_mul]; exact hle)]
    have hsame := bytes_store_same (fun _ => (0 : UInt8)) 0
      ((v.chainBytes w.disk (List.range' c (0 + 1) ++ rest)).take actsize)
    have htaken : (v.chainBytes w.disk (List.range' c (0 + 1) ++ rest)).take actsize =
        (v.clusterBytes w.disk c).take actsize := by
      rw [show List.range' c (0 + 1) ++ rest = c :: rest from rfl, hcluster,
        take_append_of_le_length (by rw [hlen]; exact hle)]
    rw [htaken] at hsame ⊢
    rw [length_take, hlen, Nat.min_eq_left hle] at hsame
    have hdrop := congrArg (List.drop pos) hsame
    rw [drop_bytes _ _ _ _ (by lia), Nat.zero_add] at hdrop
    exact hdrop
  rw [hread, hcluster]
  by_cases hend : filesize ≤ v.bytesperclust
  · have hactf : actsize = filesize := Nat.min_eq_left hend
    rw [hactf, Nat.sub_self, if_pos rfl]
    refine ⟨w, ?_⟩
    rw [← drop_take, take_append_of_le_length (by rw [hlen]; exact hend)]
  · have hactb : actsize = v.bytesperclust := Nat.min_eq_right (by lia)
    rw [hactb, if_neg (by lia)]
    cases rest with
    | nil =>
      rw [length_nil, Nat.zero_add, Nat.one_mul] at hin
      exact absurd hin hend
    | cons next rest =>
      obtain ⟨w₁, hget, hw₁, hdisk⟩ := getFatent_chain hv hw h
      have hnext := h.clusters next (mem_cons_of_mem _ mem_cons_self)
      rw [length_cons, succ_mul] at hin
      rw [hget]
      simp only [hnext.valid, Bool.false_eq_true, if_false]
      have hwhole : (v.clusterBytes w.disk c).take v.bytesperclust = v.clusterBytes w.disk c :=
        take_of_length_le hlen.le
      have hpiece : ((v.clusterBytes w.disk c).drop pos).length = v.bytesperclust - pos := by
        rw [length_drop, hlen]
      rw [hwhole]
      obtain ⟨w', hmain⟩ := @mainLoop_spec v w₁ w.disk
        (store mem buffer ((v.clusterBytes w.disk c).drop pos)) next (filesize + 1) hv
        (filesize - v.bytesperclust) (v.bytesperclust - pos) rest
        (buffer + (v.bytesperclust - pos)) hw₁ hdisk h.tail (by lia) (by lia) (by lia)
        (by lia)
      refine ⟨w', hmain.trans ?_⟩
      have happ := store_append mem buffer ((v.clusterBytes w.disk c).drop pos)
        ((v.chainBytes w.disk (next :: rest)).take (filesize - v.bytesperclust))
      rw [hpiece] at happ
      have htake : ((v.clusterBytes w.disk c).drop pos).take (filesize - pos) =
          (v.clusterBytes w.disk c).drop pos := take_of_length_le (by rw [hpiece]; lia)
      rw [← happ, drop_append_of_le_length (by rw [hlen]; exact hpos.le), take_append,
        hpiece, htake, show filesize - pos - (v.bytesperclust - pos) = filesize - v.bytesperclust by lia,
        show v.bytesperclust - pos + (filesize - v.bytesperclust) = filesize - pos by lia]

/- `loff_t` has room for the end of the read, and what is taken of a cluster that is entered in its
middle fits the block between. -/
def Readable (v : FsData) (dent : DirEntry) (pos maxsize : ℕ) : Prop :=
  pos < dent.size → (maxsize = 0 ∨ pos + maxsize < 2 ^ 63) ∧
    FitsBlock v (FsData.endOf dent pos maxsize - pos / v.bytesperclust * v.bytesperclust)
      (pos % v.bytesperclust)

/-- For a file below 2 GiB whose chain is valid and long enough, `get_contents` stores the bytes of
the chain from the position on, as many as there are or as are asked for, and nothing else, exactly
if the end of the read does not overflow and the block between is large enough. -/
theorem get_contents_iff (hv : v.Sound) (hw : v.Cached w) (dent : DirEntry)
    (hsize : dent.size < 2 ^ 31) (hchain : v.Chain w.disk cs)
    (hstart : 0 < dent.size → cs.head? = some (v.startOf dent))
    (hlong : dent.size ≤ cs.length * v.bytesperclust) (mem : Mem) (pos buffer maxsize : ℕ) :
    v.ReadsRight w mem dent cs pos buffer maxsize ↔ Readable v dent pos maxsize := by
  have hb := bytesperclust_pos hv
  unfold FsData.ReadsRight FsData.getContents Readable
  by_cases hpast : dent.size ≤ pos
  · rw [if_pos hpast]
    have hnone : FsData.endOf dent pos maxsize - pos = 0 := by
      unfold FsData.endOf
      split <;> lia
    rw [hnone, take_zero, store_nil]
    exact iff_of_true ⟨w, rfl⟩ fun hlt => absurd hlt (by lia)
  rw [if_neg hpast]
  by_cases hover : 0 < maxsize ∧ 2 ^ 63 ≤ pos + maxsize
  · rw [if_pos hover]
    refine iff_of_false (by simp) fun h => ?_
    have := (h (by lia)).1
    lia
  rw [if_neg hover]
  have hend : (if 0 < maxsize ∧ pos + maxsize < dent.size then pos + maxsize else dent.size) =
      FsData.endOf dent pos maxsize := by
    unfold FsData.endOf
    by_cases hmax : maxsize = 0
    · rw [if_pos hmax, if_neg (by lia)]
    · rw [if_neg hmax]
      split <;> lia
  have hendle : FsData.endOf dent pos maxsize ≤ dent.size := by
    unfold FsData.endOf
    split <;> lia
  have hendgt : pos < FsData.endOf dent pos maxsize := by
    unfold FsData.endOf
    split <;> lia
  simp only [hend]
  set filesize := FsData.endOf dent pos maxsize with hfs
  have hhead := hstart (by lia)
  cases cs with
  | nil => exact absurd hhead (by simp)
  | cons c rest =>
    obtain rfl : c = v.startOf dent := Option.some.inj hhead
    rw [length_cons] at hlong
    obtain ⟨front, d, back, w₁, hskip, hsplit, hle, hlt, hw₁, hdisk⟩ :=
      @skipLoop_spec v w _ (pos + 2) hv pos 0 rest hw hchain (Nat.zero_le pos) (by lia) (by lia)
    rw [Nat.zero_add] at hskip hle hlt
    have hdiv : pos / v.bytesperclust = front.length := Nat.div_eq_of_lt_le hle hlt
    have hmod : pos - front.length * v.bytesperclust = pos % v.bytesperclust := by
      have := div_add_mod' pos v.bytesperclust
      rw [hdiv] at this
      lia
    have hacts : 0 + (front.length + 1) * v.bytesperclust - v.bytesperclust =
        front.length * v.bytesperclust := by
      rw [Nat.zero_add, succ_mul, Nat.add_sub_cancel]
    rw [hskip]
    simp only [hacts]
    rw [hdiv, hmod]
    set base := front.length * v.bytesperclust with hbase
    by_cases hfits : FitsBlock v (filesize - base) (pos % v.bytesperclust)
    · have hback : v.Chain w.disk (d :: back) := by
        rw [hsplit] at hchain
        exact hchain.append_right
      have hlen : rest.length + 1 = front.length + (back.length + 1) := by
        have := congrArg List.length hsplit
        rwa [length_cons, length_append, length_cons] at this
      rw [hlen, Nat.add_mul] at hlong
      obtain ⟨w', hfrom⟩ := @fromCluster_spec v w₁ mem d hv (filesize - base)
        (pos % v.bytesperclust) back buffer hw₁ (hdisk.symm ▸ hback) (mod_lt _ hb) (by lia)
        (by lia) (by lia) hfits
      have hfront : (v.chainBytes w.disk front).length = base := length_chainBytes _ _
      have hskipped : (v.chainBytes w.disk front).drop pos = [] :=
        drop_eq_nil_of_le (by rw [hfront]; exact hle)
      refine iff_of_true ⟨w', ?_⟩ fun _ => ⟨by lia, hfits⟩
      rw [hfrom, hsplit, chainBytes_append, hdisk, drop_append, hskipped, nil_append, hfront,
        hmod, show filesize - base - pos % v.bytesperclust = filesize - pos by lia]
    · rw [fromCluster_overruns hfits]
      exact iff_of_false (by simp) fun h => hfits (h (by lia)).2

end Contents

def oneSectorFat (sectSize clustSize : ℕ) : FsData where
  fatsize := .fat16
  fatlength := 1
  fatSect := 1
  sectSize := sectSize
  numOfFats := 1
  totalSector := 100
  rootdirSect := 2
  clustSize := clustSize
  dataBegin := 2 - 2 * clustSize
  archDmaMinalign := 64

def twoToFive : World := ⟨fun _ => 0, noBuf, fun a => if a = 512 + 4 then 5 else 0, []⟩

theorem two_clusters_read :
    (oneSectorFat 512 1).ReadsRight twoToFive (fun _ => 0) ⟨0, 2, 600⟩ [2, 5] 500 1 90 ↔
      Readable (oneSectorFat 512 1) ⟨0, 2, 600⟩ 500 90 := by
  refine get_contents_iff ⟨by decide, by decide, by decide, by decide⟩ (.inl rfl) _ (by decide)
    ⟨fun c hc => ?_, ?_⟩ (fun _ => rfl) (by decide) _ _ _ _
  · obtain rfl | hc := mem_cons.mp hc
    · exact ⟨by decide, by unfold FsData.HasEntry; decide, by decide, by decide⟩
    · obtain rfl := mem_singleton.mp hc
      exact ⟨by decide, by unfold FsData.HasEntry; decide, by decide, by decide⟩
  · exact isChain_pair.mpr rfl

/- A file of one cluster of 128 KiB, from its second byte on; and one of 600 bytes, with the largest
`loff_t` for `maxsize`. -/
theorem large_cluster_overruns :
    (oneSectorFat 4096 32).Sound ∧
      (oneSectorFat 4096 32).Chain (fun _ => 0) [2] ∧
      (oneSectorFat 4096 32).bytesperclust = 131072 ∧
      ¬(oneSectorFat 4096 32).ReadsRight ⟨fun _ => 0, noBuf, fun _ => 0, []⟩ (fun _ => 0)
        ⟨0, 2, 131072⟩ [2] 1 0 0 ∧
      ¬(oneSectorFat 512 1).ReadsRight twoToFive (fun _ => 0) ⟨0, 2, 600⟩ [2, 5] 1 0 (2 ^ 63 - 1) := by
  refine ⟨⟨by decide, by decide, by decide, by decide⟩, ⟨fun c hc => ?_, isChain_singleton _⟩,
    rfl, fun h => ?_, fun h => ?_⟩
  · obtain rfl := mem_singleton.mp hc
    exact ⟨by decide, by unfold FsData.HasEntry; decide, by decide, by decide⟩
  · obtain ⟨w', h⟩ := h
    have hnone : (oneSectorFat 4096 32).getContents ⟨fun _ => 0, noBuf, fun _ => 0, []⟩ (fun _ => 0)
        ⟨0, 2, 131072⟩ 1 0 0 = none := rfl
    exact absurd (hnone.symm.trans h) (by simp)
  · obtain ⟨w', h⟩ := h
    have hnone : (oneSectorFat 512 1).getContents twoToFive (fun _ => 0) ⟨0, 2, 600⟩ 1 0
        (2 ^ 63 - 1) = none := rfl
    exact absurd (hnone.symm.trans h) (by simp)

end UBoot.Fat
