import UBoot.Fat.Coherent
import UBoot.Fat.Contents
import UBoot.Fat.Write

/-!
# A new name in a directory

`fill_dir_slot` puts the slots of a name in front of its entry. If the cluster is full in between,
the FAT leads from it to the new cluster.
-/

namespace UBoot.Fat

open Memory LittleEndian

namespace FsData

variable (v : FsData)

structure Writable : Prop where
  sound : v.toVolume.Sound
  cluster : 0 < v.clustSize
  records : v.sectSize % 32 = 0
  small : v.bytesperclust ≤ maxClustSize

/- Its clusters lie behind its FATs. -/
structure Linkable : Prop extends Writable v where
  data : (v.fatSect + v.numOfFats * v.fatlength : ℤ) ≤ v.dataBegin + 2 * v.clustSize
  bytes : v.toVolume.fatBytes < 2 ^ 32

/- A cluster of a directory, of the root directory of FAT16 too: behind the FATs, inside the volume. -/
structure Stored (c : ℕ) : Prop where
  behind : v.fatSect + v.numOfFats * v.fatlength ≤ v.startsect c
  inside : v.startsect c + v.clustSize ≤ v.totalSector

/- A cluster with an entry in the FAT and its sectors inside the volume. -/
structure DataCluster (c : ℕ) : Prop where
  low : 2 ≤ c
  high : c < v.clustLimit
  entry : v.toVolume.HasEntry c
  inside : v.dataBegin + c * v.clustSize + v.clustSize ≤ v.totalSector

def clusterStart (c : ℕ) : ℕ := v.startsect c * v.sectSize

end FsData

variable {v : FsData} {w : World} {c c' : ℕ}

section Places

theorem FsData.Writable.toSound (hv : v.Writable) : v.Sound := by
  have hsect := hv.sound.sector
  have hlen := fatlength_le hv.sound
  exact ⟨by lia, hv.sound.even, hv.cluster, hlen⟩

theorem FsData.Linkable.above (hv : v.Linkable) (hc : 2 ≤ c) :
    (v.fatSect + v.numOfFats * v.fatlength : ℤ) ≤ v.dataBegin + c * v.clustSize := by
  have hdata := hv.data
  have hmul : (2 : ℤ) * v.clustSize ≤ c * v.clustSize :=
    mul_le_mul_of_nonneg_right (by exact_mod_cast hc) (by lia)
  lia

theorem hasEntry_iff (hfat : v.fatsize ≠ .fat12) (e : ℕ) : v.HasEntry e ↔ v.toVolume.HasEntry e := by
  unfold FsData.HasEntry FsData.entryPos Volume.HasEntry Volume.width Volume.fatBytes
  cases hs : v.fatsize with
  | fat12 => exact absurd hs hfat
  | fat16 =>
    simp only
    lia
  | fat32 =>
    simp only
    lia

theorem fatEntry_copy {disk fat : Mem} (hfat : v.fatsize ≠ .fat12) (hc : v.toVolume.HasEntry c)
    (hcopy : ∀ i < v.fatBytes, disk (Volume.fatStart v.toVolume 0 + i) = fat i) :
    v.fatEntry disk c = v.toVolume.entryOf fat c := by
  have hroom : v.width * (c + 1) ≤ v.fatBytes := hc
  rw [Nat.mul_succ] at hroom
  have hbytes : bytes (fun i => disk (v.fatStart + i)) (v.width * c) v.width =
      bytes fat (v.width * c) v.width := by
    refine bytes_congr _ _ fun x _ hx => ?_
    have := hcopy x (by lia)
    rw [Volume.fatStart, Nat.zero_mul, Nat.add_zero] at this
    exact this
  unfold FsData.fatEntry FsData.entryIn FsData.entryPos Volume.entryOf
  unfold Volume.width at hbytes ⊢
  cases hs : v.fatsize with
  | fat12 => exact absurd hs hfat
  | fat16 =>
    rw [hs] at hbytes
    exact congrArg leValue hbytes
  | fat32 =>
    rw [hs] at hbytes
    exact congrArg leValue hbytes

theorem FsData.DataCluster.isCluster (hv : v.Linkable) (hc : v.DataCluster c) : v.IsCluster c := by
  have habove := hv.above hc.low
  have htotal := hv.sound.total
  have hinside := hc.inside
  have hlow := hc.low
  have hhigh := hc.high
  refine ⟨?_, (hasEntry_iff hv.sound.fatsize c).mpr hc.entry, by lia, by lia⟩
  unfold Volume.checkClust
  simp only [Bool.or_eq_false_iff, decide_eq_false_iff_not]
  lia

theorem FsData.DataCluster.of_le (hc : v.DataCluster c) (hlow : 2 ≤ c')
    (hle : c' ≤ c) : v.DataCluster c' := by
  have hmul : (c' : ℤ) * v.clustSize ≤ c * v.clustSize :=
    mul_le_mul_of_nonneg_right (by exact_mod_cast hle) (by lia)
  have hinside := hc.inside
  refine ⟨hlow, Nat.lt_of_le_of_lt hle hc.high, ?_, by lia⟩
  exact (Nat.mul_le_mul_left _ (Nat.succ_le_succ hle)).trans hc.entry

theorem FsData.DataCluster.start (hv : v.Linkable) (hc : v.DataCluster c) :
    (v.startsect c : ℤ) = v.dataBegin + c * v.clustSize := by
  have habove := hv.above hc.low
  rw [startsect_eq hv.toWritable.toSound (hc.isCluster hv)]
  unfold FsData.sectorOf
  lia

theorem FsData.DataCluster.stored (hv : v.Linkable) (hc : v.DataCluster c) : v.Stored c := by
  have habove := hv.above hc.low
  have hstart := hc.start hv
  have hinside := hc.inside
  exact ⟨by lia, by lia⟩

theorem fats_below (hc : v.Stored c) {k : ℕ} (hk : k < v.numOfFats) :
    Volume.fatStart v.toVolume k + v.fatBytes ≤ v.clusterStart c := by
  have hbehind := hc.behind
  have hmul : (k + 1) * v.fatlength ≤ v.numOfFats * v.fatlength := Nat.mul_le_mul_right _ hk
  rw [Nat.add_mul, Nat.one_mul] at hmul
  have hsect : v.fatSect + k * v.fatlength + v.fatlength ≤ v.startsect c := by lia
  have := Nat.mul_le_mul_right v.sectSize hsect
  rw [Nat.add_mul] at this
  exact this

theorem clusters_apart (hv : v.Linkable) (hc : v.DataCluster c) (hc' : v.DataCluster c')
    (hne : c ≠ c') : v.clusterStart c + v.bytesperclust ≤ v.clusterStart c' ∨
      v.clusterStart c' + v.bytesperclust ≤ v.clusterStart c := by
  have hstep : ∀ {a b : ℕ}, v.DataCluster a → v.DataCluster b → a < b →
      v.clusterStart a + v.bytesperclust ≤ v.clusterStart b := by
    intro a b ha hb hlt
    have hmul : ((a : ℤ) + 1) * v.clustSize ≤ b * v.clustSize :=
      mul_le_mul_of_nonneg_right (by exact_mod_cast hlt) (by lia)
    rw [add_mul, one_mul] at hmul
    have hstart := ha.start hv
    have hstart' := hb.start hv
    have hsect : v.startsect a + v.clustSize ≤ v.startsect b := by lia
    have := Nat.mul_le_mul_right v.sectSize hsect
    rw [Nat.add_mul] at this
    exact this
  obtain hlt | hgt := Nat.lt_or_gt_of_ne hne
  · exact .inl (hstep hc hc' hlt)
  · exact .inr (hstep hc' hc hgt)

end Places

section Clusters

variable {before fat junk buf : Mem}

/- The disk with the start of a buffer as cluster `c`. -/
def putCluster (v : FsData) (disk buf : Mem) (c : ℕ) : Mem :=
  store disk (v.clusterStart c) (bytes buf 0 v.bytesperclust)

theorem setCluster_whole (hv : v.Writable) (hc : v.Stored c) :
    v.setCluster junk buf w c 0 v.bytesperclust = (0, { w with disk := putCluster v w.disk buf c }) := by
  have hsect : 0 < v.sectSize := hv.toSound.sector
  have hdiv : v.bytesperclust / v.sectSize = v.clustSize := Nat.mul_div_cancel _ hsect
  have hleft : v.bytesperclust - v.clustSize * v.sectSize = 0 := Nat.sub_self _
  have hle : v.sectSize ≤ v.bytesperclust := Nat.le_mul_of_pos_left _ hv.cluster
  have hwrite : v.diskWriteData w (v.startsect c) v.clustSize
      (bytes buf 0 (v.clustSize * v.sectSize)) =
        ((v.clustSize : ℤ), { w with disk := putCluster v w.disk buf c }) :=
    if_neg (Nat.not_lt_of_le hc.inside)
  unfold FsData.setCluster
  simp only [hdiv, hleft, Nat.zero_mod, ne_eq, not_true_eq_false, if_false, if_pos hle, hwrite,
    if_true]

theorem putCluster_same (disk buf : Mem) {i : ℕ} (hi : i < v.bytesperclust) :
    putCluster v disk buf c (v.clusterStart c + i) = buf i := by
  have hlen : i < (bytes buf 0 v.bytesperclust).length := by
    rw [length_bytes]
    exact hi
  rw [putCluster, store_at _ _ _ hlen]
  simp [bytes]

theorem putCluster_outside (disk buf : Mem) {a : ℕ}
    (ha : a < v.clusterStart c ∨ v.clusterStart c + v.bytesperclust ≤ a) :
    putCluster v disk buf c a = disk a :=
  store_outside _ _ _ (by rw [length_bytes]; exact ha)

theorem putCluster_coherent (hc : v.Stored c) (h : Coherent v.toVolume before w fat) (buf : Mem) :
    Coherent v.toVolume (putCluster v before buf c) { w with disk := putCluster v w.disk buf c } fat :=
  { fits := h.fits
    buffer := h.buffer
    disk := by
      intro k hk i hi hout
      have hbelow := fats_below hc hk
      exact (putCluster_outside _ _ (by lia)).trans (h.disk k hk i hi hout)
    outside := by
      intro a ha
      have hsame := h.outside a ha
      simp only [putCluster, store, hsame]
    writes := h.writes }

theorem putCluster_clean (hc : v.Stored c) (h : Clean v.toVolume w fat) (buf : Mem) :
    Clean v.toVolume { w with disk := putCluster v w.disk buf c } fat := by
  intro k hk i hi
  have hbelow := fats_below hc hk
  exact (putCluster_outside _ _ (by lia)).trans (h k hk i hi)

theorem cluster_kept (hc : v.Stored c) (h : Coherent v.toVolume before w fat) {i : ℕ} :
    w.disk (v.clusterStart c + i) = before (v.clusterStart c + i) := by
  refine h.outside _ fun k hk => ?_
  have := fats_below hc hk
  exact .inr (by lia)

theorem dirBlock_eq (hv : v.Writable) (hc : v.Stored c) (disk : Mem) {i : ℕ}
    (hi : i < v.bytesperclust) : v.dirBlock disk c i = disk (v.clusterStart c + i) := by
  have htotal := hv.sound.total
  have hroom : v.startsect c + v.clustSize ≤ 2 ^ 32 := hc.inside.trans htotal.le
  have hmul := Nat.mul_le_mul_right v.sectSize hroom
  rw [Nat.add_mul] at hmul
  rw [FsData.dirBlock, @getCluster_eq v disk (fun _ => 0) c hv.toSound v.bytesperclust 0 hmul]
  have hlen : i < (bytes disk (v.startsect c * v.sectSize) v.bytesperclust).length := by
    rw [length_bytes]
    exact hi
  have hat := store_at (fun _ => (0 : UInt8)) 0 _ hlen
  rw [Nat.zero_add] at hat
  rw [hat]
  simp [bytes, FsData.clusterStart]

end Clusters

section NewCluster

variable {before fat junk : Mem} {e free fuel : ℕ}

theorem emptyFrom_spec (hv : v.Linkable) (h : Coherent v.toVolume before w fat)
    (hfree : v.DataCluster free) (hzero : v.toVolume.entryOf fat free = 0) (hlow : 2 ≤ e)
    (hle : e ≤ free) (hwhole : ∀ x, e ≤ x → x ≤ free → v.toVolume.WholeWindow x)
    (hfuel : free < e + fuel) :
    ∃ n w', v.emptyFrom fuel w e = some (n, w') ∧ e ≤ n ∧ n ≤ free ∧
      v.toVolume.entryOf fat n = 0 ∧ Coherent v.toVolume before w' fat ∧ w'.fatbufnum ≠ noBuf := by
  induction fuel generalizing w e with
  | zero => lia
  | succ fuel ih =>
    have hc := hfree.of_le hlow hle
    obtain ⟨hval, hcoh, hbuf⟩ := get_coherent hv.sound h hlow hc.high hc.entry (hwhole e le_rfl hle)
    unfold FsData.emptyFrom
    simp only
    by_cases h0 : (v.getFatentValue w e).1 = 0
    · rw [if_pos h0]
      exact ⟨e, _, rfl, Nat.le_refl e, hle, hval.symm.trans h0, hcoh, hbuf⟩
    · rw [if_neg h0]
      have hne : e ≠ free := fun heq => h0 (by rw [hval, heq, hzero])
      obtain ⟨n, w', hn, hge, hrest⟩ :=
        @ih (v.getFatentValue w e).2 (e + 1) hcoh (by lia) (by lia)
          (fun x hx => hwhole x (by lia)) (by lia)
      exact ⟨n, w', hn, by lia, hrest⟩

theorem cluster_fits_entry (hc : v.DataCluster c) : c % 256 ^ v.width = c := by
  refine Nat.mod_eq_of_lt (Nat.lt_trans hc.high ?_)
  unfold Volume.clustLimit Volume.width
  cases v.fatsize with
  | fat12 => decide
  | fat16 => decide
  | fat32 => decide

theorem set_entry (hv : v.Linkable) (h : Coherent v.toVolume before w fat)
    (hc : v.DataCluster c) (hwhole : v.toVolume.WholeWindow c) (value : ℕ) :
    ∃ fat', Coherent v.toVolume before (v.setFatentValue w c value).2 fat' ∧
      (v.setFatentValue w c value).2.fatbufnum ≠ noBuf ∧
      v.toVolume.entryOf fat' c = value % 256 ^ v.width ∧
      ∀ e, e ≠ c → v.toVolume.entryOf fat' e = v.toVolume.entryOf fat e := by
  obtain ⟨-, hcoh, hbuf⟩ := set_coherent hv.sound hv.bytes h hc.entry hwhole value
  refine ⟨_, hcoh, hbuf, ?_, fun e he => ?_⟩
  · rw [entryOf_store, Function.update_self]
  · rw [entryOf_store, Function.update_of_ne he]

theorem markLast_entry (hv : v.Linkable) (h : Coherent v.toVolume before w fat)
    (hc : v.DataCluster c) (hwhole : v.toVolume.WholeWindow c) :
    ∃ fat', Coherent v.toVolume before (v.markLast w c) fat' ∧
      (v.markLast w c).fatbufnum ≠ noBuf ∧
      ∀ e, e ≠ c → v.toVolume.entryOf fat' e = v.toVolume.entryOf fat e := by
  unfold FsData.markLast
  cases hs : v.fatsize with
  | fat12 => exact absurd hs hv.sound.fatsize
  | fat16 =>
    obtain ⟨fat', hcoh, hbuf, -, hrest⟩ := set_entry hv h hc hwhole 0xfff8
    exact ⟨fat', hcoh, hbuf, hrest⟩
  | fat32 =>
    obtain ⟨fat', hcoh, hbuf, -, hrest⟩ := set_entry hv h hc hwhole 0xffffff8
    exact ⟨fat', hcoh, hbuf, hrest⟩

theorem findEmptyCluster_spec (hv : v.Linkable) (h : Coherent v.toVolume before w fat)
    (hfree : v.DataCluster free) (hlow : 3 ≤ free) (hzero : v.toVolume.entryOf fat free = 0)
    (hwhole : ∀ x, 3 ≤ x → x ≤ free → v.toVolume.WholeWindow x) :
    ∃ n w', v.findEmptyCluster w = some (n, w') ∧ v.DataCluster n ∧ v.toVolume.WholeWindow n ∧
      v.toVolume.entryOf fat n = 0 ∧ Coherent v.toVolume before w' fat := by
  have hhigh := hfree.high
  obtain ⟨n, w', hn, hge, hle, hentry, hcoh, -⟩ := @emptyFrom_spec v w before fat 3 free
    v.clustLimit hv h hfree hzero (by lia) hlow hwhole (by lia)
  exact ⟨n, w', hn, hfree.of_le (by lia) hle, hwhole n hge hle, hentry, hcoh⟩

theorem flushDirTable_spec (hv : v.Linkable) {d : FsData.Dir}
    (h : Coherent v.toVolume before d.world fat) (hdir : v.DataCluster d.dirCurclust)
    (hdirWhole : v.toVolume.WholeWindow d.dirCurclust)
    (hused : v.toVolume.entryOf fat d.dirCurclust ≠ 0) (hfree : v.DataCluster free)
    (hlow : 3 ≤ free) (hzero : v.toVolume.entryOf fat free = 0)
    (hwhole : ∀ x, 3 ≤ x → x ≤ free → v.toVolume.WholeWindow x) (dentptr : ℕ) :
    ∃ new w' fat', v.flushDirTable junk d dentptr =
        some (⟨w', store d.block 0 (List.replicate v.bytesperclust 0), new⟩, 0) ∧
      v.DataCluster new ∧ new ≠ d.dirCurclust ∧
      Coherent v.toVolume (putCluster v before d.block d.dirCurclust) w' fat' ∧
      Clean v.toVolume w' fat' ∧ v.toVolume.entryOf fat' d.dirCurclust = new := by
  have hwritten := putCluster_coherent (hdir.stored hv) h d.block
  obtain ⟨new, w₂, hfind, hnew, hnewWhole, hnewzero, hcoh₂⟩ :=
    findEmptyCluster_spec hv hwritten hfree hlow hzero hwhole
  have hne : new ≠ d.dirCurclust := fun heq => hused (heq ▸ hnewzero)
  obtain ⟨fat₃, hcoh₃, -, hlink, -⟩ := set_entry hv hcoh₂ hdir hdirWhole new
  obtain ⟨fat₄, hcoh₄, hbuf₄, hrest⟩ := markLast_entry hv hcoh₃ hnew hnewWhole
  obtain ⟨hret, hcoh₅, hclean, -⟩ := flush_coherent hv.sound hcoh₄ hbuf₄
  refine ⟨new, _, fat₄, ?_, hnew, hne, hcoh₅, hclean, ?_⟩
  · unfold FsData.flushDirTable
    simp only [setCluster_whole hv.toWritable (hdir.stored hv), ne_eq, not_true_eq_false, if_false, hfind, hret,
      lt_self_iff_false]
  · rw [hrest _ (Ne.symm hne), hlink, cluster_fits_entry hnew]

end NewCluster

end UBoot.Fat
