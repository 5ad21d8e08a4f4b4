import UBoot.Fat.Cache

/-!
# The FAT cache is coherent

The bytes of the FAT as a reader of the cache sees them: those of the window in the buffer, the rest
as on the disk. Every call keeps them.
-/

namespace UBoot.Fat

open Memory LittleEndian Function List

structure Volume.Sound (v : Volume) : Prop where
  fatsize : v.fatsize ≠ .fat12
  fats : v.numOfFats = 1 ∨ v.numOfFats = 2
  sector : 512 ≤ v.sectSize
  even : v.sectSize % 2 = 0
  inside : v.fatSect + v.numOfFats * v.fatlength ≤ v.totalSector
  total : v.totalSector < 2 ^ 32

namespace Volume

variable (v : Volume)

/- The byte where FAT number `k` starts on the disk. -/
def fatStart (k : ℕ) : ℕ := (v.fatSect + k * v.fatlength) * v.sectSize

def fatBytes : ℕ := v.fatlength * v.sectSize

/- The entry `e` of a FAT whose bytes are `fat`. -/
def entryOf (fat : Mem) (e : ℕ) : ℕ := leValue (bytes fat (v.width * e) v.width)

/- The entry `e` of FAT number `k` of a disk. -/
def onDisk (disk : Mem) (k e : ℕ) : ℕ := v.entryOf (fun i => disk (v.fatStart k + i)) e

def HasEntry (e : ℕ) : Prop := v.width * (e + 1) ≤ v.fatBytes

def WholeWindow (e : ℕ) : Prop :=
  (e / v.bufEntries + 1) * fatBufBlocks ≤ v.fatlength ∨ v.fatlength ≤ fatBufBlocks

end Volume

namespace Volume

variable (v : Volume)

def winBlocks : ℕ := min fatBufBlocks v.fatlength
def winBytes : ℕ := v.winBlocks * v.sectSize

/- Where window `b` starts in a FAT. -/
def winStart (b : ℕ) : ℕ := b * v.fatBufSize

/- Window `b` lies inside the FAT. -/
def Fits (b : ℕ) : Prop := (b + 1) * fatBufBlocks ≤ v.fatlength ∨ v.fatlength ≤ fatBufBlocks ∧ b = 0

end Volume

section Windows

variable {v : Volume} {b e : ℕ}

theorem bufEntries_width (hv : v.Sound) : v.width * v.bufEntries = v.fatBufSize := by
  have heven := hv.even
  unfold Volume.width Volume.bufEntries Volume.fatBufSize fatBufBlocks
  cases hs : v.fatsize with
  | fat12 => exact absurd hs hv.fatsize
  | fat16 =>
    simp only
    lia
  | fat32 =>
    simp only
    lia

theorem bufEntries_pos (hv : v.Sound) : 0 < v.bufEntries := by
  have h := bufEntries_width hv
  have hs := hv.sector
  apply Nat.pos_of_ne_zero
  intro hz
  rw [hz, Volume.fatBufSize, fatBufBlocks] at h
  lia

theorem width_pos (v : Volume) : 0 < v.width := by
  unfold Volume.width
  split
  · decide
  · decide

theorem fits_bytes (h : v.Fits b) : v.winStart b + v.winBytes ≤ v.fatBytes := by
  unfold Volume.winStart Volume.winBytes Volume.winBlocks Volume.fatBytes Volume.fatBufSize
  have hblocks : b * fatBufBlocks + min fatBufBlocks v.fatlength ≤ v.fatlength := by
    unfold Volume.Fits fatBufBlocks at h
    unfold fatBufBlocks
    lia
  have hmul := Nat.mul_le_mul_right v.sectSize hblocks
  rw [Nat.add_mul, Nat.mul_right_comm, Nat.mul_assoc] at hmul
  exact hmul

theorem fits_of_whole (hv : v.Sound) (he : v.HasEntry e) (h : v.WholeWindow e) :
    v.Fits (e / v.bufEntries) := by
  unfold Volume.Fits
  cases h with
  | inl h => exact .inl h
  | inr h =>
    refine .inr ⟨h, Nat.div_eq_of_lt ?_⟩
    by_contra hge
    have h1 : v.width * v.bufEntries < v.width * (e + 1) :=
      Nat.mul_lt_mul_of_pos_left (by lia) (width_pos v)
    have h2 : v.fatlength * v.sectSize ≤ fatBufBlocks * v.sectSize := Nat.mul_le_mul_right _ h
    have h3 := bufEntries_width hv
    have h4 : v.width * (e + 1) ≤ v.fatlength * v.sectSize := he
    unfold Volume.fatBufSize at h3
    rw [Nat.mul_comm fatBufBlocks] at h2
    lia

theorem entry_in_window (hv : v.Sound) (he : v.HasEntry e) (h : v.WholeWindow e) :
    v.width * e = v.winStart (e / v.bufEntries) +
        v.width * (e - e / v.bufEntries * v.bufEntries) ∧
      v.width * (e - e / v.bufEntries * v.bufEntries) + v.width ≤ v.winBytes := by
  have hpos := bufEntries_pos hv
  have hw := bufEntries_width hv
  have hdm : e / v.bufEntries * v.bufEntries ≤ e := Nat.div_mul_le_self e _
  have heq : v.width * e = v.winStart (e / v.bufEntries) +
      v.width * (e - e / v.bufEntries * v.bufEntries) := by
    unfold Volume.winStart
    rw [← hw, Nat.mul_left_comm, ← Nat.mul_add, Nat.add_sub_cancel' hdm]
  refine ⟨heq, ?_⟩
  unfold Volume.winBytes Volume.winBlocks
  cases fits_of_whole hv he h with
  | inl hfits =>
    have hlt : e - e / v.bufEntries * v.bufEntries < v.bufEntries := by
      rw [← Nat.mod_eq_sub_div_mul]
      exact Nat.mod_lt e hpos
    have hle : v.width * (e - e / v.bufEntries * v.bufEntries + 1) ≤ v.width * v.bufEntries :=
      Nat.mul_le_mul_left _ hlt
    have hmin : min fatBufBlocks v.fatlength = fatBufBlocks := by
      have := Nat.le_mul_of_pos_left fatBufBlocks (Nat.succ_pos (e / v.bufEntries))
      exact Nat.min_eq_left (this.trans hfits)
    rw [hmin, Nat.mul_comm fatBufBlocks]
    rw [hw, Nat.mul_add, Nat.mul_one] at hle
    exact hle
  | inr hfits =>
    have hmin : min fatBufBlocks v.fatlength = v.fatlength := Nat.min_eq_right hfits.1
    have hroom : v.width * (e + 1) ≤ v.fatlength * v.sectSize := he
    rw [hmin, hfits.2, Nat.zero_mul, Nat.sub_zero]
    rw [Nat.mul_add, Nat.mul_one] at hroom
    exact hroom

theorem getsize_eq (v : Volume) :
    (if v.fatlength < fatBufBlocks then v.fatlength else fatBufBlocks) = v.winBlocks := by
  unfold Volume.winBlocks
  split
  · next h => exact (Nat.min_eq_right h.le).symm
  · next h => exact (Nat.min_eq_left (by lia)).symm

theorem fits_blocks (h : v.Fits b) : b * fatBufBlocks + v.winBlocks ≤ v.fatlength := by
  unfold Volume.Fits fatBufBlocks at h
  unfold Volume.winBlocks fatBufBlocks
  lia

theorem block_bytes (v : Volume) (b k : ℕ) :
    (b * fatBufBlocks + v.fatSect + k * v.fatlength) * v.sectSize = v.fatStart k + v.winStart b := by
  unfold Volume.fatStart Volume.winStart Volume.fatBufSize
  ring

end Windows

/- `fat` are the bytes of the FAT that the calls have come to, `before` is the disk of the
beginning. -/
structure Coherent (v : Volume) (before : Mem) (w : World) (fat : Mem) : Prop where
  fits : w.fatbufnum ≠ noBuf → v.Fits w.fatbufnum
  buffer : w.fatbufnum ≠ noBuf → ∀ i < v.winBytes, w.fatbuf i = fat (v.winStart w.fatbufnum + i)
  disk : ∀ k < v.numOfFats, ∀ i < v.fatBytes,
    (w.fatbufnum ≠ noBuf → i < v.winStart w.fatbufnum ∨ v.winStart w.fatbufnum + v.winBytes ≤ i) →
    w.disk (v.fatStart k + i) = fat i
  outside : ∀ a, (∀ k < v.numOfFats, a < v.fatStart k ∨ v.fatStart k + v.fatBytes ≤ a) →
    w.disk a = before a
  writes : ∀ r ∈ w.writes, ∃ k < v.numOfFats, v.fatSect + k * v.fatlength ≤ r.1 ∧
    r.1 + r.2 ≤ v.fatSect + (k + 1) * v.fatlength

def Clean (v : Volume) (w : World) (fat : Mem) : Prop :=
  ∀ k < v.numOfFats, ∀ i < v.fatBytes, w.disk (v.fatStart k + i) = fat i

section Flush

variable {v : Volume} {before fat : Mem} {w : World}

/- The window in the buffer written to FAT number `k`. -/
def writeBack (v : Volume) (w : World) (k : ℕ) : World :=
  { w with
    disk := store w.disk (v.fatStart k + v.winStart w.fatbufnum) (bytes w.fatbuf 0 v.winBytes)
    writes := w.writes ++ [(w.fatbufnum * fatBufBlocks + v.fatSect + k * v.fatlength, v.winBlocks)] }

theorem diskWrite_window (hv : v.Sound) (hfits : v.Fits w.fatbufnum) {k : ℕ}
    (hk : k < v.numOfFats) :
    v.diskWrite w (w.fatbufnum * fatBufBlocks + v.fatSect + k * v.fatlength) v.winBlocks =
      ((v.winBlocks : ℤ), writeBack v w k) := by
  have hblocks := fits_blocks hfits
  have hin := hv.inside
  have hroom : (k + 1) * v.fatlength ≤ v.numOfFats * v.fatlength := Nat.mul_le_mul_right _ hk
  rw [Nat.add_mul, Nat.one_mul] at hroom
  unfold Volume.diskWrite
  rw [if_neg (by lia), block_bytes]
  rfl

theorem flushFatBuffer_eq (hv : v.Sound) (hfits : v.Fits w.fatbufnum) :
    v.flushFatBuffer w =
      (0, if v.numOfFats = 2 then writeBack v (writeBack v w 0) 1 else writeBack v w 0) := by
  have hblocks := fits_blocks hfits
  have hin := hv.inside
  have htotal := hv.total
  have hmod : (w.fatbufnum * fatBufBlocks + v.fatSect) % 2 ^ 32 =
      w.fatbufnum * fatBufBlocks + v.fatSect + 0 * v.fatlength := by
    rw [Nat.zero_mul, Nat.add_zero]
    apply Nat.mod_eq_of_lt
    have : 1 * v.fatlength ≤ v.numOfFats * v.fatlength :=
      Nat.mul_le_mul_right _ (by have := hv.fats; lia)
    lia
  unfold Volume.flushFatBuffer
  simp only [getsize_eq]
  rw [hmod, diskWrite_window hv hfits (by have := hv.fats; lia)]
  simp only [show ¬ (v.winBlocks : ℤ) < 0 by lia, if_false]
  by_cases htwo : v.numOfFats = 2
  · have hmod' : (w.fatbufnum * fatBufBlocks + v.fatSect + 0 * v.fatlength + v.fatlength) % 2 ^ 32 =
        w.fatbufnum * fatBufBlocks + v.fatSect + 1 * v.fatlength := by
      rw [htwo] at hin
      rw [Nat.zero_mul, Nat.add_zero, Nat.one_mul]
      apply Nat.mod_eq_of_lt
      lia
    have hsecond : v.diskWrite (writeBack v w 0)
        (w.fatbufnum * fatBufBlocks + v.fatSect + 1 * v.fatlength) v.winBlocks =
          ((v.winBlocks : ℤ), writeBack v (writeBack v w 0) 1) :=
      diskWrite_window (w := writeBack v w 0) hv hfits (by lia)
    rw [if_pos htwo, if_pos htwo, hmod']
    simp only [hsecond, show ¬ (v.winBlocks : ℤ) < 0 by lia, if_false]
  · rw [if_neg htwo, if_neg htwo]

theorem writeBack_disk (k a : ℕ) :
    (writeBack v w k).disk a =
      if v.fatStart k + v.winStart w.fatbufnum ≤ a ∧
          a < v.fatStart k + v.winStart w.fatbufnum + v.winBytes then
        w.fatbuf (a - (v.fatStart k + v.winStart w.fatbufnum))
      else w.disk a := by
  unfold writeBack
  simp only
  split
  · next h =>
    obtain ⟨i, rfl⟩ := Nat.exists_eq_add_of_le h.1
    have hi : i < (bytes w.fatbuf 0 v.winBytes).length := by
      rw [length_bytes]
      lia
    rw [store_at _ _ _ hi, Nat.add_sub_cancel_left]
    simp [bytes]
  · next h =>
    apply store_outside
    rw [length_bytes]
    lia

theorem fatStart_apart {j k : ℕ} (h : j ≠ k) :
    v.fatStart j + v.fatBytes ≤ v.fatStart k ∨ v.fatStart k + v.fatBytes ≤ v.fatStart j := by
  have key : ∀ m n, m < n → v.fatStart m + v.fatBytes ≤ v.fatStart n := by
    intro m n hmn
    unfold Volume.fatStart Volume.fatBytes
    rw [← Nat.add_mul, Nat.add_assoc, ← Nat.succ_mul]
    exact Nat.mul_le_mul_right _ (Nat.add_le_add_left (Nat.mul_le_mul_right _ hmn) _)
  cases Nat.lt_or_gt_of_ne h with
  | inl h => exact .inl (key j k h)
  | inr h => exact .inr (key k j h)

theorem writeBack_fat (h : Coherent v before w fat) (hbuf : w.fatbufnum ≠ noBuf) {k : ℕ}
    (hk : k < v.numOfFats) :
    Coherent v before (writeBack v w k) fat ∧
      (∀ i < v.fatBytes, (writeBack v w k).disk (v.fatStart k + i) = fat i) ∧
      ∀ j ≠ k, ∀ i < v.fatBytes,
        (writeBack v w k).disk (v.fatStart j + i) = w.disk (v.fatStart j + i) := by
  have hfits := h.fits hbuf
  have hbytes := fits_bytes hfits
  have hblocks := fits_blocks hfits
  have hself : ∀ i < v.fatBytes, (writeBack v w k).disk (v.fatStart k + i) = fat i := by
    intro i hi
    rw [writeBack_disk]
    split
    · next hin =>
      rw [h.buffer hbuf _ (by lia)]
      congr 1
      lia
    · next hout => exact h.disk k hk i hi fun _ => by lia
  have hother : ∀ j ≠ k, ∀ i < v.fatBytes,
      (writeBack v w k).disk (v.fatStart j + i) = w.disk (v.fatStart j + i) := by
    intro j hj i hi
    have hapart := fatStart_apart (v := v) hj
    rw [writeBack_disk, if_neg (by lia)]
  refine ⟨?_, hself, hother⟩
  exact
    { fits := h.fits
      buffer := h.buffer
      disk := by
        intro j hj i hi hout
        by_cases hjk : j = k
        · rw [hjk]
          exact hself i hi
        · rw [hother j hjk i hi]
          exact h.disk j hj i hi hout
      outside := by
        intro a ha
        have := ha k hk
        rw [writeBack_disk, if_neg (by lia)]
        exact h.outside a ha
      writes := by
        intro r hr
        cases mem_append.mp hr with
        | inl hr => exact h.writes r hr
        | inr hr =>
          rw [mem_singleton.mp hr]
          refine ⟨k, hk, by lia, ?_⟩
          rw [Nat.add_mul]
          lia }

theorem flush_coherent (hv : v.Sound) (h : Coherent v before w fat) (hbuf : w.fatbufnum ≠ noBuf) :
    (v.flushFatBuffer w).1 = 0 ∧ Coherent v before (v.flushFatBuffer w).2 fat ∧
      Clean v (v.flushFatBuffer w).2 fat ∧ (v.flushFatBuffer w).2.fatbufnum = w.fatbufnum := by
  rw [flushFatBuffer_eq hv (h.fits hbuf)]
  obtain ⟨hfirst, hfat, -⟩ := writeBack_fat h hbuf (k := 0) (by have := hv.fats; lia)
  refine ⟨rfl, ?_⟩
  cases hv.fats with
  | inl hone =>
    rw [if_neg (by lia)]
    refine ⟨hfirst, ?_, rfl⟩
    intro k hk
    obtain rfl : k = 0 := by lia
    exact hfat
  | inr htwo =>
    obtain ⟨hsecond, hfat', hkeep⟩ := writeBack_fat hfirst hbuf (k := 1) (by lia)
    rw [if_pos htwo]
    refine ⟨hsecond, ?_, rfl⟩
    intro k hk i hi
    cases (show k = 0 ∨ k = 1 by lia) with
    | inl h0 =>
      rw [h0, hkeep 0 (by decide) i hi]
      exact hfat i hi
    | inr h1 =>
      rw [h1]
      exact hfat' i hi

end Flush

section Access

variable {v : Volume} {before fat : Mem} {w : World} {b e : ℕ}

theorem fatlength_le (hv : v.Sound) : v.fatSect + v.fatlength < 2 ^ 32 := by
  have hin := hv.inside
  have htotal := hv.total
  have : 1 * v.fatlength ≤ v.numOfFats * v.fatlength :=
    Nat.mul_le_mul_right _ (by have := hv.fats; lia)
  lia

theorem ne_noBuf (hv : v.Sound) (h : v.Fits b) : b ≠ noBuf := by
  have := fatlength_le hv
  unfold Volume.Fits fatBufBlocks at h
  unfold noBuf
  lia

theorem coherent_read (hv : v.Sound) (h : Coherent v before w fat) (hclean : Clean v w fat)
    (hfits : v.Fits b) {g : ℕ} (hg : v.winBlocks ≤ g) :
    Coherent v before
      { v.diskRead w ((b * fatBufBlocks + v.fatSect) % 2 ^ 32) g with fatbufnum := b } fat :=
  { fits := fun _ => hfits
    buffer := by
      intro _ i hi
      have hbytes := fits_bytes hfits
      have hblocks := fits_blocks hfits
      have hlen := fatlength_le hv
      have hg' : v.winBytes ≤ g * v.sectSize := Nat.mul_le_mul_right _ hg
      have hstart : (b * fatBufBlocks + v.fatSect) % 2 ^ 32 * v.sectSize =
          v.fatStart 0 + v.winStart b := by
        rw [Nat.mod_eq_of_lt (by lia), ← block_bytes v b 0, Nat.zero_mul, Nat.add_zero]
      have hi' : i < (bytes w.disk (v.fatStart 0 + v.winStart b) (g * v.sectSize)).length := by
        rw [length_bytes]
        lia
      have hat := store_at w.fatbuf 0 _ hi'
      rw [Nat.zero_add] at hat
      show store w.fatbuf 0 (bytes w.disk (_ * v.sectSize) (g * v.sectSize)) i = _
      rw [hstart, hat, ← hclean 0 (by have := hv.fats; lia) (v.winStart b + i) (by lia)]
      simp [bytes, Nat.add_assoc]
    disk := fun k hk i hi _ => hclean k hk i hi
    outside := h.outside
    writes := h.writes }

theorem readWindow_coherent (hv : v.Sound) (h : Coherent v before w fat) (hfits : v.Fits b)
    {g : ℕ} (hg : v.winBlocks ≤ g) :
    (v.readWindow w b g).1 = 0 ∧ Coherent v before (v.readWindow w b g).2 fat ∧
      (v.readWindow w b g).2.fatbufnum = b := by
  unfold Volume.readWindow
  by_cases hbuf : w.fatbufnum = noBuf
  · have hclean : Clean v w fat := fun k hk i hi => h.disk k hk i hi fun hne => absurd hbuf hne
    simp only [hbuf, ne_eq, not_true_eq_false, if_false, lt_self_iff_false]
    exact ⟨trivial, coherent_read hv h hclean hfits hg, trivial⟩
  · obtain ⟨hret, hcoh, hclean, -⟩ := flush_coherent hv h hbuf
    simp only [ne_eq, hbuf, not_false_eq_true, if_true, hret, lt_self_iff_false, if_false]
    exact ⟨trivial, coherent_read hv hcoh hclean hfits hg, trivial⟩

theorem buffer_bytes (h : Coherent v before w fat) (hbuf : w.fatbufnum ≠ noBuf) {a n : ℕ}
    (hin : a + n ≤ v.winBytes) : bytes w.fatbuf a n = bytes fat (v.winStart w.fatbufnum + a) n := by
  unfold bytes
  apply map_congr_left
  intro i hi
  have := mem_range.mp hi
  rw [h.buffer hbuf (a + i) (by lia), Nat.add_assoc]

theorem bufEntry_eq (hv : v.Sound) (fatbuf : Mem) (offset : ℕ) :
    v.bufEntry fatbuf offset = leValue (bytes fatbuf (v.width * offset) v.width) := by
  unfold Volume.bufEntry Volume.width Volume.buf16 Volume.buf32
  cases hs : v.fatsize with
  | fat12 => exact absurd hs hv.fatsize
  | fat16 => rfl
  | fat32 => rfl

theorem bufEntry_coherent (hv : v.Sound) (h : Coherent v before w fat) (he : v.HasEntry e)
    (hw : v.WholeWindow e) (hbuf : w.fatbufnum = e / v.bufEntries) :
    v.bufEntry w.fatbuf (e - e / v.bufEntries * v.bufEntries) = v.entryOf fat e := by
  obtain ⟨heq, hin⟩ := entry_in_window hv he hw
  have hne : w.fatbufnum ≠ noBuf := by
    rw [hbuf]
    exact ne_noBuf hv (fits_of_whole hv he hw)
  rw [bufEntry_eq hv, buffer_bytes h hne hin, hbuf, ← heq]
  rfl

theorem putEntry_coherent (hv : v.Sound) (h : Coherent v before w fat) (he : v.HasEntry e)
    (hw : v.WholeWindow e) (hbuf : w.fatbufnum = e / v.bufEntries) (value : ℕ) :
    Coherent v before (v.putEntry w (e - e / v.bufEntries * v.bufEntries) value)
      (store fat (v.width * e) (leBytes v.width value)) := by
  obtain ⟨heq, hin⟩ := entry_in_window hv he hw
  have hne : w.fatbufnum ≠ noBuf := by
    rw [hbuf]
    exact ne_noBuf hv (fits_of_whole hv he hw)
  exact
    { fits := h.fits
      buffer := by
        intro _ i hi
        show store w.fatbuf (v.width * _) _ i = store fat (v.width * e) _ (v.winStart w.fatbufnum + i)
        rw [heq, hbuf]
        apply store_shift
        rw [← hbuf]
        exact h.buffer hne i hi
      disk := by
        intro k hk i hi hout
        have hout' := hout hne
        rw [store_outside]
        · exact h.disk k hk i hi hout
        · rw [length_leBytes]
          change i < v.winStart w.fatbufnum ∨ v.winStart w.fatbufnum + v.winBytes ≤ i at hout'
          rw [hbuf] at hout'
          lia
      outside := h.outside
      writes := h.writes }

theorem get_coherent (hv : v.Sound) (h : Coherent v before w fat) (hlow : 2 ≤ e)
    (hhigh : e < v.clustLimit) (he : v.HasEntry e) (hw : v.WholeWindow e) :
    (v.getFatentValue w e).1 = v.entryOf fat e ∧
      Coherent v before (v.getFatentValue w e).2 fat ∧
      (v.getFatentValue w e).2.fatbufnum ≠ noBuf := by
  have hcheck : v.checkClust e = false := by
    simp only [Volume.checkClust, Bool.or_eq_false_iff, decide_eq_false_iff_not]
    lia
  have hfits := fits_of_whole hv he hw
  unfold Volume.getFatentValue
  simp only [hcheck, Bool.false_eq_true, if_false, getsize_eq]
  by_cases hbuf : e / v.bufEntries = w.fatbufnum
  · rw [if_neg (not_not.mpr hbuf)]
    refine ⟨bufEntry_coherent hv h he hw hbuf.symm, h, ?_⟩
    rw [← hbuf]
    exact ne_noBuf hv hfits
  · obtain ⟨hret, hcoh, hnum⟩ := readWindow_coherent hv h hfits (le_refl v.winBlocks)
    rw [if_pos hbuf, hret, if_neg (lt_irrefl _)]
    refine ⟨bufEntry_coherent hv hcoh he hw hnum, hcoh, ?_⟩
    rw [hnum]
    exact ne_noBuf hv hfits

theorem set_coherent (hv : v.Sound) (hlen : v.fatBytes < 2 ^ 32) (h : Coherent v before w fat)
    (he : v.HasEntry e) (hw : v.WholeWindow e) (value : ℕ) :
    (v.setFatentValue w e value).1 = 0 ∧
      Coherent v before (v.setFatentValue w e value).2
        (store fat (v.width * e) (leBytes v.width value)) ∧
      (v.setFatentValue w e value).2.fatbufnum ≠ noBuf := by
  have hfits := fits_of_whole hv he hw
  -- a FAT with an entry has a sector, so its length in bytes is no less than six
  have hsix : ¬ v.fatlength * v.sectSize % 2 ^ 32 < fatBufBlocks := by
    have hroom : v.width * (e + 1) ≤ v.fatlength * v.sectSize := he
    have hpos : 0 < v.width * (e + 1) := Nat.mul_pos (width_pos v) (Nat.succ_pos e)
    have hf : 0 < v.fatlength := by
      apply Nat.pos_of_ne_zero
      intro hz
      rw [hz, Nat.zero_mul] at hroom
      lia
    have hmul : 1 * 512 ≤ v.fatlength * v.sectSize := Nat.mul_le_mul hf hv.sector
    have hmod : v.fatlength * v.sectSize % 2 ^ 32 = v.fatlength * v.sectSize :=
      Nat.mod_eq_of_lt hlen
    rw [hmod]
    unfold fatBufBlocks
    lia
  unfold Volume.setFatentValue
  simp only [if_neg hv.fatsize, if_neg hsix]
  by_cases hbuf : e / v.bufEntries = w.fatbufnum
  · rw [if_neg (not_not.mpr hbuf)]
    refine ⟨rfl, putEntry_coherent hv h he hw hbuf.symm value, ?_⟩
    show w.fatbufnum ≠ noBuf
    rw [← hbuf]
    exact ne_noBuf hv hfits
  · obtain ⟨hret, hcoh, hnum⟩ := readWindow_coherent (g := fatBufBlocks) hv h hfits
      (Nat.min_le_left _ _)
    rw [if_pos hbuf, hret, if_neg (lt_irrefl _)]
    refine ⟨rfl, putEntry_coherent hv hcoh he hw hnum value, ?_⟩
    show (v.readWindow w (e / v.bufEntries) fatBufBlocks).2.fatbufnum ≠ noBuf
    rw [hnum]
    exact ne_noBuf hv hfits

end Access

def table (v : Volume) (first : ℕ → ℕ) : List Volume.Call → ℕ → ℕ
  | [] => first
  | .set e value :: cs => table v (update first e (value % 256 ^ v.width)) cs
  | _ :: cs => table v first cs

def expected (v : Volume) : (ℕ → ℕ) → List Volume.Call → List ℤ
  | _, [] => []
  | t, .get e :: cs => (t e : ℤ) :: expected v t cs
  | t, .set e value :: cs => 0 :: expected v (update t e (value % 256 ^ v.width)) cs
  | t, .flush :: cs => 0 :: expected v t cs

namespace Volume

variable (v : Volume)

def IsCluster (e : ℕ) : Prop := 2 ≤ e ∧ e < v.clustLimit ∧ v.HasEntry e

/- The entry that a call names satisfies `p`. -/
def Call.Names (p : ℕ → Prop) : Call → Prop
  | .get e => p e
  | .set e _ => p e
  | .flush => True

end Volume

section Runs

variable {v : Volume} {before fat : Mem} {w : World}

theorem entryOf_store {e e' value : ℕ} :
    v.entryOf (store fat (v.width * e) (leBytes v.width value)) e' =
      update (v.entryOf fat) e (value % 256 ^ v.width) e' := by
  unfold Volume.entryOf
  by_cases h : e' = e
  · subst h
    have hsame := bytes_store_same fat (v.width * e') (leBytes v.width value)
    rw [length_leBytes] at hsame
    rw [update_self, hsame, leValue_leBytes]
  · rw [update_of_ne h, bytes_store_apart]
    rw [length_leBytes]
    cases Nat.lt_or_gt_of_ne h with
    | inl hlt =>
      left
      rw [← Nat.mul_succ]
      exact Nat.mul_le_mul_left _ hlt
    | inr hgt =>
      right
      rw [← Nat.mul_succ]
      exact Nat.mul_le_mul_left _ hgt

theorem run_coherent (hv : v.Sound) (hlen : v.fatBytes < 2 ^ 32) {t : ℕ → ℕ}
    (calls : List Volume.Call) (h : Coherent v before w fat)
    (ht : ∀ e, v.HasEntry e → v.entryOf fat e = t e) (hclusters : ∀ c ∈ calls, c.Names v.IsCluster)
    (hwhole : ∀ c ∈ calls, c.Names v.WholeWindow)
    (hfirst : w.fatbufnum = noBuf → calls.head? ≠ some .flush) :
    (v.run w calls).1 = expected v t calls ∧
      ∃ fat', Coherent v before (v.run w calls).2 fat' ∧
        (∀ e, v.HasEntry e → v.entryOf fat' e = table v t calls e) ∧
        (calls ≠ [] → (v.run w calls).2.fatbufnum ≠ noBuf) ∧
        (w.fatbufnum ≠ noBuf → (v.run w calls).2.fatbufnum ≠ noBuf) := by
  induction calls generalizing w fat t with
  | nil => exact ⟨rfl, fat, h, ht, fun hne => absurd rfl hne, id⟩
  | cons c cs ih =>
    have hc := hclusters c (mem_cons_self ..)
    have hw := hwhole c (mem_cons_self ..)
    have hcs := fun d hd => hclusters d (mem_cons_of_mem c hd)
    have hws := fun d hd => hwhole d (mem_cons_of_mem c hd)
    cases c with
    | get e =>
      obtain ⟨hlow, hhigh, he⟩ := hc
      obtain ⟨hret, hcoh, hnum⟩ := get_coherent hv h hlow hhigh he hw
      obtain ⟨hrets, fat', hcoh', ht', -, hkeep⟩ := ih hcoh ht hcs hws fun heq => absurd heq hnum
      refine ⟨?_, fat', hcoh', ht', fun _ => hkeep hnum, fun _ => hkeep hnum⟩
      rw [Volume.run, expected, ← hrets, ← ht e he, ← hret]
      rfl
    | set e value =>
      obtain ⟨-, -, he⟩ := hc
      obtain ⟨hret, hcoh, hnum⟩ := set_coherent hv hlen h he hw value
      have hupd : ∀ e', v.HasEntry e' →
          v.entryOf (store fat (v.width * e) (leBytes v.width value)) e' =
            update t e (value % 256 ^ v.width) e' := by
        intro e' he'
        rw [entryOf_store]
        by_cases heq : e' = e
        · rw [heq, update_self, update_self]
        · rw [update_of_ne heq, update_of_ne heq, ht e' he']
      obtain ⟨hrets, fat', hcoh', ht', -, hkeep⟩ := ih hcoh hupd hcs hws fun heq => absurd heq hnum
      refine ⟨?_, fat', hcoh', ht', fun _ => hkeep hnum, fun _ => hkeep hnum⟩
      rw [Volume.run, expected, ← hrets, ← hret]
      rfl
    | flush =>
      have hbuf : w.fatbufnum ≠ noBuf := fun heq => hfirst heq rfl
      obtain ⟨hret, hcoh, -, hnum⟩ := flush_coherent hv h hbuf
      rw [← hnum] at hbuf
      obtain ⟨hrets, fat', hcoh', ht', -, hkeep⟩ := ih hcoh ht hcs hws fun heq => absurd heq hbuf
      refine ⟨?_, fat', hcoh', ht', fun _ => hkeep hbuf, fun _ => hkeep hbuf⟩
      rw [Volume.run, expected, ← hrets, ← hret]
      rfl

theorem coherent_fresh (v : Volume) (hfats : v.numOfFats = 1 ∨ v.numOfFats = 2)
    (hbuf : w.fatbufnum = noBuf) (hwrites : w.writes = [])
    (hcopies : v.numOfFats = 2 → ∀ i < v.fatBytes,
      w.disk (v.fatStart 1 + i) = w.disk (v.fatStart 0 + i)) :
    Coherent v w.disk w fun i => w.disk (v.fatStart 0 + i) :=
  { fits := fun hne => absurd hbuf hne
    buffer := fun hne => absurd hbuf hne
    disk := by
      intro k hk i hi _
      cases (show k = 0 ∨ k = 1 by lia) with
      | inl h => rw [h]
      | inr h =>
        rw [h]
        exact hcopies (by lia) i hi
    outside := fun _ _ => rfl
    writes := by
      intro r hr
      rw [hwrites] at hr
      cases hr }

/- With FATs that are alike and nothing in the cache at first: if every call stays in whole windows and
something is in the cache when it is flushed, every call returns what it should, the last flush leaves
both FATs with the values that were set, and only blocks of the FATs are written. -/
theorem fat_cache_coherent (v : Volume) (hv : v.Sound) (hlen : v.fatBytes < 2 ^ 32) (w : World)
    (hbuf : w.fatbufnum = noBuf) (hwrites : w.writes = [])
    (hcopies : v.numOfFats = 2 → ∀ i < v.fatBytes,
      w.disk (v.fatStart 1 + i) = w.disk (v.fatStart 0 + i))
    (calls : List Volume.Call) (hclusters : ∀ c ∈ calls, c.Names v.IsCluster)
    (hwhole : ∀ c ∈ calls, c.Names v.WholeWindow)
    (hfirst : ∃ c, calls.head? = some c ∧ c ≠ .flush) :
    (v.run w calls).1 = expected v (v.onDisk w.disk 0) calls ∧
      (v.flushFatBuffer (v.run w calls).2).1 = 0 ∧
      (∀ k < v.numOfFats, ∀ e, v.HasEntry e →
        v.onDisk (v.flushFatBuffer (v.run w calls).2).2.disk k e =
          table v (v.onDisk w.disk 0) calls e) ∧
      ∀ r ∈ (v.flushFatBuffer (v.run w calls).2).2.writes,
        ∃ k < v.numOfFats, v.fatSect + k * v.fatlength ≤ r.1 ∧
          r.1 + r.2 ≤ v.fatSect + (k + 1) * v.fatlength := by
  obtain ⟨c, hhead, hc⟩ := hfirst
  have hne : calls ≠ [] := by
    intro hnil
    rw [hnil] at hhead
    cases hhead
  obtain ⟨hrets, fat, hcoh, ht, hnum, -⟩ := run_coherent (t := v.onDisk w.disk 0) hv hlen calls
    (coherent_fresh v hv.fats hbuf hwrites hcopies) (fun e _ => rfl) hclusters hwhole
    (fun _ heq => hc (Option.some.inj (hhead.symm.trans heq)))
  obtain ⟨hret, hlast, hclean, -⟩ := flush_coherent hv hcoh (hnum hne)
  refine ⟨hrets, hret, ?_, hlast.writes⟩
  intro k hk e he
  rw [← ht e he]
  unfold Volume.onDisk Volume.entryOf
  congr 1
  apply bytes_congr
  intro x _ hx
  have hroom : v.width * (e + 1) ≤ v.fatBytes := he
  rw [Nat.mul_succ] at hroom
  exact hclean k hk x (by lia)

end Runs

/- A FAT16 volume with two FATs of `fatlength` sectors from sector 1 on. -/
def smallVolume (fatlength : ℕ) : Volume where
  fatsize := .fat16
  fatlength := fatlength
  fatSect := 1
  sectSize := 512
  numOfFats := 2
  totalSector := 4096

def emptyCache (disk : Mem) : World where
  fatbuf := fun _ => 0
  fatbufnum := noBuf
  disk := disk
  writes := []

/- Entries of two windows, and the first one again. -/
theorem fat_cache_two_windows :
    ((smallVolume 12).run (emptyCache fun _ => 0) [.set 5 7, .set 1600 8, .get 5, .get 1600]).1 =
      expected (smallVolume 12) ((smallVolume 12).onDisk (fun _ => 0) 0)
        [.set 5 7, .set 1600 8, .get 5, .get 1600] := by
  have hv : (smallVolume 12).Sound := ⟨by decide, by decide, by decide, by decide, by decide,
    by decide⟩
  have hcluster : ∀ e, 2 ≤ e → e < 2000 → (smallVolume 12).IsCluster e := by
    intro e hlow hhigh
    refine ⟨hlow, ?_, ?_⟩
    · show e < 0xfff0
      lia
    · show 2 * (e + 1) ≤ 12 * 512
      lia
  refine (fat_cache_coherent (smallVolume 12) hv (by decide) (emptyCache fun _ => 0) rfl rfl
    (fun _ _ _ => rfl) [.set 5 7, .set 1600 8, .get 5, .get 1600] ?_ ?_ ⟨_, rfl, by decide⟩).1
  · simp [Volume.Call.Names, hcluster]
  · simp only [mem_cons, not_mem_nil, or_false, forall_eq_or_imp, forall_eq, Volume.Call.Names,
      Volume.WholeWindow]
    decide

/- A disk whose FATs start with 0xf8 and whose root directory, behind them, starts with the
letter A. -/
def eightSectorDisk : Mem := fun a =>
  if a = 512 ∨ a = 9 * 512 then 0xf8 else if a = 17 * 512 then 0x41 else 0

/- With FATs of eight sectors the window of entry 1600 is the last one, of two sectors. The flush after
setting it writes six sectors from sector 15 on, of which four lie behind the FATs. -/
theorem last_window_overruns :
    ((smallVolume 8).flushFatBuffer
      ((smallVolume 8).run (emptyCache eightSectorDisk) [.set 1600 5]).2).2.writes =
        [(7, 6), (15, 6)] ∧
    ((smallVolume 8).flushFatBuffer
      ((smallVolume 8).run (emptyCache eightSectorDisk) [.set 1600 5]).2).2.disk (17 * 512) = 0xf8 ∧
    (smallVolume 8).IsCluster 1600 := by
  refine ⟨by decide +kernel, by decide +kernel, by decide, by decide, ?_⟩
  show 2 * (1600 + 1) ≤ 8 * 512
  lia

end UBoot.Fat
