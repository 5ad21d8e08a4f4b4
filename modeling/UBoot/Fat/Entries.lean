import UBoot.Fat.Read

/-!
# The entries of a FAT

`get_fatent` reads the FAT through a window of six sectors; it gives the entry of each cluster,
whatever the window was.
-/

namespace UBoot.Fat

open Memory LittleEndian List

namespace FsData

variable (v : FsData)

structure Sound : Prop where
  sector : 0 < v.sectSize
  even : v.sectSize % 2 = 0
  cluster : 0 < v.clustSize
  inside : v.fatSect + v.fatlength < 2 ^ 32

/- Where an entry starts in the FAT. One of FAT12 has 12 bits of the two bytes there. -/
def entryPos (e : ℕ) : ℕ :=
  match v.fatsize with
  | .fat12 => 3 * e / 2
  | .fat16 => 2 * e
  | .fat32 => 4 * e

def entryIn (fat : Mem) (e : ℕ) : ℕ :=
  let x := leValue (bytes fat (v.entryPos e) v.width)
  match v.fatsize with
  | .fat12 => if e % 2 = 0 then x % 2 ^ 12 else x / 2 ^ 4
  | _ => x

def fatStart : ℕ := v.fatSect * v.sectSize

def fatEntry (disk : Mem) (e : ℕ) : ℕ := v.entryIn (fun i => disk (v.fatStart + i)) e

def HasEntry (e : ℕ) : Prop := v.entryPos e + v.width ≤ v.fatlength * v.sectSize

def Cached (w : World) : Prop :=
  w.fatbufnum = noBuf ∨ ∀ i, i < v.fatBufSize →
    w.fatbufnum * v.fatBufSize + i < v.fatlength * v.sectSize →
    w.fatbuf i = w.disk (v.fatStart + (w.fatbufnum * v.fatBufSize + i))

end FsData

section Entries

variable {v : FsData} {w : World} {e : ℕ}

theorem buf16_eq (fatbuf : Mem) (i : ℕ) :
    Volume.buf16 fatbuf i = (fatbuf (2 * i)).toNat + 256 * (fatbuf (2 * i + 1)).toNat := by
  simp [Volume.buf16, bytes, range_succ, leValue]

theorem buf12_eq (fatbuf : Mem) (offset : ℕ) :
    Volume.buf12 fatbuf offset =
      if offset % 2 = 0 then leValue (bytes fatbuf (3 * offset / 2) 2) % 2 ^ 12
      else leValue (bytes fatbuf (3 * offset / 2) 2) / 2 ^ 4 := by
  have htwo : ∀ a, leValue (bytes fatbuf a 2) =
      (fatbuf a).toNat + 256 * (fatbuf (a + 1)).toNat := fun a => by
    simp [bytes, range_succ, leValue]
  have hlt : ∀ a, (fatbuf a).toNat < 256 := fun a => (fatbuf a).toNat_lt
  obtain ⟨k, hk⟩ : ∃ k, offset = 4 * k + offset % 4 := ⟨offset / 4, by lia⟩
  rw [htwo]
  have hcases : offset % 4 = 0 ∨ offset % 4 = 1 ∨ offset % 4 = 2 ∨ offset % 4 = 3 := by lia
  obtain h | h | h | h := hcases
  · simp only [Volume.buf12, h, buf16_eq]
    rw [h] at hk
    subst hk
    rw [if_pos (by lia), show (4 * k + 0) * 3 / 4 = 3 * k by lia,
      show 3 * (4 * k + 0) / 2 = 2 * (3 * k) by lia]
  · simp only [Volume.buf12, h, buf16_eq]
    rw [h] at hk
    subst hk
    have h0 := hlt (2 * (3 * k))
    have h1 := hlt (2 * (3 * k) + 1)
    have h2 := hlt (2 * (3 * k + 1))
    rw [if_neg (by lia), show (4 * k + 1) * 3 / 4 = 3 * k by lia,
      show 3 * (4 * k + 1) / 2 = 2 * (3 * k) + 1 by lia,
      show 2 * (3 * k) + 1 + 1 = 2 * (3 * k + 1) by lia]
    lia
  · simp only [Volume.buf12, h, buf16_eq]
    rw [h] at hk
    subst hk
    have h1 := hlt (2 * (3 * k + 1))
    have h2 := hlt (2 * (3 * k + 1) + 1)
    have h3 := hlt (2 * (3 * k + 1 + 1))
    rw [if_pos (by lia), show (4 * k + 2) * 3 / 4 = 3 * k + 1 by lia,
      show 3 * (4 * k + 2) / 2 = 2 * (3 * k + 1) + 1 by lia,
      show 2 * (3 * k + 1) + 1 + 1 = 2 * (3 * k + 1 + 1) by lia]
    lia
  · simp only [Volume.buf12, h, buf16_eq]
    rw [h] at hk
    subst hk
    rw [if_neg (by lia), show (4 * k + 3) * 3 / 4 = 3 * k + 2 by lia,
      show 3 * (4 * k + 3) / 2 = 2 * (3 * k + 2) by lia]

theorem bufEntry_eq_entryIn (fatbuf : Mem) (offset : ℕ) :
    v.bufEntry fatbuf offset = v.entryIn fatbuf offset := by
  unfold Volume.bufEntry FsData.entryIn FsData.entryPos Volume.width
  cases v.fatsize with
  | fat12 => exact buf12_eq fatbuf offset
  | fat16 => rfl
  | fat32 => rfl

theorem entryIn_congr {fat fat' : Mem} {a : ℕ}
    (hsame : ∀ i, v.entryPos e ≤ i → i < v.entryPos e + v.width → fat' (a + i) = fat i) {e' : ℕ}
    (hpos : v.entryPos e' = a + v.entryPos e) (hparity : v.fatsize = .fat12 → e' % 2 = e % 2) :
    v.entryIn fat' e' = v.entryIn fat e := by
  have hbytes : bytes fat' (v.entryPos e') v.width = bytes fat (v.entryPos e) v.width := by
    rw [hpos]
    simp only [bytes, map_inj_left, mem_range]
    intro i hi
    rw [Nat.add_assoc]
    exact hsame _ (by lia) (by lia)
  unfold FsData.entryIn
  rw [hbytes]
  cases hs : v.fatsize with
  | fat12 => simp only [hparity hs]
  | fat16 => rfl
  | fat32 => rfl

/- A window holds whole entries, and an even number of those of 12 bits. -/
structure Windows (v : FsData) : Prop where
  pos : 0 < v.bufEntries
  even : v.fatsize = .fat12 → v.bufEntries % 2 = 0
  start : ∀ b x, v.entryPos (b * v.bufEntries + x) = b * v.fatBufSize + v.entryPos x
  room : ∀ x, x < v.bufEntries → v.entryPos x + v.width ≤ v.fatBufSize

theorem FsData.Sound.windows (hv : v.Sound) : Windows v := by
  have hsect := hv.sector
  obtain ⟨half, hhalf⟩ : ∃ half, v.sectSize = 2 * half := ⟨v.sectSize / 2, by have := hv.even; lia⟩
  cases hs : v.fatsize with
  | fat12 =>
    have hentries : v.bufEntries = 8 * half := by
      simp only [Volume.bufEntries, Volume.fatBufSize, fatBufBlocks, hs, hhalf]
      lia
    refine ⟨by lia, fun _ => by lia, fun b x => ?_, fun x hx => ?_⟩
    · simp only [FsData.entryPos, Volume.fatBufSize, fatBufBlocks, hs, hentries, hhalf]
      have h8 : b * (8 * half) = 8 * (b * half) := by ring
      have h12 : b * (2 * half * 6) = 12 * (b * half) := by ring
      rw [h8, h12]
      lia
    · simp only [FsData.entryPos, Volume.width, Volume.fatBufSize, fatBufBlocks, hs, hhalf]
      lia
  | fat16 =>
    have hentries : v.bufEntries = 6 * half := by
      simp only [Volume.bufEntries, Volume.fatBufSize, fatBufBlocks, hs, hhalf]
      lia
    refine ⟨by lia, fun h => by simp [hs] at h, fun b x => ?_, fun x hx => ?_⟩
    · simp only [FsData.entryPos, Volume.fatBufSize, fatBufBlocks, hs, hentries, hhalf]
      ring
    · simp only [FsData.entryPos, Volume.width, Volume.fatBufSize, fatBufBlocks, hs, hhalf]
      lia
  | fat32 =>
    have hentries : v.bufEntries = 3 * half := by
      simp only [Volume.bufEntries, Volume.fatBufSize, fatBufBlocks, hs, hhalf]
      lia
    refine ⟨by lia, fun h => by simp [hs] at h, fun b x => ?_, fun x hx => ?_⟩
    · simp only [FsData.entryPos, Volume.fatBufSize, fatBufBlocks, hs, hentries, hhalf]
      ring
    · simp only [FsData.entryPos, Volume.width, Volume.fatBufSize, fatBufBlocks, hs, hhalf]
      lia

theorem window_cached {b getsize : ℕ}
    (hsize : min fatBufBlocks (v.fatlength - b * fatBufBlocks) ≤ getsize) (w : World) :
    ∀ i, i < v.fatBufSize → b * v.fatBufSize + i < v.fatlength * v.sectSize →
      (v.diskRead w (b * fatBufBlocks + v.fatSect) getsize).fatbuf i =
        w.disk (v.fatStart + (b * v.fatBufSize + i)) := by
  intro i hi hbound
  have hlen : i < getsize * v.sectSize := by
    refine Nat.lt_of_lt_of_le ?_ (Nat.mul_le_mul_right v.sectSize hsize)
    rw [← Nat.mul_min_mul_right, lt_min_iff, Nat.sub_mul]
    unfold Volume.fatBufSize at hi hbound
    have hcomm : b * (v.sectSize * fatBufBlocks) = b * fatBufBlocks * v.sectSize := by ring
    rw [hcomm] at hbound
    rw [Nat.mul_comm] at hi
    exact ⟨hi, by lia⟩
  have hstored := store_at w.fatbuf 0
    (bytes w.disk ((b * fatBufBlocks + v.fatSect) * v.sectSize) (getsize * v.sectSize))
    (i := i) (by rw [length_bytes]; exact hlen)
  rw [Nat.zero_add] at hstored
  refine hstored.trans ?_
  simp only [bytes, getElem_map, getElem_range]
  congr 1
  unfold FsData.fatStart Volume.fatBufSize
  ring

theorem getsize_covers {fatlength startblock : ℕ} (hin : startblock < fatlength) :
    min fatBufBlocks (fatlength - startblock) ≤
      if fatlength < (startblock + fatBufBlocks) % 2 ^ 32
        then (fatlength + 2 ^ 32 - startblock) % 2 ^ 32 else fatBufBlocks := by
  unfold fatBufBlocks
  split
  · lia
  · lia

theorem getFatent_spec (hv : v.Sound) (h : v.Cached w) (he : v.HasEntry e)
    (hsmall : e < 2 ^ 32 - 1) :
    (v.getFatent w e).1 = v.fatEntry w.disk e ∧ v.Cached (v.getFatent w e).2 ∧
      (v.getFatent w e).2.disk = w.disk := by
  have hwin := hv.windows
  have hinside := hv.inside
  set b := e / v.bufEntries with hb
  set x := e - b * v.bufEntries with hx
  have hxlt : x < v.bufEntries := by
    rw [hx, hb, ← Nat.mod_eq_sub_div_mul]
    exact Nat.mod_lt e hwin.pos
  have hex : e = b * v.bufEntries + x := by
    have hle : b * v.bufEntries ≤ e := Nat.div_mul_le_self e v.bufEntries
    lia
  have hpos : v.entryPos e = b * v.fatBufSize + v.entryPos x := by
    rw [hex]
    exact hwin.start b x
  have hroom := hwin.room x hxlt
  have hhas : b * v.fatBufSize + v.entryPos x + v.width ≤ v.fatlength * v.sectSize := hpos ▸ he
  have hparity : v.fatsize = .fat12 → x % 2 = e % 2 := fun hs => by
    have heven := hwin.even hs
    rw [hex, Nat.add_mod, Nat.mul_mod, heven]
    simp
  have hbuf : b ≠ noBuf := by
    have := Nat.div_le_self e v.bufEntries
    unfold noBuf
    lia
  -- what the window holds is what the disk holds
  have hread : ∀ fatbuf : Mem, (∀ i, i < v.fatBufSize →
      b * v.fatBufSize + i < v.fatlength * v.sectSize →
      fatbuf i = w.disk (v.fatStart + (b * v.fatBufSize + i))) →
      v.bufEntry fatbuf x = v.fatEntry w.disk e := by
    intro fatbuf hsame
    rw [bufEntry_eq_entryIn]
    refine (entryIn_congr (a := b * v.fatBufSize) (fun i h1 h2 => ?_) hpos
      fun hs => (hparity hs).symm).symm
    exact (hsame i (by lia) (by lia)).symm
  unfold FsData.getFatent
  simp only [← hb, ← hx]
  by_cases hmiss : b ≠ w.fatbufnum
  · rw [if_pos hmiss]
    have hin : b * fatBufBlocks < v.fatlength := by
      by_contra hge
      have hmul := Nat.mul_le_mul_right v.sectSize (Nat.le_of_not_lt hge)
      have hw : 0 < v.width := by
        unfold Volume.width
        split <;> decide
      unfold Volume.fatBufSize at hhas
      lia
    have hstart : b * fatBufBlocks % 2 ^ 32 = b * fatBufBlocks := Nat.mod_eq_of_lt (by lia)
    rw [hstart, Nat.mod_eq_of_lt (show b * fatBufBlocks + v.fatSect < 2 ^ 32 by lia)]
    have hwindow := window_cached (getsize_covers hin) w
    exact ⟨hread _ hwindow, .inr hwindow, rfl⟩
  · rw [if_neg hmiss]
    rw [ne_eq, not_not] at hmiss
    have hhit := h.resolve_left (hmiss ▸ hbuf)
    rw [← hmiss] at hhit
    exact ⟨hread _ hhit, h, rfl⟩

end Entries

end UBoot.Fat
