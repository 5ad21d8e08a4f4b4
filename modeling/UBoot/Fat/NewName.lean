import UBoot.Fat.Found

/-!
# A new name is found again

`addEntry` puts a name into a directory, in its last cluster or over the end of it. If the readers
take as many slots as the name has, they find it.
-/

namespace UBoot.Fat

open Memory List

variable {v : FsData} {w : World} {c : ℕ}

/- The slots and the entry fit into the rest of the cluster, as far as the readers look into it. -/
def FitsCluster (v : FsData) (c k : ℕ) (name : Text) : Prop :=
  32 * (k + (name.length + 12) / 13) < v.bytesperclust ∧
    32 * (k + (name.length + 12) / 13) < v.nameLimit c

/- There is a free cluster, and the FAT entries up to it and the one of the directory lie in whole
windows of the cache. -/
structure Extendable (v : FsData) (answers : ℕ → Bool) (fat : Mem) (c : ℕ) : Prop where
  linkable : v.Linkable
  dir : v.DataCluster c
  whole : v.toVolume.WholeWindow c
  used : v.toVolume.entryOf fat c ≠ 0
  free : ∃ e, 3 ≤ e ∧ v.DataCluster e ∧ v.toVolume.entryOf fat e = 0 ∧
    ∀ x, 3 ≤ x → x ≤ e → v.toVolume.WholeWindow x
  answers : ∀ e, v.DataCluster e → answers e = true

def firstSlot (v : FsData) (c new k : ℕ) : ℕ × ℕ := if 32 * k < v.bytesperclust then (c, k) else (new, 0)

section Adding

variable {answers : ℕ → Bool} {junk before fat : Mem} {d : FsData.Dir} {k : ℕ} {name : Text}
  {l : List Mem}

theorem Coherent.self {v : Volume} (h : Coherent v before w fat) : Coherent v w.disk w fat :=
  { fits := h.fits, buffer := h.buffer, disk := h.disk, outside := fun _ _ => rfl, writes := h.writes }

theorem dirBlock_written (hv : v.Writable) (hc : v.Stored c) (disk buf : Mem) {i : ℕ}
    (hi : i < v.bytesperclust) : v.dirBlock (putCluster v disk buf c) c i = buf i :=
  (dirBlock_eq hv hc _ hi).trans (putCluster_same _ _ hi)

theorem entry_behind_slots (buf : Mem) (hnul : (0 : UInt8) ∉ name) (hne : name ≠ [])
    (startCluster size : ℕ) (attr : UInt8) :
    HoldsDown (v.fillDentry (putRecords buf k l) (k + l.length) name startCluster size attr)
        (k + l.length) l.reverse ∧
      v.fillDentry (putRecords buf k l) (k + l.length) name startCluster size attr
        (32 * (k + l.length)) ≠ 0 :=
  ⟨putRecords_down.congr fun _ _ ha => fillDentry_below _ _ _ _ _ ha,
    fillDentry_head hnul hne _ _ _⟩

theorem slots_isSlots (hne : name ≠ []) (checksum : UInt8) : ∃ sl, slots checksum name = some sl ∧
    IsSlots checksum 0 name sl ∧ sl.length = (name.length + 12) / 13 := by
  obtain ⟨sl, hsl, hslots⟩ := @slotsFrom_isSlots checksum 0 name (name.length + 1) (Nat.lt_succ_self _)
  have hlen := hslots.length_eq
  have hpos := length_pos_iff.mpr hne
  exact ⟨sl, hsl, hslots, by lia⟩

theorem addSlots_eq {sl : List Mem} {d' : FsData.Dir} {k' : ℕ} (hbuf : 32 * k + 11 ≤ maxClustSize)
    (hsl : slots (mkcksum (bytes (setName d.block k name) (32 * k) 11)) name = some sl)
    (hput : v.putSlots junk sl.reverse { d with block := setName d.block k name } k = some (d', k')) :
    v.addSlots junk d k name = some (d', k') := by
  unfold FsData.addSlots FsData.fillDirSlot
  rw [if_neg (Nat.not_lt_of_le hbuf)]
  simp only [hsl, hput]

theorem addEntry_eq {d' : FsData.Dir} {k' : ℕ} (h : v.addSlots junk d k name = some (d', k'))
    (startCluster size : ℕ) : v.addEntry junk d k name startCluster size =
      some ({ d' with block := v.fillDentry d'.block k' name startCluster size 0x20 }, k') := by
  rw [FsData.addEntry, h]
  rfl

theorem addSlots_here (hne : name ≠ [])
    (hroom : 32 * (k + (name.length + 12) / 13) < v.bytesperclust)
    (hbuf : 32 * k + 11 ≤ maxClustSize) :
    ∃ checksum sl, IsSlots checksum 0 name sl ∧ sl.length = (name.length + 12) / 13 ∧
      v.addSlots junk d k name = some ({ d with
        block := putRecords (setName d.block k name) k sl.reverse }, k + sl.length) := by
  obtain ⟨sl, hsl, hslots, hlen⟩ :=
    slots_isSlots hne (mkcksum (bytes (setName d.block k name) (32 * k) 11))
  have hput := @putSlots_here v junk k sl.reverse { d with block := setName d.block k name }
    (by rw [length_reverse, hlen]; exact hroom)
  rw [length_reverse] at hput
  exact ⟨_, sl, hslots, hlen, addSlots_eq hbuf hsl hput⟩

theorem addEntry_here (hnul : (0 : UInt8) ∉ name) (hne : name ≠ [])
    (hroom : 32 * (k + (name.length + 12) / 13) < v.bytesperclust)
    (hbuf : 32 * k + 11 ≤ maxClustSize) (startCluster size : ℕ) :
    ∃ checksum sl buf, IsSlots checksum 0 name sl ∧ sl.length = (name.length + 12) / 13 ∧
      v.addEntry junk d k name startCluster size = some ({ d with block := buf }, k + sl.length) ∧
      HoldsDown buf (k + sl.length) sl ∧ buf (32 * (k + sl.length)) ≠ 0 := by
  obtain ⟨checksum, sl, hslots, hlen, hadd⟩ := @addSlots_here v junk d k name hne hroom hbuf
  obtain ⟨hdown, hhead⟩ := @entry_behind_slots v k name sl.reverse (setName d.block k name) hnul hne
    startCluster size 0x20
  rw [length_reverse, reverse_reverse] at hdown
  rw [length_reverse] at hhead
  exact ⟨_, sl, _, hslots, hlen, addEntry_eq hadd _ _, hdown, hhead⟩

theorem long_name_here (hv : v.Writable) (h : Coherent v.toVolume before d.world fat)
    (hstored : v.Stored d.dirCurclust) (hn : Plain name) (hfits : FitsCluster v d.dirCurclust k name)
    (hbuf : 32 * k + 11 ≤ maxClustSize) (startCluster size : ℕ) :
    ∃ d' k' w', v.addEntry junk d k name startCluster size = some (d', k') ∧
      v.setCluster junk d'.block d'.world d'.dirCurclust 0 v.bytesperclust = (0, w') ∧
      Coherent v.toVolume w'.disk w' fat ∧
      FoundAt v answers w'.disk fat d.dirCurclust k name (record d'.block k') := by
  obtain ⟨hroom, hlimit⟩ := hfits
  obtain ⟨checksum, sl, buf, hslots, hlen, hadd, hdown, hhead⟩ :=
    @addEntry_here v junk d k name hn.noNul hn.nonempty hroom hbuf startCluster size
  rw [← hlen] at hroom hlimit
  have hdvd : 32 ∣ v.bytesperclust := (Nat.dvd_of_mod_eq_zero hv.records).mul_left _
  have hfound := @foundAt_here v d.dirCurclust answers _ fat _ (k + sl.length) name _ sl hn hslots
    hlimit (by lia) (fun x hx => dirBlock_written hv hstored d.world.disk _ hx) hdown hhead
  rw [Nat.add_sub_cancel] at hfound
  exact ⟨_, _, _, hadd, setCluster_whole hv hstored, (putCluster_coherent hstored h _).self, hfound⟩

theorem long_name_flushed (h : Coherent v.toVolume before d.world fat)
    (hext : Extendable v answers fat d.dirCurclust) (hn : Plain name)
    (hk : 32 * k ≤ v.bytesperclust) (hfull : v.bytesperclust ≤ 32 * (k + (name.length + 12) / 13))
    (hbuf : 32 * k + 11 ≤ maxClustSize) (startCluster size : ℕ) :
    ∃ d' k' w' fat', v.addEntry junk d k name startCluster size = some (d', k') ∧
      v.setCluster junk d'.block d'.world d'.dirCurclust 0 v.bytesperclust = (0, w') ∧
      Coherent v.toVolume w'.disk w' fat' ∧
      FoundAt v answers w'.disk fat' (firstSlot v d.dirCurclust d'.dirCurclust k).1
        (firstSlot v d.dirCurclust d'.dirCurclust k).2 name (record d'.block k') := by
  have hv := hext.linkable
  obtain ⟨free, hlow, hfree, hzero, hwhole⟩ := hext.free
  obtain ⟨sl, hsl, hslots, hlen⟩ :=
    slots_isSlots hn.nonempty (mkcksum (bytes (setName d.block k name) (32 * k) 11))
  have hle := (hn.slots_le hslots).2
  rw [← hlen] at hfull
  unfold vfatMaxseq at hle
  obtain ⟨n, hbytes⟩ : 32 ∣ v.bytesperclust := (Nat.dvd_of_mod_eq_zero hv.records).mul_left _
  have hsect : 512 ≤ v.bytesperclust := hv.sound.sector.trans (Nat.le_mul_of_pos_left _ hv.cluster)
  -- the slots that still go into the full cluster, and the rest
  obtain ⟨m, rfl⟩ : ∃ m, n = k + m := Nat.exists_eq_add_of_le (by lia)
  have hsplit : sl = (sl.reverse.drop m).reverse ++ (sl.reverse.take m).reverse := by
    rw [← reverse_append, take_append_drop, reverse_reverse]
  generalize ha : (sl.reverse.drop m).reverse = a at hsplit
  generalize hb : (sl.reverse.take m).reverse = b at hsplit
  have hlenb : b.length = m := by
    rw [← hb, length_reverse, length_take, length_reverse]
    lia
  have hlena : a.length ≤ 9 := by
    have := congrArg List.length hsplit
    rw [length_append] at this
    lia
  subst hsplit
  set full := putRecords (setName d.block k name) k b.reverse with hfulldef
  obtain ⟨new, w₁, fat', hflush, hnew, hne, hcoh, hclean, hlink⟩ :=
    @flushDirTable_spec v before fat junk free hv ⟨d.world, full, d.dirCurclust⟩ h hext.dir hext.whole
      hext.used hfree hlow hzero hwhole (k + b.reverse.length)
  set start := store full 0 (List.replicate v.bytesperclust 0) with hstart
  have hput : v.putSlots junk (a ++ b).reverse
      { d with block := setName d.block k name } k =
        some (⟨w₁, putRecords start 0 a.reverse, new⟩, 0 + a.reverse.length) := by
    rw [reverse_append, putSlots_full (by rw [length_reverse]; lia) (by lia) hflush]
    exact putSlots_here (by rw [length_reverse]; lia)
  have hadd := addEntry_eq (addSlots_eq hbuf hsl hput) startCluster size
  obtain ⟨hback, hhead⟩ := @entry_behind_slots v 0 name a.reverse start hn.noNul hn.nonempty
    startCluster size 0x20
  rw [length_reverse, Nat.zero_add] at hback hhead hadd
  rw [reverse_reverse] at hback
  have hstored := hnew.stored hv
  have hcoh' := (putCluster_coherent hstored hcoh
    (v.fillDentry (putRecords start 0 a.reverse) a.length name startCluster size 0x20)).self
  refine ⟨_, _, _, fat', hadd, setCluster_whole hv.toWritable hstored, hcoh', ?_⟩
  have hblock := fun (x : ℕ) (hx : x < v.bytesperclust) => dirBlock_written hv.toWritable hstored
    w₁.disk (v.fillDentry (putRecords start 0 a.reverse) a.length name startCluster size 0x20) hx
  have hroom : 32 * (a.length + 1) ≤ v.bytesperclust := by lia
  have hnonzero : new ≠ 0 := by
    have := hnew.low
    lia
  by_cases hm : m = 0
  · -- nothing of it is in the full cluster
    obtain rfl : b = [] := length_eq_zero_iff.mp (hlenb.trans hm)
    rw [append_nil] at hslots
    have hlimit : 32 * a.length < v.nameLimit new := by
      rw [FsData.nameLimit, if_neg hnonzero]
      lia
    have hfound := @foundAt_here v new answers _ fat' _ a.length name _ a hn hslots hlimit hroom hblock
      hback hhead
    rw [Nat.sub_self] at hfound
    rw [firstSlot, if_neg (by lia)]
    exact hfound
  · have hbne : b ≠ [] := fun hnil => hm (by rw [← hlenb, hnil, length_nil])
    have hfront : HoldsDown full (k + m) b := by
      have hdown := @putRecords_down (setName d.block k name) k b.reverse
      rwa [length_reverse, reverse_reverse, hlenb] at hdown
    have hcluster : ∀ x < v.bytesperclust, v.dirBlock (putCluster v w₁.disk
        (v.fillDentry (putRecords start 0 a.reverse) a.length name startCluster size 0x20) new)
          d.dirCurclust x = full x := by
      intro x hx
      have hold := hext.dir.stored hv
      have hapart := clusters_apart hv hnew hext.dir hne
      rw [dirBlock_eq hv.toWritable hold _ hx, putCluster_outside _ _ (by lia),
        cluster_kept hold hcoh, putCluster_same _ _ hx]
    have hcopies := putCluster_clean hstored hclean
      (v.fillDentry (putRecords start 0 a.reverse) a.length name startCluster size 0x20)
    have hfats : 0 < v.numOfFats := by
      have := hv.sound.fats
      lia
    have hfound := foundAt_across hv hext.dir hext.whole hnew (hext.answers new hnew) hn hslots hbne hbytes
      hroom (hcopies 0 hfats) hlink hcluster hblock hfront hback hhead
    rw [hlenb, Nat.add_sub_cancel] at hfound
    rw [firstSlot, if_pos (by lia)]
    exact hfound

theorem longer_name_missed (hnul : (0 : UInt8) ∉ name) (hlong : 13 * vfatMaxseq < name.length)
    (hlast : name.length ≤ 255) (hroom : 32 * (k + (name.length + 12) / 13) < v.bytesperclust)
    (hbuf : 32 * k + 11 ≤ maxClustSize) (startCluster size : ℕ) :
    ∃ d' k', v.addEntry junk d k name startCluster size = some (d', k') ∧
      (∀ w, v.getVfatname answers w d.dirCurclust d'.block k = some (none, w)) ∧
      v.getLongFileName answers d' d.dirCurclust k = some (none, d') := by
  unfold vfatMaxseq at hlong
  have hne : name ≠ [] := length_pos_iff.mp (by lia)
  obtain ⟨checksum, sl, buf, hslots, hlen, hadd, hdown, -⟩ :=
    @addEntry_here v junk d k name hnul hne hroom hbuf startCluster size
  have hcounter : vfatMaxseq < seqOf buf k := by
    rw [← append_nil sl] at hslots
    obtain ⟨-, hseq⟩ := seqOf_slots hslots hdown (by lia)
    have hfirst := hseq (sl.length - 1) (by lia)
    rw [show k + sl.length - 1 - (sl.length - 1) = k by lia] at hfirst
    unfold vfatMaxseq
    lia
  refine ⟨_, _, hadd, fun w => ?_, ?_⟩
  · unfold FsData.getVfatname
    exact if_pos hcounter
  · unfold FsData.getLongFileName
    exact if_pos hcounter

/- A name of at most 117 characters without NUL, the first of them no mark of a deleted entry, is found
again where `addEntry` put it. -/
theorem long_name_found (v : FsData) (hv : v.Writable) (answers : ℕ → Bool) (junk before fat : Mem)
    (d : FsData.Dir) (h : Coherent v.toVolume before d.world fat) (hstored : v.Stored d.dirCurclust)
    (name : Text) (hn : Plain name) (k : ℕ) (hk : 32 * k ≤ v.bytesperclust)
    (hbuf : 32 * k + 11 ≤ maxClustSize)
    (hroom : FitsCluster v d.dirCurclust k name ∨ Extendable v answers fat d.dirCurclust)
    (startCluster size : ℕ) :
    ∃ d' k' w' fat', v.addEntry junk d k name startCluster size = some (d', k') ∧
      v.setCluster junk d'.block d'.world d'.dirCurclust 0 v.bytesperclust = (0, w') ∧
      Coherent v.toVolume w'.disk w' fat' ∧
      FoundAt v answers w'.disk fat' (firstSlot v d.dirCurclust d'.dirCurclust k).1
        (firstSlot v d.dirCurclust d'.dirCurclust k).2 name (record d'.block k') := by
  by_cases hfits : FitsCluster v d.dirCurclust k name
  · obtain ⟨d', k', w', hadd, hset, hcoh, hfound⟩ :=
      @long_name_here v answers junk before fat d k name hv h hstored hn hfits hbuf startCluster size
    refine ⟨d', k', w', fat, hadd, hset, hcoh, ?_⟩
    have hin := hfits.1
    rw [firstSlot, if_pos (by lia)]
    exact hfound
  · have hext := hroom.resolve_left hfits
    have hlimit : v.nameLimit d.dirCurclust = v.bytesperclust :=
      if_neg (by have := hext.dir.low; lia)
    unfold FitsCluster at hfits
    rw [hlimit] at hfits
    exact long_name_flushed h hext hn hk (by lia) hbuf startCluster size

end Adding

/- A directory in cluster 2 whose last record is free, and a name of one character. -/
theorem name_over_the_end : ∃ d' k' w' fat',
    (oneSectorFat 512 1).addEntry (fun _ => 0) ⟨twoToFive, fun _ => 1, 2⟩ 15 [97] 0 0 =
        some (d', k') ∧
      (oneSectorFat 512 1).setCluster (fun _ => 0) d'.block d'.world d'.dirCurclust 0
        (oneSectorFat 512 1).bytesperclust = (0, w') ∧
      Coherent (oneSectorFat 512 1).toVolume w'.disk w' fat' ∧
      FoundAt (oneSectorFat 512 1) (fun _ => true) w'.disk fat'
        (firstSlot (oneSectorFat 512 1) 2 d'.dirCurclust 15).1
        (firstSlot (oneSectorFat 512 1) 2 d'.dirCurclust 15).2 [97] (record d'.block k') := by
  have hsound : (oneSectorFat 512 1).toVolume.Sound :=
    ⟨by decide, by decide, by decide, by decide, by decide, by decide⟩
  have hwritable : (oneSectorFat 512 1).Writable := ⟨hsound, by decide, by decide, by decide⟩
  have hlinkable : (oneSectorFat 512 1).Linkable :=
    ⟨hwritable, by decide, by decide⟩
  have hcluster : ∀ c, 2 ≤ c → c < 100 → (oneSectorFat 512 1).DataCluster c := by
    intro c hlow hhigh
    refine ⟨hlow, ?_, ?_, ?_⟩
    · show c < 0xfff0
      lia
    · show 2 * (c + 1) ≤ 1 * 512
      lia
    · show (2 - 2 * 1 : ℤ) + c * 1 + 1 ≤ 100
      lia
  have hcoh := coherent_fresh (w := twoToFive) (oneSectorFat 512 1).toVolume (.inl rfl) rfl rfl
    fun htwo => absurd htwo (by decide)
  exact long_name_found (oneSectorFat 512 1) hwritable (fun _ => true) (fun _ => 0) twoToFive.disk _
    ⟨twoToFive, fun _ => 1, 2⟩ hcoh ((hcluster 2 (by lia) (by lia)).stored hlinkable) [97]
    ⟨by decide, by decide, by decide, by decide⟩ 15 (by decide) (by decide)
    (.inr ⟨hlinkable, hcluster 2 (by lia) (by lia), .inr (by decide), by decide +kernel,
      ⟨3, by decide, hcluster 3 (by lia) (by lia), by decide +kernel, fun _ _ _ => .inr (by decide)⟩,
      fun _ _ => rfl⟩) 0 0

/- A name of 118 characters in an empty directory. -/
theorem name_of_118_missed : ∃ d' k',
    (oneSectorFat 512 1).addEntry (fun _ => 0) ⟨twoToFive, fun _ => 0, 2⟩ 0 (List.replicate 118 97)
        0 0 = some (d', k') ∧
      (∀ w, (oneSectorFat 512 1).getVfatname (fun _ => true) w 2 d'.block 0 = some (none, w)) ∧
      (oneSectorFat 512 1).getLongFileName (fun _ => true) d' 2 0 = some (none, d') :=
  longer_name_missed (by decide) (by decide) (by decide) (by decide) (by decide) 0 0

end UBoot.Fat
