import UBoot.Fat.ReadBack
import UBoot.Fat.Written

/-!
# What a search sees of a name

The slots of a name and its entry, in one cluster or over the end of it, as the two readers and the
two searches see them.
-/

namespace UBoot.Fat

open Memory LittleEndian List Option

variable {v : FsData} {w : World} {c : ℕ}

section Records

variable {junk buf buf' : Mem} {k : ℕ} {sl l l' : List Mem} {d d' : FsData.Dir}

def putRecords (buf : Mem) : ℕ → List Mem → Mem
  | _, [] => buf
  | k, slot :: rest => putRecords (store buf (32 * k) (bytes slot 0 32)) (k + 1) rest

theorem putRecords_append : putRecords buf k (l ++ l') =
    putRecords (putRecords buf k l) (k + l.length) l' := by
  induction l generalizing buf k with
  | nil => rfl
  | cons slot l ih =>
    rw [cons_append, putRecords, ih, putRecords, length_cons]
    congr 1
    lia

theorem HoldsDown.congr (h : HoldsDown buf k l)
    (hsame : ∀ a, 32 * (k - l.length) ≤ a → a < 32 * k → buf' a = buf a) : HoldsDown buf' k l := by
  induction l generalizing k with
  | nil => exact holdsDown_nil _ _
  | cons slot l ih =>
    cases k with
    | zero => exact absurd h (by simp [HoldsDown])
    | succ k =>
      obtain ⟨hbuf, hdown⟩ := h
      rw [length_cons] at hsame
      exact ⟨fun i hi => (hsame _ (by lia) (by lia)).trans (hbuf i hi),
        ih hdown fun a hlow ha => hsame a (by lia) (by lia)⟩

theorem putRecords_down : HoldsDown (putRecords buf k l) (k + l.length) l.reverse := by
  induction l using List.reverseRecOn with
  | nil => exact holdsDown_nil _ _
  | append_singleton l slot ih =>
    rw [reverse_append, reverse_singleton, singleton_append, length_append,
      length_singleton, ← Nat.add_assoc, putRecords_append]
    refine ⟨fun i hi => ?_, ?_⟩
    · have hlen : i < (bytes slot 0 32).length := by
        rw [length_bytes]
        exact hi
      rw [putRecords, putRecords, store_at _ _ _ hlen]
      simp [bytes]
    · refine ih.congr fun a _ ha => ?_
      rw [putRecords, putRecords, store_below _ _ _ ha]

theorem flushIfFull_room (hk : 32 * k < v.bytesperclust) : v.flushIfFull junk d k = some (d, k) := by
  rw [FsData.flushIfFull, FsData.isNextClust, decide_eq_false (by lia)]
  rfl

theorem putSlots_here (hroom : 32 * (k + l.length) < v.bytesperclust) :
    v.putSlots junk l d k = some ({ d with block := putRecords d.block k l }, k + l.length) := by
  induction l generalizing d k with
  | nil => exact flushIfFull_room hroom
  | cons slot l ih =>
    rw [length_cons] at hroom ⊢
    rw [FsData.putSlots, flushIfFull_room (by lia)]
    simp only
    rw [ih (by lia), putRecords, Nat.add_assoc, Nat.add_comm 1]

theorem putSlots_full (hfull : 32 * (k + l.length) = v.bytesperclust) (hpos : 0 < v.bytesperclust)
    (hflush : v.flushDirTable junk { d with block := putRecords d.block k l } (k + l.length) =
      some (d', 0)) :
    v.putSlots junk (l ++ l') d k = v.putSlots junk l' d' 0 := by
  induction l generalizing d k with
  | nil =>
    rw [length_nil, Nat.add_zero] at hfull hflush
    have hnow : v.flushIfFull junk d k = some (d', 0) := by
      rw [FsData.flushIfFull, FsData.isNextClust, decide_eq_true (by lia)]
      exact hflush
    have hnext : v.flushIfFull junk d' 0 = some (d', 0) := flushIfFull_room hpos
    rw [nil_append]
    cases l' with
    | nil => rw [FsData.putSlots, FsData.putSlots, hnow, hnext]
    | cons slot l' => rw [FsData.putSlots, FsData.putSlots, hnow, hnext]
  | cons slot l ih =>
    rw [length_cons] at hfull hflush
    rw [cons_append, FsData.putSlots, flushIfFull_room (by lia)]
    simp only
    refine ih (by lia) ?_
    rw [Nat.add_assoc, Nat.add_comm 1]
    exact hflush

theorem fillDentry_below (buf : Mem) (filename : Text) (startCluster size : ℕ) (attr : UInt8) {a : ℕ}
    (ha : a < 32 * k) : v.fillDentry buf k filename startCluster size attr a = buf a := by
  unfold FsData.fillDentry FsData.setStartCluster setName
  split
  · rw [put_of_ne _ (by lia), store_below _ _ _ (by lia), store_below _ _ _ (by lia)]
    split
    · exact store_below _ _ _ (by lia)
    · rfl
  · rw [store_below _ _ _ (by lia), put_of_ne _ (by lia), store_below _ _ _ (by lia),
      store_below _ _ _ (by lia)]
    split
    · exact store_below _ _ _ (by lia)
    · rfl

theorem HoldsDown.first {slot : Mem} (h : HoldsDown buf k (l ++ [slot])) :
    l.length + 1 ≤ k ∧ ∀ i < 32, buf (32 * (k - (l.length + 1)) + i) = slot i := by
  induction l generalizing k with
  | nil =>
    cases k with
    | zero => exact absurd h (by simp [HoldsDown])
    | succ k => exact ⟨by simp, h.1⟩
  | cons s l ih =>
    cases k with
    | zero => exact absurd h (by simp [HoldsDown])
    | succ k =>
      obtain ⟨hle, hslot⟩ := ih h.2
      rw [length_cons, Nat.add_sub_add_right]
      exact ⟨by lia, hslot⟩

theorem IsSlots.ends {checksum : UInt8} {counter : ℕ} {name : Text}
    (h : IsSlots checksum counter name sl) : ∃ front slot, sl = front ++
      [slotOf checksum (UInt8.ofNat (counter + sl.length) ||| lastLongEntryMask) slot] := by
  induction h with
  | last h => exact ⟨[], _, rfl⟩
  | @more counter name rest h hrest ih =>
    obtain ⟨front, slot, hsl⟩ := ih
    rw [length_cons, show counter + (rest.length + 1) = counter + 1 + rest.length by lia]
    exact ⟨_ :: front, slot, congrArg _ hsl⟩

end Records

section Entry

variable {name : Text} {buf : Mem} {k : ℕ}

theorem toupper_ne_zero {c : UInt8} (hc : c ≠ 0) : toupper c ≠ 0 := by
  unfold toupper
  split
  · next hlower =>
    intro h
    have hspace : c = 32 := by grind
    rw [hspace] at hlower
    exact absurd hlower (by decide)
  · exact hc

theorem shortName_head (hname : (0 : UInt8) ∉ name) : ∃ b rest, shortName name = b :: rest ∧ b ≠ 0 := by
  have hupper : (0 : UInt8) ∉ uppercase name := by
    intro h
    obtain ⟨c, hc, hzero⟩ := mem_map.mp h
    exact toupper_ne_zero (fun heq => hname (heq ▸ hc)) hzero
  unfold shortName
  simp only
  cases hbase : (uppercase name).takeWhile (· != 46) with
  | nil => exact ⟨32, _, rfl, by decide⟩
  | cons b base =>
    have hmem : b ∈ uppercase name := (takeWhile_subset _) (hbase ▸ mem_cons_self)
    have hb : b ≠ 0 := fun heq => hupper (heq ▸ hmem)
    split
    · exact ⟨b, _, rfl, hb⟩
    · split
      · exact ⟨b, _, rfl, hb⟩
      · exact ⟨b, _, rfl, hb⟩

theorem fillDentry_head (hname : (0 : UInt8) ∉ name) (hne : name ≠ []) (startCluster size : ℕ)
    (attr : UInt8) : v.fillDentry buf k name startCluster size attr (32 * k) ≠ 0 := by
  obtain ⟨b, rest, hshort, hb⟩ := shortName_head hname
  have hlen : name.length ≠ 0 := fun h => hne (length_eq_zero_iff.mp h)
  unfold FsData.fillDentry setName
  rw [if_neg hlen, hshort]
  intro hzero
  exact hb ((@store_at _ (32 * k) (b :: rest) 0 (by simp)).symm.trans hzero)

end Entry

/- From record `i` on a buffer is cluster `c` as it is on the disk. -/
def ReadFrom (v : FsData) (disk : Mem) (c i : ℕ) (buf : Mem) : Prop :=
  ∀ a, 32 * i ≤ a → a < v.bytesperclust → buf a = v.dirBlock disk c a

/- A reader or a search that comes to record `i` of cluster `c` gets the name in lower case and the
entry, whatever it has done before. -/
structure FoundAt (v : FsData) (answers : ℕ → Bool) (disk fat : Mem) (c i : ℕ) (name : Text)
    (entry : List UInt8) : Prop where
  vfatname : ∀ w cluster, v.Cached w → w.disk = disk → ReadFrom v disk c i cluster →
    ∃ w', v.getVfatname answers w c cluster i = some (some (downcase name, entry), w')
  longFileName : ∀ d, Coherent v.toVolume disk d.world fat → d.dirCurclust = c →
    ReadFrom v disk c i d.block →
    ∃ k d', v.getLongFileName answers d c i = some (some (downcase name, k), d') ∧
      record d'.block k = entry
  dent : ∀ s, v.Cached s.world → s.world.disk = disk → ReadFrom v disk c i s.block →
    ∃ s', v.dentStep answers c (downcase name) false s i = some (.found s') ∧
      record s'.block i = entry
  directoryEntry : ∀ d, Coherent v.toVolume disk d.world fat → d.dirCurclust = c →
    ReadFrom v disk c i d.block →
    ∃ k d', v.entryStep answers c (downcase name) d i = some (.found (d', k)) ∧
      record d'.block k = entry

section Search

variable {answers : ℕ → Bool} {disk fat buf cluster : Mem} {i k : ℕ} {name : Text} {entry : List UInt8}
  {checksum : UInt8} {sl a b : List Mem}

structure StartsName (buf : Mem) (i : ℕ) : Prop where
  present : buf (32 * i) ≠ deletedFlag
  last : isLast buf i = true
  attr : attrOf buf i = attrVfat

theorem startsName_slots (h : IsSlots checksum 0 name (a ++ b)) (hb : b ≠ [])
    (hcount : (a ++ b).length < 64) (hdown : HoldsDown buf k b) : StartsName buf (k - b.length) := by
  obtain ⟨front, slot, hsl⟩ := h.ends
  obtain ⟨b', x, rfl⟩ := eq_nil_or_concat b |>.resolve_left hb
  rw [concat_eq_append] at *
  have hlast : ∃ n < 64, x = slotOf checksum (UInt8.ofNat n ||| lastLongEntryMask) slot := by
    rw [← append_assoc] at hsl hcount
    exact ⟨_, by lia, singleton_inj.mp (append_inj' hsl rfl).2⟩
  obtain ⟨n, hn, rfl⟩ := hlast
  obtain ⟨-, hslot⟩ := hdown.first
  rw [length_append, length_singleton]
  have hid := hslot 0 (by lia)
  rw [Nat.add_zero, slotOf_id] at hid
  have hmark : ∀ n : Fin 64, (UInt8.ofNat n ||| lastLongEntryMask) ≠ deletedFlag := by decide
  refine ⟨?_, ?_, ?_⟩
  · rw [hid]
    exact hmark ⟨n, hn⟩
  · rw [isLast, hid]
    exact (id_bits ⟨n, hn⟩).2.2.2
  · rw [attrOf, hslot 11 (by lia)]
    rfl

theorem record_head (buf : Mem) (k : ℕ) : (record buf k).head? = some (buf (32 * k)) := by
  rw [record, bytes_succ]
  rfl

theorem StartsName.volume (h : StartsName buf i) : (attrOf buf i &&& attrVolume != 0) = true := by
  rw [h.attr]
  decide

theorem dentStep_found (h : StartsName buf i) {w' : World} (hlen : entry.length = 32)
    (hhead : entry.head? ≠ some 0)
    (hname : v.getVfatname answers w c buf i = some (some (downcase name, entry), w')) {n : ℕ} :
    ∃ s', v.dentStep answers c (downcase name) false ⟨w, buf, n⟩ i = some (.found s') ∧
      record s'.block i = entry := by
  have hsame : record (store buf (32 * i) entry) i = entry := by
    rw [record, ← hlen]
    exact bytes_store_same _ _ _
  have hzero : store buf (32 * i) entry (32 * i) ≠ 0 := by
    intro hzero
    have hat := record_head (store buf (32 * i) entry) i
    rw [hsame, hzero] at hat
    exact hhead hat
  have hlong : (attrOf buf i &&& attrVfat == attrVfat && isLast buf i) = true := by
    rw [h.attr, h.last]
    decide
  refine ⟨⟨w', store buf (32 * i) entry, (buf (32 * i + 13)).toNat⟩, ?_, hsame⟩
  unfold FsData.dentStep FsData.dentNamed FsData.dentSeen
  simp only [if_neg h.present, h.volume, hlong, hname, Bool.not_true, Bool.and_false, Bool.false_and,
    Bool.false_eq_true, if_false, if_true, map_some, if_neg hzero, ne_eq, not_true_eq_false,
    and_false]

theorem entryStep_found {d d' : FsData.Dir} (h : StartsName d.block i) (hhead : entry.head? ≠ some 0)
    (hname : v.getLongFileName answers d c i = some (some (downcase name, k), d'))
    (hentry : record d'.block k = entry) :
    v.entryStep answers c (downcase name) d i = some (.found (d', k)) := by
  have hzero : d'.block (32 * k) ≠ 0 := by
    intro hzero
    have hat := record_head d'.block k
    rw [hentry, hzero] at hat
    exact hhead hat
  have hlong : (attrOf d.block i &&& attrVfat != 0 && isLast d.block i) = true := by
    rw [h.attr, h.last]
    decide
  unfold FsData.entryStep FsData.entryNamed FsData.entrySeen
  simp only [if_neg h.present, h.volume, hlong, hname, Bool.not_true, Bool.and_false,
    Bool.false_eq_true, if_false, if_true, map_some, if_neg hzero, ne_eq, not_true_eq_false,
    and_false]

theorem FoundAt.of_readers (hlen : entry.length = 32) (hhead : entry.head? ≠ some 0)
    (hstart : ∀ buf, ReadFrom v disk c i buf → StartsName buf i)
    (hvfat : ∀ w cluster, v.Cached w → w.disk = disk → ReadFrom v disk c i cluster →
      ∃ w', v.getVfatname answers w c cluster i = some (some (downcase name, entry), w'))
    (hlong : ∀ d, Coherent v.toVolume disk d.world fat → d.dirCurclust = c →
      ReadFrom v disk c i d.block →
      ∃ k d', v.getLongFileName answers d c i = some (some (downcase name, k), d') ∧
        record d'.block k = entry) :
    FoundAt v answers disk fat c i name entry :=
  { vfatname := hvfat
    longFileName := hlong
    dent := by
      intro s hcached hdisk hread
      obtain ⟨w', hname⟩ := hvfat s.world s.block hcached hdisk hread
      exact dentStep_found (hstart _ hread) hlen hhead hname
    directoryEntry := by
      intro d hcoh hcur hread
      obtain ⟨k, d', hname, hentry⟩ := hlong d hcoh hcur hread
      exact ⟨k, d', entryStep_found (hstart _ hread) hhead hname hentry, hentry⟩ }

theorem ReadFrom.starts {top : ℕ} (hread : ReadFrom v disk c (top - b.length) cluster)
    (h : IsSlots checksum 0 name (a ++ b)) (hn : Plain name) (hb : b ≠ [])
    (hblock : ∀ x < v.bytesperclust, v.dirBlock disk c x = buf x) (hdown : HoldsDown buf top b)
    (htop : 32 * top ≤ v.bytesperclust) :
    HoldsDown cluster top b ∧ StartsName cluster (top - b.length) := by
  have hle := (hn.slots_le h).2
  unfold vfatMaxseq at hle
  have hbuf : HoldsDown cluster top b :=
    hdown.congr fun x hlow hhigh => (hread x hlow (by lia)).trans (hblock x (by lia))
  exact ⟨hbuf, startsName_slots h hb (by lia) hbuf⟩

theorem foundAt_here (hn : Plain name) (h : IsSlots checksum 0 name sl)
    (hlimit : 32 * k < v.nameLimit c) (hroom : 32 * (k + 1) ≤ v.bytesperclust)
    (hblock : ∀ x < v.bytesperclust, v.dirBlock disk c x = buf x) (hdown : HoldsDown buf k sl)
    (hhead : buf (32 * k) ≠ 0) : FoundAt v answers disk fat c (k - sl.length) name (record buf k) := by
  have hslots : ∀ {cluster}, ReadFrom v disk c (k - sl.length) cluster →
      HoldsDown cluster k sl ∧ StartsName cluster (k - sl.length) := fun hread =>
    @ReadFrom.starts v c disk buf _ name checksum [] sl k hread h hn h.ne_nil hblock hdown (by lia)
  have hentry : ∀ {cluster}, ReadFrom v disk c (k - sl.length) cluster →
      record cluster k = record buf k := fun hread =>
    bytes_congr _ _ fun x _ _ => (hread x (by lia) (by lia)).trans (hblock x (by lia))
  refine FoundAt.of_readers (length_bytes _ _ _) ?_ (fun buf hread => (hslots hread).2) ?_ ?_
  · rw [record_head]
    exact fun heq => hhead (some.inj heq)
  · intro w cluster _ _ hread
    rw [getVfatname_here hn h (hslots hread).1 hlimit, hentry hread]
    exact ⟨w, rfl⟩
  · intro d _ _ hread
    exact ⟨k, d, getLongFileName_here hn h (hslots hread).1 hlimit, hentry hread⟩

theorem foundAt_across {new front : ℕ} (hv : v.Linkable) (hc : v.DataCluster c)
    (hwindow : v.toVolume.WholeWindow c) (hnew : v.DataCluster new) (hanswers : answers new = true) (hn : Plain name)
    (hs : IsSlots checksum 0 name (a ++ b)) (hb : b ≠ []) (hwhole : v.bytesperclust = 32 * front)
    (hroom : 32 * (a.length + 1) ≤ v.bytesperclust)
    (hcopy : ∀ i < v.fatBytes, disk (Volume.fatStart v.toVolume 0 + i) = fat i)
    (hlink : v.toVolume.entryOf fat c = new)
    (hcluster : ∀ x < v.bytesperclust, v.dirBlock disk c x = cluster x)
    (hblock : ∀ x < v.bytesperclust, v.dirBlock disk new x = buf x)
    (hfront : HoldsDown cluster front b) (hback : HoldsDown buf a.length a)
    (hhead : buf (32 * a.length) ≠ 0) :
    FoundAt v answers disk fat c (front - b.length) name (record buf a.length) := by
  have hslots : ∀ {cluster'}, ReadFrom v disk c (front - b.length) cluster' →
      HoldsDown cluster' front b ∧ StartsName cluster' (front - b.length) :=
    fun hread => hread.starts hs hn hb hcluster hfront (by lia)
  have hvalid := hc.isCluster hv
  have hne : c ≠ 0 := by
    have := hc.low
    lia
  -- however the FAT was read, the next cluster is what was written
  have hnext : ∀ {disk'}, (∀ x < v.bytesperclust, v.dirBlock disk' new x = v.dirBlock disk new x) →
      HoldsDown (v.dirBlock disk' new) a.length a ∧
        record (v.dirBlock disk' new) a.length = record buf a.length := fun hsame =>
    ⟨hback.congr fun x _ hx => (hsame x (by lia)).trans (hblock x (by lia)),
      bytes_congr _ _ fun x _ _ => (hsame x (by lia)).trans (hblock x (by lia))⟩
  refine FoundAt.of_readers (length_bytes _ _ _) ?_ (fun buf hread => (hslots hread).2) ?_ ?_
  · rw [record_head]
    exact fun heq => hhead (some.inj heq)
  · intro w cluster' hcached hdisk hread
    obtain ⟨hval, -, hkeep⟩ := getFatent_spec hv.toWritable.toSound hcached hvalid.entry
      (cluster_bounds hvalid).2
    rw [hdisk, fatEntry_copy hv.sound.fatsize hc.entry hcopy, hlink] at hval
    rw [hdisk] at hkeep
    obtain ⟨hdown, hentry⟩ := @hnext (v.getFatent w c).2.disk fun x _ => by rw [hkeep]
    have hget : v.getFatent w c = (new, (v.getFatent w c).2) := Prod.ext hval rfl
    have hacross : Across v answers (v.getFatent w c).2.disk cluster' front new a b :=
      ⟨hwhole, hb, (hnew.isCluster hv).valid, hanswers, by lia, (hslots hread).1, hdown⟩
    rw [getVfatname_across hne hn hs hget hacross, hentry]
    exact ⟨_, rfl⟩
  · intro d hcoh hcur hread
    obtain ⟨hval, hcoh₁, -⟩ :=
      get_coherent hv.sound hcoh hc.low hc.high hc.entry hwindow
    rw [hlink] at hval
    obtain ⟨hdown, hentry⟩ := @hnext (v.getFatentValue d.world c).2.disk fun x hx => by
      rw [dirBlock_eq hv.toWritable (hnew.stored hv) _ hx,
        dirBlock_eq hv.toWritable (hnew.stored hv) _ hx, cluster_kept (hnew.stored hv) hcoh₁]
    have hget : v.getFatentValue d.world d.dirCurclust = (new, (v.getFatentValue d.world c).2) := by
      rw [hcur]
      exact Prod.ext hval rfl
    have hacross : Across v answers (v.getFatentValue d.world c).2.disk d.block front new a b :=
      ⟨hwhole, hb, (hnew.isCluster hv).valid, hanswers, by lia, (hslots hread).1, hdown⟩
    exact ⟨a.length, _, getLongFileName_across hne hn hs hget hacross, hentry⟩

end Search

end UBoot.Fat
