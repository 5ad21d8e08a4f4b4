import UBoot.Fat.Hostile
import UBoot.Fat.Written
import UBoot.Lib.Walks

/-!
# Searches along a chain of clusters

What a search does in a cluster depends on the disk alone. So it follows a walk over cluster
numbers, and comes to an end if that walk comes to no number again.
-/

namespace UBoot.Fat

open Memory Walks Relation Option

def fresh (disk : Mem) : World := ⟨fun _ => 0, noBuf, disk, []⟩

inductive Seen.Rel {α : Type} (r : α → α → Prop) : Seen α → Seen α → Prop where
  | next {s s' : α} (h : r s s') : Rel r (.next s) (.next s')
  | null {s s' : α} (h : r s s') : Rel r (.null s) (.null s')
  | found {s s' : α} (h : r s s') : Rel r (.found s) (.found s')

inductive Left.Rel {α : Type} (r : α → α → Prop) : Left α → Left α → Prop where
  | chain {s s' : α} (h : r s s') : Rel r (.chain s) (.chain s')
  | null {s s' : α} (h : r s s') : Rel r (.null s) (.null s')
  | found {s s' : α} (h : r s s') : Rel r (.found s) (.found s')

def SameAt {α : Type} (r : α → α → Prop) (x y : α × ℕ) : Prop := r x.1 y.1 ∧ x.2 = y.2

/- Clusters with entries in the FAT, which lead to such clusters again or to an end. -/
structure Closed (v : FsData) (disk : Mem) (p : ℕ → Prop) : Prop where
  entry : ∀ c, p c → v.HasEntry c ∧ c < 2 ^ 32 - 1
  next : ∀ c, p c → v.checkClust (v.fatEntry disk c) = false → p (v.fatEntry disk c)

section Dent

variable {v : FsData} {answers : ℕ → Bool} {disk : Mem} {filename : Text} {dols : Bool} {w : World}
  {s s' : FsData.Scan} {c i n : ℕ} {p : ℕ → Prop}

def Served (v : FsData) (disk : Mem) (w : World) : Prop := v.Cached w ∧ w.disk = disk

theorem served_fresh : Served v disk (fresh disk) := ⟨.inl rfl, rfl⟩

theorem served_get (hv : v.Sound) (hw : Served v disk w) (hc : v.HasEntry c ∧ c < 2 ^ 32 - 1) :
    ∃ w', v.getFatent w c = (v.fatEntry disk c, w') ∧ Served v disk w' := by
  obtain ⟨hcached, rfl⟩ := hw
  obtain ⟨hval, hcached', hdisk⟩ := getFatent_spec hv hcached hc.1 hc.2
  exact ⟨_, Prod.ext hval rfl, hcached', hdisk⟩

theorem getVfatname_served (hv : v.Sound) (hc : v.HasEntry c ∧ c < 2 ^ 32 - 1) {w w' : World}
    (hw : Served v disk w) (hw' : Served v disk w') (cluster : Mem) (i : ℕ) :
    Option.Rel (fun x y => x.1 = y.1 ∧ Served v disk x.2 ∧ Served v disk y.2)
      (v.getVfatname answers w c cluster i) (v.getVfatname answers w' c cluster i) := by
  obtain ⟨w₁, hget, hw₁⟩ := served_get hv hw hc
  obtain ⟨w₁', hget', hw₁'⟩ := served_get hv hw' hc
  unfold FsData.getVfatname
  simp only [hget, hget', hw₁.2, hw₁'.2]
  split
  · exact .some ⟨rfl, hw, hw'⟩
  · split
    · exact .some ⟨rfl, hw, hw'⟩
    · next k counter _ =>
      split
      · cases nameHere cluster k with
        | none => exact .none
        | some name => exact .some ⟨rfl, hw, hw'⟩
      · split
        · exact .some ⟨rfl, hw, hw'⟩
        · split
          · exact .some ⟨rfl, hw₁, hw₁'⟩
          · split
            · exact .some ⟨rfl, hw₁, hw₁'⟩
            · split
              · exact .none
              · exact .some ⟨rfl, hw₁, hw₁'⟩
              · next k₂ _ _ =>
                cases nameAcross cluster k (v.dirBlock disk (v.fatEntry disk c)) k₂ with
                | none => exact .none
                | some name => exact .some ⟨rfl, hw₁, hw₁'⟩

/- Two states of a search in the same cluster, with worlds that see the same disk. -/
structure SameScan (v : FsData) (disk : Mem) (s s' : FsData.Scan) : Prop where
  block : s.block = s'.block
  served : Served v disk s.world
  served' : Served v disk s'.world

theorem dentSeen_same (h : SameScan v disk s s') (volume : Bool) (lName : Text) :
    Seen.Rel (SameScan v disk) (FsData.dentSeen filename dols volume lName s i)
      (FsData.dentSeen filename dols volume lName s' i) := by
  obtain ⟨w, block, prevcksum⟩ := s
  obtain ⟨w', block', prevcksum'⟩ := s'
  obtain ⟨rfl, hw, hw'⟩ := h
  unfold FsData.dentSeen
  cases dols with
  | false =>
    simp only [Bool.and_false, Bool.false_and, Bool.false_eq_true, if_false]
    split
    · exact .null ⟨rfl, hw, hw'⟩
    · split
      · exact .next ⟨rfl, hw, hw'⟩
      · exact .found ⟨rfl, hw, hw'⟩
  | true =>
    simp only [Bool.and_true, Bool.true_and, if_true]
    split
    · exact .next ⟨rfl, hw, hw'⟩
    · split
      · exact .null ⟨rfl, hw, hw'⟩
      · -- the checksum only decides what is listed
        split
        · split
          · exact .next ⟨rfl, hw, hw'⟩
          · exact .next ⟨rfl, hw, hw'⟩
        · split
          · exact .next ⟨rfl, hw, hw'⟩
          · exact .next ⟨rfl, hw, hw'⟩

theorem dentStep_same (hv : v.Sound) (hc : v.HasEntry c ∧ c < 2 ^ 32 - 1)
    (h : SameScan v disk s s') : Option.Rel (Seen.Rel (SameScan v disk))
      (v.dentStep answers c filename dols s i) (v.dentStep answers c filename dols s' i) := by
  have hname := @getVfatname_served v answers disk c hv hc s.world s'.world h.served h.served' s.block i
  unfold FsData.dentStep
  rw [← h.block]
  split
  · exact .some (.next h)
  · simp only
    split
    · exact .some (.next h)
    · unfold FsData.dentNamed
      rw [← h.block]
      split
      · revert hname
        generalize v.getVfatname answers s.world c s.block i = x
        generalize v.getVfatname answers s'.world c s.block i = y
        intro hname
        cases hname with
        | none => exact .none
        | @some r r' hr =>
          obtain ⟨r, w⟩ := r
          obtain ⟨r', w'⟩ := r'
          obtain ⟨rfl, hw, hw'⟩ := hr
          cases r with
          | none =>
            exact .some (@dentSeen_same v disk filename dols ⟨w, s.block, _⟩ ⟨w', s.block, _⟩ i
              ⟨rfl, hw, hw'⟩ _ _)
          | some name =>
            obtain ⟨lName, dent⟩ := name
            exact .some (@dentSeen_same v disk filename dols ⟨w, store s.block (32 * i) dent, _⟩
              ⟨w', store s.block (32 * i) dent, _⟩ i ⟨rfl, hw, hw'⟩ _ _)
      · exact .some (dentSeen_same h _ _)

theorem dentLoop_same (hv : v.Sound) (hc : v.HasEntry c ∧ c < 2 ^ 32 - 1)
    (h : SameScan v disk s s') : Option.Rel (Left.Rel (SameAt (SameScan v disk)))
      (v.dentLoop answers c filename dols n s i) (v.dentLoop answers c filename dols n s' i) := by
  induction n generalizing s s' i with
  | zero => exact .some (.chain ⟨h, rfl⟩)
  | succ n ih =>
    have hstep := @dentStep_same v answers disk filename dols s s' c i hv hc h
    rw [FsData.dentLoop, FsData.dentLoop]
    revert hstep
    generalize v.dentStep answers c filename dols s i = x
    generalize v.dentStep answers c filename dols s' i = y
    intro hstep
    cases hstep with
    | none => exact .none
    | some hseen =>
      cases hseen with
      | next hs => exact ih hs
      | null hs => exact .some (.null ⟨hs, rfl⟩)
      | found hs => exact .some (.found ⟨hs, rfl⟩)

namespace FsData

variable (v : FsData) (answers : ℕ → Bool) (filename : Text) (dols : Bool) (disk : Mem)

/- The records of cluster `c`. -/
def dentScan (c : ℕ) : Option (Left (Scan × ℕ)) :=
  v.dentLoop answers c filename dols v.direntsperclust ⟨fresh disk, v.dirBlock disk c, 0xffff⟩ 0

/- Where the search goes from cluster `c`: where the FAT leads to if the records end nothing. -/
def dentNext (c : ℕ) : List ℕ :=
  if answers c then
    match v.dentScan answers filename dols disk c with
    | some (.chain _) =>
      if v.checkClust (v.fatEntry disk c) then [] else [v.fatEntry disk c]
    | _ => []
  else []

def DentInside (c : ℕ) : Prop := answers c = true → v.dentScan answers filename dols disk c ≠ none

end FsData

theorem getDentfromdir_turn (hv : v.Sound) (hclosed : Closed v disk p) (x : FsData.Scan × ℕ)
    (hx : Served v disk x.1.world ∧ p x.2) :
    Turn (v.dentNext answers filename dols disk)
      (fun n (x : FsData.Scan × ℕ) => v.getDentfromdir answers filename dols n x.1 x.2) Prod.snd
      (v.DentInside answers filename dols disk)
      (fun x : FsData.Scan × ℕ => Served v disk x.1.world ∧ p x.2) x := by
  obtain ⟨s, c⟩ := x
  obtain ⟨hserved, hp⟩ := hx
  have hc := hclosed.entry c hp
  cases hans : answers c with
  | false =>
    refine .ends (fun htrue => absurd (htrue.symm.trans hans) (by decide)) ?_ none fun n => ?_
    · unfold FsData.dentNext
      simp only [hans, Bool.false_eq_true, if_false]
    · simp only [FsData.getDentfromdir, FsData.dentCluster, hans, if_true]
  | true =>
    have hsame : SameScan v disk ⟨s.world, v.dirBlock s.world.disk c, s.prevcksum⟩
        ⟨fresh disk, v.dirBlock disk c, 0xffff⟩ :=
      ⟨congrArg (fun disk => v.dirBlock disk c) hserved.2, hserved, served_fresh⟩
    have hscan : Option.Rel (Left.Rel (SameAt (SameScan v disk)))
        (v.dentLoop answers c filename dols v.direntsperclust
          ⟨s.world, v.dirBlock s.world.disk c, s.prevcksum⟩ 0)
        (v.dentScan answers filename dols disk c) := dentLoop_same hv hc hsame
    generalize hx : v.dentLoop answers c filename dols v.direntsperclust
      ⟨s.world, v.dirBlock s.world.disk c, s.prevcksum⟩ 0 = x at hscan
    generalize hy : v.dentScan answers filename dols disk c = y at hscan
    cases hscan with
    | none =>
      refine .fails (fun hin => hin hans hy) fun n => ?_
      simp only [FsData.getDentfromdir, FsData.dentCluster, hans, Bool.true_eq_false, if_false, hx]
    | some hleft =>
      have hin : v.DentInside answers filename dols disk c := fun _ hnone =>
        absurd (hy.symm.trans hnone) (by simp)
      cases hleft with
      | @null x y hs =>
        refine .ends hin ?_ none fun n => ?_
        · simp only [FsData.dentNext, hans, if_true, hy]
        · simp only [FsData.getDentfromdir, FsData.dentCluster, hans, Bool.true_eq_false, if_false, hx]
      | @found x y hs =>
        refine .ends hin ?_ (some (record x.1.block x.2)) fun n => ?_
        · simp only [FsData.dentNext, hans, if_true, hy]
        · simp only [FsData.getDentfromdir, FsData.dentCluster, hans, Bool.true_eq_false, if_false, hx]
      | @chain x y hs =>
        obtain ⟨s₁, i⟩ := x
        obtain ⟨w', hget, hw'⟩ := served_get hv hs.1.served hc
        simp only at hget
        cases hcheck : v.checkClust (v.fatEntry disk c) with
        | true =>
          refine .ends hin ?_ none fun n => ?_
          · simp only [FsData.dentNext, hans, if_true, hy, hcheck]
          · simp only [FsData.getDentfromdir, FsData.dentCluster, hans, Bool.true_eq_false, if_false,
              hx, hget, hcheck, if_true]
        | false =>
          refine .goes hin (⟨w', s₁.block, s₁.prevcksum⟩, v.fatEntry disk c)
            ⟨hw', hclosed.next c hp hcheck⟩ ?_ fun n => ?_
          · simp only [FsData.dentNext, hans, if_true, hy, hcheck, Bool.false_eq_true, if_false]
          · simp only [FsData.getDentfromdir, FsData.dentCluster, hans, Bool.true_eq_false, if_false,
              hx, hget, hcheck, Bool.false_eq_true]

theorem dentNext_lt {x y : ℕ} (h : Edge (v.dentNext answers filename dols disk) x y) :
    y < v.clustLimit := by
  unfold Edge FsData.dentNext at h
  split at h
  · split at h
    · split at h
      · cases h
      · next hcheck =>
        rw [List.mem_singleton.mp h]
        simp only [Volume.checkClust, Bool.or_eq_true, decide_eq_true_eq, not_or] at hcheck
        lia
    · cases h
  · cases h

theorem finite_reached {next : ℕ → List ℕ} {limit : ℕ} (h : ∀ x y, Edge next x y → y < limit)
    (start : ℕ) : {x | ReflTransGen (Edge next) start x}.Finite := by
  refine ((Set.finite_lt_nat limit).insert start).subset fun x hx => ?_
  obtain heq | ⟨y, -, hlast⟩ := ReflTransGen.cases_tail hx
  · exact .inl heq
  · exact .inr (h y x hlast)

theorem getDentfromdir_iff (hv : v.Sound) (hclosed : Closed v disk p) (hp : p c)
    (hserved : Served v disk s.world) :
    (∃ fuel r, v.getDentfromdir answers filename dols fuel s c = some r) ↔
      (∀ x, ReflTransGen (Edge (v.dentNext answers filename dols disk)) c x →
        v.DentInside answers filename dols disk x) ∧
        NoCycle (v.dentNext answers filename dols disk) c :=
  @run_iff_noCycle ℕ (v.dentNext answers filename dols disk) (FsData.Scan × ℕ) _
    (fun n x => v.getDentfromdir answers filename dols n x.1 x.2) Prod.snd
    (v.DentInside answers filename dols disk) (fun x => Served v disk x.1.world ∧ p x.2) (s, c)
    (fun _ => rfl) (getDentfromdir_turn hv hclosed) ⟨hserved, hp⟩
    (finite_reached (fun _ _ => dentNext_lt) c)

end Dent

structure Alike (v : FsData) (disk : Mem) : Prop where
  sound : v.toVolume.Sound
  copies : ∀ k < v.numOfFats, ∀ i < v.fatBytes,
    disk (Volume.fatStart v.toVolume k + i) = disk (Volume.fatStart v.toVolume 0 + i)

/- The cache of the write path has the FAT of the disk, which it writes back as it is. -/
def Steady (v : FsData) (disk : Mem) (w : World) : Prop :=
  Coherent v.toVolume disk w (fun i => disk (Volume.fatStart v.toVolume 0 + i)) ∧ w.disk = disk

section Entry

variable {v : FsData} {answers : ℕ → Bool} {disk : Mem} {filename : Text} {w : World}
  {d d' : FsData.Dir} {c k n fuel : ℕ}

theorem Alike.steady_fresh (hm : Alike v disk) : Steady v disk (fresh disk) :=
  ⟨coherent_fresh (w := fresh disk) v.toVolume hm.sound.fats rfl rfl
    fun htwo => hm.copies 1 (by lia), rfl⟩

theorem getFatentValue_disk (v : Volume) (w : World) (e : ℕ) :
    (v.getFatentValue w e).2.disk = w.disk ∨
      w.fatbufnum ≠ noBuf ∧ (v.getFatentValue w e).2.disk = (v.flushFatBuffer w).2.disk := by
  unfold Volume.getFatentValue Volume.readWindow
  simp only
  split
  · exact .inl rfl
  · split
    · by_cases hbuf : w.fatbufnum ≠ noBuf
      · simp only [if_pos hbuf]
        refine .inr ⟨hbuf, ?_⟩
        split
        · split
          · rfl
          · rfl
        · split
          · rfl
          · rfl
      · simp only [if_neg hbuf]
        exact .inl rfl
    · exact .inl rfl

theorem steady_get (hm : Alike v disk) (hw : Steady v disk w) (hvalid : v.checkClust c = false)
    (hhas : v.HasEntry c) (hwhole : v.toVolume.WholeWindow c) :
    ∃ w', v.getFatentValue w c = (v.fatEntry disk c, w') ∧ Steady v disk w' := by
  obtain ⟨hcoh, hdisk⟩ := hw
  have hentry := (hasEntry_iff hm.sound.fatsize c).mp hhas
  have hbounds := hvalid
  simp only [Volume.checkClust, Bool.or_eq_false_iff, decide_eq_false_iff_not] at hbounds
  obtain ⟨hval, hcoh', -⟩ := get_coherent hm.sound hcoh (by lia) (by lia) hentry hwhole
  rw [← fatEntry_copy hm.sound.fatsize hentry fun _ _ => rfl] at hval
  refine ⟨_, Prod.ext hval rfl, hcoh', ?_⟩
  obtain hsame | ⟨hbuf, hflush⟩ := getFatentValue_disk v.toVolume w c
  · exact hsame.trans hdisk
  · obtain ⟨-, hflushed, hclean, -⟩ := flush_coherent hm.sound hcoh hbuf
    rw [hflush]
    funext a
    by_cases hout : ∀ k < v.numOfFats, a < Volume.fatStart v.toVolume k ∨
        Volume.fatStart v.toVolume k + v.fatBytes ≤ a
    · exact hflushed.outside a hout
    · push Not at hout
      obtain ⟨k, hk, hlow, hhigh⟩ := hout
      obtain ⟨i, rfl⟩ := Nat.exists_eq_add_of_le hlow
      exact (hclean k hk i (by lia)).trans (hm.copies k hk i (by lia)).symm

/- What `get_fatent_value` gives, also for what is no cluster. -/
def FsData.entryValue (v : FsData) (disk : Mem) (c : ℕ) : ℕ :=
  if v.checkClust c then 0 else v.fatEntry disk c

/- No cluster number, or one whose FAT entry lies in a whole window of the cache. -/
def FsData.Readable (v : FsData) (x : ℕ) : Prop :=
  v.checkClust x = true ∨ v.HasEntry x ∧ v.toVolume.WholeWindow x

theorem steady_value (hm : Alike v disk) (hw : Steady v disk w) (hc : v.Readable c) :
    ∃ w', v.getFatentValue w c = (v.entryValue disk c, w') ∧ Steady v disk w' := by
  unfold FsData.entryValue
  cases hcheck : v.checkClust c with
  | true =>
    refine ⟨w, ?_, hw⟩
    unfold Volume.getFatentValue
    rw [if_pos hcheck]
    rfl
  | false =>
    obtain ⟨hhas, hwhole⟩ := hc.resolve_left (by rw [hcheck]; decide)
    exact steady_get hm hw hcheck hhas hwhole

namespace FsData

variable (v : FsData) (answers : ℕ → Bool) (filename : Text)

/- The FAT entry that `get_long_file_name` looks at, if the name goes over the end of the cluster. -/
def nameLooks (curclust : ℕ) (d : Dir) (k : ℕ) : List ℕ :=
  match slotWalk d.block (v.nameLimit curclust) (seqOf d.block k) k with
  | .wrong => []
  | .at last _ =>
    if seqOf d.block k ≤ vfatMaxseq ∧ v.nameLimit curclust ≤ 32 * last ∧ curclust ≠ 0
    then [d.dirCurclust] else []

def stepLooks (curclust : ℕ) (d : Dir) (k : ℕ) : List ℕ :=
  if d.block (32 * k) ≠ deletedFlag ∧ attrOf d.block k &&& attrVolume ≠ 0 ∧
    (attrOf d.block k &&& attrVfat != 0 && isLast d.block k) = true
  then v.nameLooks curclust d k else []

/- Also the entry of the cluster that the records end in. -/
def loopLooks (curclust : ℕ) : ℕ → Dir → ℕ → List ℕ
  | 0, d, _ => [d.dirCurclust]
  | n + 1, d, k =>
    v.stepLooks curclust d k ++
      match v.entryStep answers curclust filename d k with
      | some (.next (d, k)) =>
        if v.bytesperclust ≤ 32 * k then [d.dirCurclust] else loopLooks curclust n d k
      | _ => []

end FsData

/- Two states of a search in the same clusters, with worlds that see the same disk. -/
structure SameDir (v : FsData) (disk : Mem) (d d' : FsData.Dir) : Prop where
  block : d.block = d'.block
  dirCurclust : d.dirCurclust = d'.dirCurclust
  steady : Steady v disk d.world
  steady' : Steady v disk d'.world

theorem getLongFileName_same (hm : Alike v disk) (h : SameDir v disk d d')
    (hlooks : ∀ x ∈ v.nameLooks c d' k, v.Readable x) :
    Option.Rel (fun x y => x.1 = y.1 ∧ SameDir v disk x.2 y.2)
      (v.getLongFileName answers d c k) (v.getLongFileName answers d' c k) := by
  obtain ⟨w, block, dirCurclust⟩ := d
  obtain ⟨w', block', dirCurclust'⟩ := d'
  obtain ⟨rfl, rfl, hw, hw'⟩ := h
  unfold FsData.nameLooks at hlooks
  unfold FsData.getLongFileName
  simp only at hlooks ⊢
  split
  · exact .some ⟨rfl, rfl, rfl, hw, hw'⟩
  · next hseq =>
    split
    · exact .some ⟨rfl, rfl, rfl, hw, hw'⟩
    · next last counter hwalk =>
      split
      · cases nameHere block last with
        | none => exact .none
        | some name => exact .some ⟨rfl, rfl, rfl, hw, hw'⟩
      · next hend =>
        split
        · exact .some ⟨rfl, rfl, rfl, hw, hw'⟩
        · next hzero =>
          simp only [hwalk] at hlooks
          rw [if_pos ⟨not_lt.mp hseq, not_lt.mp hend, hzero⟩] at hlooks
          have hreadable := hlooks _ (List.mem_singleton_self _)
          obtain ⟨w₁, hget, hw₁⟩ := steady_value hm hw hreadable
          obtain ⟨w₁', hget', hw₁'⟩ := steady_value hm hw' hreadable
          simp only [hget, hget', hw₁.2, hw₁'.2]
          split
          · exact .some ⟨rfl, rfl, rfl, hw₁, hw₁'⟩
          · split
            · exact .some ⟨rfl, rfl, rfl, hw₁, hw₁'⟩
            · split
              · exact .none
              · exact .some ⟨rfl, rfl, rfl, hw₁, hw₁'⟩
              · next k₂ _ _ =>
                cases nameAcross block last (v.dirBlock disk (v.entryValue disk dirCurclust)) k₂ with
                | none => exact .none
                | some name => exact .some ⟨rfl, rfl, rfl, hw₁, hw₁'⟩

theorem entrySeen_same (h : SameDir v disk d d') (lName : Text) (k : ℕ) :
    Seen.Rel (SameAt (SameDir v disk)) (FsData.entrySeen filename lName d k)
      (FsData.entrySeen filename lName d' k) := by
  unfold FsData.entrySeen
  rw [h.block]
  split
  · exact .null ⟨h, rfl⟩
  · split
    · exact .next ⟨h, rfl⟩
    · exact .found ⟨h, rfl⟩

theorem entryStep_same (hm : Alike v disk) (h : SameDir v disk d d')
    (hlooks : ∀ x ∈ v.stepLooks c d' k, v.Readable x) :
    Option.Rel (Seen.Rel (SameAt (SameDir v disk))) (v.entryStep answers c filename d k)
      (v.entryStep answers c filename d' k) := by
  have hname := @getLongFileName_same v answers disk d d' c k hm h
  unfold FsData.stepLooks at hlooks
  unfold FsData.entryStep
  rw [h.block]
  split
  · exact .some (.next ⟨h, rfl⟩)
  · next hdeleted =>
    simp only
    split
    · exact .some (.next ⟨h, rfl⟩)
    · next hplain =>
      unfold FsData.entryNamed
      split
      · next hvolume =>
        rw [hvolume, Bool.true_and, Bool.not_eq_true', Bool.not_eq_false] at hplain
        rw [if_pos ⟨hdeleted, bne_iff_ne.mp hvolume, hplain⟩] at hlooks
        have hname := hname hlooks
        revert hname
        generalize v.getLongFileName answers d c k = x
        generalize v.getLongFileName answers d' c k = y
        intro hname
        cases hname with
        | none => exact .none
        | @some r r' hr =>
          obtain ⟨r, d₁⟩ := r
          obtain ⟨r', d₁'⟩ := r'
          obtain ⟨rfl, hd⟩ := hr
          cases r with
          | none => exact .some (entrySeen_same hd _ _)
          | some name => exact .some (entrySeen_same hd _ _)
      · exact .some (entrySeen_same h _ _)

theorem entryLoop_same (hm : Alike v disk) (h : SameDir v disk d d')
    (hlooks : ∀ x ∈ v.loopLooks answers filename c n d' k, v.Readable x) :
    Option.Rel (Left.Rel (SameAt (SameDir v disk))) (v.entryLoop answers c filename n d k)
      (v.entryLoop answers c filename n d' k) := by
  induction n generalizing d d' k with
  | zero => exact .some (.chain ⟨h, rfl⟩)
  | succ n ih =>
    rw [FsData.loopLooks] at hlooks
    have hstep := @entryStep_same v answers disk filename d d' c k hm h
      fun x hx => hlooks x (List.mem_append_left _ hx)
    have hrest := fun x hx => hlooks x (List.mem_append_right _ hx)
    rw [FsData.entryLoop, FsData.entryLoop]
    revert hstep hrest
    generalize v.entryStep answers c filename d k = x
    generalize v.entryStep answers c filename d' k = y
    intro hstep hrest
    cases hstep with
    | none => exact .none
    | some hseen =>
      cases hseen with
      | @next x y hs =>
        obtain ⟨d₁, k₁⟩ := x
        obtain ⟨d₁', k₁'⟩ := y
        obtain ⟨hd, rfl⟩ := hs
        simp only at hrest ⊢
        split
        · exact .some (.chain ⟨hd, rfl⟩)
        · next hend =>
          rw [if_neg hend] at hrest
          exact ih hd hrest
      | @null x y hs => exact .some (.null hs)
      | @found x y hs => exact .some (.found hs)

theorem loopLooks_end {s : FsData.Dir × ℕ} (h : v.entryLoop answers c filename n d k = some (.chain s)) :
    s.1.dirCurclust ∈ v.loopLooks answers filename c n d k := by
  induction n generalizing d k with
  | zero =>
    obtain rfl := Left.chain.inj (some.inj h)
    exact List.mem_singleton_self _
  | succ n ih =>
    rw [FsData.entryLoop] at h
    rw [FsData.loopLooks]
    refine List.mem_append_right _ ?_
    generalize v.entryStep answers c filename d k = x at h ⊢
    obtain _ | ⟨s'⟩ | s' | s' := x
    · cases h
    · obtain ⟨d', k'⟩ := s'
      simp only at h ⊢
      split
      · next hend =>
        rw [if_pos hend] at h
        obtain rfl := Left.chain.inj (some.inj h)
        exact List.mem_singleton_self _
      · next hend =>
        rw [if_neg hend] at h
        exact ih h
    · cases h
    · cases h

namespace FsData

variable (v : FsData) (answers : ℕ → Bool) (filename : Text) (disk : Mem)

/- The records from cluster `c` on, in this cluster and those that long names lead into. -/
def entryScan (c : ℕ) : Option (Left (Dir × ℕ)) :=
  v.entryLoop answers c filename v.direntsperclust ⟨fresh disk, v.dirBlock disk c, c⟩ 0

/- Where the search goes from cluster `c`: to the next part of the root directory, or where the FAT
leads to from the cluster that the records end in. -/
def entryNext (c : ℕ) : List ℕ :=
  if answers c then
    match v.entryScan answers filename disk c with
    | some (.chain (d, _)) =>
      if v.fatsize ≠ .fat32 ∧ inRootDir c then
        if inRootDir ((c + 1) % 2 ^ 32) then [(c + 1) % 2 ^ 32] else []
      else if v.isLastClust (v.entryValue disk d.dirCurclust) ||
        v.checkClust (v.entryValue disk d.dirCurclust) then []
      else [v.entryValue disk d.dirCurclust]
    | _ => []
  else []

def EntryInside (c : ℕ) : Prop := answers c = true → v.entryScan answers filename disk c ≠ none

def scanLooks (c : ℕ) : List ℕ :=
  v.loopLooks answers filename c v.direntsperclust ⟨fresh disk, v.dirBlock disk c, c⟩ 0

/- The FAT entries that a search from cluster `c` on looks at can be read. -/
def LooksReadable (c : ℕ) : Prop :=
  ∀ x, ReflTransGen (Edge (v.entryNext answers filename disk)) c x → answers x = true →
    ∀ e ∈ v.scanLooks answers filename disk x, v.Readable e

end FsData

theorem FsData.LooksReadable.next (h : v.LooksReadable answers filename disk c)
    (hnext : v.entryNext answers filename disk c = [n]) : v.LooksReadable answers filename disk n :=
  fun x hx => h x (hx.head (by rw [Edge, hnext]; exact List.mem_singleton_self _))

/- What the records of a cluster and the FAT behind it do to the search. -/
theorem entryCluster_spec (hm : Alike v disk) (hsteady : Steady v disk d.world)
    (hlooks : answers c = true → ∀ x ∈ v.scanLooks answers filename disk c, v.Readable x) :
    match v.entryCluster answers filename d c with
    | none => ¬v.EntryInside answers filename disk c
    | some (.inl looked) => v.EntryInside answers filename disk c ∧
        v.entryNext answers filename disk c = [] ∧ Steady v disk looked.dir.world
    | some (.inr (d', next)) => v.EntryInside answers filename disk c ∧
        v.entryNext answers filename disk c = [next] ∧ Steady v disk d'.world := by
  unfold FsData.EntryInside FsData.entryNext FsData.entryCluster
  cases hans : answers c with
  | false =>
    simp only [Bool.false_eq_true, if_false, if_true, false_imp_iff, true_and]
    exact hsteady
  | true =>
    have hsame : SameDir v disk ⟨d.world, v.dirBlock d.world.disk c, c⟩
        ⟨fresh disk, v.dirBlock disk c, c⟩ :=
      ⟨congrArg (fun disk => v.dirBlock disk c) hsteady.2, rfl, hsteady, hm.steady_fresh⟩
    have hscan : Option.Rel (Left.Rel (SameAt (SameDir v disk)))
        (v.entryLoop answers c filename v.direntsperclust ⟨d.world, v.dirBlock d.world.disk c, c⟩ 0)
        (v.entryScan answers filename disk c) := entryLoop_same hm hsame (hlooks hans)
    have hend := fun s (hs : v.entryScan answers filename disk c = some (.chain s)) =>
      hlooks hans _ (loopLooks_end hs)
    simp only [Bool.true_eq_false, if_false, if_true, forall_const]
    generalize v.entryLoop answers c filename v.direntsperclust
      ⟨d.world, v.dirBlock d.world.disk c, c⟩ 0 = x at hscan ⊢
    generalize v.entryScan answers filename disk c = y at hscan hend ⊢
    cases hscan with
    | none => simp
    | some hleft =>
      cases hleft with
      | null hd => exact ⟨by simp, rfl, hd.1.steady⟩
      | found hd => exact ⟨by simp, rfl, hd.1.steady⟩
      | @chain x y hd =>
        obtain ⟨d₁, k₁⟩ := x
        obtain ⟨d₂, k₂⟩ := y
        have hreadable := hend _ rfl
        obtain ⟨hd, -⟩ := hd
        have hcur : d₁.dirCurclust = d₂.dirCurclust := hd.dirCurclust
        have hsteady₁ : Steady v disk d₁.world := hd.steady
        simp only at hreadable ⊢
        by_cases hroot : v.fatsize ≠ .fat32 ∧ FsData.inRootDir c
        · rw [if_pos hroot, if_pos hroot]
          cases hnext : FsData.inRootDir ((c + 1) % 2 ^ 32) with
          | true => exact ⟨by simp, by simp, hsteady₁⟩
          | false => exact ⟨by simp, by simp, hsteady₁⟩
        · obtain ⟨w', hget, hw'⟩ := steady_value hm hsteady₁ (hcur ▸ hreadable)
          rw [if_neg hroot, if_neg hroot, ← hcur, hget]
          simp only
          cases hlast : v.isLastClust (v.entryValue disk d₁.dirCurclust) with
          | true => exact ⟨by simp, by simp, hw'⟩
          | false =>
            cases hcheck : v.checkClust (v.entryValue disk d₁.dirCurclust) with
            | true => exact ⟨by simp, by simp, hw'⟩
            | false => exact ⟨by simp, by simp, hw'⟩

theorem findDirectoryEntry_turn (hm : Alike v disk) (x : FsData.Dir × ℕ)
    (hx : Steady v disk x.1.world ∧ v.LooksReadable answers filename disk x.2) :
    Turn (v.entryNext answers filename disk)
      (fun n (x : FsData.Dir × ℕ) => v.findDirectoryEntry answers filename n x.1 x.2) Prod.snd
      (v.EntryInside answers filename disk)
      (fun x : FsData.Dir × ℕ => Steady v disk x.1.world ∧ v.LooksReadable answers filename disk x.2)
      x := by
  obtain ⟨d, c⟩ := x
  obtain ⟨hsteady, hlooks⟩ := hx
  have hspec := entryCluster_spec hm hsteady (hlooks c ReflTransGen.refl)
  cases hcluster : v.entryCluster answers filename d c with
  | none =>
    rw [hcluster] at hspec
    exact .fails hspec fun n => by simp only [FsData.findDirectoryEntry, hcluster]
  | some r =>
    rw [hcluster] at hspec
    cases r with
    | inl looked =>
      exact .ends hspec.1 hspec.2.1 looked fun n => by simp only [FsData.findDirectoryEntry, hcluster]
    | inr next =>
      obtain ⟨hin, hnext, hw⟩ := hspec
      exact .goes hin next ⟨hw, hlooks.next hnext⟩ hnext fun n => by
        simp only [FsData.findDirectoryEntry, hcluster]

theorem entryNext_lt {x y : ℕ} (h : Edge (v.entryNext answers filename disk) x y) : y < 2 ^ 32 := by
  unfold Edge FsData.entryNext at h
  split at h
  · split at h
    · split at h
      · split at h
        · rw [List.mem_singleton.mp h]
          exact Nat.mod_lt _ (by decide)
        · cases h
      · split at h
        · cases h
        · next hcheck =>
          have hlimit := clustLimit_lt v
          rw [List.mem_singleton.mp h]
          simp only [Volume.checkClust, Bool.or_eq_true, decide_eq_true_eq, not_or] at hcheck
          lia
    · cases h
  · cases h

theorem findDirectoryEntry_iff (hm : Alike v disk) (hsteady : Steady v disk d.world)
    (hlooks : v.LooksReadable answers filename disk c) :
    (∃ fuel r, v.findDirectoryEntry answers filename fuel d c = some r) ↔
      (∀ x, ReflTransGen (Edge (v.entryNext answers filename disk)) c x →
        v.EntryInside answers filename disk x) ∧
        NoCycle (v.entryNext answers filename disk) c :=
  @run_iff_noCycle ℕ (v.entryNext answers filename disk) (FsData.Dir × ℕ) _
    (fun n x => v.findDirectoryEntry answers filename n x.1 x.2) Prod.snd
    (v.EntryInside answers filename disk)
    (fun x => Steady v disk x.1.world ∧ v.LooksReadable answers filename disk x.2) (d, c)
    (fun _ => rfl) (findDirectoryEntry_turn hm) ⟨hsteady, hlooks⟩
    (finite_reached (fun _ _ => entryNext_lt) c)

end Entry

end UBoot.Fat

/-!
## Directories of any content

The readers of long names and the searches together: what decides whether they stay inside their buffers
and come to an end.
-/

namespace UBoot.Fat

open Memory Walks Relation

/- A reader that starts at a slot with the mark stays inside exactly if the slot counts others or the
way back from it ends. A search that stays inside has a result exactly if it comes to no cluster twice. -/
theorem directory_parsed_iff (v : FsData) (hv : v.Sound) (hbytes : 320 ≤ v.bytesperclust)
    (answers : ℕ → Bool) :
    (∀ w curclust cluster k, isLast cluster k = true → 32 * k < v.nameLimit curclust →
      (v.getVfatname answers w curclust cluster k ≠ none ↔ ComesToEnd cluster k)) ∧
    (∀ (d : FsData.Dir) curclust k, isLast d.block k = true → 32 * k < v.nameLimit curclust →
      (v.getLongFileName answers d curclust k ≠ none ↔ ComesToEnd d.block k)) ∧
    (∀ disk p c (s : FsData.Scan) filename dols, Closed v disk p → p c → Served v disk s.world →
      ((∃ fuel r, v.getDentfromdir answers filename dols fuel s c = some r) ↔
        (∀ x, ReflTransGen (Edge (v.dentNext answers filename dols disk)) c x →
          v.DentInside answers filename dols disk x) ∧
          NoCycle (v.dentNext answers filename dols disk) c)) ∧
    (∀ disk c (d : FsData.Dir) filename, Alike v disk → Steady v disk d.world →
      v.LooksReadable answers filename disk c →
      ((∃ fuel r, v.findDirectoryEntry answers filename fuel d c = some r) ↔
        (∀ x, ReflTransGen (Edge (v.entryNext answers filename disk)) c x →
          v.EntryInside answers filename disk x) ∧
          NoCycle (v.entryNext answers filename disk) c)) :=
  ⟨fun _ _ _ _ hlast hk => getVfatname_inside hbytes hlast hk,
    fun _ _ _ hlast hk => getLongFileName_inside hbytes hlast hk,
    fun _ _ _ _ _ _ hclosed hp hserved => getDentfromdir_iff hv hclosed hp hserved,
    fun _ _ _ _ hm hsteady hlooks => findDirectoryEntry_iff hm hsteady hlooks⟩

def oneSlot : Mem := fun a => if a = 0 then 0x41 else if a = 11 then attrVfat else 0

def roundDisk : Mem := fun a => if a = 512 + 4 then 2 else if a = 512 + 5 then 0 else deletedFlag

theorem oneSectorFat_sound : (oneSectorFat 512 1).Sound := ⟨by decide, by decide, by decide, by decide⟩

theorem roundDisk_closed : Closed (oneSectorFat 512 1) roundDisk (· = 2) where
  entry := by
    intro c hc
    obtain rfl : c = 2 := hc
    exact ⟨by unfold FsData.HasEntry; decide, by decide⟩
  next := by
    intro c hc _
    obtain rfl : c = 2 := hc
    decide +kernel

theorem roundDisk_alike : Alike (oneSectorFat 512 1) roundDisk where
  sound := ⟨by decide, by decide, by decide, by decide, by decide, by decide⟩
  copies := fun k hk _ _ => by
    obtain rfl : k = 0 := Nat.lt_one_iff.mp hk
    rfl

theorem roundDisk_next :
    (oneSectorFat 512 1).entryNext (fun _ => true) [97] roundDisk 2 = [2] := by
  decide +kernel

theorem roundDisk_looks :
    (oneSectorFat 512 1).LooksReadable (fun _ => true) [97] roundDisk 2 := by
  have htwo : ∀ x, ReflTransGen (Edge ((oneSectorFat 512 1).entryNext (fun _ => true) [97] roundDisk))
      2 x → x = 2 := by
    intro x hx
    induction hx with
    | refl => rfl
    | tail _ hedge ih =>
      rw [ih, Edge, roundDisk_next] at hedge
      exact List.mem_singleton.mp hedge
  have hlooks : (oneSectorFat 512 1).scanLooks (fun _ => true) [97] roundDisk 2 = [2] := by
    decide +kernel
  intro x hx _ e he
  rw [htwo x hx, hlooks] at he
  rw [List.mem_singleton.mp he]
  exact .inr ⟨by unfold FsData.HasEntry; decide, .inr (by decide)⟩

theorem edge_of_next {next : ℕ → List ℕ} {a b : ℕ} (h : next a = [b]) : Edge next a b := by
  unfold Edge
  rw [h]
  exact List.mem_singleton_self b

/- One name, and searches in the cluster that leads to itself. -/
theorem one_slot_parsed :
    (oneSectorFat 512 1).getVfatname (fun _ => true) twoToFive 2 oneSlot 0 ≠ none ∧
      (oneSectorFat 512 1).getLongFileName (fun _ => true) ⟨twoToFive, oneSlot, 2⟩ 2 0 ≠ none ∧
      ((∃ fuel r, (oneSectorFat 512 1).getDentfromdir (fun _ => true) [97] false fuel
        ⟨fresh roundDisk, oneSlot, 0⟩ 2 = some r) ↔
        (∀ x, ReflTransGen (Edge ((oneSectorFat 512 1).dentNext (fun _ => true) [97] false roundDisk))
          2 x → (oneSectorFat 512 1).DentInside (fun _ => true) [97] false roundDisk x) ∧
          NoCycle ((oneSectorFat 512 1).dentNext (fun _ => true) [97] false roundDisk) 2) ∧
      ((∃ fuel r, (oneSectorFat 512 1).findDirectoryEntry (fun _ => true) [97] fuel
        ⟨fresh roundDisk, oneSlot, 0⟩ 2 = some r) ↔
        (∀ x, ReflTransGen (Edge ((oneSectorFat 512 1).entryNext (fun _ => true) [97] roundDisk)) 2 x →
          (oneSectorFat 512 1).EntryInside (fun _ => true) [97] roundDisk x) ∧
          NoCycle ((oneSectorFat 512 1).entryNext (fun _ => true) [97] roundDisk) 2) := by
  obtain ⟨hvfat, hlong, hdent, hfind⟩ :=
    directory_parsed_iff (oneSectorFat 512 1) oneSectorFat_sound (by decide) (fun _ => true)
  refine ⟨?_, ?_, ?_, ?_⟩
  · exact (hvfat _ 2 oneSlot 0 (by decide) (by decide)).mpr (.inl (by decide))
  · exact (hlong ⟨twoToFive, oneSlot, 2⟩ 2 0 (by decide) (by decide)).mpr (.inl (by decide))
  · exact hdent _ _ _ _ _ _ roundDisk_closed rfl served_fresh
  · exact hfind _ _ _ _ roundDisk_alike roundDisk_alike.steady_fresh roundDisk_looks

/- A slot that counts no others, as the first record and as the 21st behind slots without end; and a
directory that goes round. -/
theorem crafted_directory :
    (oneSectorFat 512 1).getVfatname (fun _ => true) twoToFive 2
        (fun a => if a = 0 then 0x40 else 0) 0 = none ∧
      (oneSectorFat 512 1).getLongFileName (fun _ => true)
        ⟨twoToFive, fun a => if a = 0 then 0x40 else 0, 2⟩ 2 0 = none ∧
      (oneSectorFat 512 2).getVfatname (fun _ => true) twoToFive 2
        (fun a => if a = 32 * 20 then 0x40 else 1) 20 = none ∧
      (∀ fuel, (oneSectorFat 512 1).getDentfromdir (fun _ => true) [97] false fuel
        ⟨fresh roundDisk, oneSlot, 0⟩ 2 = none) ∧
      ∀ fuel, (oneSectorFat 512 1).findDirectoryEntry (fun _ => true) [97] fuel
        ⟨fresh roundDisk, oneSlot, 0⟩ 2 = none := by
  refine ⟨by decide, rfl, by decide +kernel, fun fuel => ?_, fun fuel => ?_⟩
  · have hround : (oneSectorFat 512 1).dentNext (fun _ => true) [97] false roundDisk 2 = [2] := by
      decide +kernel
    refine Option.eq_none_iff_forall_ne_some.mpr fun r hr => ?_
    have hiff := @getDentfromdir_iff (oneSectorFat 512 1) (fun _ => true) roundDisk [97] false
      ⟨fresh roundDisk, oneSlot, 0⟩ 2 _ oneSectorFat_sound roundDisk_closed rfl served_fresh
    exact (hiff.mp ⟨fuel, r, hr⟩).2 2 ReflTransGen.refl (TransGen.single (edge_of_next hround))
  · refine Option.eq_none_iff_forall_ne_some.mpr fun r hr => ?_
    have hiff := @findDirectoryEntry_iff (oneSectorFat 512 1) (fun _ => true) roundDisk [97]
      ⟨fresh roundDisk, oneSlot, 0⟩ 2 roundDisk_alike roundDisk_alike.steady_fresh roundDisk_looks
    exact (hiff.mp ⟨fuel, r, hr⟩).2 2 ReflTransGen.refl (TransGen.single (edge_of_next roundDisk_next))

end UBoot.Fat
