import UBoot.Fat.LongName

/-!
# Slots of any content

A forward walk over at least one slot is made good by the walk back. Without it the walk back goes
on to whatever record ends a name, or out of the buffer.
-/

namespace UBoot.Fat

open Memory List Option

def textAt (buf : Mem) (base : ℕ) (offs : List ℕ) : Text :=
  (offs.map fun o => buf (base + o)).takeWhile (· != 0)

def slotText (buf : Mem) (k : ℕ) : Text := textAt buf (32 * k) slotChars

def endsName (buf : Mem) (k : ℕ) : Bool := decide ((slotText buf k).length < 13) || isLast buf k

/- Back from record `k` a record ends the name before there are too many characters. -/
def StopsBack (buf : Mem) (k written : ℕ) : Prop :=
  ∃ j < k, endsName buf j = true ∧ (∀ i, j < i → i < k → endsName buf i = false) ∧
    written + 13 * (k - 1 - j) + (slotText buf j).length < vfatMaxlenBytes

section Backward

variable {buf : Mem} {base k n : ℕ} {offs : List ℕ} {lName : Text}

theorem textAt_length_le : (textAt buf base offs).length ≤ offs.length := by
  have hle := (takeWhile_sublist (fun c : UInt8 => c != 0)
    (l := offs.map fun o => buf (base + o))).length_le
  rwa [length_map] at hle

theorem slot2strFrom_eq (h : lName.length ≤ vfatMaxlenBytes) :
    slot2strFrom buf base offs lName =
      if lName.length + min ((textAt buf base offs).length + 1) offs.length ≤ vfatMaxlenBytes then
        some (decide ((textAt buf base offs).length < offs.length), lName ++ textAt buf base offs)
      else none := by
  induction offs generalizing lName with
  | nil => simp [slot2strFrom, textAt, h]
  | cons o offs ih =>
    have hle := @textAt_length_le buf base offs
    rw [slot2strFrom]
    by_cases hfull : vfatMaxlenBytes ≤ lName.length
    · rw [if_pos hfull, length_cons, if_neg (by lia)]
    · rw [if_neg hfull]
      by_cases hzero : buf (base + o) = 0
      · have htext : textAt buf base (o :: offs) = [] := by simp [textAt, hzero]
        rw [if_pos hzero, htext, length_nil, length_cons, if_pos (by lia),
          append_nil, decide_eq_true (Nat.succ_pos _)]
      · have htext : textAt buf base (o :: offs) = buf (base + o) :: textAt buf base offs := by
          simp [textAt, hzero]
        have hlen : (lName ++ [buf (base + o)]).length = lName.length + 1 := by simp
        have hmin : lName.length + 1 + min ((textAt buf base offs).length + 1) offs.length =
            lName.length + min ((textAt buf base offs).length + 1 + 1) (offs.length + 1) := by lia
        rw [if_neg hzero, ih (by lia), htext, hlen, length_cons, length_cons,
          append_assoc, singleton_append, hmin]
        simp only [Nat.add_lt_add_iff_right]

theorem slot2str_eq (h : lName.length ≤ vfatMaxlenBytes) : slot2str buf k lName =
    if lName.length + min ((slotText buf k).length + 1) 13 ≤ vfatMaxlenBytes then
      some (decide ((slotText buf k).length < 13), lName ++ slotText buf k)
    else none :=
  slot2strFrom_eq h

theorem stopsBack_succ (h : endsName buf k = false) :
    StopsBack buf (k + 1) n ↔ StopsBack buf k (n + 13) := by
  constructor
  · rintro ⟨j, hj, hends, hnone, hroom⟩
    have hne : j ≠ k := by
      rintro rfl
      rw [h] at hends
      cases hends
    exact ⟨j, by lia, hends, fun i hlow hhigh => hnone i hlow (by lia), by lia⟩
  · rintro ⟨j, hj, hends, hnone, hroom⟩
    refine ⟨j, by lia, hends, fun i hlow hhigh => ?_, by lia⟩
    obtain heq | hlt := Nat.eq_or_lt_of_le (Nat.le_of_lt_succ hhigh)
    · rw [heq, h]
    · exact hnone i hlow hlt

theorem stopsBack_here (h : endsName buf k = true) :
    StopsBack buf (k + 1) n ↔ n + (slotText buf k).length < vfatMaxlenBytes := by
  constructor
  · rintro ⟨j, hj, hends, hnone, hroom⟩
    have hjk : j = k := by
      by_contra hne
      rw [hnone k (by lia) (by lia)] at h
      cases h
    subst hjk
    lia
  · intro hroom
    exact ⟨k, by lia, h, fun i hlow hhigh => by lia, by lia⟩

theorem finishName_ne_none (lName : Text) : finishName lName ≠ none ↔ lName.length < vfatMaxlenBytes := by
  unfold finishName
  by_cases hfull : vfatMaxlenBytes ≤ lName.length
  · rw [if_pos hfull]
    exact iff_of_false (fun h => h rfl) (by lia)
  · rw [if_neg hfull]
    refine iff_of_true ?_ (by lia)
    cases lName with
    | nil => simp
    | cons c rest =>
      simp only
      split
      · simp
      · split <;> simp

theorem backWalk_iff (h : lName.length ≤ vfatMaxlenBytes) :
    (backWalk buf k lName).bind finishName ≠ none ↔ StopsBack buf k lName.length := by
  induction k generalizing lName with
  | zero =>
    refine iff_of_false (fun h => h rfl) ?_
    rintro ⟨j, hj, -⟩
    lia
  | succ k ih =>
    have hle : (slotText buf k).length ≤ 13 := textAt_length_le
    rw [backWalk, slot2str_eq h]
    cases hends : endsName buf k with
    | true =>
      rw [stopsBack_here hends]
      unfold endsName at hends
      by_cases hroom : lName.length + min ((slotText buf k).length + 1) 13 ≤ vfatMaxlenBytes
      · rw [if_pos hroom]
        by_cases hterm : (slotText buf k).length < 13
        · rw [decide_eq_true hterm]
          simp only [bind_some, finishName_ne_none, length_append]
        · rw [decide_eq_false hterm, Bool.false_or] at hends
          rw [decide_eq_false hterm]
          simp only [hends, if_true, bind_some, finishName_ne_none, length_append]
      · rw [if_neg hroom]
        exact iff_of_false (fun h => h rfl) (by lia)
    | false =>
      rw [stopsBack_succ hends]
      unfold endsName at hends
      rw [Bool.or_eq_false_iff, decide_eq_false_iff_not] at hends
      obtain ⟨hterm, hlast⟩ := hends
      have hlen : (lName ++ slotText buf k).length = lName.length + 13 := by
        rw [length_append]
        lia
      by_cases hroom : lName.length + min ((slotText buf k).length + 1) 13 ≤ vfatMaxlenBytes
      · rw [if_pos hroom, decide_eq_false hterm]
        simp only [hlast, Bool.false_eq_true, if_false]
        rw [ih (by lia), hlen]
      · rw [if_neg hroom]
        refine iff_of_false (fun h => h rfl) ?_
        rintro ⟨j, -, -, -, hfits⟩
        lia

theorem nameHere_iff : nameHere buf k ≠ none ↔ StopsBack buf k 0 := backWalk_iff (Nat.zero_le _)

theorem stopsBack_of_last {m : ℕ} (hlast : isLast buf k = true) (hm : 0 < m)
    (hroom : n + 13 * m < vfatMaxlenBytes) : StopsBack buf (k + m) n := by
  induction m generalizing n with
  | zero => lia
  | succ m ih =>
    have hle : (slotText buf (k + m)).length ≤ 13 := textAt_length_le
    rw [← Nat.add_assoc]
    cases hends : endsName buf (k + m) with
    | true =>
      rw [stopsBack_here hends]
      lia
    | false =>
      rw [stopsBack_succ hends]
      cases m with
      | zero =>
        rw [endsName, Nat.add_zero, hlast, Bool.or_true] at hends
        cases hends
      | succ m => exact ih (by lia) (by lia)

end Backward

section Forward

variable {buf block : Mem} {limit k k' counter counter' : ℕ} {lName : Text}

theorem slotWalk_at (h : slotWalk buf limit counter k = .at k' counter') :
    k + counter = k' + counter' ∧ k ≤ k' ∧ (counter' = 0 ∨ limit ≤ 32 * k') := by
  induction counter generalizing k with
  | zero =>
    obtain ⟨rfl, rfl⟩ := Walked.at.inj h
    exact ⟨rfl, Nat.le_refl _, .inl rfl⟩
  | succ counter ih =>
    rw [slotWalk] at h
    split at h
    · next hend =>
      obtain ⟨rfl, rfl⟩ := Walked.at.inj h
      exact ⟨rfl, Nat.le_refl _, .inr hend⟩
    · split at h
      · cases h
      · obtain ⟨hsum, hle, hstop⟩ := ih h
        exact ⟨by lia, by lia, hstop⟩

theorem blockWalk_inside (h : 32 * (k + counter) < limit) :
    blockWalk block limit counter k = some .wrong ∨
      blockWalk block limit counter k = some (.at (k + counter) 0) := by
  induction counter generalizing k with
  | zero =>
    rw [blockWalk, if_neg (by lia)]
    exact .inr rfl
  | succ counter ih =>
    rw [blockWalk, if_neg (by lia)]
    split
    · exact .inl rfl
    · have hrest := @ih (k + 1) (by lia)
      rwa [Nat.add_right_comm, Nat.add_assoc] at hrest

theorem blockNames_length (h : lName.length + 13 * k ≤ vfatMaxlenBytes) :
    ∃ lName', blockNames block k lName = some lName' ∧ lName'.length ≤ lName.length + 13 * k := by
  induction k generalizing lName with
  | zero => exact ⟨lName, rfl, Nat.le_refl _⟩
  | succ k ih =>
    have hle : (slotText block k).length ≤ 13 := textAt_length_le
    rw [blockNames, slot2str_eq (by lia), if_pos (by lia)]
    simp only
    obtain ⟨lName', hnames, hlen⟩ := @ih (lName ++ slotText block k) (by rw [length_append]; lia)
    rw [length_append] at hlen
    exact ⟨lName', hnames, by lia⟩

theorem name_inside {v : FsData} (hbytes : 320 ≤ v.bytesperclust) (hlast : isLast buf k = true)
    (hpos : 0 < counter) (hmax : counter ≤ vfatMaxseq) (hlimit : 32 * k < limit)
    (h : slotWalk buf limit counter k = .at k' counter') :
    (32 * k' < limit → nameHere buf k' ≠ none) ∧
      (limit ≤ 32 * k' → ∀ block, blockWalk block v.bytesperclust counter' 0 = some .wrong ∨
        blockWalk block v.bytesperclust counter' 0 = some (.at counter' 0) ∧
          nameAcross buf k' block counter' ≠ none) := by
  unfold vfatMaxseq at hmax
  obtain ⟨hsum, hle, hstop⟩ := slotWalk_at h
  obtain ⟨m, rfl⟩ := Nat.exists_eq_add_of_le hle
  constructor
  · intro hin
    exact nameHere_iff.mpr (stopsBack_of_last hlast (by lia) (by unfold vfatMaxlenBytes; lia))
  · intro hout block
    have hwalk := @blockWalk_inside block v.bytesperclust 0 counter' (by lia)
    rw [Nat.zero_add] at hwalk
    refine hwalk.imp_right fun hat => ⟨hat, ?_⟩
    obtain ⟨lName, hnames, hlen⟩ := @blockNames_length block counter' []
      (by rw [length_nil]; unfold vfatMaxlenBytes; lia)
    rw [length_nil, Nat.zero_add] at hlen
    rw [nameAcross, hnames, bind_some, backWalk_iff (by unfold vfatMaxlenBytes; lia)]
    exact stopsBack_of_last hlast (by lia) (by unfold vfatMaxlenBytes; lia)

end Forward

def ComesToEnd (buf : Mem) (k : ℕ) : Prop := seqOf buf k ≠ 0 ∨ StopsBack buf k 0

section Readers

variable {v : FsData} {answers : ℕ → Bool} {w : World} {d : FsData.Dir} {cluster : Mem}
  {curclust k : ℕ}

theorem getVfatname_inside (hroom : 320 ≤ v.bytesperclust) (hlast : isLast cluster k = true)
    (hk : 32 * k < v.nameLimit curclust) :
    v.getVfatname answers w curclust cluster k ≠ none ↔ ComesToEnd cluster k := by
  unfold FsData.getVfatname ComesToEnd
  simp only
  by_cases hmax : vfatMaxseq < seqOf cluster k
  · rw [if_pos hmax]
    exact iff_of_true (by simp) (.inl (by lia))
  · rw [if_neg hmax]
    obtain hzero | hpos := Nat.eq_zero_or_pos (seqOf cluster k)
    · rw [hzero, slotWalk]
      simp only [if_pos hk, ne_eq, not_true_eq_false, false_or, map_eq_none_iff]
      exact nameHere_iff
    · refine iff_of_true ?_ (.inl (by lia))
      cases hwalk : slotWalk cluster (v.nameLimit curclust) (seqOf cluster k) k with
      | wrong => simp
      | «at» k' counter =>
        obtain ⟨hhere, hacross⟩ := name_inside hroom hlast hpos (by lia) hk hwalk
        simp only
        split
        · next hin => simpa using hhere hin
        · next hout =>
          split
          · simp
          · split
            · simp
            · split
              · simp
              · obtain hwrong | ⟨hat, hname⟩ :=
                  hacross (by lia) (v.dirBlock (v.getFatent w curclust).2.disk
                    (v.getFatent w curclust).1)
                · rw [hwrong]
                  simp
                · rw [hat]
                  simpa using hname

theorem getLongFileName_inside (hroom : 320 ≤ v.bytesperclust) (hlast : isLast d.block k = true)
    (hk : 32 * k < v.nameLimit curclust) :
    v.getLongFileName answers d curclust k ≠ none ↔ ComesToEnd d.block k := by
  unfold FsData.getLongFileName ComesToEnd
  simp only
  by_cases hmax : vfatMaxseq < seqOf d.block k
  · rw [if_pos hmax]
    exact iff_of_true (by simp) (.inl (by lia))
  · rw [if_neg hmax]
    obtain hzero | hpos := Nat.eq_zero_or_pos (seqOf d.block k)
    · rw [hzero, slotWalk]
      simp only [if_pos hk, ne_eq, not_true_eq_false, false_or, map_eq_none_iff]
      exact nameHere_iff
    · refine iff_of_true ?_ (.inl (by lia))
      cases hwalk : slotWalk d.block (v.nameLimit curclust) (seqOf d.block k) k with
      | wrong => simp
      | «at» k' counter =>
        obtain ⟨hhere, hacross⟩ := name_inside hroom hlast hpos (by lia) hk hwalk
        simp only
        split
        · next hin => simpa using hhere hin
        · next hout =>
          split
          · simp
          · split
            · simp
            · split
              · simp
              · obtain hwrong | ⟨hat, hname⟩ :=
                  hacross (by lia) (v.dirBlock (v.getFatentValue d.world d.dirCurclust).2.disk
                    (v.getFatentValue d.world d.dirCurclust).1)
                · rw [hwrong]
                  simp
                · rw [hat]
                  simpa using hname

end Readers

end UBoot.Fat
