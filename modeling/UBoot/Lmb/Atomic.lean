import UBoot.Lmb.Highest
import UBoot.Lmb.Accepts
import UBoot.Lmb.Queries

/-!
# Freeing all or nothing

A free from the middle of an entry shortens the entry and then adds what is behind the hole; in a
full table the add fails.
-/

namespace UBoot.Lmb

open List Option

section Free

variable (abi : Abi)

/- `lmb_free` returns; with an error nothing changed, otherwise the range was reserved and is not
any more, and the other addresses are as before. -/
def FreeAtomic (rgn : LmbRegion) (base size : ℕ) : Prop :=
  ∃ ret rgn', freeRegion abi rgn base size = some (ret, rgn') ∧
    (ret < 0 → covered rgn'.entries = covered rgn.entries) ∧
    (0 ≤ ret → Set.Ico base (base + size) ⊆ covered rgn.entries ∧
      covered rgn'.entries = covered rgn.entries \ Set.Ico base (base + size))

/- If the loop of `lmb_free` finds an entry: a range that does not wrap is not taken from the middle
of the entry in a full table; one that wraps begins behind the entry, and the table is full. -/
def FreeOk (rgn : LmbRegion) (base size : ℕ) : Prop :=
  ∀ i, i ∈ findHolder abi rgn base (abi.add base size) rgn.cnt 0 →
    if base + size < 2 ^ abi.physBits then
      ¬ (rgn.cnt = maxLmbRegions ∧ 0 < size ∧ (rgn.region i).base < base ∧
        base + size < (rgn.region i).stop)
    else
      rgn.cnt = maxLmbRegions ∧ base = (rgn.region i).stop ∧ abi.add base size ≠ (rgn.region i).base

instance (rgn : LmbRegion) (base size : ℕ) : Decidable (FreeOk abi rgn base size) :=
  match h : findHolder abi rgn base (abi.add base size) rgn.cnt 0 with
  | none => isTrue fun i hi => by rw [h] at hi; cases hi
  | some i =>
    decidable_of_iff
      (if base + size < 2 ^ abi.physBits then
        ¬ (rgn.cnt = maxLmbRegions ∧ 0 < size ∧ (rgn.region i).base < base ∧
          base + size < (rgn.region i).stop)
      else
        rgn.cnt = maxLmbRegions ∧ base = (rgn.region i).stop ∧
          abi.add base size ≠ (rgn.region i).base)
      ⟨fun hok j hj => by rw [h] at hj; obtain rfl := some.inj hj; exact hok, fun hok => hok i h⟩

end Free

section Cases

variable {abi : Abi} {rgn rgn' : LmbRegion} {l r : List LmbProperty} {x : LmbProperty}
  {base size stop : ℕ} {ret : ℤ}

theorem entries_split {i : ℕ} (h : i < rgn.cnt) :
    ∃ l r, rgn.entries = l ++ rgn.region i :: r ∧ l.length = i := by
  have hget := entries_getElem? rgn i
  rw [if_pos h] at hget
  obtain ⟨hlen, hi⟩ := List.getElem?_eq_some_iff.mp hget
  refine ⟨rgn.entries.take i, rgn.entries.drop (i + 1), ?_, ?_⟩
  · rw [← hi, getElem_cons_drop, take_append_drop]
  · rw [length_take, entries_length]
    lia

theorem findHolder_first {n i j : ℕ} (h : findHolder abi rgn base stop n i = some j) :
    i ≤ j ∧ j < i + n ∧ (rgn.region j).base ≤ base ∧
      stop ≤ abi.add (rgn.region j).base (rgn.region j).size ∧
      ∀ m, i ≤ m → m < j → ¬ ((rgn.region m).base ≤ base ∧
        stop ≤ abi.add (rgn.region m).base (rgn.region m).size) := by
  induction n generalizing i with
  | zero => cases h
  | succ n ih =>
    rw [findHolder] at h
    by_cases hx : (rgn.region i).base ≤ base ∧
        stop ≤ abi.add (rgn.region i).base (rgn.region i).size
    · obtain rfl : i = j := by simpa only [if_pos hx, some.injEq] using h
      exact ⟨le_rfl, by lia, hx.1, hx.2, fun m hm hlt => by lia⟩
    · simp only [if_neg hx] at h
      obtain ⟨hij, hj, hb, hs, hfirst⟩ := ih h
      refine ⟨by lia, by lia, hb, hs, fun m hm hlt => ?_⟩
      by_cases hmi : m = i
      · rw [hmi]
        exact hx
      · exact hfirst m (by lia) hlt

theorem holder_split (hf : ∀ y, y ∈ rgn.entries → y.Fits abi) {i : ℕ}
    (h : findHolder abi rgn base stop rgn.cnt 0 = some i) :
    ∃ l r, rgn.entries = l ++ rgn.region i :: r ∧ l.length = i ∧ (rgn.region i).base ≤ base ∧
      stop ≤ (rgn.region i).stop ∧ ∀ y, y ∈ l → y.base ≤ base → y.stop < stop := by
  obtain ⟨-, hi, hb, hs, hfirst⟩ := findHolder_first h
  obtain ⟨l, r, he, hlen⟩ := entries_split (show i < rgn.cnt by lia)
  rw [abi.add_fits (hf _ (by simp [he]))] at hs
  refine ⟨l, r, he, hlen, hb, hs, fun y hy hyb => ?_⟩
  obtain ⟨m, hm, rfl⟩ := mem_iff_getElem.mp hy
  have hreg : rgn.region m = l[m] := by
    have hget := entries_getElem? rgn m
    rw [if_pos (by lia), he, getElem?_append_left hm, getElem?_eq_getElem hm] at hget
    exact (some.inj hget).symm
  have hno := hfirst m (Nat.zero_le m) (by lia)
  rw [hreg, abi.add_fits (hf _ (by simp [he]))] at hno
  lia

theorem split_full {es' : List LmbProperty} (ho : InOrder abi (l ++ x :: r))
    (hadd : Added ⟨stop, x.stop - stop⟩ (l ++ ⟨x.base, base - x.base⟩ :: r) ret es')
    (hs : stop < x.stop) (hl : ∀ y, y ∈ l → y.stop < stop) (hne : base ≠ stop)
    (hxs : stop ≠ x.base) (hfull : (l ++ x :: r).length = maxLmbRegions) : ret < 0 := by
  obtain ⟨-, -, hxp, -, hlx, hxr, -⟩ := inOrder_split.mp ho
  have hlen : (l ++ ⟨x.base, base - x.base⟩ :: r).length = maxLmbRegions := by
    rw [← hfull]
    simp
  have hmax : maxLmbRegions = 8 := rfl
  have hxstop : x.stop = x.base + x.size := rfl
  have hapart : ∀ y, y ∈ l ++ ⟨x.base, base - x.base⟩ :: r →
      ¬ LmbProperty.Touches ⟨stop, x.stop - stop⟩ y ∧ y.base ≠ stop := by
    intro y hy
    have hystop : y.stop = y.base + y.size := rfl
    unfold LmbProperty.Touches
    rw [show LmbProperty.stop ⟨stop, x.stop - stop⟩ = x.stop from Nat.add_sub_cancel' hs.le]
    simp only
    rcases mem_append.mp hy with hy | hy
    · have h1 := hl y hy
      have h2 := hlx y hy
      unfold LmbProperty.Apart at h2
      lia
    · rcases mem_cons.mp hy with rfl | hy
      · simp only at hystop ⊢
        lia
      · have h2 := hxr y hy
        unfold LmbProperty.Apart at h2
        lia
  generalize hes : l ++ ⟨x.base, base - x.base⟩ :: r = es at hadd hlen hapart
  cases hadd with
  | dummy y _ =>
    rw [length_singleton] at hlen
    lia
  | same _ hmem => exact absurd rfl (hapart _ hmem).2
  | grow l' y y' r' _ hy _ => exact absurd (grown_touches hy) (hapart y (by simp)).1
  | bridge l' y y' z r' _ hy _ => exact absurd (grown_touches hy) (hapart y (by simp)).1
  | full _ _ => decide
  | insert l' r' _ _ _ _ hlt => lia

theorem added_refused {new : LmbProperty} {es es' : List LmbProperty} (h : Added new es ret es')
    (hret : ret < 0) : es.length = maxLmbRegions := by
  cases h with
  | full _ hfull => exact hfull
  | dummy => lia
  | same => lia
  | grow => lia
  | bridge => lia
  | insert => lia

theorem split_tableOk (ho : InOrder abi rgn.entries) (he : rgn.entries = l ++ x :: r)
    (hc : rgn.cnt ≤ maxLmbRegions) (hb : x.base < base) (hbase : base < 2 ^ abi.physBits) :
    TableOk abi (rgn.set l.length ⟨x.base, base - x.base⟩) := by
  have hlinked : ∀ y z : LmbProperty, y.Apart z → y.Linked z := by
    intro y z h
    unfold LmbProperty.Apart LmbProperty.Linked LmbProperty.stop at *
    lia
  rw [he] at ho
  obtain ⟨hol, hor, hxp, -, hlx, hxr, -⟩ := inOrder_split.mp ho
  refine ⟨?_, hc, ?_⟩
  · rw [← entries_length, entries_set he]
    simp
  · rw [entries_set he]
    refine linked_split.mpr ⟨⟨hol.fits, (hol.apart.imp (hlinked _ _)).isChain⟩,
      ⟨hor.fits, (hor.apart.imp (hlinked _ _)).isChain⟩, ?_, fun y hy => ?_, fun z hz => ?_⟩
    · unfold LmbProperty.Fits LmbProperty.stop
      simp only
      lia
    · have h1 := hlx y (mem_of_getLast? hy)
      unfold LmbProperty.Apart LmbProperty.Linked LmbProperty.stop at *
      simp only
      lia
    · have h1 := hxr z (mem_of_head? hz)
      unfold LmbProperty.Apart LmbProperty.Linked LmbProperty.stop at *
      simp only
      lia

theorem split_refused (ho : InOrder abi rgn.entries) (he : rgn.entries = l ++ x :: r)
    (hc : rgn.cnt ≤ maxLmbRegions) (hb : x.base < base) (hbase : base < 2 ^ abi.physBits)
    (hs : stop < x.stop)
    (hrun : lmbAddRegion abi (rgn.set l.length ⟨x.base, base - x.base⟩) stop (x.stop - stop) =
      some (ret, rgn')) (hret : ret < 0) :
    rgn.cnt = maxLmbRegions ∧ base ≠ stop ∧ (base = x.stop → stop ≠ x.base) := by
  have hxf : x.Fits abi := ho.fits x (by simp [he])
  have hnew : LmbProperty.Fits abi ⟨stop, x.stop - stop⟩ := by
    unfold LmbProperty.Fits
    rw [show LmbProperty.stop ⟨stop, x.stop - stop⟩ = x.stop from Nat.add_sub_cancel' hs.le]
    exact hxf
  have hno : ¬ Accepts (rgn.set l.length ⟨x.base, base - x.base⟩).entries ⟨stop, x.stop - stop⟩ := by
    intro haccept
    have hge := lmbAddRegion_accepts (split_tableOk ho he hc hb hbase) hnew haccept hrun
    lia
  have hmem : (⟨x.base, base - x.base⟩ : LmbProperty) ∈
      (rgn.set l.length ⟨x.base, base - x.base⟩).entries := by
    rw [entries_set he]
    simp
  refine ⟨?_, fun heq => hno (.inr (.inr ⟨_, hmem, .inr ?_⟩)), fun hbs hsb => hno (.inr (.inl ?_))⟩
  · by_contra hlt
    refine hno (.inl ?_)
    rw [entries_length, set_cnt]
    lia
  · unfold LmbProperty.stop
    simp only
    lia
  · rw [hsb, ← hbs]
    exact hmem

theorem freed_fails_iff (ho : InOrder abi rgn.entries) (he : rgn.entries = l ++ x :: r)
    (hc : rgn.cnt ≤ maxLmbRegions) (hl : ∀ y, y ∈ l → y.base ≤ base → y.stop < base + size)
    (h : Freed abi rgn l x r base size (base + size) ret rgn') :
    ret < 0 ↔ rgn.cnt = maxLmbRegions ∧ 0 < size ∧ x.base < base ∧ base + size < x.stop := by
  have hxlt : x.stop < 2 ^ abi.physBits := ho.fits x (by simp [he])
  cases h with
  | whole =>
    refine ⟨fun h => absurd h (lt_irrefl 0), fun h => ?_⟩
    lia
  | front =>
    refine ⟨fun h => absurd h (lt_irrefl 0), fun h => ?_⟩
    lia
  | back =>
    refine ⟨fun h => absurd h (lt_irrefl 0), fun h => ?_⟩
    lia
  | middle _ _ hb' hs' hrun hadd =>
    constructor
    · intro hret
      obtain ⟨hfull, hne, -⟩ := split_refused ho he hc hb' (by lia) hs' hrun hret
      exact ⟨hfull, by lia, hb', hs'⟩
    · rintro ⟨hfull, hsize, -, -⟩
      rw [he] at ho
      have hlx := (inOrder_split.mp ho).2.2.2.2.1
      refine split_full ho hadd hs' (fun y hy => ?_) (by lia) (by lia) ?_
      · have h1 := hlx y hy
        unfold LmbProperty.Apart LmbProperty.stop at h1
        exact hl y hy (by lia)
      · rw [← he, entries_length, hfull]

theorem freed_wrapped (ho : InOrder abi rgn.entries) (he : rgn.entries = l ++ x :: r)
    (h : Freed abi rgn l x r base size stop ret rgn') (hret : ret < 0) :
    covered rgn'.entries = covered rgn.entries ↔ base = x.stop := by
  cases h with
  | whole => exact absurd hret (lt_irrefl 0)
  | front => exact absurd hret (lt_irrefl 0)
  | back => exact absurd hret (lt_irrefl 0)
  | middle _ _ hb hs _ hadd =>
    rw [added_failed hadd hret, he]
    rw [he] at ho
    have hxstop : x.stop = x.base + x.size := rfl
    constructor
    · intro hsame
      by_contra hne
      -- the end of the entry, or the start of the range, is covered on one side only
      by_cases hlt : x.stop < base
      · have hmem : x.stop ∈ covered (l ++ x :: r) := by
          rw [← hsame, mem_covered_split]
          refine .inr (.inl ⟨by simp only; lia, ?_⟩)
          unfold LmbProperty.stop at *
          simp only
          lia
        obtain ⟨-, -, -, -, hlx, hxr, -⟩ := inOrder_split.mp ho
        rcases mem_covered_split.mp hmem with ⟨y, hy, hya⟩ | hxa | ⟨z, hz, hza⟩
        · have h1 := hlx y hy
          unfold LmbProperty.Covers LmbProperty.Apart at *
          lia
        · exact absurd hxa.2 (lt_irrefl _)
        · have h1 := hxr z hz
          unfold LmbProperty.Covers LmbProperty.Apart at *
          lia
      · have hxa : x.Covers base := ⟨hb.le, by lia⟩
        have hmem : base ∈ covered (l ++ ⟨x.base, base - x.base⟩ :: r) := by
          rw [hsame, mem_covered_split]
          exact .inr (.inl hxa)
        obtain ⟨hnl, hnr⟩ := inOrder_others ho hxa
        rcases mem_covered_split.mp hmem with hl | hx | hr
        · exact hnl hl
        · have h1 := hx.2
          unfold LmbProperty.stop at h1
          simp only at h1
          lia
        · exact hnr hr
    · intro hbase
      obtain ⟨b, s⟩ := x
      simp only at hb hxstop hbase ⊢
      rw [show base - b = s by lia]

end Cases

section One

variable {abi : Abi} {rgn : LmbRegion} {base size : ℕ}

theorem Tracks.self {S : Set ℕ} (h : Tracks abi rgn S) : Tracks abi rgn (covered rgn.entries) :=
  ⟨h.table, fun _ => Iff.rfl, h.bound⟩

theorem wraps_not_covered (hf : ∀ y, y ∈ rgn.entries → y.Fits abi) (hbase : base < 2 ^ abi.physBits)
    (hw : 2 ^ abi.physBits ≤ base + size) : ¬ Set.Ico base (base + size) ⊆ covered rgn.entries := by
  intro hsub
  obtain ⟨y, hy, -, hlt⟩ := hsub (show 2 ^ abi.physBits - 1 ∈ _ from ⟨by lia, by lia⟩)
  have hfit : y.stop < 2 ^ abi.physBits := hf y hy
  lia

theorem free_short (ho : InOrder abi rgn.entries) (hc : rgn.cnt ≤ maxLmbRegions)
    (hw : base + size < 2 ^ abi.physBits) {i : ℕ}
    (hfind : findHolder abi rgn base (abi.add base size) rgn.cnt 0 = some i) :
    ∃ ret rgn', freeRegion abi rgn base size = some (ret, rgn') ∧ rgn'.cnt ≤ maxLmbRegions ∧
      (ret < 0 ↔ rgn.cnt = maxLmbRegions ∧ 0 < size ∧ (rgn.region i).base < base ∧
        base + size < (rgn.region i).stop) ∧
      (ret < 0 → covered rgn'.entries ≠ covered rgn.entries) ∧
      (0 ≤ ret → InOrder abi rgn'.entries ∧ Set.Ico base (base + size) ⊆ covered rgn.entries ∧
        covered rgn'.entries = covered rgn.entries \ Set.Ico base (base + size)) := by
  have hadd : abi.add base size = base + size := abi.add_of_lt hw
  obtain ⟨l, r, he, rfl, hb, hs, hl⟩ := holder_split ho.fits hfind
  obtain ⟨ret, rgn', hfree, hfreed⟩ := freeRegion_held he hc ho.fits (by lia) hfind hb hs
  rw [hadd] at hfreed hs hl
  have hcnt := freed_cnt he hc hfreed
  have hfails := freed_fails_iff ho he hc hl hfreed
  refine ⟨ret, rgn', hfree, hcnt, hfails, fun hret hsame => ?_, fun hret => ?_⟩
  · have hbase := (freed_wrapped ho he hfreed hret).mp hsame
    obtain ⟨-, hsize, -, -⟩ := hfails.mp hret
    lia
  · obtain ⟨hord, hcov⟩ := freed_inOrder he ho (show _ ≤ (LmbProperty.mk base size).base from hb)
      hs hfreed hret
    refine ⟨hord, fun a ha => ?_, Set.ext fun a => (hcov a).trans Iff.rfl⟩
    rw [he, mem_covered_split]
    exact .inr (.inl ⟨hb.trans ha.1, ha.2.trans_le hs⟩)

theorem free_wrapped (ho : InOrder abi rgn.entries) (hc : rgn.cnt ≤ maxLmbRegions)
    (hbase : base < 2 ^ abi.physBits) (hsize : size < 2 ^ abi.physBits)
    (hw : 2 ^ abi.physBits ≤ base + size) {i : ℕ}
    (hfind : findHolder abi rgn base (abi.add base size) rgn.cnt 0 = some i) :
    ∃ ret rgn', freeRegion abi rgn base size = some (ret, rgn') ∧ rgn'.cnt ≤ maxLmbRegions ∧
      (ret < 0 ∧ covered rgn'.entries = covered rgn.entries ↔ rgn.cnt = maxLmbRegions ∧
        base = (rgn.region i).stop ∧ abi.add base size ≠ (rgn.region i).base) ∧
      (ret < 0 → covered rgn'.entries = covered rgn.entries → rgn'.entries = rgn.entries) := by
  have hadd : abi.add base size < base := by
    have he : base + size = (base + size - 2 ^ abi.physBits) + 2 ^ abi.physBits := by lia
    rw [Abi.add, he, Nat.add_mod_right, Nat.mod_eq_of_lt (by lia)]
    lia
  obtain ⟨l, r, he, rfl, hb, hs, hl⟩ := holder_split ho.fits hfind
  obtain ⟨ret, rgn', hfree, hfreed⟩ := freeRegion_held he hc ho.fits hbase hfind hb hs
  have hxp : 0 < (rgn.region l.length).size := ho.pos _ (by simp [he])
  have hxstop : (rgn.region l.length).stop =
    (rgn.region l.length).base + (rgn.region l.length).size := rfl
  refine ⟨ret, rgn', hfree, freed_cnt he hc hfreed, ⟨?_, ?_⟩, ?_⟩
  · rintro ⟨hret, hsame⟩
    have hend := (freed_wrapped ho he hfreed hret).mp hsame
    cases hfreed with
    | whole => exact absurd hret (lt_irrefl 0)
    | front => exact absurd hret (lt_irrefl 0)
    | back => exact absurd hret (lt_irrefl 0)
    | middle _ _ hb' hs' hrun _ =>
      obtain ⟨hfull, -, hne⟩ := split_refused ho he hc hb' hbase hs' hrun hret
      exact ⟨hfull, hend, hne hend⟩
  · rintro ⟨hfull, hend, hne⟩
    have hret : ret < 0 := by
      cases hfreed with
      | whole => lia
      | front => lia
      | back => lia
      | middle _ _ hb' hs' _ hadded =>
        have ho' := ho
        rw [he] at ho'
        have hlx := (inOrder_split.mp ho').2.2.2.2.1
        refine split_full ho' hadded hs' (fun y hy => ?_) hadd.ne' hne ?_
        · have h1 := hlx y hy
          unfold LmbProperty.Apart LmbProperty.stop at h1
          exact hl y hy (by lia)
        · rw [← he, entries_length, hfull]
    exact ⟨hret, (freed_wrapped ho he hfreed hret).mpr hend⟩
  · intro hret hsame
    have hend := (freed_wrapped ho he hfreed hret).mp hsame
    cases hfreed with
    | whole => exact absurd hret (lt_irrefl 0)
    | front => exact absurd hret (lt_irrefl 0)
    | back => exact absurd hret (lt_irrefl 0)
    | middle _ _ _ _ _ hadded =>
      rw [added_failed hadded hret, hend, hxstop, Nat.add_sub_cancel_left]
      exact he.symm

theorem free_dummy {x : LmbProperty} (he : rgn.entries = [x]) (hx : x.size = 0) (hf : x.Fits abi)
    (hc : rgn.cnt ≤ maxLmbRegions) (hbase : base < 2 ^ abi.physBits) {i : ℕ}
    (hfind : findHolder abi rgn base (abi.add base size) rgn.cnt 0 = some i) :
    ∃ ret rgn', freeRegion abi rgn base size = some (ret, rgn') ∧ 0 ≤ ret ∧ rgn.cnt ≠ maxLmbRegions ∧
      (base + size < 2 ^ abi.physBits → size = 0 ∧ rgn'.entries = []) := by
  have hfits : ∀ y, y ∈ rgn.entries → y.Fits abi := by
    rw [he]
    simpa using hf
  have hcnt : rgn.cnt = 1 := by
    rw [← entries_length, he, length_singleton]
  have hmax : maxLmbRegions = 8 := rfl
  obtain ⟨l, r, he', rfl, hb, hs, -⟩ := holder_split hfits hfind
  obtain ⟨rfl, hxi, rfl⟩ : l = [] ∧ rgn.region l.length = x ∧ r = [] := by
    rw [he] at he'
    cases l with
    | nil =>
      obtain ⟨h1, h2⟩ := List.cons.inj he'
      exact ⟨rfl, h1.symm, h2.symm⟩
    | cons y l =>
      have hlen := congrArg List.length he'
      simp at hlen
  obtain ⟨ret, rgn', hfree, hfreed⟩ := freeRegion_held he' hc hfits hbase hfind hb hs
  have hxstop : (rgn.region ([] : List LmbProperty).length).stop =
      (rgn.region ([] : List LmbProperty).length).base +
        (rgn.region ([] : List LmbProperty).length).size := rfl
  rw [hxi] at hxstop hb hs hfreed
  refine ⟨ret, rgn', hfree, ?_, by lia, fun hw => ?_⟩
  · cases hfreed with
    | whole => exact le_rfl
    | front => exact le_rfl
    | back => exact le_rfl
    | middle _ _ _ _ _ hadded =>
      by_contra hneg
      have hone := added_refused hadded (by lia)
      rw [nil_append, length_singleton] at hone
      lia
  · rw [abi.add_of_lt hw] at hs hfreed
    have hsize : size = 0 := by lia
    refine ⟨hsize, ?_⟩
    cases hfreed with
    | whole _ _ _ hnil _ => exact hnil
    | front _ hlt => lia
    | back hlt => lia
    | middle _ _ hlt _ => lia

theorem freeOk_found {i : ℕ} (hfind : findHolder abi rgn base (abi.add base size) rgn.cnt 0 = some i) :
    FreeOk abi rgn base size ↔
      if base + size < 2 ^ abi.physBits then
        ¬ (rgn.cnt = maxLmbRegions ∧ 0 < size ∧ (rgn.region i).base < base ∧
          base + size < (rgn.region i).stop)
      else
        rgn.cnt = maxLmbRegions ∧ base = (rgn.region i).stop ∧
          abi.add base size ≠ (rgn.region i).base := by
  refine ⟨fun hall => hall i hfind, fun hi j hj => ?_⟩
  rw [hfind] at hj
  obtain rfl := some.inj hj
  exact hi

theorem freeAtomic_inOrder {i : ℕ} (ho : InOrder abi rgn.entries) (hc : rgn.cnt ≤ maxLmbRegions)
    (hbase : base < 2 ^ abi.physBits) (hsize : size < 2 ^ abi.physBits)
    (hfind : findHolder abi rgn base (abi.add base size) rgn.cnt 0 = some i) :
    FreeAtomic abi rgn base size ↔ FreeOk abi rgn base size := by
  rw [freeOk_found hfind]
  by_cases hw : base + size < 2 ^ abi.physBits
  · rw [if_pos hw]
    obtain ⟨ret, rgn', hfree, -, hfails, hchanged, hfreed⟩ := free_short ho hc hw hfind
    rw [← hfails, not_lt]
    constructor
    · rintro ⟨ret', rgn'', hfree', herr, -⟩
      obtain ⟨rfl, rfl⟩ := Prod.mk.inj (some.inj (hfree.symm.trans hfree'))
      by_contra hneg
      exact hchanged (by lia) (herr (by lia))
    · intro hret
      exact ⟨ret, rgn', hfree, fun hneg => absurd hneg (by lia), fun _ => (hfreed hret).2⟩
  · rw [if_neg hw]
    obtain ⟨ret, rgn', hfree, -, hiff, -⟩ := free_wrapped ho hc hbase hsize (by lia) hfind
    rw [← hiff]
    constructor
    · rintro ⟨ret', rgn'', hfree', herr, hfreed⟩
      obtain ⟨rfl, rfl⟩ := Prod.mk.inj (some.inj (hfree.symm.trans hfree'))
      have hret : ret < 0 := by
        by_contra hge
        exact wraps_not_covered ho.fits hbase (by lia) (hfreed (by lia)).1
      exact ⟨hret, herr hret⟩
    · rintro ⟨hret, hsame⟩
      exact ⟨ret, rgn', hfree, fun _ => hsame, fun hge => absurd hret (by lia)⟩

theorem freeAtomic_dummy {i : ℕ} {x : LmbProperty} (he : rgn.entries = [x]) (hx : x.size = 0)
    (hf : x.Fits abi) (hc : rgn.cnt ≤ maxLmbRegions) (hbase : base < 2 ^ abi.physBits)
    (hfind : findHolder abi rgn base (abi.add base size) rgn.cnt 0 = some i) :
    FreeAtomic abi rgn base size ↔ FreeOk abi rgn base size := by
  obtain ⟨ret, rgn', hfree, hret, hfull, hshort⟩ := free_dummy he hx hf hc hbase hfind
  have hfits : ∀ y, y ∈ rgn.entries → y.Fits abi := by
    rw [he]
    simpa using hf
  have hempty : covered rgn.entries = ∅ := by
    refine Set.eq_empty_of_forall_notMem ?_
    rintro a ⟨y, hy, hcov⟩
    rw [he, mem_singleton] at hy
    subst hy
    unfold LmbProperty.Covers LmbProperty.stop at hcov
    lia
  rw [freeOk_found hfind]
  by_cases hw : base + size < 2 ^ abi.physBits
  · rw [if_pos hw]
    obtain ⟨rfl, hnil⟩ := hshort hw
    refine iff_of_true ⟨ret, rgn', hfree, fun hneg => absurd hneg (by lia), fun _ => ?_⟩
      fun hcond => hfull hcond.1
    rw [hempty, hnil, Nat.add_zero, Set.Ico_self]
    exact ⟨Set.empty_subset _, by simp [covered]⟩
  · rw [if_neg hw]
    refine iff_of_false ?_ fun hcond => hfull hcond.1
    rintro ⟨ret', rgn'', hfree', -, hfreed⟩
    obtain ⟨rfl, rfl⟩ := Prod.mk.inj (some.inj (hfree.symm.trans hfree'))
    exact wraps_not_covered hfits hbase (by lia) (hfreed hret).1

theorem freeAtomic_iff (h : Tracks abi rgn (covered rgn.entries)) (hbase : base < 2 ^ abi.physBits)
    (hsize : size < 2 ^ abi.physBits) : FreeAtomic abi rgn base size ↔ FreeOk abi rgn base size := by
  cases hfind : findHolder abi rgn base (abi.add base size) rgn.cnt 0 with
  | none =>
    have hfree : freeRegion abi rgn base size = some (-1, rgn) := by
      simp only [freeRegion, hfind]
    refine iff_of_true ⟨-1, rgn, hfree, fun _ => rfl, fun hret => absurd hret (by decide)⟩ ?_
    intro i hi
    rw [hfind] at hi
    cases hi
  | some i =>
    rcases h.table with ho | ⟨x, he, hx, hf⟩
    · exact freeAtomic_inOrder ho h.bound hbase hsize hfind
    · exact freeAtomic_dummy he hx hf h.bound hbase hfind

theorem tracks_freed (h : Tracks abi rgn (covered rgn.entries)) (hbase : base < 2 ^ abi.physBits)
    (hsize : size < 2 ^ abi.physBits) (hok : FreeOk abi rgn base size) {ret : ℤ} {rgn' : LmbRegion}
    (hfree : freeRegion abi rgn base size = some (ret, rgn')) :
    Tracks abi rgn' (covered rgn'.entries) := by
  cases hfind : findHolder abi rgn base (abi.add base size) rgn.cnt 0 with
  | none =>
    simp only [freeRegion, hfind, some.injEq, Prod.mk.injEq] at hfree
    obtain ⟨-, rfl⟩ := hfree
    exact h
  | some i =>
    have hcond := hok i hfind
    rcases h.table with ho | ⟨x, he, hx, hf⟩
    · by_cases hw : base + size < 2 ^ abi.physBits
      · rw [if_pos hw] at hcond
        obtain ⟨ret', rgn'', hfree', hcnt, hfails, -, hfreed⟩ := free_short ho h.bound hw hfind
        obtain ⟨rfl, rfl⟩ := Prod.mk.inj (some.inj (hfree.symm.trans hfree'))
        have hret : 0 ≤ ret := by
          by_contra hneg
          exact hcond (hfails.mp (by lia))
        exact ⟨.inl (hfreed hret).1, fun _ => Iff.rfl, hcnt⟩
      · rw [if_neg hw] at hcond
        obtain ⟨ret', rgn'', hfree', hcnt, hiff, hsame⟩ :=
          free_wrapped ho h.bound hbase hsize (by lia) hfind
        obtain ⟨rfl, rfl⟩ := Prod.mk.inj (some.inj (hfree.symm.trans hfree'))
        obtain ⟨hret, hcov⟩ := hiff.mpr hcond
        refine ⟨.inl ?_, fun _ => Iff.rfl, hcnt⟩
        rw [hsame hret hcov]
        exact ho
    · obtain ⟨ret', rgn'', hfree', -, hfull, hshort⟩ := free_dummy he hx hf h.bound hbase hfind
      obtain ⟨rfl, rfl⟩ := Prod.mk.inj (some.inj (hfree.symm.trans hfree'))
      by_cases hw : base + size < 2 ^ abi.physBits
      · obtain ⟨-, hnil⟩ := hshort hw
        refine ⟨.inl ?_, fun _ => Iff.rfl, ?_⟩
        · rw [hnil]
          exact ⟨by simp, by simp, .nil⟩
        · rw [← entries_length, hnil]
          decide
      · rw [if_neg hw] at hcond
        exact absurd hcond.1 hfull

end One

section Runs

variable (abi : Abi)

/- A range that may be added: not empty, ending below the top, and clear of what is reserved; a
table without entries holds no stale one in its way. -/
def Fresh (rgn : LmbRegion) (base size : ℕ) : Prop :=
  0 < size ∧ base + size < 2 ^ abi.physBits ∧
    (∀ a, base ≤ a → a < base + size → a ∉ covered rgn.entries) ∧
    (0 < rgn.cnt ∨ StaleOk abi rgn base size)

/- The calls after which a free can be judged by its own arguments: what is added is fresh, and the
frees before met the condition themselves. -/
def OrderlyCall (lmb : LmbState) : Call → Prop
  | .add _ _ => True
  | .reserve base size => Fresh abi lmb.reserved base size
  | .alloc size align maxAddr =>
    ∀ b, searchRegions abi lmb size align maxAddr lmb.memory.cnt = some (some b) →
      Fresh abi lmb.reserved b (lmbAlignUp abi size align)
  | .free base size => FreeOk abi lmb.reserved base size

variable {abi}

theorem tracks_fresh {rgn rgn' : LmbRegion} {base size : ℕ} {ret : ℤ}
    (h : Tracks abi rgn (covered rgn.entries)) (hfresh : Fresh abi rgn base size)
    (hadd : lmbAddRegion abi rgn base size = some (ret, rgn')) :
    Tracks abi rgn' (covered rgn'.entries) := by
  obtain ⟨hsize, hw, hclear, hstale⟩ := hfresh
  have hd : ∀ a, LmbProperty.Covers ⟨base, size⟩ a → a ∉ covered rgn.entries :=
    fun a ha => hclear a ha.1 ha.2
  by_cases hret : 0 ≤ ret
  · exact (tracks_add ⟨base, size⟩ h hsize hw hd hstale hadd hret).self
  · rcases Nat.eq_zero_or_pos rgn.cnt with hc | hc
    · obtain ⟨rgn₁, hadd₁, -⟩ := lmbAddRegion_empty hc (hstale.resolve_left (by lia))
      obtain ⟨rfl, -⟩ := Prod.mk.inj (some.inj (hadd.symm.trans hadd₁))
      exact absurd le_rfl hret
    · obtain ⟨ret₁, rgn₁, hadd₁, hadded⟩ :=
        @lmbAddRegion_added abi rgn ⟨base, size⟩ hc h.bound hw (tracks_fits h)
      obtain ⟨rfl, rfl⟩ := Prod.mk.inj (some.inj (hadd.symm.trans hadd₁))
      have hsame : rgn'.entries = rgn.entries := added_failed hadded (by lia)
      refine ⟨?_, fun _ => Iff.rfl, ?_⟩
      · rw [hsame]
        exact h.table
      · rw [← entries_length, hsame, entries_length]
        exact h.bound

theorem tracks_reached {lmb : LmbState} (h : Reached abi (OrderlyCall abi) lmb) :
    Tracks abi lmb.reserved (covered lmb.reserved.entries) := by
  induction h with
  | init lmb _ _ => exact (tracks_init abi lmb.reserved).self
  | @call lmb lmb' c _ ht hok hrun ih =>
    cases c with
    | add base size =>
      obtain ⟨_, hadd, rfl⟩ := map_eq_some_iff.mp hrun
      obtain ⟨r, -, rfl⟩ := map_eq_some_iff.mp hadd
      exact ih
    | reserve base size =>
      obtain ⟨_, hadd, rfl⟩ := map_eq_some_iff.mp hrun
      obtain ⟨r, hr, rfl⟩ := map_eq_some_iff.mp hadd
      exact tracks_fresh ih hok hr
    | alloc size align maxAddr =>
      obtain ⟨⟨b, lmb₁⟩, halloc, rfl⟩ := map_eq_some_iff.mp hrun
      rw [lmbAllocBase, allocFrom_search] at halloc
      obtain ⟨found, hfound, htake⟩ := bind_eq_some_iff.mp halloc
      cases found with
      | none =>
        obtain ⟨-, rfl⟩ := Prod.mk.inj (some.inj htake)
        exact ih
      | some base =>
        have hfresh := hok base hfound
        unfold takeBase at htake
        simp only at htake
        split at htake
        · cases htake
        next ret reserved hadd =>
          have htracks := tracks_fresh ih hfresh hadd
          split at htake
          · obtain ⟨-, rfl⟩ := Prod.mk.inj (some.inj htake)
            exact htracks
          · obtain ⟨-, rfl⟩ := Prod.mk.inj (some.inj htake)
            exact htracks
    | free base size =>
      obtain ⟨_, hfree, rfl⟩ := map_eq_some_iff.mp hrun
      obtain ⟨r, hr, rfl⟩ := map_eq_some_iff.mp hfree
      exact tracks_freed ih ht.1 ht.2 hok hr

end Runs

/-- In every state that orderly calls reach, a free is all or nothing exactly when it is not taken
from the middle of an entry in a full table, and its range does not wrap past an entry. -/
theorem free_atomic_iff (abi : Abi) (lmb : LmbState) (h : Reached abi (OrderlyCall abi) lmb)
    (base size : ℕ) (hbase : base < 2 ^ abi.physBits) (hsize : size < 2 ^ abi.physBits) :
    FreeAtomic abi lmb.reserved base size ↔ FreeOk abi lmb.reserved base size :=
  freeAtomic_iff (tracks_reached h) hbase hsize

/- A page out of the middle of the only reservation. -/
theorem free_atomic_split : ∃ lmb, Reached arm32 (OrderlyCall arm32) lmb ∧
    FreeAtomic arm32 lmb.reserved 0x80002000 0x1000 := by
  have h0 : Reached arm32 (OrderlyCall arm32) (lmbInit zeroLmb) :=
    .init zeroLmb (zeroLmb_typed arm32).1 (zeroLmb_typed arm32).2
  have hfresh : Fresh arm32 (lmbInit zeroLmb).reserved 0x80001000 0x3000 := by
    refine ⟨by decide, by decide, ?_, .inl (by decide)⟩
    rintro a - - ⟨x, hx, hcov⟩
    obtain rfl : x = ⟨0, 0⟩ := mem_singleton.mp hx
    exact absurd hcov.2 (Nat.not_lt_zero a)
  have h1 := h0.call (c := .reserve 0x80001000 0x3000) ⟨by decide, by decide⟩ hfresh rfl
  exact ⟨_, h1, (free_atomic_iff arm32 _ h1 0x80002000 0x1000 (by decide) (by decide)).mpr (by decide)⟩

/- Eight reservations with gaps; a page from the middle of the first one is to be freed. The call
fails, and the page and what is behind it are not reserved any more. -/
theorem free_loses_tail : ∃ lmb, Reached arm32 (fun _ _ => True) lmb ∧
    ¬ FreeAtomic arm32 lmb.reserved 0x80002000 0x1000 := by
  have h0 : Reached arm32 (fun _ _ => True) (lmbInit zeroLmb) :=
    .init zeroLmb (zeroLmb_typed arm32).1 (zeroLmb_typed arm32).2
  have h1 := h0.call (c := .reserve 0x80001000 0x3000) ⟨by decide, by decide⟩ trivial rfl
  have h2 := h1.call (c := .reserve 0x80010000 0x1000) ⟨by decide, by decide⟩ trivial rfl
  have h3 := h2.call (c := .reserve 0x80020000 0x1000) ⟨by decide, by decide⟩ trivial rfl
  have h4 := h3.call (c := .reserve 0x80030000 0x1000) ⟨by decide, by decide⟩ trivial rfl
  have h5 := h4.call (c := .reserve 0x80040000 0x1000) ⟨by decide, by decide⟩ trivial rfl
  have h6 := h5.call (c := .reserve 0x80050000 0x1000) ⟨by decide, by decide⟩ trivial rfl
  have h7 := h6.call (c := .reserve 0x80060000 0x1000) ⟨by decide, by decide⟩ trivial rfl
  have h8 := h7.call (c := .reserve 0x80070000 0x1000) ⟨by decide, by decide⟩ trivial rfl
  refine ⟨_, h8, ?_⟩
  rintro ⟨ret, rgn', hfree, herr, -⟩
  obtain ⟨rfl, rfl⟩ : (-1 : ℤ) = ret ∧ _ = rgn' := Prod.mk.inj (some.inj hfree)
  have hmem := (herr (by decide)).ge (show 0x80003000 ∈ _ from ⟨⟨0x80001000, 0x3000⟩, by decide, by decide⟩)
  revert hmem
  rintro ⟨x, hx, hcov⟩
  revert x
  decide

end UBoot.Lmb
