import UBoot.Env.Hashtable

/-!
# The search in the hash table

`WellFormed` says how a table made by creates, overwrites and deletes looks. In such a table the
search of `hsearch_r` finds exactly the live keys.
-/

namespace UBoot.Env

open Probe

variable {Callback : Type}

/- The slot of probe `j` for a key. -/
def slotAt (htab : Htab Callback) (key : Str) (j : ℕ) : ℕ :=
  probe htab.size (secondHash htab.size (firstHash htab.size key)) (firstHash htab.size key) j

/- The slot at `i` holds the key. -/
def Holds (htab : Htab Callback) (i : ℕ) (key : Str) : Prop :=
  (1 ≤ i ∧ i ≤ htab.size) ∧ 0 < (htab.table i).used ∧ (htab.table i).key = some key

instance (htab : Htab Callback) (i : ℕ) (key : Str) : Decidable (Holds htab i key) :=
  inferInstanceAs (Decidable (_ ∧ _ ∧ _))

/- The slot at `i` was used at some time. -/
def Touched (htab : Htab Callback) (i : ℕ) : Prop := (htab.table i).used ≠ 0

def liveSlots (htab : Htab Callback) : Finset ℕ :=
  (Finset.Icc 1 htab.size).filter fun i => 0 < (htab.table i).used

structure WellFormed (htab : Htab Callback) : Prop where
  prime : htab.size.Prime
  large : 5 ≤ htab.size
  used : ∀ i, 1 ≤ i → i ≤ htab.size → 0 < (htab.table i).used →
    ∃ key data, (htab.table i).key = some key ∧ (htab.table i).data = some data ∧
      (htab.table i).used = firstHash htab.size key
  unique : ∀ i j key, Holds htab i key → Holds htab j key → i = j
  reach : ∀ i key, Holds htab i key →
    ∃ n < htab.size, slotAt htab key n = i ∧ ∀ j < n, Touched htab (slotAt htab key j)
  count : htab.filled = (liveSlots htab).card
  sign : ∀ i, 1 ≤ i → i ≤ htab.size → -1 ≤ (htab.table i).used

section Hash

variable {size : ℕ}

theorem firstHash_mem (h : 5 ≤ size) (key : Str) :
    1 ≤ firstHash size key ∧ firstHash size key < size := by
  have hlt := Nat.mod_lt (hashValue key) (show 0 < size by lia)
  unfold firstHash
  split_ifs with h0
  · lia
  · lia

theorem secondHash_mem (h : 5 ≤ size) (hval : ℕ) :
    0 < secondHash size hval ∧ secondHash size hval < size := by
  have hlt := Nat.mod_lt hval (show 0 < size - 2 by lia)
  unfold secondHash
  lia

theorem secondHash_coprime (hp : size.Prime) (h : 5 ≤ size) (hval : ℕ) :
    Nat.Coprime size (secondHash size hval) := by
  obtain ⟨hpos, hlt⟩ := secondHash_mem h hval
  rw [Nat.Prime.coprime_iff_not_dvd hp]
  intro hd
  have hle := Nat.le_of_dvd hpos hd
  lia

end Hash

section Slots

variable {htab : Htab Callback} (hp : htab.size.Prime) (h5 : 5 ≤ htab.size)

include h5 in
theorem slotAt_mem (key : Str) (j : ℕ) : 1 ≤ slotAt htab key j ∧ slotAt htab key j ≤ htab.size := by
  obtain ⟨hpos, hlt⟩ := secondHash_mem h5 (firstHash htab.size key)
  obtain ⟨h1, h2⟩ := firstHash_mem h5 key
  exact probe_mem hpos hlt ⟨h1, by lia⟩ j

include hp h5 in
theorem slotAt_surjective (key : Str) {i : ℕ} (hi : 1 ≤ i ∧ i ≤ htab.size) :
    ∃ k < htab.size, slotAt htab key k = i := by
  obtain ⟨hpos, hlt⟩ := secondHash_mem h5 (firstHash htab.size key)
  obtain ⟨h1, h2⟩ := firstHash_mem h5 key
  exact probe_surjective hpos hlt (secondHash_coprime hp h5 _) ⟨h1, by lia⟩ hi

include h5 in
theorem slotAt_size (key : Str) : slotAt htab key htab.size = firstHash htab.size key := by
  obtain ⟨hpos, hlt⟩ := secondHash_mem h5 (firstHash htab.size key)
  obtain ⟨h1, h2⟩ := firstHash_mem h5 key
  exact probe_size hpos hlt ⟨h1, by lia⟩

include hp h5 in
theorem slotAt_ne_first (key : Str) {k : ℕ} (hk : k + 1 < htab.size) :
    slotAt htab key (k + 1) ≠ firstHash htab.size key :=
  probe_ne_start (secondHash_mem h5 _).2 (secondHash_coprime hp h5 _) hk

end Slots

def Passed (htab : Htab Callback) (key : Str) (i : ℕ) : Prop :=
  Touched htab i ∧ ¬((htab.table i).used = firstHash htab.size key ∧ (htab.table i).key = some key)

def Ends (htab : Htab Callback) (key : Str) : Found → Prop
  | .entry i => ∃ n < htab.size, slotAt htab key n = i ∧ Touched htab i ∧
      (htab.table i).used = firstHash htab.size key ∧ (htab.table i).key = some key
  | .place i => ∃ n ≤ htab.size, slotAt htab key n = i ∧
      (∀ j < n, Passed htab key (slotAt htab key j)) ∧ (n < htab.size → ¬Touched htab i)

def Keyed (htab : Htab Callback) : Prop :=
  ∀ i, 1 ≤ i → i ≤ htab.size → 0 < (htab.table i).used → ∃ key, (htab.table i).key = some key

section Loop

variable {htab : Htab Callback} (hp : htab.size.Prime) (h5 : 5 ≤ htab.size) (hk : Keyed htab)

include h5 hk in
theorem sameKey_cases (key : Str) {i : ℕ} (hi : 1 ≤ i ∧ i ≤ htab.size) :
    (sameKey htab key (firstHash htab.size key) i = some true ∧
      (htab.table i).used = firstHash htab.size key ∧ (htab.table i).key = some key) ∨
    (sameKey htab key (firstHash htab.size key) i = some false ∧
      ¬((htab.table i).used = firstHash htab.size key ∧ (htab.table i).key = some key)) := by
  unfold sameKey
  by_cases hu : (htab.table i).used = firstHash htab.size key
  · have hpos := (firstHash_mem h5 key).1
    obtain ⟨k, hkey⟩ := hk i hi.1 hi.2 (by lia)
    rw [if_pos hu, hkey]
    by_cases he : k = key
    · left
      simp [he, hu]
    · right
      simp [he]
  · right
    rw [if_neg hu]
    exact ⟨rfl, fun h => hu h.1⟩

include hp h5 hk in
theorem probeLoop_ends (key : Str) (fuel k : ℕ) (hks : k < htab.size) (hf : htab.size ≤ k + fuel)
    (hpass : ∀ j ≤ k, Passed htab key (slotAt htab key j)) :
    ∃ f, probeLoop htab key (firstHash htab.size key) fuel (slotAt htab key k) = some f ∧
      Ends htab key f := by
  induction fuel generalizing k with
  | zero => lia
  | succ fuel ih =>
    have hnext : next htab.size (secondHash htab.size (firstHash htab.size key))
        (slotAt htab key k) = slotAt htab key (k + 1) := rfl
    have hpass' : ∀ j < k + 1, Passed htab key (slotAt htab key j) := fun j hj => hpass j (by lia)
    simp only [probeLoop, hnext]
    rcases Nat.lt_or_ge (k + 1) htab.size with hlt | hge
    · rw [if_neg (slotAt_ne_first hp h5 key hlt)]
      rcases sameKey_cases h5 hk key (slotAt_mem h5 key (k + 1)) with ⟨hs, hu, hkey⟩ | ⟨hs, hno⟩
      · have hpos := (firstHash_mem h5 key).1
        refine ⟨.entry (slotAt htab key (k + 1)), by simp only [hs], k + 1, hlt, rfl, ?_, hu, hkey⟩
        unfold Touched
        lia
      · simp only [hs]
        by_cases ht : (htab.table (slotAt htab key (k + 1))).used = 0
        · refine ⟨.place (slotAt htab key (k + 1)), by simp [ht], k + 1, hlt.le, rfl, hpass', ?_⟩
          exact fun _ hc => hc ht
        · rw [if_pos ht]
          refine ih (k + 1) hlt (by lia) fun j hj => ?_
          rcases Nat.lt_or_ge j (k + 1) with hj' | hj'
          · exact hpass' j hj'
          · obtain rfl : j = k + 1 := by lia
            exact ⟨ht, hno⟩
    · -- all slots were visited
      have hend : k + 1 = htab.size := by lia
      have hfirst : slotAt htab key (k + 1) = firstHash htab.size key := by
        rw [hend]
        exact slotAt_size h5 key
      rw [if_pos hfirst]
      exact ⟨_, rfl, k + 1, hend.le, rfl, hpass', by lia⟩

include hp h5 hk in
/-- The search always ends, at the entry of the key or at the place for it. -/
theorem probeFor_ends (key : Str) : ∃ f, probeFor htab key = some f ∧ Ends htab key f := by
  have hfirst : slotAt htab key 0 = firstHash htab.size key := rfl
  have hmem := slotAt_mem h5 key 0
  rw [hfirst] at hmem
  simp only [probeFor]
  by_cases ht : (htab.table (firstHash htab.size key)).used = 0
  · rw [if_neg (by simp [ht])]
    exact ⟨_, rfl, 0, by lia, rfl, by lia, fun _ hc => hc ht⟩
  · rw [if_pos ht]
    rcases sameKey_cases h5 hk key hmem with ⟨hs, hu, hkey⟩ | ⟨hs, hno⟩
    · exact ⟨.entry (firstHash htab.size key), by simp only [hs], 0, by lia, rfl, ht, hu, hkey⟩
    · simp only [hs]
      refine probeLoop_ends hp h5 hk key htab.size 0 (by lia) (by lia) fun j hj => ?_
      obtain rfl : j = 0 := by lia
      exact ⟨ht, hno⟩

end Loop

section Lookup

variable {htab : Htab Callback} (hw : WellFormed htab)

include hw

theorem WellFormed.keyed : Keyed htab := fun i h1 h2 hu => by
  obtain ⟨key, -, hkey, -, -⟩ := hw.used i h1 h2 hu
  exact ⟨key, hkey⟩

theorem holds_used {i : ℕ} {key : Str} (h : Holds htab i key) :
    (htab.table i).used = firstHash htab.size key := by
  obtain ⟨key', -, hkey', -, hu⟩ := hw.used i h.1.1 h.1.2 h.2.1
  obtain rfl : key' = key := Option.some.inj (hkey'.symm.trans h.2.2)
  exact hu

/-- A key in the table is found in its slot. -/
theorem probeFor_present {i : ℕ} {key : Str} (h : Holds htab i key) :
    probeFor htab key = some (.entry i) := by
  obtain ⟨f, hf, hends⟩ := probeFor_ends hw.prime hw.large hw.keyed key
  rw [hf]
  cases f with
  | entry j =>
    obtain ⟨n, hn, hj, -, hu, hkey⟩ := hends
    have hpos := (firstHash_mem hw.large key).1
    have hheld : Holds htab j key := ⟨hj ▸ slotAt_mem hw.large key n, by lia, hkey⟩
    rw [hw.unique j i key hheld h]
  | place j =>
    exfalso
    obtain ⟨n, hn, hj, hpass, hfree⟩ := hends
    obtain ⟨m, hm, hi, hreach⟩ := hw.reach i key h
    rcases Nat.lt_or_ge m n with hmn | hmn
    · -- the search would have stopped at the entry
      have hno := (hpass m hmn).2
      rw [hi] at hno
      exact hno ⟨holds_used hw h, h.2.2⟩
    · -- the place is in front of the entry, where no slot is free
      rcases Nat.lt_or_ge n m with hnm | hnm
      · have ht := hreach n hnm
        rw [hj] at ht
        exact hfree (by lia) ht
      · obtain rfl : n = m := by lia
        refine hfree hm ?_
        rw [← hj, hi]
        have hpos := h.2.1
        unfold Touched
        lia

/-- For a key that is not in the table the search ends at the first slot of its probe
sequence that was never used, or back at the first slot when there is none. -/
theorem probeFor_absent {key : Str} (h : ∀ i, ¬Holds htab i key) :
    ∃ i n, probeFor htab key = some (.place i) ∧ slotAt htab key n = i ∧
      (∀ j < n, Touched htab (slotAt htab key j)) ∧
      ((n < htab.size ∧ ¬Touched htab i) ∨ (n = htab.size ∧ i = firstHash htab.size key)) := by
  obtain ⟨f, hf, hends⟩ := probeFor_ends hw.prime hw.large hw.keyed key
  cases f with
  | entry j =>
    exfalso
    obtain ⟨n, hn, hj, -, hu, hkey⟩ := hends
    have hpos := (firstHash_mem hw.large key).1
    exact h j ⟨hj ▸ slotAt_mem hw.large key n, by lia, hkey⟩
  | place j =>
    obtain ⟨n, hn, hj, hpass, hfree⟩ := hends
    refine ⟨j, n, hf, hj, fun k hk => (hpass k hk).1, ?_⟩
    rcases Nat.lt_or_ge n htab.size with hlt | hge
    · exact .inl ⟨hlt, hfree hlt⟩
    · have hn' : n = htab.size := by lia
      refine .inr ⟨hn', ?_⟩
      rw [← hj, hn']
      exact slotAt_size hw.large key

end Lookup

/-- The table of `hcreate_r` has as many slots as the smallest prime not below `nel`, and from each
first index the probes of `hsearch_r` go through all of them before they are back. -/
theorem hcreateR_probes (Callback : Type) {nel : ℕ} (h4 : 4 ≤ nel) (hmax : nel < 2 ^ 16) :
    ∃ htab, hcreateR Callback nel = some htab ∧
      (htab.size.Prime ∧ htab.size % 2 = 1 ∧ nel ≤ htab.size ∧
        ∀ q, q.Prime → nel ≤ q → htab.size ≤ q) ∧
      ∀ hval, 1 ≤ hval → hval < htab.size →
        (∀ i, 1 ≤ i → i ≤ htab.size →
          ∃! k, k < htab.size ∧ probe htab.size (secondHash htab.size hval) hval k = i) ∧
        probe htab.size (secondHash htab.size hval) hval htab.size = hval := by
  obtain ⟨htab, hcreate, hprime, h5, hnel, hleast⟩ := hcreateR_size Callback nel h4 (by lia)
  have hodd := hprime.eq_two_or_odd.resolve_left (by lia)
  refine ⟨htab, hcreate, ⟨hprime, hodd, hnel, hleast⟩, fun hval h1 hlt => ?_⟩
  obtain ⟨hpos, hstep⟩ := secondHash_mem h5 hval
  have hcoprime := secondHash_coprime hprime h5 hval
  refine ⟨fun i hi1 hi => ?_, probe_size hpos hstep ⟨h1, hlt.le⟩⟩
  obtain ⟨k, hk, hki⟩ := probe_surjective hpos hstep hcoprime ⟨h1, hlt.le⟩ ⟨hi1, hi⟩
  refine ⟨k, ⟨hk, hki⟩, fun j hj => ?_⟩
  exact probe_injective hstep hcoprime hj.1 hk (hj.2.trans hki.symm)

theorem hcreateR_probes_four : ∃ htab, hcreateR Unit 4 = some htab ∧ htab.size.Prime := by
  obtain ⟨htab, hcreate, hsize, -⟩ := @hcreateR_probes Unit 4 (by decide) (by decide)
  exact ⟨htab, hcreate, hsize.1⟩

end UBoot.Env
