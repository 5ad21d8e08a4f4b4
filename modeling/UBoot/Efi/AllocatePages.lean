import UBoot.Efi.MemoryMap

/-!
# When efi_allocate_pages is all-or-nothing

`efi_add_memory_map` with `overlap_only_ram` gives up at the first entry that is not conventional
memory, without putting back what it has cut. Lists may hold empty and unaligned descriptors here.
-/

namespace UBoot.Efi.Memory

open List Option
open Lib.ListSort

/-- The entry meets the range and is not conventional memory. -/
def Blocks (c d : MemDesc) : Prop := d.Meets c ∧ d.type ≠ efiConventionalMemory

instance (c d : MemDesc) : Decidable (Blocks c d) := inferInstanceAs (Decidable (_ ∧ _))

/-- The entry is non-empty conventional memory that meets the range. -/
def CutsRam (c d : MemDesc) : Prop :=
  d.Meets c ∧ d.type = efiConventionalMemory ∧ d.physicalStart < d.stop

instance (c d : MemDesc) : Decidable (CutsRam c d) := inferInstanceAs (Decidable (_ ∧ _))

/-- The condition for a request of `pages` pages at `addr`. If the range meets an
entry that is not RAM, the request is refused: `addr` must not be 0, and no RAM
may lie in the range above the highest such entry. Otherwise the range must not
reach the end of the address space. -/
def Granted (m : List MemDesc) (addr pages : ℕ) : Prop :=
  let c := newDesc addr pages 0
  pages = 0 ∨
    if ∃ d ∈ m, Blocks c d then
      addr ≠ 0 ∧ ∀ d ∈ m.takeWhile (fun d => decide (¬Blocks c d)), ¬CutsRam c d
    else addr + pages * efiPageSize < 2 ^ 64

instance (m : List MemDesc) (addr pages : ℕ) : Decidable (Granted m addr pages) := by
  unfold Granted
  infer_instance

/-- The condition for a call: where no address is chosen nothing happens. -/
def RequestOk (gd : Machine) (m : List MemDesc) (type pages memory : ℕ) : Prop :=
  match chooseAddr gd m type pages memory with
  | .error _ => True
  | .ok addr => Granted m addr pages

/-- A call that fails leaves every type as it was; one that succeeds found no page
of its range in use and gave all of them the new type. -/
def SoundOutcome (m : List MemDesc) (memoryType pages : ℕ) (r : Allocated) : Prop :=
  (r.status ≠ .success → ∀ a, typeAt r.efiMem a = typeAt m a) ∧
  (r.status = .success → 0 < pages →
    ∀ a, r.memory ≤ a → a < r.memory + pages * efiPageSize →
      (∀ t, typeAt m a = some t → t = efiConventionalMemory) ∧ typeAt r.efiMem a = some memoryType)

/-- All or nothing: the call returns, with a sound outcome. -/
def AllOrNothing (gd : Machine) (m : List MemDesc) (type memoryType pages memory : ℕ) : Prop :=
  ∃ r, efiAllocatePages gd m type memoryType pages memory = some r ∧
    SoundOutcome m memoryType pages r

variable {m : List MemDesc}

theorem Descending.apart (h : Descending m) : m.Pairwise MemDesc.Apart := h.imp fun hd => .inr hd

theorem typeAt_some_mem {a t : ℕ} (h : typeAt m a = some t) : ∃ d ∈ m, d.Covers a ∧ d.type = t := by
  unfold typeAt at h
  obtain ⟨d, hf, ht⟩ := map_eq_some_iff.mp h
  exact ⟨d, mem_of_find?_eq_some hf, by simpa using find?_some hf, ht⟩

theorem typeAt_of_cover {a t : ℕ} (h : ∃ d ∈ m, d.Covers a)
    (hu : ∀ d ∈ m, d.Covers a → d.type = t) : typeAt m a = some t := by
  obtain ⟨d, hd, hc⟩ := h
  have hs : (m.find? fun e => decide (e.Covers a)).isSome := by
    simp only [find?_isSome, decide_eq_true_eq]
    exact ⟨d, hd, hc⟩
  obtain ⟨e, he⟩ := isSome_iff_exists.mp hs
  have ht := hu e (mem_of_find?_eq_some he) (by simpa using find?_some he)
  simp [typeAt, he, ht]

theorem typeAt_remove_empty (pre post : List MemDesc) (d : MemDesc) (hd : d.stop ≤ d.physicalStart)
    (a : ℕ) : typeAt (pre ++ d :: post) a = typeAt (pre ++ post) a := by
  have hn : ¬d.Covers a := by
    unfold MemDesc.Covers
    lia
  simp [typeAt, find?_append, hn]

/-- The loop between two passes of a request that will be refused at `n`: the
entries before `n` do not block, and lie above it. -/
def Staged (n : MemDesc) (c : MemDesc) (pre : List MemDesc) : Prop :=
  ∀ e ∈ pre, ¬Blocks c e ∧ n.stop ≤ e.physicalStart

variable {c n : MemDesc} {l' post pre : List MemDesc}

/-- While a blocking entry `n` is in the list, only entries before it are cut, and
these are swallowed or moved up. -/
theorem cut_staged (hn : Blocks c n)
    (hpre : Staged n c pre) (h : Cut c true (pre ++ n :: post) l') :
    ∃ p d q, pre = p ++ d :: q ∧ d.Meets c ∧ d.type = efiConventionalMemory ∧
      ((d.stop ≤ c.stop ∧ l' = (p ++ q) ++ n :: post) ∨
        (c.stop < d.stop ∧ l' = (p ++ d.above c.stop :: q) ++ n :: post)) := by
  -- the entry that is cut is found before `n`, because `n` itself meets the range
  have hfind : ∀ p d q, pre ++ n :: post = p ++ d :: q → (∀ e ∈ p, ¬e.Meets c) →
      d.type = efiConventionalMemory → ∃ q', pre = p ++ d :: q' ∧ q = q' ++ n :: post := by
    intro p d q heq hp hd
    rcases append_eq_append_iff.mp heq.symm with ⟨r, h1, h2⟩ | ⟨r, h1, h2⟩
    · cases r with
      | nil =>
        simp only [nil_append, List.cons.injEq] at h2
        exact absurd (h2.1 ▸ hd) hn.2
      | cons x r =>
        simp only [cons_append, List.cons.injEq] at h2
        obtain ⟨rfl, h2⟩ := h2
        exact ⟨r, h1, h2⟩
    · cases r with
      | nil =>
        simp only [nil_append, List.cons.injEq] at h2
        exact absurd (h2.1.symm ▸ hd) hn.2
      | cons x r =>
        simp only [cons_append, List.cons.injEq] at h2
        obtain ⟨rfl, -⟩ := h2
        exact absurd hn.1 (hp n (by simp [h1]))
  generalize hl : pre ++ n :: post = l at h
  cases h with
  | swallow p d q hp hd hram hs he =>
    obtain ⟨q', rfl, rfl⟩ := hfind p d q hl hp (hram rfl)
    exact ⟨p, d, q', rfl, hd, hram rfl, .inl ⟨he, by simp⟩⟩
  | move p d q hp hd hram hs he =>
    obtain ⟨q', rfl, rfl⟩ := hfind p d q hl hp (hram rfl)
    exact ⟨p, d, q', rfl, hd, hram rfl, .inr ⟨he, by simp⟩⟩
  | split p d q hp hd hram hs =>
    obtain ⟨q', rfl, rfl⟩ := hfind p d q hl hp (hram rfl)
    have hab := (hpre d (by simp)).2
    have hcn := hn.1.2
    lia

/-- The whole loop: what follows `n` is untouched, and where no RAM is cut the
types stay. -/
theorem cuts_staged (hn : Blocks c n)
    (hpre : Staged n c pre) (h : Relation.ReflTransGen (Cut c true) (pre ++ n :: post) l') :
    ∃ pre', l' = pre' ++ n :: post ∧ Staged n c pre' ∧
      ((∀ d ∈ pre, ¬CutsRam c d) → (∀ d ∈ pre', ¬CutsRam c d) ∧
        ∀ a, typeAt l' a = typeAt (pre ++ n :: post) a) := by
  induction h with
  | refl => exact ⟨pre, rfl, hpre, fun hq => ⟨hq, fun _ => rfl⟩⟩
  | tail _ hcut ih =>
    obtain ⟨pre₁, rfl, hst, hquiet⟩ := ih
    obtain ⟨p, d, q, rfl, hd, ht, ⟨he, rfl⟩ | ⟨he, rfl⟩⟩ := cut_staged hn hst hcut
    · refine ⟨p ++ q, rfl, fun e hm => hst e ?_, fun hq => ?_⟩
      · simp only [mem_append, mem_cons] at hm ⊢
        tauto
      · obtain ⟨hq1, hty⟩ := hquiet hq
        have hempty : d.stop ≤ d.physicalStart := by
          by_contra hne
          exact hq1 d (by simp) ⟨hd, ht, by lia⟩
        refine ⟨fun e hm => hq1 e ?_, fun a => ?_⟩
        · simp only [mem_append, mem_cons] at hm ⊢
          tauto
        · have hrem := typeAt_remove_empty p (q ++ n :: post) d hempty a
          rw [← hty a]
          simpa using hrem.symm
    · have hab := (hst d (by simp)).2
      have hd1 := hd.1
      refine ⟨_, rfl, fun e hm => ?_, fun hq => ?_⟩
      · simp only [mem_append, mem_cons] at hm
        rcases hm with hm | rfl | hm
        · exact hst e (by simp [hm])
        · exact ⟨fun hb => hb.2 ht, by rw [above_start]; lia⟩
        · exact hst e (by simp [hm])
      · exact absurd ⟨hd, ht, by lia⟩ ((hquiet hq).1 d (by simp))

/-- The first blocking entry splits the list. -/
theorem exists_first_block (h : ∃ d ∈ m, Blocks c d) :
    ∃ pre n post, m = pre ++ n :: post ∧ Blocks c n ∧ (∀ e ∈ pre, ¬Blocks c e) ∧
      m.takeWhile (fun d => decide (¬Blocks c d)) = pre := by
  obtain ⟨d, hd, hb⟩ := h
  induction m with
  | nil => simp at hd
  | cons x m ih =>
    by_cases hx : Blocks c x
    · exact ⟨[], x, m, rfl, hx, by simp, by simp [hx]⟩
    · have hdm : d ∈ m := by
        rcases mem_cons.mp hd with rfl | hd
        · exact absurd hb hx
        · exact hd
      obtain ⟨pre, n, post, rfl, hn, hpre, htw⟩ := ih hdm
      refine ⟨x :: pre, n, post, rfl, hn, forall_mem_cons.mpr ⟨hx, hpre⟩, ?_⟩
      rw [takeWhile_cons, if_pos (by simpa using hx), htw]

theorem newDesc_stop_le (addr pages memoryType : ℕ) :
    (newDesc addr pages memoryType).stop ≤ addr + pages * efiPageSize := by
  have h1 : bytesOf pages ≤ pages * efiPageSize := Nat.mod_le _ _
  have h2 : (newDesc addr pages memoryType).stop ≤ addr + bytesOf pages := Nat.mod_le _ _
  lia

variable {addr pages : ℕ}

theorem newDesc_stop_eq (memoryType : ℕ) (h : addr + pages * efiPageSize < 2 ^ 64) :
    (newDesc addr pages memoryType).stop = addr + pages * efiPageSize := by
  have hb : bytesOf pages = pages * efiPageSize := u64_of_lt (by lia)
  change u64 (addr + bytesOf pages) = _
  rw [hb, u64_of_lt h]

variable {memoryType : ℕ}

/-- What is left of the map when a request is refused: nothing before the blocking
entry meets the range any more. -/
theorem refused_spec (hm : m = pre ++ n :: post) (hdesc : Descending m) (hp : pages ≠ 0)
    (hn : Blocks (newDesc addr pages memoryType) n)
    (hpre : ∀ e ∈ pre, ¬Blocks (newDesc addr pages memoryType) e) :
    ∃ pre', efiAddMemoryMap m addr pages memoryType true = some (0, pre' ++ n :: post) ∧
      (∀ e ∈ pre', ¬e.Meets (newDesc addr pages memoryType)) ∧
      ((∀ d ∈ pre, ¬CutsRam (newDesc addr pages memoryType) d) →
        ∀ a, typeAt (pre' ++ n :: post) a = typeAt m a) := by
  set c := newDesc addr pages memoryType with hc
  have hst : Staged n c pre := by
    intro e he
    have hpw := pairwise_append.mp (hm ▸ hdesc)
    exact ⟨hpre e he, hpw.2.2 e he n (by simp)⟩
  have hw := totalWeight_le c m
  obtain ⟨⟨b, l⟩, hl⟩ := carveLoop_terminates c true (2 * m.length + 1) m (by lia)
  obtain ⟨hrun, hclear, href⟩ := carveLoop_run hl
  rw [hm] at hrun
  obtain ⟨pre', rfl, hst', hquiet⟩ := cuts_staged hn hst hrun
  have hb : b = false := by
    cases b with
    | false => rfl
    | true => exact absurd hn.1 (hclear rfl n (by simp))
  subst hb
  refine ⟨pre', ?_, ?_, fun hq => ?_⟩
  · simp only [efiAddMemoryMap, addMemoryMapFuel, hp, if_false, ← hc, hl]
  · -- the walk stopped at an entry that blocks, so at none before `n`
    obtain ⟨-, p, d, q, heq, hpc, hd, ht⟩ := href rfl
    intro e he hem
    rcases append_eq_append_iff.mp heq with ⟨r, h1, h2⟩ | ⟨r, h1, h2⟩
    · exact hpc e (by simp [h1, he]) hem
    · cases r with
      | nil => exact hpc e (by simpa [h1] using he) hem
      | cons x r =>
        simp only [cons_append, List.cons.injEq] at h2
        obtain ⟨rfl, -⟩ := h2
        exact (hst' d (by simp [h1])).1 ⟨hd, ht⟩
  · rw [hm]
    exact (hquiet hq).2

/-- A refused request at address 0 reports success: `ret == addr` holds although
nothing was reserved. -/
theorem refused_at_zero {pre' : List MemDesc} (hm : m = pre ++ n :: post) (hdesc : Descending m)
    (hp : pages ≠ 0) (hn : Blocks (newDesc 0 pages memoryType) n)
    (hclear : ∀ e ∈ pre', ¬e.Meets (newDesc 0 pages memoryType)) :
    ¬SoundOutcome m memoryType pages ⟨.success, 0, pre' ++ n :: post⟩ := by
  rintro ⟨-, hsucc⟩
  have hns : n.physicalStart < 0 + pages * efiPageSize :=
    hn.1.1.trans_le (newDesc_stop_le 0 pages memoryType)
  obtain ⟨hold, hnew⟩ := hsucc rfl (Nat.pos_of_ne_zero hp) n.physicalStart (Nat.zero_le _) hns
  by_cases hne : n.physicalStart < n.stop
  · have ht := (typeAt_eq_some hdesc.apart n.physicalStart n.type).mpr
      ⟨n, by simp [hm], ⟨le_rfl, hne⟩, rfl⟩
    exact hn.2 (hold _ ht)
  · -- an empty `n` still blocks, but then its address has no type left
    obtain ⟨e, hemem, ⟨h1, h2⟩, -⟩ := typeAt_some_mem hnew
    rcases mem_append.mp hemem with hemem | hemem
    · exact hclear e hemem ⟨h1.trans_lt hn.1.1, Nat.zero_lt_of_lt h2⟩
    · rcases mem_cons.mp hemem with rfl | hemem
      · lia
      · have hpw := pairwise_append.mp (hm ▸ hdesc)
        have h3 := (pairwise_cons.mp hpw.2.1).1 e hemem
        lia

/-- A refused request keeps the types if and only if no RAM lies in its range above
the entry that blocks it. -/
theorem refused_iff {pre' : List MemDesc} (pages memoryType memory : ℕ) (hm : m = pre ++ n :: post)
    (hdesc : Descending m) (hn : Blocks c n) (hclear : ∀ e ∈ pre', ¬e.Meets c)
    (hquiet : (∀ d ∈ pre, ¬CutsRam c d) → ∀ a, typeAt (pre' ++ n :: post) a = typeAt m a) :
    SoundOutcome m memoryType pages ⟨.outOfResources, memory, pre' ++ n :: post⟩ ↔
      ∀ d ∈ pre, ¬CutsRam c d := by
  constructor
  · rintro ⟨hfail, -⟩ d hd hcut
    have hpw := pairwise_append.mp (hm ▸ hdesc)
    have hnd : n.stop ≤ d.physicalStart := hpw.2.2 d hd n (by simp)
    have ht := (typeAt_eq_some hdesc.apart d.physicalStart d.type).mpr
      ⟨d, by simp [hm, hd], ⟨le_rfl, hcut.2.2⟩, rfl⟩
    rw [← hfail (by simp) d.physicalStart] at ht
    -- the first page of `d` is not in the map any more
    obtain ⟨e, hemem, ⟨h1, h2⟩, -⟩ := typeAt_some_mem ht
    rcases mem_append.mp hemem with hemem | hemem
    · exact hclear e hemem ⟨h1.trans_lt hcut.1.1, hn.1.2.trans (hnd.trans_lt h2)⟩
    · rcases mem_cons.mp hemem with rfl | hemem
      · lia
      · have h3 := hpw.2.2 d hd e (by simp [hemem])
        lia
  · intro hq
    exact ⟨fun _ => hquiet hq, by simp⟩

variable {l : List MemDesc}

/-- Cutting RAM only, the loop neither adds nor removes other entries. -/
theorem cut_nonram (h : Cut c true l l') {d : MemDesc}
    (hd : d.type ≠ efiConventionalMemory) : d ∈ l' ↔ d ∈ l := by
  have hne : ∀ e : MemDesc, e.type = efiConventionalMemory → d ≠ e := by
    rintro e he rfl
    exact hd he
  cases h with
  | swallow pre e post hpre he hram hs hst => simp [hne e (hram rfl)]
  | move pre e post hpre he hram hs hst =>
    simp [hne e (hram rfl), hne (e.above c.stop) (hram rfl)]
  | split pre e post hpre he hram hs =>
    simp [hne e (hram rfl), hne (e.below c.physicalStart) (hram rfl),
      hne (e.above c.physicalStart) (hram rfl)]

theorem cuts_nonram (h : Relation.ReflTransGen (Cut c true) l l') {d : MemDesc}
    (hd : d.type ≠ efiConventionalMemory) : d ∈ l' ↔ d ∈ l := by
  induction h with
  | refl => rfl
  | tail _ hcut ih => rw [cut_nonram hcut hd, ih]

theorem granted_spec (hp : pages ≠ 0) (hn : ¬∃ d ∈ m, Blocks (newDesc addr pages memoryType) d) :
    ∃ l, efiAddMemoryMap m addr pages memoryType true =
        some (addr, efiMemSort (l ++ [newDesc addr pages memoryType])) ∧
      ∀ e ∈ l, ¬e.Meets (newDesc addr pages memoryType) := by
  set c := newDesc addr pages memoryType with hc
  have hw := totalWeight_le c m
  obtain ⟨⟨b, l⟩, hl⟩ := carveLoop_terminates c true (2 * m.length + 1) m (by lia)
  obtain ⟨hrun, hclear, href⟩ := carveLoop_run hl
  cases b with
  | false =>
    obtain ⟨-, p, d, q, rfl, -, hd, ht⟩ := href rfl
    exact absurd ⟨d, (cuts_nonram hrun ht).mp (by simp), hd, ht⟩ hn
  | true =>
    refine ⟨l, ?_, hclear rfl⟩
    simp only [efiAddMemoryMap, addMemoryMapFuel, hp, if_false, ← hc, hl]

/-- A request that nothing blocks is carried out in full if and only if its range
ends below the end of the address space. -/
theorem granted_iff (hp : pages ≠ 0)
    (haddr : addr < 2 ^ 64) (hn : ¬∃ d ∈ m, Blocks (newDesc addr pages memoryType) d)
    (hclear : ∀ e ∈ l, ¬e.Meets (newDesc addr pages memoryType)) :
    SoundOutcome m memoryType pages
        ⟨.success, addr, efiMemSort (l ++ [newDesc addr pages memoryType])⟩ ↔
      addr + pages * efiPageSize < 2 ^ 64 := by
  constructor
  · rintro ⟨-, hsucc⟩
    by_contra hwrap
    -- no descriptor covers the last byte of the address space
    obtain ⟨-, hnew⟩ := hsucc rfl (Nat.pos_of_ne_zero hp) (2 ^ 64 - 1)
      (by change addr ≤ _; lia) (by change _ < addr + _; lia)
    obtain ⟨e, -, hec, -⟩ := typeAt_some_mem hnew
    have h1 := stop_lt e
    have h2 := hec.2
    lia
  · intro hfit
    refine ⟨by simp, fun _ _ a ha1 ha2 => ?_⟩
    have hcov : (newDesc addr pages memoryType).Covers a :=
      ⟨ha1, by rw [newDesc_stop_eq memoryType hfit]; exact ha2⟩
    have hmeet : ∀ e : MemDesc, e.Covers a → e.Meets (newDesc addr pages memoryType) :=
      fun e hec => ⟨hec.1.trans_lt hcov.2, hcov.1.trans_lt hec.2⟩
    constructor
    · intro t ht
      obtain ⟨d, hd, hdc, rfl⟩ := typeAt_some_mem ht
      by_contra hne
      exact hn ⟨d, hd, hmeet d hdc, hne⟩
    · have hperm := efiMemSort_perm (l ++ [newDesc addr pages memoryType])
      apply typeAt_of_cover
      · exact ⟨_, hperm.mem_iff.mpr (by simp), hcov⟩
      · intro d hd hdc
        rcases mem_append.mp (hperm.mem_iff.mp hd) with hd | hd
        · exact absurd (hmeet d hdc) (hclear d hd)
        · rw [mem_singleton.mp hd]
          rfl

theorem efiFindFreeMemory_lt (len maxAddr : ℕ) (m : List MemDesc) :
    efiFindFreeMemory len maxAddr m < 2 ^ 64 := by
  induction m with
  | nil => norm_num [efiFindFreeMemory]
  | cons d m ih =>
    rw [efiFindFreeMemory]
    split_ifs
    · exact ih
    · exact ih
    · exact ih
    · exact ih
    · exact u64_lt _

theorem foundAddr_ok {x : ℕ} (h : foundAddr x = .ok addr) : x = addr := by
  unfold foundAddr at h
  split at h
  · cases h
  · exact Except.ok.inj h

theorem foundAddr_error {x : ℕ} {r : Status} (h : foundAddr x = .error r) : r = .notFound := by
  unfold foundAddr at h
  split at h
  · exact (Except.error.inj h).symm
  · cases h

theorem chooseAddr_lt {gd : Machine} {type memory : ℕ} (hmem : memory < 2 ^ 64)
    (h : chooseAddr gd m type pages memory = .ok addr) : addr < 2 ^ 64 := by
  unfold chooseAddr at h
  split at h
  · rw [← foundAddr_ok h]
    exact efiFindFreeMemory_lt _ _ m
  · rw [← foundAddr_ok h]
    exact efiFindFreeMemory_lt _ _ m
  · rw [← Except.ok.inj h]
    exact hmem
  · cases h

theorem chooseAddr_error {gd : Machine} {type memory : ℕ} {r : Status}
    (h : chooseAddr gd m type pages memory = .error r) : r ≠ .success := by
  unfold chooseAddr at h
  split at h
  · simp [foundAddr_error h]
  · simp [foundAddr_error h]
  · cases h
  · simp [← Except.error.inj h]

/-- The overlap tests do not look at the requested type. -/
theorem granted_def (m : List MemDesc) (addr pages memoryType : ℕ) :
    Granted m addr pages ↔ pages = 0 ∨
      if ∃ d ∈ m, Blocks (newDesc addr pages memoryType) d then
        addr ≠ 0 ∧ ∀ d ∈ m.takeWhile (fun d =>
          decide (¬Blocks (newDesc addr pages memoryType) d)),
          ¬CutsRam (newDesc addr pages memoryType) d
      else addr + pages * efiPageSize < 2 ^ 64 := Iff.rfl

/-- `efi_allocate_pages` is all-or-nothing exactly when the request is granted or
refused as a whole. -/
theorem allocate_pages_all_or_nothing_iff (gd : Machine) (m : List MemDesc)
    (type memoryType pages memory : ℕ) (hdesc : Descending m) (hmem : memory < 2 ^ 64) :
    AllOrNothing gd m type memoryType pages memory ↔ RequestOk gd m type pages memory := by
  unfold AllOrNothing RequestOk efiAllocatePages
  cases hch : chooseAddr gd m type pages memory with
  | error r =>
    have hr := chooseAddr_error hch
    simp only [iff_true]
    exact ⟨⟨r, memory, m⟩, rfl, fun _ _ => rfl, fun h => absurd h hr⟩
  | ok addr =>
    have haddr := chooseAddr_lt hmem hch
    simp only [granted_def m addr pages memoryType]
    by_cases hp : pages = 0
    · subst hp
      simp only [efiAddMemoryMap, addMemoryMapFuel, if_true, true_or, iff_true]
      exact ⟨_, rfl, by simp, by simp⟩
    simp only [hp, false_or]
    by_cases hblk : ∃ d ∈ m, Blocks (newDesc addr pages memoryType) d
    · rw [if_pos hblk]
      obtain ⟨pre, n, post, hm, hn, hpre, htw⟩ := exists_first_block hblk
      obtain ⟨pre', he, hclear, hquiet⟩ := refused_spec hm hdesc hp hn hpre
      simp only [he, htw]
      by_cases h0 : addr = 0
      · subst h0
        simpa using refused_at_zero hm hdesc hp hn hclear
      · have hne : ¬0 = addr := fun h => h0 h.symm
        simpa [hne, h0] using refused_iff pages memoryType memory hm hdesc hn hclear hquiet
    · rw [if_neg hblk]
      obtain ⟨l, he, hclear⟩ := granted_spec hp hblk
      simpa [he] using granted_iff hp haddr hblk hclear

/-- RAM in `[0x3000, 0x5000)` above loader data in `[0x1000, 0x3000)`. -/
def ramAboveLoader : List MemDesc := [newDesc 0x3000 2 7, newDesc 0x1000 2 2]

theorem ramAboveLoader_inv : MapInv ramAboveLoader := by
  refine ⟨⟨fun d hd => ?_, ?_⟩, ?_⟩
  · rcases mem_pair.mp hd with rfl | rfl
    · exact ⟨by decide, by decide, by decide⟩
    · exact ⟨by decide, by decide, by decide⟩
  · exact pairwise_pair.mpr (.inr (by decide))
  · exact pairwise_pair.mpr (by decide)

/-- The two pages of RAM can be allocated at their own address. -/
theorem allocate_pages_all_or_nothing_ram : AllOrNothing ⟨32, 0⟩ ramAboveLoader 2 2 2 0x3000 := by
  refine (allocate_pages_all_or_nothing_iff ⟨32, 0⟩ ramAboveLoader 2 2 2 0x3000
    ramAboveLoader_inv.descending (by norm_num)).mpr ?_
  show Granted ramAboveLoader 0x3000 2
  decide

/-- A request for `[0x2000, 0x4000)` fails and takes the page at `0x3000` with it. -/
theorem allocate_pages_loses_page :
    MapInv ramAboveLoader ∧ ¬AllOrNothing ⟨32, 0⟩ ramAboveLoader 2 2 2 0x2000 := by
  refine ⟨ramAboveLoader_inv, ?_⟩
  rintro ⟨r, hr, hfail, -⟩
  have he : efiAllocatePages ⟨32, 0⟩ ramAboveLoader 2 2 2 0x2000 =
      some ⟨.outOfResources, 0x2000,
        [(newDesc 0x3000 2 7).above 0x4000, newDesc 0x1000 2 2]⟩ := by decide +kernel
  obtain rfl := some.inj (he.symm.trans hr)
  exact absurd (hfail (by decide) 0x3000) (by decide)

end UBoot.Efi.Memory
