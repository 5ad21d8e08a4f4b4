import UBoot.Ext4.Trees

/-!
# Blocks are found where they were allocated

A lookup follows the trees as long as its caches hold blocks of the disk, and the word it compares
is inside the buffer.
-/

namespace UBoot.Ext4

open List

variable {blksz log2Blksz : ℕ} {supply : Supply} {disk : ℕ → ℕ → ℕ} {es : List (ℕ × ℕ)}

/- What the cache of a depth holds of the tree is as it is on the disk. -/
def Fresh (blksz log2Blksz : ℕ) (supply : Supply) (disk : ℕ → ℕ → ℕ) (es : List (ℕ × ℕ))
    (depth : ℕ) (c : Cache) : Prop :=
  ∀ call, (depth, call) ∈ es → sector log2Blksz (supply.number call) = (c.ready blksz).blkno →
    (c.ready blksz).block = disk (supply.number call)

def Apart (log2Blksz : ℕ) (supply : Supply) (es : List (ℕ × ℕ)) : Prop :=
  ∀ depth call call', (depth, call) ∈ es → (depth, call') ∈ es →
    sector log2Blksz (supply.number call) = sector log2Blksz (supply.number call') → call = call'

theorem load_fresh {depth call : ℕ} {c : Cache} (hapart : Apart log2Blksz supply es)
    (hfresh : Fresh blksz log2Blksz supply disk es depth c) (hcall : (depth, call) ∈ es) :
    (c.load blksz log2Blksz disk (supply.number call)).block = disk (supply.number call) ∧
      Fresh blksz log2Blksz supply disk es depth
        (c.load blksz log2Blksz disk (supply.number call)) := by
  -- the blocks of the depth
  have hinj : Set.InjOn (sector log2Blksz) {b | ∃ call, (depth, call) ∈ es ∧ supply.number call = b} := by
    intro b hb b' hb' hsector
    obtain ⟨call, hmem, hnum⟩ := hb
    obtain ⟨call', hmem', hnum'⟩ := hb'
    rw [← hnum, ← hnum'] at hsector ⊢
    rw [hapart depth call call' hmem hmem' hsector]
  have hholds : c.Holds blksz log2Blksz disk {b | ∃ call, (depth, call) ∈ es ∧ supply.number call = b} := by
    intro b hb hsector
    obtain ⟨call, hmem, hnum⟩ := hb
    rw [← hnum] at hsector ⊢
    exact hfresh call hmem hsector
  obtain ⟨hblock, hafter⟩ := hholds.load hinj ⟨call, hcall, rfl⟩
  exact ⟨hblock, fun call' hmem => hafter _ ⟨call', hmem, rfl⟩⟩

def Caches.at (s : Caches) : ℕ → Cache
  | 1 => s.indir1
  | 2 => s.indir2
  | _ => s.indir3

structure AllFresh (blksz log2Blksz : ℕ) (supply : Supply) (disk : ℕ → ℕ → ℕ)
    (es : List (ℕ × ℕ)) (s : Caches) : Prop where
  first : Fresh blksz log2Blksz supply disk es 1 s.indir1
  second : Fresh blksz log2Blksz supply disk es 2 s.indir2
  third : Fresh blksz log2Blksz supply disk es 3 s.indir3

section Loads

variable {inode : Inode} {s : Caches} {r : ℕ} (hr : r < blksz / 4 * (blksz / 4))

include hr

theorem readDouble_loads {top child : ℕ} (htop : top = inode.doubleIndirBlock)
    (hchild : child = disk top (r / (blksz / 4)))
    (hblock : (s.indir1.load blksz log2Blksz disk top).block = disk top)
    (hblock₂ : (s.indir2.load blksz log2Blksz disk child).block = disk child) :
    readDouble blksz log2Blksz disk inode r s = some (disk child (r % (blksz / 4)), { s with
      indir1 := s.indir1.load blksz log2Blksz disk top
      indir2 := s.indir2.load blksz log2Blksz disk child }) := by
  subst htop hchild
  have hq : 0 < blksz / 4 := Nat.pos_of_lt_mul_left hr
  have hhigh : r / (blksz / 4) < blksz / 4 := Nat.div_lt_of_lt_mul hr
  have hlow : r % (blksz / 4) < blksz / 4 := Nat.mod_lt _ hq
  rw [readDouble]
  simp only [Cache.word, if_pos hhigh, if_pos hlow, hblock, hblock₂]

theorem readTriple_loads {top parent child : ℕ} (htop : top = inode.tripleIndirBlock)
    (hparent : parent = disk top 0) (hchild : child = disk parent (r / (blksz / 4)))
    (hblock : (s.indir1.load blksz log2Blksz disk top).block = disk top)
    (hblock₂ : (s.indir2.load blksz log2Blksz disk parent).block = disk parent)
    (hblock₃ : (s.indir3.load blksz log2Blksz disk child).block = disk child) :
    readTriple blksz log2Blksz disk inode r s = some (disk child (r % (blksz / 4)),
      ⟨s.indir1.load blksz log2Blksz disk top, s.indir2.load blksz log2Blksz disk parent,
        s.indir3.load blksz log2Blksz disk child⟩) := by
  subst htop hparent hchild
  have hq : 0 < blksz / 4 := Nat.pos_of_lt_mul_left hr
  have hhigh : r / (blksz / 4) < blksz / 4 := Nat.div_lt_of_lt_mul hr
  have hlow : r % (blksz / 4) < blksz / 4 := Nat.mod_lt _ hq
  have hfirst : r / (blksz / 4 * (blksz / 4)) = 0 := Nat.div_eq_of_lt hr
  have hload : ∀ child, (if sector log2Blksz child ≠ (s.indir3.ready blksz).blkno
      then { s.indir3.ready blksz with blkno := sector log2Blksz child, block := disk child }
      else s.indir3.ready blksz) = s.indir3.load blksz log2Blksz disk child := fun _ => rfl
  rw [readTriple]
  simp only [Cache.word, hfirst, if_pos hq, if_pos hhigh, Nat.mod_eq_of_lt hhigh, if_pos hlow,
    hblock, hblock₂, hload, hblock₃]

end Loads

section Reads

variable {inode : Inode} {s : Caches} {r b : ℕ} (hapart : Apart log2Blksz supply es)
  (hfresh : AllFresh blksz log2Blksz supply disk es s)

include hapart hfresh

theorem readSingle_found (hr : r < blksz / 4)
    (h : Found blksz supply disk es 1 1 inode.indirBlock r b) :
    ∃ s', readSingle blksz log2Blksz disk inode r s = some (b, s') ∧
      AllFresh blksz log2Blksz supply disk es s' := by
  obtain ⟨⟨call, hcall, htop⟩, hword⟩ := h
  obtain ⟨hblock, hfresh₁⟩ := load_fresh hapart hfresh.first hcall
  rw [htop] at hblock hfresh₁
  rw [Found, pow_zero, Nat.div_one] at hword
  refine ⟨{ s with indir1 := s.indir1.load blksz log2Blksz disk inode.indirBlock }, ?_,
    ⟨hfresh₁, hfresh.second, hfresh.third⟩⟩
  rw [readSingle]
  simp only [Cache.word, if_pos hr, hblock, hword]

theorem readDouble_found (hr : r < blksz / 4 * (blksz / 4))
    (h : Found blksz supply disk es 2 1 inode.doubleIndirBlock r b) :
    ∃ s', readDouble blksz log2Blksz disk inode r s = some (b, s') ∧
      AllFresh blksz log2Blksz supply disk es s' := by
  obtain ⟨⟨call, hcall, htop⟩, ⟨call₂, hcall₂, hchild⟩, hword⟩ := h
  obtain ⟨hblock, hfresh₁⟩ := load_fresh hapart hfresh.first hcall
  obtain ⟨hblock₂, hfresh₂⟩ := load_fresh hapart hfresh.second hcall₂
  rw [pow_one] at hchild hword
  rw [Found, pow_zero, Nat.div_one] at hword
  rw [← hword, ← hchild]
  exact ⟨_, readDouble_loads hr htop (htop ▸ hchild) hblock hblock₂, hfresh₁, hfresh₂, hfresh.third⟩

theorem readTriple_found (hr : r < blksz / 4 * (blksz / 4))
    (h : Found blksz supply disk es 3 1 inode.tripleIndirBlock r b) :
    ∃ s', readTriple blksz log2Blksz disk inode r s = some (b, s') ∧
      AllFresh blksz log2Blksz supply disk es s' := by
  have hfirst : r / (blksz / 4 * (blksz / 4)) = 0 := Nat.div_eq_of_lt hr
  obtain ⟨⟨call, hcall, htop⟩, ⟨call₂, hcall₂, hparent⟩, ⟨call₃, hcall₃, hchild⟩, hword⟩ := h
  obtain ⟨hblock, hfresh₁⟩ := load_fresh hapart hfresh.first hcall
  obtain ⟨hblock₂, hfresh₂⟩ := load_fresh hapart hfresh.second hcall₂
  obtain ⟨hblock₃, hfresh₃⟩ := load_fresh hapart hfresh.third hcall₃
  have hsq : (blksz / 4) ^ 2 = blksz / 4 * (blksz / 4) := sq _
  simp only [Found, hsq, pow_one, pow_zero, Nat.div_one, hfirst, Nat.mod_eq_of_lt hr]
    at hparent hchild hword
  rw [← hword, ← hchild]
  exact ⟨_, readTriple_loads hr htop (htop ▸ hparent) (hparent ▸ hchild) hblock hblock₂ hblock₃, hfresh₁, hfresh₂, hfresh₃⟩

theorem read_placed {i : ℕ} (hblksz : 4 ∣ blksz)
    (hi : i < indirectBlocks + blksz / 4 + 2 * (blksz / 4) ^ 2)
    (h : Placed blksz supply inode disk es i b) :
    ∃ s', readAllocatedBlock blksz log2Blksz disk inode s i = some (b, s') ∧
      AllFresh blksz log2Blksz supply disk es s' := by
  have hsum : blksz / 4 * (blksz / 4 + 1) = blksz / 4 + blksz / 4 * (blksz / 4) := by ring
  have hsq : (blksz / 4) ^ 2 = blksz / 4 * (blksz / 4) := sq _
  have hquarter : blksz / 4 * blksz / 4 = blksz / 4 * (blksz / 4) := Nat.mul_div_assoc _ hblksz
  rw [readAllocatedBlock, hquarter, hsum]
  rw [Placed, hsum] at h
  rw [hsq] at hi
  by_cases hi₀ : i < indirectBlocks
  · rw [if_pos hi₀] at h ⊢
    exact ⟨s, by rw [h], hfresh⟩
  rw [if_neg hi₀] at h ⊢
  by_cases hi₁ : i < indirectBlocks + blksz / 4
  · rw [if_pos hi₁] at h ⊢
    exact readSingle_found hapart hfresh (by lia) h
  rw [if_neg hi₁] at h ⊢
  by_cases hi₂ : i < indirectBlocks + (blksz / 4 + blksz / 4 * (blksz / 4))
  · rw [if_pos hi₂] at h ⊢
    exact readDouble_found hapart hfresh (by lia) h
  · rw [if_neg hi₂] at h ⊢
    rw [← Nat.add_assoc] at h
    exact readTriple_found hapart hfresh (by lia) h

end Reads

theorem reads_placed {inode : Inode} {f : ℕ → ℕ} (hblksz : 4 ∣ blksz)
    (hapart : Apart log2Blksz supply es) : ∀ (is : List ℕ) (s : Caches),
    AllFresh blksz log2Blksz supply disk es s →
    (∀ i ∈ is, i < indirectBlocks + blksz / 4 + 2 * (blksz / 4) ^ 2 ∧
      Placed blksz supply inode disk es i (f i)) →
    ∃ s', readAllocatedBlocks blksz log2Blksz disk inode s is = some (is.map f, s') := by
  intro is
  induction is with
  | nil =>
    intro s _ _
    exact ⟨s, rfl⟩
  | cons i is ih =>
    intro s hfresh his
    obtain ⟨hi, hplaced⟩ := his i mem_cons_self
    obtain ⟨s₁, hread, hfresh₁⟩ := read_placed hapart hfresh hblksz hi hplaced
    obtain ⟨s', hreads⟩ := ih s₁ hfresh₁ fun j hj => his j (mem_cons_of_mem _ hj)
    refine ⟨s', ?_⟩
    rw [readAllocatedBlocks, hread]
    simp only [hreads, map_cons]

/- The first index in the second child of the triple indirect block is behind the buffer. -/
variable (log2Blksz disk) in
theorem read_behind (hblksz : 4 ∣ blksz) (inode : Inode) (s : Caches) :
    readAllocatedBlock blksz log2Blksz disk inode s
      (indirectBlocks + blksz / 4 + 2 * (blksz / 4) ^ 2) = none := by
  have hsum : blksz / 4 * (blksz / 4 + 1) = blksz / 4 + blksz / 4 * (blksz / 4) := by ring
  have hsq : (blksz / 4) ^ 2 = blksz / 4 * (blksz / 4) := sq _
  have hquarter : blksz / 4 * blksz / 4 = blksz / 4 * (blksz / 4) := Nat.mul_div_assoc _ hblksz
  rw [readAllocatedBlock, hquarter, hsum, hsq]
  rw [if_neg (by lia), if_neg (by lia), if_neg (by lia)]
  have hr : indirectBlocks + blksz / 4 + 2 * (blksz / 4 * (blksz / 4)) -
      (indirectBlocks + blksz / 4 + blksz / 4 * (blksz / 4)) = blksz / 4 * (blksz / 4) := by lia
  have hword : ∀ c : Cache, c.word blksz (blksz / 4 * (blksz / 4) / (blksz / 4)) = none := by
    intro c
    rw [Cache.word, if_neg]
    rw [Nat.not_lt]
    cases Nat.eq_zero_or_pos (blksz / 4) with
    | inl hzero => rw [hzero]
    | inr hpos => rw [Nat.mul_div_cancel _ hpos]
  rw [hr, readTriple]
  simp only [hword]
  split <;> rfl

/- The blocks of an allocation are looked up in any order, as often as one likes. -/
def ReadsBack (blksz log2Blksz : ℕ) (supply : Supply) (inode : Inode) (disk : ℕ → ℕ → ℕ)
    (s : Caches) (n : ℕ) : Prop :=
  ∀ is : List ℕ, (∀ i ∈ is, i < n) → ∃ s', readAllocatedBlocks blksz log2Blksz
    (ext4fsAllocateBlocks blksz supply inode disk n).2.disk
    (ext4fsAllocateBlocks blksz supply inode disk n).1 s is =
      some (is.map fun i => supply.number
        ((ext4fsAllocateBlocks blksz supply inode disk n).2.data.getD i 0), s')

/- Not beyond the first child of the triple indirect block, and with nothing in the caches that
can be taken for an indirect block. -/
structure Clear (blksz log2Blksz : ℕ) (supply : Supply) (s : Caches) (n : ℕ) : Prop where
  few : n ≤ indirectBlocks + blksz / 4 + 2 * (blksz / 4) ^ 2
  apart : Apart log2Blksz supply (indirectCalls blksz n)
  cached : ∀ depth call, (depth, call) ∈ indirectCalls blksz n →
    sector log2Blksz (supply.number call) ≠ ((s.at depth).ready blksz).blkno

theorem clear_fresh {s : Caches} {n : ℕ} (h : Clear blksz log2Blksz supply s n) :
    AllFresh blksz log2Blksz supply disk (indirectCalls blksz n) s :=
  ⟨fun call hcall hsector => absurd hsector (h.cached 1 call hcall),
    fun call hcall hsector => absurd hsector (h.cached 2 call hcall),
    fun call hcall hsector => absurd hsector (h.cached 3 call hcall)⟩

theorem allocate_read_inverse (hblksz : 4 ∣ blksz) (hpos : 0 < blksz) (log2Blksz : ℕ)
    (supply : Supply) (inode : Inode) (disk : ℕ → ℕ → ℕ) (s : Caches) {n : ℕ}
    (hn : n ≤ blockLimit blksz) :
    ∃ inode' a, ext4fsAllocateBlocks blksz supply inode disk n = (inode', a) ∧
      a.data.length = n ∧ (a.data.map supply.number).Nodup ∧
      (∀ call ∈ a.data, ∀ e ∈ a.indirect, supply.number call ≠ supply.number e.2) ∧
      a.noBlksReqd = a.indirect.length ∧
      (Clear blksz log2Blksz supply s n → ReadsBack blksz log2Blksz supply inode disk s n) ∧
      (ReadsBack blksz log2Blksz supply inode disk s n →
        n ≤ indirectBlocks + blksz / 4 + 2 * (blksz / 4) ^ 2) := by
  have hq : 0 < blksz / 4 := Nat.div_pos (Nat.le_of_dvd hpos hblksz) (by decide)
  obtain ⟨out, hout, hgrown, hlen, hplaced⟩ := allocate_spec blksz supply hq inode disk n
  have hcalls := allocate_indirect blksz supply inode disk n
  rw [hout] at hcalls
  rw [Nat.min_eq_left hn] at hlen
  have hnodup := hgrown.perm.nodup_iff.mpr nodup_range'
  rw [nodup_append] at hnodup
  obtain ⟨hdata, -, hdisjoint⟩ := hnodup
  refine ⟨out.1, out.2, hout, hlen, hdata.map supply.injective, ?_, ?_, ?_, ?_⟩
  · intro call hcall e he heq
    exact hdisjoint call hcall e.2 (mem_map_of_mem he) (supply.injective heq)
  · exact hgrown.reqd.trans (Nat.zero_add _)
  · intro hclear is his
    rw [hout]
    refine reads_placed hblksz (hcalls ▸ hclear.apart) is s (hcalls ▸ clear_fresh hclear) ?_
    intro i hi
    have hlt := his i hi
    refine ⟨lt_of_lt_of_le hlt hclear.few, hplaced i _ ?_⟩
    rw [getD_eq_getElem?_getD, getElem?_eq_getElem (by lia)]
    rfl
  · intro hreads
    by_contra hmany
    obtain ⟨s', hread⟩ := hreads [indirectBlocks + blksz / 4 + 2 * (blksz / 4) ^ 2] (by simpa using hmany)
    rw [readAllocatedBlocks, read_behind _ _ hblksz] at hread
    cases hread

def emptyCaches : Caches :=
  ⟨⟨false, 0, noBlkno, fun _ => 0⟩, ⟨false, 0, noBlkno, fun _ => 0⟩, ⟨false, 0, noBlkno, fun _ => 0⟩⟩

theorem allocate_read_double :
    ReadsBack 1024 1 countingSupply ⟨fun _ => 0, 0, 0, 0⟩ (fun _ _ => 0) emptyCaches 271 := by
  have hcalls : indirectCalls 1024 271 = [(1, 12), (1, 269), (2, 270)] := by decide +kernel
  have hclear : Clear 1024 1 countingSupply emptyCaches 271 := by
    refine ⟨by decide, ?_, ?_⟩
    · rw [hcalls]
      intro depth call call' h h' hsector
      simp only [mem_cons, Prod.mk.injEq, not_mem_nil, or_false] at h h'
      simp only [sector, countingSupply] at hsector
      omega
    · rw [hcalls]
      intro depth call h
      simp only [mem_cons, Prod.mk.injEq, not_mem_nil, or_false] at h
      obtain ⟨rfl, rfl⟩ | ⟨rfl, rfl⟩ | ⟨rfl, rfl⟩ := h <;> decide +kernel
  obtain ⟨inode', a, -, -, -, -, -, hreads, -⟩ := allocate_read_inverse (by decide) (by decide) 1
    countingSupply ⟨fun _ => 0, 0, 0, 0⟩ (fun _ _ => 0) emptyCaches
    (show 271 ≤ blockLimit 1024 by decide)
  exact hreads hclear

/- A file of 128 MiB and more in blocks of 1 KiB. -/
theorem triple_compared_behind :
    131341 ≤ blockLimit 1024 ∧
      ¬ ReadsBack 1024 1 countingSupply ⟨fun _ => 0, 0, 0, 0⟩ (fun _ _ => 0) emptyCaches 131341 := by
  refine ⟨by decide, fun h => ?_⟩
  obtain ⟨s', hread⟩ := h [131340] (by simp)
  rw [readAllocatedBlocks] at hread
  have hnone := read_behind 1
    (ext4fsAllocateBlocks 1024 countingSupply ⟨fun _ => 0, 0, 0, 0⟩ (fun _ _ => 0) 131341).2.disk
    (show 4 ∣ 1024 by decide)
    (ext4fsAllocateBlocks 1024 countingSupply ⟨fun _ => 0, 0, 0, 0⟩ (fun _ _ => 0) 131341).1
    emptyCaches
  rw [show indirectBlocks + 1024 / 4 + 2 * (1024 / 4) ^ 2 = 131340 from rfl] at hnone
  rw [hnone] at hread
  cases hread

end UBoot.Ext4
