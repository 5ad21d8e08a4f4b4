import UBoot.Nand.SkipBad

/-!
# Pages

What the page loops do to a range of bytes.
-/

namespace UBoot.Nand

open List Option

section Slices

variable (f : ℕ → UInt8)

@[simp] theorem length_slice (p n : ℕ) : (slice f p n).length = n := by simp [slice]

theorem slice_append (p n m : ℕ) : slice f p (n + m) = slice f p n ++ slice f (p + n) m := by
  unfold slice
  rw [← map_append, range'_append_1]

theorem slice_getD {p n i : ℕ} (hi : i < n) (d : UInt8) : (slice f p n).getD i d = f (p + i) := by
  simp [slice, getD_eq_getElem?_getD, hi]

end Slices

def Touches (t : List (ℕ × ℕ)) (x : ℕ) : Prop := ∃ r ∈ t, r.1 ≤ x ∧ x < r.1 + r.2

theorem touches_nil (x : ℕ) : ¬ Touches [] x := by
  rintro ⟨r, hr, -⟩
  cases hr

theorem touches_append (t t' : List (ℕ × ℕ)) (x : ℕ) :
    Touches (t ++ t') x ↔ Touches t x ∨ Touches t' x := by
  constructor
  · rintro ⟨r, hr, hx⟩
    rcases mem_append.mp hr with hr | hr
    · exact .inl ⟨r, hr, hx⟩
    · exact .inr ⟨r, hr, hx⟩
  · rintro (⟨r, hr, hx⟩ | ⟨r, hr, hx⟩)
    · exact ⟨r, mem_append_left _ hr, hx⟩
    · exact ⟨r, mem_append_right _ hr, hx⟩

theorem touches_single (a n x : ℕ) : Touches [(a, n)] x ↔ a ≤ x ∧ x < a + n := by
  constructor
  · rintro ⟨r, hr, hx⟩
    obtain rfl := mem_singleton.mp hr
    exact hx
  · exact fun hx => ⟨(a, n), mem_singleton_self _, hx⟩

/- The bytes of the buffer from `p` on were programmed at `a`. -/
structure Wrote (buf : Buffer) (p a n : ℕ) (flash flash' : Flash) : Prop where
  cell : ∀ x, flash'.cell x
    = if a ≤ x ∧ x < a + n then flash.cell x &&& buf (p + (x - a)) else flash.cell x
  touched : ∃ t, flash'.touched = flash.touched ++ t ∧ ∀ x, Touches t x ↔ a ≤ x ∧ x < a + n

structure DidRead (l : List ℕ) (flash flash' : Flash) : Prop where
  cell : flash'.cell = flash.cell
  touched : ∃ t, flash'.touched = flash.touched ++ t ∧ ∀ x, Touches t x ↔ x ∈ l

theorem Wrote.append {buf : Buffer} {p a n m : ℕ} {flash flash₁ flash₂ : Flash}
    (h₁ : Wrote buf p a n flash flash₁) (h₂ : Wrote buf (p + n) (a + n) m flash₁ flash₂) :
    Wrote buf p a (n + m) flash flash₂ := by
  refine ⟨fun x => ?_, ?_⟩
  · rw [h₂.cell x, h₁.cell x]
    rcases Nat.lt_or_ge x (a + n) with hlt | hge
    · rw [if_neg (by lia)]
      by_cases ha : a ≤ x
      · rw [if_pos ⟨ha, hlt⟩, if_pos (by lia)]
      · rw [if_neg (by lia), if_neg (by lia)]
    · by_cases hx : x < a + n + m
      · have hp : p + n + (x - (a + n)) = p + (x - a) := by lia
        rw [if_pos ⟨hge, hx⟩, if_neg (by lia), if_pos (by lia), hp]
      · rw [if_neg (by lia), if_neg (by lia), if_neg (by lia)]
  · obtain ⟨t₁, ht₁, hin₁⟩ := h₁.touched
    obtain ⟨t₂, ht₂, hin₂⟩ := h₂.touched
    refine ⟨t₁ ++ t₂, by rw [ht₂, ht₁, append_assoc], fun x => ?_⟩
    rw [touches_append, hin₁, hin₂]
    lia

theorem DidRead.nil (flash : Flash) : DidRead [] flash flash :=
  ⟨rfl, [], (append_nil _).symm, fun x => iff_of_false (touches_nil x) (not_mem_nil)⟩

theorem DidRead.append {l₁ l₂ : List ℕ} {flash flash₁ flash₂ : Flash} (h₁ : DidRead l₁ flash flash₁)
    (h₂ : DidRead l₂ flash₁ flash₂) : DidRead (l₁ ++ l₂) flash flash₂ := by
  obtain ⟨t₁, ht₁, hin₁⟩ := h₁.touched
  obtain ⟨t₂, ht₂, hin₂⟩ := h₂.touched
  refine ⟨h₂.cell.trans h₁.cell, t₁ ++ t₂, by rw [ht₂, ht₁, append_assoc], fun x => ?_⟩
  rw [touches_append, hin₁, hin₂, mem_append]

theorem DidRead.single (flash : Flash) (a n : ℕ) :
    DidRead (List.range' a n) flash { flash with touched := flash.touched ++ [(a, n)] } :=
  ⟨rfl, _, rfl, fun x => (touches_single a n x).trans mem_range'_1.symm⟩

section Pages

variable (nand : NandInfo)

theorem writesize_pos : 0 < nand.writesize := Nat.two_pow_pos _

theorem erasesize_pos : 0 < nand.erasesize := Nat.two_pow_pos _

theorem writesize_dvd : nand.writesize ∣ nand.erasesize := Nat.pow_dvd_pow 2 nand.page_le

theorem erasesize_dvd : nand.erasesize ∣ 2 ^ 32 := Nat.pow_dvd_pow 2 (Nat.le_of_lt nand.erase_lt)

theorem subpagesize_dvd : nand.subpagesize ∣ nand.writesize := Nat.pow_dvd_pow 2 nand.subpage_le

theorem and_ones (x : UInt8) : x &&& 0xff = x := by
  have hones : (0xff : UInt8) = -1 := by decide
  rw [hones, UInt8.and_neg_one]

theorem databuf_getD (column i : ℕ) (data : List UInt8) :
    (databuf nand column data).getD i 0xff
      = if column ≤ i ∧ i < column + data.length then data.getD (i - column) 0xff else 0xff := by
  unfold databuf
  simp only [getD_eq_getElem?_getD, append_assoc]
  rcases Nat.lt_or_ge i column with hlt | hge
  · rw [if_neg (by lia), getElem?_append_left (by simpa using hlt)]
    simp [hlt]
  · rw [getElem?_append_right (by simpa using hge), length_replicate]
    by_cases hdata : i < column + data.length
    · rw [if_pos ⟨hge, hdata⟩, getElem?_append_left (by lia)]
    · rw [if_neg (by lia), getElem?_append_right (by lia), getElem?_replicate]
      split
      · rfl
      · rfl

theorem writePage_wrote (flash : Flash) (buf : Buffer) (page p n : ℕ) {column : ℕ}
    (hfit : column + n ≤ nand.writesize) :
    Wrote buf p (page * nand.writesize + column) n flash
      (writePage nand flash page column (slice buf p n)) := by
  refine ⟨fun x => ?_, [(page * nand.writesize + column, n)], by simp [writePage],
    touches_single _ _⟩
  have hlen : (databuf nand column (slice buf p n)).length = nand.writesize := by
    simp [databuf]
    lia
  simp only [writePage, programCells, hlen, databuf_getD, length_slice]
  by_cases hin : page * nand.writesize + column ≤ x ∧ x < page * nand.writesize + column + n
  · have hp : p + (x - page * nand.writesize - column) = p + (x - (page * nand.writesize + column)) := by
      lia
    rw [if_pos (by lia), if_pos (by lia), if_pos hin, slice_getD _ (by lia), hp]
  · rw [if_neg hin]
    split
    · rw [if_neg (by lia), and_ones]
    · rfl

variable {nand} {turns page p len left : ℕ} {buf : Buffer} {flash flash' : Flash}

theorem writeOps_turn (h : writeOps nand (turns + 1) flash buf page 0 p len = some (0, left, flash')) :
    ∃ n, n = (if len < nand.writesize - 1 then len else nand.writesize) ∧
      ((len + (2 ^ 32 - n)) % 2 ^ 32 = 0 ∧ left = 0 ∧
          flash' = writePage nand flash page 0 (slice buf p n) ∨
        (len + (2 ^ 32 - n)) % 2 ^ 32 ≠ 0 ∧
          writeOps nand turns (writePage nand flash page 0 (slice buf p n)) buf (page + 1) 0 (p + n)
            ((len + (2 ^ 32 - n)) % 2 ^ 32) = some (0, left, flash')) := by
  obtain ⟨n, hn⟩ : ∃ n, n = if len < nand.writesize - 1 then len else nand.writesize := ⟨_, rfl⟩
  refine ⟨n, hn, ?_⟩
  have hbytes : (if (decide ((0 : ℕ) ≠ 0 ∨ len < nand.writesize - 1)) = true
      then min (nand.writesize - 0) len else nand.writesize)
      = if len < nand.writesize - 1 then len else nand.writesize := by
    by_cases hpart : len < nand.writesize - 1
    · simp [hpart]
      lia
    · simp [hpart]
  unfold writeOps at h
  dsimp only at h
  rw [hbytes, ← hn] at h
  split at h
  · simp [eio] at h
  · split at h
    · rename_i hzero
      simp only [some.injEq, Prod.mk.injEq, true_and] at h
      exact .inl ⟨hzero, h.1.symm, h.2.symm⟩
    · rename_i hne
      exact .inr ⟨hne, h⟩

theorem writeOps_stuck (hpage : 2 ≤ nand.writesize) (hlen : len % nand.writesize = nand.writesize - 1) :
    writeOps nand turns flash buf page 0 p len ≠ some (0, left, flash') := by
  induction turns generalizing flash page p len with
  | zero => exact nofun
  | succ turns ih =>
    intro h
    obtain ⟨n, hn, hturn⟩ := writeOps_turn h
    have hge : nand.writesize - 1 ≤ len := by
      rw [← hlen]
      exact Nat.mod_le _ _
    have hdvd : nand.writesize ∣ 2 ^ 32 := (writesize_dvd nand).trans (erasesize_dvd nand)
    rw [if_neg (by lia)] at hn
    subst hn
    have hrest : ((len + (2 ^ 32 - nand.writesize)) % 2 ^ 32) % nand.writesize = nand.writesize - 1 := by
      rw [Nat.mod_mod_of_dvd _ hdvd, ← hlen]
      have hsub : nand.writesize ∣ 2 ^ 32 - nand.writesize := Nat.dvd_sub hdvd (dvd_refl _)
      obtain ⟨c, hc⟩ := hsub
      rw [hc, Nat.add_mul_mod_self_left]
    rcases hturn with ⟨hzero, -, -⟩ | ⟨-, hrun⟩
    · rw [hzero, Nat.zero_mod] at hrest
      lia
    · exact ih hrest hrun

theorem writeOps_wrote (hpos : 0 < len) (hlt : len < 2 ^ 32)
    (h : writeOps nand turns flash buf page 0 p len = some (0, left, flash')) :
    left = 0 ∧ Wrote buf p (page * nand.writesize) len flash flash' := by
  induction turns generalizing flash page p len with
  | zero => cases h
  | succ turns ih =>
    have hstuck : nand.writesize = 1 ∨ len % nand.writesize ≠ nand.writesize - 1 := by
      by_contra hboth
      obtain ⟨hone, hmod⟩ := not_or.mp hboth
      have hws := writesize_pos nand
      exact writeOps_stuck (by lia) (not_not.mp hmod) h
    obtain ⟨n, hn, hturn⟩ := writeOps_turn h
    have hws := writesize_pos nand
    have hfull : ¬ len < nand.writesize - 1 → nand.writesize ≤ len := by
      intro hge
      by_contra hshort
      rcases hstuck with hone | hmod
      · lia
      · rw [Nat.mod_eq_of_lt (by lia)] at hmod
        lia
    have hnle : n ≤ len ∧ n ≤ nand.writesize ∧ (len < nand.writesize - 1 → n = len) := by
      rw [hn]
      split
      · lia
      · have hge := hfull ‹_›
        lia
    have hleft : (len + (2 ^ 32 - n)) % 2 ^ 32 = len - n := by
      have hsum : len + (2 ^ 32 - n) = len - n + 2 ^ 32 := by lia
      rw [hsum, Nat.add_mod_right, Nat.mod_eq_of_lt (by lia)]
    have hpage := writePage_wrote nand flash buf page p n (show 0 + n ≤ nand.writesize by lia)
    rw [Nat.add_zero] at hpage
    rw [hleft] at hturn
    rcases hturn with ⟨hzero, hleft0, rfl⟩ | ⟨hne, hrun⟩
    · have hn' : n = len := by lia
      rw [hn'] at hpage
      rw [hn']
      exact ⟨hleft0, hpage⟩
    · have hn' : n = nand.writesize := by
        rw [hn]
        split
        · lia
        · rfl
      obtain ⟨hleft0, hrest⟩ := ih (by lia) (by lia) hrun
      have hnext : (page + 1) * nand.writesize = page * nand.writesize + n := by
        rw [Nat.add_mul, Nat.one_mul, hn']
      rw [hnext] at hrest
      have hall := hpage.append hrest
      rw [Nat.add_sub_cancel' hnle.1] at hall
      exact ⟨hleft0, hall⟩

theorem mod_subpage {ofs : ℕ} (h : ofs % nand.writesize = 0) : ofs % nand.subpagesize = 0 :=
  Nat.mod_eq_zero_of_dvd ((subpagesize_dvd nand).trans (Nat.dvd_of_mod_eq_zero h))

theorem nandWrite_wrote {ofs retlen : ℕ} (hofs : ofs % nand.writesize = 0) (hlt : len < 2 ^ 32)
    (h : nandWrite nand turns flash buf ofs len p = some (0, retlen, flash')) :
    retlen = len ∧ Wrote buf p ofs len flash flash' := by
  unfold nandWrite at h
  split at h
  · simp [einval] at h
  · split at h
    · rename_i hzero
      simp only [some.injEq, Prod.mk.injEq, true_and] at h
      obtain ⟨rfl, rfl⟩ := h
      subst hzero
      refine ⟨rfl, fun x => ?_, [], by simp, fun x => ?_⟩
      · rw [if_neg (by lia)]
      · exact iff_of_false (touches_nil x) (by lia)
    · rename_i hne
      rw [if_neg (by rw [mod_subpage hofs]; simp), hofs] at h
      split at h
      · simp [eio] at h
      · cases hops : writeOps nand turns flash buf (ofs / nand.writesize) 0 p len with
        | none => simp [hops] at h
        | some r =>
          obtain ⟨ret, left, flash₁⟩ := r
          simp only [hops, some.injEq, Prod.mk.injEq] at h
          obtain ⟨rfl, rfl, rfl⟩ := h
          obtain ⟨rfl, hwrote⟩ := writeOps_wrote (Nat.pos_of_ne_zero hne) hlt hops
          rw [Nat.div_mul_cancel (Nat.dvd_of_mod_eq_zero hofs)] at hwrote
          exact ⟨rfl, hwrote⟩

variable (flash page) in
theorem readOps_read {col : ℕ} (hcol : col < nand.writesize) (hpos : 0 < len) (hle : len ≤ turns) :
    ∃ flips flash', readOps nand turns flash page col len
        = (slice flash.cell (page * nand.writesize + col) len, flips, flash') ∧
      DidRead (List.range' (page * nand.writesize + col) len) flash flash' := by
  induction turns generalizing flash page col len with
  | zero => lia
  | succ turns ih =>
    unfold readOps
    dsimp only
    by_cases hlast : len - min (nand.writesize - col) len = 0
    · have hall : min (nand.writesize - col) len = len := by lia
      rw [if_pos hlast, hall]
      exact ⟨_, _, rfl, DidRead.single flash _ _⟩
    · rw [if_neg hlast]
      obtain ⟨n, hn⟩ : ∃ n, n = min (nand.writesize - col) len := ⟨_, rfl⟩
      rw [← hn] at hlast ⊢
      have hnext : (page + 1) * nand.writesize + 0 = page * nand.writesize + col + n := by
        rw [Nat.add_mul, Nat.one_mul]
        lia
      obtain ⟨flips, flash', hrun, hread⟩ :=
        @ih (page + 1) (len - n) _ 0 (writesize_pos nand) (by lia) (by lia)
      rw [hnext] at hread hrun
      have hlen : n + (len - n) = len := by lia
      have hall := (DidRead.single flash (page * nand.writesize + col) n).append hread
      have hdata := slice_append flash.cell (page * nand.writesize + col) n (len - n)
      rw [range'_append_1, hlen] at hall
      rw [hlen] at hdata
      rw [hrun]
      exact ⟨nand.worn page || flips, flash', by rw [hdata], hall⟩

variable (flash) in
theorem nandRead_read {ofs : ℕ} (hin : ofs + len ≤ nand.size) :
    ∃ rval flash', nandRead nand flash ofs len = (rval, slice flash.cell ofs len, flash') ∧
      (rval = 0 ∨ rval = -euclean) ∧ DidRead (List.range' ofs len) flash flash' := by
  unfold nandRead
  rw [if_neg (by lia)]
  by_cases hzero : len = 0
  · rw [if_pos hzero, hzero]
    exact ⟨0, flash, rfl, .inl rfl, DidRead.nil flash⟩
  · rw [if_neg hzero]
    obtain ⟨flips, flash', hrun, hread⟩ := readOps_read (ofs / nand.writesize) flash
      (Nat.mod_lt ofs (writesize_pos nand)) (Nat.pos_of_ne_zero hzero) (Nat.le_refl len)
    rw [Nat.mul_comm, Nat.div_add_mod] at hread hrun
    rw [hrun]
    refine ⟨_, flash', rfl, ?_, hread⟩
    cases flips with
    | true => exact .inr rfl
    | false => exact .inl rfl

end Pages

end UBoot.Nand
