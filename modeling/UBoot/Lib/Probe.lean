import Mathlib.Tactic

/-!
# Double hashing

Open addressing over the indices `1 .. size`. When the step is coprime to the size, the first `size`
probes are all indices, each once.
-/

namespace UBoot.Probe

/- The index after `idx`. -/
def next (size step idx : ℕ) : ℕ := if idx ≤ step then size + idx - step else idx - step

/- The index of probe `k`. -/
def probe (size step start : ℕ) : ℕ → ℕ
  | 0 => start
  | k + 1 => next size step (probe size step start k)

section Sequence

variable {size step start : ℕ}

theorem next_mem (hs : 0 < step) (hlt : step < size) {idx : ℕ} (h : 1 ≤ idx ∧ idx ≤ size) :
    1 ≤ next size step idx ∧ next size step idx ≤ size := by
  unfold next
  split_ifs with hi
  · lia
  · lia

theorem probe_mem (hs : 0 < step) (hlt : step < size) (h : 1 ≤ start ∧ start ≤ size) (k : ℕ) :
    1 ≤ probe size step start k ∧ probe size step start k ≤ size := by
  induction k with
  | zero => exact h
  | succ k ih => exact next_mem hs hlt ih

theorem next_modEq (hlt : step < size) (idx : ℕ) : next size step idx + step ≡ idx [MOD size] := by
  unfold next
  split_ifs with hi
  · rw [Nat.sub_add_cancel (by lia)]
    exact Nat.add_modEq_left
  · rw [Nat.sub_add_cancel (by lia)]

theorem probe_modEq (hlt : step < size) (start k : ℕ) :
    probe size step start k + k * step ≡ start [MOD size] := by
  induction k with
  | zero => simp [probe, Nat.ModEq.refl]
  | succ k ih =>
    have hstep := (next_modEq hlt (probe size step start k)).add_right (k * step)
    rw [probe, Nat.succ_mul, Nat.add_comm (k * step), ← Nat.add_assoc]
    exact hstep.trans ih

theorem probe_injective (hlt : step < size) (hc : Nat.Coprime size step) {j k : ℕ} (hj : j < size)
    (hk : k < size) (h : probe size step start j = probe size step start k) : j = k := by
  have h1 := probe_modEq hlt start j
  have h2 := probe_modEq hlt start k
  rw [h] at h1
  have hmul : j * step ≡ k * step [MOD size] := Nat.ModEq.add_left_cancel' _ (h1.trans h2.symm)
  have hjk : j ≡ k [MOD size] := Nat.ModEq.cancel_right_of_coprime hc hmul
  rwa [Nat.ModEq, Nat.mod_eq_of_lt hj, Nat.mod_eq_of_lt hk] at hjk

/-- The first `size` probes are all indices. -/
theorem probe_surjective (hs : 0 < step) (hlt : step < size) (hc : Nat.Coprime size step)
    (h : 1 ≤ start ∧ start ≤ size) {i : ℕ} (hi : 1 ≤ i ∧ i ≤ size) :
    ∃ k < size, probe size step start k = i := by
  have hsub : (Finset.range size).image (probe size step start) ⊆ Finset.Icc 1 size := by
    intro x hx
    obtain ⟨k, -, rfl⟩ := Finset.mem_image.mp hx
    exact Finset.mem_Icc.mpr (probe_mem hs hlt h k)
  have hcard : (Finset.Icc 1 size).card ≤ ((Finset.range size).image (probe size step start)).card := by
    rw [Finset.card_image_of_injOn, Finset.card_range, Nat.card_Icc]
    · lia
    · intro j hj k hk hjk
      exact probe_injective hlt hc (Finset.mem_range.mp hj) (Finset.mem_range.mp hk) hjk
  have heq := Finset.eq_of_subset_of_card_le hsub hcard
  have himg : i ∈ (Finset.range size).image (probe size step start) := by
    rw [heq]
    exact Finset.mem_Icc.mpr hi
  obtain ⟨k, hk, hki⟩ := Finset.mem_image.mp himg
  exact ⟨k, Finset.mem_range.mp hk, hki⟩

/-- After `size` probes the sequence is back at its start. -/
theorem probe_size (hs : 0 < step) (hlt : step < size) (h : 1 ≤ start ∧ start ≤ size) :
    probe size step start size = start := by
  have hmod := probe_modEq hlt start size
  have hmem := probe_mem hs hlt h size
  have hback : probe size step start size ≡ start [MOD size] := by
    have hz : size * step ≡ 0 [MOD size] := (Nat.modEq_zero_iff_dvd).mpr (Nat.dvd_mul_right _ _)
    have hadd := (Nat.ModEq.refl (probe size step start size)).add hz
    exact hadd.symm.trans hmod
  -- two indices in `1 .. size` that agree modulo the size are equal
  have hdvd := (Nat.modEq_iff_dvd.mp hback)
  obtain ⟨c, hc⟩ := hdvd
  have hc0 : c = 0 := by
    by_contra hne
    rcases lt_or_gt_of_ne hne with hn | hp
    · have : (size : ℤ) * c ≤ -size := by nlinarith
      lia
    · have : (size : ℤ) ≤ size * c := by nlinarith
      lia
  rw [hc0, mul_zero] at hc
  lia

theorem probe_ne_start (hlt : step < size) (hc : Nat.Coprime size step) {k : ℕ}
    (hk : k + 1 < size) :
    probe size step start (k + 1) ≠ start := by
  intro heq
  have h := probe_injective hlt hc hk (show 0 < size by lia) heq
  lia

end Sequence

end UBoot.Probe
