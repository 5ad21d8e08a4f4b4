import UBoot.Lmb.Alloc

/-!
# When a table takes a range

`lmb_add_region` refuses only what a full table has neither an entry nor a neighbour for.
-/

namespace UBoot.Lmb

open List Option

variable {abi : Abi} {new : LmbProperty} {ret : ℤ}

theorem grown_touches {x x' : LmbProperty} (h : Grown new x x') : new.Touches x := by
  rcases h with ⟨hx, -⟩ | ⟨hx, -⟩
  · exact .inl hx
  · exact .inr hx

/- A range that the table takes: a free entry, the same range, or a neighbour. -/
def Accepts (es : List LmbProperty) (new : LmbProperty) : Prop :=
  es.length < maxLmbRegions ∨ new ∈ es ∨ ∃ y, y ∈ es ∧ new.Touches y

theorem addRegionTail_refused {rgn rgn' : LmbRegion} {base size i : ℕ} {coalesced : ℤ}
    (hc : 0 ≤ coalesced) (h : addRegionTail abi rgn base size i coalesced = some (ret, rgn'))
    (hret : ret < 0) : coalesced = 0 ∧ maxLmbRegions ≤ rgn.cnt := by
  unfold addRegionTail at h
  split at h
  · split at h
    · cases h
    · obtain ⟨rfl, -⟩ := Prod.mk.inj (some.inj h)
      lia
  · split at h
    · obtain ⟨rfl, -⟩ := Prod.mk.inj (some.inj h)
      lia
    next hzero =>
      split at h
      next hfull => exact ⟨not_not.mp hzero, hfull⟩
      · obtain ⟨rfl, -⟩ := Prod.mk.inj (some.inj h)
        lia

theorem lmbAddRegion_accepts {rgn rgn' : LmbRegion} (ht : TableOk abi rgn) (hf : new.Fits abi)
    (haccept : Accepts rgn.entries new)
    (h : lmbAddRegion abi rgn new.base new.size = some (ret, rgn')) : 0 ≤ ret := by
  by_contra hneg
  have hret : ret < 0 := by lia
  unfold lmbAddRegion at h
  split at h
  · obtain ⟨rfl, -⟩ := Prod.mk.inj (some.inj h)
    lia
  have hfind := findCoalesce_spec hf rgn.cnt 0 rgn.entries
    (by rw [LmbRegion.entries, range_eq_range']) ht.linked.fits
  cases hr : findCoalesce abi rgn new.base new.size rgn.cnt 0 with
  | same =>
    simp only [hr, some.injEq, Prod.mk.injEq] at h
    lia
  | front j =>
    simp only [hr] at h
    exact absurd (addRegionTail_refused (by decide) h hret).1 (by decide)
  | back j =>
    simp only [hr] at h
    exact absurd (addRegionTail_refused (by decide) h hret).1 (by decide)
  | none =>
    simp only [hr] at h hfind
    have hfull := (addRegionTail_refused le_rfl h hret).2
    rcases haccept with hfree | hmem | ⟨y, hy, htouch⟩
    · rw [entries_length] at hfree
      lia
    · exact hfind.2 hmem
    · exact hfind.1 y hy htouch

end UBoot.Lmb
