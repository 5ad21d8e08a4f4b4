import UBoot.Lib.Memory
import UBoot.Lib.Places

/-!
# Bytes put at a list of addresses

A copy that leaves out some places: what is read at the addresses it used, and that nothing else
changed.
-/

namespace UBoot.Memory

open List

/- `data` has been put at `places`, one byte at each. -/
structure Put (mem mem' : Mem) (places : List ℕ) (data : List UInt8) : Prop where
  read : places.map mem' = data
  frame : ∀ x, x ∉ places → mem' x = mem x

namespace Put

variable {mem mem' mem'' : Mem} {places places' front back : List ℕ} {data data' image : List UInt8}

theorem nil : Put mem mem [] [] := ⟨rfl, fun _ _ => rfl⟩

theorem append (h : Put mem mem' places data) (h' : Put mem' mem'' places' data')
    (hapart : ∀ x, x ∈ places → x ∉ places') : Put mem mem'' (places ++ places') (data ++ data') := by
  refine ⟨?_, fun x hx => ?_⟩
  · have hkept : places.map mem'' = places.map mem' :=
      map_congr_left fun x hx => h'.frame x (hapart x hx)
    rw [map_append, hkept, h.read, h'.read]
  · rw [mem_append, not_or] at hx
    rw [h'.frame x hx.2, h.frame x hx.1]

theorem middle (h : Put mem mem' (front ++ places ++ back) (front.map mem ++ image ++ back.map mem))
    (hlen : places.length = image.length) : Put mem mem' places image := by
  have hread := h.read
  rw [map_append, map_append] at hread
  obtain ⟨hfirst, hback⟩ := append_inj hread (by simp [hlen])
  obtain ⟨hfront, hplaces⟩ := append_inj hfirst (by simp)
  refine ⟨hplaces, fun x hx => ?_⟩
  by_cases hf : x ∈ front
  · exact map_inj_left.mp hfront x hf
  · by_cases hb : x ∈ back
    · exact map_inj_left.mp hback x hb
    · exact h.frame x (by simp [hf, hb, hx])

end Put

variable {mem fresh buf : Mem} {a k n m : ℕ} {old : List UInt8}

theorem map_range' : (List.range' a n).map mem = bytes mem a n := by
  rw [bytes, range'_eq_map_range, map_map]
  rfl

theorem map_take_range' : ((List.range' a n).take m).map mem = bytes mem a (min m n) := by
  rw [map_take, map_range', take_bytes]

theorem put_store (mem : Mem) (a : ℕ) (bs : List UInt8) :
    Put mem (store mem a bs) (List.range' a bs.length) bs := by
  refine ⟨by rw [map_range', bytes_store_same], fun x hx => store_outside mem a bs ?_⟩
  rw [mem_range'_1] at hx
  lia

theorem bytes_patch (h : k + n ≤ old.length) :
    bytes (store (store fresh a old) (a + k) (bytes buf 0 n)) a old.length
      = old.take k ++ bytes buf 0 n ++ old.drop (k + n) := by
  obtain ⟨r, hr⟩ := Nat.exists_eq_add_of_le h
  have hold := bytes_store_same fresh a old
  have hnew := bytes_store_same (store fresh a old) (a + k) (bytes buf 0 n)
  rw [length_bytes] at hnew
  have hfront : bytes (store fresh a old) a k = old.take k := by
    rw [← hold, take_bytes, hold, Nat.min_eq_left (by lia)]
  have hback : bytes (store fresh a old) (a + (k + n)) r = old.drop (k + n) := by
    rw [← hold, drop_bytes _ _ _ _ (by lia), hold, hr, Nat.add_sub_cancel_left]
  rw [hr, bytes_add, bytes_add, hnew, bytes_store_apart _ _ _ _ _ (by lia), hfront,
    bytes_store_apart _ _ _ _ _ (by rw [length_bytes]; lia), hback]

end UBoot.Memory
