import Mathlib.Tactic

/-!
# Flat memory

Bytes at addresses, the bytes of a range as a list, and two copies: an ascending one that moves
words while both ends are aligned, and one that picks its direction. Both amount to one store of the
bytes read before.
-/

namespace UBoot.Memory

open List

abbrev Mem := ℕ → UInt8

/- The `n` bytes from address `a` on. -/
def bytes (mem : Mem) (a n : ℕ) : List UInt8 := (List.range n).map fun i => mem (a + i)

/- Memory after the bytes `bs` have been put at `a`. -/
def store (mem : Mem) (a : ℕ) (bs : List UInt8) : Mem :=
  fun x => if a ≤ x then bs.getD (x - a) (mem x) else mem x

section Basic

variable (mem : Mem) (a b n m : ℕ) (bs cs : List UInt8)

@[simp] theorem length_bytes : (bytes mem a n).length = n := by
  simp [bytes]

@[simp] theorem bytes_zero : bytes mem a 0 = [] := rfl

variable {i : ℕ}

theorem getElem?_bytes (h : i < n) : (bytes mem a n)[i]? = some (mem (a + i)) := by
  simp [bytes, h]

theorem bytes_add : bytes mem a (n + m) = bytes mem a n ++ bytes mem (a + n) m := by
  simp only [bytes, range_add, map_append, map_map, append_cancel_left_eq, map_inj_left]
  intro i _
  simp [Nat.add_assoc]

theorem bytes_append_inj {xs ys : List UInt8} (h : bytes mem a (n + m) = xs ++ ys)
    (hx : xs.length = n) : bytes mem a n = xs ∧ bytes mem (a + n) m = ys := by
  rw [bytes_add] at h
  exact append_inj h (by rw [length_bytes, hx])

theorem bytes_succ : bytes mem a (n + 1) = mem a :: bytes mem (a + 1) n := by
  rw [Nat.add_comm, bytes_add]
  simp [bytes]

theorem take_bytes : (bytes mem a n).take m = bytes mem a (min m n) := by
  rw [bytes, ← map_take, take_range, bytes]

theorem drop_bytes (h : m ≤ n) : (bytes mem a n).drop m = bytes mem (a + m) (n - m) := by
  obtain ⟨k, rfl⟩ := Nat.exists_eq_add_of_le h
  have hl : (bytes mem a m).length = m := by simp
  rw [bytes_add, Nat.add_sub_cancel_left]
  exact drop_left' hl

theorem bytes_congr {mem mem' : Mem} (h : ∀ x, a ≤ x → x < a + n → mem x = mem' x) :
    bytes mem a n = bytes mem' a n := by
  simp only [bytes, map_inj_left, mem_range]
  intro i hi
  exact h (a + i) (by lia) (by lia)

theorem store_at (h : i < bs.length) : store mem a bs (a + i) = bs[i] := by
  simp [store, h]

variable {x : ℕ}

theorem store_below (h : x < a) : store mem a bs x = mem x := by
  simp [store, Nat.not_le.mpr h]

theorem store_above (h : a + bs.length ≤ x) : store mem a bs x = mem x := by
  have hl : bs.length ≤ x - a := by lia
  simp [store, hl]

theorem store_outside (h : x < a ∨ a + bs.length ≤ x) : store mem a bs x = mem x := by
  cases h with
  | inl h => exact store_below mem a bs h
  | inr h => exact store_above mem a bs h

@[simp] theorem store_nil : store mem a [] = mem := by
  funext x
  simp [store]

theorem store_append : store mem a (bs ++ cs) = store (store mem a bs) (a + bs.length) cs := by
  funext x
  by_cases hx : x < a + bs.length
  · rw [store_below _ _ _ hx]
    by_cases ha : a ≤ x
    · simp [store, ha, getElem?_append_left (show x - a < bs.length by lia)]
    · rw [store_below _ _ _ (by lia), store_below _ _ _ (by lia)]
  · have ha : a ≤ x := by lia
    have hm : store mem a bs x = mem x := store_above mem a bs (by lia)
    simp only [store, ha, if_true, show a + bs.length ≤ x by lia] at hm ⊢
    simp only [getD_eq_getElem?_getD] at hm ⊢
    rw [hm, getElem?_append_right (by lia), show x - a - bs.length = x - (a + bs.length) by lia]

theorem bytes_store_same : bytes (store mem a bs) a bs.length = bs := by
  apply ext_getElem
  · simp
  · intro i h₁ h₂
    simp [bytes, store_at mem a bs h₂]

theorem store_shift {mem mem' : Mem} (h : mem i = mem' (b + i)) :
    store mem a bs i = store mem' (b + a) bs (b + i) := by
  simp only [store, Nat.add_le_add_iff_left, Nat.add_sub_add_left, h]

theorem bytes_store_apart (h : b + n ≤ a ∨ a + bs.length ≤ b) :
    bytes (store mem a bs) b n = bytes mem b n := by
  apply bytes_congr
  intro x h₁ h₂
  exact store_outside mem a bs (by lia)

end Basic

/- `while (count--) *d++ = *s++`. -/
def copyUp (mem : Mem) (d s : ℕ) : ℕ → Mem
  | 0 => mem
  | count + 1 => copyUp (store mem d [mem s]) (d + 1) (s + 1) count

/- `while (count--) *--d = *--s`, with `d` and `s` at the ends. -/
def copyDown (mem : Mem) (d s : ℕ) : ℕ → Mem
  | 0 => mem
  | count + 1 => copyDown (store mem (d + count) [mem (s + count)]) d s count

/- `memcpy`: `words` counts the turns of the word loop. -/
def copyWords (w : ℕ) (mem : Mem) (d s : ℕ) : ℕ → Mem
  | 0 => mem
  | words + 1 => copyWords w (store mem d (bytes mem s w)) (d + w) (s + w) words

def memcpy (w : ℕ) (mem : Mem) (dest src count : ℕ) : Mem :=
  if src = dest then mem
  else if dest % w = 0 ∧ src % w = 0 then
    let words := count / w
    copyUp (copyWords w mem dest src words) (dest + words * w) (src + words * w) (count % w)
  else copyUp mem dest src count

def memmove (mem : Mem) (dest src count : ℕ) : Mem :=
  if src = dest then mem
  else if dest ≤ src then copyUp mem dest src count
  else copyDown mem dest src count

section Copies

variable (mem : Mem) (d s n k : ℕ)

theorem store_chunk (h : d ≤ s ∨ s + (k + n) ≤ d) :
    store (store mem d (bytes mem s k)) (d + k)
        (bytes (store mem d (bytes mem s k)) (s + k) n) =
      store mem d (bytes mem s (k + n)) := by
  have hap : bytes (store mem d (bytes mem s k)) (s + k) n = bytes mem (s + k) n := by
    apply bytes_store_apart
    rw [length_bytes]
    lia
  have happ := store_append mem d (bytes mem s k) (bytes mem (s + k) n)
  rw [length_bytes] at happ
  rw [hap, bytes_add, happ]

theorem copyUp_eq (h : d ≤ s ∨ s + n ≤ d) : copyUp mem d s n = store mem d (bytes mem s n) := by
  induction n generalizing mem d s with
  | zero => simp [copyUp]
  | succ n ih =>
    have hone : bytes mem s 1 = [mem s] := by simp [bytes]
    have hchunk := store_chunk mem d s n 1 (by lia)
    rw [hone] at hchunk
    rw [copyUp, ih _ _ _ (by lia), hchunk, Nat.add_comm 1 n]

theorem store_bytes_self : store mem d (bytes mem d n) = mem := by
  funext x
  by_cases hx : d ≤ x ∧ x < d + n
  · obtain ⟨i, rfl⟩ := Nat.exists_eq_add_of_le hx.1
    have hi : i < (bytes mem d n).length := by
      rw [length_bytes]
      lia
    rw [store_at mem d _ hi]
    simp [bytes]
  · exact store_outside mem d _ (by
      rw [length_bytes]
      lia)

theorem copyDown_eq (h : s ≤ d) : copyDown mem d s n = store mem d (bytes mem s n) := by
  induction n generalizing mem with
  | zero => simp [copyDown]
  | succ n ih =>
    -- the byte at the top is written first, so the rest is still as it was
    have hap : bytes (store mem (d + n) [mem (s + n)]) s n = bytes mem s n := by
      apply bytes_store_apart
      lia
    have hone : bytes mem (s + n) 1 = [mem (s + n)] := by simp [bytes]
    rw [copyDown, ih, hap, bytes_add, hone]
    funext x
    by_cases hx : x < d + n
    · have happ := store_append mem d (bytes mem s n) [mem (s + n)]
      rw [length_bytes] at happ
      rw [happ, store_below _ _ _ hx]
      by_cases hd : d ≤ x
      · simp only [store, hd, if_true]
        have hlt : x - d < (bytes mem s n).length := by
          rw [length_bytes]
          lia
        simp [getElem?_eq_getElem hlt]
      · rw [store_below _ _ _ (by lia), store_below _ _ _ hx, store_below _ _ _ (by lia)]
    · have happ := store_append mem d (bytes mem s n) [mem (s + n)]
      rw [length_bytes] at happ
      have hrest : store mem d (bytes mem s n) x = mem x :=
        store_above mem d _ (by rw [length_bytes]; lia)
      rw [happ, store_above _ d _ (by rw [length_bytes]; lia)]
      simp only [store, show d + n ≤ x by lia, if_true] at hrest ⊢
      rw [hrest]

theorem memmove_eq : memmove mem d s n = store mem d (bytes mem s n) := by
  unfold memmove
  split
  · next heq =>
    subst heq
    exact (store_bytes_self mem s n).symm
  · split
    · next hle => exact copyUp_eq mem d s n (.inl hle)
    · next hlt => exact copyDown_eq mem d s n (by lia)

end Copies

/- `memcmp` of two objects, up to the first difference; `none` is a byte read outside of
one of them. -/
def memcmp : List UInt8 → List UInt8 → ℕ → Option ℤ
  | _, _, 0 => some 0
  | a :: as, b :: bs, count + 1 =>
    let res := (a.toNat : ℤ) - b.toNat
    if res ≠ 0 then some res else memcmp as bs count
  | _, _, _ + 1 => none

theorem memcmp_agree {as bs : List UInt8} {n m : ℕ} (hm : m = min n (min as.length bs.length))
    (h : as.take m = bs.take m) :
    memcmp as bs n = if n ≤ min as.length bs.length then some 0 else none := by
  induction n generalizing as bs m with
  | zero => simp [memcmp]
  | succ n ih =>
    match as, bs with
    | [], bs => simp [memcmp]
    | a :: as, [] => simp [memcmp]
    | a :: as, b :: bs =>
      simp only [length_cons] at hm ⊢
      obtain ⟨k, rfl⟩ : ∃ k, m = k + 1 := ⟨m - 1, by lia⟩
      rw [take_succ_cons, take_succ_cons, List.cons.injEq] at h
      have hrest := ih (show k = min n (min as.length bs.length) by lia) h.2
      simp only [memcmp, h.1, sub_self, ne_eq, not_true_eq_false, if_false, hrest,
        Nat.succ_min_succ, Nat.succ_le_succ_iff]

theorem memcmp_differ {as bs : List UInt8} {n m : ℕ} (hm : m ≤ n) (h : as.take m ≠ bs.take m)
    (ha : m ≤ as.length) (hb : m ≤ bs.length) : ∃ res, memcmp as bs n = some res ∧ res ≠ 0 := by
  induction n generalizing as bs m with
  | zero =>
    have hm0 : m = 0 := by lia
    subst hm0
    simp at h
  | succ n ih =>
    match as, bs, m with
    | _, _, 0 => simp at h
    | [], _, k + 1 => simp at ha
    | a :: as, [], k + 1 => simp at hb
    | a :: as, b :: bs, k + 1 =>
      simp only [memcmp]
      by_cases hab : (a.toNat : ℤ) - b.toNat = 0
      · have heq : a = b := UInt8.toNat_inj.mp (by lia)
        have hne : as.take k ≠ bs.take k := by
          intro htake
          exact h (by rw [take_succ_cons, take_succ_cons, heq, htake])
        obtain ⟨res, hres, hnz⟩ := ih (by lia) hne (by simpa using ha) (by simpa using hb)
        exact ⟨res, by simp [hab, hres], hnz⟩
      · exact ⟨_, by simp [hab], hab⟩

end UBoot.Memory
