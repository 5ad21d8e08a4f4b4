import Mathlib.Tactic

/-!
# The circular buffer (lib/circbuf.c)

Pointers are offsets in the data area, whose end is `totalsize`.
-/

namespace UBoot.Circ

open Function List Nat

structure Circbuf where
  size : ℕ
  totalsize : ℕ
  data : ℕ → UInt8
  top : ℕ
  tail : ℕ

def bufInit (data : ℕ → UInt8) (size : ℕ) : Circbuf := ⟨0, size, data, 0, 0⟩

/- The pointer behind `p`, with the bounds check. -/
def Circbuf.after (buf : Circbuf) (p : ℕ) : ℕ := if p + 1 = buf.totalsize then 0 else p + 1

/- The loop of `buf_pop`: the bytes and the pointer. -/
def popLoop (buf : Circbuf) : ℕ → ℕ → List UInt8 × ℕ
  | 0, p => ([], p)
  | n + 1, p =>
    let (dest, q) := popLoop buf n (buf.after p)
    (buf.data p :: dest, q)

/- What is stored at `dest`; its length is returned. -/
def bufPop (buf : Circbuf) (len : ℕ) : List UInt8 × Circbuf :=
  let len := if buf.size < len then buf.size else len
  let (dest, p) := popLoop buf len buf.top
  (dest, { buf with top := p, size := buf.size - len })

/- A turn of the loop of `buf_push`: too much data just replaces old data. -/
def Circbuf.put (buf : Circbuf) (p : ℕ) (c : UInt8) : Circbuf :=
  let buf := { buf with data := update buf.data p c }
  if buf.size < buf.totalsize then { buf with size := buf.size + 1 }
  else { buf with top := buf.after buf.top }

def pushLoop (buf : Circbuf) (p : ℕ) : List UInt8 → Circbuf × ℕ
  | [] => (buf, p)
  | c :: src => pushLoop (buf.put p c) (buf.after p) src

def bufPush (buf : Circbuf) (src : List UInt8) : Circbuf :=
  let (buf, p) := pushLoop buf buf.tail src
  { buf with tail := p }

inductive Call where
  | push (src : List UInt8)
  | pop (len : ℕ)

def Circbuf.call (buf : Circbuf) : Call → List UInt8 × Circbuf
  | .push src => ([], bufPush buf src)
  | .pop len => bufPop buf len

def newest (n : ℕ) (bytes : List UInt8) : List UInt8 := bytes.drop (bytes.length - n)

/- On the bytes pushed and not yet popped; a pop takes along what was overwritten in front of it. -/
def pending (n : ℕ) (bytes : List UInt8) : Call → List UInt8 × List UInt8
  | .push src => ([], bytes ++ src)
  | .pop len => ((newest n bytes).take len, (newest n bytes).drop len)

structure Holds (buf : Circbuf) (n : ℕ) (bytes : List UInt8) : Prop where
  total : buf.totalsize = n
  top : buf.top < n
  size : buf.size = min n bytes.length
  kept : ∀ i < buf.size, bytes[bytes.length - buf.size + i]? = some (buf.data ((buf.top + i) % n))

section Steps

variable {buf : Circbuf} {n : ℕ} {bytes : List UInt8}

theorem after_eq (h : buf.totalsize = n) {p : ℕ} (hp : p < n) : buf.after p = (p + 1) % n := by
  rw [Circbuf.after, h]
  split
  next heq => rw [heq, mod_self]
  next hne => rw [mod_eq_of_lt (by lia)]

theorem mod_inj {a i j : ℕ} (hi : i < n) (hj : j < n) (h : (a + i) % n = (a + j) % n) : i = j :=
  (Nat.ModEq.add_left_cancel' a h).eq_of_lt_of_lt hi hj

theorem popLoop_eq (h : buf.totalsize = n) (k : ℕ) {p : ℕ} (hp : p < n) :
    popLoop buf k p = ((List.range k).map fun i => buf.data ((p + i) % n), (p + k) % n) := by
  induction k generalizing p with
  | zero => rw [popLoop, Nat.add_zero, mod_eq_of_lt hp]; rfl
  | succ k ih =>
    rw [popLoop, after_eq h hp, ih (mod_lt _ (by lia)), range_succ_eq_map, map_cons, map_map]
    refine Prod.ext ?_ ?_
    · dsimp only
      rw [Nat.add_zero p, mod_eq_of_lt hp]
      refine congrArg _ (map_congr_left fun i _ => ?_)
      rw [comp_apply, mod_add_mod, Nat.add_assoc, Nat.add_comm 1 i]
    · dsimp only
      rw [mod_add_mod, Nat.add_assoc, Nat.add_comm 1 k]

theorem put_holds (h : Holds buf n bytes) (c : UInt8) :
    Holds (buf.put ((buf.top + buf.size) % n) c) n (bytes ++ [c]) ∧
      buf.after ((buf.top + buf.size) % n) = ((buf.put ((buf.top + buf.size) % n) c).top +
        (buf.put ((buf.top + buf.size) % n) c).size) % n := by
  obtain ⟨htotal, htop, hsize, hkept⟩ := h
  have hlen : (bytes ++ [c]).length = bytes.length + 1 := length_append
  have hpos : 0 < n := by lia
  have hafter := after_eq htotal (mod_lt (buf.top + buf.size) hpos)
  have hkept' : ∀ i < buf.size, (bytes ++ [c])[bytes.length - buf.size + i]? =
      some (buf.data ((buf.top + i) % n)) := by
    intro i hi
    rw [getElem?_append_left (by lia)]
    exact hkept i hi
  have hlast : (bytes ++ [c])[bytes.length]? = some c := getElem?_concat_length ..
  rw [hafter, mod_add_mod]
  by_cases hroom : buf.size < n
  · have hput : buf.put ((buf.top + buf.size) % n) c = ⟨buf.size + 1, buf.totalsize,
        update buf.data ((buf.top + buf.size) % n) c, buf.top, buf.tail⟩ :=
      if_pos (htotal ▸ hroom)
    rw [hput]
    refine ⟨⟨htotal, htop, by dsimp only; lia, fun i hi => ?_⟩, by rw [Nat.add_assoc]⟩
    dsimp only at hi ⊢
    rw [hlen, show bytes.length + 1 - (buf.size + 1) + i = bytes.length - buf.size + i by lia]
    rcases Nat.lt_or_ge i buf.size with hlt | hge
    · rw [update_of_ne fun heq => hlt.ne (mod_inj (by lia) hroom heq), hkept' i hlt]
    · rw [show i = buf.size by lia, update_self,
        show bytes.length - buf.size + buf.size = bytes.length by lia, hlast]
  · -- the first byte gives way
    have hfull : buf.size = n := by lia
    have hput : buf.put ((buf.top + buf.size) % n) c = ⟨buf.size, buf.totalsize,
        update buf.data ((buf.top + buf.size) % n) c, buf.after buf.top, buf.tail⟩ :=
      if_neg (htotal ▸ hroom)
    rw [hput, after_eq htotal htop]
    refine ⟨⟨htotal, mod_lt _ hpos, by dsimp only; lia, fun i hi => ?_⟩, ?_⟩
    · dsimp only at hi ⊢
      rw [mod_add_mod, hlen, hfull, add_mod_right, Nat.add_assoc, Nat.add_comm 1 i]
      rcases Nat.lt_or_ge (i + 1) n with hlt | hge
      · rw [update_of_ne fun heq : (buf.top + (i + 1)) % n = buf.top % n =>
            succ_ne_zero i (mod_inj (j := 0) hlt hpos heq),
          show bytes.length + 1 - n + i = bytes.length - buf.size + (i + 1) by lia]
        exact hkept' (i + 1) (by lia)
      · rw [show i + 1 = n by lia, add_mod_right, update_self,
          show bytes.length + 1 - n + i = bytes.length by lia, hlast]
    · dsimp only
      rw [mod_add_mod, Nat.add_right_comm]

theorem pushLoop_holds (h : Holds buf n bytes) (src : List UInt8) :
    Holds (pushLoop buf ((buf.top + buf.size) % n) src).1 n (bytes ++ src) ∧
      (pushLoop buf ((buf.top + buf.size) % n) src).2 =
        ((pushLoop buf ((buf.top + buf.size) % n) src).1.top +
          (pushLoop buf ((buf.top + buf.size) % n) src).1.size) % n := by
  induction src generalizing buf bytes with
  | nil =>
    rw [append_nil]
    exact ⟨h, rfl⟩
  | cons c src ih =>
    obtain ⟨hput, hp⟩ := put_holds h c
    have hrest := ih hput
    rw [← hp, append_assoc, singleton_append] at hrest
    exact hrest

theorem content_eq (h : Holds buf n bytes) :
    (List.range buf.size).map (fun i => buf.data ((buf.top + i) % n)) = newest n bytes := by
  have hsize := h.size
  have hstart : bytes.length - n = bytes.length - buf.size := by lia
  apply ext_getElem?
  intro i
  rw [newest, hstart, getElem?_drop]
  rcases Nat.lt_or_ge i buf.size with hlt | hge
  · rw [getElem?_map, getElem?_range hlt, h.kept i hlt]
    rfl
  · rw [getElem?_eq_none (by simpa using hge), getElem?_eq_none (by lia)]

structure Queued (buf : Circbuf) (n : ℕ) (bytes : List UInt8) : Prop extends Holds buf n bytes where
  tail : buf.tail = (buf.top + buf.size) % n

theorem call_queued (h : Queued buf n bytes) (call : Call) :
    Queued (buf.call call).2 n (pending n bytes call).2 ∧
      (buf.call call).1 = (pending n bytes call).1 := by
  cases call with
  | push src =>
    obtain ⟨hpush, hp⟩ := pushLoop_holds h.toHolds src
    rw [← h.tail] at hpush hp
    exact ⟨⟨⟨hpush.total, hpush.top, hpush.size, hpush.kept⟩, hp⟩, rfl⟩
  | pop len =>
    have hmin : (if buf.size < len then buf.size else len) = min len buf.size := by
      split <;> lia
    have hcontent := content_eq h.toHolds
    have hsize := h.size
    have hlen : (newest n bytes).length = buf.size := by
      rw [← hcontent, length_map, length_range]
    rw [Circbuf.call, bufPop, hmin, popLoop_eq h.total _ h.top, pending]
    have hpos : 0 < n := zero_lt_of_lt h.top
    refine ⟨⟨⟨h.total, mod_lt _ hpos, ?_, fun i hi => ?_⟩, ?_⟩, ?_⟩
    · rw [length_drop, hlen]
      dsimp only
      lia
    · dsimp only at hi ⊢
      rw [length_drop, hlen, mod_add_mod, getElem?_drop,
        show len + (buf.size - len - (buf.size - min len buf.size) + i) = min len buf.size + i by lia,
        ← hcontent, getElem?_map, getElem?_range (by lia), Nat.add_assoc]
      rfl
    · dsimp only
      rw [h.tail, mod_add_mod, Nat.add_assoc, Nat.add_sub_cancel' (Nat.min_le_right ..)]
    · dsimp only
      rw [← hcontent, ← map_take, take_range]

end Steps

def calls {σ : Type} (call : σ → Call → List UInt8 × σ) (s : σ) : List Call → List (List UInt8) × σ
  | [] => ([], s)
  | c :: cs =>
    let (out, s) := call s c
    let (outs, s) := calls call s cs
    (out :: outs, s)

/-- After any calls the buffer has the newest bytes of those pushed and not yet popped. -/
theorem circbuf_newest (data : ℕ → UInt8) {n : ℕ} (hn : 0 < n) (cs : List Call) :
    let buf := (calls Circbuf.call (bufInit data n) cs).2
    let bytes := (calls (pending n) [] cs).2
    (calls Circbuf.call (bufInit data n) cs).1 = (calls (pending n) [] cs).1 ∧
      buf.size = min n bytes.length ∧
      (List.range buf.size).map (fun i => buf.data ((buf.top + i) % n)) = newest n bytes ∧
      buf.top < n ∧ buf.tail < n ∧ (buf.tail + (n - buf.top)) % n = buf.size % n := by
  have hstart : Queued (bufInit data n) n [] :=
    ⟨⟨rfl, hn, (Nat.min_zero n).symm, fun i hi => absurd hi (Nat.not_lt_zero i)⟩,
      (mod_eq_of_lt hn).symm⟩
  have hrun : ∀ (buf : Circbuf) (bytes : List UInt8), Queued buf n bytes →
      (calls Circbuf.call buf cs).1 = (calls (pending n) bytes cs).1 ∧
        Queued (calls Circbuf.call buf cs).2 n (calls (pending n) bytes cs).2 := by
    induction cs with
    | nil => exact fun buf bytes h => ⟨rfl, h⟩
    | cons c cs ih =>
      intro buf bytes h
      obtain ⟨hnext, hout⟩ := call_queued h c
      obtain ⟨houts, hlast⟩ := ih _ _ hnext
      exact ⟨cons_eq_cons.mpr ⟨hout, houts⟩, hlast⟩
  obtain ⟨houts, h⟩ := hrun _ _ hstart
  refine ⟨houts, h.size, content_eq h.toHolds, h.top, ?_, ?_⟩
  · rw [h.tail]
    exact mod_lt _ hn
  · have htop := h.top
    rw [h.tail, mod_add_mod, Nat.add_right_comm, Nat.add_sub_cancel' htop.le, add_mod_left]

theorem circbuf_newest_overwritten : (calls Circbuf.call (bufInit (fun _ => 0) 2)
    [.push [1, 2, 3], .pop 5]).1 = [[], [2, 3]] :=
  (circbuf_newest (fun _ => 0) (n := 2) (by decide) [.push [1, 2, 3], .pop 5]).1

end UBoot.Circ
