import UBoot.Net.Defrag

/-!
# The hole list in the payload

What each update of `__net_defragment` does to the list of hole descriptors. A link of 0 is taken
for the end: a hole behind the one at index 0 is treated as the first one.
-/

namespace UBoot.Defrag

open Memory DList Function List Option

section Bytes

variable (mem : Mem) (a b i j v : ℕ)

theorem word16_set_same : word16 (setWord16 mem a v) a = v % 2 ^ 16 := by
  have hlow : store mem a [UInt8.ofNat v, UInt8.ofNat (v / 256)] a = UInt8.ofNat v := by
    simp [store]
  have hhigh : store mem a [UInt8.ofNat v, UInt8.ofNat (v / 256)] (a + 1) =
      UInt8.ofNat (v / 256) := by
    simp [store]
  simp only [word16, setWord16, hlow, hhigh, UInt8.toNat_ofNat']
  lia

theorem setWord16_outside {x : ℕ} (h : x < a ∨ a + 2 ≤ x) : setWord16 mem a v x = mem x :=
  store_outside mem a _ h

theorem word16_set_apart (h : b + 2 ≤ a ∨ a + 2 ≤ b) : word16 (setWord16 mem a v) b = word16 mem b := by
  simp only [word16]
  rw [setWord16_outside mem a v (by lia), setWord16_outside mem a v (by lia)]

theorem hole_set_other {i k b : ℕ} (hk : k ≠ i) (hb : 8 * i ≤ b) (hend : b + 2 ≤ 8 * i + 8) :
    hole (setWord16 mem b v) k = hole mem k := by
  simp only [hole]
  rw [word16_set_apart _ _ _ _ (by lia), word16_set_apart _ _ _ _ (by lia),
    word16_set_apart _ _ _ _ (by lia)]

theorem hole_set {i b : ℕ} (hb : 8 * i ≤ b) (hend : b + 2 ≤ 8 * i + 8) :
    hole (setWord16 mem b v) = update (hole mem) i (hole (setWord16 mem b v) i) := by
  funext k
  by_cases hk : k = i
  · rw [hk, update_self]
  · rw [update_of_ne hk]
    exact hole_set_other mem v hk hb hend

theorem hole_setLast : hole (setWord16 mem (8 * i) v) =
    update (hole mem) i { hole mem i with val := v % 2 ^ 16 } := by
  rw [hole_set mem v (Nat.le_refl _) (by lia)]
  simp only [hole, word16_set_same]
  rw [word16_set_apart _ _ _ _ (by lia), word16_set_apart _ _ _ _ (by lia)]

theorem hole_setNext : hole (setWord16 mem (8 * i + 2) v) =
    update (hole mem) i { hole mem i with next := v % 2 ^ 16 } := by
  rw [hole_set mem v (Nat.le_add_right _ _) (by lia)]
  simp only [hole, word16_set_same]
  rw [word16_set_apart _ _ _ _ (by lia), word16_set_apart _ _ _ _ (by lia)]

theorem hole_setPrev : hole (setWord16 mem (8 * i + 4) v) =
    update (hole mem) i { hole mem i with prev := v % 2 ^ 16 } := by
  rw [hole_set mem v (Nat.le_add_right _ _) (by lia)]
  simp only [hole, word16_set_same]
  rw [word16_set_apart _ _ _ _ (by lia), word16_set_apart _ _ _ _ (by lia)]

theorem hole_store_apart {bs : List UInt8} (h : 8 * i + 8 ≤ a ∨ a + bs.length ≤ 8 * i) :
    hole (store mem a bs) i = hole mem i := by
  have hsame : ∀ x, 8 * i ≤ x → x < 8 * i + 8 → store mem a bs x = mem x :=
    fun x h₁ h₂ => store_outside mem a bs (by lia)
  simp only [hole, word16]
  rw [hsame _ (by lia) (by lia), hsame _ (by lia) (by lia), hsame _ (by lia) (by lia),
    hsame _ (by lia) (by lia), hsame _ (by lia) (by lia), hsame _ (by lia) (by lia)]

theorem hole_copy : hole (store mem (8 * j) (bytes mem (8 * i) 8)) =
    update (hole mem) j (hole mem i) := by
  funext k
  by_cases hk : k = j
  · subst hk
    have hbyte : ∀ d, d < 8 →
        store mem (8 * k) (bytes mem (8 * i) 8) (8 * k + d) = mem (8 * i + d) := by
      intro d hd
      rw [store_at mem (8 * k) _ (by simpa using hd)]
      simp [bytes]
    have h0 := hbyte 0 (by norm_num)
    rw [Nat.add_zero, Nat.add_zero] at h0
    simp only [update_self, hole, word16, h0, hbyte 1 (by norm_num),
      hbyte 2 (by norm_num), hbyte 4 (by norm_num), Nat.add_assoc, Nat.reduceAdd,
      hbyte 3 (by norm_num), hbyte 5 (by norm_num)]
  · rw [update_of_ne hk]
    apply hole_store_apart
    rw [length_bytes]
    lia

end Bytes

/- From `s` to `s'` only the descriptor at `i` changes, to `v`. -/
structure Touched (s : State) (i : ℕ) (v : Node ℕ) (s' : State) : Prop where
  node : hole s'.mem = update (hole s.mem) i v
  frame : ∀ x, x < 8 * i ∨ 8 * i + 8 ≤ x → s'.mem x = s.mem x
  firstHole : s'.firstHole = s.firstHole
  holes : s'.holes = s.holes
  hdr : s'.hdr = s.hdr
  totalLen : s'.totalLen = s.totalLen
  finished : s'.finished = s.finished

section Access

variable {s : State} {i v : ℕ}

theorem access_ok (hi : 8 * i + 8 ≤ ipMaxUdp) (ht : s.holes i = true) : access s i = .ok () := by
  simp only [access, not_lt.mpr hi, if_false, ht, if_true]

theorem setLast_ok (hi : 8 * i + 8 ≤ ipMaxUdp) (ht : s.holes i = true) (hv : v < 2 ^ 16) :
    ∃ s', setLast s i v = .ok s' ∧ Touched s i { hole s.mem i with val := v } s' := by
  refine ⟨_, by simp only [setLast, setField, access_ok hi ht, Except.map]; rfl, ?_⟩
  refine ⟨?_, fun x hx => setWord16_outside _ _ _ (by lia), rfl, rfl, rfl, rfl, rfl⟩
  have h := hole_setLast s.mem i v
  rwa [Nat.mod_eq_of_lt hv] at h

theorem setNext_ok (hi : 8 * i + 8 ≤ ipMaxUdp) (ht : s.holes i = true) (hv : v < 2 ^ 16) :
    ∃ s', setNext s i v = .ok s' ∧ Touched s i { hole s.mem i with next := v } s' := by
  refine ⟨_, by simp only [setNext, setField, access_ok hi ht, Except.map]; rfl, ?_⟩
  refine ⟨?_, fun x hx => setWord16_outside _ _ _ (by lia), rfl, rfl, rfl, rfl, rfl⟩
  have h := hole_setNext s.mem i v
  rwa [Nat.mod_eq_of_lt hv] at h

theorem setPrev_ok (hi : 8 * i + 8 ≤ ipMaxUdp) (ht : s.holes i = true) (hv : v < 2 ^ 16) :
    ∃ s', setPrev s i v = .ok s' ∧ Touched s i { hole s.mem i with prev := v } s' := by
  refine ⟨_, by simp only [setPrev, setField, access_ok hi ht, Except.map]; rfl, ?_⟩
  refine ⟨?_, fun x hx => setWord16_outside _ _ _ (by lia), rfl, rfl, rfl, rfl, rfl⟩
  have h := hole_setPrev s.mem i v
  rwa [Nat.mod_eq_of_lt hv] at h

end Access

/- The descriptors at the indices of `hs`, with their ends, are the whole list. -/
structure Listed (s : State) (hs : List (ℕ × ℕ)) : Prop where
  first : s.firstHole = headOr hs 0
  seg : Seg (hole s.mem) 0 hs 0
  asc : Ascending hs
  inside : ∀ h ∈ hs, 8 * h.1 + 8 ≤ ipMaxUdp
  tagged : ∀ h ∈ hs, s.holes h.1 = true

/- From `s` to `s'` only descriptors of `xs` change. -/
structure Only (xs : List (ℕ × ℕ)) (s s' : State) : Prop where
  nodes : ∀ k, (∀ x ∈ xs, x.1 ≠ k) → hole s'.mem k = hole s.mem k
  frame : ∀ a, (∀ x ∈ xs, a < 8 * x.1 ∨ 8 * x.1 + 8 ≤ a) → s'.mem a = s.mem a
  holes : s'.holes = s.holes
  hdr : s'.hdr = s.hdr
  totalLen : s'.totalLen = s.totalLen
  finished : s'.finished = s.finished

theorem ipMaxUdp_eq : ipMaxUdp = 16464 := rfl

section Lists

variable {s s₁ s' : State} {hs pre post : List (ℕ × ℕ)} {c e i j : ℕ} {v : Node ℕ}

variable {xs : List (ℕ × ℕ)}

theorem Touched.only {x : ℕ × ℕ} (hx : x ∈ xs) (h : Touched s x.1 v s') : Only xs s s' := by
  refine ⟨?_, fun a ha => h.frame a (ha x hx), h.holes, h.hdr, h.totalLen, h.finished⟩
  intro k hk
  rw [h.node, update_of_ne (hk x hx).symm]

theorem Only.refl (xs : List (ℕ × ℕ)) (s : State) : Only xs s s :=
  ⟨fun _ _ => rfl, fun _ _ => rfl, rfl, rfl, rfl, rfl⟩

variable {ys : List (ℕ × ℕ)}

theorem Only.trans (h₁ : Only xs s s₁) (h₂ : Only ys s₁ s') : Only (xs ++ ys) s s' := by
  constructor
  · intro k hk
    rw [h₂.nodes k fun x hx => hk x (mem_append_right xs hx),
      h₁.nodes k fun x hx => hk x (mem_append_left ys hx)]
  · intro a ha
    rw [h₂.frame a fun x hx => ha x (mem_append_right xs hx),
      h₁.frame a fun x hx => ha x (mem_append_left ys hx)]
  · exact h₂.holes.trans h₁.holes
  · exact h₂.hdr.trans h₁.hdr
  · exact h₂.totalLen.trans h₁.totalLen
  · exact h₂.finished.trans h₁.finished

variable {n p : ℕ}

theorem Only.seg (h : Only xs s s') (hseg : Seg (hole s.mem) p ys n)
    (hne : ∀ y ∈ ys, ∀ x ∈ xs, x.1 ≠ y.1) : Seg (hole s'.mem) p ys n :=
  hseg.congr fun y hy => h.nodes y.1 (hne y hy)

theorem walk_seg {start fuel : ℕ} (hseg : Seg (hole s.mem) p hs 0) (hasc : Ascending hs)
    (hin : ∀ h ∈ hs, 8 * h.1 + 8 ≤ ipMaxUdp) (ht : ∀ h ∈ hs, s.holes h.1 = true)
    (hne : hs ≠ []) (hfuel : hs.length ≤ fuel) :
    walk s start fuel (headOr hs 0) = .ok ((hs.find? fun h => start ≤ h.2).map Prod.fst) := by
  induction hs generalizing p fuel with
  | nil => exact absurd rfl hne
  | cons h hs ih =>
    cases fuel with
    | zero => simp at hfuel
    | succ fuel =>
      have hacc := access_ok (hin h mem_cons_self) (ht h mem_cons_self)
      have hnode : hole s.mem h.1 = ⟨h.2, headOr hs 0, p⟩ := hseg.1
      have hhead : headOr (h :: hs) 0 = h.1 := rfl
      rw [hhead]
      simp only [walk, hacc, hnode]
      by_cases hlt : h.2 < start
      · rw [find?_cons_of_neg (by simpa using hlt)]
        simp only [bind, Except.bind, hlt, if_true]
        by_cases hz : headOr hs 0 = 0
        · have hnil := hasc.headOr_eq_zero.mp hz
          rw [if_pos hz, hnil]
          rfl
        · have hcons : hs ≠ [] := fun hnil => hz (hasc.headOr_eq_zero.mpr hnil)
          rw [if_neg hz]
          exact ih hseg.2 (ascending_cons.mp hasc).2 (fun x hx => hin x (mem_cons_of_mem h hx))
            (fun x hx => ht x (mem_cons_of_mem h hx)) hcons
            (Nat.le_of_succ_le_succ hfuel)
      · rw [find?_cons_of_pos (by simpa using hlt)]
        simp only [bind, Except.bind, hlt, if_false, map_some]

theorem Listed.walk_eq (h : Listed s hs) (hne : hs ≠ []) (start : ℕ) :
    walk s start (ipMaxUdp / 8 + 1) s.firstHole = .ok ((hs.find? fun h => start ≤ h.2).map Prod.fst) := by
  have hlen : hs.length ≤ ipMaxUdp / 8 + 1 := by
    refine (h.asc.length_le fun x hx => ?_).trans (Nat.le_succ _)
    have hin := h.inside x hx
    lia
  rw [h.first]
  exact walk_seg h.seg h.asc h.inside h.tagged hne hlen

theorem Listed.node (h : Listed s (pre ++ (c, e) :: post)) :
    hole s.mem c = ⟨e, headOr post 0, lastOr pre 0⟩ :=
  (seg_append.mp h.seg).2.1

def before (pre : List (ℕ × ℕ)) : List (ℕ × ℕ) := if lastOr pre 0 = 0 then [] else pre

theorem before_sublist : before pre <+ pre := by
  unfold before
  split
  · exact nil_sublist _
  · exact Sublist.refl _

theorem before_cases (pre : List (ℕ × ℕ)) :
    (lastOr pre 0 = 0 ∧ before pre = []) ∨
      (lastOr pre 0 ≠ 0 ∧ before pre = pre ∧ ∃ xs x, pre = xs ++ [x] ∧ lastOr pre 0 = x.1) := by
  by_cases hz : lastOr pre 0 = 0
  · exact .inl ⟨hz, if_pos hz⟩
  · refine .inr ⟨hz, if_neg hz, ?_⟩
    cases eq_nil_or_concat pre with
    | inl hnil =>
      rw [hnil] at hz
      exact absurd rfl hz
    | inr hconcat =>
      obtain ⟨xs, x, rfl⟩ := hconcat
      rw [concat_eq_append]
      exact ⟨xs, x, rfl, lastOr_concat⟩

theorem lastOr_before : lastOr (before pre) 0 = lastOr pre 0 := by
  cases before_cases pre with
  | inl h => rw [h.1, h.2]; rfl
  | inr h => rw [h.2.1]

def Usable (s : State) (xs : List (ℕ × ℕ)) : Prop :=
  ∀ x ∈ xs, 8 * x.1 + 8 ≤ ipMaxUdp ∧ s.holes x.1 = true

theorem linkBack_ok {y q : ℕ} (hseg : Seg (hole s.mem) y post 0) (hasc : Ascending ((c, e) :: post))
    (hu : Usable s post) (hq : q < 2 ^ 16) :
    ∃ s', linkBack s (headOr post 0) q = .ok s' ∧ Seg (hole s'.mem) q post 0 ∧
      Only post s s' ∧ s'.firstHole = s.firstHole := by
  unfold linkBack
  cases post with
  | nil => exact ⟨s, rfl, trivial, Only.refl _ s, rfl⟩
  | cons x xs =>
    have hx := (ascending_cons.mp hasc).1 x mem_cons_self
    have hne : headOr (x :: xs) 0 ≠ 0 := by
      simp only [headOr]
      lia
    obtain ⟨hin, htag⟩ := hu x mem_cons_self
    obtain ⟨s', hset, htouch⟩ := setPrev_ok hin htag hq
    refine ⟨s', ?_, ?_, htouch.only mem_cons_self, htouch.firstHole⟩
    · rw [if_pos hne]
      exact hset
    · rw [htouch.node]
      apply hseg.setPrev
      intro z hz
      exact ((ascending_cons.mp (ascending_cons.mp hasc).2).1 z hz).ne'

theorem linkForward_ok {m : ℕ} (hseg : Seg (hole s.mem) 0 pre n) (hasc : Ascending pre)
    (hu : Usable s pre) (hm : m < 2 ^ 16) :
    ∃ s', linkForward s (lastOr pre 0) m = .ok s' ∧ Seg (hole s'.mem) 0 (before pre) m ∧
      Only pre s s' ∧ s'.firstHole = if lastOr pre 0 = 0 then m else s.firstHole := by
  unfold linkForward
  cases before_cases pre with
  | inl h =>
    obtain ⟨hz, hb⟩ := h
    refine ⟨{ s with firstHole := m }, if_neg (not_not.mpr hz), ?_, ?_, (if_pos hz).symm⟩
    · rw [hb]
      trivial
    · exact ⟨fun _ _ => rfl, fun _ _ => rfl, rfl, rfl, rfl, rfl⟩
  | inr h =>
    obtain ⟨hz, hb, xs, x, hpre, hx⟩ := h
    have hmem : x ∈ pre := by
      rw [hpre]
      simp
    obtain ⟨hin, htag⟩ := hu x hmem
    obtain ⟨s', hset, htouch⟩ := setNext_ok hin htag hm
    refine ⟨s', ?_, ?_, htouch.only hmem, ?_⟩
    · rw [if_pos hz, hx]
      exact hset
    · rw [hb, htouch.node]
      subst hpre
      apply hseg.setNext
      intro y hy
      exact ((ascending_append.mp hasc).2.2 y hy x mem_cons_self).ne
    · rw [htouch.firstHole, if_neg hz]

theorem Listed.index_lt (h : Listed s hs) {x : ℕ × ℕ} (hx : x ∈ hs) : x.1 < 2 ^ 16 := by
  have hin := h.inside x hx
  rw [ipMaxUdp_eq] at hin
  lia

theorem Listed.usable (h : Listed s hs) (hsub : xs ⊆ hs) : Usable s xs :=
  fun x hx => ⟨h.inside x (hsub hx), h.tagged x (hsub hx)⟩

theorem setField_firstHole (s : State) (o i v n : ℕ) :
    setField { s with firstHole := n } o i v =
      (setField s o i v).map fun s₁ => { s₁ with firstHole := n } := by
  simp only [setField, access]
  split
  · rfl
  · split
    · rfl
    · rfl

theorem removeHole_eq (s : State) (i : ℕ) (hp : (hole s.mem i).prev = p)
    (hn : (hole s.mem i).next = n) (hlast : ¬(p = 0 ∧ n = 0)) :
    removeHole s i = (linkBack s n p).bind fun s₁ => (linkForward s₁ p n).map fun s₂ => (s₂, false) := by
  simp only [removeHole, hp, hn, if_neg hlast, linkBack, linkForward]
  by_cases hz : p = 0
  · have hnz : n ≠ 0 := fun h => hlast ⟨hz, h⟩
    simp only [hz, hnz, if_true, ne_eq, not_true_eq_false, not_false_eq_true, if_false, setPrev,
      setField_firstHole]
    cases setField s 4 n 0 with
    | error f => rfl
    | ok s₁ => rfl
  · by_cases hnz : n = 0
    · simp only [hz, hnz, if_true, ne_eq, not_true_eq_false, not_false_eq_true, if_false]
      rfl
    · simp only [hz, hnz, if_true, ne_eq, not_false_eq_true, if_false]
      rfl

theorem relink_ok {x y q m : ℕ} (hpre : Seg (hole s.mem) 0 pre x)
    (hpost : Seg (hole s.mem) y post 0) (hasc : Ascending (pre ++ (c, e) :: post))
    (hup : Usable s pre) (huq : Usable s post) (hq : q < 2 ^ 16) (hm : m < 2 ^ 16) :
    ∃ s₁ s₂, linkBack s (headOr post 0) q = .ok s₁ ∧ linkForward s₁ (lastOr pre 0) m = .ok s₂ ∧
      Only post s s₁ ∧ Only (post ++ pre) s s₂ ∧ Seg (hole s₂.mem) 0 (before pre) m ∧
      Seg (hole s₂.mem) q post 0 ∧
      s₂.firstHole = if lastOr pre 0 = 0 then m else s.firstHole := by
  obtain ⟨hascp, hascm, hlt⟩ := ascending_append.mp hasc
  have hacross : ∀ x ∈ pre, ∀ y ∈ post, x.1 < y.1 :=
    fun x hx y hy => hlt x hx y (mem_cons_of_mem _ hy)
  obtain ⟨s₁, hback, hseg₁, honly₁, hfirst₁⟩ := linkBack_ok hpost hascm huq hq
  have hpre₁ : Seg (hole s₁.mem) 0 pre x := honly₁.seg hpre fun x hx y hy => (hacross x hx y hy).ne'
  have hu₁ : Usable s₁ pre := by
    intro x hx
    rw [honly₁.holes]
    exact hup x hx
  obtain ⟨s₂, hforward, hseg₂, honly₂, hfirst₂⟩ := linkForward_ok hpre₁ hascp hu₁ hm
  have hpost₂ : Seg (hole s₂.mem) q post 0 :=
    honly₂.seg hseg₁ fun y hy x hx => (hacross x hx y hy).ne
  rw [hfirst₁] at hfirst₂
  exact ⟨s₁, s₂, hback, hforward, honly₁, honly₁.trans honly₂, hseg₂, hpost₂, hfirst₂⟩

theorem headOr_before (m k : ℕ) :
    (if lastOr pre 0 = 0 then m else headOr pre k) = headOr (before pre) m := by
  cases before_cases pre with
  | inl h => rw [if_pos h.1, h.2]; rfl
  | inr h =>
    obtain ⟨hz, hb, xs, x, hxs, -⟩ := h
    rw [if_neg hz, hb, hxs]
    cases xs with
    | nil => rfl
    | cons y ys => rfl

theorem lastOr_lt (h : Listed s (pre ++ hs)) : lastOr pre 0 < 2 ^ 16 := by
  cases before_cases pre with
  | inl hb => simp [hb.1]
  | inr hb =>
    obtain ⟨-, -, xs, x, hxs, hx⟩ := hb
    rw [hx]
    exact h.index_lt (mem_append_left hs (by simp [hxs]))

theorem subset_behind (pre : List (ℕ × ℕ)) (x : ℕ × ℕ) : post ⊆ pre ++ x :: post :=
  fun _ hy => mem_append_right _ (mem_cons_of_mem _ hy)

theorem removeHole_listed (h : Listed s (pre ++ (c, e) :: post)) :
    (before pre = [] ∧ post = [] ∧ removeHole s c = .ok (s, true)) ∨
      (before pre ++ post ≠ [] ∧ ∃ s', removeHole s c = .ok (s', false) ∧
        Listed s' (before pre ++ post) ∧ Only (post ++ pre) s s') := by
  have hnode := h.node
  obtain ⟨hpre, -, hpost⟩ := seg_append.mp h.seg
  have hsub : before pre ++ post <+ pre ++ (c, e) :: post :=
    before_sublist.append (sublist_cons_self _ _)
  by_cases hlast : lastOr pre 0 = 0 ∧ headOr post 0 = 0
  · refine .inl ⟨if_pos hlast.1, (ascending_append.mp h.asc).2.1.headOr_eq_zero.mp hlast.2, ?_⟩
    simp only [removeHole, hnode, hlast, and_self, if_true]
  · have hnlt : headOr post 0 < 2 ^ 16 := by
      cases post with
      | nil => simp [headOr]
      | cons y ys => exact h.index_lt (by simp)
    obtain ⟨s₁, s₂, hback, hforward, -, honly, hseg₂, hpost₂, hfirst⟩ :=
      relink_ok hpre hpost h.asc (h.usable (subset_append_left _ _)) (h.usable (subset_behind _ _))
        (lastOr_lt h) hnlt
    refine .inr ⟨?_, s₂, ?_, ⟨?_, ?_, ?_, ?_, ?_⟩, honly⟩
    · intro hnil
      obtain ⟨hb, hp⟩ := append_eq_nil_iff.mp hnil
      apply hlast
      rw [← lastOr_before, hb, hp]
      exact ⟨rfl, rfl⟩
    · rw [removeHole_eq s c (by rw [hnode]) (by rw [hnode]) hlast]
      simp only [hback, Except.bind, hforward, Except.map]
    · rw [hfirst, h.first, headOr_append, headOr_append]
      exact headOr_before _ _
    · rw [seg_append, lastOr_before]
      exact ⟨hseg₂, hpost₂⟩
    · exact h.asc.sublist hsub
    · exact fun x hx => h.inside x (hsub.subset hx)
    · intro x hx
      rw [honly.holes]
      exact h.tagged x (hsub.subset hx)

/- `*newh = *h`. -/
structure Copied (s : State) (i j : ℕ) (s' : State) : Prop where
  node : hole s'.mem = update (hole s.mem) j (hole s.mem i)
  frame : ∀ a, a < 8 * j ∨ 8 * j + 8 ≤ a → s'.mem a = s.mem a
  holes : s'.holes = update s.holes j true
  firstHole : s'.firstHole = s.firstHole
  hdr : s'.hdr = s.hdr
  totalLen : s'.totalLen = s.totalLen
  finished : s'.finished = s.finished

theorem copyHole_ok (s : State) (i : ℕ) (hj : 8 * j + 8 ≤ ipMaxUdp) :
    ∃ s', copyHole s (j : ℤ) i = .ok s' ∧ Copied s i j s' := by
  have hneg : ¬((j : ℤ) < 0 ∨ (ipMaxUdp : ℤ) < 8 * (j : ℤ) + 8) := by lia
  refine ⟨{ s with
    mem := store s.mem (8 * j) (bytes s.mem (8 * i) 8)
    holes := update s.holes j true }, ?_, ?_, ?_, rfl, rfl, rfl, rfl, rfl⟩
  · rw [copyHole, if_neg hneg]
    rfl
  · exact hole_copy s.mem i j
  · intro a ha
    apply store_outside
    rw [length_bytes]
    exact ha

theorem Copied.seg (h : Copied s i j s')
    (hseg : Seg (hole s.mem) p xs n) (hne : ∀ x ∈ xs, x.1 ≠ j) : Seg (hole s'.mem) p xs n := by
  rw [h.node]
  exact hseg.update _ hne

theorem Copied.tagged (h : Copied s i j s') {k : ℕ} (hk : s.holes k = true ∨ k = j) :
    s'.holes k = true := by
  rw [h.holes]
  by_cases hkj : k = j
  · rw [hkj, update_self]
  · rw [update_of_ne hkj]
    exact hk.resolve_right hkj

theorem Copied.usable (h : Copied s i j s') (hu : Usable s xs) : Usable s' xs :=
  fun x hx => ⟨(hu x hx).1, h.tagged (.inl (hu x hx).2)⟩

/- The header, the lengths, and the bytes outside the descriptors of `xs` stay. -/
structure Kept (xs : List (ℕ × ℕ)) (s s' : State) : Prop where
  frame : ∀ a, (∀ x ∈ xs, a < 8 * x.1 ∨ 8 * x.1 + 8 ≤ a) → s'.mem a = s.mem a
  hdr : s'.hdr = s.hdr
  totalLen : s'.totalLen = s.totalLen
  finished : s'.finished = s.finished

theorem Only.kept (h : Only xs s s') (hsub : xs ⊆ ys) : Kept ys s s' :=
  ⟨fun a ha => h.frame a fun x hx => ha x (hsub hx), h.hdr, h.totalLen, h.finished⟩

theorem Copied.kept (h : Copied s i j s') (hj : ∃ x ∈ xs, x.1 = j) : Kept xs s s' := by
  obtain ⟨x, hx, rfl⟩ := hj
  exact ⟨fun a ha => h.frame a (ha x hx), h.hdr, h.totalLen, h.finished⟩

theorem Kept.mono (h : Kept xs s s') (hsub : xs ⊆ ys) : Kept ys s s' :=
  ⟨fun a ha => h.frame a fun x hx => ha x (hsub hx), h.hdr, h.totalLen, h.finished⟩

theorem Kept.trans (h₁ : Kept xs s s₁) (h₂ : Kept xs s₁ s') : Kept xs s s' :=
  ⟨fun a ha => (h₂.frame a ha).trans (h₁.frame a ha), h₂.hdr.trans h₁.hdr,
    h₂.totalLen.trans h₁.totalLen, h₂.finished.trans h₁.finished⟩

theorem moveHole_listed (h : Listed s (pre ++ (c, e) :: post)) (hj : 8 * j + 8 ≤ ipMaxUdp)
    (hpj : ∀ x ∈ pre, x.1 < j) (hjq : ∀ y ∈ post, j < y.1) :
    ∃ s', moveHole s c (j : ℤ) = .ok (s', false) ∧ Listed s' (before pre ++ (j, e) :: post) ∧
      Kept (pre ++ (j, e) :: post) s s' := by
  obtain ⟨s₁, hcopy, hcopied⟩ := copyHole_ok s c hj
  obtain ⟨hpre, -, hpost⟩ := seg_append.mp h.seg
  obtain ⟨hascp, hascm, hlt⟩ := ascending_append.mp h.asc
  have hjlt : j < 2 ^ 16 := by
    rw [ipMaxUdp_eq] at hj
    lia
  have hnode : hole s₁.mem j = ⟨e, headOr post 0, lastOr pre 0⟩ := by
    rw [hcopied.node, update_self, h.node]
  obtain ⟨s₂, s₃, hback, hforward, honly₂, honly, hseg₃, hpost₃, hfirst⟩ :=
    relink_ok (hcopied.seg hpre fun x hx => (hpj x hx).ne)
      (hcopied.seg hpost fun y hy => (hjq y hy).ne') h.asc
      (hcopied.usable (h.usable (subset_append_left _ _)))
      (hcopied.usable (h.usable (subset_behind _ _))) hjlt hjlt
  have hnotpost : ∀ y ∈ post, y.1 ≠ j := fun y hy => (hjq y hy).ne'
  have hnot : ∀ y ∈ post ++ pre, y.1 ≠ j := by
    intro y hy
    cases mem_append.mp hy with
    | inl hy => exact hnotpost y hy
    | inr hy => exact (hpj y hy).ne
  have hnode₂ : hole s₂.mem j = ⟨e, headOr post 0, lastOr pre 0⟩ := by
    rw [honly₂.nodes j hnotpost, hnode]
  have hnode₃ : hole s₃.mem j = ⟨e, headOr post 0, lastOr pre 0⟩ := by
    rw [honly.nodes j hnot, hnode]
  have hmem : ∀ x ∈ before pre ++ (j, e) :: post,
      (x ∈ pre ++ (c, e) :: post) ∨ x = (j, e) := by
    intro x hx
    cases mem_append.mp hx with
    | inl hx => exact .inl (mem_append_left _ (before_sublist.subset hx))
    | inr hx =>
      cases mem_cons.mp hx with
      | inl hx => exact .inr hx
      | inr hx => exact .inl (subset_behind _ _ hx)
  refine ⟨s₃, ?_, ⟨?_, ?_, ?_, ?_, ?_⟩, ?_⟩
  · simp only [moveHole, hcopy, Int.toNat_natCast, bind, Except.bind, hnode, hback, hnode₂,
      hforward]
  · rw [hfirst, hcopied.firstHole, h.first, headOr_append, headOr_append]
    exact headOr_before _ _
  · rw [seg_append, lastOr_before]
    exact ⟨hseg₃, hnode₃, hpost₃⟩
  · refine ascending_append.mpr ⟨hascp.sublist before_sublist, ?_, ?_⟩
    · exact ascending_cons.mpr ⟨hjq, (ascending_cons.mp hascm).2⟩
    · intro x hx y hy
      cases mem_cons.mp hy with
      | inl hy => rw [hy]; exact hpj x (before_sublist.subset hx)
      | inr hy => exact hlt x (before_sublist.subset hx) y (mem_cons_of_mem _ hy)
  · intro x hx
    cases hmem x hx with
    | inl hx => exact h.inside x hx
    | inr hx => rw [hx]; exact hj
  · intro x hx
    rw [honly.holes]
    cases hmem x hx with
    | inl hx => exact hcopied.tagged (.inl (h.tagged x hx))
    | inr hx => exact hcopied.tagged (.inr (by rw [hx]))
  · refine (hcopied.kept ⟨(j, e), by simp, rfl⟩).trans (honly.kept ?_)
    intro x hx
    cases mem_append.mp hx with
    | inl hx => exact mem_append_right _ (mem_cons_of_mem _ hx)
    | inr hx => exact mem_append_left _ hx

theorem setLast_listed (h : Listed s (pre ++ (c, e) :: post)) {e' : ℕ} (he : e' < 2 ^ 16) :
    ∃ s', setLast s c e' = .ok s' ∧ Listed s' (pre ++ (c, e') :: post) ∧
      Only [(c, e)] s s' ∧ s'.firstHole = s.firstHole := by
  have hc : (c, e) ∈ pre ++ (c, e) :: post := by simp
  obtain ⟨s', hset, htouch⟩ := setLast_ok (h.inside _ hc) (h.tagged _ hc) he
  have honly : Only [(c, e)] s s' := htouch.only mem_cons_self
  obtain ⟨hpre, hnode, hpost⟩ := seg_append.mp h.seg
  obtain ⟨hascp, hascm, hlt⟩ := ascending_append.mp h.asc
  have hmem : ∀ x ∈ pre ++ (c, e') :: post, ∃ y ∈ pre ++ (c, e) :: post, y.1 = x.1 := by
    intro x hx
    cases mem_append.mp hx with
    | inl hx => exact ⟨x, mem_append_left _ hx, rfl⟩
    | inr hx =>
      cases mem_cons.mp hx with
      | inl hx => exact ⟨(c, e), hc, by rw [hx]⟩
      | inr hx => exact ⟨x, mem_append_right _ (mem_cons_of_mem _ hx), rfl⟩
  refine ⟨s', hset, ⟨?_, ?_, ?_, ?_, ?_⟩, honly, htouch.firstHole⟩
  · rw [htouch.firstHole, h.first, headOr_append, headOr_append]
    rfl
  · refine seg_append.mpr ⟨?_, ?_, ?_⟩
    · apply honly.seg hpre
      intro x hx y hy
      rw [mem_singleton.mp hy]
      exact (hlt x hx (c, e) mem_cons_self).ne'
    · rw [htouch.node, update_self, hnode]
    · apply honly.seg hpost
      intro x hx y hy
      rw [mem_singleton.mp hy]
      exact ((ascending_cons.mp hascm).1 x hx).ne
  · refine ascending_append.mpr ⟨hascp, ?_, ?_⟩
    · exact ascending_cons.mpr ⟨(ascending_cons.mp hascm).1, (ascending_cons.mp hascm).2⟩
    · intro x hx y hy
      cases mem_cons.mp hy with
      | inl hy => rw [hy]; exact hlt x hx (c, e) mem_cons_self
      | inr hy => exact hlt x hx y (mem_cons_of_mem _ hy)
  · intro x hx
    obtain ⟨y, hy, hxy⟩ := hmem x hx
    rw [← hxy]
    exact h.inside y hy
  · intro x hx
    obtain ⟨y, hy, hxy⟩ := hmem x hx
    rw [← hxy, htouch.holes]
    exact h.tagged y hy

/- The list with `j` behind `c`, if the descriptors of the two and those around them say so. -/
theorem listed_split (h : Listed s (pre ++ (c, e) :: post)) {start : ℕ}
    (hj : 8 * j + 8 ≤ ipMaxUdp) (hcj : c < j) (hjq : ∀ y ∈ post, j < y.1)
    (hfirst : s'.firstHole = s.firstHole) (hpre : Seg (hole s'.mem) 0 pre c)
    (hnodec : hole s'.mem c = ⟨start, j, lastOr pre 0⟩)
    (hnodej : hole s'.mem j = ⟨e, headOr post 0, c⟩) (hpost : Seg (hole s'.mem) j post 0)
    (htagged : ∀ i, s.holes i = true ∨ i = j → s'.holes i = true) :
    Listed s' (pre ++ (c, start) :: (j, e) :: post) := by
  obtain ⟨hascp, hascm, hlt⟩ := ascending_append.mp h.asc
  have hpc : ∀ x ∈ pre, x.1 < c := fun x hx => hlt x hx (c, e) mem_cons_self
  have hcq : ∀ y ∈ post, c < y.1 := (ascending_cons.mp hascm).1
  have hc : (c, e) ∈ pre ++ (c, e) :: post := by simp
  have hmem : ∀ x ∈ pre ++ (c, start) :: (j, e) :: post,
      x.1 = j ∨ ∃ y ∈ pre ++ (c, e) :: post, y.1 = x.1 := by
    intro x hx
    cases mem_append.mp hx with
    | inl hx => exact .inr ⟨x, mem_append_left _ hx, rfl⟩
    | inr hx =>
      cases mem_cons.mp hx with
      | inl hx => rw [hx]; exact .inr ⟨(c, e), hc, rfl⟩
      | inr hx =>
        cases mem_cons.mp hx with
        | inl hx => rw [hx]; exact .inl rfl
        | inr hx => exact .inr ⟨x, mem_append_right _ (mem_cons_of_mem _ hx), rfl⟩
  refine ⟨?_, seg_append.mpr ⟨hpre, ?_, ?_, hpost⟩, ?_, ?_, ?_⟩
  · rw [hfirst, h.first, headOr_append, headOr_append]
    rfl
  · rw [hnodec]
    rfl
  · rw [hnodej]
  · refine ascending_append.mpr ⟨hascp, ascending_cons.mpr ⟨?_, ascending_cons.mpr ⟨hjq,
      (ascending_cons.mp hascm).2⟩⟩, ?_⟩
    · intro y hy
      cases mem_cons.mp hy with
      | inl hy => rw [hy]; exact hcj
      | inr hy => exact hcq y hy
    · intro x hx y hy
      have hxc := hpc x hx
      cases mem_cons.mp hy with
      | inl hy => rw [hy]; exact hxc
      | inr hy =>
        cases mem_cons.mp hy with
        | inl hy => rw [hy]; exact hxc.trans hcj
        | inr hy => exact hxc.trans (hcq y hy)
  · intro x hx
    obtain heq | ⟨y, hy, hxy⟩ := hmem x hx
    · rw [heq]
      exact hj
    · rw [← hxy]
      exact h.inside y hy
  · intro x hx
    obtain heq | ⟨y, hy, hxy⟩ := hmem x hx
    · exact htagged _ (.inr heq)
    · rw [← hxy]
      exact htagged _ (.inl (h.tagged y hy))

theorem Only.seg_pair (h : Only ([(c, e)] ++ ([(c, e)] ++ [(j, e)])) s s') {p q : ℕ}
    (hseg : Seg (hole s.mem) p hs q) (hc : ∀ x ∈ hs, x.1 ≠ c) (hj : ∀ x ∈ hs, x.1 ≠ j) :
    Seg (hole s'.mem) p hs q := by
  apply h.seg hseg
  intro x hx y hy
  simp only [cons_append, nil_append, mem_cons, not_mem_nil, or_false] at hy
  obtain hy | hy | hy := hy
  · rw [hy]
    exact (hc x hx).symm
  · rw [hy]
    exact (hc x hx).symm
  · rw [hy]
    exact (hj x hx).symm

theorem splitHole_listed (h : Listed s (pre ++ (c, e) :: post)) {start : ℕ} (hs : start < 2 ^ 16)
    (hj : 8 * j + 8 ≤ ipMaxUdp) (hcj : c < j) (hjq : ∀ y ∈ post, j < y.1) :
    ∃ s', splitHole s c start (j : ℤ) = .ok (s', false) ∧
      Listed s' (pre ++ (c, start) :: (j, e) :: post) ∧
      Kept (pre ++ (c, e) :: (j, e) :: post) s s' := by
  obtain ⟨hpre, hnode, hpost⟩ := seg_append.mp h.seg
  obtain ⟨hascp, hascm, hlt⟩ := ascending_append.mp h.asc
  have hpc : ∀ x ∈ pre, x.1 < c := fun x hx => hlt x hx (c, e) mem_cons_self
  have hcq : ∀ y ∈ post, c < y.1 := (ascending_cons.mp hascm).1
  have hc : (c, e) ∈ pre ++ (c, e) :: post := by simp
  have hjlt : j < 2 ^ 16 := by
    rw [ipMaxUdp_eq] at hj
    lia
  obtain ⟨s₁, hcopy, hcopied⟩ := copyHole_ok s c hj
  have htc₁ : s₁.holes c = true := hcopied.tagged (.inl (h.tagged _ hc))
  obtain ⟨s₂, hset₂, ht₂⟩ := setLast_ok (h.inside _ hc) htc₁ hs
  have htc₂ : s₂.holes c = true := by rw [ht₂.holes, htc₁]
  obtain ⟨s₃, hset₃, ht₃⟩ := setNext_ok (h.inside _ hc) htc₂ hjlt
  have htj₃ : s₃.holes j = true := by
    rw [ht₃.holes, ht₂.holes]
    exact hcopied.tagged (.inr rfl)
  obtain ⟨s₄, hset₄, ht₄⟩ := setPrev_ok hj htj₃ (h.index_lt hc)
  -- the two descriptors as they stand now
  have honly₄ : Only ([(c, e)] ++ ([(c, e)] ++ [(j, e)])) s₁ s₄ :=
    (ht₂.only (x := (c, e)) mem_cons_self).trans
      ((ht₃.only (x := (c, e)) mem_cons_self).trans (ht₄.only (x := (j, e)) mem_cons_self))
  have hnodec : hole s₄.mem c = ⟨start, j, lastOr pre 0⟩ := by
    rw [ht₄.node, update_of_ne hcj.ne, ht₃.node, update_self, ht₂.node,
      update_self, hcopied.node, update_of_ne hcj.ne, hnode]
  have hnodej : hole s₄.mem j = ⟨e, headOr post 0, c⟩ := by
    rw [ht₄.node, update_self, ht₃.node, update_of_ne hcj.ne', ht₂.node,
      update_of_ne hcj.ne', hcopied.node, update_self, hnode]
  have hpre₄ : Seg (hole s₄.mem) 0 pre c :=
    honly₄.seg_pair (hcopied.seg hpre fun x hx => ((hpc x hx).trans hcj).ne)
      (fun x hx => (hpc x hx).ne) fun x hx => ((hpc x hx).trans hcj).ne
  have hpost₄ : Seg (hole s₄.mem) c post 0 :=
    honly₄.seg_pair (hcopied.seg hpost fun y hy => (hjq y hy).ne') (fun y hy => (hcq y hy).ne')
      fun y hy => (hjq y hy).ne'
  have hu₄ : Usable s₄ post := by
    intro y hy
    rw [honly₄.holes]
    exact hcopied.usable (h.usable (subset_behind _ _)) y hy
  obtain ⟨s₅, hback, hpost₅, honly₅, hfirst₅⟩ := linkBack_ok hpost₄ hascm hu₄ hjlt
  have hpre₅ : Seg (hole s₅.mem) 0 pre c :=
    honly₅.seg hpre₄ fun x hx y hy => ((hpc x hx).trans (hcq y hy)).ne'
  have hlisted : Listed s₅ (pre ++ (c, start) :: (j, e) :: post) := by
    refine listed_split h hj hcj hjq ?_ hpre₅ ?_ ?_ hpost₅ ?_
    · rw [hfirst₅, ht₄.firstHole, ht₃.firstHole, ht₂.firstHole, hcopied.firstHole]
    · rw [honly₅.nodes c fun y hy => (hcq y hy).ne', hnodec]
    · rw [honly₅.nodes j fun y hy => (hjq y hy).ne', hnodej]
    · intro i hi
      rw [honly₅.holes, honly₄.holes]
      exact hcopied.tagged hi
  refine ⟨s₅, ?_, hlisted, ?_⟩
  · simp only [splitHole, hcopy, Int.toNat_natCast, bind, Except.bind, hset₂, hset₃, hset₄, hnodej,
      hback]
  · refine (hcopied.kept ⟨(j, e), by simp, rfl⟩).trans ((honly₄.kept ?_).trans (honly₅.kept ?_))
    · intro x hx
      simp only [cons_append, nil_append, mem_cons, not_mem_nil, or_false] at hx
      simp only [mem_append, mem_cons]
      tauto
    · exact fun x hx => by simp [hx]

end Lists

/- The holes after a fragment that overlaps the hole at `c` with the end `e`. -/
def fixed (pre post : List (ℕ × ℕ)) (c e o n : ℕ) : List (ℕ × ℕ) :=
  if o ≤ c ∧ e ≤ 8 * o + n then before pre ++ post
  else if e ≤ 8 * o + n then pre ++ (c, 8 * o) :: post
  else if o ≤ c then before pre ++ (o + n / 8, e) :: post
  else pre ++ (c, 8 * o) :: (o + n / 8, e) :: post

/- The descriptor that a moved or split hole gets behind the fragment. -/
def spare (e o n : ℕ) : List (ℕ × ℕ) := if 8 * o + n < e then [(o + n / 8, e)] else []

section Fragment

variable {s s' : State} {pre post hs : List (ℕ × ℕ)} {c e o n : ℕ}

theorem mem_fixed {x : ℕ × ℕ} (hx : x ∈ fixed pre post c e o n) :
    x ∈ pre ∨ (x = (c, 8 * o) ∧ c < o) ∨ (x = (o + n / 8, e) ∧ 8 * o + n < e) ∨ x ∈ post := by
  unfold fixed at hx
  split at hx
  · cases mem_append.mp hx with
    | inl hx => exact .inl (before_sublist.subset hx)
    | inr hx => exact .inr (.inr (.inr hx))
  · rename_i hremove
    split at hx
    · rename_i hend
      have hco : c < o := by
        by_contra hge
        exact hremove ⟨by lia, hend⟩
      simp only [mem_append, mem_cons] at hx
      tauto
    · rename_i hend
      have hlt : 8 * o + n < e := by lia
      split at hx
      · simp only [mem_append, mem_cons] at hx
        cases hx with
        | inl hx => exact .inl (before_sublist.subset hx)
        | inr hx => tauto
      · have hco : c < o := by lia
        simp only [mem_append, mem_cons] at hx
        tauto

theorem fixHoles_listed (h : Listed s (pre ++ (c, e) :: post)) (hstart : 8 * o < 2 ^ 16)
    (hpre : ∀ x ∈ pre, x.1 < o)
    (hmove : 8 * o + n < e → 8 * (o + n / 8) + 8 ≤ ipMaxUdp ∧ ∀ y ∈ post, o + n / 8 < y.1) :
    (o ≤ c ∧ e ≤ 8 * o + n ∧ before pre = [] ∧ post = [] ∧
        fixHoles s c o (n : ℤ) = .ok (s, true)) ∨
      ∃ s', fixHoles s c o (n : ℤ) = .ok (s', false) ∧ fixed pre post c e o n ≠ [] ∧
        Listed s' (fixed pre post c e o n) ∧
        Kept (spare e o n ++ (pre ++ (c, e) :: post)) s s' := by
  have hlast : (hole s.mem c).val = e := by rw [h.node]
  have hnew : (o : ℤ) + (n : ℤ).tdiv 8 = ((o + n / 8 : ℕ) : ℤ) := by
    rw [Nat.cast_add, Int.natCast_ediv, Int.tdiv_eq_ediv_of_nonneg (Int.natCast_nonneg n)]
    rfl
  by_cases hend : e ≤ 8 * o + n
  · have hend' : (e : ℤ) ≤ ((8 * o : ℕ) : ℤ) + (n : ℤ) := by exact_mod_cast hend
    by_cases hoc : o ≤ c
    · have hfix : fixHoles s c o (n : ℤ) = removeHole s c := by
        simp only [fixHoles, hlast, hoc, hend', true_and, if_true]
      have hfixed : fixed pre post c e o n = before pre ++ post := if_pos ⟨hoc, hend⟩
      rw [hfix, hfixed]
      cases removeHole_listed h with
      | inl hdone => exact .inl ⟨hoc, hend, hdone.1, hdone.2.1, hdone.2.2⟩
      | inr hmore =>
        obtain ⟨hne, s', hrem, hlisted, honly⟩ := hmore
        refine .inr ⟨s', hrem, hne, hlisted, honly.kept ?_⟩
        intro x hx
        simp only [mem_append, mem_cons] at hx ⊢
        tauto
    · have hfix : fixHoles s c o (n : ℤ) = (setLast s c (8 * o)).map fun s₁ => (s₁, false) := by
        simp only [fixHoles, hlast, hoc, hend', false_and, if_false, if_true]
      have hfixed : fixed pre post c e o n = pre ++ (c, 8 * o) :: post := by
        simp only [fixed, hoc, hend, false_and, if_false, if_true]
      obtain ⟨s', hset, hlisted, honly, -⟩ := setLast_listed h hstart
      rw [hfix, hfixed, hset]
      exact .inr ⟨s', rfl, by simp, hlisted, honly.kept (by simp)⟩
  · have hend' : ¬(e : ℤ) ≤ ((8 * o : ℕ) : ℤ) + (n : ℤ) := by exact_mod_cast hend
    obtain ⟨hin, hpost⟩ := hmove (by lia)
    have hspare : spare e o n = [(o + n / 8, e)] := if_pos (by lia)
    by_cases hoc : o ≤ c
    · have hfix : fixHoles s c o (n : ℤ) = moveHole s c ((o + n / 8 : ℕ) : ℤ) := by
        simp only [fixHoles, hlast, hoc, hend', and_false, if_false, if_true, hnew]
      have hfixed : fixed pre post c e o n = before pre ++ (o + n / 8, e) :: post := by
        simp only [fixed, hoc, hend, and_false, if_false, if_true]
      obtain ⟨s', hmv, hlisted, hkept⟩ :=
        moveHole_listed h hin (fun x hx => by have := hpre x hx; lia) hpost
      rw [hfix, hfixed]
      refine .inr ⟨s', hmv, by simp, hlisted, hkept.mono ?_⟩
      rw [hspare]
      intro x hx
      simp only [mem_append, mem_cons] at hx ⊢
      tauto
    · have hfix : fixHoles s c o (n : ℤ) = splitHole s c (8 * o) ((o + n / 8 : ℕ) : ℤ) := by
        simp only [fixHoles, hlast, hoc, hend', and_false, if_false, hnew]
      have hfixed : fixed pre post c e o n =
          pre ++ (c, 8 * o) :: (o + n / 8, e) :: post := by
        simp only [fixed, hoc, hend, and_false, if_false]
      obtain ⟨s', hsp, hlisted, hkept⟩ := splitHole_listed h hstart hin (by lia) hpost
      rw [hfix, hfixed]
      refine .inr ⟨s', hsp, by simp, hlisted, hkept.mono ?_⟩
      rw [hspare]
      intro x hx
      simp only [mem_append, mem_cons] at hx ⊢
      tauto

theorem copyData_listed (data : List UInt8) (hn : n ≤ data.length) (hfar : 8 * o + n ≤ ipMaxUdp) :
    ∃ s', copyData s o (n : ℤ) data = .ok s' ∧ bytes s'.mem (8 * o) n = data.take n ∧
      (∀ a, a < 8 * o ∨ 8 * o + n ≤ a → s'.mem a = s.mem a) ∧ s'.hdr = s.hdr ∧
      s'.totalLen = s.totalLen ∧ s'.finished = s.finished ∧
      ∀ hs, Listed s hs → (∀ x ∈ hs, 8 * x.1 + 8 ≤ 8 * o ∨ 8 * o + n ≤ 8 * x.1) → Listed s' hs := by
  have hneg : ¬(n : ℤ) < 0 := by lia
  have hfar' : ¬(ipMaxUdp : ℤ) < 8 * (o : ℤ) + n := by exact_mod_cast not_lt.mpr hfar
  have hlen : (data.take n).length = n := by simp [hn]
  refine ⟨{ s with
    mem := store s.mem (8 * o) (data.take n)
    holes := fun c => s.holes c && !decide (8 * o < 8 * c + 8 ∧ 8 * c < 8 * o + n) },
    ?_, ?_, ?_, rfl, rfl, rfl, ?_⟩
  · rw [copyData, if_neg hneg, if_neg hfar']
    rfl
  · have hsame := bytes_store_same s.mem (8 * o) (data.take n)
    rwa [hlen] at hsame
  · intro a ha
    apply store_outside
    simpa [hn] using ha
  · intro hs h hap
    refine ⟨h.first, ?_, h.asc, h.inside, ?_⟩
    · apply h.seg.congr
      intro x hx
      apply hole_store_apart
      simpa [hn] using hap x hx
    · intro x hx
      have hno : ¬(8 * o < 8 * x.1 + 8 ∧ 8 * x.1 < 8 * o + n) := by
        have := hap x hx
        lia
      simp [h.tagged x hx, hno]

def endAfter (ip : IpPacket) (e n : ℕ) : ℕ := if ip.moreFragments then e else ip.start + n

/- The bytes of the fragment are in place; the rest of the payload is as it was, except for
the descriptors of `hs`. -/
structure Placed (ip : IpPacket) (n : ℕ) (hs : List (ℕ × ℕ)) (s s' : State) : Prop where
  data : bytes s'.mem ip.start n = ip.data.take n
  frame : ∀ a, (a < ip.start ∨ ip.start + n ≤ a) →
    (∀ x ∈ hs, a < 8 * x.1 ∨ 8 * x.1 + 8 ≤ a) → s'.mem a = s.mem a
  id : s'.hdr.id = s.hdr.id
  totalLen : s'.totalLen = if ip.moreFragments then s.totalLen else ip.start + n

variable {ip : IpPacket}

theorem truncate_listed (h : Listed s (pre ++ (c, e) :: post))
    (hlen : ip.fragLen = (n : ℤ)) (hfar : ip.start + n ≤ ipMaxUdp) :
    ∃ s', truncate s ip c = .ok s' ∧ Listed s' (pre ++ (c, endAfter ip e n) :: post) ∧
      (∀ a, (a < 8 * c ∨ 8 * c + 8 ≤ a) → s'.mem a = s.mem a) ∧ s'.hdr = s.hdr ∧
      s'.finished = s.finished ∧
      s'.totalLen = if ip.moreFragments then s.totalLen else ip.start + n := by
  have hsum : ((ip.start : ℤ) + (n : ℤ)).toNat = ip.start + n := by lia
  have hlt : ip.start + n < 2 ^ 16 := by
    rw [ipMaxUdp_eq] at hfar
    lia
  unfold truncate endAfter
  rw [hlen, hsum, Nat.mod_eq_of_lt hlt]
  cases ip.moreFragments with
  | true => exact ⟨s, rfl, h, fun _ _ => rfl, rfl, rfl, rfl⟩
  | false =>
    have h' : Listed { s with totalLen := ip.start + n } (pre ++ (c, e) :: post) :=
      ⟨h.first, h.seg, h.asc, h.inside, h.tagged⟩
    obtain ⟨s', hset, hlisted, honly, -⟩ := setLast_listed h' hlt
    refine ⟨s', hset, hlisted, ?_, honly.hdr, honly.finished, honly.totalLen⟩
    intro a ha
    apply honly.frame
    intro x hx
    rw [mem_singleton.mp hx]
    exact ha

theorem place_listed (h : Listed s (pre ++ (c, e) :: post))
    (hlen : ip.fragLen = (n : ℤ)) (hdata : n ≤ ip.data.length) (hfar : ip.start + n ≤ ipMaxUdp)
    (hpre : ∀ x ∈ pre, x.1 < ip.offset8) (hpost : ∀ y ∈ post, ip.start + n ≤ 8 * y.1)
    (hspaced : ∀ y ∈ post, e ≤ 8 * y.1)
    (hmove : ip.start + n < endAfter ip e n → 8 ∣ n ∧ ip.start + n + 8 ≤ ipMaxUdp) :
    ∃ s', Placed ip n (spare (endAfter ip e n) ip.offset8 n ++ (pre ++ (c, e) :: post)) s s' ∧
      ((place s ip c = .ok (s', some (s'.totalLen + ipHdrSize)) ∧ s'.finished = true ∧
          ip.offset8 ≤ c ∧ endAfter ip e n ≤ ip.start + n ∧ before pre = [] ∧ post = []) ∨
        (place s ip c = .ok (s', none) ∧ s'.finished = s.finished ∧
          fixed pre post c (endAfter ip e n) ip.offset8 n ≠ [] ∧
          Listed s' (fixed pre post c (endAfter ip e n) ip.offset8 n))) := by
  have hstart : ip.start = 8 * ip.offset8 := rfl
  obtain ⟨s₁, htrunc, h₁, hframe₁, hhdr₁, hfin₁, htotal₁⟩ := truncate_listed h hlen hfar
  obtain ⟨o, ho⟩ : ∃ o, o = ip.offset8 := ⟨_, rfl⟩
  obtain ⟨e', he'⟩ : ∃ e', e' = endAfter ip e n := ⟨_, rfl⟩
  rw [← he'] at h₁ hmove ⊢
  have he'le : ip.start + n < e' → e' = e := by
    intro hlt
    rw [he', endAfter] at hlt ⊢
    split at hlt
    · rw [if_pos (by assumption)]
    · lia
  have hmv : 8 * o + n < e' → 8 * (o + n / 8) + 8 ≤ ipMaxUdp ∧ ∀ y ∈ post, o + n / 8 < y.1 := by
    intro hlt
    rw [ho, ← hstart] at hlt
    obtain ⟨hdvd, hin⟩ := hmove hlt
    refine ⟨by lia, ?_⟩
    intro y hy
    have := hspaced y hy
    lia
  have hcell : 8 * o < 2 ^ 16 := by
    rw [ipMaxUdp_eq] at hfar
    lia
  have hapart : ∀ x ∈ fixed pre post c e' o n,
      8 * x.1 + 8 ≤ 8 * o ∨ 8 * o + n ≤ 8 * x.1 := by
    intro x hx
    cases mem_fixed hx with
    | inl hx =>
      have := hpre x hx
      lia
    | inr hx =>
      cases hx with
      | inl hx =>
        rw [hx.1]
        lia
      | inr hx =>
        cases hx with
        | inl hx =>
          rw [hx.1]
          lia
        | inr hx =>
          have := hpost x hx
          lia
  have hplace : place s ip c = (fixHoles s₁ c o (n : ℤ)).bind fun r =>
      (copyData r.1 o (n : ℤ) ip.data).bind fun s₃ =>
        if r.2 then .ok ({ s₃ with hdr := { s₃.hdr with len := s₃.totalLen }, finished := true },
          some (s₃.totalLen + ipHdrSize))
        else .ok (s₃, none) := by
    simp only [place, htrunc, bind, Except.bind, hlen, ho]
  cases fixHoles_listed h₁ hcell (fun x hx => ho ▸ hpre x hx) hmv with
  | inl hdone =>
    obtain ⟨hoc, hend, hb, hp, hfix⟩ := hdone
    obtain ⟨s₃, hcopy, hbytes, hframe₃, hhdr₃, htotal₃, -, -⟩ :=
      copyData_listed (s := s₁) (o := o) ip.data hdata (by lia)
    refine ⟨{ s₃ with hdr := { s₃.hdr with len := s₃.totalLen }, finished := true }, ⟨?_, ?_, ?_, ?_⟩,
      .inl ⟨?_, rfl, ho ▸ hoc, by lia, hb, hp⟩⟩
    · rw [hstart, ← ho]
      exact hbytes
    · intro a ha hcells
      rw [hframe₃ a (by lia)]
      exact hframe₁ a (hcells (c, e) (by simp))
    · simp only [hhdr₃, hhdr₁]
    · simp only [htotal₃, htotal₁]
    · rw [hplace, hfix]
      simp only [Except.bind, hcopy, if_true]
  | inr hmore =>
    obtain ⟨s₂, hfix, hne, hlisted, hkept⟩ := hmore
    obtain ⟨s₃, hcopy, hbytes, hframe₃, hhdr₃, htotal₃, hfin₃, hlist₃⟩ :=
      copyData_listed (s := s₂) (o := o) ip.data hdata (by lia)
    refine ⟨s₃, ⟨?_, ?_, ?_, ?_⟩, .inr ⟨?_, ?_, ?_, ?_⟩⟩
    · rw [hstart, ← ho]
      exact hbytes
    · intro a ha hcells
      rw [hframe₃ a (by lia), hkept.frame a, hframe₁ a (hcells (c, e) (by simp))]
      intro x hx
      simp only [mem_append, mem_cons] at hx
      cases hx with
      | inl hx => exact hcells x (by simp [← ho, hx])
      | inr hx =>
        cases hx with
        | inl hx => exact hcells x (by simp [hx])
        | inr hx =>
          cases hx with
          | inl hx => rw [hx]; exact hcells (c, e) (by simp)
          | inr hx => exact hcells x (by simp [hx])
    · rw [hhdr₃, hkept.hdr, hhdr₁]
    · rw [htotal₃, hkept.totalLen, htotal₁]
    · rw [hplace, hfix]
      simp only [Except.bind, hcopy, Bool.false_eq_true, if_false]
    · rw [hfin₃, hkept.finished, hfin₁]
    · exact ho ▸ hne
    · exact ho ▸ hlist₃ _ hlisted hapart

theorem netDefragment_none (hfar : ¬ip.tooFar)
    (h : overlapped (begin s ip) ip = .ok none) : netDefragment s ip = .ok (begin s ip, none) := by
  simp only [netDefragment, if_neg hfar, h, bind, Except.bind]

theorem netDefragment_some (hfar : ¬ip.tooFar) (h : overlapped (begin s ip) ip = .ok (some c)) :
    netDefragment s ip = place (begin s ip) ip c := by
  simp only [netDefragment, if_neg hfar, h, bind, Except.bind]

theorem Listed.overlapped_cases (h : Listed s hs) (hne : hs ≠ []) (ip : IpPacket) :
    overlapped s ip = .ok none ∨
      ∃ pre c e post, hs = pre ++ (c, e) :: post ∧ overlapped s ip = .ok (some c) ∧
        (∀ x ∈ pre, x.2 < ip.start) ∧ ip.start ≤ e ∧
        ¬(ip.offset8 : ℤ) + (ip.fragLen + 7).tdiv 8 ≤ c := by
  have hwalk := h.walk_eq hne ip.start
  cases hfind : hs.find? fun h => decide (ip.start ≤ h.2) with
  | none =>
    rw [hfind] at hwalk
    refine .inl ?_
    simp only [overlapped, hwalk, Except.map, map_none, filter_none]
  | some x =>
    rw [hfind] at hwalk
    obtain ⟨hx, pre, post, rfl, hpre⟩ := find?_eq_some_iff_append.mp hfind
    by_cases hover : (ip.offset8 : ℤ) + (ip.fragLen + 7).tdiv 8 ≤ x.1
    · refine .inl ?_
      simp only [overlapped, hwalk, Except.map, map_some, filter_some, hover,
        not_true_eq_false, decide_false, Bool.false_eq_true, if_false]
    · refine .inr ⟨pre, x.1, x.2, post, rfl, ?_, ?_, of_decide_eq_true hx, hover⟩
      · simp only [overlapped, hwalk, Except.map, map_some, filter_some, hover,
          not_false_eq_true, decide_true, if_true]
      · intro y hy
        simpa using hpre y hy

theorem Listed.overlapped_eq (h : Listed s (pre ++ (c, e) :: post))
    (hpre : ∀ x ∈ pre, x.2 < ip.start) (he : ip.start ≤ e)
    (hover : ¬(ip.offset8 : ℤ) + (ip.fragLen + 7).tdiv 8 ≤ c) : overlapped s ip = .ok (some c) := by
  have hwalk := h.walk_eq (by simp) ip.start
  have hfind : (pre ++ (c, e) :: post).find? (fun h => decide (ip.start ≤ h.2)) = some (c, e) := by
    refine find?_eq_some_iff_append.mpr ⟨decide_eq_true he, pre, post, rfl, ?_⟩
    intro x hx
    simpa using hpre x hx
  rw [hfind] at hwalk
  simp only [overlapped, hwalk, Except.map, map_some, filter_some, hover,
    not_false_eq_true, decide_true, if_true]

end Fragment

end UBoot.Defrag
