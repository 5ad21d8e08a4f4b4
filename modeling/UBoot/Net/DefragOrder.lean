import UBoot.Lib.Gaps
import UBoot.Net.DefragSafe

/-!
# Reassembly in any order

The fragments of a datagram arrive in any order and any number of times. The list in the payload
follows the intervals of missing fragments, unless the hole at index 0 is taken for the end of the
list.
-/

namespace UBoot.Defrag

open Memory DList Gaps List

structure Datagram where
  frags : List (List UInt8)
  cut : frags ≠ []
  nonempty : ∀ f ∈ frags, f ≠ []
  aligned : ∀ f ∈ frags.dropLast, 8 ∣ f.length
  size : frags.flatten.length ≤ ipMaxUdp

namespace Datagram

variable (d : Datagram)

def count : ℕ := d.frags.length
def payload : List UInt8 := d.frags.flatten
def frag (i : ℕ) : List UInt8 := d.frags.getD i []

/- Where fragment `i` starts. -/
def bound (i : ℕ) : ℕ := (d.frags.take i).flatten.length

end Datagram

/- `ip` carries fragment `i`; behind it the frame may be padded. -/
structure Carries (d : Datagram) (id i : ℕ) (ip : IpPacket) : Prop where
  id : ip.hdr.id = id
  len : ip.hdr.len = ipHdrSize + (d.frag i).length
  offset : ip.offset8 = d.bound i / 8
  more : ip.moreFragments = decide (i + 1 < d.count)
  data : d.frag i <+: ip.data

/- The packets in the order of the list; the answers in the same order. -/
def deliver (ip : ℕ → IpPacket) (s : State) : List ℕ → Except Fault (State × List (Option ℕ))
  | [] => .ok (s, [])
  | i :: is => do
    let (s₁, r) ← netDefragment s (ip i)
    let (s₂, rs) ← deliver ip s₁ is
    .ok (s₂, r :: rs)

/- A new fragment `f` follows received fragments that follow the hole at the start. -/
def Forgets (got : List ℕ) (f : ℕ) : Prop := f ∉ got ∧ ∃ i, 1 ≤ i ∧ i < f ∧ ∀ g < f, g ∈ got ↔ i ≤ g

def Orderly (is : List ℕ) : Prop := ∀ got f rest, is = got ++ f :: rest → ¬Forgets got f

namespace Datagram

variable (d : Datagram) {i j : ℕ}

theorem bound_zero : d.bound 0 = 0 := rfl

theorem bound_count : d.bound d.count = d.payload.length := by
  simp [bound, count, payload]

theorem frag_eq (hi : i < d.count) : d.frags[i]? = some (d.frag i) := by
  rw [frag, getD_eq_getElem?_getD, getElem?_eq_getElem hi]
  rfl

theorem frag_mem (hi : i < d.count) : d.frag i ∈ d.frags := mem_of_getElem? (d.frag_eq hi)

theorem bound_succ (hi : i < d.count) : d.bound (i + 1) = d.bound i + (d.frag i).length := by
  simp only [bound]
  rw [take_add_one, d.frag_eq hi]
  simp

theorem frag_pos (hi : i < d.count) : 0 < (d.frag i).length :=
  length_pos_of_ne_nil (d.nonempty _ (d.frag_mem hi))

theorem bound_mono (hij : i ≤ j) : d.bound i ≤ d.bound j := by
  simp only [bound]
  obtain ⟨k, rfl⟩ := Nat.exists_eq_add_of_le hij
  rw [take_add, flatten_append, length_append]
  exact Nat.le_add_right _ _

theorem bound_lt (hij : i < j) (hi : i < d.count) : d.bound i < d.bound j := by
  have hpos := d.frag_pos hi
  have hsucc := d.bound_succ hi
  have hmono := d.bound_mono (show i + 1 ≤ j from hij)
  lia

theorem bound_le_max : d.bound i ≤ ipMaxUdp := by
  refine le_trans ?_ d.size
  have h := d.bound_mono (Nat.le_add_right i d.count)
  have hall : d.bound (i + d.count) = d.frags.flatten.length := by
    simp only [bound, count]
    rw [take_of_length_le (Nat.le_add_left _ _)]
  rwa [hall] at h

theorem frag_dvd (hi : i + 1 < d.count) : 8 ∣ (d.frag i).length := by
  apply d.aligned
  have hget : d.frags.dropLast[i]? = some (d.frag i) := by
    rw [getElem?_dropLast, if_pos (by simp only [count] at hi; lia)]
    exact d.frag_eq (by lia)
  exact mem_of_getElem? hget

theorem bound_dvd (hi : i < d.count) : 8 ∣ d.bound i := by
  induction i with
  | zero => exact Nat.dvd_zero 8
  | succ i ih =>
    rw [d.bound_succ (by lia)]
    exact Nat.dvd_add (ih (by lia)) (d.frag_dvd hi)

theorem bound_cell (hi : i < d.count) : d.bound i + 8 ≤ ipMaxUdp := by
  have hdvd := d.bound_dvd hi
  have hlt := d.bound_lt (Nat.lt_add_one i) hi
  have hle := d.bound_le_max (i := i + 1)
  rw [ipMaxUdp_eq] at hle ⊢
  lia

theorem count_pos : 0 < d.count := length_pos_of_ne_nil d.cut

end Datagram

/- The hole of the missing fragments `[i, j)`; the end of the datagram is not known. -/
def toHole (d : Datagram) (g : ℕ × ℕ) : ℕ × ℕ :=
  (d.bound g.1 / 8, if g.2 = d.count then 0xffff else d.bound g.2)

structure OrderInv (d : Datagram) (id : ℕ) (got : List ℕ) (gs : List (ℕ × ℕ)) (s : State) :
    Prop where
  sep : Sep gs
  range : ∀ g ∈ gs, g.2 ≤ d.count
  missing : ∀ x, Covered gs x ↔ x < d.count ∧ x ∉ got
  known : ∀ g ∈ got, g < d.count
  listed : Listed s (gs.map (toHole d))
  data : ∀ g ∈ got, bytes s.mem (d.bound g) (d.frag g).length = d.frag g
  id : s.hdr.id = id
  total : s.totalLen = if d.count - 1 ∈ got then d.payload.length else 0xffff

section Steps

variable {d : Datagram} {id f : ℕ} {ip : IpPacket} {s s' : State} {got : List ℕ}
  {gs as bs : List (ℕ × ℕ)} {i j : ℕ}

theorem Carries.start (h : Carries d id f ip) (hf : f < d.count) : ip.start = d.bound f := by
  have hdvd := d.bound_dvd hf
  rw [IpPacket.start, h.offset]
  lia

theorem Carries.fragLen (h : Carries d id f ip) : ip.fragLen = ((d.frag f).length : ℤ) := by
  rw [IpPacket.fragLen, h.len]
  push_cast
  lia

theorem Carries.not_tooFar (h : Carries d id f ip) (hf : f < d.count) : ¬ip.tooFar := by
  have hle := d.bound_le_max (i := f + 1)
  rw [d.bound_succ hf] at hle
  rw [IpPacket.tooFar, h.start hf, h.fragLen]
  lia

theorem Carries.overlaps_iff (h : Carries d id f ip) (hf : f < d.count) (c : ℕ) :
    ¬(ip.offset8 : ℤ) + (ip.fragLen + 7).tdiv 8 ≤ c ↔ 8 * c < d.bound (f + 1) := by
  have hdvd := d.bound_dvd hf
  rw [h.fragLen, h.offset, d.bound_succ hf, Int.tdiv_eq_ediv_of_nonneg (by lia)]
  lia

theorem toHole_range (h : OrderInv d id got gs s) {g : ℕ × ℕ} (hg : g ∈ gs) :
    g.1 < g.2 ∧ g.1 < d.count := by
  have h₁ := h.sep.nonempty g hg
  have h₂ := h.range g hg
  exact ⟨h₁, by lia⟩

theorem toHole_cell (d : Datagram) (hi : i < d.count) (j : ℕ) : 8 * (toHole d (i, j)).1 = d.bound i := by
  have hdvd := d.bound_dvd hi
  simp only [toHole]
  lia

theorem apart_hole (h : OrderInv d id got gs s) {g : ℕ} (hg : g ∈ got) {x : ℕ × ℕ} (hx : x ∈ gs.map (toHole d)) {a : ℕ} (ha : d.bound g ≤ a)
    (ha' : a < d.bound (g + 1)) : a < 8 * x.1 ∨ 8 * x.1 + 8 ≤ a := by
  obtain ⟨⟨i, j⟩, hij, rfl⟩ := mem_map.mp hx
  obtain ⟨hlt, hi⟩ := toHole_range h hij
  simp only at hlt hi
  have hgc := h.known g hg
  have hcell := toHole_cell d hi j
  have hnot : ¬(i ≤ g ∧ g < j) := by
    intro hin
    exact ((h.missing g).mp ⟨(i, j), hij, hin⟩).2 hg
  by_cases hgi : g < i
  · have := d.bound_mono (show g + 1 ≤ i from hgi)
    lia
  · -- the hole ends before fragment `g`, so its first fragment is not the last one
    have hd := d.frag_dvd (i := i) (by lia)
    have hpos := d.frag_pos hi
    have hsucc := d.bound_succ hi
    have hmono := d.bound_mono (show i + 1 ≤ g by lia)
    lia

theorem apart_spare (h : OrderInv d id got gs s) {g : ℕ} (hg : g ∈ got) (hgf : g ≠ f)
    (hf : f + 1 < d.count) (hnext : f + 1 ∉ got) {a : ℕ} (ha : d.bound g ≤ a)
    (ha' : a < d.bound (g + 1)) : a < d.bound (f + 1) ∨ d.bound (f + 1) + 8 ≤ a := by
  have hgc := h.known g hg
  have hne : g ≠ f + 1 := by
    intro heq
    exact hnext (heq ▸ hg)
  by_cases hlt : g < f
  · have := d.bound_mono (show g + 1 ≤ f + 1 by lia)
    lia
  · have hd := d.frag_dvd (i := f + 1) (by lia)
    have hpos := d.frag_pos hf
    have hsucc := d.bound_succ hf
    have hmono := d.bound_mono (show f + 1 + 1 ≤ g by lia)
    lia

theorem placed_data (h : OrderInv d id got gs s) (hc : Carries d id f ip) (hf : f < d.count)
    {e : ℕ} (hp : Placed ip (d.frag f).length
      (spare (endAfter ip e (d.frag f).length) ip.offset8 (d.frag f).length ++ gs.map (toHole d))
      s s')
    (hspare : ip.start + (d.frag f).length < endAfter ip e (d.frag f).length →
      f + 1 < d.count ∧ f + 1 ∉ got) :
    ∀ g ∈ got ++ [f], bytes s'.mem (d.bound g) (d.frag g).length = d.frag g := by
  have hsame : bytes s'.mem (d.bound f) (d.frag f).length = d.frag f := by
    rw [← hc.start hf, hp.data]
    exact (prefix_iff_eq_take.mp hc.data).symm
  intro g hg
  by_cases hgf : g = f
  · rw [hgf]
    exact hsame
  · have hgot : g ∈ got := by
      simpa [hgf] using hg
    have hgc := h.known g hgot
    rw [← h.data g hgot, length_bytes]
    apply bytes_congr
    intro a ha ha'
    rw [← d.bound_succ hgc] at ha'
    apply hp.frame
    · rw [hc.start hf, ← d.bound_succ hf]
      by_cases hlt : g < f
      · have := d.bound_mono (show g + 1 ≤ f from hlt)
        lia
      · have := d.bound_mono (show f + 1 ≤ g by lia)
        lia
    · intro x hx
      cases mem_append.mp hx with
      | inl hx =>
        unfold spare at hx
        split at hx
        · rename_i hlt
          obtain ⟨hf', hnext⟩ := hspare hlt
          have hcell : 8 * x.1 = d.bound (f + 1) := by
            have h₁ := d.bound_dvd hf'
            have h₂ := hc.start hf
            have h₃ := d.bound_succ hf
            rw [IpPacket.start] at h₂
            rw [mem_singleton.mp hx]
            simp only
            lia
          rw [hcell]
          exact apart_spare h hgot hgf hf' hnext ha ha'
        · cases hx
      | inr hx => exact apart_hole h hgot hx ha ha'

theorem placed_total (h : OrderInv d id got gs s) (hc : Carries d id f ip) (hf : f < d.count)
    {hs : List (ℕ × ℕ)} (hp : Placed ip (d.frag f).length hs s s') :
    s'.totalLen = if d.count - 1 ∈ got ++ [f] then d.payload.length else 0xffff := by
  rw [hp.totalLen, hc.more, h.total]
  by_cases hlast : f + 1 < d.count
  · have hne : ¬d.count - 1 = f := by lia
    simp [hlast, hne]
  · have heq : d.count - 1 = f := by lia
    have hend : ip.start + (d.frag f).length = d.payload.length := by
      rw [hc.start hf, ← d.bound_succ hf, ← d.bound_count]
      congr 1
      lia
    simp [hlast, heq, hend]

theorem toHole_before (h : OrderInv d id got (as ++ (i, j) :: bs) s) (hif : i ≤ f)
    (hf : f < d.count) (ho : ip.offset8 = d.bound f / 8) :
    ∀ x ∈ as.map (toHole d), x.1 < ip.offset8 ∧ x.2 < d.bound f := by
  intro x hx
  obtain ⟨a, ha, rfl⟩ := mem_map.mp hx
  obtain ⟨hlt, hac⟩ := toHole_range h (show a ∈ as ++ (i, j) :: bs by simp [ha])
  have hend := h.sep.outside.1 a ha
  have hdvd := d.bound_dvd hf
  have hdvd' := d.bound_dvd hac
  have hmono := d.bound_lt (show a.2 < f by lia) (by lia)
  have hmono' := d.bound_lt hlt hac
  simp only [toHole]
  rw [if_neg (by lia), ho]
  lia

theorem toHole_behind (h : OrderInv d id got (as ++ (i, j) :: bs) s) (hfj : f ≤ j) :
    ∀ y ∈ bs.map (toHole d), d.bound (f + 1) ≤ 8 * y.1 ∧ (toHole d (i, j)).2 ≤ 8 * y.1 := by
  intro y hy
  obtain ⟨b, hb, rfl⟩ := mem_map.mp hy
  obtain ⟨hlt, hbc⟩ := toHole_range h (show b ∈ as ++ (i, j) :: bs by simp [hb])
  have hstart := h.sep.outside.2 b hb
  have hcell := toHole_cell d hbc b.2
  have hmono := d.bound_mono (show f + 1 ≤ b.1 by lia)
  have hmono' := d.bound_mono (show j ≤ b.1 by lia)
  rw [hcell]
  refine ⟨hmono, ?_⟩
  simp only [toHole]
  rw [if_neg (by lia)]
  exact hmono'

theorem place_gap (h : OrderInv d id got (as ++ (i, j) :: bs) s) (hc : Carries d id f ip)
    (hf : f < d.count) (hif : i ≤ f) (hfj : f ≤ j) {e e' n o : ℕ} (he : e = (toHole d (i, j)).2)
    (hn : n = (d.frag f).length) (he' : e' = endAfter ip e n) (ho : o = ip.offset8)
    (hspare : d.bound (f + 1) < e' → f + 1 < d.count ∧ f + 1 ∉ got) :
    ∃ s', (∀ g ∈ got ++ [f], bytes s'.mem (d.bound g) (d.frag g).length = d.frag g) ∧
      s'.hdr.id = id ∧
      s'.totalLen = (if d.count - 1 ∈ got ++ [f] then d.payload.length else 0xffff) ∧
      ((place s ip (d.bound i / 8) = .ok (s', some (s'.totalLen + ipHdrSize)) ∧
          o ≤ d.bound i / 8 ∧ e' ≤ d.bound (f + 1) ∧ before (as.map (toHole d)) = [] ∧ bs = []) ∨
        (place s ip (d.bound i / 8) = .ok (s', none) ∧
          fixed (as.map (toHole d)) (bs.map (toHole d)) (d.bound i / 8) e' o n ≠ [] ∧
          Listed s' (fixed (as.map (toHole d)) (bs.map (toHole d)) (d.bound i / 8) e' o n))) := by
  have hstart := hc.start hf
  have hnext := d.bound_succ hf
  have hmax := d.bound_le_max (i := f + 1)
  have hbehind := toHole_behind h hfj
  have hlisted : Listed s (as.map (toHole d) ++ (d.bound i / 8, e) :: bs.map (toHole d)) := by
    have hl := h.listed
    rw [map_append, map_cons] at hl
    rw [he]
    exact hl
  rw [hnext, ← hstart, ← hn] at hspare hmax ⊢
  rw [hnext, ← hstart, ← hn, ← he] at hbehind
  rw [he'] at hspare
  have hmove : ip.start + n < endAfter ip e n → 8 ∣ n ∧ ip.start + n + 8 ≤ ipMaxUdp := by
    intro hlt
    have hf' := (hspare hlt).1
    have hcell := d.bound_cell hf'
    rw [hnext, ← hstart, ← hn] at hcell
    exact ⟨hn ▸ d.frag_dvd hf', hcell⟩
  obtain ⟨s', hplaced, hrun⟩ := place_listed hlisted (hn ▸ hc.fragLen) (hn ▸ hc.data.length_le) hmax
    (fun x hx => (toHole_before h hif hf hc.offset x hx).1) (fun y hy => (hbehind y hy).1)
    (fun y hy => (hbehind y hy).2) hmove
  have hcells : as.map (toHole d) ++ (d.bound i / 8, e) :: bs.map (toHole d) =
      (as ++ (i, j) :: bs).map (toHole d) := by
    rw [map_append, map_cons, he]
    rfl
  rw [hcells, hn] at hplaced
  refine ⟨s', placed_data h hc hf hplaced (hn ▸ hspare), hplaced.id.trans h.id,
    placed_total h hc hf hplaced, ?_⟩
  rw [ho, he']
  cases hrun with
  | inl hdone =>
    obtain ⟨hplace, -, hoc, hend, hbefore, hpost⟩ := hdone
    exact .inl ⟨hplace, hoc, hend, hbefore, map_eq_nil_iff.mp hpost⟩
  | inr hmore =>
    obtain ⟨hplace, -, hne, hl⟩ := hmore
    exact .inr ⟨hplace, hne, hl⟩

theorem step_again (h : OrderInv d id got gs (begin s ip)) (hc : Carries d id f ip) (hf : f ∈ got)
    (hne : gs ≠ []) : ∃ s', netDefragment s ip = .ok (s', none) ∧ OrderInv d id (got ++ [f]) gs s' := by
  have hfc := h.known f hf
  have hfar := hc.not_tooFar hfc
  have hdvd := d.bound_dvd hfc
  have hgot : ∀ x, x ∈ got ++ [f] ↔ x ∈ got := by
    intro x
    simp only [mem_append, mem_singleton, or_iff_left_iff_imp]
    intro hx
    exact hx ▸ hf
  cases h.listed.overlapped_cases (by simpa using hne) ip with
  | inl hnone =>
    refine ⟨begin s ip, netDefragment_none hfar hnone, h.sep, h.range, ?_, ?_, h.listed, ?_, h.id, ?_⟩
    · simpa only [hgot] using h.missing
    · simpa only [hgot] using h.known
    · simpa only [hgot] using h.data
    · simpa only [hgot] using h.total
  | inr hsome =>
    obtain ⟨pre, c, e, post, hlist, hover, -, hstart, htest⟩ := hsome
    obtain ⟨as, rs, rfl, rfl, hrs⟩ := map_eq_append_iff.mp hlist
    obtain ⟨⟨i, j⟩, bs, rfl, hij, rfl⟩ := map_eq_cons_iff.mp hrs
    obtain ⟨hlt, hi⟩ := toHole_range h (show (i, j) ∈ as ++ (i, j) :: bs by simp)
    simp only at hlt hi
    obtain ⟨hc8, he⟩ := Prod.mk.inj hij
    have hcell : 8 * c = d.bound i := by
      have := d.bound_dvd hi
      simp only at hc8
      lia
    have hif : i ≤ f := by
      by_contra hgt
      have hmono := d.bound_mono (show f + 1 ≤ i by lia)
      have htest' := (hc.overlaps_iff hfc c).mp htest
      lia
    have hjf : j ≤ f := by
      by_contra hgt
      exact ((h.missing f).mp ⟨(i, j), by simp, hif, by simp only; lia⟩).2 hf
    rw [if_neg (by simp only; lia)] at he
    simp only at he
    rw [hc.start hfc] at hstart
    have heq : j = f := by
      by_contra hne
      have hmono := d.bound_lt (show j < f by lia) (by lia)
      lia
    subst heq
    have hpos := d.bound_lt hlt hi
    have hnext := d.bound_succ hfc
    have hend : endAfter ip e (d.frag j).length ≤ d.bound (j + 1) := by
      unfold endAfter
      rw [hc.start hfc]
      split
      · lia
      · lia
    obtain ⟨s', hdata, hid, htotal, hrun⟩ := place_gap h hc hfc hif (le_refl j) (by rw [hij]) rfl rfl
      rfl (fun hlt => absurd hlt (not_lt.mpr hend))
    have hfixed : fixed (as.map (toHole d)) (bs.map (toHole d)) (d.bound i / 8)
        (endAfter ip e (d.frag j).length) ip.offset8 (d.frag j).length =
          (as ++ (i, j) :: bs).map (toHole d) := by
      rw [fixed, if_neg (by rw [hc.offset]; lia), if_pos (by rw [hc.offset]; lia), hc.offset,
        map_append, map_cons, hij, ← hc8, ← he]
      congr 3
      lia
    rw [netDefragment_some hfar hover, ← hc8]
    cases hrun with
    | inl hdone =>
      have hle := hdone.2.1
      rw [hc.offset] at hle
      lia
    | inr hmore =>
      obtain ⟨hplace, -, hl⟩ := hmore
      rw [hfixed] at hl
      refine ⟨s', hplace, h.sep, h.range, ?_, ?_, hl, hdata, hid, htotal⟩
      · simpa only [hgot] using h.missing
      · simpa only [hgot] using h.known

theorem toHole_end (d : Datagram) (hfj : f ≤ j) : d.bound f ≤ (toHole d (i, j)).2 := by
  have hmax := d.bound_le_max (i := f)
  rw [ipMaxUdp_eq] at hmax
  simp only [toHole]
  split
  · lia
  · exact d.bound_mono hfj

theorem end_after (hc : Carries d id f ip) (hf : f < d.count) (hfj : f < j) (hj : j ≤ d.count)
    {e' : ℕ} (he' : e' = endAfter ip (toHole d (i, j)).2 (d.frag f).length) :
    (e' ≤ d.bound (f + 1) ↔ j = f + 1) ∧
      (d.bound (f + 1) < e' → f + 1 < d.count ∧ e' = (toHole d (i, j)).2) := by
  have hnext := d.bound_succ hf
  have hmax := d.bound_le_max (i := f + 1)
  rw [ipMaxUdp_eq] at hmax
  rw [he', endAfter, hc.more, hc.start hf, ← hnext]
  by_cases hlast : f + 1 < d.count
  · simp only [decide_eq_true hlast, if_true]
    refine ⟨?_, fun _ => ⟨hlast, trivial⟩⟩
    simp only [toHole]
    by_cases hjc : j = d.count
    · rw [if_pos hjc]
      lia
    · rw [if_neg hjc]
      by_cases heq : j = f + 1
      · rw [heq]
        lia
      · have hmono := d.bound_lt (show f + 1 < j by lia) hlast
        lia
  · simp only [decide_eq_false hlast, Bool.false_eq_true, if_false]
    lia

theorem before_gap (h : OrderInv d id got (as ++ (f, j) :: bs) s) (hf : f ∉ got)
    (hok : ¬Forgets got f) : before (as.map (toHole d)) = as.map (toHole d) := by
  cases before_cases (as.map (toHole d)) with
  | inr hkept => exact hkept.2.1
  | inl hz =>
    have hl := h.listed.asc
    rw [map_append] at hl
    cases (ascending_append.mp hl).1.lastOr_eq_zero.mp hz.1 with
    | inl hnil => rw [hz.2, hnil]
    | inr hone =>
      exfalso
      obtain ⟨v, hv⟩ := hone
      obtain ⟨⟨i, k⟩, rfl, hik⟩ := map_eq_singleton_iff.mp hv
      obtain ⟨hlt, hi⟩ := toHole_range h (show (i, k) ∈ [(i, k)] ++ (f, j) :: bs by simp)
      have hkf : k < f := h.sep.outside.1 (i, k) (by simp)
      simp only at hlt hi
      have hi0 : i = 0 := by
        by_contra hne
        have hpos := d.bound_lt (show 0 < i by lia) d.count_pos
        have hdvd := d.bound_dvd hi
        have hcell : d.bound i / 8 = 0 := (Prod.mk.inj hik).1
        lia
      subst hi0
      have hfc : f < d.count := (toHole_range h (show (f, j) ∈ _ by simp)).2
      refine hok ⟨hf, k, hlt, hkf, ?_⟩
      intro g hg
      -- the holes behind the fragment say nothing about what is before it
      have hcov : Covered ([(0, k)] ++ (f, j) :: bs) g ↔ g < k := by
        rw [covered_append, covered_cons, covered_cons]
        simp only [Nat.zero_le, true_and]
        constructor
        · intro hor
          cases hor with
          | inl hor =>
            cases hor with
            | inl hlt => exact hlt
            | inr hnil => obtain ⟨x, hx, -⟩ := hnil; cases hx
          | inr hor =>
            cases hor with
            | inl hfg => lia
            | inr hbs =>
              obtain ⟨b, hb, hle, -⟩ := hbs
              have hfj := h.sep.nonempty (f, j) (by simp)
              have hbj := h.sep.outside.2 b hb
              simp only at hfj
              lia
        · intro hlt
          exact .inl (.inl hlt)
      have hmiss := h.missing g
      rw [hcov] at hmiss
      constructor
      · intro hgot
        by_contra hgk
        exact (hmiss.mp (by lia)).2 hgot
      · intro hkg
        by_contra hgot
        have := hmiss.mpr ⟨by lia, hgot⟩
        lia

theorem fixed_gap (h : OrderInv d id got (as ++ (i, j) :: bs) s) (hc : Carries d id f ip)
    (hf : f < d.count) (hif : i ≤ f) (hfj : f < j) {e' : ℕ}
    (he' : e' = endAfter ip (toHole d (i, j)).2 (d.frag f).length)
    (hbefore : i = f → before (as.map (toHole d)) = as.map (toHole d)) :
    fixed (as.map (toHole d)) (bs.map (toHole d)) (d.bound i / 8) e' ip.offset8 (d.frag f).length =
      (as ++ rest i j f ++ bs).map (toHole d) := by
  obtain ⟨hi, hj⟩ : i < d.count ∧ j ≤ d.count := ⟨by lia, h.range (i, j) (by simp)⟩
  obtain ⟨hend, hmore⟩ := end_after hc hf hfj hj he'
  have hdvdi := d.bound_dvd hi
  have hdvdf := d.bound_dvd hf
  have hnext := d.bound_succ hf
  have hlow : ip.offset8 ≤ d.bound i / 8 ↔ i = f := by
    rw [hc.offset]
    constructor
    · intro hle
      by_contra hne
      have := d.bound_lt (show i < f by lia) hi
      lia
    · intro heq
      rw [heq]
  have hstart : 8 * ip.offset8 = d.bound f := hc.start hf
  have hleft : (d.bound i / 8, 8 * ip.offset8) = toHole d (i, f) := by
    simp only [toHole]
    rw [if_neg (by lia), hstart]
  have hright : j ≠ f + 1 → (ip.offset8 + (d.frag f).length / 8, e') = toHole d (f + 1, j) := by
    intro hne
    obtain ⟨hf', he⟩ := hmore (not_le.mp (mt hend.mp hne))
    have := d.frag_dvd hf'
    rw [he]
    simp only [toHole]
    congr 1
    lia
  rw [hnext, ← hstart] at hend
  simp only [fixed, hend, hlow, hleft]
  unfold rest
  by_cases hi' : i = f
  · by_cases hj' : j = f + 1
    · rw [if_pos ⟨hi', hj'⟩, if_pos hi', if_pos hj', hbefore hi']
      simp
    · rw [if_neg (by lia), if_neg hj', if_pos hi', if_pos hi', if_neg hj', hbefore hi', hright hj']
      simp
  · by_cases hj' : j = f + 1
    · rw [if_neg (by lia), if_pos hj', if_neg hi', if_pos hj']
      simp
    · rw [if_neg (by lia), if_neg hj', if_neg hi', if_neg hi', if_neg hj', hright hj']
      simp

structure Complete (d : Datagram) (s : State) : Prop where
  data : ∀ g < d.count, bytes s.mem (d.bound g) (d.frag g).length = d.frag g
  total : s.totalLen = d.payload.length

theorem step_new (h : OrderInv d id got gs (begin s ip)) (hc : Carries d id f ip) (hf : f < d.count)
    (hnew : f ∉ got) (hok : ¬Forgets got f) :
    (∃ s', netDefragment s ip = .ok (s', some (s'.totalLen + ipHdrSize)) ∧
        (∀ x < d.count, x ∈ got ++ [f]) ∧ Complete d s') ∨
      ∃ s' gs', netDefragment s ip = .ok (s', none) ∧ gs' ≠ [] ∧
        OrderInv d id (got ++ [f]) gs' s' := by
  obtain ⟨as, i, j, bs, rfl, hif, hfj⟩ := ((h.missing f).mpr ⟨hf, hnew⟩).split
  have hj : j ≤ d.count := h.range (i, j) (by simp)
  obtain ⟨e', he'⟩ : ∃ e', e' = endAfter ip (toHole d (i, j)).2 (d.frag f).length := ⟨_, rfl⟩
  obtain ⟨hend, hmore⟩ := end_after hc hf hfj hj he'
  have hbefore : i = f → before (as.map (toHole d)) = as.map (toHole d) := by
    intro heq
    subst heq
    exact before_gap h hnew hok
  have hspare : d.bound (f + 1) < e' → f + 1 < d.count ∧ f + 1 ∉ got := by
    intro hlt
    have hne : j ≠ f + 1 := by
      intro heq
      exact absurd (hend.mpr heq) (by lia)
    exact (h.missing (f + 1)).mp ⟨(i, j), by simp, by simp only; lia, by simp only; lia⟩
  have hcover : ∀ x, Covered (as ++ rest i j f ++ bs) x ↔ x < d.count ∧ x ∉ got ++ [f] := by
    intro x
    rw [h.sep.covered_take_out hif hfj, h.missing, mem_append, mem_singleton]
    tauto
  obtain ⟨s', hdata, hid, htotal, hrun⟩ := place_gap h hc hf hif (by lia) rfl rfl he' rfl hspare
  have hover : overlapped (begin s ip) ip = .ok (some (d.bound i / 8)) := by
    have hl := h.listed
    rw [map_append, map_cons] at hl
    apply hl.overlapped_eq
    · intro x hx
      rw [hc.start hf]
      exact (toHole_before h hif hf hc.offset x hx).2
    · rw [hc.start hf]
      exact toHole_end d (by lia)
    · rw [hc.overlaps_iff hf]
      have hlt := d.bound_lt (show i < f + 1 by lia) (by lia)
      simp only
      lia
  rw [netDefragment_some (hc.not_tooFar hf) hover]
  rw [fixed_gap h hc hf hif hfj he' hbefore] at hrun
  cases hrun with
  | inl hdone =>
    obtain ⟨hplace, hlow, hlast, hnil, rfl⟩ := hdone
    have heq : i = f := by
      by_contra hne
      have hlt := d.bound_lt (show i < f by lia) (by lia)
      have hdvd := d.bound_dvd hf
      rw [hc.offset] at hlow
      lia
    rw [hbefore heq, map_eq_nil_iff] at hnil
    have hall : ∀ x < d.count, x ∈ got ++ [f] := by
      intro x hx
      by_contra hmiss
      obtain ⟨g, hg, -⟩ := (hcover x).mpr ⟨hx, hmiss⟩
      rw [rest, if_pos heq, if_pos (hend.mp hlast), hnil] at hg
      cases hg
    refine .inl ⟨s', hplace, hall, fun g hg => hdata g (hall g hg), ?_⟩
    rw [htotal, if_pos (hall _ (by lia))]
  | inr hmore =>
    obtain ⟨hplace, hne, hl⟩ := hmore
    refine .inr ⟨s', as ++ rest i j f ++ bs, hplace, by simpa using hne, h.sep.take_out hif hfj,
      ?_, hcover, ?_, hl, hdata, hid, htotal⟩
    · intro g hg
      simp only [mem_append] at hg
      cases hg with
      | inl hg =>
        cases hg with
        | inl hg => exact h.range g (by simp [hg])
        | inr hg => exact (mem_rest hg hif hfj).2.2.1.trans hj
      | inr hg => exact h.range g (by simp [hg])
    · intro g hg
      cases mem_append.mp hg with
      | inl hg => exact h.known g hg
      | inr hg => exact (mem_singleton.mp hg) ▸ hf

/- Before the first fragment, or after those of `got`. -/
def Awaits (d : Datagram) (id : ℕ) (got : List ℕ) (s : State) : Prop :=
  (got = [] ∧ (s.totalLen = 0 ∨ s.hdr.id ≠ id)) ∨ ∃ gs, gs ≠ [] ∧ OrderInv d id got gs s

theorem Awaits.begin (h : Awaits d id got s) (hc : Carries d id f ip) :
    ∃ gs, gs ≠ [] ∧ OrderInv d id got gs (begin s ip) := by
  have hpos := d.count_pos
  cases h with
  | inl hfresh =>
    obtain ⟨rfl, hfresh⟩ := hfresh
    rw [UBoot.Defrag.begin, hc.id, if_pos hfresh]
    refine ⟨[(0, d.count)], by simp, ⟨?_, pairwise_singleton _ _⟩, ?_, ?_, ?_, ?_, ?_, hc.id, rfl⟩
    · simpa using hpos
    · simp
    · simp [Covered]
    · simp
    · have hhole : toHole d (0, d.count) = (0, 0xffff) := by
        simp [toHole, d.bound_zero]
      rw [map_singleton, hhole]
      exact listed_reset s ip.hdr
    · simp
  | inr hgs =>
    obtain ⟨gs, hne, hinv⟩ := hgs
    have htotal : s.totalLen ≠ 0 := by
      have hlt := d.bound_lt hpos hpos
      rw [d.bound_count] at hlt
      rw [hinv.total]
      split
      · lia
      · lia
    have hkeep : ¬(s.totalLen = 0 ∨ s.hdr.id ≠ ip.hdr.id) := by
      rw [hinv.id, hc.id]
      simpa using htotal
    rw [UBoot.Defrag.begin, if_neg hkeep]
    exact ⟨gs, hne, hinv⟩

theorem Awaits.step (h : Awaits d id got s) (hc : Carries d id f ip) (hf : f < d.count)
    (hok : ¬Forgets got f) :
    (∃ s', netDefragment s ip = .ok (s', some (s'.totalLen + ipHdrSize)) ∧
        (∀ x < d.count, x ∈ got ++ [f]) ∧ Complete d s') ∨
      ∃ s', netDefragment s ip = .ok (s', none) ∧ (∃ x < d.count, x ∉ got ++ [f]) ∧
        Awaits d id (got ++ [f]) s' := by
  obtain ⟨gs, hne, hinv⟩ := h.begin hc
  have hnext : ∀ {gs' : List (ℕ × ℕ)} {s' : State}, gs' ≠ [] → OrderInv d id (got ++ [f]) gs' s' →
      (∃ x < d.count, x ∉ got ++ [f]) ∧ Awaits d id (got ++ [f]) s' := by
    intro gs' s' hne' hinv'
    refine ⟨?_, .inr ⟨gs', hne', hinv'⟩⟩
    obtain ⟨g, hg⟩ := exists_mem_of_ne_nil gs' hne'
    exact ⟨g.1, (hinv'.missing g.1).mp ⟨g, hg, le_refl _, hinv'.sep.nonempty g hg⟩⟩
  by_cases hgot : f ∈ got
  · obtain ⟨s', hrun, hinv'⟩ := step_again hinv hc hgot hne
    exact .inr ⟨s', hrun, hnext hne hinv'⟩
  · cases step_new hinv hc hf hgot hok with
    | inl hdone => exact .inl hdone
    | inr hmore =>
      obtain ⟨s', gs', hrun, hne', hinv'⟩ := hmore
      exact .inr ⟨s', hrun, hnext hne' hinv'⟩

theorem Complete.payload (h : Complete d s) : bytes s.mem 0 d.payload.length = d.payload := by
  have hpart : ∀ k ≤ d.count, bytes s.mem 0 (d.bound k) = (d.frags.take k).flatten := by
    intro k hk
    induction k with
    | zero => rfl
    | succ k ih =>
      rw [d.bound_succ hk, bytes_add, ih (by lia), Nat.zero_add, h.data k hk, take_add_one,
        d.frag_eq hk]
      simp
  have hall := hpart d.count (le_refl _)
  rw [d.bound_count] at hall
  rw [hall]
  simp [Datagram.payload, Datagram.count]

theorem Awaits.deliver {pkt : ℕ → IpPacket} (hpkt : ∀ i < d.count, Carries d id i (pkt i))
    {is : List ℕ} (h : Awaits d id got s) (his : ∀ i ∈ is, i < d.count)
    (hmiss : ∃ i < d.count, i ∉ got ++ is)
    (hok : ∀ as f bs, is = as ++ f :: bs → ¬Forgets (got ++ as) f) :
    ∃ s₁, UBoot.Defrag.deliver pkt s is = .ok (s₁, List.replicate is.length none) ∧
      Awaits d id (got ++ is) s₁ := by
  induction is generalizing got s with
  | nil => exact ⟨s, rfl, by simpa using h⟩
  | cons f is ih =>
    have hf := his f mem_cons_self
    have hnow := hok [] f is rfl
    rw [append_nil] at hnow
    cases h.step (hpkt f hf) hf hnow with
    | inl hdone =>
      obtain ⟨s', -, hall, -⟩ := hdone
      obtain ⟨i, hi, hnot⟩ := hmiss
      have hmem := hall i hi
      simp only [mem_append, mem_cons] at hmem hnot
      tauto
    | inr hmore =>
      obtain ⟨s', hrun, -, hnext⟩ := hmore
      have happ : got ++ f :: is = got ++ [f] ++ is := by simp
      rw [happ] at hmiss ⊢
      obtain ⟨s₁, hdel, hawait⟩ := ih hnext (fun i hi => his i (mem_cons_of_mem f hi)) hmiss (by
        intro as g bs heq
        have := hok (f :: as) g bs (by rw [heq]; rfl)
        rwa [append_cons] at this)
      refine ⟨s₁, ?_, hawait⟩
      simp only [UBoot.Defrag.deliver, hrun, hdel, bind, Except.bind, length_cons, replicate_succ]

end Steps

theorem deliver_any_order (d : Datagram) (id : ℕ) (s : State) (pkt : ℕ → IpPacket) (is : List ℕ)
    (last : ℕ) (hfresh : s.totalLen = 0 ∨ s.hdr.id ≠ id)
    (hpkt : ∀ i < d.count, Carries d id i (pkt i)) (his : ∀ i ∈ is, i < d.count)
    (hmiss : ∃ i < d.count, i ∉ is) (hlast : last < d.count) (horder : Orderly (is ++ [last])) :
    ∃ s₁, deliver pkt s is = .ok (s₁, List.replicate is.length none) ∧
      ((∀ i < d.count, i ∈ is ++ [last]) →
        ∃ s₂, netDefragment s₁ (pkt last) = .ok (s₂, some (d.payload.length + ipHdrSize)) ∧
          bytes s₂.mem 0 d.payload.length = d.payload) := by
  have hstart : Awaits d id [] s := .inl ⟨rfl, hfresh⟩
  obtain ⟨s₁, hdel, hawait⟩ := hstart.deliver hpkt his hmiss (by
    intro as f bs heq
    apply horder as f (bs ++ [last])
    rw [heq]
    simp)
  refine ⟨s₁, hdel, ?_⟩
  intro hall
  cases hawait.step (hpkt last hlast) hlast (horder is last [] rfl) with
  | inl hdone =>
    obtain ⟨s₂, hrun, -, hcomplete⟩ := hdone
    rw [hcomplete.total] at hrun
    exact ⟨s₂, hrun, hcomplete.payload⟩
  | inr hmore =>
    obtain ⟨s₂, -, ⟨x, hx, hnot⟩, -⟩ := hmore
    exact absurd (hall x hx) hnot

def threeFragments : Datagram where
  frags := [List.replicate 16 1, List.replicate 8 2, List.replicate 8 3]
  cut := by decide
  nonempty := by decide
  aligned := by decide
  size := by decide

def threePackets (i : ℕ) : IpPacket :=
  let fields : ℕ × ℕ × ℕ := [(36, 0x2000, 0x46c6), (28, 0x2002, 0x46cc), (28, 0x3, 0x66cb)].getD i 0
  { hdr := ⟨0x45, 0, fields.1, 1, fields.2.1, 64, 17, fields.2.2, 0x0a000001, 0x0a000002⟩
    data := threeFragments.frag i }

theorem carries_three : ∀ i < threeFragments.count, Carries threeFragments 1 i (threePackets i) := by
  intro i hi
  have hi' : i < 3 := hi
  interval_cases i
  · exact ⟨by decide, by decide, by decide, by decide, by decide⟩
  · exact ⟨by decide, by decide, by decide, by decide, by decide⟩
  · exact ⟨by decide, by decide, by decide, by decide, by decide⟩

/- The last fragment, the first one twice, then the one between them. -/
theorem deliver_any_order_three :
    ∃ s₁, deliver threePackets bootState [2, 0, 0] = .ok (s₁, [none, none, none]) ∧
      ∃ s₂, netDefragment s₁ (threePackets 1) = .ok (s₂, some 52) ∧
        bytes s₂.mem 0 32 = threeFragments.payload := by
  have horder : Orderly ([2, 0, 0] ++ [1]) := by
    intro got f rest heq hforgets
    obtain ⟨-, i, hi, hif, hgot⟩ := hforgets
    have hone := (hgot i hif).mpr (le_refl i)
    cases got with
    | nil => cases hone
    | cons g got =>
      have hf : f ∈ [0, 0, 1] := by
        have htail : [0, 0, 1] = got ++ f :: rest := (List.cons.inj heq).2
        rw [htail]
        simp
      simp only [mem_cons, not_mem_nil, or_false] at hf
      lia
  obtain ⟨s₁, hdel, hlast⟩ := deliver_any_order threeFragments 1 bootState threePackets [2, 0, 0] 1
    (.inl rfl) carries_three (by decide) ⟨1, by decide⟩ (by decide) horder
  exact ⟨s₁, hdel, hlast (by decide)⟩

/- Fragment 2 makes the hole of fragment 0 drop out, and the packet is returned without it. -/
theorem deliver_incomplete :
    ¬ ∀ (d : Datagram) (id : ℕ) (s : State) (pkt : ℕ → IpPacket) (is : List ℕ) (last : ℕ),
      s.totalLen = 0 ∨ s.hdr.id ≠ id →
      (∀ i < d.count, Carries d id i (pkt i) ∧ (pkt i).Accepted) → (∀ i ∈ is, i < d.count) →
      (∃ i < d.count, i ∉ is) → last < d.count →
      ∃ s₁, deliver pkt s is = .ok (s₁, List.replicate is.length none) ∧
        ((∀ i < d.count, i ∈ is ++ [last]) →
          ∃ s₂, netDefragment s₁ (pkt last) = .ok (s₂, some (d.payload.length + ipHdrSize)) ∧
            bytes s₂.mem 0 d.payload.length = d.payload) := by
  intro hall
  have hpkt : ∀ i < threeFragments.count,
      Carries threeFragments 1 i (threePackets i) ∧ (threePackets i).Accepted := by
    intro i hi
    refine ⟨carries_three i hi, ?_⟩
    have hi' : i < 3 := hi
    interval_cases i
    · decide +kernel
    · decide +kernel
    · decide +kernel
  obtain ⟨s₁, hdel, -⟩ := hall threeFragments 1 bootState threePackets [1, 2] 0 (.inl rfl) hpkt
    (by decide) ⟨0, by decide⟩ (by decide)
  have hanswers : (deliver threePackets bootState [1, 2]).toOption.map Prod.snd =
      some [none, some 52] := by
    decide +kernel
  rw [hdel] at hanswers
  cases hanswers

end UBoot.Defrag
