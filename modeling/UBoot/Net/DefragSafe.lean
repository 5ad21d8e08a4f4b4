import UBoot.Net.HoleList

/-!
# Reassembly under hostile fragments

`__net_defragment` checks that a fragment ends inside the buffer, and little else. With what it does not
check, no access goes astray.
-/

namespace UBoot.Defrag

open Memory DList List

/- The condition on a fragment that is placed in the hole at `c`. -/
structure Fits (s : State) (ip : IpPacket) (c : ℕ) : Prop where
  nonneg : 0 ≤ ip.fragLen
  next : (hole s.mem c).next ≠ 0 → (ip.start : ℤ) + ip.fragLen ≤ 8 * (hole s.mem c).next
  rest : ip.start + ip.fragLen.toNat < endAfter ip (hole s.mem c).val ip.fragLen.toNat →
    8 ∣ ip.fragLen.toNat ∧ ip.start + ip.fragLen.toNat + 8 ≤ ipMaxUdp

/- The packet is rejected at once, or its datagram is not the one returned last and it fits. -/
def Tame (s : State) (ip : IpPacket) : Prop :=
  ip.tooFar ∨ ((begin s ip).finished = false ∧
    ∀ c, overlapped (begin s ip) ip = .ok (some c) → Fits (begin s ip) ip c)

/- States after packets that pass the checks, from the zeroed static variables on. -/
inductive Reached (ok : State → IpPacket → Prop) : State → Prop
  | start {s : State} (h : s.totalLen = 0) : Reached ok s
  | step {s s' : State} {ip : IpPacket} {r : Option ℕ} (h : Reached ok s) (accepted : ip.Accepted)
      (meets : ok s ip) (run : netDefragment s ip = .ok (s', r)) : Reached ok s'

/- Every hole has room for its descriptor and ends at a multiple of 8, or nowhere. -/
structure Spaced (hs : List (ℕ × ℕ)) : Prop where
  ends : ∀ x ∈ hs, 8 * x.1 + 8 ≤ x.2 ∧ (x.2 = 0xffff ∨ 8 ∣ x.2 ∧ x.2 ≤ ipMaxUdp)
  apart : hs.Pairwise fun x y => x.2 ≤ 8 * y.1

section Lists

variable {s s' : State} {ip : IpPacket} {pre post hs : List (ℕ × ℕ)} {c e o n : ℕ}

theorem listed_reset (s : State) (hdr : Header) : Listed (reset s hdr) [(0, 0xffff)] := by
  have hnode : hole (reset s hdr).mem 0 = ⟨0xffff, 0, 0⟩ := by
    have h₁ := hole_setPrev (setWord16 (setWord16 s.mem 0 0xffff) 2 0) 0 0
    have h₂ := hole_setNext (setWord16 s.mem 0 0xffff) 0 0
    have h₃ := hole_setLast s.mem 0 0xffff
    simp only [Nat.mul_zero, Nat.zero_add] at h₁ h₂ h₃
    simp only [reset, h₁, h₂, h₃, Function.update_self]
    rfl
  refine ⟨rfl, ⟨hnode, trivial⟩, pairwise_singleton _ _, ?_, ?_⟩
  · simp [ipMaxUdp_eq]
  · simp [reset]

theorem spaced_reset : Spaced [(0, 0xffff)] := ⟨by simp, pairwise_singleton _ _⟩

theorem Spaced.fixed (h : Spaced (pre ++ (c, e) :: post)) (hpre : ∀ x ∈ pre, x.2 < 8 * o)
    (hfar : 8 * o + n ≤ ipMaxUdp) (hpost : ∀ y ∈ post, 8 * o + n ≤ 8 * y.1) {e' : ℕ}
    (he : 8 * o + n < e' → e' = e ∧ 8 ∣ n ∧ 8 * o + n + 8 ≤ ipMaxUdp) :
    Spaced (fixed pre post c e' o n) := by
  obtain ⟨happ, hapm, hacross⟩ := pairwise_append.mp h.apart
  obtain ⟨hcpost, happost⟩ := pairwise_cons.mp hapm
  have hpc : ∀ x ∈ pre, x.2 ≤ 8 * c := fun x hx => hacross x hx (c, e) mem_cons_self
  have hpq : ∀ x ∈ pre, ∀ y ∈ post, x.2 ≤ 8 * y.1 :=
    fun x hx y hy => hacross x hx y (mem_cons_of_mem _ hy)
  have hnew : 8 * o + n < e' → 8 * (o + n / 8) + 8 ≤ e' ∧ 8 * (o + n / 8) = 8 * o + n := by
    intro hlt
    obtain ⟨rfl, hdvd, hin⟩ := he hlt
    have hend := (h.ends (c, e') (by simp)).2
    rw [ipMaxUdp_eq] at hin
    simp only at hend
    lia
  constructor
  · intro x hx
    cases mem_fixed hx with
    | inl hx => exact h.ends x (by simp [hx])
    | inr hx =>
      cases hx with
      | inl hx =>
        rw [hx.1]
        simp only
        lia
      | inr hx =>
        cases hx with
        | inl hx =>
          obtain ⟨heq, -, -⟩ := he hx.2
          rw [hx.1]
          refine ⟨(hnew hx.2).1, ?_⟩
          rw [heq]
          exact (h.ends (c, e) (by simp)).2
        | inr hx => exact h.ends x (by simp [hx])
  · have hbefore : (before pre).Pairwise fun x y => x.2 ≤ 8 * y.1 := happ.sublist before_sublist
    have hjpost : 8 * o + n < e' →
        ((o + n / 8, e') :: post).Pairwise fun x y => x.2 ≤ 8 * y.1 := by
      intro hlt
      rw [(he hlt).1]
      exact pairwise_cons.mpr ⟨hcpost, happost⟩
    unfold Defrag.fixed
    split
    · exact pairwise_append.mpr ⟨hbefore, happost, fun x hx y hy => hpq x (before_sublist.subset hx) y hy⟩
    · split
      · refine pairwise_append.mpr ⟨happ, pairwise_cons.mpr ⟨?_, happost⟩, ?_⟩
        · intro y hy
          have := hpost y hy
          simp only
          lia
        · intro x hx y hy
          cases mem_cons.mp hy with
          | inl hy => rw [hy]; exact hpc x hx
          | inr hy => exact hpq x hx y hy
      · have hlt : 8 * o + n < e' := by lia
        have hpj : ∀ x ∈ pre, ∀ y ∈ (o + n / 8, e') :: post, x.2 ≤ 8 * y.1 := by
          intro x hx y hy
          cases mem_cons.mp hy with
          | inl hy =>
            have := hpre x hx
            have := (hnew hlt).2
            rw [hy]
            simp only
            lia
          | inr hy => exact hpq x hx y hy
        split
        · exact pairwise_append.mpr ⟨hbefore, hjpost hlt,
            fun x hx y hy => hpj x (before_sublist.subset hx) y hy⟩
        · refine pairwise_append.mpr ⟨happ, pairwise_cons.mpr ⟨?_, hjpost hlt⟩, ?_⟩
          · intro y hy
            have := (hnew hlt).2
            cases mem_cons.mp hy with
            | inl hy =>
              rw [hy]
              simp only
              lia
            | inr hy =>
              have := hpost y hy
              simp only
              lia
          · intro x hx y hy
            cases mem_cons.mp hy with
            | inl hy => rw [hy]; exact hpc x hx
            | inr hy => exact hpj x hx y hy

def Sound (s : State) : Prop :=
  s.totalLen = 0 ∨ s.finished = true ∨ ∃ hs, hs ≠ [] ∧ Listed s hs ∧ Spaced hs

theorem Sound.begin (h : Sound s) (hf : (begin s ip).finished = false) :
    ∃ hs, hs ≠ [] ∧ Listed (begin s ip) hs ∧ Spaced hs := by
  by_cases hnew : s.totalLen = 0 ∨ s.hdr.id ≠ ip.hdr.id
  · rw [Defrag.begin, if_pos hnew]
    exact ⟨[(0, 0xffff)], by simp, listed_reset s ip.hdr, spaced_reset⟩
  · rw [Defrag.begin, if_neg hnew] at hf ⊢
    cases h with
    | inl h => exact absurd (.inl h) hnew
    | inr h =>
      cases h with
      | inl h => rw [hf] at h; cases h
      | inr h => exact h

theorem netDefragment_step (h : Sound s) (ha : ip.Accepted) (hok : Tame s ip) :
    ∃ s' r, netDefragment s ip = .ok (s', r) ∧ Sound s' := by
  by_cases hfar : ip.tooFar
  · exact ⟨s, none, by rw [netDefragment, if_pos hfar], h⟩
  · obtain ⟨hfin, hfits⟩ := hok.resolve_left hfar
    obtain ⟨hs, hne, hlisted, hspaced⟩ := h.begin hfin
    have hsound : Sound (Defrag.begin s ip) := .inr (.inr ⟨hs, hne, hlisted, hspaced⟩)
    cases hlisted.overlapped_cases hne ip with
    | inl hnone =>
      exact ⟨Defrag.begin s ip, none, netDefragment_none hfar hnone, hsound⟩
    | inr hsome =>
      obtain ⟨pre, c, e, post, rfl, hfound, hpre, hstart, hover⟩ := hsome
      have hfit := hfits c hfound
      have hnode := hlisted.node
      obtain ⟨n, hn⟩ := Int.eq_ofNat_of_zero_le hfit.nonneg
      have hnat : ip.fragLen.toNat = n := by rw [hn]; rfl
      have hbound : ip.start + n ≤ ipMaxUdp := by
        rw [IpPacket.tooFar, hn] at hfar
        lia
      have hdata : n ≤ ip.data.length := by
        have hlen := ha.2.2.2.2.1
        rw [IpPacket.fragLen] at hn
        lia
      have hends := hspaced.ends
      have hbefore : ∀ x ∈ pre, x.1 < ip.offset8 := by
        intro x hx
        have h₁ := hpre x hx
        have h₂ := (hends x (by simp [hx])).1
        rw [IpPacket.start] at h₁
        lia
      have hbehind : ∀ y ∈ post, ip.start + n ≤ 8 * y.1 := by
        cases post with
        | nil => simp
        | cons z zs =>
          have hnext := hfit.next
          have hasc := (ascending_append.mp hlisted.asc).2.1
          have hcz := (ascending_cons.mp hasc).1 z mem_cons_self
          rw [hnode, hn] at hnext
          simp only [headOr] at hnext
          have hz := hnext (by lia)
          intro y hy
          cases mem_cons.mp hy with
          | inl hy => rw [hy]; lia
          | inr hy =>
            have := (ascending_cons.mp (ascending_cons.mp hasc).2).1 y hy
            lia
      have hgap : ∀ y ∈ post, e ≤ 8 * y.1 := by
        have hapart := (pairwise_append.mp hspaced.apart).2.1
        exact (pairwise_cons.mp hapart).1
      have hrest := hfit.rest
      rw [hnode, hnat] at hrest
      have hrun := netDefragment_some hfar hfound
      obtain ⟨s', -, hcases⟩ := place_listed hlisted hn hdata hbound hbefore hbehind hgap hrest
      rw [hrun]
      cases hcases with
      | inl hdone => exact ⟨s', _, hdone.1, .inr (.inl hdone.2.1)⟩
      | inr hmore =>
        obtain ⟨hplace, -, hne', hlisted'⟩ := hmore
        refine ⟨s', none, hplace, .inr (.inr ⟨_, hne', hlisted', ?_⟩)⟩
        apply hspaced.fixed hpre hbound hbehind
        intro hlt
        refine ⟨?_, hrest hlt⟩
        rw [endAfter] at hlt ⊢
        split
        · rfl
        · rename_i hmf
          rw [if_neg hmf, IpPacket.start] at hlt
          lia

theorem Reached.sound (h : Reached Tame s) : Sound s := by
  induction h with
  | start h => exact .inl h
  | step _ accepted meets run ih =>
    obtain ⟨s₁, r₁, hrun, hsound⟩ := netDefragment_step ih accepted meets
    rw [hrun] at run
    cases run
    exact hsound

end Lists

/- Over packets that fit, every access of the reassembly is one to a descriptor or to the
payload inside the buffer. -/
theorem netDefragment_safe {s : State} {ip : IpPacket} (h : Reached Tame s) (ha : ip.Accepted)
    (hok : Tame s ip) : ∃ s' r, netDefragment s ip = .ok (s', r) := by
  obtain ⟨s', r, hrun, -⟩ := netDefragment_step h.sound ha hok
  exact ⟨s', r, hrun⟩

def bootState : State where
  hdr := ⟨0, 0, 0, 0, 0, 0, 0, 0, 0, 0⟩
  mem := fun _ => 0
  firstHole := 0
  totalLen := 0
  holes := fun _ => false
  finished := false

def firstFragment : IpPacket where
  hdr := ⟨0x45, 0, 28, 1, 0x2000, 64, 17, 0x46ce, 0x0a000001, 0x0a000002⟩
  data := List.replicate 8 0

theorem netDefragment_safe_first :
    Tame bootState firstFragment ∧ ∃ s' r, netDefragment bootState firstFragment = .ok (s', r) := by
  have hlisted : Listed (begin bootState firstFragment) [(0, 0xffff)] :=
    listed_reset bootState firstFragment.hdr
  have htame : Tame bootState firstFragment := by
    refine .inr ⟨rfl, ?_⟩
    intro c hc
    have hwalk := hlisted.walk_eq (by simp) firstFragment.start
    have hzero : c = 0 := by
      simp only [overlapped, hwalk, Except.map, Except.ok.injEq, Option.filter_eq_some_iff,
        Option.map_eq_some_iff] at hc
      obtain ⟨⟨x, hx, rfl⟩, -⟩ := hc
      have hmem := mem_of_find?_eq_some hx
      rw [mem_singleton.mp hmem]
    have hnode : hole (begin bootState firstFragment).mem 0 = ⟨0xffff, 0, 0⟩ := hlisted.seg.1
    subst hzero
    refine ⟨by decide, ?_, fun _ => by decide⟩
    rw [hnode]
    intro hne
    exact absurd rfl hne
  exact ⟨htame, netDefragment_safe (.start rfl) (by decide +kernel) htame⟩

/- `ip_len` is 10: the fragment has a length of -10 at offset 24. -/
def shortFragment : IpPacket where
  hdr := ⟨0x45, 0, 10, 1, 0x2003, 64, 17, 0x46dd, 0x0a000001, 0x0a000002⟩
  data := List.replicate 8 0

def fault? (r : Except Fault (State × Option ℕ)) : Option Fault :=
  match r with
  | .error f => some f
  | .ok _ => none

/- The first packet that arrives makes `memcpy` copy -10 bytes. -/
theorem netDefragment_negative_copy :
    ¬ ∀ (s : State) (ip : IpPacket), Reached (fun _ _ => True) s → ip.Accepted →
      ∃ s' r, netDefragment s ip = .ok (s', r) := by
  intro hall
  obtain ⟨s', r, hrun⟩ := hall bootState shortFragment (.start rfl) (by decide +kernel)
  have hfault : fault? (netDefragment bootState shortFragment) = some .negativeCopy := by
    decide +kernel
  rw [hrun] at hfault
  cases hfault

end UBoot.Defrag
