import UBoot.Disk.GptRoundTrip
import UBoot.Disk.UuidInverse

/-!
# The layout of a partition table (disk/part_efi.c)

`gpt_fill_pte` places each partition where it asks to start or behind the one before it. Nothing looks at
a size of 0 or at a sum that wraps.
-/

namespace UBoot.Gpt

open List Nat Option

/- The blocks a list of partitions asks for, from the first of each to the one behind its last,
over the integers. -/
def layout (last : ℕ) : ℕ → List Request → List (ℕ × ℕ)
  | _, [] => []
  | offset, p :: ps =>
    (startFrom offset p, if ps = [] ∧ p.size = 0 then last + 1 else startFrom offset p + p.size) ::
      layout last (startFrom offset p + p.size) ps

/- Ranges that are not empty, in order and apart from each other, inside `first` to `last`. -/
structure SoundRanges (first last : ℕ) (rs : List (ℕ × ℕ)) : Prop where
  inside : ∀ r ∈ rs, first ≤ r.1 ∧ r.1 < r.2 ∧ r.2 ≤ last + 1
  ascending : rs.Pairwise fun r s => r.2 ≤ s.1

def GptEntry.range (e : GptEntry) : ℕ × ℕ := (e.startingLba, e.endingLba + 1)

/- Exactly the sound layouts are accepted, and their ranges are written. -/
structure LayoutExact (dev : BlkDesc) (first last : ℕ) (ps : List Request) : Prop where
  accepts : (gptFillPte dev last first ps).isSome = true ↔
    SoundRanges first last (layout last first ps)
  entries : ∀ es, gptFillPte dev last first ps = some es →
    es.map GptEntry.range = layout last first ps

/- Numbers of `lbaint_t`, and a UUID. -/
structure Request.Sized (dev : BlkDesc) (p : Request) : Prop where
  start : p.start < 2 ^ dev.lbaBits
  size : p.size < 2 ^ dev.lbaBits
  uuid : uuidStrValid p.uuid = true

/- The sum of start and size stays below the last usable block, or is 2^w, behind the last
number of `lbaint_t`. -/
def EndsBelow (dev : BlkDesc) (last : ℕ) : ℕ → List Request → Prop
  | _, [] => True
  | offset, p :: ps =>
    (startFrom offset p + p.size < last ∨
      startFrom offset p + p.size = 2 ^ dev.lbaBits ∧ last + 1 = 2 ^ dev.lbaBits) ∧
    EndsBelow dev last (startFrom offset p + p.size) ps

/- No partition passes over `offset` backwards, and each end, modulo 2^w, is below the last
usable block. -/
def Passes (dev : BlkDesc) (last : ℕ) : ℕ → List Request → Prop
  | _, [] => True
  | offset, p :: ps =>
    (p.start ≠ 0 → offset ≤ p.start) ∧ endFrom dev offset p < last ∧
      Passes dev last (endFrom dev offset p) ps

/- Only the last partition may have no size, and the sum of start and size stays below 2^w; for
the last one it may be 2^w, if that is behind the last usable block. -/
def Regular (dev : BlkDesc) (last : ℕ) : ℕ → List Request → Prop
  | _, [] => True
  | offset, p :: ps =>
    (ps ≠ [] → p.size ≠ 0) ∧
    (startFrom offset p + p.size < 2 ^ dev.lbaBits ∨
      ps = [] ∧ startFrom offset p + p.size = 2 ^ dev.lbaBits ∧ last + 1 = 2 ^ dev.lbaBits) ∧
    Regular dev last (startFrom offset p + p.size) ps

theorem sound_cons {first last : ℕ} {r : ℕ × ℕ} {rs : List (ℕ × ℕ)} :
    SoundRanges first last (r :: rs) ↔
      first ≤ r.1 ∧ r.1 < r.2 ∧ r.2 ≤ last + 1 ∧ SoundRanges r.2 last rs := by
  constructor
  · intro h
    obtain ⟨hhead, htail⟩ := pairwise_cons.mp h.ascending
    obtain ⟨h₁, h₂, h₃⟩ := h.inside r mem_cons_self
    exact ⟨h₁, h₂, h₃, fun s hs => ⟨hhead s hs, (h.inside s (mem_cons_of_mem r hs)).2⟩, htail⟩
  · intro h
    obtain ⟨h₁, h₂, h₃, hrs⟩ := h
    constructor
    · intro s hs
      cases mem_cons.mp hs with
      | inl hs =>
        rw [hs]
        exact ⟨h₁, h₂, h₃⟩
      | inr hs =>
        obtain ⟨i₁, i₂, i₃⟩ := hrs.inside s hs
        exact ⟨by lia, i₂, i₃⟩
    · exact pairwise_cons.mpr ⟨fun s hs => (hrs.inside s hs).1, hrs.ascending⟩

section Layout

variable {dev : BlkDesc} {last : ℕ}

variable {offset : ℕ} {p : Request}

theorem startFrom_sized (hp : p.Sized dev)
    (hoff : offset < 2 ^ dev.lbaBits) : startFrom offset p < 2 ^ dev.lbaBits := by
  unfold startFrom
  split
  · exact hp.start
  · exact hoff

theorem le_startFrom : (p.start ≠ 0 → offset ≤ p.start) ↔ offset ≤ startFrom offset p := by
  unfold startFrom
  split
  · next h => exact ⟨fun hle => hle h, fun hle _ => hle⟩
  · next h => exact ⟨fun _ => Nat.le_refl offset, fun _ hne => absurd hne h⟩

variable {ps : List Request}

theorem gptFillPte_passes (hlast : last < 2 ^ dev.lbaBits) (offset : ℕ)
    (hps : ∀ p ∈ ps, p.Sized dev) :
    (gptFillPte dev last offset ps).isSome = true ↔ Passes dev last offset ps := by
  induction ps generalizing offset with
  | nil => exact ⟨fun _ => trivial, fun _ => rfl⟩
  | cons p ps ih =>
    have hrest := ih (endFrom dev offset p) (fun q hq => hps q (mem_cons_of_mem p hq))
    obtain ⟨bin, hbin, -, -⟩ := str_of_valid (hps p mem_cons_self).uuid .std
    rw [gptFillPte, Passes, mod_eq_of_lt hlast]
    split
    · next hback => simp only [isSome_none, Bool.false_eq_true, false_iff]; lia
    · next hfwd =>
      split
      · next hover => simp only [isSome_none, Bool.false_eq_true, false_iff]; lia
      · next hroom =>
        rw [hbin, ← hrest]
        cases gptFillPte dev last (endFrom dev offset p) ps with
        | none => simp
        | some es => simp only [isSome_some, true_iff, and_true]; lia

theorem sound_of_passes (hoff : offset < 2 ^ dev.lbaBits) (hps : ∀ p ∈ ps, p.Sized dev)
    (hpass : Passes dev last offset ps) (hreg : Regular dev last offset ps) :
    SoundRanges offset last (layout last offset ps) := by
  induction ps generalizing offset with
  | nil => exact ⟨fun r hr => absurd hr not_mem_nil, List.Pairwise.nil⟩
  | cons p ps ih =>
    have hs := startFrom_sized (hps p mem_cons_self) hoff
    obtain ⟨hstart, hend, hpass⟩ := hpass
    obtain ⟨hsize, hsum, hreg⟩ := hreg
    rw [le_startFrom] at hstart
    rw [layout, sound_cons]
    by_cases hnil : ps = []
    · rw [hnil, layout]
      have hempty : ∀ n, SoundRanges n last [] :=
        fun n => ⟨fun r hr => absurd hr not_mem_nil, List.Pairwise.nil⟩
      rw [endFrom] at hend
      by_cases hz : p.size = 0
      · rw [if_pos ⟨rfl, hz⟩]
        rw [hz, Nat.add_zero, mod_eq_of_lt hs] at hend
        exact ⟨hstart, lt_succ_of_lt hend, Nat.le_refl _, hempty _⟩
      · rw [if_neg (fun hboth => hz hboth.2)]
        refine ⟨hstart, by simp only; lia, ?_, hempty _⟩
        rcases hsum with hsum | ⟨-, hsum, htop⟩
        · rw [mod_eq_of_lt hsum] at hend
          simp only
          lia
        · simp only
          lia
    · rcases hsum with hsum | ⟨hsum, -⟩
      · have hz := hsize hnil
        rw [endFrom, mod_eq_of_lt hsum] at hend hpass
        rw [if_neg (fun hboth => hnil hboth.1)]
        have htail := ih hsum (fun q hq => hps q (mem_cons_of_mem p hq)) hpass hreg
        exact ⟨hstart, by simp only; lia, by simp only; lia, htail⟩
      · exact absurd hsum hnil

theorem passes_of_sound (hlast : last < 2 ^ dev.lbaBits) (hoff : offset < 2 ^ dev.lbaBits)
    (hps : ∀ p ∈ ps, p.Sized dev) (hsound : SoundRanges offset last (layout last offset ps))
    (hbelow : EndsBelow dev last offset ps) : Passes dev last offset ps := by
  induction ps generalizing offset with
  | nil => trivial
  | cons p ps ih =>
    have hp := hps p mem_cons_self
    have hs := startFrom_sized hp hoff
    have hsize := hp.size
    obtain ⟨hsum, hbelow⟩ := hbelow
    rw [layout, sound_cons] at hsound
    obtain ⟨hstart, -, -, htail⟩ := hsound
    rw [Passes, le_startFrom, endFrom]
    rcases hsum with hsum | ⟨hsum, htop⟩
    · rw [mod_eq_of_lt (Nat.lt_trans hsum hlast)]
      refine ⟨hstart, hsum, ?_⟩
      by_cases hnil : ps = []
      · rw [hnil]
        trivial
      · rw [if_neg (fun hboth => hnil hboth.1)] at htail
        exact ih (Nat.lt_trans hsum hlast) (fun q hq => hps q (mem_cons_of_mem p hq)) htail
          hbelow
    · rw [hsum, mod_self]
      refine ⟨hstart, by lia, ?_⟩
      cases ps with
      | nil => trivial
      | cons q qs =>
        -- a partition behind the last number of the type is not inside
        rw [if_neg (fun hboth => cons_ne_nil q qs hboth.1), layout, sound_cons] at htail
        obtain ⟨h₁, h₂, h₃, -⟩ := htail
        simp only at h₁ h₂ h₃
        lia

theorem regular_of_sound (hlast : last < 2 ^ dev.lbaBits)
    (hsound : SoundRanges offset last (layout last offset ps)) : Regular dev last offset ps := by
  induction ps generalizing offset with
  | nil => trivial
  | cons p ps ih =>
    rw [layout, sound_cons] at hsound
    obtain ⟨hstart, hne, hin, htail⟩ := hsound
    simp only at hstart hne hin htail
    by_cases hnil : ps = []
    · refine ⟨fun h => absurd hnil h, ?_, by rw [hnil]; trivial⟩
      by_cases hz : p.size = 0
      · rw [if_pos ⟨hnil, hz⟩] at hne
        lia
      · rw [if_neg (fun hboth => hz hboth.2)] at hin
        rcases Nat.lt_or_ge (startFrom offset p + p.size) (2 ^ dev.lbaBits) with hlt | hge
        · exact .inl hlt
        · exact .inr ⟨hnil, by lia, by lia⟩
    · rw [if_neg (fun hboth => hnil hboth.1)] at hne hin htail
      refine ⟨fun _ => by lia, .inl ?_, ih htail⟩
      obtain ⟨q, qs, rfl⟩ := exists_cons_of_ne_nil hnil
      rw [layout, sound_cons] at htail
      obtain ⟨h₁, h₂, h₃, -⟩ := htail
      simp only at h₁ h₂ h₃
      lia

theorem stored_end {n e : ℕ} (h : 0 < e) (hle : e ≤ n) : (e % n + n - 1) % n + 1 = e := by
  rcases Nat.lt_or_ge e n with hlt | hge
  · rw [mod_eq_of_lt hlt, show e + n - 1 = e - 1 + n by lia, add_mod_right,
      mod_eq_of_lt (by lia)]
    lia
  · rw [show e = n by lia, mod_self, mod_eq_of_lt (by lia)]
    lia

theorem written_of_sound {es : List GptEntry}
    (hlast : last < 2 ^ dev.lbaBits) (hsound : SoundRanges offset last (layout last offset ps))
    (hfill : gptFillPte dev last offset ps = some es) :
    EndsBelow dev last offset ps ∧ es.map GptEntry.range = layout last offset ps := by
  induction ps generalizing offset es with
  | nil =>
    obtain rfl := some.inj hfill
    exact ⟨trivial, rfl⟩
  | cons p ps ih =>
    obtain ⟨e, rest, rfl, hrest, hfor⟩ := gptFillPte_cons hfill
    have hroom := hfor.room
    have hlastLba : e.endingLba = if ps = [] ∧ p.size = 0 then last
        else (endFrom dev offset p + 2 ^ dev.lbaBits - 1) % 2 ^ dev.lbaBits := by
      split
      · next hext => exact hfor.toLast hext
      · next hext => exact hfor.ending hext
    rw [layout, sound_cons] at hsound
    obtain ⟨hstart, hne, hin, htail⟩ := hsound
    simp only at hstart hne hin htail
    rw [mod_eq_of_lt hlast] at hroom
    rw [map_cons, GptEntry.range, hfor.start, hlastLba, layout]
    by_cases hnil : ps = []
    · subst hnil
      obtain rfl := some.inj hrest
      by_cases hz : p.size = 0
      · rw [if_pos ⟨rfl, hz⟩] at hne ⊢
        rw [endFrom, hz, Nat.add_zero, mod_eq_of_lt (by lia)] at hroom
        rw [if_pos ⟨rfl, hz⟩]
        exact ⟨⟨.inl (by lia), trivial⟩, rfl⟩
      · rw [if_neg (fun hboth => hz hboth.2)] at hne hin ⊢
        rw [if_neg (fun hboth => hz hboth.2), endFrom, stored_end (by lia) (by lia)]
        refine ⟨⟨?_, trivial⟩, rfl⟩
        rw [endFrom] at hroom
        rcases Nat.lt_or_ge (startFrom offset p + p.size) (2 ^ dev.lbaBits) with hlt | hge
        · rw [mod_eq_of_lt hlt] at hroom
          exact .inl hroom
        · exact .inr ⟨by lia, by lia⟩
    · rw [if_neg (fun hboth => hnil hboth.1)] at hne hin htail ⊢
      have hlt : startFrom offset p + p.size < 2 ^ dev.lbaBits := by
        obtain ⟨q, qs, rfl⟩ := exists_cons_of_ne_nil hnil
        rw [layout, sound_cons] at htail
        obtain ⟨h₁, h₂, h₃, -⟩ := htail
        simp only at h₁ h₂ h₃
        lia
      rw [if_neg (fun hboth => hnil hboth.1), endFrom, stored_end (by lia) (by lia)]
      rw [endFrom, mod_eq_of_lt hlt] at hroom hrest
      obtain ⟨hbelow, hmap⟩ := ih htail hrest
      exact ⟨⟨.inl hroom, hbelow⟩, by rw [hmap]⟩

/- The sound layouts are the ones that are accepted, exactly if none of them ends near the last
usable block and no irregular list passes both tests. -/
theorem gpt_layout_exact_iff {first : ℕ} {ps : List Request} (hfirst : first < 2 ^ dev.lbaBits)
    (hlast : last < 2 ^ dev.lbaBits) (hps : ∀ p ∈ ps, p.Sized dev) :
    LayoutExact dev first last ps ↔
      (SoundRanges first last (layout last first ps) → EndsBelow dev last first ps) ∧
      (Passes dev last first ps → Regular dev last first ps) := by
  have hpasses := gptFillPte_passes hlast first hps
  constructor
  · intro h
    constructor
    · intro hsound
      obtain ⟨es, hes⟩ := isSome_iff_exists.mp (h.accepts.mpr hsound)
      exact (written_of_sound hlast hsound hes).1
    · intro hpass
      exact regular_of_sound hlast (h.accepts.mp (hpasses.mpr hpass))
  · intro h
    have hsound : Passes dev last first ps → SoundRanges first last (layout last first ps) :=
      fun hpass => sound_of_passes hfirst hps hpass (h.2 hpass)
    refine ⟨⟨fun hsome => hsound (hpasses.mp hsome), ?_⟩, ?_⟩
    · intro hs
      exact hpasses.mpr (passes_of_sound hlast hfirst hps hs (h.1 hs))
    · intro es hes
      have hsome : (gptFillPte dev last first ps).isSome = true := by rw [hes]; rfl
      exact (written_of_sound hlast (hsound (hpasses.mp hsome)) hes).2

end Layout

def requestAt (start size : ℕ) : Request :=
  { smallRequest evenUuid with start := start, size := size }

theorem requestAt_sized {start size : ℕ} (hs : start < 2 ^ 32) (hn : size < 2 ^ 32) :
    (requestAt start size).Sized smallCard :=
  ⟨hs, hn, show uuidStrValid evenUuid = true by decide⟩

theorem two_small_partitions_exact : LayoutExact smallCard 34 66 [requestAt 0 10, requestAt 50 0] := by
  refine (gpt_layout_exact_iff (by decide) (by decide) ?_).mpr ⟨fun _ => ?_, fun _ => ?_⟩
  · intro p hp
    simp only [mem_cons, not_mem_nil, or_false] at hp
    rcases hp with rfl | rfl
    · exact requestAt_sized (by decide) (by decide)
    · exact requestAt_sized (by decide) (by decide)
  · simp [EndsBelow, requestAt, startFrom]
  · simp [Regular, requestAt, startFrom, smallCard]

/- One partition of all the usable blocks is refused; an empty partition before another one is
accepted, and so is one whose end wraps. -/
theorem layout_not_exact :
    ¬ LayoutExact smallCard 34 66 [requestAt 0 33] ∧
    ¬ LayoutExact smallCard 34 66 [requestAt 0 0, requestAt 0 10] ∧
    ¬ LayoutExact smallCard 34 66 [requestAt 40 (2 ^ 32 - 1)] := by
  refine ⟨?_, ?_, ?_⟩
  · intro h
    have hsound : SoundRanges 34 66 (layout 66 34 [requestAt 0 33]) :=
      ⟨by decide, pairwise_singleton _ _⟩
    have hnone : (gptFillPte smallCard 66 34 [requestAt 0 33]).isSome = false := by
      decide +kernel
    rw [h.accepts.mpr hsound] at hnone
    cases hnone
  · intro h
    have hsome : (gptFillPte smallCard 66 34 [requestAt 0 0, requestAt 0 10]).isSome = true := by
      decide +kernel
    exact absurd ((h.accepts.mp hsome).inside) (by decide)
  · intro h
    have hsome : (gptFillPte smallCard 66 34 [requestAt 40 (2 ^ 32 - 1)]).isSome = true := by
      decide +kernel
    exact absurd ((h.accepts.mp hsome).inside) (by decide)

end UBoot.Gpt
