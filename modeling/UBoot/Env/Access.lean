import UBoot.Env.Flags
import UBoot.Env.ImageText
import UBoot.Env.Outcome

/-!
# Access flags over runs

Calls without `H_FORCE` that leave `.flags` alone respect the flags of every variable, as long as
the table loses no entries, no other variable is bound to `on_flags`, and the default values fit
into `gd->env_buf`.
-/

namespace UBoot.Env

open List Option

section Default

variable {Other Board : Type} (cfg : EnvConfig Other Board)

def defaultValue (name : Str) : Option Str :=
  match scan cfg.defaults cfg.configEnvSize name (cfg.configEnvSize + 1) 0 with
  | some (some found) => some (cstr cfg.defaults (cfg.configEnvSize + envBufSize) found.val)
  | _ => none

/- `gd->env_buf` does not cut the value off. -/
def DefaultFits (name : Str) : Prop := ∀ v, defaultValue cfg name = some v → v.length < envBufSize

theorem copyOut_cstr {data : ℕ → UInt8} (fuel len p : ℕ) (hf : (cstr data fuel p).length < fuel)
    (hlen : (cstr data fuel p).length < len) : copyOut data len p = (cstr data fuel p, true) := by
  induction fuel generalizing len p with
  | zero => simp [cstr] at hf
  | succ fuel ih =>
    obtain _ | len := len
    · lia
    rw [cstr] at hf hlen ⊢
    rw [copyOut]
    by_cases h0 : data p = nul
    · rw [if_pos h0, if_pos h0]
    · rw [if_neg h0] at hf hlen ⊢
      rw [length_cons] at hf hlen
      rw [if_neg h0, ih len (p + 1) (by lia) (by lia)]

theorem getenvDefault_eq {name : Str} (h : DefaultFits cfg name) :
    (getenvDefault cfg.defaults cfg.configEnvSize name).getD [] = (defaultValue cfg name).getD [] := by
  unfold getenvDefault getenvF
  cases hs : scan cfg.defaults cfg.configEnvSize name (cfg.configEnvSize + 1) 0 with
  | none => simp [defaultValue, hs]
  | some found =>
    cases found with
    | none => simp [defaultValue, hs]
    | some found =>
      have hv : defaultValue cfg name =
          some (cstr cfg.defaults (cfg.configEnvSize + envBufSize) found.val) := by
        simp [defaultValue, hs]
      have hlen := h _ hv
      rw [hv]
      simp only [copyOut_cstr _ envBufSize found.val (by lia) hlen, if_true, getD_some]
      split_ifs with h0
      · rfl
      · simp only [getD_none]
        exact (eq_nil_of_length_eq_zero (by lia)).symm

end Default

def HasAccess (flags : ℕ) (access : Varaccess) : Prop := flags &&& 0x78 = access.mask

instance (flags : ℕ) (access : Varaccess) : Decidable (HasAccess flags access) :=
  inferInstanceAs (Decidable (_ = _))

theorem hasAccess_bit {flags : ℕ} {access : Varaccess} (h : HasAccess flags access) {bit : ℕ}
    (hbit : 0x78 &&& bit = bit) (hmask : access.mask &&& bit ≠ 0) : flags &&& bit ≠ 0 := by
  intro h0
  apply hmask
  rw [← show flags &&& 0x78 = access.mask from h, Nat.and_assoc, hbit, h0]

section Validate

variable {Callback : Type} {defaults : ℕ → UInt8} {configEnvSize : ℕ} {item : Slot Callback}
  {newval : Option Str} {flag : ℕ}

theorem validate_type {op : EnvOp} (hop : op ≠ .delete)
    (h : envFlagsValidate defaults configEnvSize item newval op flag = false) :
    validateType (newval.getD []) (item.attr.flags &&& 7) = true := by
  unfold envFlagsValidate at h
  by_contra hbad
  rw [if_pos ⟨hop, Bool.eq_false_iff.mpr hbad⟩] at h
  simp at h

theorem validate_delete (hf : force flag = false)
    (h : envFlagsValidate defaults configEnvSize item newval .delete flag = false) :
    item.attr.flags &&& preventDelete = 0 := by
  unfold envFlagsValidate at h
  rw [if_neg (by simp), hf] at h
  simpa using h

theorem validate_overwrite (hf : force flag = false)
    (h : envFlagsValidate defaults configEnvSize item newval .overwrite flag = false) :
    item.attr.flags &&& preventOverwr = 0 ∧ (item.attr.flags &&& preventNondefOverwr ≠ 0 →
      item.data.getD [] = (getenvDefault defaults configEnvSize (item.key.getD [])).getD []) := by
  have htype := validate_type (by simp) h
  unfold envFlagsValidate at h
  rw [if_neg (by simp [htype]), hf] at h
  simp only [Bool.false_eq_true, if_false] at h
  split_ifs at h with h1 h2
  · exact ⟨not_not.mp h1, fun _ => by simpa using h⟩
  · exact ⟨not_not.mp h1, fun hne => absurd hne h2⟩

end Validate

theorem envInit_put {Other Board : Type} (cfg : EnvConfig Other Board)
    (htab : Htab (EnvCallback Other)) (state : EnvState Board) (key data : Str) (idx : ℕ)
    (attr : Attr (EnvCallback Other)) :
    (envInit cfg state (putEntry htab key data idx attr) idx).2 =
      ⟨envCallbackInit cfg ((callbackListOf cfg state (putEntry htab key data idx attr)).1.text
          (callbackListOf cfg state (putEntry htab key data idx attr)).2) key attr.callback,
        envFlagsInit cfg ((flagsListOf cfg state (putEntry htab key data idx attr)).1.text
          (flagsListOf cfg state (putEntry htab key data idx attr)).2) key attr.flags⟩ := by
  simp only [envInit, putEntry_table, if_true, getD_some]

def Locked (flags : ℕ) : Prop := HasAccess flags .readonly ∨ HasAccess flags .writeonce

/-- What the flags of the entry at `i` demand of a step: a read-only or write-once variable
keeps its value, a change-default variable may lose its default value only, and a value
that is stored has the type of its variable. -/
structure SlotRespects {Other Board : Type} (cfg : EnvConfig Other Board)
    (htab htab' : Htab (EnvCallback Other)) (i : ℕ) : Prop where
  kept : ∀ key, Holds htab i key → Locked (htab.table i).attr.flags →
    Holds htab' i key ∧ (htab'.table i).data = (htab.table i).data ∧
      (htab'.table i).attr.flags = (htab.table i).attr.flags
  default : ∀ key, Holds htab i key → HasAccess (htab.table i).attr.flags .changedefault →
    Holds htab' i key ∧ (htab'.table i).attr.flags = (htab.table i).attr.flags ∧
      ((htab'.table i).data = (htab.table i).data ∨
        (htab.table i).data = some ((defaultValue cfg key).getD []))
  typed : ∀ key v, Holds htab' i key → (htab'.table i).data = some v →
    (Holds htab i key ∧ (htab.table i).data = some v ∧
      (htab'.table i).attr.flags = (htab.table i).attr.flags) ∨
    validateType v ((htab'.table i).attr.flags &&& 7) = true

section Step

variable {Other Board : Type} {cfg : EnvConfig Other Board} {htab htab' : Htab (EnvCallback Other)}
  {state state' : EnvState Board}

structure SameSlot {Callback : Type} (a b : Slot Callback) : Prop where
  used : b.used = a.used
  key : b.key = a.key
  data : b.data = a.data
  flags : b.attr.flags = a.attr.flags

variable {i : ℕ}

theorem sameSlot_holds (hsize : htab'.size = htab.size)
    (h : SameSlot (htab.table i) (htab'.table i)) (key : Str) : Holds htab' i key ↔ Holds htab i key := by
  unfold Holds
  rw [hsize, h.used, h.key]

theorem sameSlot_respects (hsize : htab'.size = htab.size)
    (h : SameSlot (htab.table i) (htab'.table i)) : SlotRespects cfg htab htab' i where
  kept key hi _ := ⟨(sameSlot_holds hsize h key).mpr hi, h.data, h.flags⟩
  default key hi _ := ⟨(sameSlot_holds hsize h key).mpr hi, h.flags, .inl h.data⟩
  typed key _ hi hv := .inl ⟨(sameSlot_holds hsize h key).mp hi, h.data ▸ hv, h.flags⟩

theorem empty_respects (h : ∀ key, ¬Holds htab i key) (h' : ∀ key, ¬Holds htab' i key) :
    SlotRespects cfg htab htab' i where
  kept key hi _ := absurd hi (h key)
  default key hi _ := absurd hi (h key)
  typed key _ hi _ := absurd hi (h' key)

variable {key : Str}

theorem runCallback_flags {flag : ℕ} {newval : Option Str} {op : EnvOp} {rej : Bool}
    (hcb : (htab.table i).attr.callback ≠ some .flags)
    (hrun : runCallback (envHooks cfg) htab state i key newval op flag = (rej, htab', state')) :
    htab'.size = htab.size ∧ ∀ j, SameSlot (htab.table j) (htab'.table j) := by
  unfold runCallback at hrun
  cases hc : (htab.table i).attr.callback with
  | none =>
    rw [hc] at hrun
    obtain ⟨-, rfl, -⟩ := hrun
    exact ⟨rfl, fun j => ⟨rfl, rfl, rfl, rfl⟩⟩
  | some c =>
    rw [hc] at hrun hcb
    obtain ⟨-, rfl, -⟩ := hrun
    refine ⟨rfl, fun j => ⟨rfl, rfl, rfl, ?_⟩⟩
    cases c with
    | flags => exact absurd rfl hcb
    | callbacks => rfl
    | other c => rfl

/- The entry of a key is not bound to `on_flags`. -/
def Unbound (htab : Htab (EnvCallback Other)) (key : Str) : Prop :=
  ∀ i, Holds htab i key → (htab.table i).attr.callback ≠ some .flags

/- Neither is a new entry, if the key has none, and its attributes fit their buffers. -/
def NewUnbound (cfg : EnvConfig Other Board) (htab : Htab (EnvCallback Other))
    (state : EnvState Board) (key data : Str) : Prop :=
  (∀ i, ¬Holds htab i key) → ∀ idx, Fresh htab key idx →
    (envInit cfg state (putEntry htab key data idx (htab.table idx).attr) idx).2.callback ≠
      some .flags ∧
    AttributesFit cfg state (putEntry htab key data idx (htab.table idx).attr) key

/- A change-default variable does not have a default value that was cut off. -/
def DefaultSeen (cfg : EnvConfig Other Board) (htab : Htab (EnvCallback Other)) (key : Str) : Prop :=
  ∀ i, Holds htab i key → HasAccess (htab.table i).attr.flags .changedefault → DefaultFits cfg key ∨
    (htab.table i).data ≠ some ((getenvDefault cfg.defaults cfg.configEnvSize key).getD [])

/- Calls without `H_FORCE` that leave `.flags` alone. -/
def Unforced : Call → Prop
  | .enter key _ flag => key ≠ envFlagsVar ∧ force flag = false
  | .delete key flag => key ≠ envFlagsVar ∧ force flag = false
  | .find _ _ => True

instance : DecidablePred Unforced
  | .enter key _ flag => inferInstanceAs (Decidable (key ≠ envFlagsVar ∧ force flag = false))
  | .delete key flag => inferInstanceAs (Decidable (key ≠ envFlagsVar ∧ force flag = false))
  | .find _ _ => inferInstanceAs (Decidable True)

/-- Such calls, when nothing that the flags protect can get lost or be let through. -/
def GuardedCall (cfg : EnvConfig Other Board) (htab : Htab (EnvCallback Other))
    (state : EnvState Board) (c : Call) : Prop :=
  Unforced c ∧ CallOk htab c ∧
  match c with
  | .enter key data _ => Unbound htab key ∧ NewUnbound cfg htab state key data ∧
    DefaultSeen cfg htab key
  | .delete key _ => Unbound htab key
  | .find _ _ => True

theorem deleteSlot_respects {j : ℕ} (hne : j ≠ i) (hsize : htab'.size = htab.size)
    (h : SameSlot (htab.table j) (htab'.table j)) : SlotRespects cfg htab (hdeleteSlot htab' i) j := by
  have hslot : (hdeleteSlot htab' i).table j = htab'.table j := by rw [hdeleteSlot_table, if_neg hne]
  exact sameSlot_respects hsize (hslot ▸ h)

theorem fresh_empty (h : Fresh htab key i) (k : Str) : ¬Holds htab i k := by
  intro hi
  have h1 := hi.2.1
  have h2 := h.2.1
  lia

theorem overwritten_respects {flag : ℕ} {data : Str} (hi : Holds htab i key)
    (hf : force flag = false) (hdef : DefaultSeen cfg htab key) (hw : WellFormed htab)
    (hok : envFlagsValidate cfg.defaults cfg.configEnvSize (htab.table i) (some data) .overwrite flag =
      false)
    (hsize : htab'.size = htab.size) (hsame : SameSlot (htab.table i) (htab'.table i)) :
    SlotRespects cfg htab (htab'.set i { htab'.table i with data := some data }) i := by
  obtain ⟨hover, hnondef⟩ := validate_overwrite hf hok
  have hkey : ∀ k, Holds htab i k → k = key := fun k hk =>
    some.inj (hk.2.2.symm.trans hi.2.2)
  have hslot : (htab'.set i { htab'.table i with data := some data }).table i =
      { htab'.table i with data := some data } := by rw [set_table, if_pos rfl]
  have hholds : ∀ k, Holds (htab'.set i { htab'.table i with data := some data }) i k ↔
      Holds htab i k := fun k => by
    rw [sameKeys_holds (sameKeys_setData htab' i (some data)), sameSlot_holds hsize hsame]
  refine ⟨fun k hk hlock => ?_, fun k hk hacc => ?_, fun k v _ hv => .inr ?_⟩
  · -- a locked variable is not overwritten
    have hbit : (htab.table i).attr.flags &&& preventOverwr ≠ 0 := by
      rcases hlock with h | h
      · exact hasAccess_bit h (by decide) (by decide)
      · exact hasAccess_bit h (by decide) (by decide)
    exact absurd hover hbit
  · have hbit := hasAccess_bit hacc (show 0x78 &&& preventNondefOverwr = _ by decide) (by decide)
    obtain ⟨k', v, -, hv, -⟩ := hw.used i hi.1.1 hi.1.2 hi.2.1
    have hval := hnondef hbit
    rw [hi.2.2, getD_some, hv, getD_some] at hval
    have hfits := (hdef i hi hacc).resolve_right fun hne => hne (by rw [hv, hval])
    refine ⟨(hholds k).mpr hk, by rw [hslot]; exact hsame.flags, .inr ?_⟩
    rw [hv, hkey k hk, hval, getenvDefault_eq cfg hfits]
  · rw [hslot] at hv ⊢
    have htype := validate_type (by simp) hok
    rw [show v = data from (some.inj hv).symm]
    have hflags := hsame.flags
    simp only at hflags ⊢
    rw [hflags]
    exact htype

theorem putEntry_sameSlot {idx j : ℕ} (hne : j ≠ idx) (key data : Str)
    (attr : Attr (EnvCallback Other)) :
    SameSlot (htab.table j) ((putEntry htab key data idx attr).table j) := by
  rw [putEntry_table, if_neg hne]
  exact ⟨rfl, rfl, rfl, rfl⟩

theorem SameSlot.trans {Callback : Type} {a b c : Slot Callback} (h : SameSlot a b)
    (h' : SameSlot b c) : SameSlot a c :=
  ⟨h'.used.trans h.used, h'.key.trans h.key, h'.data.trans h.data, h'.flags.trans h.flags⟩

theorem putEntry_callback {state' : EnvState Board} {idx : ℕ} {data : Str}
    {attr : Attr (EnvCallback Other)}
    (hinit : envInit cfg state (putEntry htab key data idx (htab.table idx).attr) idx = (state', attr))
    (hcb : (envInit cfg state (putEntry htab key data idx (htab.table idx).attr) idx).2.callback ≠
      some .flags) :
    ((putEntry htab key data idx attr).table idx).attr.callback ≠ some .flags := by
  rw [hinit] at hcb
  rw [putEntry_table, if_pos rfl]
  exact hcb

/-- One guarded call respects the flags of every entry. -/
theorem call_respects (hw : WellFormed htab) {c : Call}
    {r : Reply (EnvCallback Other) (EnvState Board)} (hg : GuardedCall cfg htab state c)
    (hr : exec (envHooks cfg) htab state c = some r) (j : ℕ) : SlotRespects cfg htab r.tab j := by
  obtain ⟨hfree, hcall, hguard⟩ := hg
  cases exec_outcome hw hcall hr with
  | same ht hs =>
    rw [ht]
    exact sameSlot_respects rfl ⟨rfl, rfl, rfl, rfl⟩
  | @vetoed _ _ i flag key newval op hc hi hrun =>
    have hcb : (htab.table i).attr.callback ≠ some .flags := by
      cases c with
      | find key' flag' => simp [Call.change] at hc
      | enter key' data flag' =>
        obtain ⟨rfl, -⟩ := Prod.mk.inj (some.inj hc)
        exact hguard.1 i hi
      | delete key' flag' =>
        obtain ⟨rfl, -⟩ := Prod.mk.inj (some.inj hc)
        exact hguard i hi
    obtain ⟨hsize, hsame⟩ := runCallback_flags hcb hrun
    exact sameSlot_respects hsize (hsame j)
  | @overwritten _ i flag key data htab' hi hok hrun ht =>
    obtain ⟨hunbound, -, hdef⟩ := hguard
    obtain ⟨hsize, hsame⟩ := runCallback_flags (hunbound i hi) hrun
    rw [ht]
    by_cases hj : j = i
    · subst hj
      exact overwritten_respects hi hfree.2 hdef hw hok hsize (hsame j)
    · have hslot : (htab'.set i { htab'.table i with data := some data }).table j = htab'.table j := by
        rw [set_table, if_neg hj]
      exact sameSlot_respects hsize (hslot ▸ hsame j)
  | @deleted _ i flag key htab' hi hok hrun ht =>
    obtain ⟨hsize, hsame⟩ := runCallback_flags (hguard i hi) hrun
    rw [ht]
    by_cases hj : j = i
    · -- none of these variables can be deleted
      subst hj
      have hok' : envFlagsValidate cfg.defaults cfg.configEnvSize (htab.table j) none .delete flag =
          false := hok
      have hdel := validate_delete hfree.2 hok'
      refine ⟨fun k _ hlock => ?_, fun k _ hacc => ?_, fun k v hk => ?_⟩
      · rcases hlock with h | h
        · exact absurd hdel (hasAccess_bit h (by decide) (by decide))
        · exact absurd hdel (hasAccess_bit h (by decide) (by decide))
      · exact absurd hdel (hasAccess_bit hacc (by decide) (by decide))
      · exact absurd rfl ((hdeleteSlot_holds _ _ _ _).mp hk).1
    · exact deleteSlot_respects hj hsize (hsame j)
  | @created _ idx flag key data attr state' habs hfresh hinit hok hrun =>
    obtain ⟨-, hunbound, -⟩ := hguard
    have hcb := putEntry_callback hinit (hunbound habs idx hfresh).1
    obtain ⟨hsize, hsame⟩ := runCallback_flags hcb hrun
    by_cases hj : j = idx
    · subst hj
      refine ⟨fun k hk _ => absurd hk (fresh_empty hfresh k), fun k hk _ =>
        absurd hk (fresh_empty hfresh k), fun k v _ hv => .inr ?_⟩
      have hok' : envFlagsValidate cfg.defaults cfg.configEnvSize
          ((putEntry htab key data j attr).table j) (some data) .create flag = false := hok
      have hs := hsame j
      rw [hs.data, putEntry_table, if_pos rfl] at hv
      rw [hs.flags, show v = data from (some.inj hv).symm]
      exact validate_type (by simp) hok'
    · exact sameSlot_respects hsize ((putEntry_sameSlot hj key data attr).trans (hsame j))
  | @refused _ idx flag key data attr habs hfresh hinit ht =>
    rw [ht]
    by_cases hj : j = idx
    · subst hj
      exact empty_respects (fresh_empty hfresh) fun k hk => ((hdeleteSlot_holds _ _ _ _).mp hk).1 rfl
    · exact deleteSlot_respects hj rfl (putEntry_sameSlot hj key data attr)
  | @reverted _ idx flag key data attr state' htab' habs hfresh hinit hrun ht =>
    obtain ⟨-, hunbound, -⟩ := hguard
    have hcb := putEntry_callback hinit (hunbound habs idx hfresh).1
    obtain ⟨hsize, hsame⟩ := runCallback_flags hcb hrun
    rw [ht]
    by_cases hj : j = idx
    · subst hj
      exact empty_respects (fresh_empty hfresh) fun k hk => ((hdeleteSlot_holds _ _ _ _).mp hk).1 rfl
    · exact deleteSlot_respects hj hsize ((putEntry_sameSlot hj key data attr).trans (hsame j))

end Step

section Runs

variable {Other Board : Type} {cfg : EnvConfig Other Board}

/-- Tables and states reached from the first ones by calls that meet a condition. Between
the calls everything but the table may change: the buffer, the drivers, what a list that
dangles points to. -/
inductive EnvRun (cfg : EnvConfig Other Board)
    (ok : Htab (EnvCallback Other) → EnvState Board → Call → Prop) (htab₀ : Htab (EnvCallback Other))
    (state₀ : EnvState Board) : Htab (EnvCallback Other) → EnvState Board → Prop where
  | start : EnvRun cfg ok htab₀ state₀ htab₀ state₀
  | other {htab : Htab (EnvCallback Other)} {state : EnvState Board}
      (h : EnvRun cfg ok htab₀ state₀ htab state) (state' : EnvState Board) :
      EnvRun cfg ok htab₀ state₀ htab state'
  | call {htab : Htab (EnvCallback Other)} {state : EnvState Board} {c : Call}
      {r : Reply (EnvCallback Other) (EnvState Board)} (h : EnvRun cfg ok htab₀ state₀ htab state)
      (hg : ok htab state c) (hr : exec (envHooks cfg) htab state c = some r) :
      EnvRun cfg ok htab₀ state₀ r.tab r.state

/-- What the flags promise for a whole run. -/
structure Protected (htab₀ htab : Htab (EnvCallback Other)) : Prop where
  kept : ∀ i key, Holds htab₀ i key → Locked (htab₀.table i).attr.flags →
    Holds htab i key ∧ (htab.table i).data = (htab₀.table i).data ∧
      (htab.table i).attr.flags = (htab₀.table i).attr.flags
  default : ∀ i key, Holds htab₀ i key → HasAccess (htab₀.table i).attr.flags .changedefault →
    Holds htab i key ∧ (htab.table i).attr.flags = (htab₀.table i).attr.flags
  typed : ∀ i key v, Holds htab i key → (htab.table i).data = some v →
    (Holds htab₀ i key ∧ (htab₀.table i).data = some v ∧
      (htab.table i).attr.flags = (htab₀.table i).attr.flags) ∨
    validateType v ((htab.table i).attr.flags &&& 7) = true

theorem protected_refl (htab : Htab (EnvCallback Other)) : Protected htab htab :=
  ⟨fun _ _ hi _ => ⟨hi, rfl, rfl⟩, fun _ _ hi _ => ⟨hi, rfl⟩, fun _ _ _ hi hv => .inl ⟨hi, hv, rfl⟩⟩

variable {htab htab₀ : Htab (EnvCallback Other)}

theorem protected_step {htab' : Htab (EnvCallback Other)} (h : Protected htab₀ htab)
    (hstep : ∀ i, SlotRespects cfg htab htab' i) : Protected htab₀ htab' := by
  refine ⟨fun i key hi hlock => ?_, fun i key hi hacc => ?_, fun i key v hi hv => ?_⟩
  · obtain ⟨h1, hd, hf⟩ := h.kept i key hi hlock
    obtain ⟨h2, hd', hf'⟩ := (hstep i).kept key h1 (hf ▸ hlock)
    exact ⟨h2, hd'.trans hd, hf'.trans hf⟩
  · obtain ⟨h1, hf⟩ := h.default i key hi hacc
    obtain ⟨h2, hf', -⟩ := (hstep i).default key h1 (hf ▸ hacc)
    exact ⟨h2, hf'.trans hf⟩
  · rcases (hstep i).typed key v hi hv with ⟨h1, hv', hf⟩ | htype
    · rcases h.typed i key v h1 hv' with ⟨h2, hv'', hf'⟩ | htype
      · exact .inl ⟨h2, hv'', hf.trans hf'⟩
      · right
        rw [hf]
        exact htype
    · exact .inr htype

theorem envRun_protected {state₀ state : EnvState Board}
    (hw : WellFormed htab₀) (h : EnvRun cfg (GuardedCall cfg) htab₀ state₀ htab state) :
    WellFormed htab ∧ Protected htab₀ htab := by
  induction h with
  | start => exact ⟨hw, protected_refl htab₀⟩
  | other _ _ ih => exact ih
  | call _ hg hr ih =>
    exact ⟨outcome_wellFormed ih.1 (exec_outcome ih.1 hg.2.1 hr),
      protected_step ih.2 (call_respects ih.1 hg hr)⟩

/-- In every run of guarded calls, read-only and write-once variables keep their values, change-default
ones change only from their default, and what is stored has the type of its variable. -/
theorem access_flags_protect (cfg : EnvConfig Other Board) (htab₀ : Htab (EnvCallback Other))
    (state₀ : EnvState Board) (hw : WellFormed htab₀) (htab : Htab (EnvCallback Other))
    (state : EnvState Board) (h : EnvRun cfg (GuardedCall cfg) htab₀ state₀ htab state) :
    Protected htab₀ htab ∧
      ∀ c r, GuardedCall cfg htab state c → exec (envHooks cfg) htab state c = some r →
        ∀ i, SlotRespects cfg htab r.tab i := by
  obtain ⟨hw', hp⟩ := envRun_protected hw h
  exact ⟨hp, fun c r hg hr => call_respects hw' hg hr⟩

def execAll {Callback State : Type} (hooks : Hooks Callback State) :
    List Call → Htab Callback → State → Option (Htab Callback × State)
  | [], htab, state => some (htab, state)
  | c :: calls, htab, state =>
    match exec hooks htab state c with
    | none => none
    | some r => execAll hooks calls r.tab r.state

theorem execAll_run {ok : Htab (EnvCallback Other) → EnvState Board → Call → Prop}
    {htab' : Htab (EnvCallback Other)} {state₀ state state' : EnvState Board} {calls : List Call}
    (hok : ∀ c ∈ calls, ∀ htab state, ok htab state c) (h : EnvRun cfg ok htab₀ state₀ htab state)
    (hr : execAll (envHooks cfg) calls htab state = some (htab', state')) :
    EnvRun cfg ok htab₀ state₀ htab' state' := by
  induction calls generalizing htab state with
  | nil =>
    obtain ⟨rfl, rfl⟩ := Prod.mk.inj (some.inj hr)
    exact h
  | cons c calls ih =>
    rw [execAll] at hr
    cases he : exec (envHooks cfg) htab state c with
    | none => simp [he] at hr
    | some r =>
      rw [he] at hr
      exact ih (fun c' hc' => hok c' (mem_cons_of_mem _ hc'))
        (h.call (hok c mem_cons_self htab state) he) hr

end Runs

/- A board without drivers that has bindings for `.callbacks` and `.flags` only. -/
def bareConfig (flagsListStatic : Str) : EnvConfig Unit Unit where
  flagsListStatic := flagsListStatic
  callbackListStatic := envCallbackVar ++ colon :: callbacksCallbackName ++
    comma :: envFlagsVar ++ colon :: flagsCallbackName
  defaults := fun _ => 0
  configEnvSize := 16
  early := fun _ => none
  findOther := fun _ => none
  run := fun _ board _ _ _ _ => (false, board)

/- The table of `hcreate_r(5)`, and states before and after the first call. -/
def bareTab : Htab (EnvCallback Unit) := ⟨5, 0, fun _ => emptySlot (EnvCallback Unit)⟩
def firstState : EnvState Unit := ⟨true, [], none, none, ()⟩
def nullState : EnvState Unit := ⟨true, [], some .null, some .null, ()⟩

theorem bareTab_wellFormed : WellFormed bareTab :=
  (hcreateR_wellFormed (show hcreateR (EnvCallback Unit) 5 = some bareTab from rfl) (by decide)
    (by decide)).1

theorem bareTab_empty (i : ℕ) (key : Str) : ¬Holds bareTab i key := by
  intro h
  simpa [bareTab, emptySlot] using h.2.1

/- The static list `b:so`. -/
def onceConfig : EnvConfig Unit Unit := bareConfig [98, 58, 115, 111]

/- `b` is created once and then keeps its value. -/
theorem access_flags_protect_once : ∃ htab state r,
    EnvRun onceConfig (GuardedCall onceConfig) bareTab nullState htab state ∧
    Protected bareTab htab ∧ HasAccess (htab.table 4).attr.flags .writeonce ∧
    exec (envHooks onceConfig) htab state (.enter [98] [50] 0) = some r ∧
    Holds r.tab 4 [98] ∧ (r.tab.table 4).data = some [49] := by
  have hnew : NewUnbound onceConfig bareTab nullState [98] [49] := by
    intro _ idx _
    rw [envInit_put]
    refine ⟨?_, fun a ha => ?_, fun a ha => ?_⟩
    · show envCallbackInit onceConfig none [98] none ≠ some .flags
      decide
    · have hnone : listLookup none onceConfig.callbackListStatic [98] = none := by decide
      exact absurd (hnone.symm.trans ha) (by simp)
    · have hfound : listLookup none onceConfig.flagsListStatic [98] = some [115, 111] := by decide
      rw [← some.inj (hfound.symm.trans ha)]
      decide
  have h0 : EnvRun onceConfig (GuardedCall onceConfig) bareTab nullState _ _ := .start
  have h1 := h0.call (c := .enter [98] [49] 0)
    ⟨⟨by decide, rfl⟩, .inr (.inr (.inl ⟨1, by decide, rfl⟩)),
      fun i hi => absurd hi (bareTab_empty i _), hnew, fun i hi => absurd hi (bareTab_empty i _)⟩ rfl
  obtain ⟨htab, hht⟩ : ∃ htab, htab = (createEntry (envHooks onceConfig) ⟨true, true⟩ bareTab nullState
    [98] [49] 0 (firstHash 5 [98]) 4).tab := ⟨_, rfl⟩
  have h1' : EnvRun onceConfig (GuardedCall onceConfig) bareTab nullState htab nullState := hht ▸ h1
  obtain ⟨hp, hstep⟩ := access_flags_protect onceConfig bareTab nullState bareTab_wellFormed _ _ h1'
  have hi : Holds htab 4 [98] := by
    rw [hht]
    exact ⟨by decide, by decide, rfl⟩
  have hflags : (htab.table 4).attr.flags = 0x28 := by
    rw [hht]
    decide
  have honly : ∀ i, Holds htab i [98] → i = 4 := fun i h =>
    (envRun_protected bareTab_wellFormed h1').1.unique i 4 [98] h hi
  have hg : GuardedCall onceConfig htab nullState (.enter [98] [50] 0) := by
    refine ⟨⟨by decide, rfl⟩, .inl ⟨4, hi⟩, fun i h => ?_, fun habs => absurd hi (habs 4),
      fun i h hacc => ?_⟩
    · rw [honly i h, hht]
      decide
    · rw [honly i h, hflags] at hacc
      exact absurd hacc (by decide)
  obtain ⟨r, hr⟩ : ∃ r, exec (envHooks onceConfig) htab nullState (.enter [98] [50] 0) = some r := by
    rw [hht]
    exact ⟨_, rfl⟩
  have hlock : HasAccess (htab.table 4).attr.flags .writeonce := by
    rw [hflags]
    decide
  obtain ⟨hkept, hdata, -⟩ := (hstep _ _ hg hr 4).kept [98] hi (.inr hlock)
  refine ⟨htab, nullState, r, h1', hp, hlock, hr, hkept, ?_⟩
  rw [hdata, hht]
  decide

/- The table is filled, `a` is deleted, and a key is created whose first slot is live. -/
def filling : List Call :=
  [.enter [97] [49] 0, .enter [98] [50] 0, .enter [99] [51] 0, .enter [101] [52] 0, .enter [100] [53] 0]
def clobber : List Call := [.delete [97] 0, .enter [103] [54] 0]

/- In a table of 5 slots that was full, `g` is created in the slot of the write-once variable
`b`. -/
theorem access_flags_lost : ∃ htab₁ htab₂ state₁ state₂,
    EnvRun onceConfig (fun _ _ => Unforced) bareTab firstState htab₁ state₁ ∧
    EnvRun onceConfig (fun _ _ => Unforced) htab₁ state₁ htab₂ state₂ ∧ ¬Protected htab₁ htab₂ := by
  have hok : ∀ c ∈ filling ++ clobber, ∀ (_ : Htab (EnvCallback Unit)) (_ : EnvState Unit),
      Unforced c := fun c hc _ _ => by
    revert c
    decide
  have hrun : ((execAll (envHooks onceConfig) filling bareTab firstState).any fun r₁ =>
      (execAll (envHooks onceConfig) clobber r₁.1 r₁.2).any fun r₂ =>
        Holds r₁.1 4 [98] ∧ HasAccess (r₁.1.table 4).attr.flags .writeonce ∧ ¬Holds r₂.1 4 [98]) =
      true := by
    decide +kernel
  obtain ⟨⟨htab₁, state₁⟩, h1, hrun⟩ := (any_eq_true _ _).mp hrun
  obtain ⟨⟨htab₂, state₂⟩, h2, hrun⟩ := (any_eq_true _ _).mp hrun
  obtain ⟨hb, hacc, hlost⟩ := of_decide_eq_true hrun
  refine ⟨htab₁, htab₂, state₁, state₂,
    execAll_run (fun c hc => hok c (mem_append_left _ hc)) .start h1,
    execAll_run (fun c hc => hok c (mem_append_right _ hc)) .start h2, fun hp => ?_⟩
  exact hlost (hp.kept 4 [98] hb (.inr hacc)).1

end UBoot.Env
