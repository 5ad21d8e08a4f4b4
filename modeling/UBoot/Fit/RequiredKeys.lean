import UBoot.Fit.ImageSig

/-!
# Required keys

For images a key node marked `required` is dropped; for configurations it is tried first. In both
cases the other keys do as well.
-/

namespace UBoot.Fit

open Rsa Limbs List Option

/- The results of the keys, in the order in which they are tried: does the first one that is
not an error verify? There is no answer if an attempt before it gets stuck. -/
def verdict : List (Option ℤ) → Option Bool
  | [] => some false
  | none :: _ => none
  | some ret :: rest => if ret = 0 then some true else verdict rest

theorem verdict_append (rs ts : List (Option ℤ)) :
    verdict (rs ++ ts) = match verdict rs with | some false => verdict ts | r => r := by
  induction rs with
  | nil => rfl
  | cons r rs ih =>
    cases r with
    | none => rfl
    | some ret =>
      simp only [cons_append, verdict]
      split
      · rfl
      · exact ih

theorem verdict_true {rs : List (Option ℤ)} (h : verdict rs = some true) : some 0 ∈ rs := by
  induction rs with
  | nil => cases h
  | cons r rs ih =>
    cases r with
    | none => cases h
    | some ret =>
      unfold verdict at h
      split at h
      · next hret => exact hret ▸ mem_cons_self
      · exact mem_cons_of_mem _ (ih h)

theorem verdict_of_zero {rs : List (Option ℤ)} (h : some 0 ∈ rs) : verdict rs ≠ some false := by
  induction rs with
  | nil => cases h
  | cons r rs ih =>
    cases r with
    | none => simp [verdict]
    | some ret =>
      unfold verdict
      split
      · simp
      · next hret => exact ih ((mem_cons.mp h).resolve_left fun heq => hret (some.inj heq).symm)

section Attempts

variable (calculate : ChecksumAlgo → List UInt8 → ℤ × List UInt8)
  (modExp : KeyProp → List UInt8 → ℤ × List UInt8)

/- The attempts of one call of `rsa_verify`. -/
def rsaAttempts (info : SignInfo) (data sig : List UInt8) : List (Option ℤ) :=
  if info.algo.checksum.padLen < info.algo.checksum.checksumLen then [some einval]
  else match fdtSubnodeOffset info.fdtBlob 0 sigNodename with
    | none => [none]
    | some sigNode =>
      if sigNode < 0 then [some enoent]
      else if (calculate info.algo.checksum data).1 < 0 then [some einval]
      else
        let required := if info.requiredKeynode ≠ -1 then [some info.requiredKeynode] else []
        (required ++ fallbackNodes info sigNode).map fun node =>
          node.bind (rsaVerifyWithKeynode modExp info (calculate info.algo.checksum data).2 sig)

/- What a signature node is checked against: the information for the verifier, the hashed
bytes and the value. -/
abbrev Prepared := Except Fail (SignInfo × List UInt8 × List UInt8)

def sigAttempts (prepared : Prepared) : List (Option ℤ) :=
  match prepared with
  | .error .stuck => [none]
  | .error (.msg _) => [some eperm]
  | .ok (info, data, sig) => rsaAttempts calculate modExp info data sig

variable (control fit : Fdt)

def imagePrepared (data : List UInt8) (noffset : ℕ) : Prepared := do
  let info ← fitImageSetupVerify fit control noffset (-1)
  let value ← fitImageHashGetValue fit noffset
  .ok (info, data, value)

def configPrepared (requiredKeynode : ℤ) (noffset : ℕ) : Prepared := do
  let info ← fitImageSetupVerify fit control noffset requiredKeynode
  let value ← fitImageHashGetValue fit noffset
  let (_, regions) ← configRegions fit noffset
  .ok (info, regions.flatMap (regionBytes fit), value)

def allAttempts (prepare : ℕ → Prepared) (nodes : List (Option ℕ)) : List (Option ℤ) :=
  nodes.flatMap fun node => match node with
    | none => [none]
    | some noffset => sigAttempts calculate modExp (prepare noffset)

variable {calculate modExp}

theorem tryKeys_verdict (verify : ℤ → Option ℤ) {ret : ℤ} (hret : ret ≠ 0)
    (nodes : List (Option ℤ)) :
    (tryKeys verify ret nodes).map (· == 0) = verdict (nodes.map fun node => node.bind verify) := by
  induction nodes generalizing ret with
  | nil => simpa [tryKeys, verdict] using hret
  | cons node nodes ih =>
    cases node with
    | none => rfl
    | some node =>
      simp only [tryKeys, map_cons, bind_some]
      cases verify node with
      | none => rfl
      | some r =>
        simp only [verdict]
        split
        · rfl
        · next hr => exact ih hr

theorem rsaVerify_verdict (info : SignInfo) (data sig : List UInt8) :
    (rsaVerify calculate modExp info data sig).map (· == 0) =
      verdict (rsaAttempts calculate modExp info data sig) := by
  unfold rsaVerify rsaAttempts
  split
  · rfl
  · cases fdtSubnodeOffset info.fdtBlob 0 sigNodename with
    | none => rfl
    | some sigNode =>
      simp only [bind, Option.bind]
      split
      · rfl
      · split
        · rfl
        · exact tryKeys_verdict _ (by decide) _

def answer : Except Fail Unit → Option Bool
  | .ok () => some true
  | .error (.msg _) => some false
  | .error .stuck => none

theorem algoVerify_answer (info : SignInfo) (data sig : List UInt8) :
    answer (algoVerify calculate modExp info data sig) =
      verdict (rsaAttempts calculate modExp info data sig) := by
  rw [← rsaVerify_verdict]
  unfold algoVerify
  cases rsaVerify calculate modExp info data sig with
  | none => rfl
  | some ret =>
    by_cases h : ret = 0
    · simp [call, bind, Except.bind, answer, h]
    · simp [call, bind, Except.bind, answer, h]

theorem fitImageCheckSig_answer (data : List UInt8) (noffset : ℕ) :
    answer (fitImageCheckSig calculate modExp control fit data (-1) noffset) =
      verdict (sigAttempts calculate modExp (imagePrepared control fit data noffset)) := by
  unfold fitImageCheckSig imagePrepared
  cases fitImageSetupVerify fit control noffset (-1) with
  | error e => cases e <;> rfl
  | ok info =>
    cases fitImageHashGetValue fit noffset with
    | error e => cases e <;> rfl
    | ok value => exact algoVerify_answer info data value

theorem fitConfigCheckSig_answer (key : ℤ) (noffset : ℕ) :
    answer (fitConfigCheckSig calculate modExp control fit key noffset) =
      verdict (sigAttempts calculate modExp (configPrepared control fit key noffset)) := by
  unfold fitConfigCheckSig configPrepared
  cases fitImageSetupVerify fit control noffset key with
  | error e => cases e <;> rfl
  | ok info =>
    cases fitImageHashGetValue fit noffset with
    | error e => cases e <;> rfl
    | ok value =>
      cases configRegions fit noffset with
      | error e => cases e <;> rfl
      | ok regions => exact algoVerify_answer info _ value

theorem verifySigs_verdict {check : ℕ → Except Fail Unit} {prepare : ℕ → Prepared}
    (h : ∀ n, answer (check n) = verdict (sigAttempts calculate modExp (prepare n)))
    (nodes : List (Option ℕ)) :
    (verifySigs check nodes).map (· == 0) = verdict (allAttempts calculate modExp prepare nodes) := by
  induction nodes with
  | nil => rfl
  | cons node nodes ih =>
    unfold allAttempts at ih ⊢
    rw [flatMap_cons, verdict_append]
    cases node with
    | none => rfl
    | some n =>
      simp only [verifySigs, ← h n]
      cases check n with
      | ok u => rfl
      | error e =>
        cases e with
        | stuck => rfl
        | msg text => exact ih

end Attempts

section Required

variable (calculate : ChecksumAlgo → List UInt8 → ℤ × List UInt8)
  (modExp : KeyProp → List UInt8 → ℤ × List UInt8) (control fit : Fdt)

/- A key node of the control device tree that is marked as required. -/
def KeyRequired (kind : String) (key : ℕ) : Prop :=
  ∃ sigNode, fdtSubnodeOffset control 0 sigNodename = some sigNode ∧ 0 ≤ sigNode ∧
    some key ∈ subnodes control sigNode ∧ isRequired control kind key = some true

/- The value of the signature verifies under the key that is stored in the node `key`. -/
def VerifiesUnder (prepared : Prepared) (key : ℤ) : Prop :=
  ∃ info data sig, prepared = .ok (info, data, sig) ∧ 0 ≤ (calculate info.algo.checksum data).1 ∧
    rsaVerifyWithKeynode modExp info (calculate info.algo.checksum data).2 sig key = some 0

/- Some signature of the node verifies under each of the required keys. -/
def KeysVerify (kind : String) (noffset : ℕ) (prepare : ℕ → ℕ → Prepared) : Prop :=
  ∀ key, KeyRequired control kind key → ∃ sig, some sig ∈ signatureNodes fit noffset ∧
    VerifiesUnder calculate modExp (prepare key sig) key

def ImageKeysVerify (imageNoffset : ℕ) (data : List UInt8) : Prop :=
  KeysVerify calculate modExp control fit "image" imageNoffset fun _ =>
    imagePrepared control fit data

def ConfigKeysVerify (confNoffset : ℕ) : Prop :=
  KeysVerify calculate modExp control fit "conf" confNoffset fun key =>
    configPrepared control fit key

/- A key node that is tried whatever is required: the hinted one, or one that the last loop finds. -/
def Tried (prepared : Prepared) (node : ℤ) : Prop :=
  ∃ info data sig sigNode, prepared = .ok (info, data, sig) ∧
    fdtSubnodeOffset control 0 sigNodename = some sigNode ∧ some node ∈ fallbackNodes info sigNode

/- Where one of these keys lets a signature through, so does the required one. -/
def NoKeyInstead (kind : String) (noffset : ℕ) (prepare : ℕ → ℕ → Prepared) : Prop :=
  ∀ key, KeyRequired control kind key → ∀ sig, some sig ∈ signatureNodes fit noffset →
    ∀ node, Tried control (prepare key sig) node →
      VerifiesUnder calculate modExp (prepare key sig) node →
      ∃ sig, some sig ∈ signatureNodes fit noffset ∧
        VerifiesUnder calculate modExp (prepare key sig) key

def NoImageKeyInstead (imageNoffset : ℕ) (data : List UInt8) : Prop :=
  NoKeyInstead calculate modExp control fit "image" imageNoffset fun _ =>
    imagePrepared control fit data

def NoConfigKeyInstead (confNoffset : ℕ) : Prop :=
  NoKeyInstead calculate modExp control fit "conf" confNoffset fun key =>
    configPrepared control fit key

variable {calculate modExp control fit}

/- What the preparation for a required key node gives. -/
structure PreparesFor (control : Fdt) (prepare : ℕ → ℕ → Prepared) : Prop where
  info : ∀ {key n info data sig}, prepare key n = .ok (info, data, sig) → info.algo ∈ imageSigAlgos ∧
    info.fdtBlob = control ∧ (info.requiredKeynode = -1 ∨ info.requiredKeynode = key)
  -- the required key makes no other difference
  other : ∀ {key n info data sig} (key' : ℕ), prepare key n = .ok (info, data, sig) →
    ∃ k, prepare key' n = .ok ({ info with requiredKeynode := k }, data, sig)

theorem fitImageSetupVerify_info {noffset : ℕ} {k : ℤ} {info : SignInfo}
    (h : fitImageSetupVerify fit control noffset k = .ok info) :
    info.algo ∈ imageSigAlgos ∧ info.fdtBlob = control ∧ info.requiredKeynode = k ∧
      ∀ k', fitImageSetupVerify fit control noffset k' = .ok { info with requiredKeynode := k' } := by
  unfold fitImageSetupVerify at h ⊢
  cases halgo : fdtGetprop fit noffset "algo" with
  | none => simp [halgo, call, bind, Except.bind] at h
  | some prop =>
    cases prop with
    | none => simp [halgo, call, bind, Except.bind] at h
    | some name =>
      cases hkey : fdtGetprop fit noffset "key-name-hint" with
      | none => simp [halgo, hkey, call, bind, Except.bind] at h
      | some keyname =>
        cases hfind : imageGetSigAlgo fit name.1 with
        | none => simp [halgo, hkey, hfind, call, bind, Except.bind] at h
        | some algo =>
          simp only [halgo, hkey, hfind, call, bind, Except.bind, Except.ok.injEq] at h ⊢
          subst h
          exact ⟨mem_of_find?_eq_some hfind, rfl, rfl, fun _ => rfl⟩

theorem imagePrepared_for (data : List UInt8) :
    PreparesFor control fun _ => imagePrepared control fit data := by
  refine ⟨fun {_ n info _ _} h => ?_, fun {_ _ info _ _} _ h => ⟨info.requiredKeynode, h⟩⟩
  unfold imagePrepared at h
  cases hsetup : fitImageSetupVerify fit control n (-1) with
  | error e => simp [hsetup, bind, Except.bind] at h
  | ok info' =>
    cases hvalue : fitImageHashGetValue fit n with
    | error e => simp [hsetup, hvalue, bind, Except.bind] at h
    | ok value =>
      simp only [hsetup, hvalue, bind, Except.bind, Except.ok.injEq, Prod.mk.injEq] at h
      obtain ⟨rfl, -⟩ := h
      obtain ⟨halgo, hblob, hkey, -⟩ := fitImageSetupVerify_info hsetup
      exact ⟨halgo, hblob, .inl hkey⟩

theorem configPrepared_for : PreparesFor control fun key => configPrepared control fit key := by
  have hparts : ∀ {key n : ℕ} {info data sig},
      configPrepared control fit key n = .ok (info, data, sig) →
      fitImageSetupVerify fit control n key = .ok info ∧ ∀ (key' : ℕ) info',
        fitImageSetupVerify fit control n key' = .ok info' →
        configPrepared control fit key' n = .ok (info', data, sig) := by
    intro key n info data sig h
    unfold configPrepared at h ⊢
    cases hsetup : fitImageSetupVerify fit control n key with
    | error e => simp [hsetup, bind, Except.bind] at h
    | ok info' =>
      cases hvalue : fitImageHashGetValue fit n with
      | error e => simp [hsetup, hvalue, bind, Except.bind] at h
      | ok value =>
        cases hregions : configRegions fit n with
        | error e => simp [hsetup, hvalue, hregions, bind, Except.bind] at h
        | ok regions =>
          simp only [hsetup, hvalue, hregions, bind, Except.bind, Except.ok.injEq,
            Prod.mk.injEq] at h ⊢
          obtain ⟨rfl, rfl, rfl⟩ := h
          exact ⟨rfl, fun key' info' hsetup' => by rw [hsetup']⟩
  refine ⟨fun h => ?_, fun key' h => ?_⟩
  · obtain ⟨halgo, hblob, hkey, -⟩ := fitImageSetupVerify_info (hparts h).1
    exact ⟨halgo, hblob, .inr hkey⟩
  · exact ⟨key', (hparts h).2 key' _ ((fitImageSetupVerify_info (hparts h).1).2.2.2 key')⟩

theorem zero_allAttempts {prepare : ℕ → Prepared} {nodes : List (Option ℕ)} :
    some 0 ∈ allAttempts calculate modExp prepare nodes ↔
      ∃ n, some n ∈ nodes ∧ some 0 ∈ sigAttempts calculate modExp (prepare n) := by
  unfold allAttempts
  rw [mem_flatMap]
  constructor
  · rintro ⟨node, hnode, hzero⟩
    cases node with
    | none => simp at hzero
    | some n => exact ⟨n, hnode, hzero⟩
  · rintro ⟨n, hn, hzero⟩
    exact ⟨some n, hn, hzero⟩

section Sig

variable {prepare : ℕ → ℕ → Prepared} {key n : ℕ} {sigNode : ℤ}

theorem zero_of_tried (hprep : PreparesFor control prepare)
    (hsig : fdtSubnodeOffset control 0 sigNodename = some sigNode) (hpos : 0 ≤ sigNode) {node : ℤ}
    (htried : Tried control (prepare key n) node)
    (hverify : VerifiesUnder calculate modExp (prepare key n) node) (key' : ℕ) :
    some 0 ∈ sigAttempts calculate modExp (prepare key' n) := by
  obtain ⟨info, data, sig, sigNode', hok, hsig', hmem⟩ := htried
  obtain ⟨info', data', sig', hok', hcalc, hzero⟩ := hverify
  rw [hok, Except.ok.injEq, Prod.mk.injEq, Prod.mk.injEq] at hok'
  obtain ⟨rfl, rfl, rfl⟩ := hok'
  obtain rfl := some.inj (hsig.symm.trans hsig')
  obtain ⟨halgo, rfl, -⟩ := hprep.info hok
  obtain ⟨k, hok''⟩ := hprep.other key' hok
  have hlen : ∀ algo ∈ imageSigAlgos, ¬ algo.checksum.padLen < algo.checksum.checksumLen := by decide
  rw [hok'', sigAttempts, rsaAttempts]
  dsimp only
  rw [if_neg (hlen _ halgo), hsig]
  dsimp only
  rw [if_neg (by lia), if_neg (by lia), List.mem_map]
  exact ⟨some node, mem_append_right _ hmem, hzero⟩

theorem verifies_of_zero (hprep : PreparesFor control prepare)
    (hsig : fdtSubnodeOffset control 0 sigNodename = some sigNode) (hpos : 0 ≤ sigNode)
    (h : some 0 ∈ sigAttempts calculate modExp (prepare key n)) :
    ∃ node : ℤ, (node = key ∨ Tried control (prepare key n) node) ∧
      VerifiesUnder calculate modExp (prepare key n) node := by
  cases hok : prepare key n with
  | error e => cases e <;> simp [hok, sigAttempts, eperm] at h
  | ok r =>
    obtain ⟨info, data, sig⟩ := r
    obtain ⟨-, hblob, hkey⟩ := hprep.info hok
    rw [hok, sigAttempts, rsaAttempts] at h
    dsimp only at h
    split at h
    · simp [einval] at h
    · rw [hblob, hsig] at h
      dsimp only at h
      rw [if_neg (by lia)] at h
      split at h
      · simp [einval] at h
      · obtain ⟨node, hnode, hzero⟩ := List.mem_map.mp h
        obtain ⟨node, rfl, hzero⟩ := bind_eq_some_iff.mp hzero
        refine ⟨node, ?_, info, data, sig, rfl, by lia, hzero⟩
        refine (mem_append.mp hnode).imp (fun hreq => ?_) fun hmem =>
          ⟨info, data, sig, sigNode, rfl, hsig, hmem⟩
        split at hreq
        · next hne => exact (some.inj (mem_singleton.mp hreq)).trans (hkey.resolve_left hne)
        · cases hreq

end Sig

section Loop

variable {kind : String} {verify : ℕ → Option ℤ} {nodes : List (Option ℕ)} {count : ℕ} {key : ℕ}

theorem verifyRequired_key {c : ℕ} (h : verifyRequired control kind verify count nodes = some (0, c))
    (hkey : some key ∈ nodes) (hreq : isRequired control kind key = some true) :
    verify key = some 0 := by
  induction nodes generalizing count with
  | nil => cases hkey
  | cons node nodes ih =>
    cases node with
    | none => cases h
    | some noffset =>
      unfold verifyRequired at h
      obtain ⟨required, hrequired, h⟩ := bind_eq_some_iff.mp h
      split at h
      · obtain ⟨ret, hret, h⟩ := bind_eq_some_iff.mp h
        split at h
        · next hne => exact absurd (congrArg Prod.fst (some.inj h)) hne
        · next hzero =>
          rcases mem_cons.mp hkey with heq | hkey
          · rw [some.inj heq, hret, not_not.mp hzero]
          · exact ih h hkey
      · next hno =>
        rcases mem_cons.mp hkey with heq | hkey
        · rw [← some.inj heq, hreq, some.injEq] at hrequired
          exact absurd hrequired.symm hno
        · exact ih h hkey

theorem verifyRequired_returns {r : ℤ × ℕ}
    (h : verifyRequired control kind verify count nodes = some r)
    (hall : ∀ key, some key ∈ nodes → isRequired control kind key = some true →
      ∀ ret, verify key = some ret → ret = 0) : r.1 = 0 := by
  induction nodes generalizing count with
  | nil => rw [← some.inj h]
  | cons node nodes ih =>
    have hrest := fun key hkey => hall key (mem_cons_of_mem _ hkey)
    cases node with
    | none => cases h
    | some noffset =>
      unfold verifyRequired at h
      obtain ⟨required, hrequired, h⟩ := bind_eq_some_iff.mp h
      split at h
      · next hyes =>
        obtain ⟨ret, hret, h⟩ := bind_eq_some_iff.mp h
        rw [hyes] at hrequired
        rw [hall noffset mem_cons_self hrequired ret hret, if_neg (by simp)] at h
        exact ih h hrest
      · exact ih h hrest

end Loop

section Exact

variable {kind : String} {noffset : ℕ} {prepare : ℕ → ℕ → Prepared} {verify : ℕ → Option ℤ}
  {sigNode : ℤ}

theorem keysVerify_of_noKeyInstead (hprep : PreparesFor control prepare)
    (hv : ∀ key, (verify key).map (· == 0) =
      verdict (allAttempts calculate modExp (prepare key) (signatureNodes fit noffset)))
    (hsig : fdtSubnodeOffset control 0 sigNodename = some sigNode) {c : ℕ}
    (hrun : verifyRequired control kind verify 0 (subnodes control sigNode) = some (0, c))
    (hno : NoKeyInstead calculate modExp control fit kind noffset prepare) :
    KeysVerify calculate modExp control fit kind noffset prepare := by
  intro key hkey
  obtain ⟨sigNode', hsig', hpos, hmem, hreq⟩ := hkey
  obtain rfl := some.inj (hsig.symm.trans hsig')
  have htrue := hv key
  rw [verifyRequired_key hrun hmem hreq] at htrue
  obtain ⟨n, hn, hzero⟩ := zero_allAttempts.mp (verdict_true htrue.symm)
  obtain ⟨node, hnode, hverify⟩ := verifies_of_zero hprep hsig hpos hzero
  rcases hnode with rfl | htried
  · exact ⟨n, hn, hverify⟩
  · exact hno key ⟨sigNode, hsig, hpos, hmem, hreq⟩ n hn node htried hverify

theorem verifyRequired_zero (hprep : PreparesFor control prepare)
    (hv : ∀ key, (verify key).map (· == 0) =
      verdict (allAttempts calculate modExp (prepare key) (signatureNodes fit noffset)))
    (hsig : fdtSubnodeOffset control 0 sigNodename = some sigNode) (hpos : 0 ≤ sigNode) {r : ℤ × ℕ}
    (hrun : verifyRequired control kind verify 0 (subnodes control sigNode) = some r) (key : ℕ)
    {n : ℕ} {node : ℤ} (hn : some n ∈ signatureNodes fit noffset) (htried : Tried control (prepare key n) node)
    (hverify : VerifiesUnder calculate modExp (prepare key n) node) : r.1 = 0 := by
  refine verifyRequired_returns hrun fun key' _ _ ret hret => ?_
  by_contra hne
  have hfalse := hv key'
  rw [hret, map_some, beq_eq_false_iff_ne.mpr hne] at hfalse
  exact verdict_of_zero (zero_allAttempts.mpr
    ⟨n, hn, zero_of_tried hprep hsig hpos htried hverify key'⟩) hfalse.symm

end Exact

section Images

variable {imageNoffset : ℕ} {data : List UInt8}

theorem fitImageVerifySig_verdict (key : ℕ) :
    (fitImageVerifySig calculate modExp control fit imageNoffset data).map (· == 0) =
      verdict (allAttempts calculate modExp ((fun _ : ℕ => imagePrepared control fit data) key)
        (signatureNodes fit imageNoffset)) :=
  verifySigs_verdict (fitImageCheckSig_answer control fit data) _

theorem fitConfigVerifySig_verdict {confNoffset : ℕ} (key : ℕ) :
    (fitConfigVerifySig calculate modExp control fit confNoffset key).map (· == 0) =
      verdict (allAttempts calculate modExp ((fun key : ℕ => configPrepared control fit key) key)
        (signatureNodes fit confNoffset)) :=
  verifySigs_verdict (fitConfigCheckSig_answer control fit key) _

theorem imageKeysVerify (hno : NoImageKeyInstead calculate modExp control fit imageNoffset data)
    {noSigs : Bool} (hrun : fitImageVerifyRequiredSigs calculate modExp control fit imageNoffset data =
      some (0, noSigs)) : ImageKeysVerify calculate modExp control fit imageNoffset data := by
  intro key hkey
  obtain ⟨sigNode, hsig, hpos, -⟩ := id hkey
  unfold fitImageVerifyRequiredSigs at hrun
  rw [hsig] at hrun
  simp only [bind, bind_some, not_lt.mpr hpos, if_false] at hrun
  obtain ⟨⟨ret, c⟩, hloop, hret⟩ := bind_eq_some_iff.mp hrun
  obtain ⟨rfl, -⟩ := Prod.mk.inj (some.inj hret)
  exact keysVerify_of_noKeyInstead (imagePrepared_for data) fitImageVerifySig_verdict hsig hloop hno
    key hkey

theorem noImageKeyInstead (hrun : fitImageVerifyRequiredSigs calculate modExp control fit imageNoffset
      data ≠ none)
    (h : ∀ noSigs, fitImageVerifyRequiredSigs calculate modExp control fit imageNoffset data =
      some (0, noSigs) → ImageKeysVerify calculate modExp control fit imageNoffset data) :
    NoImageKeyInstead calculate modExp control fit imageNoffset data := by
  intro key hkey n hn node htried hverify
  obtain ⟨sigNode, hsig, hpos, -⟩ := id hkey
  obtain ⟨⟨ret, noSigs⟩, hrun⟩ := ne_none_iff_exists'.mp hrun
  suffices hzero : ret = 0 from h noSigs (hzero ▸ hrun) key hkey
  unfold fitImageVerifyRequiredSigs at hrun
  rw [hsig] at hrun
  simp only [bind, bind_some, not_lt.mpr hpos, if_false] at hrun
  obtain ⟨⟨ret, c⟩, hloop, hret⟩ := bind_eq_some_iff.mp hrun
  obtain ⟨rfl, -⟩ := Prod.mk.inj (some.inj hret)
  exact verifyRequired_zero (imagePrepared_for data) fitImageVerifySig_verdict hsig hpos hloop key hn
    htried hverify

end Images

section Configs

variable {confNoffset : ℕ}

theorem configKeysVerify (hno : NoConfigKeyInstead calculate modExp control fit confNoffset)
    (hrun : fitConfigVerifyRequiredSigs calculate modExp control fit confNoffset = some 0) :
    ConfigKeysVerify calculate modExp control fit confNoffset := by
  intro key hkey
  obtain ⟨sigNode, hsig, hpos, -⟩ := id hkey
  unfold fitConfigVerifyRequiredSigs at hrun
  rw [hsig] at hrun
  simp only [bind, bind_some, not_lt.mpr hpos, if_false] at hrun
  obtain ⟨⟨ret, c⟩, hloop, hret⟩ := bind_eq_some_iff.mp hrun
  obtain rfl := some.inj hret
  exact keysVerify_of_noKeyInstead configPrepared_for fitConfigVerifySig_verdict hsig hloop hno key hkey

theorem noConfigKeyInstead
    (hrun : fitConfigVerifyRequiredSigs calculate modExp control fit confNoffset ≠ none)
    (h : fitConfigVerifyRequiredSigs calculate modExp control fit confNoffset = some 0 →
      ConfigKeysVerify calculate modExp control fit confNoffset) :
    NoConfigKeyInstead calculate modExp control fit confNoffset := by
  intro key hkey n hn node htried hverify
  obtain ⟨sigNode, hsig, hpos, -⟩ := id hkey
  obtain ⟨ret, hrun⟩ := ne_none_iff_exists'.mp hrun
  suffices hzero : ret = 0 from h (hzero ▸ hrun) key hkey
  unfold fitConfigVerifyRequiredSigs at hrun
  rw [hsig] at hrun
  simp only [bind, bind_some, not_lt.mpr hpos, if_false] at hrun
  obtain ⟨⟨ret, c⟩, hloop, hret⟩ := bind_eq_some_iff.mp hrun
  obtain rfl := some.inj hret
  exact verifyRequired_zero configPrepared_for fitConfigVerifySig_verdict hsig hpos hloop key hn htried
    hverify

end Configs

variable (calculate modExp control fit)

/- Both kinds: no other key lets a signature through where a required key does not, then the result 0
means what it should; and where the function returns, only then. -/
theorem required_keys_iff (imageNoffset confNoffset : ℕ) (data : List UInt8) :
    ((NoImageKeyInstead calculate modExp control fit imageNoffset data →
        ∀ noSigs, fitImageVerifyRequiredSigs calculate modExp control fit imageNoffset data =
          some (0, noSigs) → ImageKeysVerify calculate modExp control fit imageNoffset data) ∧
      (fitImageVerifyRequiredSigs calculate modExp control fit imageNoffset data ≠ none →
        (∀ noSigs, fitImageVerifyRequiredSigs calculate modExp control fit imageNoffset data =
          some (0, noSigs) → ImageKeysVerify calculate modExp control fit imageNoffset data) →
        NoImageKeyInstead calculate modExp control fit imageNoffset data)) ∧
    (NoConfigKeyInstead calculate modExp control fit confNoffset →
        fitConfigVerifyRequiredSigs calculate modExp control fit confNoffset = some 0 →
        ConfigKeysVerify calculate modExp control fit confNoffset) ∧
      (fitConfigVerifyRequiredSigs calculate modExp control fit confNoffset ≠ none →
        (fitConfigVerifyRequiredSigs calculate modExp control fit confNoffset = some 0 →
          ConfigKeysVerify calculate modExp control fit confNoffset) →
        NoConfigKeyInstead calculate modExp control fit confNoffset) :=
  ⟨⟨fun hno _ hrun => imageKeysVerify hno hrun, noImageKeyInstead⟩,
    fun hno hrun => configKeysVerify hno hrun, noConfigKeyInstead⟩

end Required

def exactModExp (prop : KeyProp) (sig : List UInt8) : ℤ × List UInt8 :=
  (0, beBytes sig.length (beValue sig ^ (prop.publicExponent.getD rsaDefaultPubexp).toNat %
    beValue (prop.modulus.getD [])))

/- SHA-1 of the image data `1, 2, 3, 4`. -/
def imageDigest : List UInt8 :=
  [0x12, 0xda, 0xda, 0x1f, 0xff, 0x4d, 0x47, 0x87, 0xad, 0xe3, 0x33, 0x31, 0x47, 0x20, 0x2c, 0x3b,
    0x44, 0x3e, 0x37, 0x6f]

/- A signature, and a modulus for which it is one with the public exponent 3. -/
def signature : ℕ := 3 * 2 ^ 681

def modulusFor (digest : List UInt8) : ℕ := signature ^ 3 - beValue (paddingSha1Rsa2048 ++ digest)

def keyItems (n0inv modulus : ℕ) : List Item :=
  [.prop "rsa,num-bits" (be32Bytes 2048), .prop "rsa,n0-inverse" (be32Bytes n0inv),
    .prop "rsa,exponent" (beBytes 8 3), .prop "rsa,modulus" (beBytes 256 modulus),
    .prop "rsa,r-squared" (beBytes 256 (2 ^ 4096 % modulus))]

def controlNames : List String :=
  ["required", "rsa,num-bits", "rsa,n0-inverse", "rsa,exponent", "rsa,modulus", "rsa,r-squared"]

def twoKeys : List Item := List.flatten
  [[.beginNode "", .beginNode "signature"],
    [.beginNode "key-dev1", .prop "required" (cString "image")], keyItems 1 (2 ^ 2048 - 1),
    [.endNode, .beginNode "key-dev2"], keyItems 0xa875078f (modulusFor imageDigest),
    [.endNode, .endNode, .endNode]]

def twoKeysFdt : Fdt := writeFdt controlNames twoKeys (by decide +kernel)

def signedImage : List Item :=
  [.beginNode "", .beginNode "images", .beginNode "kernel@1", .beginNode "signature@1",
    .prop "algo" (cString "sha1,rsa2048"), .prop "key-name-hint" (cString "dev2"),
    .prop "value" (beBytes 256 signature), .endNode, .endNode, .endNode, .endNode]

def signedImageFdt : Fdt := writeFdt ["algo", "key-name-hint", "value"] signedImage (by decide +kernel)

def imageSha1 (_algo : ChecksumAlgo) (_data : List UInt8) : ℤ × List UInt8 := (0, imageDigest)

def keyResult (calculate : ChecksumAlgo → List UInt8 → ℤ × List UInt8)
    (modExp : KeyProp → List UInt8 → ℤ × List UInt8) (key : ℕ) : Prepared → Option ℤ
  | .ok (info, data, sig) =>
    rsaVerifyWithKeynode modExp info (calculate info.algo.checksum data).2 sig key
  | .error _ => none

/- The required key `dev1` verifies nothing; the hint leads to `dev2`. -/
theorem required_key_ignored :
    ¬ ∀ (calculate : ChecksumAlgo → List UInt8 → ℤ × List UInt8)
      (modExp : KeyProp → List UInt8 → ℤ × List UInt8) (control fit : Fdt) (imageNoffset : ℕ)
      (data : List UInt8) (noSigs : Bool),
      fitImageVerifyRequiredSigs calculate modExp control fit imageNoffset data = some (0, noSigs) →
        ImageKeysVerify calculate modExp control fit imageNoffset data := by
  intro hall
  have hrun : fitImageVerifyRequiredSigs imageSha1 exactModExp twoKeysFdt signedImageFdt 20
      [1, 2, 3, 4] = some (0, false) := by
    decide +kernel
  have hkey : KeyRequired twoKeysFdt "image" 24 :=
    ⟨8, by decide +kernel, by decide, by decide +kernel, by decide +kernel⟩
  obtain ⟨sig, hsig, hverify⟩ := hall _ _ _ _ _ _ _ hrun 24 hkey
  have hone : signatureNodes signedImageFdt 20 = [some 36] := by decide +kernel
  rw [hone, mem_singleton, some.injEq] at hsig
  subst hsig
  obtain ⟨info, data, value, hprep, -, hzero⟩ := hverify
  have hresult : keyResult imageSha1 exactModExp 24
      (imagePrepared twoKeysFdt signedImageFdt [1, 2, 3, 4] 36) = some einval := by
    decide +kernel
  simp only at hprep
  rw [hprep, keyResult, hzero] at hresult
  cases hresult

end UBoot.Fit
