import UBoot.Fit.Coverage
import UBoot.Fit.RequiredKeys

/-!
# What the signature of a configuration covers

`fit_config_verify_sig` hashes the nodes that the first signature node that verifies lists. A
property of a listed node that is not called "data" is the same in any two FITs accepted for one
signature.
-/

namespace UBoot.Fit

open Memory Runs Rsa Limbs List Option

section Accepted

variable (calculate : ChecksumAlgo → List UInt8 → ℤ × List UInt8)
  (modExp : KeyProp → List UInt8 → ℤ × List UInt8) (control : Fdt)

/- `sig` is the first signature node of the configuration that passes its check. -/
def AcceptedBy (fit : Fdt) (conf : ℕ) (key : ℤ) (sig : ℕ) : Prop :=
  ∃ failed rest, signatureNodes fit conf = failed ++ some sig :: rest ∧
    (∀ node ∈ failed, ∃ n text, node = some n ∧
      fitConfigCheckSig calculate modExp control fit key n = .error (.msg text)) ∧
    fitConfigCheckSig calculate modExp control fit key sig = .ok ()

/- An accepted configuration, with the list of nodes and the regions that were hashed. -/
structure Accepted where
  fit : Fdt
  conf : ℕ
  key : ℤ
  sig : ℕ
  inc : List (List UInt8)
  regions : List Region
  accepted : AcceptedBy calculate modExp control fit conf key sig
  hashed : configRegions fit sig = .ok (inc, regions)

variable {calculate modExp control}

namespace Accepted

def tags (a : Accepted calculate modExp control) : List Mark := (marks a.fit).getD []

def props (a : Accepted calculate modExp control) : List Mark :=
  a.tags.filter (listedProp a.fit a.inc [chars "data"])

def content (a : Accepted calculate modExp control) : List UInt8 :=
  a.regions.flatMap (regionBytes a.fit)

def algo (a : Accepted calculate modExp control) : Except Fail SigAlgo :=
  (fitImageSetupVerify a.fit control a.sig a.key).map SignInfo.algo

structure SameSignature (a a' : Accepted calculate modExp control) : Prop where
  algo : a.algo = a'.algo
  value : fitImageHashGetValue a.fit a.sig = fitImageHashGetValue a'.fit a'.sig

end Accepted

variable (calculate modExp control) in
def ExactCheck (digestOf : ChecksumAlgo → List UInt8 → List UInt8) : Prop :=
  ∀ (info : SignInfo) (data value : List UInt8) (node : ℤ), info.fdtBlob = control →
    rsaVerifyWithKeynode modExp info (calculate info.algo.checksum data).2 value node = some 0 →
    (calculate info.algo.checksum data).2 = digestOf info.algo.checksum value

theorem verifySigs_zero {check : ℕ → Except Fail Unit} {nodes : List (Option ℕ)}
    (h : verifySigs check nodes = some 0) :
    ∃ failed sig rest, nodes = failed ++ some sig :: rest ∧
      (∀ node ∈ failed, ∃ n text, node = some n ∧ check n = .error (.msg text)) ∧
      check sig = .ok () := by
  induction nodes with
  | nil => cases h
  | cons node nodes ih =>
    cases node with
    | none => cases h
    | some n =>
      rw [verifySigs] at h
      cases hcheck : check n with
      | ok u => exact ⟨[], n, nodes, rfl, by simp, hcheck⟩
      | error e =>
        rw [hcheck] at h
        cases e with
        | stuck => cases h
        | msg text =>
          obtain ⟨failed, sig, rest, rfl, hfailed, hsig⟩ := ih h
          refine ⟨some n :: failed, sig, rest, rfl, ?_, hsig⟩
          intro x hx
          cases mem_cons.mp hx with
          | inl heq => exact ⟨n, text, heq, hcheck⟩
          | inr hx => exact hfailed x hx

theorem tryKeys_zero {verify : ℤ → Option ℤ} {ret : ℤ} {nodes : List (Option ℤ)} (hret : ret ≠ 0)
    (h : tryKeys verify ret nodes = some 0) : ∃ node, verify node = some 0 := by
  induction nodes generalizing ret with
  | nil => exact absurd (some.inj h) hret
  | cons node nodes ih =>
    cases node with
    | none => cases h
    | some node =>
      rw [tryKeys] at h
      cases hv : verify node with
      | none =>
        rw [hv] at h
        cases h
      | some r =>
        rw [hv] at h
        simp only at h
        split at h
        · next hr => exact ⟨node, by rw [hv, hr]⟩
        · next hr => exact ih hr h

variable {info : SignInfo}

theorem rsaVerify_zero {data sig : List UInt8}
    (h : rsaVerify calculate modExp info data sig = some 0) :
    ∃ node, rsaVerifyWithKeynode modExp info (calculate info.algo.checksum data).2 sig node = some 0 := by
  unfold rsaVerify at h
  split at h
  · cases h
  · obtain ⟨sigNode, -, h⟩ := bind_eq_some_iff.mp h
    split at h
    · cases h
    · simp only at h
      split at h
      · cases h
      · exact tryKeys_zero (by decide) h

theorem algoVerify_ok {data sig : List UInt8}
    (h : algoVerify calculate modExp info data sig = .ok ()) :
    rsaVerify calculate modExp info data sig = some 0 := by
  unfold algoVerify at h
  cases hret : rsaVerify calculate modExp info data sig with
  | none =>
    rw [hret] at h
    cases h
  | some ret =>
    rw [hret] at h
    simp only [call, bind, Except.bind] at h
    split at h
    · cases h
    · next hzero => rw [not_not.mp hzero]

variable {fit : Fdt} {sig : ℕ}

theorem fitConfigCheckSig_ok {key : ℤ}
    (h : fitConfigCheckSig calculate modExp control fit key sig = .ok ()) :
    ∃ info value inc regions, fitImageSetupVerify fit control sig key = .ok info ∧
      fitImageHashGetValue fit sig = .ok value ∧ configRegions fit sig = .ok (inc, regions) ∧
      rsaVerify calculate modExp info (regions.flatMap (regionBytes fit)) value = some 0 := by
  unfold fitConfigCheckSig at h
  cases hinfo : fitImageSetupVerify fit control sig key with
  | error e =>
    rw [hinfo] at h
    cases h
  | ok info =>
    cases hvalue : fitImageHashGetValue fit sig with
    | error e =>
      rw [hinfo, hvalue] at h
      cases h
    | ok value =>
      cases hregions : configRegions fit sig with
      | error e =>
        rw [hinfo, hvalue, hregions] at h
        cases h
      | ok res =>
        obtain ⟨inc, regions⟩ := res
        rw [hinfo, hvalue, hregions] at h
        exact ⟨info, value, inc, regions, rfl, rfl, rfl, algoVerify_ok h⟩

theorem fitImageSetupVerify_blob {key : ℤ}
    (h : fitImageSetupVerify fit control sig key = .ok info) : info.fdtBlob = control := by
  unfold fitImageSetupVerify at h
  cases halgo : fdtGetprop fit sig "algo" with
  | none =>
    rw [halgo] at h
    cases h
  | some algo =>
    cases algo with
    | none =>
      rw [halgo] at h
      cases h
    | some name =>
      cases hkey : fdtGetprop fit sig "key-name-hint" with
      | none =>
        rw [halgo, hkey] at h
        cases h
      | some keyname =>
        rw [halgo, hkey] at h
        simp only [call, bind, Except.bind] at h
        split at h
        · cases h
        · obtain rfl := Except.ok.inj h
          rfl

theorem configRegions_ok {inc : List (List UInt8)} {regions : List Region}
    (h : configRegions fit sig = .ok (inc, regions)) :
    ∃ ms strings, marks fit = some ms ∧
      regions = (addRuns [] (pieces fit inc [chars "data"] false ms)).map (toRegion fit) ++
        strings := by
  unfold configRegions at h
  cases hprop : hashedNodes fit sig with
  | error e =>
    rw [hprop] at h
    cases h
  | ok prop =>
    rw [hprop] at h
    simp only [bind, Except.bind] at h
    split at h
    · cases h
    · split at h
      · cases h
      · cases hinc : nodeInc prop with
        | error e =>
          rw [hinc] at h
          cases h
        | ok inc' =>
          rw [hinc] at h
          simp only at h
          split at h
          · cases h
          · cases h
          · next n found hfind =>
            split at h
            · cases h
            · split at h
              · cases h
              · next hcount =>
                cases hstrings : hashedStrings fit sig with
                | error e =>
                  rw [hstrings] at h
                  cases h
                | ok strings =>
                  rw [hstrings] at h
                  obtain ⟨rfl, rfl⟩ := Prod.mk.inj (Except.ok.inj h)
                  obtain ⟨ms, hms, hregs, -⟩ := fdtFindRegions_runs hfind (by omega)
                  exact ⟨ms, strings, hms, by rw [hregs]⟩

namespace Accepted

variable (a : Accepted calculate modExp control)

theorem marks_tags : marks a.fit = some a.tags ∧
    ∃ strings, a.regions = (addRuns [] (pieces a.fit a.inc [chars "data"] false a.tags)).map
      (toRegion a.fit) ++ strings := by
  obtain ⟨ms, strings, hms, hregions⟩ := configRegions_ok a.hashed
  have htags : a.tags = ms := by rw [tags, hms, getD_some]
  rw [htags]
  exact ⟨hms, strings, hregions⟩

theorem props_inside {m : Mark} (hm : m ∈ a.props) : Inside a.fit a.regions m := by
  obtain ⟨hms, strings, hregions⟩ := a.marks_tags
  obtain ⟨hmem, hlisted⟩ := mem_filter.mp hm
  rw [listedProp_eq, Bool.and_eq_true] at hlisted
  obtain ⟨r, hr, hin⟩ := included_inside hms hmem hlisted.2
  rw [hregions]
  exact ⟨r, mem_append_left _ hr, hin⟩

theorem tags_whole : ∀ m ∈ a.tags, Whole a.fit m := marksFrom_whole a.marks_tags.1 (Nat.dvd_zero 4)

theorem tags_finEnded : FinEnded a.tags := marksFrom_finEnded a.marks_tags.1

def kept : List Mark := keptMarks a.fit a.inc [chars "data"] false a.tags

theorem content_kept : ∃ strings, a.content = a.kept.flatMap (Mark.raw a.fit) ++ strings := by
  obtain ⟨hms, strings, hregions⟩ := a.marks_tags
  refine ⟨strings.flatMap (regionBytes a.fit), ?_⟩
  rw [content, hregions, flatMap_append, regions_content hms]
  rfl

variable {a} {a' : Accepted calculate modExp control}

theorem SameSignature.content {digestOf : ChecksumAlgo → List UInt8 → List UInt8}
    (h : SameSignature a a') (hexact : ExactCheck calculate modExp control digestOf)
    (hinj : ∀ algo, (calculate algo a.content).2 = (calculate algo a'.content).2 →
      a.content = a'.content) : a.content = a'.content := by
  obtain ⟨-, -, -, -, hcheck⟩ := a.accepted
  obtain ⟨-, -, -, -, hcheck'⟩ := a'.accepted
  obtain ⟨info, value, inc, regions, hinfo, hvalue, hregions, hrsa⟩ := fitConfigCheckSig_ok hcheck
  obtain ⟨info', value', inc', regions', hinfo', hvalue', hregions', hrsa'⟩ :=
    fitConfigCheckSig_ok hcheck'
  obtain ⟨rfl, rfl⟩ := Prod.mk.inj (Except.ok.inj (a.hashed.symm.trans hregions))
  obtain ⟨rfl, rfl⟩ := Prod.mk.inj (Except.ok.inj (a'.hashed.symm.trans hregions'))
  obtain rfl := Except.ok.inj (hvalue.symm.trans (h.value.trans hvalue'))
  have halgo : info.algo = info'.algo := by
    have heq := h.algo
    rw [Accepted.algo, Accepted.algo, hinfo, hinfo'] at heq
    exact Except.ok.inj heq
  obtain ⟨node, hnode⟩ := rsaVerify_zero hrsa
  obtain ⟨node', hnode'⟩ := rsaVerify_zero hrsa'
  have hdigest := hexact info _ value node (fitImageSetupVerify_blob hinfo) hnode
  have hdigest' := hexact info' _ value node' (fitImageSetupVerify_blob hinfo') hnode'
  rw [← halgo] at hdigest'
  exact hinj info.algo.checksum (hdigest.trans hdigest'.symm)

theorem kept_eq (h : a.content = a'.content) :
    a.kept.map (fun m => (m.tag, m.raw a.fit)) = a'.kept.map fun m => (m.tag, m.raw a'.fit) := by
  obtain ⟨strings, hcontent⟩ := a.content_kept
  obtain ⟨strings', hcontent'⟩ := a'.content_kept
  rw [hcontent, hcontent'] at h
  have hw : ∀ m ∈ a.kept, Whole a.fit m := fun m hm => a.tags_whole m (keptMarks_subset _ _ m hm)
  have hw' : ∀ m ∈ a'.kept, Whole a'.fit m := fun m hm => a'.tags_whole m (keptMarks_subset _ _ m hm)
  obtain ⟨hraw, htag⟩ := raws_eq hw hw' (a.tags_finEnded.keptMarks false)
    (a'.tags_finEnded.keptMarks false) h
  have hzip := congrArg₂ List.zip htag hraw
  rwa [zip_map', zip_map'] at hzip

theorem props_raw : a.props.map (Mark.raw a.fit) =
    (((a.kept.map fun m => (m.tag, m.raw a.fit)).filter fun t => t.1 == .prop).map Prod.snd) := by
  rw [props, ← filter_keptMarks false a.tags, List.filter_map, List.map_map]
  rfl

theorem props_placed (h : Anchored a.inc a.tags) :
    a.props.map (fun m => (m.place a.fit, m.raw a.fit)) =
      placedProps [] (a.kept.map fun m => (m.tag, m.raw a.fit)) :=
  placedProps_kept false (marksFrom_nested a.marks_tags.1) h a.tags_whole a.tags_finEnded nofun

end Accepted

/- For every FIT that is accepted: the properties of the listed nodes are hashed, and they are
those of every other FIT with the same signature, also in their places if the nodes around the
listed ones are hashed. -/
theorem config_signature_covers (calculate : ChecksumAlgo → List UInt8 → ℤ × List UInt8)
    (modExp : KeyProp → List UInt8 → ℤ × List UInt8) (control : Fdt) :
    (∀ fit conf key, fitConfigVerifySig calculate modExp control fit conf key = some 0 →
      ∃ a : Accepted calculate modExp control, a.fit = fit ∧ a.conf = conf ∧ a.key = key ∧
        marks fit = some a.tags ∧ ∀ m ∈ a.props, Inside fit a.regions m) ∧
    ∀ (a a' : Accepted calculate modExp control)
      (digestOf : ChecksumAlgo → List UInt8 → List UInt8),
      a.SameSignature a' → ExactCheck calculate modExp control digestOf →
      (∀ algo, (calculate algo a.content).2 = (calculate algo a'.content).2 →
        a.content = a'.content) →
      a.props.map (Mark.raw a.fit) = a'.props.map (Mark.raw a'.fit) ∧
        (Anchored a.inc a.tags → Anchored a'.inc a'.tags →
          a.props.map (fun m => (m.place a.fit, m.raw a.fit)) =
            a'.props.map fun m => (m.place a'.fit, m.raw a'.fit)) := by
  constructor
  · intro fit conf key h
    obtain ⟨failed, sig, rest, hnodes, hfailed, hsig⟩ := verifySigs_zero h
    obtain ⟨-, -, inc, regions, -, -, hregions, -⟩ := fitConfigCheckSig_ok hsig
    let a : Accepted calculate modExp control :=
      ⟨fit, conf, key, sig, inc, regions, ⟨failed, rest, hnodes, hfailed, hsig⟩, hregions⟩
    exact ⟨a, rfl, rfl, rfl, a.marks_tags.1, fun m hm => a.props_inside hm⟩
  · intro a a' digestOf hsame hexact hinj
    have hkept := Accepted.kept_eq (hsame.content hexact hinj)
    constructor
    · rw [Accepted.props_raw, Accepted.props_raw, hkept]
    · intro hanch hanch'
      rw [Accepted.props_placed hanch, Accepted.props_placed hanch', hkept]

end Accepted

section Refers

variable (fit : Fdt)

/- `fit_image_get_node` -/
def fitImageGetNode (uname : List UInt8) : Option ℤ := do
  let images ← fdtSubnodeOffset fit 0 (chars "images")
  if images < 0 then some images else fdtSubnodeOffset fit images uname

def imageProps : List String := ["kernel", "ramdisk", "fdt", "setup", "loadables"]

/- An image that the configuration names: in the string of a property, or in one of the strings
of "loadables". -/
def ImageOf (conf node : ℕ) : Prop :=
  ∃ prop ∈ imageProps, ∃ data len i uname, fdtGetprop fit conf prop = some (some (data, len)) ∧
    (i = 0 ∨ prop = "loadables" ∧ i < len ∧ fit.mem (data + i - 1) = 0) ∧
    stringAt fit.mem (data + i) uname = true ∧ 0 ∉ uname ∧ fitImageGetNode fit uname = some (node : ℤ)

def ConfigNode (conf node : ℕ) : Prop :=
  node = conf ∨ ImageOf fit conf node ∨ ∃ image, ImageOf fit conf image ∧
    some node ∈ subnodes fit image ∧ nameStarts fit node (chars "hash") = true

end Refers

def confNames : List String :=
  ["data", "type", "algo", "value", "kernel", "ramdisk", "key-name-hint", "hashed-nodes",
    "hashed-strings"]

def signedNodes : List String :=
  ["/", "/configurations/conf@1", "/images/kernel@1", "/images/kernel@1/hash@1"]

def ramdiskItems (ramdisk : List UInt8) : List Item := List.flatten
  [[.beginNode "", .beginNode "images"],
    [.beginNode "kernel@1", .prop "data" [1, 2, 3, 4], .prop "type" (cString "kernel"),
      .beginNode "hash@1", .prop "algo" (cString "sha1"), .prop "value" imageDigest, .endNode,
      .endNode],
    [.beginNode "ramdisk@1", .prop "data" ramdisk, .prop "type" (cString "ramdisk"), .endNode,
      .endNode],
    [.beginNode "configurations", .beginNode "conf@1", .prop "kernel" (cString "kernel@1"),
      .prop "ramdisk" (cString "ramdisk@1")],
    [.beginNode "signature@1", .prop "algo" (cString "sha1,rsa2048"),
      .prop "key-name-hint" (cString "dev"), .prop "value" (beBytes 256 signature),
      .prop "hashed-nodes" (signedNodes.flatMap cString),
      .prop "hashed-strings" (be32Bytes 0 ++ be32Bytes (confNames.flatMap cString).length), .endNode],
    [.endNode, .endNode, .endNode]]

def ramdiskFdt : Fdt := writeFdt confNames (ramdiskItems [5, 6, 7, 8]) (by decide +kernel)

def otherRamdiskFdt : Fdt := writeFdt confNames (ramdiskItems [9, 9, 9, 9]) (by decide +kernel)

def confDigest : List UInt8 :=
  [0xee, 0x3f, 0x6e, 0x09, 0x9b, 0x9c, 0x24, 0xc3, 0xdd, 0x9f, 0x70, 0xf2, 0x64, 0xf5, 0x38, 0x6d,
    0x2e, 0x60, 0x51, 0x91]

def confSha1 (_algo : ChecksumAlgo) (_data : List UInt8) : ℤ × List UInt8 := (0, confDigest)

def confKeyItems : List Item := List.flatten
  [[.beginNode "", .beginNode "signature", .beginNode "key-dev", .prop "required" (cString "conf")],
    keyItems 0xe52c8f71 (modulusFor confDigest), [.endNode, .endNode, .endNode]]

def confKeyFdt : Fdt := writeFdt controlNames confKeyItems (by decide +kernel)

def ramdiskRegions : List Region := [⟨40, 36⟩, ⟨92, 92⟩, ⟨240, 100⟩, ⟨752, 20⟩, ⟨772, 78⟩]

def ramdiskAccepted : Accepted confSha1 exactModExp confKeyFdt where
  fit := ramdiskFdt
  conf := 224
  key := 24
  sig := 284
  inc := signedNodes.map chars
  regions := ramdiskRegions
  accepted := ⟨[], [], by decide +kernel, by simp, by decide +kernel⟩
  hashed := by decide +kernel

def otherRamdiskAccepted : Accepted confSha1 exactModExp confKeyFdt where
  fit := otherRamdiskFdt
  conf := 224
  key := 24
  sig := 284
  inc := signedNodes.map chars
  regions := ramdiskRegions
  accepted := ⟨[], [], by decide +kernel, by simp, by decide +kernel⟩
  hashed := by decide +kernel

/- Both FITs are accepted, and they agree in what has been signed. -/
theorem ramdisk_signature_covers :
    (∃ a : Accepted confSha1 exactModExp confKeyFdt, a.fit = ramdiskFdt ∧ a.conf = 224 ∧ a.key = 24 ∧
      marks ramdiskFdt = some a.tags ∧ ∀ m ∈ a.props, Inside ramdiskFdt a.regions m) ∧
    ramdiskAccepted.props.map (fun m => (m.place ramdiskFdt, m.raw ramdiskFdt)) =
      otherRamdiskAccepted.props.map fun m => (m.place otherRamdiskFdt, m.raw otherRamdiskFdt) := by
  obtain ⟨hcovers, hsame⟩ := config_signature_covers confSha1 exactModExp confKeyFdt
  refine ⟨hcovers ramdiskFdt 224 24 (by decide +kernel), ?_⟩
  have hpair := hsame ramdiskAccepted otherRamdiskAccepted (fun _ _ => confDigest)
    ⟨by decide +kernel, by decide +kernel⟩ (fun _ _ _ _ _ _ => rfl) (fun _ _ => by decide +kernel)
  exact hpair.2 (by decide +kernel) (by decide +kernel)

/- The configuration names the ramdisk, and the type of the ramdisk is not hashed. -/
theorem unsigned_ramdisk_accepted :
    ¬ ∀ (calculate : ChecksumAlgo → List UInt8 → ℤ × List UInt8)
      (modExp : KeyProp → List UInt8 → ℤ × List UInt8) (control : Fdt)
      (a : Accepted calculate modExp control) (m : Mark), m ∈ a.tags → m.tag = .prop →
      excluded a.fit [chars "data"] m.offset = false →
      (∃ node ∈ m.nodes.head?, ConfigNode a.fit a.conf node.1) → Inside a.fit a.regions m := by
  intro hall
  have htype : ∃ m ∈ ramdiskAccepted.tags, m.tag = .prop ∧
      excluded ramdiskFdt [chars "data"] m.offset = false ∧ m.nodes.head?.map Prod.fst = some 144 ∧
      ¬Inside ramdiskFdt ramdiskRegions m := by
    decide +kernel
  obtain ⟨m, hm, htag, hexc, hhead, hout⟩ := htype
  obtain ⟨node, hnode, hoff⟩ := map_eq_some_iff.mp hhead
  have himage : ImageOf ramdiskFdt 224 144 :=
    ⟨"ramdisk", by decide, 312, 10, 0, chars "ramdisk@1", by decide +kernel, .inl rfl,
      by decide +kernel, by decide +kernel, by decide +kernel⟩
  refine hout (hall _ _ _ ramdiskAccepted m hm htag hexc ⟨node, hnode, ?_⟩)
  rw [hoff]
  exact .inr (.inl himage)

end UBoot.Fit
