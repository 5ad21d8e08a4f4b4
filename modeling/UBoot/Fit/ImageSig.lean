import UBoot.Fit.Regions
import UBoot.Rsa.Verify

/-!
# Signatures in a FIT (common/image-sig.c, lib/rsa/rsa-verify.c)

`fit_image_check_sig` and `fit_config_check_sig` prepare what a signature node is checked against,
and `rsa_verify` tries one key node after the other. The digest and the modular exponentiation are
parameters.
-/

namespace UBoot.Fit

open Memory Rsa

/- A failed check with the text for `err_msg`, or a call that does not return or leaves an
array. -/
inductive Fail
  | msg (text : String)
  | stuck
deriving DecidableEq, Repr

def call {α : Type} : Option α → Except Fail α
  | some a => .ok a
  | none => .error .stuck

def eperm : ℤ := -1
def enoent : ℤ := -2
def ebadf : ℤ := -9

def sigNodename : List UInt8 := chars "signature"

/- `struct image_sig_algo`: `verify` is `rsa_verify` for all of them. -/
structure SigAlgo where
  name : String
  checksum : ChecksumAlgo
deriving DecidableEq

def imageSigAlgos : List SigAlgo :=
  List.zipWith SigAlgo.mk ["sha1,rsa2048", "sha256,rsa2048", "sha256,rsa4096"] checksumAlgos

def imageGetSigAlgo (fit : Fdt) (name : ℕ) : Option SigAlgo :=
  imageSigAlgos.find? fun algo => stringAt fit.mem name (chars algo.name)

/- `struct image_sign_info`; `keyname` is an address in the FIT. -/
structure SignInfo where
  keyname : Option ℕ
  fit : Fdt
  algo : SigAlgo
  fdtBlob : Fdt
  requiredKeynode : ℤ

section Setup

variable (fit control : Fdt)

def fitImageSetupVerify (noffset : ℕ) (requiredKeynode : ℤ) : Except Fail SignInfo := do
  let algoName ← call (fdtGetprop fit noffset "algo")
  match algoName with
  | none => .error (.msg "Can't get hash algo property")
  | some (name, _) =>
    let keyname ← call (fdtGetprop fit noffset "key-name-hint")
    match imageGetSigAlgo fit name with
    | none => .error (.msg "Unknown signature algorithm")
    | some algo => .ok ⟨keyname.map Prod.fst, fit, algo, control, requiredKeynode⟩

def fitImageHashGetValue (noffset : ℕ) : Except Fail (List UInt8) := do
  let value ← call (fdtGetprop fit noffset "value")
  match value with
  | none => .error (.msg "Can't get hash value property")
  | some (data, len) => .ok (bytes fit.mem data len)

def imageMaxHashedNodes : ℕ := 100

/- The bytes of `hashed-nodes`; a length above 2^31 is negative, and the loop ends at once. -/
def hashedNodes (noffset : ℕ) : Except Fail (List UInt8) := do
  let prop ← call (fdtGetprop fit noffset "hashed-nodes")
  match prop with
  | none => .ok []
  | some (data, len) => .ok (if len < 2 ^ 31 then bytes fit.mem data len else [])

/- The strings of the list; a rest that does not end in a NUL does not fit in `node_inc`. -/
def nodeInc (prop : List UInt8) : Except Fail (List (List UInt8)) :=
  if prop.getLast? = some 0 then .ok (prop.dropLast.splitOn 0) else .error .stuck

/- `fdt_regions` and the bytes behind them as `fit_region_make_list` passes them on. -/
def regionBytes (r : Region) : List UInt8 := bytes fit.mem r.offset r.size

def hashedStrings (noffset : ℕ) : Except Fail (List Region) := do
  let strings ← call (fdtGetprop fit noffset "hashed-strings")
  match strings with
  | none => .ok []
  | some (data, _) =>
    .ok [⟨(fit.offDtStrings + be32 fit.mem data) % 2 ^ 32, be32 fit.mem (data + 4)⟩]

def configRegions (noffset : ℕ) : Except Fail (List (List UInt8) × List Region) := do
  let prop ← hashedNodes fit noffset
  let count := prop.count 0
  if count = 0 then .error (.msg "Can't get hashed-nodes property")
  else if imageMaxHashedNodes < count then
    .error (.msg "Number of hashed nodes exceeds maximum")
  else
    let inc ← nodeInc prop
    let maxRegions := 20 + count * 7
    match fdtFindRegions fit inc [chars "data"] (maxRegions - 1) 200 false with
    | .error .fault => .error .stuck
    | .error (.ret _) => .error (.msg "Failed to hash configuration")
    | .ok (n, regions) =>
      if n = 0 then .error (.msg "No data to hash")
      else if maxRegions - 1 ≤ n then .error (.msg "Too many hash regions")
      else
        let strings ← hashedStrings fit noffset
        .ok (inc, regions ++ strings)

end Setup

section Rsa

variable (calculate : ChecksumAlgo → List UInt8 → ℤ × List UInt8)
  (modExp : KeyProp → List UInt8 → ℤ × List UInt8)

/- The words that the exponentiation reads at `data`. -/
def keyWords (mem : Mem) (numBits : Int32) (data : ℕ) : List UInt8 :=
  bytes mem data (4 * (numBits.toInt.toNat / 32))

def rsaVerifyWithKeynode (info : SignInfo) (hash sig : List UInt8) (node : ℤ) : Option ℤ :=
  if node < 0 then some ebadf
  else do
    let blob := info.fdtBlob
    let bits ← fdtdecGetInt blob node "rsa,num-bits" 0
    let numBits := Int32.ofNat bits
    let n0inv ← fdtdecGetInt blob node "rsa,n0-inverse" 0
    let exponent ← fdtGetprop blob node "rsa,exponent"
    let modulus ← fdtGetprop blob node "rsa,modulus"
    let rr ← fdtGetprop blob node "rsa,r-squared"
    let prop : KeyProp :=
      { rr := rr.map fun (data, _) => keyWords blob.mem numBits data
        modulus := modulus.map fun (data, _) => keyWords blob.mem numBits data
        publicExponent := (exponent.filter fun (_, len) => 8 ≤ len).map fun (data, _) =>
          UInt64.ofNat (be32 blob.mem data * 2 ^ 32 + be32 blob.mem (data + 4))
        n0inv := UInt32.ofNat n0inv
        numBits := numBits }
    if bits = 0 ∨ modulus = none then some efault
    else rsaVerifyKey modExp prop sig hash info.algo.checksum

/- `snprintf(name, sizeof(name), "key-%s", info->keyname)` -/
def hintName (info : SignInfo) : List UInt8 :=
  chars "key-" ++ match info.keyname with
    | none => chars "<NULL>"
    | some p => (bytes info.fit.mem p 95).takeWhile (· ≠ 0)

/- The nodes at depth 1 that the last loop finds: it walks the FIT from the offset that
`/signature` has in the control device tree. `none` when it does not get to the next one. -/
def walkNodes (fit : Fdt) (node : ℤ) : ℕ → Option (ℤ × ℤ) → List (Option ℤ)
  | _, none => [none]
  | 0, some _ => [none]
  | fuel + 1, some (noffset, ndepth) =>
    if 0 ≤ noffset ∧ 0 < ndepth then
      let rest := walkNodes fit node fuel (fdtNextNode fit noffset ndepth)
      if ndepth = 1 ∧ noffset ≠ node then some noffset :: rest else rest
    else []

/- Each key in turn; the result of the last one if none of them fits. -/
def tryKeys (verify : ℤ → Option ℤ) : ℤ → List (Option ℤ) → Option ℤ
  | ret, [] => some ret
  | _, none :: _ => none
  | _, some node :: nodes =>
    match verify node with
    | none => none
    | some ret => if ret = 0 then some 0 else tryKeys verify ret nodes

/- The key nodes that are tried when no key is required or the required one does not fit. -/
def fallbackNodes (info : SignInfo) (sigNode : ℤ) : List (Option ℤ) :=
  match fdtSubnodeOffset info.fdtBlob sigNode (hintName info) with
  | none => [none]
  | some node =>
    some node :: walkNodes info.fit node (info.fit.sizeDtStruct + 1)
      (fdtNextNode info.fit sigNode 0)

def rsaVerify (info : SignInfo) (data sig : List UInt8) : Option ℤ :=
  if info.algo.checksum.padLen < info.algo.checksum.checksumLen then some einval
  else do
    let sigNode ← fdtSubnodeOffset info.fdtBlob 0 sigNodename
    if sigNode < 0 then some enoent
    else
      let (ret, hash) := calculate info.algo.checksum data
      if ret < 0 then some einval
      else
        let required := if info.requiredKeynode ≠ -1 then [some info.requiredKeynode] else []
        tryKeys (rsaVerifyWithKeynode modExp info hash sig) einval
          (required ++ fallbackNodes info sigNode)

/- `if (info.algo->verify(...))` -/
def algoVerify (info : SignInfo) (data sig : List UInt8) : Except Fail Unit := do
  let ret ← call (rsaVerify calculate modExp info data sig)
  if ret ≠ 0 then .error (.msg "Verification failed") else .ok ()

variable (control fit : Fdt)

def fitImageCheckSig (data : List UInt8) (requiredKeynode : ℤ) (noffset : ℕ) :
    Except Fail Unit := do
  let info ← fitImageSetupVerify fit control noffset requiredKeynode
  let value ← fitImageHashGetValue fit noffset
  algoVerify calculate modExp info data value

def fitConfigCheckSig (requiredKeynode : ℤ) (noffset : ℕ) : Except Fail Unit := do
  let info ← fitImageSetupVerify fit control noffset requiredKeynode
  let value ← fitImageHashGetValue fit noffset
  let (_, regions) ← configRegions fit noffset
  algoVerify calculate modExp info (regions.flatMap (regionBytes fit)) value

def signatureNodes (noffset : ℕ) : List (Option ℕ) :=
  (subnodes fit noffset).filter fun n => n.all fun offset => nameStarts fit offset sigNodename

/- The loop over the signature nodes. The check of `noffset` behind it is never true: the
functions that end it return no other error than `FDT_ERR_NOTFOUND`. -/
def verifySigs (check : ℕ → Except Fail Unit) : List (Option ℕ) → Option ℤ
  | [] => some eperm
  | none :: _ => none
  | some noffset :: rest =>
    match check noffset with
    | .ok () => some 0
    | .error .stuck => none
    | .error (.msg _) => verifySigs check rest

def fitImageVerifySig (imageNoffset : ℕ) (data : List UInt8) : Option ℤ :=
  verifySigs (fitImageCheckSig calculate modExp control fit data (-1))
    (signatureNodes fit imageNoffset)

def fitConfigVerifySig (confNoffset : ℕ) (sigOffset : ℤ) : Option ℤ :=
  verifySigs (fitConfigCheckSig calculate modExp control fit sigOffset)
    (signatureNodes fit confNoffset)

/- `required` is present and equal to `kind`. -/
def isRequired (kind : String) (noffset : ℕ) : Option Bool :=
  (fdtGetprop control noffset "required").map fun prop =>
    prop.any fun (data, _) => stringAt control.mem data (chars kind)

/- The loop over the key nodes: the result and `verify_count`. -/
def verifyRequired (kind : String) (verify : ℕ → Option ℤ) : ℕ → List (Option ℕ) → Option (ℤ × ℕ)
  | count, [] => some (0, count)
  | _, none :: _ => none
  | count, some noffset :: rest => do
    let required ← isRequired control kind noffset
    if required then
      let ret ← verify noffset
      if ret ≠ 0 then some (ret, 0) else verifyRequired kind verify (count + 1) rest
    else verifyRequired kind verify count rest

/- Returns `*no_sigsp` too. -/
def fitImageVerifyRequiredSigs (imageNoffset : ℕ) (data : List UInt8) : Option (ℤ × Bool) := do
  let sigNode ← fdtSubnodeOffset control 0 sigNodename
  if sigNode < 0 then some (0, true)
  else
    let (ret, count) ← verifyRequired control "image"
      (fun _ => fitImageVerifySig calculate modExp control fit imageNoffset data) 0
      (subnodes control sigNode)
    some (ret, count == 0)

def fitConfigVerifyRequiredSigs (confNoffset : ℕ) : Option ℤ := do
  let sigNode ← fdtSubnodeOffset control 0 sigNodename
  if sigNode < 0 then some 0
  else
    let (ret, _) ← verifyRequired control "conf"
      (fun noffset => fitConfigVerifySig calculate modExp control fit confNoffset noffset) 0
      (subnodes control sigNode)
    some ret

end Rsa

end UBoot.Fit
