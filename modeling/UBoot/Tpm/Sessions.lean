import UBoot.Tpm.Commands

/-!
# Authorisation sessions (lib/tpm.c)

The OIAP session, the authentication blocks of requests and responses, and the two commands that use
them. SHA-1 is a parameter; `sha1_hmac` (lib/sha1.c) is built from it.
-/

namespace UBoot.Tpm

open Access Limbs

def digestLength : ℕ := 20
def tpmRequestAuthLength : ℕ := 45
def tpmResponseAuthLength : ℕ := 41
def tpmKey12MaxLength : ℕ := 618
def tpmPubkeyMaxLength : ℕ := 288

section Auth

variable (host : Host)

def hmacPad (pad : UInt8) (key : List UInt8) : List UInt8 :=
  (List.range 64).map fun i => pad ^^^ key.getD i 0

def sha1Hmac (key input : List UInt8) : List UInt8 :=
  host.sha1 (hmacPad 0x5c key ++ host.sha1 (hmacPad 0x36 key ++ input))

/- The bytes `[first, last)` of a request. -/
def segment (request : List UInt8) (first last : ℕ) : List UInt8 := (request.take last).drop first

/- The session with its new nonce, and the authentication block. `hmac_data` is hashed into the nonce
with the 41 bytes behind the digest as they stand on the stack. -/
def createRequestAuth (request : List UInt8) (requestLen0 handlesLen : ℕ) (session : Session)
    (auth : List UInt8) : ℕ × Session × List UInt8 :=
  if session.valid = false then (tpmLibError, session, [])
  else
    let digest := host.sha1 (segment request 6 10 ++
      if 10 + handlesLen < requestLen0 then segment request (10 + handlesLen) requestLen0 else [])
    let nonceOdd := host.sha1 (session.nonceOdd ++ digest ++ host.fresh 41)
    let hmac := sha1Hmac host auth (digest ++ session.nonceEven ++ nonceOdd ++ [1])
    (0, { session with nonceOdd := nonceOdd }, be32 session.handle ++ nonceOdd ++ [1] ++ hmac)

/- The parameters that are hashed; `sha1_update` takes an `unsigned int`. -/
def hashedParams (r : Reply) (responseLen0 handlesLen : ℕ) : Traced Use (List UInt8) :=
  if 10 + handlesLen < responseLen0 then
    readBytes host r (10 + handlesLen) ((responseLen0 - 10 - handlesLen) % 2 ^ 32)
  else pure []

/- `responseLen0` and `authAt` are in `size_t`. -/
def verifyResponseAuth (commandCode : ℕ) (r : Reply) (responseLen0 handlesLen : ℕ) (session : Session)
    (authAt : ℕ) (auth : List UInt8) : Traced Use (ℕ × Session) :=
  if session.valid = false then pure (tpmAuthfail, session)
  else if responseLen0 < 10 then pure (tpmLibError, session)
  else do
    let code ← readBytes host r 6 4
    let params ← hashedParams host r responseLen0 handlesLen
    let digest := host.sha1 (code ++ be32 commandCode ++ params)
    let nonceEven ← readBytes host r authAt digestLength
    let authContinue ← readBytes host r (authAt + 20) 1
    let session := { session with nonceEven := nonceEven }
    let computedAuth := sha1Hmac host auth (digest ++ nonceEven ++ session.nonceOdd ++ authContinue)
    let responseAuth ← readBytes host r (authAt + 21) digestLength
    pure (if computedAuth ≠ responseAuth then tpmAuthfail else 0, session)

def terminateRequest (authHandle : ℕ) : Option (List UInt8) :=
  let command : List UInt8 := [0x00, 0xc1, 0x00, 0x00, 0x00, 0x00, 0x00, 0x00, 0x00, 0xba,
    0x00, 0x00, 0x00, 0x00, 0x00, 0x00, 0x00, 0x02]
  packByteString host (host.fresh commandBufferSize) [.str 0 command, .dword 10 authHandle]

def tpmTerminateAuthSession (authHandle : ℕ) (t : State) : Traced Use (ℕ × State) :=
  match terminateRequest host authHandle with
  | none => pure (tpmLibError, t)
  | some request => do
    let session := if t.session.valid ∧ t.session.handle = authHandle then
      { t.session with valid := false } else t.session
    let (err, sent) ← tpmSendrecvCommand host request commandBufferSize t.sent
    pure (err, ⟨session, sent⟩)

def oiapCommand : List UInt8 := [0x00, 0xc1, 0x00, 0x00, 0x00, 0x0a, 0x00, 0x00, 0x00, 0x0a]

def endSession (t : State) : Traced Use State :=
  if t.session.valid then do
    let (_, t) ← tpmTerminateAuthSession host t.session.handle t
    pure t
  else pure t

def takeSession (r : Reply) (wantHandle : Bool) (t : State) : Traced Use Answer := do
  match ← unpackByteString host r 10 4 with
  | none => pure ⟨tpmLibError, [], t⟩
  | some handle =>
    let session := { t.session with handle := beValue handle }
    match ← unpackByteString host r 14 digestLength with
    | none => pure ⟨tpmLibError, [], { t with session := session }⟩
    | some nonceEven =>
      let session := { session with valid := true, nonceEven := nonceEven }
      pure ⟨0, if wantHandle then handle else [], { t with session := session }⟩

def tpmOiap (wantHandle : Bool) (t : State) : Traced Use Answer := do
  let t ← endSession host t
  sendThen host oiapCommand commandBufferSize t (fun err t => ⟨err, [], t⟩) fun r t =>
    takeSession host r wantHandle t

/- `if (!oiap_session.valid)`. -/
def openSession (t : State) : Traced Use Answer :=
  if t.session.valid then pure ⟨0, [], t⟩ else tpmOiap host false t

def refuse (err : ℕ) (t : State) : Answer :=
  ⟨err, [], if err = tpmAuthfail then { t with session := { t.session with valid := false } } else t⟩

def acceptResponse (commandCode handlesLen : ℕ) (auth : List UInt8)
    (finish : Reply → Traced Use (ℕ × List UInt8)) (r : Reply) (t : State) : Traced Use Answer := do
  let authAt := host.size (r.len + 2 ^ host.sizeBits - tpmResponseAuthLength)
  let (err, session) ← verifyResponseAuth host commandCode r authAt handlesLen t.session authAt auth
  if err ≠ 0 then pure ⟨err, [], { t with session := session }⟩
  else do
    let (err, out) ← finish r
    pure ⟨err, out, { t with session := session }⟩

def runAuthorised (request : List UInt8) (requestLen0 size commandCode handlesLen : ℕ) (auth : List UInt8)
    (finish : Reply → Traced Use (ℕ × List UInt8)) (t : State) : Traced Use Answer :=
  let (err, session, block) := createRequestAuth host request requestLen0 4 t.session auth
  let t := { t with session := session }
  if err ≠ 0 then pure ⟨err, [], t⟩
  else sendThen host (request.take requestLen0 ++ block) size t refuse
    (acceptResponse host commandCode handlesLen auth finish)

/- A command in the session, which is opened first if there is none. -/
def runInSession (request : Option (List UInt8)) (requestLen0 size commandCode handlesLen : ℕ)
    (auth : List UInt8) (finish : Reply → Traced Use (ℕ × List UInt8)) (t : State) :
    Traced Use Answer := do
  let first ← openSession host t
  if first.code ≠ 0 then pure ⟨first.code, [], first.state⟩
  else
    match request with
    | none => pure ⟨tpmLibError, [], first.state⟩
    | some request =>
      runAuthorised host request requestLen0 size commandCode handlesLen auth finish first.state

def loadKeyRequest (parentHandle : ℕ) (key : List UInt8) : Option (List UInt8) :=
  let command : List UInt8 := [0x00, 0xc2, 0x00, 0x00, 0x00, 0x00, 0x00, 0x00, 0x00, 0x41] ++ zeros 4
  packByteString host (host.fresh (14 + tpmKey12MaxLength + tpmRequestAuthLength))
    [.str 0 command, .dword 2 (14 + key.length + tpmRequestAuthLength), .dword 10 parentHandle,
      .str 14 key]

def takeKeyHandle (wantHandle : Bool) (r : Reply) : Traced Use (ℕ × List UInt8) :=
  if wantHandle then unpackOut host r 10 4 else pure (0, [])

def tpmLoadKey2Oiap (parentHandle : ℕ) (key parentKeyUsageAuth : List UInt8) (wantHandle : Bool) :
    State → Traced Use Answer :=
  runInSession host (loadKeyRequest host parentHandle key) (14 + key.length) commandBufferSize 0x41 4
    parentKeyUsageAuth (takeKeyHandle host wantHandle)

def pubKeyRequest (keyHandle : ℕ) : Option (List UInt8) :=
  let command : List UInt8 := [0x00, 0xc2, 0x00, 0x00, 0x00, 0x00, 0x00, 0x00, 0x00, 0x21] ++ zeros 4
  packByteString host (host.fresh (14 + tpmRequestAuthLength))
    [.str 0 command, .dword 2 (14 + tpmRequestAuthLength), .dword 10 keyHandle]

def pubKeyBufferSize : ℕ := 10 + tpmPubkeyMaxLength + tpmResponseAuthLength

/- `pubkey` is the room at the caller, if it wants the key; the length stored is that of the output. -/
def takePubKey (pubkey : Option ℕ) (r : Reply) : Traced Use (ℕ × List UInt8) :=
  match pubkey with
  | none => pure (0, [])
  | some pubkeyLen =>
    let n := host.size (r.len + 2 ^ host.sizeBits - (10 + tpmResponseAuthLength))
    if pubkeyLen < n then pure (tpmLibError, [])
    else do
      let out ← readBytes host r 10 n
      pure (0, out)

def tpmGetPubKeyOiap (keyHandle : ℕ) (usageAuth : List UInt8) (pubkey : Option ℕ) :
    State → Traced Use Answer :=
  runInSession host (pubKeyRequest host keyHandle) 14 pubKeyBufferSize 0x21 0 usageAuth
    (takePubKey host pubkey)

end Auth

end UBoot.Tpm
