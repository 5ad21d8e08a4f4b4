import UBoot.Tpm.Bytes

/-!
# Commands without a session (lib/tpm.c)

Each command builds a request, sends it and takes its data out of the response. What it stores for
its caller is a list of bytes, a number as the four bytes it was read from.
-/

namespace UBoot.Tpm

open Access Limbs Option

structure Session where
  valid : Bool
  handle : ℕ
  nonceEven : List UInt8
  nonceOdd : List UInt8

/- `oiap_session`, and the requests sent so far. -/
structure State where
  session : Session
  sent : List (List UInt8)

structure Answer where
  code : ℕ
  out : List UInt8
  state : State

def pcrDigestLength : ℕ := 20
def tpmPubekSize : ℕ := 256
-- sizeof(struct tpm_permanent_flags)
def permanentFlagsSize : ℕ := 22

section Commands

variable (host : Host)

def sendThen (command : List UInt8) (size : ℕ) (t : State) (refused : ℕ → State → Answer)
    (next : Reply → State → Traced Use Answer) : Traced Use Answer := do
  let (err, sent) ← tpmSendrecvCommand host command size t.sent
  if err ≠ 0 then pure (refused err { t with sent := sent })
  else next (host.xfer sent size) { t with sent := sent }

/- A command that takes its data out of the response. No request means that it could not be packed. -/
def runCommand (request : Option (List UInt8)) (size : ℕ)
    (finish : Reply → Traced Use (ℕ × List UInt8)) (t : State) : Traced Use Answer :=
  match request with
  | none => pure ⟨tpmLibError, [], t⟩
  | some buf => sendThen host buf size t (fun err t => ⟨err, [], t⟩) fun r t => do
    let (err, out) ← finish r
    pure ⟨err, out, t⟩

def unpackOut (r : Reply) (offset length : ℕ) : Traced Use (ℕ × List UInt8) := do
  match ← unpackByteString host r offset length with
  | none => pure (tpmLibError, [])
  | some out => pure (0, out)

/- A datum behind its size; `keep` says how many bytes of that size are taken, if any. -/
def unpackSized (r : Reply) (place offset : ℕ) (keep : ℕ → Option ℕ) : Traced Use (ℕ × List UInt8) := do
  match ← unpackByteString host r place 4 with
  | none => pure (tpmLibError, [])
  | some dataSize =>
    match keep (beValue dataSize) with
    | none => pure (tpmLibError, [])
    | some n => unpackOut host r offset n

def zeros (n : ℕ) : List UInt8 := List.replicate n 0

def nvReadRequest (index count : ℕ) : Option (List UInt8) :=
  let command : List UInt8 := [0x0, 0xc1, 0x0, 0x0, 0x0, 0x16, 0x0, 0x0, 0x0, 0xcf] ++ zeros 12
  packByteString host (host.fresh commandBufferSize) [.str 0 command, .dword 10 index, .dword 18 count]

def tpmNvReadValue (index count : ℕ) : State → Traced Use Answer :=
  runCommand host (nvReadRequest host index count) commandBufferSize fun r =>
    unpackSized host r 10 14 fun dataSize => if count < dataSize then none else some dataSize

def extendRequest (index : ℕ) (inDigest : List UInt8) : Option (List UInt8) :=
  let command : List UInt8 := [0x0, 0xc1, 0x0, 0x0, 0x0, 0x22, 0x0, 0x0, 0x0, 0x14] ++ zeros 24
  packByteString host (host.fresh commandBufferSize) [.str 0 command, .dword 10 index, .str 14 inDigest]

def tpmExtend (index : ℕ) (inDigest : List UInt8) : State → Traced Use Answer :=
  runCommand host (extendRequest host index inDigest) (10 + pcrDigestLength) fun r =>
    unpackOut host r 10 pcrDigestLength

def pcrReadRequest (index count : ℕ) : Option (List UInt8) :=
  let command : List UInt8 := [0x0, 0xc1, 0x0, 0x0, 0x0, 0xe, 0x0, 0x0, 0x0, 0x15] ++ zeros 4
  if count < pcrDigestLength then none
  else packByteString host (host.fresh commandBufferSize) [.str 0 command, .dword 10 index]

def tpmPcrRead (index count : ℕ) : State → Traced Use Answer :=
  runCommand host (pcrReadRequest host index count) commandBufferSize fun r =>
    unpackOut host r 10 pcrDigestLength

def readPubekCommand : List UInt8 :=
  [0x0, 0xc1, 0x0, 0x0, 0x0, 0x1e, 0x0, 0x0, 0x0, 0x7c] ++ zeros 20

def tpmReadPubek (count : ℕ) : State → Traced Use Answer :=
  runCommand host (some readPubekCommand) (commandBufferSize + tpmPubekSize) fun r =>
    unpackSized host r 2 10 fun dataSize =>
      if dataSize < 30 then none
      else if count < dataSize - 30 then none
      else some (dataSize - 30)

def capabilityRequest (capArea subCap : ℕ) : Option (List UInt8) :=
  let command : List UInt8 := [0x0, 0xc1, 0x0, 0x0, 0x0, 0x16, 0x0, 0x0, 0x0, 0x65] ++ zeros 4 ++
    [0x0, 0x0, 0x0, 0x4] ++ zeros 4
  packByteString host (host.fresh commandBufferSize) [.str 0 command, .dword 10 capArea, .dword 18 subCap]

def tpmGetCapability (capArea subCap count : ℕ) : State → Traced Use Answer :=
  runCommand host (capabilityRequest host capArea subCap) commandBufferSize fun r =>
    unpackSized host r 10 14 fun capSize =>
      if r.len < capSize ∨ count < capSize then none else some capSize

def permanentFlagsCommand : List UInt8 :=
  [0x0, 0xc1, 0x0, 0x0, 0x0, 0x16, 0x0, 0x0, 0x0, 0x65, 0x0, 0x0, 0x0, 0x4, 0x0, 0x0, 0x0, 0x4,
    0x0, 0x0, 0x1, 0x8]

def tpmGetPermanentFlags : State → Traced Use Answer :=
  runCommand host (some permanentFlagsCommand) commandBufferSize fun r => do
    let flags ← readBytes host r 10 permanentFlagsSize
    pure (0, flags)

/- Only a 'd' is packed: the address of the command, and not the index. -/
def permissionsRequest (_index : ℕ) : Option (List UInt8) :=
  packByteString host (host.fresh commandBufferSize) [.dword 0 host.commandAt]

def tpmGetPermissions (index : ℕ) : State → Traced Use Answer :=
  runCommand host (permissionsRequest host index) commandBufferSize fun r => unpackOut host r 60 4

end Commands

def ReturnsZero (r : Reply) : Prop := Received r ∧ returnCode r = 0

/- A command on the response buffer of this size, with room for `count` bytes at its caller. -/
structure Safe (host : Host) (size count : ℕ) (m : Traced Use Answer) : Prop where
  truthful : m.val.code = 0 → ReturnsZero (host.xfer m.val.state.sent size)
  within : Within inside m
  fits : m.val.out.length ≤ count

/- Every request that is sent is answered with a header, and with what `data` asks for if the return
code is 0. -/
def Answered (host : Host) (request : Option (List UInt8)) (size : ℕ) (t : State) (data : Reply → Prop) :
    Prop :=
  host.device = 0 → ∀ buf, request = some buf →
    Received (host.xfer (t.sent ++ [buf]) size) ∧
      (returnCode (host.xfer (t.sent ++ [buf]) size) = 0 → data (host.xfer (t.sent ++ [buf]) size))

section Responses

variable {host : Host} {request : Option (List UInt8)} {size count : ℕ}
  {finish : Reply → Traced Use (ℕ × List UInt8)} {t : State}

variable {command : List UInt8} {refused : ℕ → State → Answer}
  {next : Reply → State → Traced Use Answer}

theorem sendThen_noDevice (h : host.device ≠ 0) :
    sendThen host command size t refused next = pure (refused host.device t) := by
  unfold sendThen
  rw [tpmSendrecvCommand_noDevice h]
  exact if_pos h

theorem sendThen_val (h : host.device = 0) :
    (sendThen host command size t refused next).val =
      if returnCode (host.xfer (t.sent ++ [command]) size) ≠ 0 then
        refused (returnCode (host.xfer (t.sent ++ [command]) size))
          { t with sent := t.sent ++ [command] }
      else (next (host.xfer (t.sent ++ [command]) size) { t with sent := t.sent ++ [command] }).val := by
  unfold sendThen
  rw [val_bind, tpmSendrecvCommand_val h]
  dsimp only
  rw [val_ite]
  rfl

theorem within_sendThen (h : host.device = 0) :
    Within inside (sendThen host command size t refused next) ↔
      Received (host.xfer (t.sent ++ [command]) size) ∧
        (returnCode (host.xfer (t.sent ++ [command]) size) = 0 → Within inside
          (next (host.xfer (t.sent ++ [command]) size) { t with sent := t.sent ++ [command] })) := by
  unfold sendThen
  rw [within_bind, within_tpmSendrecvCommand h, tpmSendrecvCommand_val h]
  dsimp only
  rw [within_ite]
  simp only [within_pure, imp_true_iff, true_and, not_not, ne_eq]

theorem runCommand_safe (hfits : ∀ r, (finish r).val.2.length ≤ count) :
    Safe host size count (runCommand host request size finish t) ↔
      Answered host request size t fun r => Within inside (finish r) := by
  have hlib : tpmLibError ≠ 0 := by decide
  cases request with
  | none =>
    refine iff_of_true ⟨fun h => absurd h hlib, within_pure _, Nat.zero_le _⟩ fun _ buf h => ?_
    cases h
  | some buf =>
    unfold runCommand
    dsimp only
    by_cases hdevice : host.device = 0
    swap
    · rw [sendThen_noDevice hdevice]
      exact iff_of_true ⟨fun h => absurd h hdevice, within_pure _, Nat.zero_le _⟩
        fun h => absurd h hdevice
    constructor
    · intro h _ buf' hbuf
      obtain rfl := some.inj hbuf
      have hwithin := (within_sendThen hdevice).mp h.within
      simp only [within_bind, within_pure, and_true] at hwithin
      exact hwithin
    · intro h
      have hanswer := h hdevice buf rfl
      refine ⟨fun hcode => ?_, (within_sendThen hdevice).mpr ⟨hanswer.1, fun hzero => ?_⟩, ?_⟩
      · rw [sendThen_val hdevice] at hcode ⊢
        by_cases hzero : returnCode (host.xfer (t.sent ++ [buf]) size) = 0
        · rw [if_neg (not_not.mpr hzero)]
          exact ⟨hanswer.1, hzero⟩
        · rw [if_pos hzero] at hcode
          exact absurd hcode hzero
      · rw [within_bind]
        exact ⟨hanswer.2 hzero, within_pure _⟩
      · rw [sendThen_val hdevice]
        split
        · exact Nat.zero_le _
        · exact hfits _

theorem size_large (host : Host) : 2 ^ 32 ≤ 2 ^ host.sizeBits :=
  Nat.pow_le_pow_right (by decide) host.size_ge

theorem answered_congr {p q : Reply → Prop} (h : ∀ r, Received r → r.len ≤ size → (p r ↔ q r)) :
    Answered host request size t p ↔ Answered host request size t q := by
  refine forall₃_congr fun hdevice buf hbuf => and_congr_right fun hr => ?_
  exact forall_congr' fun _ => h _ hr (host.len_le _ _)

theorem unpackOut_length (host : Host) (r : Reply) (offset n : ℕ) :
    (unpackOut host r offset n).val.2.length ≤ n := by
  have hlen : ∀ out, (unpackByteString host r offset n).val = some out → out.length = n := by
    intro out hout
    unfold unpackByteString at hout
    rw [val_ite] at hout
    split at hout
    · cases hout
    · obtain rfl := some.inj hout
      exact readBytes_length host r offset n
  unfold unpackOut
  rw [val_bind]
  cases hval : (unpackByteString host r offset n).val with
  | none => exact Nat.zero_le n
  | some out => exact (hlen out hval).le

theorem within_unpackOut {r : Reply} {offset n : ℕ} (h : offset + n < 2 ^ host.sizeBits)
    (hr : Received r) (hlen : r.len < 2 ^ 32) : Within inside (unpackOut host r offset n) := by
  unfold unpackOut
  rw [within_bind]
  refine ⟨within_unpackByteString h hr hlen, ?_⟩
  split
  · exact within_pure _
  · exact within_pure _

theorem unpackSized_length (host : Host) (r : Reply) (place offset : ℕ) {keep : ℕ → Option ℕ}
    (hkeep : ∀ d n, keep d = some n → n ≤ count) :
    (unpackSized host r place offset keep).val.2.length ≤ count := by
  unfold unpackSized
  rw [val_bind]
  cases (unpackByteString host r place 4).val with
  | none => exact Nat.zero_le count
  | some dataSize =>
    dsimp only
    cases hsize : keep (beValue dataSize) with
    | none => exact Nat.zero_le count
    | some n => exact (unpackOut_length host r offset n).trans (hkeep _ n hsize)

theorem within_unpackSized {r : Reply} {place offset : ℕ} {keep : ℕ → Option ℕ}
    (hplace : place + 4 < 2 ^ 32) (hr : Received r) (hlen : r.len < 2 ^ 32) :
    Within inside (unpackSized host r place offset keep) ↔
      (place + 4 ≤ r.len → ∀ n, keep (beValue (bytes r place 4)) = some n →
        Within inside (unpackOut host r offset n)) := by
  have hbig := size_large host
  have hfirst : Within inside (unpackByteString host r place 4) :=
    within_unpackByteString (by lia) hr hlen
  unfold unpackSized
  rw [within_bind, and_iff_right hfirst, unpackByteString_val hplace]
  by_cases hshort : r.len < place + 4
  · rw [if_pos hshort]
    exact iff_of_true (within_pure _) fun h => absurd h (by lia)
  · rw [if_neg hshort, forall_prop_of_true (not_lt.mp hshort)]
    dsimp only
    cases keep (beValue (bytes r place 4)) with
    | none => exact iff_of_true (within_pure _) fun n h => by cases h
    | some n =>
      constructor
      · intro h n' hn'
        rw [← some.inj hn']
        exact h
      · exact fun h => h n rfl

end Responses

section Each

variable {host : Host} {t : State}

theorem unpackOut_safe (request : Option (List UInt8)) {size : ℕ} (hsize : size < 2 ^ 32)
    {offset n count : ℕ} (hn : n ≤ count) (hend : offset + n < 2 ^ 32) :
    Safe host size count (runCommand host request size (fun r => unpackOut host r offset n) t) ↔
      Answered host request size t fun _ => True := by
  have hbig := size_large host
  rw [runCommand_safe fun r => (unpackOut_length host r offset n).trans hn]
  refine answered_congr fun r hr hlen => iff_of_true ?_ trivial
  exact within_unpackOut (by lia) hr (by lia)

theorem unpackSized_safe (request : Option (List UInt8)) {size : ℕ} (hsize : size < 2 ^ 32)
    {place offset count : ℕ} (hplace : place + 4 < 2 ^ 32) {keep : Reply → ℕ → Option ℕ}
    (hkeep : ∀ r d n, keep r d = some n → n ≤ count)
    (hend : ∀ r d n, r.len ≤ size → d < 2 ^ 32 → keep r d = some n → offset + n < 2 ^ 32) :
    Safe host size count (runCommand host request size
        (fun r => unpackSized host r place offset (keep r)) t) ↔
      Answered host request size t fun _ => True := by
  have hbig := size_large host
  rw [runCommand_safe fun r => unpackSized_length host r place offset (hkeep r)]
  refine answered_congr fun r hr hlen => iff_of_true ?_ trivial
  rw [within_unpackSized hplace hr (by lia)]
  intro _ n hn
  have hvalue := beValue_lt (bytes r place 4)
  rw [bytes_length] at hvalue
  have hnowrap := hend r _ n hlen hvalue hn
  exact within_unpackOut (by lia) hr (by lia)

theorem tpmExtend_safe (index : ℕ) (inDigest : List UInt8) :
    Safe host (10 + pcrDigestLength) pcrDigestLength (tpmExtend host index inDigest t) ↔
      Answered host (extendRequest host index inDigest) (10 + pcrDigestLength) t fun _ => True :=
  unpackOut_safe _ (by decide) le_rfl (by decide)

theorem tpmPcrRead_safe (index count : ℕ) :
    Safe host commandBufferSize count (tpmPcrRead host index count t) ↔
      Answered host (pcrReadRequest host index count) commandBufferSize t fun _ => True := by
  by_cases hcount : count < pcrDigestLength
  · have hnone : pcrReadRequest host index count = none := if_pos hcount
    unfold tpmPcrRead
    rw [hnone]
    have hlib : tpmLibError ≠ 0 := by decide
    exact iff_of_true ⟨fun h => absurd h hlib, within_pure _, Nat.zero_le _⟩ fun _ buf h => by cases h
  · exact unpackOut_safe _ (by decide) (not_lt.mp hcount) (by decide)

theorem tpmGetPermissions_safe (index : ℕ) :
    Safe host commandBufferSize 4 (tpmGetPermissions host index t) ↔
      Answered host (permissionsRequest host index) commandBufferSize t fun _ => True :=
  unpackOut_safe _ (by decide) le_rfl (by decide)

theorem tpmReadPubek_safe (count : ℕ) :
    Safe host (commandBufferSize + tpmPubekSize) count (tpmReadPubek host count t) ↔
      Answered host (some readPubekCommand) (commandBufferSize + tpmPubekSize) t fun _ => True := by
  refine unpackSized_safe _ (by decide) (by decide) (fun r d n h => ?_) fun r d n _ hd h => ?_
  all_goals
    split at h
    · cases h
    split at h
    · cases h
    obtain rfl := some.inj h
    lia

theorem tpmGetCapability_safe (capArea subCap count : ℕ) :
    Safe host commandBufferSize count (tpmGetCapability host capArea subCap count t) ↔
      Answered host (capabilityRequest host capArea subCap) commandBufferSize t fun _ => True := by
  refine unpackSized_safe _ (by decide) (by decide) (fun r d n h => ?_) fun r d n hlen _ h => ?_
  · split at h
    · cases h
    · obtain rfl := some.inj h
      lia
  · have hsize : commandBufferSize = 256 := rfl
    split at h
    · cases h
    · obtain rfl := some.inj h
      lia

theorem tpmGetPermanentFlags_safe :
    Safe host commandBufferSize permanentFlagsSize (tpmGetPermanentFlags host t) ↔
      Answered host (some permanentFlagsCommand) commandBufferSize t
        fun r => 10 + permanentFlagsSize ≤ r.len := by
  unfold tpmGetPermanentFlags
  rw [runCommand_safe fun r => (readBytes_length host r 10 permanentFlagsSize).le]
  refine answered_congr fun r hr _ => ?_
  rw [within_bind, and_iff_left (within_pure _), within_readBytes (by decide), hr.len]
  exact or_iff_right (by decide)

theorem unpackOut_wraps {r : Reply} {n : ℕ} (hr : Received r) (hlen : r.len ≤ commandBufferSize)
    (hfirst : 14 ≤ r.len) (hn : n < 2 ^ 32) (hwrap : 2 ^ host.sizeBits ≤ 14 + n) :
    ¬ Within inside (unpackOut host r 14 n) := by
  have hbig := size_large host
  have hsize : commandBufferSize = 256 := rfl
  have hmod : host.size (14 + n) = 14 + n - 2 ^ host.sizeBits := by
    unfold Host.size
    rw [Nat.mod_eq_sub_mod hwrap]
    exact Nat.mod_eq_of_lt (by lia)
  intro hwithin
  have hread : Within inside (readBytes host r 14 n) := by
    have hunpack := ((within_bind _ _).mp hwithin).1
    unfold unpackByteString at hunpack
    rw [hmod, if_neg (by lia)] at hunpack
    exact ((within_bind _ _).mp hunpack).1
  have hbehind := hread ⟨r.received, host.size (14 + (r.len - 14))⟩
    (List.mem_map.mpr ⟨r.len - 14, List.mem_range.mpr (by lia), rfl⟩)
  have hlt : host.size (14 + (r.len - 14)) < r.received := hbehind
  rw [host.size_of_lt (by lia), hr.len] at hlt
  lia

theorem tpmNvReadValue_safe (index count : ℕ) :
    Safe host commandBufferSize count (tpmNvReadValue host index count t) ↔
      Answered host (nvReadRequest host index count) commandBufferSize t fun r =>
        14 ≤ r.len → beValue (bytes r 10 4) ≤ count →
          14 + beValue (bytes r 10 4) < 2 ^ host.sizeBits := by
  have hsize : commandBufferSize = 256 := rfl
  unfold tpmNvReadValue
  rw [runCommand_safe fun r => unpackSized_length host r 10 14 fun d n h => by
    split at h
    · cases h
    · obtain rfl := some.inj h
      lia]
  refine answered_congr fun r hr hlen => ?_
  rw [within_unpackSized (by decide) hr (by lia)]
  refine forall_congr' fun hfirst => ?_
  have hvalue := beValue_lt (bytes r 10 4)
  rw [bytes_length] at hvalue
  constructor
  · intro h hcount
    have hwithin := h (beValue (bytes r 10 4)) (if_neg (not_lt.mpr hcount))
    by_contra hwrap
    exact unpackOut_wraps hr hlen hfirst hvalue (not_lt.mp hwrap) hwithin
  · intro h n hn
    split at hn
    · cases hn
    next hcount =>
      obtain rfl := some.inj hn
      exact within_unpackOut (h (not_lt.mp hcount)) hr (by lia)

end Each

end UBoot.Tpm
