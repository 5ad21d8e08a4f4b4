import UBoot.Tpm.Sessions

/-!
# What a TPM response is trusted with

For each command exactly when it reads no byte that was not received, stores no more than its caller has
room for, and reports success only on a response that says so.
-/

namespace UBoot.Tpm

open Access Limbs Option

/- The last 20 bytes of the response are the HMAC of the rest, the nonces and the command. -/
def AuthVerifies (host : Host) (commandCode handlesLen : ℕ) (auth nonceOdd : List UInt8) (r : Reply) :
    Prop :=
  51 ≤ r.len ∧
    bytes r (r.len - 20) 20 = sha1Hmac host auth
      (host.sha1 (bytes r 6 4 ++ be32 commandCode ++ bytes r (10 + handlesLen) (r.len - 51 - handlesLen)) ++
        bytes r (r.len - 41) 20 ++ nonceOdd ++ bytes r (r.len - 21) 1)

section Verify

variable {host : Host} {r : Reply} {session : Session} {commandCode handlesLen : ℕ} {auth : List UInt8}

theorem size_sub {n : ℕ} (hn : n ≤ r.len) (hlen : r.len < 2 ^ 31) :
    host.size (r.len + 2 ^ host.sizeBits - n) = r.len - n := by
  have hbig := size_large host
  unfold Host.size
  rw [show r.len + 2 ^ host.sizeBits - n = r.len - n + 2 ^ host.sizeBits by lia, Nat.add_mod_right]
  exact Nat.mod_eq_of_lt (by lia)

theorem size_sub_wraps {n : ℕ} (hn : r.len < n) :
    host.size (r.len + 2 ^ host.sizeBits - n) = r.len + 2 ^ host.sizeBits - n := by
  have hbig := size_large host
  exact Nat.mod_eq_of_lt (by lia)

theorem verify_within (hr : Received r) (hlen : r.len < 2 ^ 31) (hblock : 41 ≤ r.len)
    (hhandles : handlesLen ≤ 4) :
    Within inside (verifyResponseAuth host commandCode r (r.len - 41) handlesLen session (r.len - 41)
      auth) := by
  unfold verifyResponseAuth
  split
  · exact within_pure _
  split
  · exact within_pure _
  next hlong =>
    have hread : ∀ offset n, offset + n ≤ r.len → Within inside (readBytes host r offset n) := by
      intro offset n hend
      rw [within_readBytes (by lia), hr.len]
      exact .inr hend
    have hparams : Within inside (hashedParams host r (r.len - 41) handlesLen) := by
      unfold hashedParams
      rw [within_ite, Nat.mod_eq_of_lt (by lia)]
      exact ⟨fun _ => hread _ _ (by lia), fun _ => within_pure _⟩
    have hd : digestLength = 20 := rfl
    simp only [within_bind, within_pure, and_true]
    exact ⟨hread _ _ (by lia), hparams, hread _ _ (by lia), hread _ _ (by lia),
      hread _ _ (by lia)⟩

theorem verify_runs_over (hr : Received r) (hvalid : session.valid = true) (hshort : r.len < 41)
    (hhandles : handlesLen ≤ 4) (authAt : ℕ) :
    ¬ Within inside (verifyResponseAuth host commandCode r
      (host.size (r.len + 2 ^ host.sizeBits - 41)) handlesLen session authAt auth) := by
  have hbig := size_large host
  have hten : 10 ≤ r.len := hr.2
  intro h
  unfold verifyResponseAuth at h
  rw [size_sub_wraps hshort, if_neg (by rw [hvalid]; decide), if_neg (by lia)] at h
  have hparams := ((within_bind _ _).mp ((within_bind _ _).mp h).2).1
  unfold hashedParams at hparams
  rw [if_pos (by lia)] at hparams
  have hcount : (r.len + 2 ^ host.sizeBits - 41 - 10 - handlesLen) % 2 ^ 32 =
      2 ^ 32 + r.len - 51 - handlesLen := by
    obtain ⟨k, hk⟩ : ∃ k, 2 ^ host.sizeBits = 2 ^ 32 * (k + 1) := by
      obtain ⟨d, hd⟩ := Nat.exists_eq_add_of_le host.size_ge
      refine ⟨2 ^ d - 1, ?_⟩
      rw [hd, Nat.pow_add, Nat.sub_add_cancel Nat.one_le_two_pow]
    have hsum : r.len + 2 ^ host.sizeBits - 41 - 10 - handlesLen =
        2 ^ 32 + r.len - 51 - handlesLen + 2 ^ 32 * k := by lia
    rw [hsum, Nat.add_mul_mod_self_left]
    exact Nat.mod_eq_of_lt (by lia)
  rw [hcount] at hparams
  have hlast := hparams ⟨r.received, host.size (10 + handlesLen + (max r.len (10 + handlesLen) -
    (10 + handlesLen)))⟩ (List.mem_map.mpr ⟨_, List.mem_range.mpr (by lia), rfl⟩)
  have hlt : host.size (10 + handlesLen + (max r.len (10 + handlesLen) - (10 + handlesLen))) <
      r.received := hlast
  rw [host.size_of_lt (by lia), hr.len] at hlt
  lia

theorem verify_authentic (hlen : r.len < 2 ^ 31) (hblock : 41 ≤ r.len) (hhandles : handlesLen ≤ 4)
    (hzero : (verifyResponseAuth host commandCode r (r.len - 41) handlesLen session (r.len - 41)
      auth).val.1 = 0) :
    AuthVerifies host commandCode handlesLen auth session.nonceOdd r := by
  have hd : digestLength = 20 := rfl
  unfold verifyResponseAuth at hzero
  split at hzero
  · exact absurd hzero (show tpmAuthfail ≠ 0 by decide)
  split at hzero
  · exact absurd hzero (show tpmLibError ≠ 0 by decide)
  next hlong =>
    have hparams : (hashedParams host r (r.len - 41) handlesLen).val =
        bytes r (10 + handlesLen) (r.len - 51 - handlesLen) := by
      unfold hashedParams
      rw [val_ite, Nat.mod_eq_of_lt (by lia)]
      split
      · rw [readBytes_val (by lia)]
        congr 1
      next hnone =>
        have hempty : r.len - 51 - handlesLen = 0 := by lia
        rw [hempty]
        rfl
    have hread : ∀ offset n, offset + n ≤ 2 ^ 32 → (readBytes host r offset n).val = bytes r offset n :=
      fun offset n h => readBytes_val h
    simp only [val_bind, val_pure] at hzero
    rw [hparams, hread 6 4 (by lia), hread (r.len - 41) _ (by lia), hread (r.len - 41 + 20) _ (by lia),
      hread (r.len - 41 + 21) _ (by lia)] at hzero
    refine ⟨by lia, ?_⟩
    by_contra hne
    rw [if_pos] at hzero
    · exact absurd hzero (by decide)
    · intro heq
      refine hne ?_
      rw [show r.len - 20 = r.len - 41 + 21 by lia, show r.len - 21 = r.len - 41 + 20 by lia]
      exact heq.symm

end Verify

section Opening

variable {host : Host} {t : State} {r : Reply}

theorem within_tpmTerminateAuthSession (authHandle : ℕ) :
    Within inside (tpmTerminateAuthSession host authHandle t) ↔
      Answered host (terminateRequest host authHandle) commandBufferSize t fun _ => True := by
  unfold tpmTerminateAuthSession
  cases hrequest : terminateRequest host authHandle with
  | none => exact iff_of_true (within_pure _) fun _ buf h => by cases h
  | some request =>
    dsimp only
    by_cases hdevice : host.device = 0
    · rw [within_bind, and_iff_left (within_pure _), within_tpmSendrecvCommand hdevice]
      constructor
      · intro h _ buf hbuf
        obtain rfl := some.inj hbuf
        exact ⟨h, fun _ => trivial⟩
      · exact fun h => (h hdevice request rfl).1
    · rw [tpmSendrecvCommand_noDevice hdevice]
      exact iff_of_true ((within_bind _ _).mpr ⟨within_pure _, within_pure _⟩) fun h => absurd h hdevice

theorem within_endSession : Within inside (endSession host t) ↔ (t.session.valid = true →
    Answered host (terminateRequest host t.session.handle) commandBufferSize t fun _ => True) := by
  unfold endSession
  split
  next hvalid =>
    rw [within_bind, and_iff_left (within_pure _), within_tpmTerminateAuthSession]
    exact (imp_iff_right hvalid).symm
  next hvalid => exact iff_of_true (within_pure _) fun h => absurd h hvalid

theorem within_takeSession (hr : Received r) (hlen : r.len ≤ commandBufferSize) (wantHandle : Bool) :
    Within inside (takeSession host r wantHandle t) := by
  have hbig := size_large host
  have hsize : commandBufferSize = 256 := rfl
  have hd : digestLength = 20 := rfl
  unfold takeSession
  rw [within_bind]
  refine ⟨within_unpackByteString (by lia) hr (by lia), ?_⟩
  split
  · exact within_pure _
  · rw [within_bind]
    refine ⟨within_unpackByteString (by lia) hr (by lia), ?_⟩
    split
    · exact within_pure _
    · exact within_pure _

variable (host t r) in
theorem takeSession_val (wantHandle : Bool) :
    (takeSession host r wantHandle t).val.state.sent = t.sent ∧
      (takeSession host r wantHandle t).val.out.length ≤ 4 ∧
      ((takeSession host r wantHandle t).val.code = 0 →
        (takeSession host r wantHandle t).val.state.session.valid = true) := by
  have hlib : tpmLibError ≠ 0 := by decide
  unfold takeSession
  rw [val_bind, unpackByteString_val (by decide)]
  split
  next hshort => exact ⟨rfl, Nat.zero_le 4, fun h => absurd h hlib⟩
  next handle hfound =>
    rw [val_bind]
    split
    · exact ⟨rfl, Nat.zero_le 4, fun h => absurd h hlib⟩
    · refine ⟨rfl, ?_, fun _ => rfl⟩
      split at hfound
      · cases hfound
      · obtain rfl := some.inj hfound
        dsimp only [val_pure]
        split
        · exact (bytes_length r 10 4).le
        · exact Nat.zero_le 4

def OiapAnswered (host : Host) (t : State) : Prop :=
  (t.session.valid = true →
    Answered host (terminateRequest host t.session.handle) commandBufferSize t fun _ => True) ∧
  Answered host (some oiapCommand) commandBufferSize (endSession host t).val fun _ => True

theorem within_tpmOiap (wantHandle : Bool) :
    Within inside (tpmOiap host wantHandle t) ↔ OiapAnswered host t := by
  unfold tpmOiap OiapAnswered
  rw [within_bind, within_endSession]
  refine and_congr_right fun _ => ?_
  by_cases hdevice : host.device = 0
  · rw [within_sendThen hdevice]
    constructor
    · intro h _ buf hbuf
      obtain rfl := some.inj hbuf
      exact ⟨h.1, fun _ => trivial⟩
    · intro h
      have hr := (h hdevice oiapCommand rfl).1
      exact ⟨hr, fun _ => within_takeSession hr (host.len_le _ _) wantHandle⟩
  · rw [sendThen_noDevice hdevice]
    exact iff_of_true (within_pure _) fun h => absurd h hdevice

variable (host t) in
theorem tpmOiap_val (wantHandle : Bool) : (tpmOiap host wantHandle t).val.out.length ≤ 4 ∧
    ((tpmOiap host wantHandle t).val.code = 0 →
      (tpmOiap host wantHandle t).val.state.session.valid = true ∧ host.device = 0 ∧
        (tpmOiap host wantHandle t).val.state.sent = (endSession host t).val.sent ++ [oiapCommand] ∧
        returnCode (host.xfer ((endSession host t).val.sent ++ [oiapCommand]) commandBufferSize) = 0) := by
  unfold tpmOiap
  rw [val_bind]
  by_cases hdevice : host.device = 0
  · rw [sendThen_val hdevice]
    split
    next hcode => exact ⟨Nat.zero_le 4, fun h => absurd h hcode⟩
    next hcode =>
      obtain ⟨hsent, hout, hvalid⟩ := takeSession_val host
        { (endSession host t).val with sent := (endSession host t).val.sent ++ [oiapCommand] }
        (host.xfer ((endSession host t).val.sent ++ [oiapCommand]) commandBufferSize) wantHandle
      exact ⟨hout, fun h => ⟨hvalid h, hdevice, hsent, not_not.mp hcode⟩⟩
  · rw [sendThen_noDevice hdevice]
    exact ⟨Nat.zero_le 4, fun h => absurd h hdevice⟩

theorem tpmOiap_safe (wantHandle : Bool) :
    Safe host commandBufferSize 4 (tpmOiap host wantHandle t) ↔ OiapAnswered host t := by
  rw [← within_tpmOiap wantHandle]
  obtain ⟨hout, hzero⟩ := tpmOiap_val host t wantHandle
  constructor
  · exact fun h => h.within
  · intro h
    refine ⟨fun hcode => ?_, h, hout⟩
    obtain ⟨-, hdevice, hsent, hreturn⟩ := hzero hcode
    rw [hsent]
    exact ⟨(((within_tpmOiap wantHandle).mp h).2 hdevice oiapCommand rfl).1, hreturn⟩

end Opening

/- A safe command whose response is authenticated, on a session that was opened with success. -/
structure SafeAuth (host : Host) (size count commandCode handlesLen : ℕ) (auth : List UInt8) (t : State)
    (m : Traced Use Answer) : Prop extends Safe host size count m where
  opened : m.val.code = 0 → t.session.valid = false →
    ReturnsZero (host.xfer (t.sent ++ [oiapCommand]) commandBufferSize)
  authentic : m.val.code = 0 → AuthVerifies host commandCode handlesLen auth
    m.val.state.session.nonceOdd (host.xfer m.val.state.sent size)

section Authorised

variable {host : Host} {t : State} {r : Reply} {commandCode handlesLen size count : ℕ}
  {auth request : List UInt8} {requestLen0 : ℕ} {finish : Reply → Traced Use (ℕ × List UInt8)}

theorem verify_nonceOdd (host : Host) (commandCode : ℕ) (r : Reply) (len handlesLen : ℕ)
    (session : Session) (authAt : ℕ) (auth : List UInt8) :
    (verifyResponseAuth host commandCode r len handlesLen session authAt auth).val.2.nonceOdd =
      session.nonceOdd := by
  unfold verifyResponseAuth
  split
  · rfl
  split
  · rfl
  · rfl

def verdict (host : Host) (commandCode handlesLen : ℕ) (auth : List UInt8) (r : Reply) (session : Session) :
    Traced Use (ℕ × Session) :=
  verifyResponseAuth host commandCode r (host.size (r.len + 2 ^ host.sizeBits - tpmResponseAuthLength))
    handlesLen session (host.size (r.len + 2 ^ host.sizeBits - tpmResponseAuthLength)) auth

theorem acceptResponse_val :
    (acceptResponse host commandCode handlesLen auth finish r t).val =
      if (verdict host commandCode handlesLen auth r t.session).val.1 ≠ 0 then
        ⟨(verdict host commandCode handlesLen auth r t.session).val.1, [],
          { t with session := (verdict host commandCode handlesLen auth r t.session).val.2 }⟩
      else ⟨(finish r).val.1, (finish r).val.2,
        { t with session := (verdict host commandCode handlesLen auth r t.session).val.2 }⟩ := by
  unfold acceptResponse
  rw [val_bind]
  dsimp only
  rw [val_ite]
  rfl

theorem acceptResponse_out (hfits : (finish r).val.2.length ≤ count) :
    (acceptResponse host commandCode handlesLen auth finish r t).val.out.length ≤ count ∧
      (acceptResponse host commandCode handlesLen auth finish r t).val.state.sent = t.sent := by
  rw [acceptResponse_val]
  split
  · exact ⟨Nat.zero_le count, rfl⟩
  · exact ⟨hfits, rfl⟩

theorem within_acceptResponse :
    Within inside (acceptResponse host commandCode handlesLen auth finish r t) ↔
      Within inside (verdict host commandCode handlesLen auth r t.session) ∧
        ((verdict host commandCode handlesLen auth r t.session).val.1 = 0 → Within inside (finish r)) := by
  unfold acceptResponse
  rw [within_bind]
  dsimp only
  rw [within_ite]
  simp only [within_bind, within_pure, imp_true_iff, true_and, and_true, not_not, ne_eq, verdict]

variable (host commandCode auth) in
theorem acceptResponse_spec (hr : Received r) (hlen : r.len < 2 ^ 31) (hhandles : handlesLen ≤ 4)
    (hvalid : t.session.valid = true) (hfinish : 51 ≤ r.len → Within inside (finish r)) :
    (Within inside (acceptResponse host commandCode handlesLen auth finish r t) ↔ 41 ≤ r.len) ∧
      (41 ≤ r.len → (acceptResponse host commandCode handlesLen auth finish r t).val.code = 0 →
        AuthVerifies host commandCode handlesLen auth
          (acceptResponse host commandCode handlesLen auth finish r t).val.state.session.nonceOdd r) := by
  have hblock : 41 ≤ r.len → verdict host commandCode handlesLen auth r t.session =
      verifyResponseAuth host commandCode r (r.len - 41) handlesLen t.session (r.len - 41) auth := by
    intro hlong
    have hsub : host.size (r.len + 2 ^ host.sizeBits - tpmResponseAuthLength) = r.len - 41 :=
      size_sub hlong hlen
    unfold verdict
    rw [hsub]
  have hauth : 41 ≤ r.len → (verdict host commandCode handlesLen auth r t.session).val.1 = 0 →
      AuthVerifies host commandCode handlesLen auth t.session.nonceOdd r := by
    intro hlong hzero
    rw [hblock hlong] at hzero
    exact verify_authentic hlen hlong hhandles hzero
  constructor
  · rw [within_acceptResponse]
    by_cases hlong : 41 ≤ r.len
    · refine iff_of_true ⟨?_, fun hzero => hfinish (hauth hlong hzero).1⟩ hlong
      rw [hblock hlong]
      exact verify_within hr hlen hlong hhandles
    · refine iff_of_false (fun h => ?_) hlong
      exact verify_runs_over hr hvalid (by lia) hhandles _ h.1
  · intro hlong hcode
    rw [acceptResponse_val] at hcode ⊢
    by_cases hzero : (verdict host commandCode handlesLen auth r t.session).val.1 = 0
    · rw [if_neg (not_not.mpr hzero)]
      have hnonce : (verdict host commandCode handlesLen auth r t.session).val.2.nonceOdd =
          t.session.nonceOdd := verify_nonceOdd _ _ _ _ _ _ _ _
      exact hnonce ▸ hauth hlong hzero
    · rw [if_pos hzero] at hcode
      exact absurd hcode hzero

def authorised (host : Host) (request : List UInt8) (requestLen0 : ℕ) (session : Session)
    (auth : List UInt8) : List UInt8 :=
  request.take requestLen0 ++ (createRequestAuth host request requestLen0 4 session auth).2.2

def requested (host : Host) (request : List UInt8) (requestLen0 : ℕ) (t : State) (auth : List UInt8) :
    State :=
  { t with session := (createRequestAuth host request requestLen0 4 t.session auth).2.1 }

theorem createRequestAuth_valid (hvalid : t.session.valid = true) :
    (createRequestAuth host request requestLen0 4 t.session auth).1 = 0 ∧
      (createRequestAuth host request requestLen0 4 t.session auth).2.1.valid = true := by
  unfold createRequestAuth
  rw [if_neg (by rw [hvalid]; decide)]
  exact ⟨rfl, hvalid⟩

theorem runAuthorised_eq (hvalid : t.session.valid = true) :
    runAuthorised host request requestLen0 size commandCode handlesLen auth finish t =
      sendThen host (authorised host request requestLen0 t.session auth) size
        (requested host request requestLen0 t auth) refuse
        (acceptResponse host commandCode handlesLen auth finish) := by
  unfold runAuthorised
  exact if_neg (not_not.mpr (createRequestAuth_valid hvalid).1)

def AuthAnswered (host : Host) (request : List UInt8) (requestLen0 size : ℕ) (t : State)
    (auth : List UInt8) : Prop :=
  Answered host (some (authorised host request requestLen0 t.session auth)) size t
    fun r => tpmResponseAuthLength ≤ r.len

theorem runAuthorised_spec (hsize : size < 2 ^ 31) (hhandles : handlesLen ≤ 4)
    (hvalid : t.session.valid = true)
    (hfinish : ∀ r, Received r → r.len ≤ size → 51 ≤ r.len → Within inside (finish r))
    (hfits : ∀ r, (finish r).val.2.length ≤ count) (m : Traced Use Answer)
    (hm : m = runAuthorised host request requestLen0 size commandCode handlesLen auth finish t) :
    (Within inside m ↔ AuthAnswered host request requestLen0 size t auth) ∧ m.val.out.length ≤ count ∧
      (Within inside m → m.val.code = 0 → ReturnsZero (host.xfer m.val.state.sent size) ∧
        AuthVerifies host commandCode handlesLen auth m.val.state.session.nonceOdd
          (host.xfer m.val.state.sent size)) := by
  rw [runAuthorised_eq hvalid] at hm
  subst hm
  by_cases hdevice : host.device = 0
  swap
  · rw [sendThen_noDevice hdevice]
    refine ⟨iff_of_true (within_pure _) fun h => absurd h hdevice, Nat.zero_le count, fun _ h => ?_⟩
    exact absurd h hdevice
  set command := authorised host request requestLen0 t.session auth with hcommand
  set r := host.xfer (t.sent ++ [command]) size with hr
  have hlen : r.len ≤ size := host.len_le _ _
  set t' : State := { requested host request requestLen0 t auth with sent := t.sent ++ [command] } with ht'
  have hvalid' : t'.session.valid = true := (createRequestAuth_valid hvalid).2
  have hshort : r.len < 2 ^ 31 := by lia
  have hspec := fun hreceived : Received r => acceptResponse_spec host commandCode auth hreceived hshort
    hhandles hvalid' (hfinish r hreceived hlen)
  set m := sendThen host command size (requested host request requestLen0 t auth) refuse
    (acceptResponse host commandCode handlesLen auth finish) with hm
  have hrun : m.val = if returnCode r ≠ 0 then refuse (returnCode r) t'
      else (acceptResponse host commandCode handlesLen auth finish r t').val := sendThen_val hdevice
  have hiff : Within inside m ↔ Received r ∧ (returnCode r = 0 →
      Within inside (acceptResponse host commandCode handlesLen auth finish r t')) :=
    within_sendThen hdevice
  refine ⟨?_, ?_, fun h hcode => ?_⟩
  · rw [hiff]
    constructor
    · intro h _ buf hbuf
      obtain rfl := some.inj hbuf
      exact ⟨h.1, fun hzero => (hspec h.1).1.mp (h.2 hzero)⟩
    · intro h
      have hanswer := h hdevice command rfl
      exact ⟨hanswer.1, fun hzero => (hspec hanswer.1).1.mpr (hanswer.2 hzero)⟩
  · rw [hrun]
    split
    · exact Nat.zero_le count
    · exact (acceptResponse_out (hfits r)).1
  · obtain ⟨hreceived, hrest⟩ := hiff.mp h
    rw [hrun] at hcode ⊢
    by_cases hzero : returnCode r = 0
    · rw [if_neg (not_not.mpr hzero)] at hcode ⊢
      obtain ⟨hblock, hauth⟩ := hspec hreceived
      have hsent : (acceptResponse host commandCode handlesLen auth finish r t').val.state.sent =
          t.sent ++ [command] := (acceptResponse_out (hfits r)).2
      rw [hsent]
      exact ⟨⟨hreceived, hzero⟩, hauth (hblock.mp (hrest hzero)) hcode⟩
    · rw [if_pos hzero] at hcode
      exact absurd hcode hzero

variable (host t) in
theorem openSession_spec :
    (Within inside (openSession host t) ↔ (t.session.valid = false → OiapAnswered host t)) ∧
      ((openSession host t).val.code = 0 → (openSession host t).val.state.session.valid = true) ∧
      (Within inside (openSession host t) → (openSession host t).val.code = 0 →
        t.session.valid = false → ReturnsZero (host.xfer (t.sent ++ [oiapCommand]) commandBufferSize)) := by
  unfold openSession
  by_cases hvalid : t.session.valid = true
  · rw [if_pos hvalid]
    have hnot : t.session.valid ≠ false := by rw [hvalid]; decide
    exact ⟨iff_of_true (within_pure _) fun h => absurd h hnot, fun _ => hvalid,
      fun _ _ h => absurd h hnot⟩
  · rw [if_neg hvalid]
    obtain ⟨-, hzero⟩ := tpmOiap_val host t false
    refine ⟨?_, fun h => (hzero h).1, fun hwithin hcode _ => ?_⟩
    · rw [within_tpmOiap]
      exact (imp_iff_right (Bool.eq_false_iff.mpr hvalid)).symm
    · have hsafe := (tpmOiap_safe false).mpr ((within_tpmOiap false).mp hwithin)
      have hreturns := hsafe.truthful hcode
      have hended : (endSession host t).val = t := by
        unfold endSession
        rw [if_neg hvalid]
        rfl
      rw [(hzero hcode).2.2.1, hended] at hreturns
      exact hreturns

/- The responses a command in the session is safe on: those of opening it, and its own. -/
def SessionAnswered (host : Host) (request : Option (List UInt8)) (requestLen0 size : ℕ) (t : State)
    (auth : List UInt8) : Prop :=
  (t.session.valid = false → OiapAnswered host t) ∧
    ((openSession host t).val.code = 0 → ∀ buf, request = some buf →
      AuthAnswered host buf requestLen0 size (openSession host t).val.state auth)

theorem runInSession_safe (request : Option (List UInt8)) (hsize : size < 2 ^ 31) (hhandles : handlesLen ≤ 4)
    (hfinish : ∀ r, Received r → r.len ≤ size → 51 ≤ r.len → Within inside (finish r))
    (hfits : ∀ r, (finish r).val.2.length ≤ count) :
    SafeAuth host size count commandCode handlesLen auth t
        (runInSession host request requestLen0 size commandCode handlesLen auth finish t) ↔
      SessionAnswered host request requestLen0 size t auth := by
  obtain ⟨hopen, hvalid, hreturns⟩ := openSession_spec host t
  have hlib : tpmLibError ≠ 0 := by decide
  set first := (openSession host t).val with hfirst
  set rest : Traced Use Answer :=
    if first.code ≠ 0 then pure ⟨first.code, [], first.state⟩
    else request.elim (pure ⟨tpmLibError, [], first.state⟩) fun request =>
      runAuthorised host request requestLen0 size commandCode handlesLen auth finish first.state
    with hrest
  have hrun : runInSession host request requestLen0 size commandCode handlesLen auth finish t =
      openSession host t >>= fun _ => rest := by
    cases request with
    | none => rfl
    | some request => rfl
  have hspec : (Within inside rest ↔ (first.code = 0 → ∀ buf, request = some buf →
      AuthAnswered host buf requestLen0 size first.state auth)) ∧ rest.val.out.length ≤ count ∧
      (Within inside rest → rest.val.code = 0 → first.code = 0 ∧ ReturnsZero (host.xfer rest.val.state.sent size) ∧
        AuthVerifies host commandCode handlesLen auth rest.val.state.session.nonceOdd
          (host.xfer rest.val.state.sent size)) := by
    rw [hrest]
    by_cases hcode : first.code = 0
    swap
    · rw [if_pos hcode]
      exact ⟨iff_of_true (within_pure _) fun h => absurd h hcode, Nat.zero_le count,
        fun _ h => absurd h hcode⟩
    rw [if_neg (not_not.mpr hcode)]
    cases request with
    | none =>
      refine ⟨iff_of_true (within_pure _) fun _ buf h => ?_, Nat.zero_le count, fun _ h => absurd h hlib⟩
      cases h
    | some buf =>
      obtain ⟨hiff, hout, hauth⟩ := runAuthorised_spec hsize hhandles (hvalid hcode) hfinish hfits
        (runAuthorised host buf requestLen0 size commandCode handlesLen auth finish first.state) rfl
      refine ⟨hiff.trans ⟨fun h _ buf' hbuf => ?_, fun h => h hcode buf rfl⟩, hout,
        fun hwithin h => ⟨hcode, hauth hwithin h⟩⟩
      obtain rfl := some.inj hbuf
      exact h
  rw [hrun]
  obtain ⟨hiff, hout, hauth⟩ := hspec
  have hwithin : Within inside (openSession host t >>= fun _ => rest) ↔
      SessionAnswered host request requestLen0 size t auth := by
    rw [within_bind, hopen, hiff]
    exact Iff.rfl
  rw [← hwithin]
  constructor
  · exact fun h => h.within
  · intro h
    obtain ⟨hopened, hsecond⟩ := (within_bind _ _).mp h
    refine ⟨⟨fun hcode => ?_, h, hout⟩, fun hcode hinvalid => ?_, fun hcode => ?_⟩
    · exact (hauth hsecond hcode).2.1
    · exact hreturns hopened (hauth hsecond hcode).1 hinvalid
    · exact (hauth hsecond hcode).2.2

end Authorised

section Finish

variable {host : Host} {r : Reply}

theorem takeKeyHandle_within (hr : Received r) (hlen : r.len ≤ commandBufferSize) (wantHandle : Bool) :
    Within inside (takeKeyHandle host wantHandle r) := by
  have hbig := size_large host
  have hsize : commandBufferSize = 256 := rfl
  unfold takeKeyHandle
  split
  · exact within_unpackOut (by lia) hr (by lia)
  · exact within_pure _

theorem takeKeyHandle_length (wantHandle : Bool) : (takeKeyHandle host wantHandle r).val.2.length ≤ 4 := by
  unfold takeKeyHandle
  split
  · exact unpackOut_length host r 10 4
  · exact Nat.zero_le 4

theorem takePubKey_within (hr : Received r) (hlen : r.len < 2 ^ 31) (hlong : 51 ≤ r.len)
    (pubkey : Option ℕ) : Within inside (takePubKey host pubkey r) := by
  have hsub : host.size (r.len + 2 ^ host.sizeBits - (10 + tpmResponseAuthLength)) = r.len - 51 :=
    size_sub hlong hlen
  cases pubkey with
  | none => exact within_pure _
  | some pubkeyLen =>
    unfold takePubKey
    dsimp only
    rw [hsub]
    split
    · exact within_pure _
    · rw [within_bind, and_iff_left (within_pure _), within_readBytes (by lia), hr.len]
      exact .inr (by lia)

theorem takePubKey_length (pubkey : Option ℕ) :
    (takePubKey host pubkey r).val.2.length ≤ pubkey.getD 0 := by
  cases pubkey with
  | none => exact Nat.zero_le 0
  | some pubkeyLen =>
    unfold takePubKey
    dsimp only
    split
    · exact Nat.zero_le _
    next hroom =>
      rw [val_bind]
      exact (readBytes_length host r 10 _).le.trans (not_lt.mp hroom)

end Finish

inductive Call where
  | nvReadValue (index count : ℕ)
  | extend (index : ℕ) (inDigest : List UInt8)
  | pcrRead (index count : ℕ)
  | readPubek (count : ℕ)
  | getCapability (capArea subCap count : ℕ)
  | getPermanentFlags
  | getPermissions (index : ℕ)
  | oiap (wantHandle : Bool)
  | loadKey2Oiap (parentHandle : ℕ) (key parentKeyUsageAuth : List UInt8) (wantHandle : Bool)
  | getPubKeyOiap (keyHandle : ℕ) (usageAuth : List UInt8) (pubkey : Option ℕ)

def Call.Handled (host : Host) (t : State) : Call → Prop
  | .nvReadValue index count => Safe host commandBufferSize count (tpmNvReadValue host index count t)
  | .extend index inDigest =>
    Safe host (10 + pcrDigestLength) pcrDigestLength (tpmExtend host index inDigest t)
  | .pcrRead index count => Safe host commandBufferSize count (tpmPcrRead host index count t)
  | .readPubek count => Safe host (commandBufferSize + tpmPubekSize) count (tpmReadPubek host count t)
  | .getCapability capArea subCap count =>
    Safe host commandBufferSize count (tpmGetCapability host capArea subCap count t)
  | .getPermanentFlags => Safe host commandBufferSize permanentFlagsSize (tpmGetPermanentFlags host t)
  | .getPermissions index => Safe host commandBufferSize 4 (tpmGetPermissions host index t)
  | .oiap wantHandle => Safe host commandBufferSize 4 (tpmOiap host wantHandle t)
  | .loadKey2Oiap parentHandle key auth wantHandle => SafeAuth host commandBufferSize 4 0x41 4 auth t
    (tpmLoadKey2Oiap host parentHandle key auth wantHandle t)
  | .getPubKeyOiap keyHandle auth pubkey => SafeAuth host pubKeyBufferSize (pubkey.getD 0) 0x21 0 auth t
    (tpmGetPubKeyOiap host keyHandle auth pubkey t)

def Call.Served (host : Host) (t : State) : Call → Prop
  | .nvReadValue index count => Answered host (nvReadRequest host index count) commandBufferSize t
    fun r => 14 ≤ r.len → beValue (bytes r 10 4) ≤ count →
      14 + beValue (bytes r 10 4) < 2 ^ host.sizeBits
  | .extend index inDigest =>
    Answered host (extendRequest host index inDigest) (10 + pcrDigestLength) t fun _ => True
  | .pcrRead index count => Answered host (pcrReadRequest host index count) commandBufferSize t fun _ => True
  | .readPubek _ =>
    Answered host (some readPubekCommand) (commandBufferSize + tpmPubekSize) t fun _ => True
  | .getCapability capArea subCap _ =>
    Answered host (capabilityRequest host capArea subCap) commandBufferSize t fun _ => True
  | .getPermanentFlags => Answered host (some permanentFlagsCommand) commandBufferSize t
    fun r => 10 + permanentFlagsSize ≤ r.len
  | .getPermissions index =>
    Answered host (permissionsRequest host index) commandBufferSize t fun _ => True
  | .oiap _ => OiapAnswered host t
  | .loadKey2Oiap parentHandle key auth _ => SessionAnswered host (loadKeyRequest host parentHandle key)
    (14 + key.length) commandBufferSize t auth
  | .getPubKeyOiap keyHandle auth _ =>
    SessionAnswered host (pubKeyRequest host keyHandle) 14 pubKeyBufferSize t auth

/- Every call is safe and truthful exactly if every transfer it makes succeeds and brings the header,
and the response of an accepted command the flags, or the authentication block, that are read
unchecked. -/
theorem responses_handled (host : Host) (t : State) (c : Call) : c.Handled host t ↔ c.Served host t := by
  have hpub : pubKeyBufferSize = 339 := rfl
  cases c with
  | nvReadValue index count => exact tpmNvReadValue_safe index count
  | extend index inDigest => exact tpmExtend_safe index inDigest
  | pcrRead index count => exact tpmPcrRead_safe index count
  | readPubek count => exact tpmReadPubek_safe count
  | getCapability capArea subCap count => exact tpmGetCapability_safe capArea subCap count
  | getPermanentFlags => exact tpmGetPermanentFlags_safe
  | getPermissions index => exact tpmGetPermissions_safe index
  | oiap wantHandle => exact tpmOiap_safe wantHandle
  | loadKey2Oiap parentHandle key auth wantHandle =>
    exact runInSession_safe _ (by decide) le_rfl (fun r hr hlen _ => takeKeyHandle_within hr hlen wantHandle)
      fun r => takeKeyHandle_length wantHandle
  | getPubKeyOiap keyHandle auth pubkey =>
    refine runInSession_safe _ (by decide) (by decide) (fun r hr hlen hlong => ?_)
      fun r => takePubKey_length pubkey
    exact takePubKey_within hr (by lia) hlong pubkey

def silentHost : Host where
  sizeBits := 32
  size_ge := le_rfl
  device := 0
  xfer := fun _ size => ⟨-110, size, fun _ => 0⟩
  len_le := fun _ _ => le_rfl
  stack := fun _ => 0
  commandAt := 0
  sha1 := fun _ => List.replicate 20 0

/- The read reports success, with a digest that nobody sent. -/
theorem silent_pcrRead_succeeds : ¬ (Call.pcrRead 0 20).Handled silentHost ⟨⟨false, 0, [], []⟩, []⟩ := by
  intro h
  have hzero : (tpmPcrRead silentHost 0 20 ⟨⟨false, 0, [], []⟩, []⟩).val.code = 0 := by decide +kernel
  have hfailed : ((-110 : ℤ) = 0) := (h.truthful hzero).1.1
  exact absurd hfailed (by decide)

end UBoot.Tpm
