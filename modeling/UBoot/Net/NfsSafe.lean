import UBoot.Net.Nfs

/-!
# Memory and the replies of an NFS server

The reply functions trust the lengths in a reply and its own length. `Fits` describes the replies
for which their accesses stay inside the payload and the buffers.
-/

namespace UBoot.Nfs

open UBoot.Access List
open Memory (Mem bytes bytes_congr bytes_succ length_bytes)
open Limbs (beValue)

/- What an access may touch. Of `rpc_pkt` only the bytes that came with the payload count. -/
def Allowed (pkt : Pkt) : Access → Prop
  | .packet off len => off + len ≤ pkt.len
  | .copied off len => off + len ≤ pkt.len
  | .rpcPkt len => len ≤ 2048
  | .dirfh len => len ≤ nfsFhsize
  | .filefh len => len ≤ nfsFhsize
  | .path off len => 0 ≤ off ∧ off + len ≤ 2048
  | .block len => len ≤ pkt.len - replySize

section Conditions

variable (c : Client) (pkt : Pkt)

def Readable : List ℕ → Prop
  | [] => True
  | off :: offs => off + 4 ≤ pkt.len ∧ (ntohl pkt.mem off = 0 → Readable offs)

/- A reply to the current request without an error in the words at the offsets. -/
def Accepted (offs : List ℕ) : Prop :=
  ntohl pkt.mem 0 = c.rpcId ∧ ∀ off ∈ offs, ntohl pkt.mem off = 0

/- The payload fits in `rpc_pkt`, and its id and status words are there. -/
def HeaderFits (offs : List ℕ) : Prop :=
  pkt.len ≤ 2048 ∧ 4 ≤ pkt.len ∧ (ntohl pkt.mem 0 = c.rpcId → Readable pkt offs)

/- The target of a link is in the payload and fits behind the path; it is not an empty one. -/
def LinkFits : Prop :=
  33 ≤ pkt.len ∧ 32 + ntohl pkt.mem 28 ≤ pkt.len ∧
    if pkt.mem 32 = slash then 1 ≤ ntohl pkt.mem 28
    else c.path.length + 1 + ntohl pkt.mem 28 + 1 ≤ 2048

def Fits (dest : ℕ) : Prop :=
  dest = nfsOurPort →
    match c.state with
    | .prclookupProgMountReq | .prclookupProgNfsReq =>
      HeaderFits c pkt statusWords ∧ (Accepted c pkt statusWords → 28 ≤ pkt.len)
    | .mountReq | .lookupReq =>
      HeaderFits c pkt statusAndData ∧ (Accepted c pkt statusAndData → 60 ≤ pkt.len)
    | .umountReq => HeaderFits c pkt statusWords
    | .readlinkReq =>
      HeaderFits c pkt statusAndData ∧ (Accepted c pkt statusAndData → LinkFits c pkt)
    | .readReq =>
      replySize ≤ pkt.len ∧ (Accepted c pkt statusAndData → replySize + ntohl pkt.mem 96 ≤ pkt.len)

end Conditions

section Copies

variable (stack : Mem) {pkt : Pkt} {n off len : ℕ}

theorem bytes_rpcPkt (h : off + len ≤ n) :
    bytes (rpcPkt stack pkt n) off len = bytes pkt.mem off len := by
  apply bytes_congr
  intro x _ hx
  exact if_pos (by lia)

theorem ntohl_rpcPkt (h : off + 4 ≤ n) : ntohl (rpcPkt stack pkt n) off = ntohl pkt.mem off := by
  rw [ntohl, bytes_rpcPkt stack h, ntohl]

theorem within_anyNonzero {offs : List ℕ} (hn : ∀ off ∈ offs, off + 4 ≤ pkt.len → off + 4 ≤ n) :
    Within (Allowed pkt) (anyNonzero (rpcPkt stack pkt n) offs) ↔ Readable pkt offs := by
  induction offs with
  | nil => simp only [anyNonzero, within_pure, Readable]
  | cons off offs ih =>
    have hrest := ih fun o ho => hn o (mem_cons_of_mem _ ho)
    simp only [anyNonzero, within_bind, within_touch, within_ite, within_pure, Readable, hrest]
    constructor
    · rintro ⟨hin, -, hzero⟩
      rw [ntohl_rpcPkt stack (hn off mem_cons_self hin), not_not] at hzero
      exact ⟨hin, hzero⟩
    · rintro ⟨hin, hzero⟩
      rw [ntohl_rpcPkt stack (hn off mem_cons_self hin), not_not]
      exact ⟨hin, fun _ => trivial, hzero⟩

theorem anyNonzero_val {offs : List ℕ} (hn : ∀ off ∈ offs, off + 4 ≤ pkt.len → off + 4 ≤ n)
    (h : Readable pkt offs) :
    (anyNonzero (rpcPkt stack pkt n) offs).val = false ↔ ∀ off ∈ offs, ntohl pkt.mem off = 0 := by
  induction offs with
  | nil => simp only [anyNonzero, val_pure, not_mem_nil, false_imp_iff, implies_true]
  | cons off offs ih =>
    obtain ⟨hin, hrest⟩ := h
    have hword : ntohl (rpcPkt stack pkt n) off = ntohl pkt.mem off :=
      ntohl_rpcPkt stack (hn off mem_cons_self hin)
    simp only [anyNonzero, val_bind, val_ite, val_pure, hword, forall_mem_cons]
    by_cases hzero : ntohl pkt.mem off = 0
    · rw [if_neg (not_not.mpr hzero), ih (fun o ho => hn o (mem_cons_of_mem _ ho)) (hrest hzero)]
      simp only [hzero, true_and]
    · rw [if_pos hzero]
      simp only [hzero, false_and, Bool.true_eq_false]

end Copies

section Replies

variable {stack : Mem} {c : Client} {pkt : Pkt} {n : ℕ} {offs : List ℕ}

theorem within_checkId (hn : 4 ≤ pkt.len → 4 ≤ n) (next : Traced Access (Client × ℤ)) :
    Within (Allowed pkt) (checkId c (rpcPkt stack pkt n) next) ↔
      4 ≤ pkt.len ∧ (ntohl pkt.mem 0 = c.rpcId → Within (Allowed pkt) next) := by
  simp only [checkId, within_bind, within_touch, within_ite, within_pure, implies_true, true_and]
  constructor
  · rintro ⟨hlen, hnext⟩
    have hin : 4 ≤ pkt.len := by simpa [Allowed] using hlen
    rw [ntohl_rpcPkt stack (hn hin)] at hnext
    exact ⟨hin, fun hid => hnext (by lia) (by lia)⟩
  · rintro ⟨hin, hnext⟩
    rw [ntohl_rpcPkt stack (hn hin)]
    exact ⟨by simpa [Allowed] using hin, fun h₁ h₂ => hnext (by lia)⟩

theorem checkId_val (hn : 4 ≤ n) (next : Traced Access (Client × ℤ)) :
    (checkId c (rpcPkt stack pkt n) next).val =
      if c.rpcId < ntohl pkt.mem 0 then (c, -nfsRpcErr)
      else if ntohl pkt.mem 0 < c.rpcId then (c, -nfsRpcDrop) else next.val := by
  simp only [checkId, val_bind, val_ite, val_pure, ntohl_rpcPkt stack hn]

variable {accept : Mem → Traced Access (Client × ℤ)}

theorem within_received :
    Within (Allowed pkt) (received stack c pkt offs accept) ↔ HeaderFits c pkt offs ∧
      (Accepted c pkt offs → Within (Allowed pkt) (accept (rpcPkt stack pkt pkt.len))) := by
  simp only [received, within_bind, within_touch, within_checkId id,
    within_anyNonzero stack fun _ _ => id]
  simp only [Allowed, Nat.zero_add, le_refl, true_and, HeaderFits, Accepted]
  constructor
  · rintro ⟨hlen, hid, hcur⟩
    refine ⟨⟨hlen, hid, fun h => (hcur h).1⟩, ?_⟩
    rintro ⟨hcurrent, hzero⟩
    obtain ⟨hread, haccept⟩ := hcur hcurrent
    rw [(anyNonzero_val stack (fun _ _ => id) hread).mpr hzero] at haccept
    exact haccept
  · rintro ⟨⟨hlen, hid, hread⟩, haccept⟩
    refine ⟨hlen, hid, fun hcurrent => ⟨hread hcurrent, ?_⟩⟩
    cases hany : (anyNonzero (rpcPkt stack pkt pkt.len) offs).val with
    | true => exact within_pure _
    | false =>
      exact haccept ⟨hcurrent, (anyNonzero_val stack (fun _ _ => id) (hread hcurrent)).mp hany⟩

variable (stack accept) in
theorem received_val (hid : 4 ≤ pkt.len) (hread : ntohl pkt.mem 0 = c.rpcId → Readable pkt offs) :
    (Accepted c pkt offs ∧
      (received stack c pkt offs accept).val = (accept (rpcPkt stack pkt pkt.len)).val) ∨
    ¬ Accepted c pkt offs ∧ ((received stack c pkt offs accept).val = (c, -nfsRpcDrop) ∨
      (received stack c pkt offs accept).val = (c, -nfsRpcErr)) := by
  simp only [received, val_bind, checkId_val hid]
  by_cases hlt : c.rpcId < ntohl pkt.mem 0
  · rw [if_pos hlt]
    exact .inr ⟨fun hacc => absurd hacc.1 (by lia), .inr rfl⟩
  rw [if_neg hlt]
  by_cases hgt : ntohl pkt.mem 0 < c.rpcId
  · rw [if_pos hgt]
    exact .inr ⟨fun hacc => absurd hacc.1 (by lia), .inl rfl⟩
  rw [if_neg hgt]
  have hcur : ntohl pkt.mem 0 = c.rpcId := by lia
  have hany := anyNonzero_val stack (fun _ _ => id) (hread hcur)
  cases hval : (anyNonzero (rpcPkt stack pkt pkt.len) offs).val with
  | true =>
    refine .inr ⟨fun hacc => ?_, .inr rfl⟩
    rw [hany.mpr hacc.2] at hval
    cases hval
  | false => exact .inl ⟨⟨hcur, hany.mp hval⟩, rfl⟩

theorem within_lookedUp (reply : Traced Access (Client × ℤ)) (next : State) :
    Within (Allowed pkt) (lookedUp reply next) ↔ Within (Allowed pkt) reply := by
  simp only [lookedUp, within_bind, within_ite, within_pure, implies_true, and_true]

theorem within_advance (reply : Traced Access (Client × ℤ)) (next : Client → Traced Access Client) :
    Within (Allowed pkt) (advance reply next) ↔ Within (Allowed pkt) reply ∧
      (reply.val.2 ≠ -nfsRpcDrop → reply.val.2 ≠ -nfsRpcErr →
        Within (Allowed pkt) (next reply.val.1)) := by
  simp only [advance, within_bind, within_ite, within_pure, implies_true, true_and, and_true]

end Replies

variable {path : Path}

theorem lastSlash_lt : ∀ {i : ℕ}, lastSlash path = some i → i < path.length := by
  induction path with
  | nil =>
    intro i h
    cases h
  | cons c path ih =>
    intro i h
    rw [lastSlash] at h
    rw [length_cons]
    cases hlast : lastSlash path with
    | some j =>
      rw [hlast] at h
      have hj := ih hlast
      have hi : j + 1 = i := Option.some.inj h
      lia
    | none =>
      rw [hlast] at h
      dsimp only at h
      split at h
      · have hi : 0 = i := Option.some.inj h
        lia
      · cases h

theorem lastSlash_of_mem (h : slash ∈ path) : ∃ i, lastSlash path = some i := by
  induction path with
  | nil => cases h
  | cons c path ih =>
    rw [lastSlash]
    cases hlast : lastSlash path with
    | some j => exact ⟨j + 1, rfl⟩
    | none =>
      cases mem_cons.mp h with
      | inl hc => exact ⟨0, if_pos hc.symm⟩
      | inr hmem =>
        obtain ⟨j, hj⟩ := ih hmem
        rw [hj] at hlast
        cases hlast

theorem basenameIdx_of_mem (h : slash ∈ path) :
    0 ≤ basenameIdx path - 1 ∧ basenameIdx path ≤ path.length := by
  obtain ⟨i, hi⟩ := lastSlash_of_mem h
  have hlt := lastSlash_lt hi
  rw [basenameIdx, hi]
  dsimp only
  lia

theorem length_cstr_le (s : List UInt8) : (cstr s).length ≤ s.length := by
  rw [cstr]
  exact ( takeWhile_prefix _).length_le

theorem int_of_lt {x : ℕ} (h : x < 2 ^ 31) : int x = x := if_pos h

section Links

variable {stack : Mem} {c : Client} {pkt : Pkt}

theorem followLink_ok (rpc : Mem) : (followLink c rpc).val.2 = 0 := by
  simp only [followLink, val_bind, val_ite, val_pure]
  split
  · rfl
  · rfl

theorem slash_mem_cstr {mem : Mem} {off w : ℕ} (hslash : mem off = slash) (hw : 1 ≤ w) :
    slash ∈ cstr (bytes mem off w) := by
  obtain ⟨n, rfl⟩ := Nat.exists_eq_add_of_le' hw
  rw [bytes_succ, hslash, cstr, takeWhile_cons_of_pos (by decide)]
  exact mem_cons_self

theorem length_cstr_bytes (mem : Mem) (off w : ℕ) : (cstr (bytes mem off w)).length ≤ w := by
  have hle := length_cstr_le (bytes mem off w)
  rwa [length_bytes] at hle

theorem within_followLink (hlen : pkt.len ≤ 2048) :
    Within (Allowed pkt) (followLink c (rpcPkt stack pkt pkt.len)) ∧
        Within (Allowed pkt) (splitPath (followLink c (rpcPkt stack pkt pkt.len)).val.1) ↔
      LinkFits c pkt := by
  simp only [followLink, splitPath, within_bind, within_touch, within_ite, within_pure, val_bind,
    val_ite, val_pure, Allowed, LinkFits, and_true]
  by_cases hin : 33 ≤ pkt.len
  swap
  · constructor
    · rintro ⟨⟨-, hone, -⟩, -⟩
      lia
    · rintro ⟨hone, -⟩
      lia
  have hrlen : ntohl (rpcPkt stack pkt pkt.len) 28 = ntohl pkt.mem 28 :=
    ntohl_rpcPkt stack (by lia)
  have hfirst : rpcPkt stack pkt pkt.len 32 = pkt.mem 32 := if_pos (by lia)
  rw [hrlen, hfirst]
  by_cases htarget : 32 + ntohl pkt.mem 28 ≤ pkt.len
  swap
  · by_cases habs : pkt.mem 32 = slash
    · constructor
      · rintro ⟨⟨-, -, -, hboth⟩, -⟩
        exact absurd (hboth (not_not.mpr habs)).1 htarget
      · rintro ⟨-, hboth, -⟩
        exact absurd hboth htarget
    · constructor
      · rintro ⟨⟨-, -, hboth, -⟩, -⟩
        exact absurd (hboth habs).2.1 htarget
      · rintro ⟨-, hboth, -⟩
        exact absurd hboth htarget
  have hint := int_of_lt (show ntohl pkt.mem 28 < 2 ^ 31 by lia)
  have hsize := length_cstr_bytes pkt.mem 32 (ntohl pkt.mem 28)
  rw [bytes_rpcPkt stack htarget, hint]
  by_cases habs : pkt.mem 32 = slash
  · simp only [habs, ne_eq, not_true_eq_false, if_false, false_imp_iff, true_imp_iff, true_and,
      if_true, not_false_eq_true]
    constructor
    · rintro ⟨-, hsplit, -⟩
      refine ⟨hin, htarget, Nat.pos_of_ne_zero fun hzero => ?_⟩
      -- the slash in front of an empty path
      rw [hzero] at hsplit
      have hempty : basenameIdx (cstr (bytes pkt.mem 32 0)) = -1 := rfl
      lia
    · rintro ⟨-, -, hw⟩
      obtain ⟨hnonneg, hle⟩ := basenameIdx_of_mem (slash_mem_cstr habs hw)
      refine ⟨⟨by lia, by lia, htarget, ⟨by lia, by lia⟩, by lia, by lia⟩, hnonneg, ?_⟩
      lia
  · simp only [habs, ne_eq, not_false_eq_true, if_true, true_imp_iff, not_true_eq_false,
      false_imp_iff, and_true, if_false]
    constructor
    · rintro ⟨⟨-, -, -, -, -, -, hend⟩, -⟩
      refine ⟨hin, htarget, ?_⟩
      lia
    · rintro ⟨-, -, hroom⟩
      have hmem : slash ∈ c.path ++ slash :: cstr (bytes pkt.mem 32 (ntohl pkt.mem 28)) :=
        mem_append_right _ mem_cons_self
      obtain ⟨hnonneg, hle⟩ := basenameIdx_of_mem hmem
      rw [length_append, length_cons] at hle
      refine ⟨⟨by lia, by lia, ⟨by lia, by lia⟩, htarget, ⟨by lia, by lia⟩,
        by lia, by lia⟩, hnonneg, ?_⟩
      lia

theorem within_readlink :
    Within (Allowed pkt) (advance (nfsReadlinkReply stack c pkt) splitPath) ↔
      HeaderFits c pkt statusAndData ∧ (Accepted c pkt statusAndData → LinkFits c pkt) := by
  rw [within_advance, nfsReadlinkReply, within_received]
  constructor
  · rintro ⟨⟨hheader, hbody⟩, hsplit⟩
    refine ⟨hheader, fun hacc => ?_⟩
    cases received_val stack (followLink c) hheader.2.1 hheader.2.2 with
    | inl hval =>
      rw [hval.2, followLink_ok] at hsplit
      exact (within_followLink hheader.1).mp ⟨hbody hacc, hsplit (by decide) (by decide)⟩
    | inr hnot => exact absurd hacc hnot.1
  · rintro ⟨hheader, hlink⟩
    refine ⟨⟨hheader, fun hacc => ((within_followLink hheader.1).mpr (hlink hacc)).1⟩, ?_⟩
    intro hdrop herr
    rcases received_val stack (followLink c) hheader.2.1 hheader.2.2 with
      ⟨hacc, hval⟩ | ⟨-, hval | hval⟩
    · rw [hval]
      exact ((within_followLink hheader.1).mpr (hlink hacc)).2
    · rw [hval] at hdrop
      exact absurd rfl hdrop
    · rw [hval] at herr
      exact absurd rfl herr

end Links

theorem within_readReply (stack : Mem) (loadAddr : ℕ) (c : Client) (pkt : Pkt) :
    Within (Allowed pkt) (nfsReadReply stack loadAddr c pkt) ↔ replySize ≤ pkt.len ∧
      (Accepted c pkt statusAndData → replySize + ntohl pkt.mem 96 ≤ pkt.len) := by
  simp only [nfsReadReply, within_bind, within_touch]
  by_cases hlen : replySize ≤ pkt.len
  swap
  · constructor
    · rintro ⟨hcopy, -⟩
      have hcopied : 0 + replySize ≤ pkt.len := hcopy
      lia
    · rintro ⟨hcopied, -⟩
      exact absurd hcopied hlen
  have hsize : replySize = 100 := rfl
  have hwords : ∀ off ∈ statusAndData, off + 4 ≤ pkt.len → off + 4 ≤ replySize := by
    intro off hoff _
    simp only [statusAndData, mem_cons, not_mem_nil, or_false] at hoff
    lia
  have hread : Readable pkt statusAndData := by
    refine ⟨by lia, fun _ => ⟨by lia, fun _ => ⟨by lia, fun _ => ⟨by lia, fun _ => trivial⟩⟩⟩⟩
  have hcount : ntohl (rpcPkt stack pkt replySize) 96 = ntohl pkt.mem 96 :=
    ntohl_rpcPkt stack (by lia)
  have hany := anyNonzero_val stack hwords hread
  rw [within_checkId (fun _ => by lia)]
  simp only [within_bind, within_anyNonzero stack hwords, within_ite, within_touch, within_pure,
    Accepted, hcount, Allowed, implies_true, and_true]
  constructor
  · rintro ⟨-, -, -, hbody⟩
    refine ⟨hlen, fun hacc => ?_⟩
    obtain ⟨-, -, hnot⟩ := hbody hacc.1
    rw [hany.mpr hacc.2] at hnot
    exact (hnot Bool.false_ne_true).2.1
  · rintro ⟨-, hblock⟩
    refine ⟨by lia, by decide, by lia, fun hid => ⟨hread, ?_, ?_⟩⟩
    · intro _
      exact ⟨by lia, trivial, fun _ => ⟨by lia, trivial, fun _ => by lia⟩⟩
    · intro hval
      have hzero := hany.mp (Bool.eq_false_iff.mpr hval)
      have hin := hblock ⟨hid, hzero⟩
      exact ⟨by lia, hin, by lia⟩

/- The accesses of the handler stay in the payload and in the buffers exactly for the replies that
fit. -/
theorem nfsHandler_within_iff (stack : Mem) (loadAddr : ℕ) (c : Client) (dest : ℕ) (pkt : Pkt) :
    Within (Allowed pkt) (nfsHandler stack loadAddr c dest pkt) ↔ Fits c pkt dest := by
  rw [nfsHandler, Fits]
  by_cases hdest : dest = nfsOurPort
  swap
  · simp only [ne_eq, hdest, not_false_eq_true, if_true, within_pure, false_imp_iff]
  simp only [ne_eq, hdest, not_true_eq_false, if_false, true_imp_iff]
  cases c.state with
  | prclookupProgMountReq =>
    simp only [within_lookedUp, rpcLookupReply, within_received, within_bind, within_touch,
      within_pure, Allowed, and_true]
  | prclookupProgNfsReq =>
    simp only [within_lookedUp, rpcLookupReply, within_received, within_bind, within_touch,
      within_pure, Allowed, and_true]
  | mountReq =>
    simp only [within_advance, nfsMountReply, within_received, within_bind, within_touch,
      within_pure, Allowed, and_true, implies_true, le_refl]
    rfl
  | umountReq =>
    simp only [finish, nfsUmountallReply, within_received, within_bind, within_touch, within_ite,
      within_pure, Allowed, and_true, implies_true, le_refl]
  | lookupReq =>
    simp only [within_advance, nfsLookupReply, within_received, within_bind, within_touch,
      within_pure, Allowed, and_true, implies_true, le_refl]
    rfl
  | readReq =>
    simp only [proceed, within_bind, within_readReply, within_ite, within_pure, implies_true,
      and_true]
  | readlinkReq => exact within_readlink

def readingClient : Client where
  fsMounted := true
  rpcId := 5
  nfsOffset := 0
  nfsLen := nfsReadSize
  dirfh := []
  filefh := []
  downloadState := .fail
  mountPort := 1
  port := 2
  timeoutCount := 0
  state := .readReq
  path := []
  filename := []
  net := .loop
  mem := fun _ => 0
  netBootFileSize := 0

def emptyReply : Pkt := ⟨100, fun i => if i = 3 then 5 else if i = 98 then 4 else 0⟩

theorem nfsHandler_not_within :
    ¬ Within (Allowed emptyReply) (nfsHandler (fun _ => 0) 0 readingClient nfsOurPort emptyReply) := by
  intro h
  have hmem : Access.block 1024 ∈
      (nfsHandler (fun _ => 0) 0 readingClient nfsOurPort emptyReply).accesses := by decide +kernel
  have hlen : 1024 ≤ 100 - replySize := h _ hmem
  exact absurd hlen (by decide)

end UBoot.Nfs
