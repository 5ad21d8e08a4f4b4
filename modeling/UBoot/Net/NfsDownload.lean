import Mathlib.Data.List.TakeWhile
import UBoot.Net.NfsRuns

/-!
# The file in memory

In every state the last request is the one of the state, and the reply to it leads on to the
bytes of the file.
-/

namespace UBoot.Nfs

open UBoot.Access List Option
open Memory (Mem bytes bytes_succ length_bytes)
open Tftp (NetState region copyIn region_append region_copyIn_same region_copyIn_before)

def callOf (c : Client) : Call :=
  match c.state with
  | .prclookupProgMountReq => .getport .mount
  | .prclookupProgNfsReq => .getport .nfs
  | .mountReq => .addentry c.path
  | .umountReq => .umountall
  | .lookupReq => .lookup c.dirfh c.filename
  | .readReq => .read c.filefh c.nfsOffset c.nfsLen
  | .readlinkReq => .readlink c.filefh

def Mounted (c : Client) : Prop := c.fsMounted = true ∧ c.mountPort ≠ 2 ^ 32 - 1

/- The first `n` bytes of the file are in memory. -/
def InMemory (loadAddr : ℕ) (content : List UInt8) (n : ℕ) (c : Client) : Prop :=
  region c.mem loadAddr n = content.take n ∧ c.netBootFileSize = n

def Goal (srv : Server) (loadAddr : ℕ) (content : List UInt8) (c : Client) : Prop :=
  match c.state with
  | .prclookupProgMountReq => Found srv c.path c.filename content ∧ c.netBootFileSize = 0
  | .prclookupProgNfsReq | .mountReq =>
    Found srv c.path c.filename content ∧ c.netBootFileSize = 0 ∧ c.mountPort ≠ 2 ^ 32 - 1
  | .lookupReq =>
    (∃ f, srv.lookup c.dirfh c.filename = some f ∧ Leads srv c.path f content) ∧
      c.netBootFileSize = 0 ∧ Mounted c
  | .readReq =>
    Leads srv c.path c.filefh content ∧ Mounted c ∧ c.nfsLen = nfsReadSize ∧
      c.nfsOffset ≤ content.length ∧ InMemory loadAddr content c.nfsOffset c ∧
      (srv.file c.filefh = none → c.nfsOffset = 0)
  | .readlinkReq =>
    (∃ target, srv.link c.filefh = some target ∧
      Found srv (dirname (follow c.path target)) (basename (follow c.path target)) content) ∧
      c.netBootFileSize = 0 ∧ Mounted c
  | .umountReq => c.downloadState = .success ∧ InMemory loadAddr content content.length c

structure Inv (srv : Server) (loadAddr : ℕ) (content : List UInt8) (d : Download) : Prop where
  asked : ∃ req rest, d.sent = req :: rest ∧ req.id = d.client.rpcId ∧ req.call = callOf d.client
  goal : Goal srv loadAddr content d.client
  net : d.client.net ≠ .fail
  done : d.client.net = .success → d.client.state = .umountReq

section Sending

variable {srv : Server} {loadAddr : ℕ} {content : List UInt8} {c : Client}

theorem nfsSend_eq (h : c.state = .umountReq → Mounted c) :
    ∃ sport, nfsSend c = rpcReq c sport (callOf c) := by
  rw [nfsSend, callOf]
  cases hstate : c.state with
  | umountReq =>
    obtain ⟨hmounted, hport⟩ := h hstate
    have hsend : ¬ (c.mountPort = 2 ^ 32 - 1 ∨ c.fsMounted = false) := by
      rintro (heq | hnot)
      · exact hport heq
      · rw [hmounted] at hnot
        cases hnot
    dsimp only
    rw [nfsUmountallReq, if_neg hsend]
    exact ⟨_, rfl⟩
  | prclookupProgMountReq => exact ⟨_, rfl⟩
  | prclookupProgNfsReq => exact ⟨_, rfl⟩
  | mountReq => exact ⟨_, rfl⟩
  | lookupReq => exact ⟨_, rfl⟩
  | readReq => exact ⟨_, rfl⟩
  | readlinkReq => exact ⟨_, rfl⟩

theorem nfsSend_unmounted (hstate : c.state = .umountReq) (hnot : ¬ Mounted c) :
    nfsSend c = (c, none) := by
  have hskip : c.mountPort = 2 ^ 32 - 1 ∨ c.fsMounted = false := by
    by_contra hboth
    rw [not_or, Bool.not_eq_false] at hboth
    exact hnot ⟨hboth.2, hboth.1⟩
  rw [nfsSend, hstate]
  dsimp only
  rw [nfsUmountallReq, if_pos hskip]

theorem Inv.send (d : Download) (hgoal : Goal srv loadAddr content c)
    (hmounted : c.state = .umountReq → Mounted c) (hnet : c.net ≠ .fail)
    (hdone : c.net = .success → c.state = .umountReq) :
    Inv srv loadAddr content (d.after (nfsSend c)) := by
  obtain ⟨sport, hsend⟩ := nfsSend_eq hmounted
  rw [hsend]
  exact ⟨⟨_, d.sent, rfl, rfl, rfl⟩, hgoal, hnet, hdone⟩

variable (loadAddr) in
theorem inv_start (p : Client) {path : Path}
    (hfound : Found srv (dirname path) (basename path) content) :
    Inv srv loadAddr content (Download.start p path) := by
  rw [Download.start, nfsStart]
  refine Inv.send _ ⟨hfound, rfl⟩ (fun h => ?_) (fun h => ?_) (fun h => ?_)
  · cases h
  · cases h
  · cases h

theorem Inv.timeout {d : Download} (h : Inv srv loadAddr content d) :
    Inv srv loadAddr content (d.after (nfsTimeoutHandler d.client)) := by
  obtain ⟨⟨req, rest, hsent, hid, hcall⟩, hgoal, hnet, hdone⟩ := h
  rw [nfsTimeoutHandler]
  dsimp only
  split
  · -- `net_start_again`
    refine ⟨⟨req, rest, hsent, hid, hcall⟩, hgoal, fun hfail => ?_, fun hsucc => ?_⟩
    · cases hfail
    · cases hsucc
  · by_cases hready : d.client.state = .umountReq → Mounted d.client
    · exact Inv.send d (c := { d.client with timeoutCount := d.client.timeoutCount + 1 })
        hgoal hready hnet hdone
    · -- the unmount is not sent a second time
      obtain ⟨hstate, hnot⟩ := Classical.not_imp.mp hready
      have hsame := nfsSend_unmounted
        (c := { d.client with timeoutCount := d.client.timeoutCount + 1 }) hstate hnot
      rw [hsame]
      exact ⟨⟨req, rest, hsent, hid, hcall⟩, hgoal, hnet, hdone⟩

end Sending

section Replies

variable {srv : Server} {loadAddr : ℕ} {content : List UInt8} {c : Client} {pkt : Pkt}
  {stack : Mem}

theorem readable_status (h : 24 ≤ pkt.len) : Readable pkt statusWords :=
  ⟨by lia, fun _ => ⟨by lia, fun _ => ⟨by lia, fun _ => trivial⟩⟩⟩

theorem readable_data (h : 28 ≤ pkt.len) : Readable pkt statusAndData :=
  ⟨by lia, fun _ => ⟨by lia, fun _ => ⟨by lia, fun _ => ⟨by lia, fun _ => trivial⟩⟩⟩⟩

theorem zero_data (hstatus : ∀ off ∈ statusWords, ntohl pkt.mem off = 0)
    (hdata : ntohl pkt.mem 24 = 0) : ∀ off ∈ statusAndData, ntohl pkt.mem off = 0 := by
  have hsplit : statusAndData = statusWords ++ [24] := rfl
  rw [hsplit]
  intro off hoff
  cases mem_append.mp hoff with
  | inl hmem => exact hstatus off hmem
  | inr hmem => rw [mem_singleton.mp hmem, hdata]

theorem received_accepted {offs : List ℕ} (hlen : 4 ≤ pkt.len) (hread : Readable pkt offs)
    (hacc : Accepted c pkt offs) (accept : Mem → Traced Access (Client × ℤ)) :
    (received stack c pkt offs accept).val = (accept (rpcPkt stack pkt pkt.len)).val := by
  cases received_val stack accept hlen fun _ => hread with
  | inl hval => exact hval.2
  | inr hnot => exact absurd hacc hnot.1

theorem lookup_reply (prog : Prog) (hid : ntohl pkt.mem 0 = c.rpcId)
    (hstatus : ∀ off ∈ statusWords, ntohl pkt.mem off = 0) (hlen : 28 ≤ pkt.len) :
    (rpcLookupReply stack c prog pkt).val = match prog with
      | .mount => ({ c with mountPort := ntohl pkt.mem 24 }, 0)
      | .nfs => ({ c with port := ntohl pkt.mem 24 }, 0) := by
  have hport : ntohl (rpcPkt stack pkt pkt.len) 24 = ntohl pkt.mem 24 :=
    ntohl_rpcPkt stack (by lia)
  rw [rpcLookupReply, received_accepted (by lia) (readable_status (by lia)) ⟨hid, hstatus⟩,
    val_bind, hport]
  cases prog with
  | mount => rfl
  | nfs => rfl

theorem mount_reply (hid : ntohl pkt.mem 0 = c.rpcId)
    (hstatus : ∀ off ∈ statusAndData, ntohl pkt.mem off = 0) (hlen : 60 ≤ pkt.len) :
    (nfsMountReply stack c pkt).val =
      ({ c with fsMounted := true, dirfh := bytes pkt.mem 28 nfsFhsize }, 0) := by
  have hfh : bytes (rpcPkt stack pkt pkt.len) 28 nfsFhsize = bytes pkt.mem 28 nfsFhsize :=
    bytes_rpcPkt stack hlen
  rw [nfsMountReply, received_accepted (by lia) (readable_data (by lia)) ⟨hid, hstatus⟩, ← hfh]
  rfl

theorem handle_reply (hid : ntohl pkt.mem 0 = c.rpcId)
    (hstatus : ∀ off ∈ statusAndData, ntohl pkt.mem off = 0) (hlen : 60 ≤ pkt.len) :
    (nfsLookupReply stack c pkt).val = ({ c with filefh := bytes pkt.mem 28 nfsFhsize }, 0) := by
  have hfh : bytes (rpcPkt stack pkt pkt.len) 28 nfsFhsize = bytes pkt.mem 28 nfsFhsize :=
    bytes_rpcPkt stack hlen
  rw [nfsLookupReply, received_accepted (by lia) (readable_data (by lia)) ⟨hid, hstatus⟩, ← hfh]
  rfl

theorem umountall_reply (hid : ntohl pkt.mem 0 = c.rpcId)
    (hstatus : ∀ off ∈ statusWords, ntohl pkt.mem off = 0) (hlen : 24 ≤ pkt.len) :
    (nfsUmountallReply stack c pkt).val =
      ({ c with fsMounted := false, dirfh := List.replicate nfsFhsize 0 }, 0) := by
  rw [nfsUmountallReply, received_accepted (by lia) (readable_status hlen) ⟨hid, hstatus⟩]
  rfl

theorem cstr_of_not_mem {s : List UInt8} (h : 0 ∉ s) : cstr s = s := by
  rw [cstr, takeWhile_eq_self_iff]
  intro b hb
  exact decide_eq_true fun hzero => h (hzero ▸ hb)

theorem readlink_reply {target : Path} (hid : ntohl pkt.mem 0 = c.rpcId)
    (hstatus : ∀ off ∈ statusAndData, ntohl pkt.mem off = 0)
    (hlen : 32 + target.length ≤ pkt.len) (hrlen : ntohl pkt.mem 28 = target.length)
    (htarget : bytes pkt.mem 32 target.length = target) (hne : target ≠ []) (hchars : 0 ∉ target) :
    (nfsReadlinkReply stack c pkt).val = ({ c with path := follow c.path target }, 0) := by
  have hpos : 0 < target.length := length_pos_iff.mpr hne
  have hword : ntohl (rpcPkt stack pkt pkt.len) 28 = target.length := by
    rw [ntohl_rpcPkt stack (by lia), hrlen]
  have hfirst : rpcPkt stack pkt pkt.len 32 = pkt.mem 32 := if_pos (by lia)
  have hhead : target.head? = some (pkt.mem 32) := by
    obtain ⟨n, hn⟩ := Nat.exists_eq_add_of_le' hpos
    rw [← htarget, hn, bytes_succ]
    rfl
  rw [nfsReadlinkReply, received_accepted (by lia) (readable_data (by lia)) ⟨hid, hstatus⟩]
  simp only [followLink, val_bind, val_ite, val_pure, hword, hfirst]
  rw [bytes_rpcPkt stack hlen, htarget, cstr_of_not_mem hchars, follow, hhead]
  by_cases habs : pkt.mem 32 = slash
  · rw [if_neg (not_not.mpr habs), if_pos (congrArg some habs)]
  · rw [if_pos habs, if_neg fun heq => habs (some.inj heq)]

theorem words_in_reply : ∀ off ∈ statusAndData, off + 4 ≤ pkt.len → off + 4 ≤ replySize := by
  have hwords : ∀ off ∈ statusAndData, off + 4 ≤ replySize := by decide
  exact fun off hoff _ => hwords off hoff

variable (stack loadAddr) in
theorem read_block {n : ℕ} (hid : ntohl pkt.mem 0 = c.rpcId)
    (hstatus : ∀ off ∈ statusAndData, ntohl pkt.mem off = 0) (hlen : 28 ≤ pkt.len)
    (hcount : ntohl pkt.mem 96 = n) : (nfsReadReply stack loadAddr c pkt).val =
      (storeBlock loadAddr c (bytes pkt.mem replySize n) c.nfsOffset n, int n) := by
  have hword : ntohl (rpcPkt stack pkt replySize) 96 = n := by
    rw [ntohl_rpcPkt stack (by decide), hcount]
  have hany := (anyNonzero_val stack words_in_reply (readable_data hlen)).mpr hstatus
  simp only [nfsReadReply, val_bind, checkId_val (show 4 ≤ replySize by decide)]
  rw [if_neg (by lia), if_neg (by lia), hany, hword]
  rfl

theorem read_error {error : ℕ} (hid : ntohl pkt.mem 0 = c.rpcId)
    (hstatus : ∀ off ∈ statusWords, ntohl pkt.mem off = 0) (hlen : 28 ≤ pkt.len)
    (herror : ntohl pkt.mem 24 = error) (hne : error ≠ 0) :
    (nfsReadReply stack loadAddr c pkt).val = (c, int ((2 ^ 32 - error) % 2 ^ 32)) := by
  have hword : ∀ off, off + 4 ≤ replySize →
      ntohl (rpcPkt stack pkt replySize) off = ntohl pkt.mem off := fun off => ntohl_rpcPkt stack
  have hany : (anyNonzero (rpcPkt stack pkt replySize) statusAndData).val = true := by
    rw [← Bool.not_eq_false, anyNonzero_val stack words_in_reply (readable_data hlen)]
    intro hzero
    exact hne (herror.symm.trans (hzero 24 (by decide)))
  simp only [nfsReadReply, val_bind, checkId_val (show 4 ≤ replySize by decide)]
  rw [if_neg (by lia), if_neg (by lia), hany]
  simp only [if_true, val_bind, val_ite, val_pure]
  rw [hword 8 (by decide), hword 20 (by decide), hword 24 (by decide), hstatus 8 (by decide),
    hstatus 20 (by decide), herror]
  rfl

theorem storeBlock_inMemory {n : ℕ} (hmem : InMemory loadAddr content c.nfsOffset c)
    (hfile : content.length < 2 ^ 32) (hend : c.nfsOffset + n ≤ content.length) :
    InMemory loadAddr content (c.nfsOffset + n)
      (storeBlock loadAddr c ((content.drop c.nfsOffset).take n) c.nfsOffset n) := by
  obtain ⟨hbytes, hsize⟩ := hmem
  have hlen : ((content.drop c.nfsOffset).take n).length = n := by
    rw [length_take, length_drop]
    lia
  have hnew : (c.nfsOffset + n) % 2 ^ 32 = c.nfsOffset + n := Nat.mod_eq_of_lt (by lia)
  constructor
  · have hblock := region_copyIn_same c.mem (loadAddr + c.nfsOffset)
      ((content.drop c.nfsOffset).take n) (by lia)
    rw [hlen] at hblock
    simp only [storeBlock]
    rw [region_append, region_copyIn_before _ _ _ _ (by lia), hbytes, hblock, take_add]
  · simp only [storeBlock, hnew, hsize]
    split
    · rfl
    · lia

end Replies

section Steps

variable {srv : Server} {loadAddr : ℕ} {content : List UInt8} {d : Download} {req : Request}
  {pkt : Pkt}

theorem Leads.length_lt {dir : Path} {fh : Handle} (h : Leads srv dir fh content) :
    content.length < 2 ^ 32 := by
  induction h with
  | file hfile => exact srv.file_lt _ _ hfile
  | link _ _ _ _ _ ih => exact ih

theorem callOf_umount {c : Client} (h : c.state = .umountReq) : callOf c = .umountall := by
  rw [callOf, h]

/- A block of the file. -/
theorem inv_block (hstate : d.client.state = .readReq) (hnet : d.client.net ≠ .fail)
    (hrunning : d.client.net ≠ .success) (hgoal : Goal srv loadAddr content d.client)
    (hfile : srv.file d.client.filefh = some content) (hid : ntohl pkt.mem 0 = d.client.rpcId)
    (hstatus : ∀ off ∈ statusWords, ntohl pkt.mem off = 0)
    (hblock : HasBlock content d.client.nfsOffset d.client.nfsLen pkt) (stack : Mem) :
    Inv srv loadAddr content (d.after (proceed (nfsReadReply stack loadAddr d.client pkt)).val) := by
  rw [Goal, hstate] at hgoal
  dsimp only at hgoal
  obtain ⟨hleads, hmounted, hreadlen, hoffset, hmem, -⟩ := hgoal
  obtain ⟨n, hlen, hdata, hcount, hn, hend, hbytes, hlast⟩ := hblock
  have hsize := hleads.length_lt
  rw [hreadlen, nfsReadSize] at hn
  rw [max_eq_right hoffset] at hend
  have hreply := read_block loadAddr stack hid (zero_data hstatus hdata)
    (by rw [replySize] at hlen; lia) hcount
  rw [hbytes, int_of_lt (by lia)] at hreply
  have hstored := storeBlock_inMemory hmem hsize hend
  rcases Nat.eq_zero_or_pos n with rfl | hpos
  · -- the end of the file
    have hdone : d.client.nfsOffset + 0 = content.length := by
      have := hlast rfl
      lia
    rw [hdone] at hstored
    rw [proceed_end hreply]
    exact Inv.send d ⟨rfl, hstored⟩ (fun _ => hmounted) hnet fun _ => rfl
  · have hnext : (d.client.nfsOffset + n) % 2 ^ 32 = d.client.nfsOffset + n :=
      Nat.mod_eq_of_lt (by lia)
    rw [proceed_block hreply hpos]
    refine Inv.send d ?_ (fun hs => ?_) hnet (fun hs => absurd hs hrunning)
    · rw [Goal]
      simp only [storeBlock, InMemory, hnext] at hstored
      simp only [storeBlock, InMemory, hstate, hnext]
      exact ⟨Leads.file hfile, hmounted, hreadlen, hend, hstored,
        fun hnone => absurd (hfile.symm.trans hnone) (by simp)⟩
    · have hs' : d.client.state = .umountReq := hs
      rw [hstate] at hs'
      cases hs'

/- The error of a server that is asked to read a symbolic link. -/
theorem inv_error (hnet : d.client.net ≠ .fail) (hrunning : d.client.net ≠ .success)
    (hmounted : Mounted d.client) (hmem : InMemory loadAddr content 0 d.client) {target : Path}
    (hlink : srv.link d.client.filefh = some target)
    (hfound : Found srv (dirname (follow d.client.path target))
      (basename (follow d.client.path target)) content) (hid : ntohl pkt.mem 0 = d.client.rpcId)
    (hstatus : ∀ off ∈ statusWords, ntohl pkt.mem off = 0)
    (herror : HasError (srv.link d.client.filefh) pkt) (stack : Mem) :
    Inv srv loadAddr content (d.after (proceed (nfsReadReply stack loadAddr d.client pkt)).val) := by
  rw [hlink] at herror
  obtain ⟨hlen, herror⟩ := herror
  have hreply : ∃ rlen, (nfsReadReply stack loadAddr d.client pkt).val = (d.client, rlen) ∧
      (rlen = -nfserrIsdir ∨ rlen = -nfserrInval) := by
    cases herror with
    | inl herror => exact ⟨_, read_error hid hstatus hlen herror (by decide), .inl (by decide)⟩
    | inr herror => exact ⟨_, read_error hid hstatus hlen herror (by decide), .inr (by decide)⟩
  obtain ⟨rlen, hreply, hrlen⟩ := hreply
  rw [proceed_link hreply hrlen]
  exact Inv.send d ⟨⟨_, hlink, hfound⟩, hmem.2, hmounted⟩ (fun hs => by cases hs) hnet
    (fun hs => absurd hs hrunning)

theorem Inv.reply (h : Inv srv loadAddr content d) (stack : Mem) (hlast : d.sent.head? = some req)
    (hans : Answers srv req pkt) :
    Inv srv loadAddr content (d.after (nfsHandler stack loadAddr d.client nfsOurPort pkt).val) := by
  obtain ⟨⟨req', rest, hsent, hreqId, hcall⟩, hgoal, hnet, hdone⟩ := h
  rw [hsent] at hlast
  obtain rfl : req' = req := some.inj hlast
  obtain ⟨hid, hstatus, hbody⟩ := hans
  rw [hreqId] at hid
  rw [hcall, callOf] at hbody
  have hrunning : ∀ {s : State}, d.client.state = s → s ≠ .umountReq → d.client.net ≠ .success :=
    fun hs hne hsucc => hne (hs.symm.trans (hdone hsucc))
  rw [nfsHandler, if_neg (not_not.mpr rfl)]
  rw [Goal] at hgoal
  cases hstate : d.client.state with
  | prclookupProgMountReq =>
    rw [hstate] at hbody hgoal
    dsimp only at hbody hgoal ⊢
    rw [lookedUp_ok (lookup_reply .mount hid hstatus hbody.1), hbody.2]
    have hport := srv.port_lt .mount
    exact Inv.send d ⟨hgoal.1, hgoal.2, by dsimp only; lia⟩ (fun hs => by cases hs) hnet
      (fun hs => absurd hs (hrunning hstate (by decide)))
  | prclookupProgNfsReq =>
    rw [hstate] at hbody hgoal
    dsimp only at hbody hgoal ⊢
    rw [lookedUp_ok (lookup_reply .nfs hid hstatus hbody.1)]
    exact Inv.send d hgoal (fun hs => by cases hs) hnet
      (fun hs => absurd hs (hrunning hstate (by decide)))
  | mountReq =>
    rw [hstate] at hbody hgoal
    dsimp only at hbody hgoal ⊢
    obtain ⟨⟨dir, f, hdir, hf, hleads⟩, hsize, hport⟩ := hgoal
    rw [hdir] at hbody
    obtain ⟨hlen, hdata, hfh⟩ := hbody
    rw [advance_ok (mount_reply hid (zero_data hstatus hdata) hlen), hfh]
    exact Inv.send d ⟨⟨f, hf, hleads⟩, hsize, rfl, hport⟩ (fun hs => by cases hs) hnet
      (fun hs => absurd hs (hrunning hstate (by decide)))
  | umountReq =>
    rw [hstate] at hbody hgoal
    dsimp only at hbody hgoal ⊢
    rw [finish_ok (umountall_reply hid hstatus hbody)]
    refine ⟨⟨req', rest, hsent, hreqId, ?_⟩, ?_, ?_, fun _ => hstate⟩
    · rw [hcall, callOf_umount hstate]
      apply Eq.symm
      apply callOf_umount
      exact hstate
    · rw [Goal]
      simp only [Download.after, hstate]
      exact hgoal
    · intro hfail
      have hsucc : NetState.success = .fail := hgoal.1.symm.trans hfail
      cases hsucc
  | lookupReq =>
    rw [hstate] at hbody hgoal
    dsimp only at hbody hgoal ⊢
    obtain ⟨⟨f, hf, hleads⟩, hsize, hmounted⟩ := hgoal
    rw [hf] at hbody
    obtain ⟨hlen, hdata, hfh⟩ := hbody
    rw [advance_ok (handle_reply hid (zero_data hstatus hdata) hlen), hfh]
    exact Inv.send d ⟨hleads, hmounted, rfl, Nat.zero_le _, ⟨rfl, hsize⟩, fun _ => rfl⟩
      (fun hs => by cases hs) hnet (fun hs => absurd hs (hrunning hstate (by decide)))
  | readlinkReq =>
    rw [hstate] at hbody hgoal
    dsimp only at hbody hgoal ⊢
    obtain ⟨⟨target, htarget, hfound⟩, hsize, hmounted⟩ := hgoal
    rw [htarget] at hbody
    obtain ⟨hlen, hdata, hrlen, hbytes⟩ := hbody
    have hne := srv.link_nonempty _ _ htarget
    have hchars := srv.link_chars _ _ htarget
    rw [advance_ok (readlink_reply hid (zero_data hstatus hdata) hlen hrlen hbytes hne hchars)]
    exact Inv.send d ⟨hfound, hsize, hmounted.2⟩ (fun hs => by cases hs) hnet
      (fun hs => absurd hs (hrunning hstate (by decide)))
  | readReq =>
    have hrun := hrunning hstate (by decide)
    have hreading : Goal srv loadAddr content d.client := hgoal
    rw [hstate] at hbody hgoal
    dsimp only at hbody hgoal ⊢
    obtain ⟨hleads, hmounted, -, -, hmem, hnotFile⟩ := hgoal
    cases hleads with
    | file hfile =>
      rw [hfile] at hbody
      exact inv_block hstate hnet hrun hreading hfile hid hstatus hbody stack
    | link notFile isLink mount lookup rest =>
      rw [notFile] at hbody
      rw [hnotFile notFile] at hmem
      exact inv_error hnet hrun hmounted hmem isLink ⟨_, _, mount, lookup, rest⟩ hid hstatus hbody stack

theorem Inv.step {old : Pkt → Prop} {input : Input} {d' : Download}
    (h : Inv srv loadAddr content d) (hstep : Step srv old loadAddr d input d')
    (hmeets : OnTime srv d input) : Inv srv loadAddr content d' := by
  cases hstep with
  | timeout => exact h.timeout
  | reply stack answers =>
    rcases hmeets with ⟨req, hlast, hans⟩ | ⟨hlate, hstate⟩
    · exact h.reply stack hlast hans
    · rw [nfsHandler_late hlate hstate]
      exact h

theorem Inv.runs {old : Pkt → Prop} {d' : Download} (h : Inv srv loadAddr content d)
    (hrun : Runs srv old loadAddr (OnTime srv) d d') : Inv srv loadAddr content d' := by
  induction hrun with
  | refl => exact h
  | step _ hstep hmeets ih => exact ih.step hstep hmeets

end Steps

/- In a run whose replies are on time, late ones are dropped, the download does not fail, and when
it succeeds the file is in memory. -/
theorem nfs_download_tolerates {srv : Server} {old : Pkt → Prop} {loadAddr : ℕ} {p : Client}
    {path : Path} {content : List UInt8} {d : Download} (hserved : Served srv path content)
    (hrun : Runs srv old loadAddr (OnTime srv) (Download.start p path) d) :
    (∀ stack pkt, Late d.client pkt → d.client.state ≠ .readReq →
      (nfsHandler stack loadAddr d.client nfsOurPort pkt).val = (d.client, none)) ∧
    d.client.net ≠ .fail ∧
    (d.client.net = .success →
      region d.client.mem loadAddr content.length = content ∧
        d.client.netBootFileSize = content.length) := by
  have hinv := (inv_start loadAddr p hserved.2).runs hrun
  refine ⟨fun stack pkt hlate hstate => nfsHandler_late hlate hstate _, hinv.net, fun hsucc => ?_⟩
  have hgoal := hinv.goal
  rw [Goal, hinv.done hsucc] at hgoal
  obtain ⟨-, hmem, hsize⟩ := hgoal
  rw [take_length] at hmem
  exact ⟨hmem, hsize⟩

/- A server with the file `/d/f` of one byte. -/
def oneFile : Server where
  port _ := 5
  mount path := if path = [47, 100] then some (List.replicate 32 0) else none
  lookup _ fname := if fname = [102] then some (1 :: List.replicate 31 0) else none
  file fh := if fh = 1 :: List.replicate 31 0 then some [7] else none
  link _ := none
  port_lt _ := by decide
  file_lt := by
    intro fh content h
    split at h
    · rw [← some.inj h]
      decide
    · cases h
  link_nonempty _ _ h := by cases h
  link_chars _ _ h := by cases h

theorem oneFile_served : Served oneFile [47, 100, 47, 102] [7] :=
  ⟨by decide, List.replicate 32 0, 1 :: List.replicate 31 0, rfl, rfl, Leads.file rfl⟩

def portReply (id : UInt8) : Pkt := ⟨28, fun i => if i = 3 then id else if i = 27 then 5 else 0⟩
def mountReply : Pkt := ⟨60, fun i => if i = 3 then 3 else 0⟩
def handleReply : Pkt := ⟨60, fun i => if i = 3 then 4 else if i = 28 then 1 else 0⟩
def blockReply : Pkt :=
  ⟨101, fun i => if i = 3 then 5 else if i = 99 then 1 else if i = 100 then 7 else 0⟩

def Download.deliver (d : Download) (pkt : Pkt) : Download :=
  d.after (nfsHandler (fun _ => 0) 0 d.client nfsOurPort pkt).val

def firstDownload : Download := Download.start { readingClient with rpcId := 0 } [47, 100, 47, 102]

def askedForFile : Download :=
  (((firstDownload.deliver (portReply 1)).deliver (portReply 2)).deliver mountReply).deliver
    handleReply

theorem deliver_runs {ok : Download → Input → Prop} {d d' : Download} {pkt : Pkt} (req : Request)
    (hrun : Runs oneFile (fun _ => False) 0 ok d d') (hlast : d'.sent.head? = some req)
    (hans : Answers oneFile req pkt) (hok : ok d' (.reply pkt)) :
    Runs oneFile (fun _ => False) 0 ok d (d'.deliver pkt) :=
  hrun.step (Step.reply _ (.inl ⟨req, mem_of_mem_head? hlast, hans⟩)) hok

theorem block_answers : Answers oneFile ⟨5, 5, .read (1 :: List.replicate 31 0) 0 1024⟩ blockReply := by
  refine ⟨by decide, by decide, 1, by decide, by decide, by decide, by decide, by decide, by decide,
    fun h => by cases h⟩

theorem askedForFile_runs {ok : Download → Input → Prop}
    (hok : ∀ d req pkt, d.sent.head? = some req → Answers oneFile req pkt → ok d (.reply pkt)) :
    Runs oneFile (fun _ => False) 0 ok firstDownload askedForFile := by
  have hport₁ : Answers oneFile ⟨1, 111, .getport .mount⟩ (portReply 1) :=
    ⟨by decide, by decide, by decide, by decide⟩
  have hport₂ : Answers oneFile ⟨2, 111, .getport .nfs⟩ (portReply 2) :=
    ⟨by decide, by decide, by decide, by decide⟩
  have hmount : Answers oneFile ⟨3, 5, .addentry [47, 100]⟩ mountReply :=
    ⟨by decide, by decide, by decide, by decide, by decide⟩
  have hhandle : Answers oneFile ⟨4, 5, .lookup (List.replicate 32 0) [102]⟩ handleReply :=
    ⟨by decide, by decide, by decide, by decide, by decide⟩
  have h₀ : Runs oneFile (fun _ => False) 0 ok firstDownload firstDownload := Runs.refl _
  have h₁ := deliver_runs _ h₀ (by decide +kernel) hport₁
    (hok _ _ _ (by decide +kernel) hport₁)
  have h₂ := deliver_runs _ h₁ (by decide +kernel) hport₂ (hok _ _ _ (by decide +kernel) hport₂)
  have h₃ := deliver_runs _ h₂ (by decide +kernel) hmount (hok _ _ _ (by decide +kernel) hmount)
  exact deliver_runs _ h₃ (by decide +kernel) hhandle (hok _ _ _ (by decide +kernel) hhandle)

def endReply : Pkt := ⟨100, fun i => if i = 3 then 6 else 0⟩
def umountReply : Pkt := ⟨24, fun i => if i = 3 then 7 else 0⟩

theorem umount_answers : Answers oneFile ⟨7, 5, .umountall⟩ umountReply :=
  ⟨by decide, by decide, by decide⟩

def fileRead : Download := ((askedForFile.deliver blockReply).deliver endReply).deliver umountReply

theorem fileRead_runs : Runs oneFile (fun _ => False) 0 (OnTime oneFile) firstDownload fileRead := by
  have hok : ∀ d req pkt, d.sent.head? = some req → Answers oneFile req pkt →
      OnTime oneFile d (.reply pkt) := fun d req pkt hlast hans => .inl ⟨req, hlast, hans⟩
  have hend : Answers oneFile ⟨6, 5, .read (1 :: List.replicate 31 0) 1 1024⟩ endReply :=
    ⟨by decide, by decide, 0, by decide, by decide, by decide, by decide, by decide, by decide,
      fun _ => by decide⟩
  have h₁ := deliver_runs _ (askedForFile_runs hok) (by decide +kernel) block_answers
    (hok _ _ _ (by decide +kernel) block_answers)
  have h₂ := deliver_runs _ h₁ (by decide +kernel) hend (hok _ _ _ (by decide +kernel) hend)
  exact deliver_runs _ h₂ (by decide +kernel) umount_answers
    (hok _ _ _ (by decide +kernel) umount_answers)

theorem nfs_download_tolerates_oneFile :
    fileRead.client.net = .success ∧ region fileRead.client.mem 0 1 = [7] := by
  obtain ⟨-, -, hdone⟩ := nfs_download_tolerates oneFile_served fileRead_runs
  have hsucc : fileRead.client.net = .success := by decide +kernel
  exact ⟨hsucc, (hdone hsucc).1⟩

/- The block comes twice: the second time its id is old and the download ends as failed. -/
theorem nfs_download_fails : ∃ d, Runs oneFile (fun _ => False) 0 (fun _ _ => True) firstDownload d ∧
    Served oneFile [47, 100, 47, 102] [7] ∧ d.client.net = .fail := by
  have h₀ : Runs oneFile (fun _ => False) 0 (fun _ _ => True) firstDownload askedForFile :=
    askedForFile_runs fun _ _ _ _ _ => trivial
  have h₁ := deliver_runs _ h₀ (by decide +kernel) block_answers trivial
  have hsent : (⟨5, 5, .read (1 :: List.replicate 31 0) 0 1024⟩ : Request) ∈
      (askedForFile.deliver blockReply).sent := by decide +kernel
  have h₂ := h₁.step (Step.reply (fun _ => 0) (.inl ⟨_, hsent, block_answers⟩)) trivial
  have h₃ := deliver_runs _ h₂ (by decide +kernel) umount_answers trivial
  exact ⟨_, h₃, oneFile_served, by decide +kernel⟩

end UBoot.Nfs
