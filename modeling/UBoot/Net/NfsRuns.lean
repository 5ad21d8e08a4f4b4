import UBoot.Net.NfsSafe

/-!
# NFS downloads over a network that loses, repeats and reorders

The server answers every request that was ever sent, any number of times or never; a timeout sends
the current request again under a new id.
-/

namespace UBoot.Nfs

open UBoot.Access
open Memory (Mem bytes)
open Tftp (NetState region)

structure Server where
  port : Prog → ℕ
  mount : Path → Option Handle
  lookup : Handle → Path → Option Handle
  file : Handle → Option (List UInt8)
  link : Handle → Option Path
  port_lt : ∀ prog, port prog < 2 ^ 16
  -- sizes are 32-bit numbers in the protocol
  file_lt : ∀ fh content, file fh = some content → content.length < 2 ^ 32
  link_nonempty : ∀ fh target, link fh = some target → target ≠ []
  link_chars : ∀ fh target, link fh = some target → 0 ∉ target

def follow (dir target : Path) : Path :=
  if target.head? = some slash then target else dir ++ slash :: target

/- A handle found in the directory is the file, or a link on the way to it. -/
inductive Leads (srv : Server) : Path → Handle → List UInt8 → Prop where
  | file {dir : Path} {fh : Handle} {content : List UInt8} (h : srv.file fh = some content) :
      Leads srv dir fh content
  | link {dir : Path} {fh d f : Handle} {target : Path} {content : List UInt8}
      (notFile : srv.file fh = none) (isLink : srv.link fh = some target)
      (mount : srv.mount (dirname (follow dir target)) = some d)
      (lookup : srv.lookup d (basename (follow dir target)) = some f)
      (rest : Leads srv (dirname (follow dir target)) f content) : Leads srv dir fh content

def Found (srv : Server) (dir name : Path) (content : List UInt8) : Prop :=
  ∃ d f, srv.mount dir = some d ∧ srv.lookup d name = some f ∧ Leads srv dir f content

def Served (srv : Server) (path : Path) (content : List UInt8) : Prop :=
  slash ∈ path ∧ Found srv (dirname path) (basename path) content

def HasHandle (fh : Option Handle) (pkt : Pkt) : Prop :=
  match fh with
  | some fh => 60 ≤ pkt.len ∧ ntohl pkt.mem 24 = 0 ∧ bytes pkt.mem 28 nfsFhsize = fh
  | none => 28 ≤ pkt.len ∧ ntohl pkt.mem 24 ≠ 0

/- A block of at most `readlen` bytes; it is empty only at the end of the file. -/
def HasBlock (content : List UInt8) (offset readlen : ℕ) (pkt : Pkt) : Prop :=
  ∃ n, replySize + n ≤ pkt.len ∧ ntohl pkt.mem 24 = 0 ∧ ntohl pkt.mem 96 = n ∧ n ≤ readlen ∧
    offset + n ≤ max offset content.length ∧
    bytes pkt.mem replySize n = (content.drop offset).take n ∧ (n = 0 → content.length ≤ offset)

def HasError (link : Option Path) (pkt : Pkt) : Prop :=
  28 ≤ pkt.len ∧
    match link with
    | some _ => ntohl pkt.mem 24 = 21 ∨ ntohl pkt.mem 24 = 22
    | none => ntohl pkt.mem 24 ≠ 0

def HasTarget (link : Option Path) (pkt : Pkt) : Prop :=
  match link with
  | some target => 32 + target.length ≤ pkt.len ∧ ntohl pkt.mem 24 = 0 ∧
      ntohl pkt.mem 28 = target.length ∧ bytes pkt.mem 32 target.length = target
  | none => 28 ≤ pkt.len ∧ ntohl pkt.mem 24 ≠ 0

def Answers (srv : Server) (req : Request) (pkt : Pkt) : Prop :=
  ntohl pkt.mem 0 = req.id ∧ (∀ off ∈ statusWords, ntohl pkt.mem off = 0) ∧
    match req.call with
    | .getport prog => 28 ≤ pkt.len ∧ ntohl pkt.mem 24 = srv.port prog
    | .addentry path => HasHandle (srv.mount path) pkt
    | .umountall => 24 ≤ pkt.len
    | .lookup dirfh fname => HasHandle (srv.lookup dirfh fname) pkt
    | .read filefh offset readlen =>
      match srv.file filefh with
      | some content => HasBlock content offset readlen pkt
      | none => HasError (srv.link filefh) pkt
    | .readlink filefh => HasTarget (srv.link filefh) pkt

structure Download where
  client : Client
  sent : List Request

def Download.after (d : Download) (res : Client × Option Request) : Download :=
  ⟨res.1, res.2.toList ++ d.sent⟩

def Download.start (c : Client) (path : Path) : Download := Download.after ⟨c, []⟩ (nfsStart c path)

inductive Input where
  | reply (pkt : Pkt)
  | timeout

/- `old` are replies to requests of earlier downloads. -/
inductive Step (srv : Server) (old : Pkt → Prop) (loadAddr : ℕ) :
    Download → Input → Download → Prop where
  | reply {d : Download} {pkt : Pkt} (stack : Mem)
      (answers : (∃ req ∈ d.sent, Answers srv req pkt) ∨ old pkt) :
      Step srv old loadAddr d (.reply pkt)
        (d.after (nfsHandler stack loadAddr d.client nfsOurPort pkt).val)
  | timeout {d : Download} :
      Step srv old loadAddr d .timeout (d.after (nfsTimeoutHandler d.client))

inductive Runs (srv : Server) (old : Pkt → Prop) (loadAddr : ℕ) (ok : Download → Input → Prop) :
    Download → Download → Prop where
  | refl (d : Download) : Runs srv old loadAddr ok d d
  | step {d d₁ d₂ : Download} {input : Input} (run : Runs srv old loadAddr ok d d₁)
      (step : Step srv old loadAddr d₁ input d₂) (meets : ok d₁ input) :
      Runs srv old loadAddr ok d d₂

def Late (c : Client) (pkt : Pkt) : Prop := 4 ≤ pkt.len ∧ ntohl pkt.mem 0 < c.rpcId

/- A reply answers the request sent last, or it is recognized as late and no file is being read. -/
def OnTime (srv : Server) (d : Download) : Input → Prop
  | .reply pkt => (∃ req, d.sent.head? = some req ∧ Answers srv req pkt) ∨
      Late d.client pkt ∧ d.client.state ≠ .readReq
  | .timeout => True

section Late

variable {stack : Mem} {loadAddr : ℕ} {c : Client} {pkt : Pkt}

theorem received_late (h : Late c pkt) (offs : List ℕ) (accept : Mem → Traced Access (Client × ℤ)) :
    (received stack c pkt offs accept).val = (c, -nfsRpcDrop) := by
  obtain ⟨hlen, hid⟩ := h
  simp only [received, val_bind, checkId_val hlen]
  rw [if_neg (by omega), if_pos hid]

theorem advance_val (reply : Traced Access (Client × ℤ)) (next : Client → Traced Access Client) :
    (advance reply next).val =
      if reply.val.2 = -nfsRpcDrop then (reply.val.1, none)
      else if reply.val.2 = -nfsRpcErr then nfsSend { reply.val.1 with state := .umountReq }
      else nfsSend (next reply.val.1).val := by
  simp only [advance, val_bind, val_ite, val_pure]

theorem lookedUp_val (reply : Traced Access (Client × ℤ)) (next : State) :
    (lookedUp reply next).val =
      if reply.val.2 = -nfsRpcDrop then (reply.val.1, none)
      else nfsSend { reply.val.1 with state := next } := by
  simp only [lookedUp, val_bind, val_ite, val_pure]

variable {reply : Traced Access (Client × ℤ)}

theorem advance_ok (h : reply.val = (c, 0)) (next : Client → Traced Access Client) :
    (advance reply next).val = nfsSend (next c).val := by
  rw [advance_val, h]
  rfl

theorem lookedUp_ok (h : reply.val = (c, 0)) (next : State) :
    (lookedUp reply next).val = nfsSend { c with state := next } := by
  rw [lookedUp_val, h]
  rfl

theorem finish_ok (h : reply.val = (c, 0)) :
    (finish reply).val = ({ c with net := c.downloadState }, none) := by
  rw [finish, val_bind, h]
  rfl

theorem proceed_block {n : ℕ} (h : reply.val = (c, (n : ℤ))) (hn : 0 < n) :
    (proceed reply).val = nfsSend { c with nfsOffset := (c.nfsOffset + n) % 2 ^ 32 } := by
  have hpos : 0 < (n : ℤ) := by omega
  simp only [proceed, val_bind, val_ite, val_pure, h]
  rw [if_pos hpos, Int.toNat_natCast]

theorem proceed_end (h : reply.val = (c, 0)) :
    (proceed reply).val = nfsSend { c with downloadState := .success, state := .umountReq } := by
  rw [proceed, val_bind, h]
  rfl

theorem proceed_link {rlen : ℤ} (h : reply.val = (c, rlen))
    (hlink : rlen = -nfserrIsdir ∨ rlen = -nfserrInval) :
    (proceed reply).val = nfsSend { c with state := .readlinkReq } := by
  have hneg : ¬ 0 < rlen := by
    rw [nfserrIsdir, nfserrInval] at hlink
    omega
  simp only [proceed, val_bind, val_ite, val_pure, h]
  rw [if_neg hneg, if_pos hlink]

theorem nfsHandler_late (h : Late c pkt) (hstate : c.state ≠ .readReq) (dest : ℕ) :
    (nfsHandler stack loadAddr c dest pkt).val = (c, none) := by
  rw [nfsHandler]
  split
  · rfl
  split
  · rw [lookedUp_val, rpcLookupReply, received_late h, if_pos rfl]
  · rw [lookedUp_val, rpcLookupReply, received_late h, if_pos rfl]
  · rw [advance_val, nfsMountReply, received_late h, if_pos rfl]
  · rw [finish, val_bind, nfsUmountallReply, received_late h]
    rfl
  · rw [advance_val, nfsLookupReply, received_late h, if_pos rfl]
  · rw [advance_val, nfsReadlinkReply, received_late h, if_pos rfl]
  · next hread => exact absurd hread hstate

end Late

end UBoot.Nfs
