import UBoot.Lib.Access
import UBoot.Lib.Limbs
import UBoot.Net.TftpGet

/-!
# NFS downloads (net/nfs.c)

The globals of the file are one record. The bytes of `rpc_pkt` that a reply does not fill are those
of `stack`. The handlers record what they read of the reply and where they write. Built without
`CONFIG_SYS_DIRECT_FLASH_NFS`, with reads of 1024 bytes; `int` and `ulong` have 32 bits.
-/

namespace UBoot.Nfs

open Access
open Memory (Mem bytes)
open Limbs (beValue)
open Tftp (NetState copyIn)

abbrev Path := List UInt8
abbrev Handle := List UInt8

inductive Access where
  -- bytes of the datagram, and bytes of it in `rpc_pkt`
  | packet (off len : ℕ)
  | copied (off len : ℕ)
  -- written: `rpc_pkt` from its start on, the file handles, `nfs_path_buff`
  | rpcPkt (len : ℕ)
  | dirfh (len : ℕ)
  | filefh (len : ℕ)
  | path (off : ℤ) (len : ℕ)
  -- stored at `load_addr`
  | block (len : ℕ)
deriving DecidableEq

abbrev Pkt := Payload

inductive State where
  | prclookupProgMountReq | prclookupProgNfsReq | mountReq | umountReq | lookupReq | readReq
  | readlinkReq
deriving DecidableEq

inductive Prog where
  | mount | nfs
deriving DecidableEq

inductive Call where
  | getport (prog : Prog)
  | addentry (path : Path)
  | umountall
  | lookup (dirfh : Handle) (fname : Path)
  | read (filefh : Handle) (offset readlen : ℕ)
  | readlink (filefh : Handle)
deriving DecidableEq

structure Request where
  id : ℕ
  sport : ℕ
  call : Call
deriving DecidableEq

structure Client where
  fsMounted : Bool
  rpcId : ℕ
  nfsOffset : ℕ
  nfsLen : ℕ
  dirfh : Handle
  filefh : Handle
  downloadState : NetState
  mountPort : ℕ
  port : ℕ
  timeoutCount : ℕ
  state : State
  -- the strings `nfs_path` and `nfs_filename`
  path : Path
  filename : Path
  net : NetState
  mem : Mem
  netBootFileSize : ℕ

def nfsRetryCount : ℕ := 30
def nfsRpcErr : ℤ := 1
def nfsRpcDrop : ℤ := 124
def nfsFhsize : ℕ := 32
def nfsReadSize : ℕ := 1024
def nfserrIsdir : ℤ := 21
def nfserrInval : ℤ := 22
def sunrpcPort : ℕ := 111
def nfsOurPort : ℕ := 1000
-- `sizeof(rpc_pkt.u.reply)`
def replySize : ℕ := 100

/- `ntohl` of the word at `off`. -/
def ntohl (mem : Mem) (off : ℕ) : ℕ := beValue (bytes mem off 4)

/- A word taken as an `int`. -/
def int (x : ℕ) : ℤ := if x < 2 ^ 31 then x else (x : ℤ) - 2 ^ 32

def cstr (s : List UInt8) : List UInt8 := s.takeWhile (· ≠ 0)

def slash : UInt8 := 47

def lastSlash : Path → Option ℕ
  | [] => none
  | c :: path =>
    match lastSlash path with
    | some i => some (i + 1)
    | none => if c = slash then some 0 else none

/- `basename(path) - path`. -/
def basenameIdx (path : Path) : ℤ :=
  match lastSlash path with
  | some i => i + 1
  | none => -1

def basename (path : Path) : Path := path.drop (basenameIdx path).toNat

def dirname (path : Path) : Path :=
  match lastSlash path with
  | some i => path.take i
  | none => path

section Requests

variable (c : Client)

def rpcReq (sport : ℕ) (call : Call) : Client × Option Request :=
  let id := (c.rpcId + 1) % 2 ^ 32
  ({ c with rpcId := id }, some ⟨id, sport, call⟩)

def nfsUmountallReq : Client × Option Request :=
  if c.mountPort = 2 ^ 32 - 1 ∨ c.fsMounted = false then (c, none)
  else rpcReq c c.mountPort .umountall

def nfsSend : Client × Option Request :=
  match c.state with
  | .prclookupProgMountReq => rpcReq c sunrpcPort (.getport .mount)
  | .prclookupProgNfsReq => rpcReq c sunrpcPort (.getport .nfs)
  | .mountReq => rpcReq c c.mountPort (.addentry c.path)
  | .umountReq => nfsUmountallReq c
  | .lookupReq => rpcReq c c.port (.lookup c.dirfh c.filename)
  | .readReq => rpcReq c c.port (.read c.filefh c.nfsOffset c.nfsLen)
  | .readlinkReq => rpcReq c c.port (.readlink c.filefh)

end Requests

section Replies

variable (stack : Mem) (loadAddr : ℕ) (c : Client)

/- `rpc_pkt` after `memcpy` of `len` bytes. -/
def rpcPkt (pkt : Pkt) (len : ℕ) : Mem := fun i => if i < len then pkt.mem i else stack i

/- `w₁ || w₂ || ..` for the words at the offsets. -/
def anyNonzero (rpc : Mem) : List ℕ → Traced Access Bool
  | [] => pure false
  | off :: offs => do
    touch (.copied off 4)
    if ntohl rpc off ≠ 0 then pure true else anyNonzero rpc offs

/- Offsets of `rstatus`, `verifier`, `astatus` and `data[0]`. -/
def statusWords : List ℕ := [8, 12, 20]
def statusAndData : List ℕ := [8, 12, 20, 24]

def checkId (rpc : Mem) (next : Traced Access (Client × ℤ)) : Traced Access (Client × ℤ) := do
  touch (.copied 0 4)
  if c.rpcId < ntohl rpc 0 then pure (c, -nfsRpcErr)
  else if ntohl rpc 0 < c.rpcId then pure (c, -nfsRpcDrop)
  else next

def received (pkt : Pkt) (offs : List ℕ) (accept : Mem → Traced Access (Client × ℤ)) :
    Traced Access (Client × ℤ) := do
  touch (.packet 0 pkt.len)
  touch (.rpcPkt pkt.len)
  let rpc := rpcPkt stack pkt pkt.len
  checkId c rpc (do
    if ← anyNonzero rpc offs then pure (c, -1) else accept rpc)

def rpcLookupReply (prog : Prog) (pkt : Pkt) : Traced Access (Client × ℤ) :=
  received stack c pkt statusWords fun rpc => do
    touch (.copied 24 4)
    match prog with
    | .mount => pure ({ c with mountPort := ntohl rpc 24 }, 0)
    | .nfs => pure ({ c with port := ntohl rpc 24 }, 0)

def nfsMountReply (pkt : Pkt) : Traced Access (Client × ℤ) :=
  received stack c pkt statusAndData fun rpc => do
    touch (.copied 28 nfsFhsize)
    touch (.dirfh nfsFhsize)
    pure ({ c with fsMounted := true, dirfh := bytes rpc 28 nfsFhsize }, 0)

def nfsUmountallReply (pkt : Pkt) : Traced Access (Client × ℤ) :=
  received stack c pkt statusWords fun _ => do
    touch (.dirfh nfsFhsize)
    pure ({ c with fsMounted := false, dirfh := List.replicate nfsFhsize 0 }, 0)

def nfsLookupReply (pkt : Pkt) : Traced Access (Client × ℤ) :=
  received stack c pkt statusAndData fun rpc => do
    touch (.copied 28 nfsFhsize)
    touch (.filefh nfsFhsize)
    pure ({ c with filefh := bytes rpc 28 nfsFhsize }, 0)

def followLink (rpc : Mem) : Traced Access (Client × ℤ) := do
  touch (.copied 28 4)
  let rlen := ntohl rpc 28
  touch (.copied 32 1)
  if rpc 32 ≠ slash then
    touch (.path c.path.length 2)
    let pathlen := c.path.length + 1
    touch (.copied 32 rlen)
    touch (.path pathlen rlen)
    touch (.path (pathlen + int rlen) 1)
    pure ({ c with path := c.path ++ slash :: cstr (bytes rpc 32 rlen) }, 0)
  else
    touch (.copied 32 rlen)
    touch (.path 0 rlen)
    touch (.path (int rlen) 1)
    pure ({ c with path := cstr (bytes rpc 32 rlen) }, 0)

def nfsReadlinkReply (pkt : Pkt) : Traced Access (Client × ℤ) :=
  received stack c pkt statusAndData (followLink c)

def storeBlock (src : List UInt8) (offset len : ℕ) : Client :=
  let newsize := (offset + len) % 2 ^ 32
  { c with
    mem := copyIn c.mem (loadAddr + offset) src
    netBootFileSize := if c.netBootFileSize < newsize then newsize else c.netBootFileSize }

/- The return value is a number of bytes or an error with its sign changed. -/
def nfsReadReply (pkt : Pkt) : Traced Access (Client × ℤ) := do
  touch (.packet 0 replySize)
  touch (.rpcPkt replySize)
  let rpc := rpcPkt stack pkt replySize
  checkId c rpc (do
    if ← anyNonzero rpc statusAndData then
      touch (.copied 8 4)
      if ntohl rpc 8 ≠ 0 then pure (c, -9999)
      else
        touch (.copied 20 4)
        if ntohl rpc 20 ≠ 0 then pure (c, -9999)
        else
          touch (.copied 24 4)
          pure (c, int ((2 ^ 32 - ntohl rpc 24) % 2 ^ 32))
    else
      touch (.copied 96 4)
      let rlen := ntohl rpc 96
      touch (.packet replySize rlen)
      touch (.block rlen)
      pure (storeBlock loadAddr c (bytes pkt.mem replySize rlen) c.nfsOffset rlen, int rlen))

end Replies

section Handlers

variable (stack : Mem) (loadAddr : ℕ) (c : Client)

def nfsTimeoutHandler : Client × Option Request :=
  let c := { c with timeoutCount := c.timeoutCount + 1 }
  if nfsRetryCount < c.timeoutCount then ({ c with net := .startAgain }, none)
  else nfsSend c

def advance (reply : Traced Access (Client × ℤ)) (next : Client → Traced Access Client) :
    Traced Access (Client × Option Request) := do
  let (c, reply) ← reply
  if reply = -nfsRpcDrop then pure (c, none)
  else if reply = -nfsRpcErr then pure (nfsSend { c with state := .umountReq })
  else
    let c ← next c
    pure (nfsSend c)

def lookedUp (reply : Traced Access (Client × ℤ)) (next : State) :
    Traced Access (Client × Option Request) := do
  let (c, reply) ← reply
  if reply = -nfsRpcDrop then pure (c, none) else pure (nfsSend { c with state := next })

def finish (reply : Traced Access (Client × ℤ)) : Traced Access (Client × Option Request) := do
  let (c, reply) ← reply
  if reply = -nfsRpcDrop then pure (c, none)
  else if reply = -nfsRpcErr then pure ({ c with net := .fail }, none)
  else pure ({ c with net := c.downloadState }, none)

/- After a read; a reply that is to be dropped is no case of its own. -/
def proceed (reply : Traced Access (Client × ℤ)) : Traced Access (Client × Option Request) := do
  let (c, rlen) ← reply
  if 0 < rlen then pure (nfsSend { c with nfsOffset := (c.nfsOffset + rlen.toNat) % 2 ^ 32 })
  else if rlen = -nfserrIsdir ∨ rlen = -nfserrInval then
    pure (nfsSend { c with state := .readlinkReq })
  else
    let c := if rlen = 0 then { c with downloadState := .success } else c
    pure (nfsSend { c with state := .umountReq })

/- `dirname` ends the directory in place of the last slash. -/
def splitPath (c : Client) : Traced Access Client := do
  touch (.path (basenameIdx c.path - 1) 1)
  pure { c with filename := basename c.path, path := dirname c.path, state := .mountReq }

def nfsHandler (dest : ℕ) (pkt : Pkt) : Traced Access (Client × Option Request) :=
  if dest ≠ nfsOurPort then pure (c, none)
  else
    match c.state with
    | .prclookupProgMountReq => lookedUp (rpcLookupReply stack c .mount pkt) .prclookupProgNfsReq
    | .prclookupProgNfsReq => lookedUp (rpcLookupReply stack c .nfs pkt) .mountReq
    | .mountReq =>
      advance (nfsMountReply stack c pkt) fun c => pure { c with state := .lookupReq }
    | .umountReq => finish (nfsUmountallReply stack c pkt)
    | .lookupReq =>
      advance (nfsLookupReply stack c pkt) fun c =>
        pure { c with state := .readReq, nfsOffset := 0, nfsLen := nfsReadSize }
    | .readlinkReq => advance (nfsReadlinkReply stack c pkt) splitPath
    | .readReq => proceed (nfsReadReply stack loadAddr c pkt)

/- `nfs_start` with the path of the file, as `net_loop` calls it; what an earlier download left in
`c` stays. -/
def nfsStart (path : Path) : Client × Option Request :=
  nfsSend { c with
    net := .loop
    netBootFileSize := 0
    downloadState := .fail
    filename := basename path
    path := dirname path
    timeoutCount := 0
    state := .prclookupProgMountReq }

end Handlers

end UBoot.Nfs
