import UBoot.Env.Linear

/-!
# The stored environment

The readers and the second writer of the NUL-separated image: `getenv_f` before
relocation (cmd/nvedit.c), `fw_getenv` and `fw_env_write` of the Linux tool
(tools/env/fw_env.c). The image is a function from positions to bytes; `ENV_SIZE` of
them belong to it.
-/

namespace UBoot.Env

open Function

section Search

variable (data : ℕ → UInt8)

/- `envmatch` (`nvedit.c:731-744`, `fw_env.c:1125-1136`): the position of the value. Where
both strings end, the code reads on behind them; that needs an entry without `=`. -/
def envmatch : Str → ℕ → Option ℕ
  | [], p => if data p = equals then some (p + 1) else none
  | c :: s1, p => if c = data p then (if c = equals then some (p + 1) else envmatch s1 (p + 1)) else none

/- The inner loop of the searches: the end of the entry, or `none` when it is not
terminated before `limit`. -/
def endOf (limit : ℕ) : ℕ → ℕ → Option ℕ
  | 0, _ => none
  | fuel + 1, nxt =>
    if data nxt = nul then some nxt else if limit ≤ nxt then none else endOf limit fuel (nxt + 1)

structure Match where
  env : ℕ
  nxt : ℕ
  val : ℕ
  deriving Repr, DecidableEq

/- The loop over the entries that `getenv_f`, `fw_getenv` and `fw_env_write` share. The
outer `none` is an entry that is not terminated. -/
def scan (limit : ℕ) (name : Str) : ℕ → ℕ → Option (Option Match)
  | 0, _ => none
  | fuel + 1, env =>
    if data env = nul then some none
    else
      match endOf data limit (limit + 1) env with
      | none => none
      | some nxt =>
        match envmatch data name env with
        | some val => some (some ⟨env, nxt, val⟩)
        | none => scan limit name fuel (nxt + 1)

/-- `fw_getenv` (`fw_env.c:162-182`). -/
def fwGetenv (size : ℕ) (name : Str) : Option Str :=
  match scan data size name (size + 1) 0 with
  | some (some found) => some (cstr data (size + 1) found.val)
  | _ => none

/- The copy of a value into a buffer of `len` bytes: what was copied, and whether the
terminating NUL was reached. -/
def copyOut : ℕ → ℕ → Str × Bool
  | 0, _ => ([], false)
  | len + 1, val =>
    if data val = nul then ([], true)
    else (data val :: (copyOut len (val + 1)).1, (copyOut len (val + 1)).2)

/-- `getenv_f` (`nvedit.c:650-683`): the return value and the string in the buffer. A value
that does not fit loses its last byte for the NUL. -/
def getenvF (configEnvSize : ℕ) (name : Str) (len : ℕ) : Option (ℕ × Str) :=
  match scan data configEnvSize name (configEnvSize + 1) 0 with
  | some (some found) =>
    let r := copyOut data len found.val
    some (r.1.length, if r.2 then r.1 else r.1.dropLast)
  | _ => none

end Search

/- The masks that `fw_env_write` checks. -/
inductive Access where
  | preventDelete
  | preventCreate
  | preventOverwr
  | preventNondefOverwr
  deriving Repr, DecidableEq

/- What the tool asks outside of the image: `ENV_SIZE`, `env_flags_validate_varaccess`
(which looks for the flags in the image) and `fw_getdefenv`. -/
structure FwEnv where
  size : ℕ
  denied : (ℕ → UInt8) → Str → Access → Bool
  getdefenv : Str → Option Str

/- How `fw_env_write` ends: it returns 0 for `nothing`, `deleted` and `done`, else -1. -/
inductive Wrote where
  | notTerminated
  | readOnly
  | nothing
  | deleted
  | overflow
  | done
  deriving Repr, DecidableEq

section Write

/- The loop that moves the entries behind a deleted one (`fw_env.c:405-410`). -/
def shiftDown : ℕ → (ℕ → UInt8) → ℕ → ℕ → (ℕ → UInt8) × ℕ
  | 0, data, env, _ => (data, env)
  | fuel + 1, data, env, nxt =>
    let data := update data env (data nxt)
    if data env = nul ∧ data (nxt + 1) = nul then (data, env)
    else shiftDown fuel data (env + 1) (nxt + 1)

/- The removal of the entry from `env` to `nxt` (`fw_env.c:401-413`). -/
def removeEntry (size : ℕ) (data : ℕ → UInt8) (env nxt : ℕ) : ℕ → UInt8 :=
  if data (nxt + 1) = nul then update (update data env nul) (env + 1) nul
  else
    let r := shiftDown (size + 1) data env (nxt + 1)
    update r.1 (r.2 + 1) nul

/- The first of two NULs (`fw_env.c:422`). -/
def findEnd (data : ℕ → UInt8) : ℕ → ℕ → ℕ
  | 0, env => env
  | fuel + 1, env => if data env = nul ∧ data (env + 1) = nul then env else findEnd data fuel (env + 1)

def store (data : ℕ → UInt8) : ℕ → Str → ℕ → UInt8
  | _, [] => data
  | p, c :: s => store (update data p c) (p + 1) s

/- The new definition at the end (`fw_env.c:419-449`). -/
def appendEntry (size : ℕ) (data : ℕ → UInt8) (name text : Str) : Wrote × (ℕ → UInt8) :=
  let env := findEnd data (size + 1) 0
  let env := if 0 < env then env + 1 else env
  let len := name.length + 2 + (text.length + 1)
  if size < env + len then (.overflow, data)
  else (.done, store data env (name ++ equals :: text ++ [nul, nul]))

/-- `fw_env_write` (`fw_env.c:336-450`); a value that is NULL is `none`. -/
def fwEnvWrite (fw : FwEnv) (data : ℕ → UInt8) (name : Str) (value : Option Str) :
    Wrote × (ℕ → UInt8) :=
  let text := value.getD []
  match scan data fw.size name (fw.size + 1) 0 with
  | none => (.notTerminated, data)
  | some (some found) =>
    if text = [] then
      if fw.denied data name .preventDelete then (.readOnly, data)
      else (.deleted, removeEntry fw.size data found.env found.nxt)
    else if fw.denied data name .preventOverwr then (.readOnly, data)
    else if fw.denied data name .preventNondefOverwr ∧
        cstr data (fw.size + 1) found.val ≠ (fw.getdefenv name).getD [] then (.readOnly, data)
    else appendEntry fw.size (removeEntry fw.size data found.env found.nxt) name text
  | some none =>
    if text = [] then (.nothing, data)
    else if fw.denied data name .preventCreate then (.readOnly, data)
    else appendEntry fw.size data name text

end Write

/-- `getenv` (`nvedit.c:626-645`) once the environment was imported. -/
def getenv {Callback State : Type} (hooks : Hooks Callback State) (htab : Htab Callback)
    (state : State) (name : Str) : Option Str :=
  (hsearchR hooks ⟨true, true⟩ htab state name .find 0).bind fun r =>
    r.retval.bind fun i => (r.tab.table i).data

/-- `env_import` (`env_common.c:191-226`) of the bytes in the image. -/
def envImport {Callback State : Type} (hooks : Hooks Callback State) (old : Option (Htab Callback))
    (state : State) (data : ℕ → UInt8) (size : ℕ) : Option (ℕ × Importing Callback State) :=
  himportR hooks old state ((List.range size).map data) nul 0 false []

end UBoot.Env
