import UBoot.Env.Hashtable
import UBoot.Env.Qsort

/-!
# Export and import of the hash table (lib/hashtable.c)

`hexport_r` writes the entries as `name=value` strings, `himport_r` reads such a text into a table.
It works in place on a copy of its input, a function from positions to bytes.
-/

namespace UBoot.Env

open Function

def nul : UInt8 := 0
def tab : UInt8 := 9
def newline : UInt8 := 10
def carriageReturn : UInt8 := 13
def space : UInt8 := 32
def hash : UInt8 := 35
def equals : UInt8 := 61
def backslash : UInt8 := 92

section Export

variable {Callback : Type}

/- The difference of two bytes, in the signed char `__res`. -/
def charDiff (a b : UInt8) : ℤ := (a.toNat - b.toNat : ℤ).bmod 256

/-- `strcmp`: its sign is that of the first difference, as far as a signed char holds this. -/
def strcmp : Str → Str → ℤ
  | [], [] => 0
  | [], b :: _ => charDiff nul b
  | a :: _, [] => charDiff a nul
  | a :: as, b :: bs => if a = b then strcmp as bs else charDiff a b

/- The entries that pass 1 collects, in the order of the slots; `keep` stands for
`match_entry` and `H_HIDE_DOT`. -/
def collect (htab : Htab Callback) (keep : Str → Str → Bool) : List (Str × Str) :=
  (List.range' 1 htab.size).filterMap fun i =>
    if 0 < (htab.table i).used then
      match (htab.table i).key, (htab.table i).data with
      | some key, some data => if keep key data then some (key, data) else none
      | _, _ => none
    else none

/- The length that pass 1 adds for one entry (`hashtable.c:628-645`): escapes are
counted for separators other than NUL only. -/
def entryLen (sep : UInt8) (e : Str × Str) : ℕ :=
  e.1.length + 2 +
    (if sep = nul then e.2.length
     else e.2.length + e.2.countP (fun c => c = sep || c = backslash)) + 2

def totlen (sep : UInt8) (list : List (Str × Str)) : ℕ := (list.map (entryLen sep)).sum

/- `qsort` with `cmpkey`. -/
def sortEntries (list : List (Str × Str)) : List (Str × Str) :=
  ((qsort (fun e f => strcmp e.1 f.1 ≤ 0) list.length fun i => list.getD i ([], [])).map
    fun sorted => (List.range list.length).map sorted).getD list

/- A value as pass 2 writes it (`hashtable.c:693-697`). -/
def escape (sep : UInt8) : Str → Str
  | [] => []
  | c :: cs => if c = sep || c = backslash then backslash :: c :: escape sep cs else c :: escape sep cs

def exportEntry (sep : UInt8) (e : Str × Str) : Str := e.1 ++ equals :: escape sep e.2 ++ [sep]

def exportBytes (sep : UInt8) (list : List (Str × Str)) : Str :=
  (list.flatMap (exportEntry sep)) ++ [nul]

/- The result of `hexport_r`: an error, a store outside the result buffer, or the
buffer. -/
inductive Exported where
  | tooSmall
  | overflow (size : ℕ) (stored : Str)
  | done (buffer : Str)
  deriving Repr, DecidableEq

/-- `hexport_r` (`hashtable.c:590-706`). -/
def hexportR (htab : Htab Callback) (sep : UInt8) (keep : Str → Str → Bool) (size : ℕ) : Exported :=
  let list := collect htab keep
  let total := totlen sep list
  if size ≠ 0 ∧ size < total + 1 then .tooSmall
  else
    let size := if size ≠ 0 then size else total + 1
    let stored := exportBytes sep (sortEntries list)
    if size < stored.length then .overflow size stored
    else .done (stored ++ List.replicate (size - stored.length) nul)

end Export

section Buffer

def cstr (data : ℕ → UInt8) : ℕ → ℕ → Str
  | 0, _ => []
  | fuel + 1, p => if data p = nul then [] else data p :: cstr data fuel (p + 1)

/- A loop that moves `dp` on while the byte under it satisfies `p`. -/
def skipWhile (p : UInt8 → Bool) (data : ℕ → UInt8) : ℕ → ℕ → ℕ
  | 0, dp => dp
  | fuel + 1, dp => if p (data dp) then skipWhile p data fuel (dp + 1) else dp

def isblank (c : UInt8) : Bool := c = space || c = tab

def inComment (sep c : UInt8) : Bool := c != nul && c != sep
def inName (sep c : UInt8) : Bool := c != equals && c != nul && c != sep

/- The loop that moves a value down over its escapes (`hashtable.c:897-901`): the buffer,
`dp` and `sp` after it. -/
def copyValue (sep : UInt8) : ℕ → (ℕ → UInt8) → ℕ → ℕ → (ℕ → UInt8) × ℕ × ℕ
  | 0, data, dp, sp => (data, dp, sp)
  | fuel + 1, data, dp, sp =>
    if data dp ≠ nul ∧ data dp ≠ sep then
      let dp := if data dp = backslash ∧ data (dp + 1) ≠ nul then dp + 1 else dp
      copyValue sep fuel (update data sp (data dp)) (dp + 1) (sp + 1)
    else (data, dp, sp)

/- The removal of carriage returns (`hashtable.c:849-861`) at `dp`, with the number that
was removed so far; the buffer and that number after it. -/
def dropCrs (size : ℕ) : ℕ → (ℕ → UInt8) → ℕ → ℕ → (ℕ → UInt8) × ℕ
  | 0, data, _, ignored => (data, ignored)
  | fuel + 1, data, dp, ignored =>
    if dp < size ∧ data dp ≠ nul then
      if data dp = carriageReturn ∧ dp < size - 1 ∧ data (dp + 1) = newline then
        dropCrs size fuel data (dp + 1) (ignored + 1)
      else dropCrs size fuel (update data (dp - ignored) (data dp)) (dp + 1) ignored
    else (data, ignored)

inductive Line where
  | comment
  | delete (name : Str)
  | enter (name value : Str)
  deriving Repr, DecidableEq

/-- The body of the parsing loop up to the hash table calls (`hashtable.c:866-903`): what
the line says, the buffer and `dp` after it. Strings are read with `fuel` for the length
of the buffer. -/
def parseLine (sep : UInt8) (fuel : ℕ) (data : ℕ → UInt8) (dp : ℕ) : Line × (ℕ → UInt8) × ℕ :=
  let dp := skipWhile isblank data fuel dp
  if data dp = hash then (.comment, data, skipWhile (inComment sep) data fuel dp + 1)
  else
    let name := dp
    let dp := skipWhile (inName sep) data fuel dp
    if data dp = nul ∨ data (dp + 1) = nul ∨ data dp = sep ∨ data (dp + 1) = sep then
      let cut := if data dp = equals then (update data dp nul, dp + 1) else (data, dp)
      let data := update cut.1 cut.2 nul
      (.delete (cstr data fuel name), data, cut.2 + 1)
    else
      let value := dp + 1
      let r := copyValue sep fuel (update data dp nul) value value
      let data := update r.1 r.2.2 nul
      (.enter (cstr data fuel name) (cstr data fuel value), data, r.2.1 + 1)

end Buffer

section Import

variable {Callback State : Type} (hooks : Hooks Callback State)

/- `drop_var_from_set` (`hashtable.c:718-740`). -/
def dropVarFromSet (name : Str) (vars : List (Option Str)) : Bool × List (Option Str) :=
  if vars.isEmpty then (true, vars)
  else (vars.contains (some name), vars.map fun v => if v = some name then none else v)

/- The hash table, the state of the hooks and the list of variables during an import. -/
structure Importing (Callback State : Type) where
  htab : Htab Callback
  state : State
  vars : List (Option Str)

/- What is done for a line (`hashtable.c:885-932`); `false` is the error return for an
empty key. -/
def importLine (flag : ℕ) (s : Importing Callback State) :
    Line → Option (Bool × Importing Callback State)
  | .comment => some (true, s)
  | .delete name =>
    let drop := dropVarFromSet name s.vars
    if !drop.1 then some (true, { s with vars := drop.2 })
    else (hdeleteR hooks s.htab s.state name flag).map fun r => (true, ⟨r.tab, r.state, drop.2⟩)
  | .enter name value =>
    if name = [] then some (false, s)
    else
      let drop := dropVarFromSet name s.vars
      if !drop.1 then some (true, { s with vars := drop.2 })
      else (hsearchR hooks ⟨true, true⟩ s.htab s.state name (.enter value) flag).map fun r =>
        (true, ⟨r.tab, r.state, drop.2⟩)

/- The parsing loop; `len` is the length of the buffer, which `size` falls short of when
carriage returns were removed. -/
def importLoop (len size : ℕ) (sep : UInt8) (flag : ℕ) :
    ℕ → (ℕ → UInt8) → ℕ → Importing Callback State → Option (Bool × Importing Callback State)
  | 0, _, _, _ => none
  | fuel + 1, data, dp, s =>
    let r := parseLine sep (len + 1) data dp
    match importLine hooks flag s r.1 with
    | none => none
    | some (false, s) => some (false, s)
    | some (true, s) =>
      if r.2.2 < size ∧ r.2.1 r.2.2 ≠ nul then importLoop len size sep flag fuel r.2.1 r.2.2 s
      else some (true, s)

/- The variables that were not met are deleted (`hashtable.c:938-954`). -/
def dropRest (flag : ℕ) (s : Importing Callback State) :
    List (Option Str) → Option (Importing Callback State)
  | [] => some s
  | none :: vars => dropRest flag s vars
  | some name :: vars =>
    match hdeleteR hooks s.htab s.state name flag with
    | none => none
    | some r => dropRest flag ⟨r.tab, r.state, s.vars⟩ vars

def configEnvMinEntries : ℕ := 64
def configEnvMaxEntries : ℕ := 512

/- The number of entries asked for (`hashtable.c:832-835`). -/
def importEntries (size : ℕ) : ℕ := min (configEnvMinEntries + size / 8) configEnvMaxEntries

/- `H_NOCLEAR` (`search.h:112`). -/
def noClear (flag : ℕ) : Bool := flag % 2 = 1

/- The table that the import starts with: the old one is destroyed unless `H_NOCLEAR` is
set, and a new one is created when there is none. -/
def importTable (old : Option (Htab Callback)) (size flag : ℕ) : Option (Htab Callback) :=
  match if noClear flag then old else none with
  | some htab => some htab
  | none => hcreateR Callback (importEntries size)

/-- `himport_r` (`hashtable.c:777-957`) of the bytes `env`, whose allocations succeed:
the return value and the state after it, or `none` where the behaviour is undefined or
fuel runs out. -/
def himportR (old : Option (Htab Callback)) (state : State) (env : Str) (sep : UInt8) (flag : ℕ)
    (crlfIsLf : Bool) (vars : List Str) : Option (ℕ × Importing Callback State) :=
  match importTable old env.length flag with
  | none => none
  | some htab =>
    let s : Importing Callback State := ⟨htab, state, vars.map some⟩
    if env = [] then some (1, s)
    else
      let data := fun i => env.getD i nul
      let crs := if crlfIsLf then dropCrs env.length (env.length + 1) data 0 0 else (data, 0)
      match importLoop hooks env.length (env.length - crs.2) sep flag (env.length + 1) crs.1 0 s with
      | none => none
      | some (false, s) => some (0, s)
      | some (true, s) => (dropRest hooks flag s s.vars).map fun s => (1, s)

end Import

end UBoot.Env
