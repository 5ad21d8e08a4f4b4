import UBoot.Env.Attr
import UBoot.Env.Image

/-!
# Flags and callbacks of variables (common/env_flags.c, common/env_callback.c)

The functions that the hash table calls: `env_flags_validate` before a change, `env_callback_init` and
`env_flags_init` for a new entry, and the callbacks. `CONFIG_CMD_NET` is set, `CONFIG_REGEX` and
`CONFIG_ENV_ACCESS_IGNORE_FORCE` are not.
-/

namespace UBoot.Env

/- `.flags` and `.callbacks`, and the names of their callbacks. -/
def envFlagsVar : Str := [46, 102, 108, 97, 103, 115]
def envCallbackVar : Str := [46, 99, 97, 108, 108, 98, 97, 99, 107, 115]
def flagsCallbackName : Str := [102, 108, 97, 103, 115]
def callbacksCallbackName : Str := [99, 97, 108, 108, 98, 97, 99, 107, 115]

/- `enum env_flags_vartype`. -/
inductive Vartype where
  | string
  | decimal
  | hex
  | bool
  | ipaddr
  | macaddr
  deriving Repr, DecidableEq

def Vartype.bin : Vartype → ℕ
  | .string => 0
  | .decimal => 1
  | .hex => 2
  | .bool => 3
  | .ipaddr => 4
  | .macaddr => 5

/- `enum env_flags_varaccess`. -/
inductive Varaccess where
  | any
  | readonly
  | writeonce
  | changedefault
  deriving Repr, DecidableEq

def preventDelete : ℕ := 0x08
def preventCreate : ℕ := 0x10
def preventOverwr : ℕ := 0x20
def preventNondefOverwr : ℕ := 0x40

/- `env_flags_varaccess_mask`. -/
def Varaccess.mask : Varaccess → ℕ
  | .any => 0
  | .readonly => preventDelete ||| preventCreate ||| preventOverwr
  | .writeonce => preventDelete ||| preventOverwr
  | .changedefault => preventDelete ||| preventNondefOverwr

/- `env_flags_parse_vartype` (`env_flags.c:108-125`): the characters `sdxbim`. -/
def parseVartype : Str → Vartype
  | 100 :: _ => .decimal
  | 120 :: _ => .hex
  | 98 :: _ => .bool
  | 105 :: _ => .ipaddr
  | 109 :: _ => .macaddr
  | _ => .string

/- `env_flags_parse_varaccess` (`env_flags.c:130-147`): the characters `aroc`. -/
def parseVaraccess : Str → Varaccess
  | _ :: 114 :: _ => .readonly
  | _ :: 111 :: _ => .writeonce
  | _ :: 99 :: _ => .changedefault
  | _ => .any

/- `env_parse_flags_to_bin` (`env_flags.c:403-411`). -/
def parseFlagsToBin (flags : Str) : ℕ := (parseVartype flags).bin ||| (parseVaraccess flags).mask

section Types

def isdigit (c : UInt8) : Bool := 48 ≤ c && c ≤ 57
def isxdigit (c : UInt8) : Bool := isdigit c || (65 ≤ c && c ≤ 70) || (97 ≤ c && c ≤ 102)

/- `is_hex_prefix`. -/
def isHexPrefix : Str → Bool
  | 48 :: 120 :: _ => true
  | 48 :: 88 :: _ => true
  | _ => false

/- At most `n` leading digits are dropped. -/
def dropDigits (digit : UInt8 → Bool) : ℕ → Str → Str
  | 0, value => value
  | _ + 1, [] => []
  | n + 1, c :: value => if digit c then dropDigits digit n value else c :: value

/- `skip_num` (`env_flags.c:172-189`): the string at `end`; `none` is a maximum of -1. -/
def skipNum (hex : Bool) (value : Str) (maxDigits : Option ℕ) : Str :=
  let value := if hex && isHexPrefix value then value.drop 2 else value
  dropDigits (if hex then isxdigit else isdigit) (maxDigits.getD value.length) value

/- The groups of an address, `count` of them with `delim` in between. -/
def validateGroups (hex : Bool) (delim : UInt8) (maxDigits : ℕ) : ℕ → Str → Bool
  | 0, _ => true
  | count + 1, cur =>
    let rest := skipNum hex cur (some maxDigits)
    if rest.length = cur.length then false
    else if hex && isHexPrefix cur && rest.length + 2 = cur.length then false
    else
      match rest with
      | [] => count == 0
      | c :: next => count != 0 && c == delim && validateGroups hex delim maxDigits count next

/- `_env_flags_validate_type` (`env_flags.c:220-278`) for the type bits of the flags. -/
def validateType (value : Str) : ℕ → Bool
  | 1 => skipNum false value none = []
  | 2 => skipNum true value none = [] && !(isHexPrefix value && value.length = 2)
  | 3 => match value with
    | [c] => [49, 121, 116, 89, 84, 48, 110, 102, 78, 70].contains c
    | _ => false
  | 4 => validateGroups false 46 3 4 value
  | 5 => validateGroups true 58 2 6 value
  | 6 => false
  | _ => true

end Types

section Validate

/- The size of `gd->env_buf`. -/
def envBufSize : ℕ := 32

/- `getenv_default` (`env_common.c:83-96`): `getenv_f` of the default environment, into
`gd->env_buf`. -/
def getenvDefault (defaults : ℕ → UInt8) (configEnvSize : ℕ) (name : Str) : Option Str :=
  match getenvF defaults configEnvSize name envBufSize with
  | some (n, value) => if 0 < n then some value else none
  | none => none

/- `H_FORCE` (`search.h:113`). -/
def force (flag : ℕ) : Bool := flag / 2 % 2 = 1

/-- `env_flags_validate` (`env_flags.c:498-564`); `true` is a rejection. -/
def envFlagsValidate {Callback : Type} (defaults : ℕ → UInt8) (configEnvSize : ℕ)
    (item : Slot Callback) (newval : Option Str) (op : EnvOp) (flag : ℕ) : Bool :=
  if op ≠ .delete ∧ validateType (newval.getD []) (item.attr.flags &&& 7) = false then true
  else if force flag then false
  else
    match op with
    | .delete => item.attr.flags &&& preventDelete != 0
    | .overwrite =>
      if item.attr.flags &&& preventOverwr ≠ 0 then true
      else if item.attr.flags &&& preventNondefOverwr ≠ 0 then
        item.data.getD [] != (getenvDefault defaults configEnvSize (item.key.getD [])).getD []
      else false
    | .create => item.attr.flags &&& preventCreate != 0

end Validate

/- `flags_list` and `callback_list` after the first call: NULL, the value of an entry (the
bytes that are there now, also when the value was freed since), or `gd->env_buf`. -/
inductive ListPtr where
  | null
  | value (text : Str)
  | envBuf
  deriving Repr, DecidableEq

def ListPtr.text (envBuf : Str) : ListPtr → Option Str
  | .null => none
  | .value text => some text
  | .envBuf => some envBuf

/- The callbacks of the linker list: `on_flags`, `on_callbacks` and those of drivers. -/
inductive EnvCallback (Other : Type) where
  | flags
  | callbacks
  | other (c : Other)
  deriving Repr, DecidableEq

/- `GD_FLG_ENV_READY`, `gd->env_buf`, the static variables of both files (`none` is
`first_call`), and what the callbacks of drivers change. -/
structure EnvState (Board : Type) where
  ready : Bool
  envBuf : Str
  flagsList : Option ListPtr
  callbackList : Option ListPtr
  board : Board

/- What the build fixes: the static lists, the default environment, what `getenv_f` stores
in `gd->env_buf` before the environment is ready, and the callbacks of drivers. -/
structure EnvConfig (Other Board : Type) where
  flagsListStatic : Str
  callbackListStatic : Str
  defaults : ℕ → UInt8
  configEnvSize : ℕ
  early : Str → Option Str
  findOther : Str → Option Other
  run : Other → Board → Str → Option Str → EnvOp → ℕ → Bool × Board

section Entries

variable {Other Board : Type} (cfg : EnvConfig Other Board)

def findEntry {Callback : Type} (htab : Htab Callback) (name : Str) : Option ℕ :=
  match probeFor htab name with
  | some (.entry i) => some i
  | _ => none

def findValue {Callback : Type} (htab : Htab Callback) (name : Str) : Option Str :=
  (findEntry htab name).bind fun i => (htab.table i).data

/- `getenv` (`cmd/nvedit.c:626-645`): the pointer, and `gd->env_buf` after it. -/
def getenvList {Callback : Type} (ready : Bool) (envBuf : Str) (htab : Htab Callback) (name : Str) :
    ListPtr × Str :=
  if ready then
    match findValue htab name with
    | some value => (.value value, envBuf)
    | none => (.null, envBuf)
  else
    match cfg.early name with
    | some value => (if value = [] then .null else .envBuf, value)
    | none => (.null, envBuf)

def storedList {Callback : Type} (stored : Option ListPtr) (ready : Bool) (envBuf : Str)
    (htab : Htab Callback) (name : Str) : ListPtr × Str :=
  match stored with
  | some list => (list, envBuf)
  | none => getenvList cfg ready envBuf htab name

/- `find_env_callback` (`env_callback.c:18-36`). -/
def findEnvCallback (name : Str) : Option (EnvCallback Other) :=
  if name = flagsCallbackName then some .flags
  else if name = callbacksCallbackName then some .callbacks
  else (cfg.findOther name).map .other

/- A lookup in the list, and only if it is not there in the static list. -/
def listLookup (list : Option Str) (static name : Str) : Option Str :=
  match envAttrLookup list name with
  | some attributes => some attributes
  | none => envAttrLookup (some static) name

/- `env_callback_init` (`env_callback.c:46-77`) with the list that is stored by then. -/
def envCallbackInit (list : Option Str) (name : Str) (old : Option (EnvCallback Other)) :
    Option (EnvCallback Other) :=
  match listLookup list cfg.callbackListStatic name with
  | none => old
  | some [] => old
  | some callbackName =>
    match findEnvCallback cfg callbackName with
    | some c => some c
    | none => old

/- `env_flags_init` (`env_flags.c:421-437`) with the list that is stored by then. -/
def envFlagsInit (list : Option Str) (name : Str) (old : ℕ) : ℕ :=
  match listLookup list cfg.flagsListStatic name with
  | none => old
  | some [] => old
  | some flags => parseFlagsToBin flags

/- The lists of both functions for a new entry, with `gd->env_buf` when they are read. -/
def callbackListOf {Callback : Type} (state : EnvState Board) (htab : Htab Callback) : ListPtr × Str :=
  storedList cfg state.callbackList state.ready state.envBuf htab envCallbackVar

def flagsListOf {Callback : Type} (state : EnvState Board) (htab : Htab Callback) : ListPtr × Str :=
  storedList cfg state.flagsList state.ready (callbackListOf cfg state htab).2 htab envFlagsVar

def envInit (state : EnvState Board) (htab : Htab (EnvCallback Other)) (idx : ℕ) :
    EnvState Board × Attr (EnvCallback Other) :=
  let slot := htab.table idx
  let name := slot.key.getD []
  let callbackList := callbackListOf cfg state htab
  let flagsList := flagsListOf cfg state htab
  ({ state with
      envBuf := flagsList.2
      flagsList := some flagsList.1
      callbackList := some callbackList.1 },
    ⟨envCallbackInit cfg (callbackList.1.text callbackList.2) name slot.attr.callback,
      envFlagsInit cfg (flagsList.1.text flagsList.2) name slot.attr.flags⟩)

/- Both functions copy attributes into buffers of a fixed size, `callback_name[256]` and
`flags[3]`, without a check. -/
def AttributesFit {Callback : Type} (state : EnvState Board) (htab : Htab Callback) (name : Str) :
    Prop :=
  let callbackList := callbackListOf cfg state htab
  let flagsList := flagsListOf cfg state htab
  (∀ a, listLookup (callbackList.1.text callbackList.2) cfg.callbackListStatic name = some a →
    a.length < 256) ∧
  ∀ a, listLookup (flagsList.1.text flagsList.2) cfg.flagsListStatic name = some a → a.length < 3

/- `set_flags` (`env_flags.c:453-473`), as far as it concerns the entry at `i`. -/
def setFlags {Callback : Type} (htab : Htab Callback) (i : ℕ) (flags : ℕ) (e : Str × Option Str) : ℕ :=
  if findEntry htab e.1 = some i then
    match e.2 with
    | none => 0
    | some [] => 0
    | some value => parseFlagsToBin value
  else flags

/-- `on_flags` (`env_flags.c:475-487`): the attributes of the entry at `i` after it. -/
def onFlags {Callback : Type} (htab : Htab Callback) (value : Option Str) (i : ℕ)
    (attr : Attr Callback) : Attr Callback :=
  let cleared := if 0 < (htab.table i).used then 0 else attr.flags
  let entries := envAttrWalk (some cfg.flagsListStatic) ++ envAttrWalk value
  { attr with flags := entries.foldl (setFlags htab i) cleared }

/- `set_callback` (`env_callback.c:93-121`), as far as it concerns the entry at `i`. -/
def setCallback {Callback : Type} (htab : Htab Callback) (i : ℕ) (callback : Option (EnvCallback Other))
    (e : Str × Option Str) : Option (EnvCallback Other) :=
  if findEntry htab e.1 = some i then
    match e.2 with
    | none => none
    | some [] => none
    | some value =>
      match findEnvCallback cfg value with
      | some c => some c
      | none => callback
  else callback

/-- `on_callbacks` (`env_callback.c:123-135`). -/
def onCallbacks (htab : Htab (EnvCallback Other)) (value : Option Str) (i : ℕ)
    (attr : Attr (EnvCallback Other)) : Attr (EnvCallback Other) :=
  let cleared := if 0 < (htab.table i).used then none else attr.callback
  let entries := envAttrWalk (some cfg.callbackListStatic) ++ envAttrWalk value
  { attr with callback := entries.foldl (setCallback cfg htab i) cleared }

/-- The hooks of `env_htab`. -/
def envHooks : Hooks (EnvCallback Other) (EnvState Board) where
  changeOk := envFlagsValidate cfg.defaults cfg.configEnvSize
  callback c state htab key newval op flag :=
    match c with
    | .flags => (false, state, onFlags cfg htab newval)
    | .callbacks => (false, state, onCallbacks cfg htab newval)
    | .other c =>
      let r := cfg.run c state.board key newval op flag
      (r.1, { state with board := r.2 }, fun _ attr => attr)
  init := envInit cfg

end Entries

end UBoot.Env
