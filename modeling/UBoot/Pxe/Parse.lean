import UBoot.Lib.Strto

/-!
# PXE menu files (cmd/pxe.c)

A pointer into a file is the list of the bytes from it on; behind the last one there are zeros.
Messages are left out, and `malloc` succeeds. Include statements are handed back to the caller, as
they load a file into the memory that is being read.
-/

namespace UBoot.Pxe

abbrev Text := List UInt8

def chars (s : String) : Text := s.toList.map fun c => UInt8.ofNat c.toNat

inductive TokenType where
  | eol | string | eof | menu | title | timeout | label | kernel | linux | append | initrd
  | localboot | default | prompt | include | fdt | fdtdir | ontimeout | ipappend | invalid
deriving DecidableEq

structure Token where
  val : Text
  type : TokenType

def keywords : List (Text × TokenType) :=
  [(chars "menu", .menu), (chars "title", .title), (chars "timeout", .timeout),
    (chars "default", .default), (chars "prompt", .prompt), (chars "label", .label),
    (chars "kernel", .kernel), (chars "linux", .linux), (chars "localboot", .localboot),
    (chars "append", .append), (chars "initrd", .initrd), (chars "include", .include),
    (chars "devicetree", .fdt), (chars "fdt", .fdt), (chars "devicetreedir", .fdtdir),
    (chars "fdtdir", .fdtdir), (chars "ontimeout", .ontimeout), (chars "ipappend", .ipappend)]

inductive LexState where
  | keyword | sliteral

def isblank (c : UInt8) : Bool := c = 32 ∨ c = 9

def isspace (c : UInt8) : Bool := 9 ≤ c ∧ c ≤ 13 ∨ c = 32 ∨ c = 160

def tolower (c : UInt8) : UInt8 := if 65 ≤ c ∧ c ≤ 90 ∨ 192 ≤ c ∧ c ≤ 222 ∧ c ≠ 215 then c + 32 else c

/- The characters up to the delimiter; 32 stands for any whitespace. -/
def inString (delim c : UInt8) : Bool := c ≠ 0 ∧ ¬ (delim = 32 ∧ isspace c ∨ delim = c)

def getString (s : Text) (delim : UInt8) (lower : Bool) : Text × Text :=
  let val := s.takeWhile (inString delim)
  (if lower then val.map tolower else val, s.dropWhile (inString delim))

def getKeyword (val : Text) : TokenType :=
  match keywords.find? fun keyword => keyword.1 = val with
  | some keyword => keyword.2
  | none => .string

def inLine (c : UInt8) : Bool := c ≠ 0 ∧ c ≠ 10

def skipBlank (s : Text) : Text :=
  let c := s.dropWhile isblank
  if c.head? = some 35 then c.dropWhile inLine else c

def getToken (s : Text) (state : LexState) : Token × Text :=
  match skipBlank s with
  | [] => (⟨[], .eof⟩, [])
  | c :: rest =>
    if c = 10 then (⟨[], .eol⟩, rest)
    else if c = 0 then (⟨[], .eof⟩, rest)
    else
      match state with
      | .sliteral => let (val, rest) := getString (c :: rest) 10 false; (⟨val, .string⟩, rest)
      | .keyword => let (val, rest) := getString (c :: rest) 32 true; (⟨val, getKeyword val⟩, rest)

def eolOrEof (s : Text) : Text := s.dropWhile inLine

def parseSliteral (s : Text) : Option Text × Text :=
  let (t, rest) := getToken s .sliteral
  if t.type ≠ .string then (none, rest) else (some t.val, rest)

def simpleStrtoul (s : Text) (base : ℕ) : ℕ := (Strto.simpleStrtoul UInt8.toNat 32 s base).1

/- As an `int`. -/
def simpleStrtol (s : Text) (base : ℕ) : ℤ :=
  match s with
  | 45 :: s => Int.bmod (-simpleStrtoul s base) (2 ^ 32)
  | s => Int.bmod (simpleStrtoul s base) (2 ^ 32)

def parseInteger (s : Text) : Option ℤ × Text :=
  let (t, rest) := getToken s .sliteral
  if t.type ≠ .string then (none, rest) else (some (simpleStrtol t.val 10), rest)

structure Label where
  name : Text
  menu : Option Text
  kernel : Option Text
  append : Option Text
  initrd : Option Text
  fdt : Option Text
  fdtdir : Option Text
  ipappend : ℤ
  localboot : ℤ
  localbootVal : ℤ
deriving DecidableEq

structure Menu where
  title : Option Text
  defaultLabel : Option Text
  timeout : ℤ
  prompt : ℤ
  labels : List Label
deriving DecidableEq

def labelCreate (name : Text) : Label := ⟨name, none, none, none, none, none, none, 0, 0, 0⟩

/- `strstr` with `pattern`: what is behind the first place. -/
def behind (pattern : Text) : Text → Option Text
  | [] => none
  | c :: s => if pattern <+: c :: s then some ((c :: s).drop pattern.length) else behind pattern s

def parseLabelMenu (s : Text) (cfg : Menu) (label : Label) : Menu × Label × Text :=
  let (t, rest) := getToken s .keyword
  match t.type with
  | .default =>
    let cfg := if cfg.defaultLabel.isNone then { cfg with defaultLabel := some label.name } else cfg
    (cfg, label, eolOrEof rest)
  | .label =>
    let (menu, rest) := parseSliteral rest
    (cfg, if menu.isSome then { label with menu := menu } else label, eolOrEof rest)
  | _ => (cfg, label, eolOrEof rest)

/- One turn of the loop of `parse_label`. A null pointer is used when an `initrd=` has no space behind
it, or when there is no command line to look for one in. -/
inductive Item where
  | next (rest : Text) (cfg : Menu) (label : Label)
  | done
  | error
  | crash

def storeSliteral (s : Text) (cfg : Menu) (set : Text → Label) : Item :=
  match parseSliteral s with
  | (some val, rest) => .next rest cfg (set val)
  | (none, _) => .error

def storeInteger (s : Text) (cfg : Menu) (set : ℤ → Label) : Item :=
  match parseInteger s with
  | (some val, rest) => .next rest cfg (set val)
  | (none, _) => .error

def initrdOf (append : Text) : Option (Option Text) :=
  match behind (chars "initrd=") append with
  | none => some none
  | some s => if 32 ∈ s then some (some (s.takeWhile (· ≠ 32))) else none

def parseAppend (s : Text) (cfg : Menu) (label : Label) : Item :=
  match parseSliteral s with
  | (none, _) => if label.initrd.isNone ∧ label.append.isNone then .crash else .error
  | (some val, rest) =>
    if label.initrd.isSome then .next rest cfg { label with append := some val }
    else
      match initrdOf val with
      | none => .crash
      | some initrd => .next rest cfg { label with append := some val, initrd := initrd }

def labelItem (s : Text) (cfg : Menu) (label : Label) : Item :=
  let (t, rest) := getToken s .keyword
  match t.type with
  | .menu => let (cfg, label, rest) := parseLabelMenu rest cfg label; .next rest cfg label
  | .kernel | .linux => storeSliteral rest cfg fun val => { label with kernel := some val }
  | .append => parseAppend rest cfg label
  | .initrd =>
    if label.initrd.isSome then .next rest cfg label
    else storeSliteral rest cfg fun val => { label with initrd := some val }
  | .fdt =>
    if label.fdt.isSome then .next rest cfg label
    else storeSliteral rest cfg fun val => { label with fdt := some val }
  | .fdtdir =>
    if label.fdtdir.isSome then .next rest cfg label
    else storeSliteral rest cfg fun val => { label with fdtdir := some val }
  | .localboot => storeInteger rest cfg fun val => { label with localboot := 1, localbootVal := val }
  | .ipappend => storeInteger rest cfg fun val => { label with ipappend := val }
  | .eol => .next rest cfg label
  -- the token is put back
  | _ => .done

/- One turn of the loop of `parse_pxefile_top`, up to the file to include. -/
inductive Turn where
  | eof
  | error
  | crash
  | next (rest : Text) (cfg : Menu)
  | incl (menu : Bool) (path : Text) (rest : Text) (cfg : Menu)
deriving DecidableEq

def labelLoop : ℕ → Text → Menu → Label → Option Turn
  | 0, _, _, _ => none
  | turns + 1, s, cfg, label =>
    match labelItem s cfg label with
    | .next rest cfg label => labelLoop turns rest cfg label
    | .done => some (.next s { cfg with labels := cfg.labels ++ [label] })
    | .error => some .error
    | .crash => some .crash

def parseLabel (turns : ℕ) (s : Text) (cfg : Menu) : Option Turn :=
  match parseSliteral s with
  | (none, _) => some .error
  | (some name, rest) => labelLoop turns rest cfg (labelCreate name)

def parseMenu (s : Text) (cfg : Menu) : Turn :=
  let (t, rest) := getToken s .keyword
  match t.type with
  | .title =>
    match parseSliteral rest with
    | (some title, rest) => .next (eolOrEof rest) { cfg with title := some title }
    | (none, _) => .error
  | .include =>
    match parseSliteral rest with
    | (some path, rest) => .incl true path rest cfg
    | (none, _) => .error
  | _ => .next (eolOrEof rest) cfg

def turn (turns : ℕ) (s : Text) (cfg : Menu) : Option Turn :=
  let (t, rest) := getToken s .keyword
  match t.type with
  | .menu => some (parseMenu rest { cfg with prompt := 1 })
  | .timeout =>
    match parseInteger rest with
    | (some timeout, rest) => some (.next rest { cfg with timeout := timeout })
    | (none, _) => some .error
  | .label => parseLabel turns rest cfg
  | .default | .ontimeout =>
    match parseSliteral rest with
    | (some name, rest) => some (.next rest { cfg with defaultLabel := some name })
    | (none, _) => some .error
  | .include =>
    match parseSliteral rest with
    | (some path, rest) => some (.incl false path rest cfg)
    | (none, _) => some .error
  | .prompt => some (.next (eolOrEof rest) cfg)
  | .eol => some (.next rest cfg)
  | .eof => some .eof
  | _ => some (.next (eolOrEof rest) cfg)

abbrev Ram := List UInt8

/- The bytes put at an address; memory beyond the last byte so far is 0. -/
def put (mem : Ram) (a : ℕ) (bytes : List UInt8) : Ram :=
  mem.take a ++ List.replicate (a - mem.length) 0 ++ bytes ++ mem.drop (a + bytes.length)

def strlen (s : Text) : ℕ := (s.takeWhile (· ≠ 0)).length

def align (x a : ℕ) : ℕ := (x + (a - 1)) / a * a

inductive Outcome where
  | ok (cfg : Menu)
  | error
  | crash
deriving DecidableEq

abbrev Include := Ram → Menu → Text → ℕ → Option (Ram × Outcome)

/- The parts of the file are in memory from `b` and from `p` on. -/
def parseLoop (incl : Include) (turns : ℕ) : ℕ → Ram → ℕ → ℕ → Menu → Option (Ram × Outcome)
  | 0, _, _, _, _ => none
  | left + 1, mem, b, p, cfg =>
    match turn turns (mem.drop p) cfg with
    | none => none
    | some .eof => some (mem, .ok cfg)
    | some .error => some (mem, .error)
    | some .crash => some (mem, .crash)
    | some (.next rest cfg) => parseLoop incl turns left mem b (p + ((mem.drop p).length - rest.length)) cfg
    | some (.incl menu path rest cfg) =>
      let p := p + ((mem.drop p).length - rest.length)
      let base := if menu then b + align (strlen (mem.drop b) + 1) 4 else b + align (strlen (mem.drop b)) 4
      match incl mem cfg path base with
      | some (mem, .ok cfg) =>
        let p := if menu then p + ((mem.drop p).length - (eolOrEof (mem.drop p)).length) else p
        parseLoop incl turns left mem b p cfg
      | result => result

def maxNestLevel : ℕ := 16

section Files

variable (files : Text → Option (List UInt8)) (turns : ℕ)

/- `get_pxe_file`, then the file is parsed; it ends where it was loaded to. -/
def handleInclude (parse : Ram → ℕ → Menu → Option (Ram × Outcome)) : Include :=
  fun mem cfg path base =>
    match files path with
    | none => some (mem, .error)
    | some content => parse (put mem base (content ++ [0])) base cfg

/- `levels` are left up to the limit. -/
def parsePxefileTop : ℕ → Ram → ℕ → Menu → Option (Ram × Outcome)
  | 0, mem, _, _ => some (mem, .error)
  | levels + 1, mem, b, cfg =>
    parseLoop (handleInclude files (parsePxefileTop levels)) turns turns mem b b cfg

def emptyMenu : Menu := ⟨none, none, 0, 0, []⟩

def parsePxefile (mem : Ram) (menucfg : ℕ) : Option (Ram × Outcome) :=
  parsePxefileTop files turns maxNestLevel mem menucfg emptyMenu

end Files

end UBoot.Pxe
