import UBoot.Mtd.Parts
import UBoot.Lib.Strto

/-!
# The text of mtdparts (cmd/mtdparts.c)

Writing the partitions of all devices as a text and parsing such a text: the list of the characters
behind a pointer, up to the NUL. Memory for devices and partitions is taken at addresses that count
up. `last_parts` is left out.
-/

namespace UBoot.Mtd

def simpleStrtoull (cp : List Char) : ℕ × List Char := Strto.simpleStrtoul Char.toNat 64 cp 0

def memsizeParse (ptr : List Char) : ℕ × List Char :=
  match simpleStrtoull ptr with
  | (ret, []) => (ret, [])
  | (ret, c :: rest) =>
    if c = 'G' ∨ c = 'g' then (u64 (ret * 2 ^ 30), rest)
    else if c = 'M' ∨ c = 'm' then (u64 (ret * 2 ^ 20), rest)
    else if c = 'K' ∨ c = 'k' then (u64 (ret * 2 ^ 10), rest)
    else (ret, c :: rest)

def memsizeFormat (size : ℕ) : List Char :=
  if size % 2 ^ 30 = 0 then Nat.toDigits 10 (size / 2 ^ 30) ++ ['g']
  else if size % 2 ^ 20 = 0 then Nat.toDigits 10 (size / 2 ^ 20) ++ ['m']
  else if size % 2 ^ 10 = 0 then Nat.toDigits 10 (size / 2 ^ 10) ++ ['k']
  else Nat.toDigits 10 size

def offsetNotSpecified : ℕ := 2 ^ 64 - 1
def minPartSize : ℕ := 4096

/- The parts of `part_parse`, each with the text behind what it reads. -/
def parseSize : List Char → Option (ℕ × List Char)
  | '-' :: p => some (sizeRemaining, p)
  | p =>
    let (size, rest) := memsizeParse p
    if size < minPartSize then none else some (size, rest)

def parseOffset : List Char → ℕ × List Char
  | '@' :: p => memsizeParse p
  | p => (offsetNotSpecified, p)

def parseName : List Char → Option (Option (List Char) × List Char)
  | '(' :: p =>
    match p.span fun c => decide (c ≠ ')') with
    | (_, []) => none
    | (name, _ :: rest) => if name = [] then none else some (some name, rest)
  | p => some (none, p)

def parseOptions : List Char → ℕ × List Char
  | 'r' :: 'o' :: p => (1, p)
  | p => (0, p)

def parseEnd (size : ℕ) : List Char → Option (List Char)
  | ',' :: p => if size = sizeRemaining then none else some p
  | [] => some []
  | ';' :: p => some (';' :: p)
  | _ => none

def hex08 (n : ℕ) : List Char := (Nat.toDigits 16 n).leftpad 8 '0'

/- The name is cut behind 21 characters; what `sprintf` writes behind them is left out. -/
def autoNameOf (size offset : ℕ) : List Char :=
  ("0x".toList ++ hex08 size ++ "@0x".toList ++ hex08 offset).take 21

/- `none` when 1 is returned. -/
def partParse (addr : ℕ) (partdef : List Char) : Option (PartInfo × List Char) := do
  let (size, p) ← parseSize partdef
  let (offset, p) := parseOffset p
  let (name, p) ← parseName p
  let (maskFlags, p) := parseOptions p
  let ret ← parseEnd size p
  return (⟨addr, name.getD (autoNameOf size offset), name.isNone, size, offset, maskFlags, 0⟩, ret)

/- The loop of `device_parse`. A definition has a character at least, so `fuel` is enough when it
is the length of the text. -/
def parseParts (f : Flash) (id : MtdIds) :
    ℕ → ℕ → ℕ → List Char → Option (List PartInfo × List Char)
  | 0, _, _, _ => none
  | fuel + 1, addr, offset, p =>
    match partParse addr p with
    | none => none
    | some (part, rest) =>
      -- calculate offset when not specified
      let part := if part.offset = offsetNotSpecified then { part with offset := offset } else part
      match partValidate f id part with
      | none => none
      | some part =>
        if rest = [] ∨ rest.head? = some ';' then some ([part], rest)
        else
          match parseParts f id fuel (addr + 1) (u64 (part.offset + part.size)) rest with
          | none => none
          | some (parts, rest) => some (part :: parts, rest)

def deviceFind (s : State) (type : DevType) (num : ℕ) : Option ℕ :=
  s.devices.find? fun d => decide ((s.heap d).id.type = type ∧ (s.heap d).id.num = num)

def idFindByMtdId (ids : List MtdIds) (mtdId : List Char) : Option MtdIds :=
  ids.find? fun id => decide (id.mtdId = mtdId)

/- The partitions are moved to the device; on a failure the device is deleted. -/
def addParts (s : State) (d : ℕ) : List PartInfo → Option (ℤ × State)
  | [] => some (0, s)
  | part :: parts =>
    match partSortAdd s d part with
    | none => none
    | some (0, s) => addParts s d parts
    | some (_, s) => (deviceDel s d).map fun r => (1, r.2)

/- The end of the last partition when the device exists; a device has a partition at least. -/
def startOffset (s : State) (id : MtdIds) : ℕ :=
  match deviceFind s id.type id.num with
  | none => 0
  | some d =>
    match (s.heap d).parts.getLast? with
    | none => 0
    | some part => u64 (part.offset + part.size)

/- The device is put at `d`. The result is the return value, the text behind the device and the
state. -/
def deviceParse (f : Flash) (ids : List MtdIds) (s : State) (d addr : ℕ) (mtdDev : List Char) :
    Option (ℤ × List Char × State) :=
  match mtdDev.span fun c => decide (c ≠ ':') with
  | (_, []) => some (1, [], s)
  | (mtdId, _ :: p) =>
    match idFindByMtdId ids mtdId with
    | none => some (1, [], s)
    | some id =>
      -- the error is set before the loop
      if p = [] ∨ p.head? = some ';' then some (1, [], s)
      else
        match parseParts f id p.length addr (startOffset s id) p with
        | none => some (1, [], s)
        | some (parts, rest) =>
          if parts.length % 2 ^ 16 = 0 then some (1, [], s)
          else
            let ret := match rest with
              | ';' :: rest => rest
              | rest => rest
            (addParts (s.setDev d ⟨id, 0, []⟩) d parts).map fun r => (r.1, ret, r.2)

/- The loop of `parse_mtdparts`. On an error all devices are deleted. -/
def parseDevices (f : Flash) (ids : List MtdIds) :
    ℕ → State → ℕ → ℕ → List Char → Option (ℤ × State)
  | 0, s, _, _, _ => some (1, { s with devices := [] })
  | fuel + 1, s, d, addr, p =>
    match deviceParse f ids s d addr p with
    | none => none
    | some (ret, rest, s) =>
      if ret ≠ 0 then some (1, { s with devices := [] })
      else
        let dev := s.heap d
        if deviceFind s dev.id.type dev.id.num ≠ none then some (1, { s with devices := [] })
        else
          let s := { s with devices := s.devices ++ [d] }
          if rest = [] then some (0, s)
          else parseDevices f ids fuel s (d + 1) (addr + dev.parts.length) rest

def mtdDevicesInit (s : State) : Option State :=
  (currentSave { s with currentMtdDev := none }).map fun s => { s with devices := [] }

def parseMtdparts (f : Flash) (ids : List MtdIds) (s : State) (mtdparts : List Char) :
    Option (ℤ × State) :=
  match mtdDevicesInit s with
  | none => none
  | some s =>
    if mtdparts.take 9 ≠ "mtdparts=".toList then some (1, s)
    else if mtdparts.drop 9 = [] then some (1, { s with devices := [] })
    else parseDevices f ids mtdparts.length s 0 0 (mtdparts.drop 9)

def put (out : ℕ × List Char) (piece : List Char) : Option (ℕ × List Char) :=
  if out.1 < piece.length then none else some (out.1 - piece.length, out.2 ++ piece)

def gap : Option PartInfo → PartInfo → Bool
  | none, part => decide (part.offset ≠ 0)
  | some prev, part => decide (u64 (prev.offset + prev.size) ≠ part.offset)

def partPieces (prev : Option PartInfo) (part : PartInfo) : List (List Char) :=
  [memsizeFormat part.size] ++
  (if gap prev part then ['@' :: memsizeFormat part.offset] else []) ++
  -- copy name only if user supplied
  (if part.autoName then [] else ['(' :: part.name ++ [')']]) ++
  (if part.maskFlags ≠ 0 then ["ro".toList] else [])

/- The partitions from the one with the number `partCnt` on. -/
def partsPieces (numParts : ℕ) : ℕ → Option PartInfo → List PartInfo → List (List Char)
  | _, _, [] => []
  | partCnt, prev, part :: parts =>
    partPieces prev part ++ (if partCnt < numParts then [[',']] else []) ++
      partsPieces numParts (partCnt + 1) (some part) parts

def devicesPieces : List MtdDevice → List (List Char)
  | [] => []
  | dev :: devs =>
    [dev.id.mtdId ++ [':']] ++ partsPieces dev.numParts 1 none dev.parts ++
      (if devs = [] then [] else [[';']]) ++ devicesPieces devs

/- `none` when 1 is returned. The first piece is not counted. -/
def generateMtdparts (devices : List MtdDevice) (buflen : ℕ) : Option (List Char) :=
  if devices = [] then some []
  else
    ((devicesPieces devices).foldlM put ((buflen + 2 ^ 32 - 1) % 2 ^ 32, "mtdparts=".toList)).map
      Prod.snd

end UBoot.Mtd
