import UBoot.Env.Linear

/-!
# Attribute lists (common/env_attr.c)

The values of `.flags` and `.callbacks` are lists of `name[:attributes]` with commas in
between. `env_attr_walk` goes through all entries, `env_attr_lookup` searches the text
for the last one of a name (the variant without `CONFIG_REGEX`).
-/

namespace UBoot.Env

def comma : UInt8 := 44
def colon : UInt8 := 58

/- `isspace` of `lib/ctype.c`. -/
def isspace (c : UInt8) : Bool := (9 ≤ c && c ≤ 13) || c == 32 || c == 160

/- `strim`. -/
def strim (s : Str) : Str := ((s.dropWhile isspace).reverse.dropWhile isspace).reverse

def attrEntry (entry : Str) : Str × Option Str :=
  match entry.dropWhile (· != colon) with
  | [] => (strim (entry.takeWhile (· != colon)), none)
  | _ :: attributes => (strim (entry.takeWhile (· != colon)), some (strim attributes))

/-- `env_attr_walk` (`env_attr.c:29-111`): the names and attributes for which the callback
is called, which returns 0 for all of them. -/
def envAttrWalk : Option Str → List (Str × Option Str)
  | none => []
  | some list =>
    (((list.splitOn comma).filter fun entry => entry != []).map attrEntry).filter fun e => e.1 != []

/- `strstr` from a position on. -/
def strstrFrom (searched searchFor : Str) (cur : ℕ) : Option ℕ :=
  (List.range' cur (searched.length + 1 - cur)).find? fun p => searchFor.isPrefixOf (searched.drop p)

/- The characters around a match, spaces left out (`env_attr.c:226-245`): the start of the
list or a comma, and a colon, a comma or the end. -/
def exactMatch (searched searchFor : Str) (p : ℕ) : Bool :=
  let before := (searched.take p).reverse.dropWhile (· == space)
  let after := (searched.drop (p + searchFor.length)).dropWhile (· == space)
  (before == [] || before.head? == some comma) &&
    (after == [] || after.head? == some colon || after.head? == some comma)

/- The loop of `reverse_name_search`. -/
def searchLoop (searched searchFor : Str) : ℕ → ℕ → Option ℕ → Option ℕ
  | 0, _, result => result
  | fuel + 1, cur, result =>
    match strstrFrom searched searchFor cur with
    | none => result
    | some p =>
      searchLoop searched searchFor fuel (p + 1)
        (if exactMatch searched searchFor p then some p else result)

/- `reverse_name_search` (`env_attr.c:199-248`) for a name that is not empty. -/
def reverseNameSearch (searched searchFor : Str) : Option ℕ :=
  searchLoop searched searchFor (searched.length + 1) 0 none

/- The attributes behind a name (`env_attr.c:271-297`). -/
def attributesAt (entry : Str) : Str :=
  match entry.dropWhile (· == space) with
  | [] => []
  | c :: rest =>
    if c = colon then (rest.dropWhile (· == space)).takeWhile fun c => c != comma && c != space
    else []

/-- `env_attr_lookup` (`env_attr.c:256-305`): the string stored in `attributes`, `none` when
the list or the name is missing. -/
def envAttrLookup (attrList : Option Str) (name : Str) : Option Str :=
  match attrList with
  | none => none
  | some list =>
    if name = [] then some []
    else (reverseNameSearch list name).map fun p => attributesAt (list.drop (p + name.length))

end UBoot.Env
