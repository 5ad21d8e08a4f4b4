import UBoot.Fit.Fdt

/-!
# Regions of a device tree (lib/libfdt/fdt_wip.c)

`fdt_find_regions` goes through the tags once. `want` is 2 inside a listed node, 1 inside a
subnode of one and 0 elsewhere; `start` is where the open region starts. A region is closed
in front of a tag, or behind it if the tag ends a node.
-/

namespace UBoot.Fit

open Memory

/- An early end: `return code`, or an access outside of an array (or no end at all). -/
inductive Stop
  | ret (code : ℤ)
  | fault
deriving DecidableEq, Repr

/- `struct fdt_region` -/
structure Region where
  offset : ℕ
  size : ℕ
deriving DecidableEq, Repr

def fdtMaxDepth : ℕ := 32

/- The position in the tree. `stack` holds `stack[depth]`, ..., `stack[0]`. -/
structure Position where
  path : List UInt8
  stack : List ℕ
  want : ℕ

/- The regions so far: `start` of the open one, `count`, and the entries of `region` that are
in use. -/
structure Spans where
  start : Option ℕ
  count : ℕ
  regions : List Region

/- `include` and `stop_at` for a tag. -/
structure Choice where
  included : Bool
  stopAt : ℕ

def stripPath (path : List UInt8) : List UInt8 := ((path.reverse.dropWhile (· ≠ 47)).drop 1).reverse

def joinPath (path name : List UInt8) : List UInt8 :=
  path ++ (if path.length = 1 then [] else [47]) ++ name

section Find

variable (fdt : Fdt) (inc excProp : List (List UInt8)) (maxRegions pathLen : ℕ)

def nodeName (offset : ℕ) : List UInt8 :=
  bytes fdt.mem (fdt.ptr (offset + 4)) ((fdt.nameLength (offset + 4)).getD 0)

def excluded (offset : ℕ) : Bool :=
  excProp.any fun s => stringAt fdt.mem (fdtString fdt (fdt.propNameoff offset)) s

def visit (offset next : ℕ) (tag : Tag) (p : Position) : Except Stop (Position × Choice) :=
  match tag with
  | .prop => .ok (p, ⟨decide (2 ≤ p.want) && !excluded fdt excProp offset, offset⟩)
  | .nop => .ok (p, ⟨decide (2 ≤ p.want), offset⟩)
  | .beginNode =>
    if p.stack.length = fdtMaxDepth then .error (.ret fdtErrBadstructure)
    else
      let name := nodeName fdt offset
      if pathLen ≤ p.path.length + 2 + name.length then .error (.ret fdtErrNospace)
      else
        let path := joinPath p.path name
        let listed := inc.contains path
        let want := if listed then 2 else p.want - 1
        let stopAt := if p.want = 1 ∨ (listed = false ∧ p.want = 0) then offset else next
        .ok (⟨path, p.want :: p.stack, want⟩, ⟨decide (want ≠ 0), stopAt⟩)
  | .endNode =>
    match p.stack with
    | [] => .error .fault
    | w :: stack => .ok (⟨stripPath p.path, stack, w⟩, ⟨decide (p.want ≠ 0), next⟩)
  | .fin => .ok (p, ⟨true, next⟩)

/- The region that starts at an included tag, or the one before it that ends there. -/
def openRegion (offset : ℕ) (r : Spans) : Spans :=
  match r.start with
  | some _ => r
  | none =>
    match r.regions.getLast? with
    | some last =>
      if r.count ≤ maxRegions ∧ fdt.offDtStruct + offset = last.offset + last.size then
        ⟨some (last.offset - fdt.offDtStruct), r.count - 1, r.regions.dropLast⟩
      else { r with start := some offset }
    | none => { r with start := some offset }

def addRegion (region : Region) (r : Spans) : Spans where
  start := none
  count := r.count + 1
  regions := if r.count < maxRegions then r.regions ++ [region] else r.regions

def closeRegion (stopAt : ℕ) (r : Spans) : Spans :=
  match r.start with
  | none => r
  | some start => addRegion maxRegions ⟨fdt.offDtStruct + start, stopAt - start⟩ r

def spanStep (offset : ℕ) (c : Choice) (r : Spans) : Spans :=
  if c.included then openRegion fdt maxRegions offset r else closeRegion fdt maxRegions c.stopAt r

/- The loop, up to `FDT_END`; with `nextoffset` behind it. -/
def findLoop : ℕ → ℕ → Position → Spans → Except Stop (Spans × ℤ)
  | 0, _, _, _ => .error .fault
  | fuel + 1, offset, p, r => do
    let (tag, next) := fdtNextTag fdt offset
    let (p₁, c) ← visit fdt inc excProp pathLen offset next.toNat tag p
    let r₁ := spanStep fdt maxRegions offset c r
    if tag = .fin then .ok (r₁, next) else findLoop fuel next.toNat p₁ r₁

/- Returns the count, which may be above `maxRegions`, and the regions that were stored. -/
def fdtFindRegions (addStringTab : Bool) : Except Stop (ℕ × List Region) := do
  let (r, next) ← findLoop fdt inc excProp maxRegions pathLen (fdt.sizeDtStruct + 1) 0 ⟨[], [], 0⟩
    ⟨none, 0, []⟩
  if next ≠ fdt.sizeDtStruct then .error (.ret fdtErrBadlayout)
  else
    let start := r.start.getD 0
    let r₁ := addRegion maxRegions ⟨fdt.offDtStruct + start,
      next.toNat - start + if addStringTab then fdt.sizeDtStrings else 0⟩ r
    .ok (r₁.count, r₁.regions)

end Find

end UBoot.Fit

/-!
## Finding regions one at a time (lib/libfdt/fdt_region.c)

`fdt_next_region` returns one region a call. A region that does not fit into the array of one entry ends
the call, and the next call starts at the same tag with the pointers as they were in front of it; the
path is a buffer of the caller and stays as the tag has left it. The flags are FDT_REG_DIRECT_SUBNODES
alone, and `h_include` lists nodes by their paths and excludes properties by their names.
-/

namespace UBoot.Fit

open Memory

def fdtErrToodeep : ℤ := -15

inductive Done
  | nothing | memRsvmap | struct | fin | strings | all
deriving DecidableEq, Repr

/- `struct fdt_region_ptrs`. `stack` holds `stack[depth].want`, ..., `stack[0].want`; `pathEnd`
is `end - path`. -/
structure Ptrs where
  stack : List ℕ
  done : Done
  want : ℕ
  pathEnd : ℕ
  nextoffset : ℤ

/- What is left between two calls: `struct fdt_region_state` and the buffer. -/
structure RegionState where
  start : Option ℕ
  ptrs : Ptrs
  path : Mem

/- How the loop over the tags ends: `return 0` with the region, or behind `FDT_END` with the
region that is ready. -/
inductive Pass
  | full (region : Region) (st : RegionState)
  | through (st : RegionState) (ready : Option Region)

/- Whether the region has been added, and the one that is ready then. -/
def fdtAddRegion (ready : Option Region) (region : Region) : Bool × Region :=
  match ready with
  | none => (true, region)
  | some reg =>
    if region.offset ≤ reg.offset + reg.size then
      (true, { reg with size := region.offset + region.size - reg.offset })
    else (false, reg)

/- `while (end > path && *--end != '/')` -/
def stripEnd (path : Mem) : ℕ → ℕ
  | 0 => 0
  | e + 1 => if path e = 47 then e else stripEnd path e

section Next

variable (fdt : Fdt) (inc excProp : List (List UInt8)) (pathLen : ℕ)

def cText (path : Mem) : List UInt8 := (bytes path 0 pathLen).takeWhile (· ≠ 0)

def nextVisit (offset next : ℕ) (tag : Tag) (path : Mem) (p : Ptrs) :
    Except Stop (Mem × Ptrs × Choice) :=
  match tag with
  | .prop =>
    -- an excluded name is not included, any other one is left to `want`
    let included := if excluded fdt excProp offset then false else decide (2 ≤ p.want)
    .ok (path, p, ⟨included, offset⟩)
  | .nop => .ok (path, p, ⟨decide (2 ≤ p.want), offset⟩)
  | .beginNode =>
    if p.stack.length = fdtMaxDepth then .error (.ret fdtErrToodeep)
    else
      let name := nodeName fdt offset
      if pathLen ≤ p.pathEnd + 2 + name.length then .error (.ret fdtErrNospace)
      else
        let text := (if p.pathEnd = 1 then [] else [47]) ++ name
        let path₁ := store path p.pathEnd (text ++ [0])
        let want₁ := if p.want = 1 then 0 else p.want
        let listed := inc.contains (cText pathLen path₁)
        let want₂ := if listed then 2 else want₁ - 1
        let stopAt := if p.want = 1 ∨ (listed = false ∧ want₁ = 0) then offset else next
        let p₁ : Ptrs :=
          { p with
            stack := p.want :: p.stack
            want := want₂
            pathEnd := p.pathEnd + text.length }
        .ok (path₁, p₁, ⟨decide (want₂ ≠ 0), stopAt⟩)
  | .endNode =>
    match p.stack with
    | [] => .error (.ret fdtErrBadstructure)
    | w :: stack =>
      let e := stripEnd path p.pathEnd
      let p₁ : Ptrs :=
        { p with
          stack := stack
          want := w
          pathEnd := e }
      .ok (store path e [0], p₁, ⟨decide (p.want ≠ 0), next⟩)
  | .fin => .ok (path, { p with done := .struct }, ⟨true, next⟩)

/- The loop. The pointers are committed at the end of a turn, the path at once. -/
def nextLoop : ℕ → RegionState → Option Region → Except Stop Pass
  | 0, _, _ => .error .fault
  | fuel + 1, st, ready => do
    let offset := st.ptrs.nextoffset.toNat
    let (tag, next) := fdtNextTag fdt offset
    let (path, p, c) ← nextVisit fdt inc excProp pathLen offset next.toNat tag st.path
      { st.ptrs with nextoffset := next }
    let commit := fun (start : Option ℕ) (ready : Option Region) =>
      if p.done = .struct then .ok (.through ⟨start, p, path⟩ ready)
      else nextLoop fuel ⟨start, p, path⟩ ready
    if c.included then commit (some (st.start.getD offset)) ready
    else
      match st.start with
      | none => commit none ready
      | some start =>
        match fdtAddRegion ready ⟨fdt.offDtStruct + start, c.stopAt - start⟩ with
        | (true, region) => commit none (some region)
        | (false, region) => .ok (.full region { st with path := path })

/- The region that ends with the `FDT_END` tag. -/
def nextEnd (st : RegionState) (ready : Option Region) : Except Stop (Region × RegionState) :=
  if st.ptrs.nextoffset ≠ fdt.sizeDtStruct then .error (.ret fdtErrBadstructure)
  else
    let start := st.start.getD 0
    match fdtAddRegion ready ⟨fdt.offDtStruct + start, st.ptrs.nextoffset.toNat - start⟩ with
    | (true, region) =>
      let p : Ptrs := { st.ptrs with done := .strings }
      .ok (region, { st with ptrs := p })
    | (false, region) => .ok (region, st)

def afterLoop : Pass → Except Stop (Region × RegionState)
  | .full region st => .ok (region, st)
  | .through st ready => nextEnd fdt st ready

def fdtNextRegion (st : RegionState) : Except Stop (Region × RegionState) :=
  match st.ptrs.done with
  | .nothing | .memRsvmap =>
    nextLoop fdt inc excProp pathLen (fdt.sizeDtStruct + 1) st none >>= afterLoop fdt
  | .struct => nextEnd fdt st none
  | .fin | .strings | .all => .error (.ret fdtErrNotfound)

/- The state that `fdt_first_region` sets up, for a buffer with any content. -/
def firstState (path : Mem) : RegionState where
  start := none
  ptrs := ⟨[], .nothing, 0, 0, 0⟩
  path := store path 0 [0]

def fdtFirstRegion (path : Mem) : Except Stop (Region × RegionState) :=
  fdtNextRegion fdt inc excProp pathLen (firstState path)

/- The region of a call and those of all further calls, until one returns `-FDT_ERR_NOTFOUND`;
`.fault` if none of them does. -/
def collect : ℕ → Except Stop (Region × RegionState) → Except Stop (List Region)
  | _, .error (.ret code) => if code = fdtErrNotfound then .ok [] else .error (.ret code)
  | _, .error .fault => .error .fault
  | 0, .ok _ => .error .fault
  | calls + 1, .ok (region, st) =>
    (collect calls (fdtNextRegion fdt inc excProp pathLen st)).map (region :: ·)

end Next

end UBoot.Fit
