import Mathlib.Tactic

/-!
# The driver model (drivers/core/device.c, device-remove.c, uclass.c)

Devices are numbered in the order of their allocation. The calls of hooks are answered from a
stream; a hook that is missing answers 0, like an allocation that succeeds. CONFIG_DM_DEVICE_REMOVE
is on. Private and platform data, devres and pinctrl are left out.
-/

namespace UBoot.Dm

open Function

structure Udevice where
  parent : Option ℕ
  uclass : ℕ
  reqSeq : ℤ
  seq : ℤ
  -- DM_FLAG_ACTIVATED and DM_FLAG_BOUND
  activated : Bool
  bound : Bool
deriving DecidableEq, Repr

inductive Hook where
  | uclassGet
  | alloc
  | bind
  | childPostBind
  | uclassChildPostBind
  | uclassPostBind
  | unbind
  | preUnbind
  | preProbe
  | uclassChildPreProbe
  | childPreProbe
  | ofdataToPlatdata
  | probe
  | postProbe
  | preRemove
  | remove
  | childPostRemove
deriving DecidableEq, Repr

/- A hook and its answer, or the choice of a sequence number with those in use. -/
inductive Event where
  | call (hook : Hook) (dev : ℕ) (answer : ℤ)
  | resolve (dev : ℕ) (reqSeq : ℤ) (inUse : List ℤ)
deriving DecidableEq, Repr

structure Core where
  dev : ℕ → Udevice
  children : ℕ → List ℕ
  members : ℕ → List ℕ
  next : ℕ

structure State where
  core : Core
  calls : ℕ
  events : List Event

def einval : ℤ := -22
def enomem : ℤ := -12

namespace Core

def setDev (k : Core) (d : ℕ) (u : Udevice) : Core := { k with dev := update k.dev d u }

def deactivate (k : Core) (d : ℕ) : Core :=
  k.setDev d { k.dev d with activated := false, seq := -1 }

def activate (k : Core) (d : ℕ) (seq : ℤ) : Core :=
  k.setDev d { k.dev d with activated := true, seq := seq }

/- `list_add_tail` and `list_del` on the lists of the device. -/
def linkUclass (k : Core) (d : ℕ) : Core :=
  { k with members := update k.members (k.dev d).uclass (k.members (k.dev d).uclass ++ [d]) }

def unlinkUclass (k : Core) (d : ℕ) : Core :=
  { k with members :=
      update k.members (k.dev d).uclass ((k.members (k.dev d).uclass).erase d) }

def linkParent (k : Core) (d : ℕ) : Core :=
  match (k.dev d).parent with
  | some p => { k with children := update k.children p (k.children p ++ [d]) }
  | none => k

def unlinkParent (k : Core) (d : ℕ) : Core :=
  match (k.dev d).parent with
  | some p => { k with children := update k.children p ((k.children p).erase d) }
  | none => k

def setBound (k : Core) (d : ℕ) (bound : Bool) : Core := k.setDev d { k.dev d with bound := bound }

/- `calloc` of a device. -/
def allocate (k : Core) (parent : Option ℕ) (uclass : ℕ) (reqSeq : ℤ) : Core :=
  { k with
    dev := update k.dev k.next ⟨parent, uclass, reqSeq, -1, false, false⟩
    children := update k.children k.next []
    next := k.next + 1 }

end Core

variable (answers : ℕ → ℤ)

def State.setCore (s : State) (k : Core) : State := { s with core := k }

def State.called (s : State) (hook : Hook) (d : ℕ) (answer : ℤ) : State :=
  { s with calls := s.calls + 1, events := s.events ++ [.call hook d answer] }

def ask (s : State) (hook : Hook) (d : ℕ) : ℤ × State :=
  (answers s.calls, s.called hook d (answers s.calls))

def askAll (s : State) (d : ℕ) : List Hook → ℤ × State
  | [] => (0, s)
  | hook :: hooks =>
    let (ret, s₁) := ask answers s hook d
    if ret ≠ 0 then (ret, s₁) else askAll s₁ d hooks

def dmMaxSeq : ℕ := 999

def inUse (k : Core) (uclass : ℕ) : List ℤ := (k.members uclass).map fun d => (k.dev d).seq

/- `uclass_find_device_by_seq` finds a device. -/
def findBySeq (inUse : List ℤ) (seq : ℤ) : Bool := decide (seq ≠ -1 ∧ seq ∈ inUse)

/- `uclass_resolve_seq` from the numbers in use. -/
def resolveSeq (inUse : List ℤ) (reqSeq : ℤ) : ℤ :=
  if findBySeq inUse reqSeq = false ∧ reqSeq ≠ -1 then reqSeq
  else (((List.range dmMaxSeq).find? fun seq : ℕ => !findBySeq inUse seq).getD dmMaxSeq : ℕ)

def uclassResolveSeq (s : State) (d : ℕ) : ℤ × State :=
  let u := s.core.dev d
  let used := inUse s.core u.uclass
  (resolveSeq used u.reqSeq, { s with events := s.events ++ [.resolve d u.reqSeq used] })

def uclassUnbindDevice (s : State) (d : ℕ) : ℤ × State :=
  let (ret, s₁) := ask answers s .preUnbind d
  if ret ≠ 0 then (ret, s₁) else (0, s₁.setCore (s₁.core.unlinkUclass d))

/- From `fail_bind` on; the device is freed. -/
def failBind (s : State) (d : ℕ) : State :=
  let (_, s₁) := uclassUnbindDevice answers s d
  s₁.setCore (s₁.core.unlinkParent d)

/- From the hook `bind` on. -/
def bindHooks (s : State) (d : ℕ) : ℤ × State :=
  let (ret, s₁) := ask answers s .bind d
  if ret ≠ 0 then (ret, failBind answers s₁ d)
  else
    let post := if (s.core.dev d).parent.isSome then [.childPostBind, .uclassPostBind]
      else [.uclassPostBind]
    let (ret, s₂) := askAll answers s₁ d post
    if ret ≠ 0 then
      -- the result of `unbind` is not used
      let (_, s₃) := ask answers s₂ .unbind d
      (ret, failBind answers s₃ d)
    else (0, s₂.setCore (s₂.core.setBound d true))

def deviceBind (s : State) (parent : Option ℕ) (uclass : ℕ) (reqSeq : ℤ) : ℤ × State :=
  let d := s.core.next
  let (ret, s₁) := ask answers s .uclassGet d
  if ret ≠ 0 then (ret, s₁)
  else
    -- the device and its three kinds of platform data
    let (ret, s₂) := askAll answers s₁ d [.alloc, .alloc, .alloc, .alloc]
    if ret ≠ 0 then (enomem, s₂)
    else
      let s₃ := s₂.setCore (((s₂.core.allocate parent uclass reqSeq).linkParent d).linkUclass d)
      let (ret, s₄) :=
        if parent.isSome then ask answers s₃ .uclassChildPostBind d else (0, s₃)
      if ret ≠ 0 then (ret, s₄.setCore ((s₄.core.unlinkUclass d).unlinkParent d))
      else bindHooks answers s₄ d

/- The loop of `device_chld_remove`. -/
def chldRemove (remove : State → ℕ → Option (ℤ × State)) :
    State → List ℕ → Option (ℤ × State)
  | s, [] => some (0, s)
  | s, c :: cs =>
    match remove s c with
    | none => none
    | some (ret, s₁) => if ret ≠ 0 then some (ret, s₁) else chldRemove remove s₁ cs

/- `fuel` bounds the depth of the tree. -/
def deviceRemove : ℕ → State → ℕ → Option (ℤ × State)
  | 0, _, _ => none
  | fuel + 1, s, d =>
    if (s.core.dev d).activated = false then some (0, s)
    else
      let (ret, s₁) := ask answers s .preRemove d
      if ret ≠ 0 then some (ret, s₁)
      else
        match chldRemove (deviceRemove fuel) s₁ (s₁.core.children d) with
        | none => none
        | some (ret, s₂) =>
          if ret ≠ 0 then some (ask answers s₂ .postProbe d)
          else
            let (ret, s₃) := ask answers s₂ .remove d
            -- "We can't put the children back"
            if ret ≠ 0 then some (ask answers s₃ .postProbe d)
            else
              let (ret, s₄) := if (s₃.core.dev d).parent.isSome
                then ask answers s₃ .childPostRemove d else (0, s₃)
              some (ret, s₄.setCore (s₄.core.deactivate d))

/- The loop of `device_chld_unbind`: it goes on behind an error and reports the first. -/
def chldUnbind (unbind : State → ℕ → Option (ℤ × State)) :
    State → List ℕ → Option (ℤ × State)
  | s, [] => some (0, s)
  | s, c :: cs =>
    match unbind s c with
    | none => none
    | some (ret, s₁) =>
      match chldUnbind unbind s₁ cs with
      | none => none
      | some (ret', s₂) => some (if ret ≠ 0 then ret else ret', s₂)

def deviceUnbind : ℕ → State → ℕ → Option (ℤ × State)
  | 0, _, _ => none
  | fuel + 1, s, d =>
    if (s.core.dev d).activated then some (einval, s)
    else if (s.core.dev d).bound = false then some (einval, s)
    else
      let (ret, s₁) := ask answers s .unbind d
      if ret ≠ 0 then some (ret, s₁)
      else
        match chldUnbind (deviceUnbind fuel) s₁ (s₁.core.children d) with
        | none => none
        | some (ret, s₂) =>
          if ret ≠ 0 then some (ret, s₂)
          else
            let (ret, s₃) := uclassUnbindDevice answers s₂ d
            if ret ≠ 0 then some (ret, s₃)
            else some (0, s₃.setCore ((s₃.core.unlinkParent d).setBound d false))

/- From `fail` on. -/
def failProbe (s : State) (d : ℕ) (ret : ℤ) : ℤ × State := (ret, s.setCore (s.core.deactivate d))

def probeHooks (fuel : ℕ) (s : State) (d : ℕ) : Option (ℤ × State) :=
  let hooks := if (s.core.dev d).parent.isSome
    then [.preProbe, .uclassChildPreProbe, .childPreProbe, .ofdataToPlatdata, .probe]
    else [.preProbe, .ofdataToPlatdata, .probe]
  let (ret, s₁) := askAll answers s d hooks
  if ret ≠ 0 then some (failProbe s₁ d ret)
  else
    let (ret, s₂) := ask answers s₁ .postProbe d
    if ret ≠ 0 then
      match deviceRemove answers fuel s₂ d with
      | none => none
      | some (_, s₃) => some (failProbe s₃ d ret)
    else some (0, s₂)

/- From `uclass_resolve_seq` on. -/
def probeSelf (fuel : ℕ) (s : State) (d : ℕ) : Option (ℤ × State) :=
  let (seq, s₁) := uclassResolveSeq s d
  if seq < 0 then some (failProbe s₁ d seq)
  else probeHooks answers fuel (s₁.setCore (s₁.core.activate d seq)) d

def deviceProbe : ℕ → State → ℕ → Option (ℤ × State)
  | 0, _, _ => none
  | fuel + 1, s, d =>
    if (s.core.dev d).activated then some (0, s)
    else
      -- private data of the device and the uclass
      let (ret, s₁) := askAll answers s d [.alloc, .alloc]
      if ret ≠ 0 then some (failProbe s₁ d enomem)
      else
        match (s₁.core.dev d).parent with
        | none => probeSelf answers (s₁.core.next + 1) s₁ d
        | some p =>
          let (ret, s₂) := ask answers s₁ .alloc d
          if ret ≠ 0 then some (failProbe s₂ d enomem)
          else
            match deviceProbe fuel s₂ p with
            | none => none
            | some (ret, s₃) =>
              if ret ≠ 0 then some (failProbe s₃ d ret)
              -- probed while its parent was
              else if (s₃.core.dev d).activated then some (0, s₃)
              else probeSelf answers (s₃.core.next + 1) s₃ d

inductive Op where
  | bind (parent : Option ℕ) (uclass : ℕ) (reqSeq : ℤ)
  | probe (d : ℕ)
  | remove (d : ℕ)
  | unbind (d : ℕ)
deriving DecidableEq, Repr

def step (s : State) : Op → Option (ℤ × State)
  | .bind parent uclass reqSeq => some (deviceBind answers s parent uclass reqSeq)
  | .probe d => deviceProbe answers (s.core.next + 1) s d
  | .remove d => deviceRemove answers (s.core.next + 1) s d
  | .unbind d => deviceUnbind answers (s.core.next + 1) s d

end UBoot.Dm
