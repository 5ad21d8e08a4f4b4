import UBoot.Lib.Probe
import Mathlib.NumberTheory.Bertrand

/-!
# The hash table of the environment (lib/hashtable.c)

Open addressing with double hashing over the slots `1 .. size`. Strings are lists of bytes without the
terminating NUL, a `char` is unsigned as on ARM. The hooks are parameters: they accept or reject, and may
change callbacks and flags of entries, but no keys or values.
-/

namespace UBoot.Env

open Probe

abbrev Str := List UInt8

/- `enum env_op`. -/
inductive EnvOp where
  | create
  | delete
  | overwrite
  deriving Repr, DecidableEq

/- The errno values set in `hashtable.c`. -/
inductive Errno where
  | esrch
  | enomem
  | eperm
  | einval
  deriving Repr, DecidableEq

/- The callback and the flags of an `ENTRY`. -/
structure Attr (Callback : Type) where
  callback : Option Callback
  flags : ℕ
  deriving Repr, DecidableEq

/- `struct _ENTRY`: `used` is 0 for a slot that was never used, -1 for a deleted one,
else the first hash index of its key. -/
structure Slot (Callback : Type) where
  used : ℤ
  key : Option Str
  data : Option Str
  attr : Attr Callback
  deriving Repr, DecidableEq

/- `struct hsearch_data`. -/
structure Htab (Callback : Type) where
  size : ℕ
  filled : ℕ
  table : ℕ → Slot Callback

/- What `hsearch_r` is asked for; an ENTER always comes with data. -/
inductive Action where
  | find
  | enter (data : Str)
  deriving Repr, DecidableEq

/- Which calls of `strdup` succeed. -/
structure Dup where
  key : Bool
  data : Bool
  deriving Repr, DecidableEq

/- The functions called by the hash table. `true` is a rejection. The third component
of a callback's result is its effect on the callbacks and flags of the entries. `init`
is `env_callback_init` followed by `env_flags_init` for the entry at an index. -/
structure Hooks (Callback State : Type) where
  changeOk : Slot Callback → Option Str → EnvOp → ℕ → Bool
  callback : Callback → State → Htab Callback → Str → Option Str → EnvOp → ℕ →
    Bool × State × (ℕ → Attr Callback → Attr Callback)
  init : State → Htab Callback → ℕ → State × Attr Callback

/- Return value, errno, `*retval` (as an index) and the state after a call. -/
structure Reply (Callback State : Type) where
  ret : ℕ
  errno : Option Errno
  retval : Option ℕ
  tab : Htab Callback
  state : State

section Create

/- The loop of `isprime` (`hashtable.c:80-89`), in 32-bit arithmetic. -/
def isprimeLoop (number : ℕ) : ℕ → ℕ → Bool
  | 0, _ => false
  | fuel + 1, div =>
    if div * div % 2 ^ 32 < number ∧ number % div ≠ 0 then isprimeLoop number fuel (div + 2)
    else number % div != 0

def isprime (number : ℕ) : Bool := isprimeLoop number number 3

/- The loop of `hcreate_r` that looks for a prime; `none` is out of fuel. -/
def primeFrom : ℕ → ℕ → Option ℕ
  | 0, _ => none
  | fuel + 1, nel => if isprime nel then some nel else primeFrom fuel (nel + 2)

def emptySlot (Callback : Type) : Slot Callback := ⟨0, none, none, ⟨none, 0⟩⟩

/-- `hcreate_r` (`hashtable.c:100-127`) with an allocation that succeeds. -/
def hcreateR (Callback : Type) (nel : ℕ) : Option (Htab Callback) :=
  (primeFrom (nel + 2) (nel ||| 1)).map fun size => ⟨size, 0, fun _ => emptySlot Callback⟩

end Create

section Tables

variable {Callback : Type}

def Htab.set (htab : Htab Callback) (idx : ℕ) (slot : Slot Callback) : Htab Callback :=
  { htab with table := Function.update htab.table idx slot }

def Htab.mapAttr (htab : Htab Callback) (f : ℕ → Attr Callback → Attr Callback) : Htab Callback :=
  { htab with table := fun i => { htab.table i with attr := f i (htab.table i).attr } }

/- The value computed for a key (`hashtable.c:282-287`), from its last byte on. -/
def hashValue (key : Str) : ℕ := key.foldr (fun c hval => (hval * 16 + c.toNat) % 2 ^ 32) key.length

/- First hash function (`hashtable.c:289-295`). -/
def firstHash (size : ℕ) (key : Str) : ℕ :=
  if hashValue key % size = 0 then 1 else hashValue key % size

/- Second hash function (`hashtable.c:320`). -/
def secondHash (size hval : ℕ) : ℕ := 1 + hval % (size - 2)

/- The test of `_compare_and_overwrite_entry`; `none` is a `strcmp` with NULL. -/
def sameKey (htab : Htab Callback) (key : Str) (hval idx : ℕ) : Option Bool :=
  if (htab.table idx).used = hval then (htab.table idx).key.map (· == key) else some false

/- How the search ends: at the entry of the key, or at the place for a new one. -/
inductive Found where
  | entry (idx : ℕ)
  | place (idx : ℕ)
  deriving Repr, DecidableEq

/- The `do` loop of `hsearch_r` (`hashtable.c:322-346`). -/
def probeLoop (htab : Htab Callback) (key : Str) (hval : ℕ) : ℕ → ℕ → Option Found
  | 0, _ => none
  | fuel + 1, idx =>
    let idx := next htab.size (secondHash htab.size hval) idx
    if idx = hval then some (.place idx)
    else
      match sameKey htab key hval idx with
      | none => none
      | some true => some (.entry idx)
      | some false =>
        if (htab.table idx).used ≠ 0 then probeLoop htab key hval fuel idx else some (.place idx)

/- The search of `hsearch_r`: the first index, then the loop. -/
def probeFor (htab : Htab Callback) (key : Str) : Option Found :=
  let hval := firstHash htab.size key
  if (htab.table hval).used ≠ 0 then
    match sameKey htab key hval hval with
    | none => none
    | some true => some (.entry hval)
    | some false => probeLoop htab key hval htab.size hval
  else some (.place hval)

/- `first_deleted` is only set at the first index (`hashtable.c:307-309`). -/
def firstDeleted (htab : Htab Callback) (hval : ℕ) : ℕ :=
  if (htab.table hval).used = -1 then hval else 0

/-- `_hdelete` (`hashtable.c:428-440`). -/
def hdeleteSlot (htab : Htab Callback) (idx : ℕ) : Htab Callback :=
  { htab.set idx { htab.table idx with used := -1, attr := ⟨none, 0⟩ } with
    filled := htab.filled - 1 }

end Tables

section Search

variable {Callback State : Type} (hooks : Hooks Callback State)

/- A callback that is set is called, and may reject; then only the table and the state
of the hooks go on. -/
def runCallback (htab : Htab Callback) (state : State) (idx : ℕ) (key : Str)
    (newval : Option Str) (op : EnvOp) (flag : ℕ) : Bool × Htab Callback × State :=
  match (htab.table idx).attr.callback with
  | none => (false, htab, state)
  | some c =>
    let r := hooks.callback c state htab key newval op flag
    (r.1, htab.mapAttr r.2.2, r.2.1)

/-- `_compare_and_overwrite_entry` (`hashtable.c:225-269`) at the entry of the key. -/
def overwriteEntry (dup : Dup) (htab : Htab Callback) (state : State) (key data : Str)
    (flag idx : ℕ) : Reply Callback State :=
  if hooks.changeOk (htab.table idx) (some data) .overwrite flag then
    ⟨0, some .eperm, none, htab, state⟩
  else
    let r := runCallback hooks htab state idx key (some data) .overwrite flag
    if r.1 then ⟨0, some .einval, none, r.2.1, r.2.2⟩
    else
      let copy := if dup.data then some data else none
      let htab := r.2.1.set idx { r.2.1.table idx with data := copy }
      if dup.data then ⟨idx, none, some idx, htab, r.2.2⟩
      else ⟨0, some .enomem, none, htab, r.2.2⟩

/- The part of `hsearch_r` that creates an entry at `idx` (`hashtable.c:367-413`). -/
def createEntry (dup : Dup) (htab : Htab Callback) (state : State) (key data : Str)
    (flag hval idx : ℕ) : Reply Callback State :=
  let copyKey := if dup.key then some key else none
  let copyData := if dup.data then some data else none
  let htab := htab.set idx ⟨hval, copyKey, copyData, (htab.table idx).attr⟩
  if !dup.key || !dup.data then ⟨0, some .enomem, none, htab, state⟩
  else
    let htab := { htab with filled := htab.filled + 1 }
    let i := hooks.init state htab idx
    let htab := htab.set idx { htab.table idx with attr := i.2 }
    if hooks.changeOk (htab.table idx) (some data) .create flag then
      ⟨0, some .eperm, none, hdeleteSlot htab idx, i.1⟩
    else
      let r := runCallback hooks htab i.1 idx key (some data) .create flag
      if r.1 then ⟨0, some .einval, none, hdeleteSlot r.2.1 idx, r.2.2⟩
      else ⟨1, none, some idx, r.2.1, r.2.2⟩

/-- `hsearch_r` (`hashtable.c:271-415`). -/
def hsearchR (dup : Dup) (htab : Htab Callback) (state : State) (key : Str) (action : Action)
    (flag : ℕ) : Option (Reply Callback State) :=
  let hval := firstHash htab.size key
  match probeFor htab key with
  | none => none
  | some (.entry idx) =>
    match action with
    | .find => some ⟨idx, none, some idx, htab, state⟩
    | .enter data => some (overwriteEntry hooks dup htab state key data flag idx)
  | some (.place idx) =>
    match action with
    | .find => some ⟨0, some .esrch, none, htab, state⟩
    | .enter data =>
      if htab.filled = htab.size then some ⟨0, some .enomem, none, htab, state⟩
      else
        let idx := if firstDeleted htab hval ≠ 0 then firstDeleted htab hval else idx
        some (createEntry hooks dup htab state key data flag hval idx)

/-- `hdelete_r` (`hashtable.c:442-478`). -/
def hdeleteR (htab : Htab Callback) (state : State) (key : Str) (flag : ℕ) :
    Option (Reply Callback State) :=
  match probeFor htab key with
  | none => none
  | some (.place _) => some ⟨0, some .esrch, none, htab, state⟩
  | some (.entry idx) =>
    if hooks.changeOk (htab.table idx) none .delete flag then
      some ⟨0, some .eperm, none, htab, state⟩
    else
      let r := runCallback hooks htab state idx key none .delete flag
      if r.1 then some ⟨0, some .einval, none, r.2.1, r.2.2⟩
      else some ⟨1, none, none, hdeleteSlot r.2.1 idx, r.2.2⟩

end Search

end UBoot.Env

/-!
## The size of a new table

`hcreate_r` makes the number of entries odd and goes on to the next number that
`isprime` accepts. Trial division is exact from 5 on, as long as the square of the
divisor does not leave 32 bits.
-/

namespace UBoot.Env

/- No odd number from 3 up to `div` divides `number`. -/
def NoDivisorBelow (number div : ℕ) : Prop := ∀ d, 3 ≤ d → d < div → d % 2 = 1 → ¬d ∣ number

section Prime

variable {number : ℕ} (hodd : number % 2 = 1) (h5 : 5 ≤ number)

include hodd in
theorem noDivisorBelow_prime {div : ℕ} (hno : NoDivisorBelow number div) (hdiv : ¬div ∣ number)
    (hpos : 2 ≤ number) (hsq : number ≤ div * div) : number.Prime := by
  by_contra hp
  have hdvd := Nat.minFac_dvd number
  have hsq' := Nat.minFac_sq_le_self (by lia) hp
  rw [Nat.pow_two] at hsq'
  have hle : number.minFac ≤ div := by
    by_contra hgt
    have := Nat.mul_lt_mul'' (Nat.lt_of_not_le hgt) (Nat.lt_of_not_le hgt)
    lia
  have hmin := (Nat.minFac_prime (show number ≠ 1 by lia)).two_le
  have hodd' : number.minFac % 2 = 1 := by
    obtain ⟨k, hk⟩ := hdvd
    by_contra heven
    have h2 : (number.minFac * k) % 2 = 0 := by
      rw [Nat.mul_mod, show number.minFac % 2 = 0 by lia, Nat.zero_mul]
    rw [← hk] at h2
    lia
  have hne : number.minFac ≠ div := fun h => hdiv (h ▸ hdvd)
  exact hno _ (by lia) (by lia) hodd' hdvd

include hodd h5 in
theorem isprimeLoop_iff (hmax : number < 2 ^ 31) (fuel div : ℕ) (h3 : 3 ≤ div) (hdiv : div % 2 = 1)
    (hno : NoDivisorBelow number div) (hlast : div = 3 ∨ (div - 2) * (div - 2) < number)
    (hf : number < div + 2 * fuel) : isprimeLoop number fuel div = true ↔ number.Prime := by
  induction fuel generalizing div with
  | zero =>
    -- the divisor never reaches the number
    have hlt : div < number := by
      rcases hlast with h | h
      · lia
      · by_contra hge
        have hle : (number - 2) * 2 ≤ (div - 2) * (div - 2) := Nat.mul_le_mul (by lia) (by lia)
        lia
    lia
  | succ fuel ih =>
    have hsmall : div * div < 2 ^ 32 := by
      rcases hlast with h | h
      · rw [h]
        norm_num
      · have hd : div - 2 < 46341 := by
          by_contra hge
          have hle : 46341 * 46341 ≤ (div - 2) * (div - 2) := Nat.mul_le_mul (by lia) (by lia)
          lia
        have hle : div * div ≤ 46343 * 46343 := Nat.mul_le_mul (by lia) (by lia)
        lia
    rw [isprimeLoop, Nat.mod_eq_of_lt hsmall]
    by_cases hd : div ∣ number
    · have hmod := Nat.mod_eq_zero_of_dvd hd
      have hne : div ≠ number := by
        rintro rfl
        rcases hlast with h | h
        · lia
        · have hle : 3 * (div - 2) ≤ (div - 2) * (div - 2) := Nat.mul_le_mul (by lia) le_rfl
          lia
      have hnp : ¬number.Prime := fun hp => by
        rcases (Nat.dvd_prime hp).mp hd with h | h
        · lia
        · exact hne h
      simp [hmod, hnp]
    · have hmod : number % div ≠ 0 := fun h => hd (Nat.dvd_of_mod_eq_zero h)
      by_cases hlt : div * div < number
      · rw [if_pos ⟨hlt, hmod⟩]
        refine ih (div + 2) (by lia) (by lia) (fun d h1 h2 h3 => ?_) (.inr ?_) (by lia)
        · rcases Nat.lt_or_ge d div with h | h
          · exact hno d h1 h h3
          · rw [show d = div by lia]
            exact hd
        · rw [Nat.add_sub_cancel]
          exact hlt
      · have hp := noDivisorBelow_prime hodd hno hd (by lia) (by lia)
        simp [hlt, hmod, hp]

include hodd h5 in
/-- `isprime` (`hashtable.c:80-89`) is exact for odd numbers from 5 on. -/
theorem isprime_iff (hmax : number < 2 ^ 31) : isprime number = true ↔ number.Prime :=
  isprimeLoop_iff hodd h5 hmax number 3 le_rfl rfl (fun d h1 h2 => by lia) (.inl rfl) (by lia)

end Prime

theorem primeFrom_spec (fuel n p : ℕ) (hodd : n % 2 = 1) (h5 : 5 ≤ n) (hp : p.Prime) (hnp : n ≤ p)
    (hf : p < n + 2 * fuel) (hmax : p < 2 ^ 31) :
    ∃ size, primeFrom fuel n = some size ∧ size.Prime ∧ n ≤ size ∧ ∀ q, q.Prime → n ≤ q → size ≤ q := by
  induction fuel generalizing n with
  | zero => lia
  | succ fuel ih =>
    rw [primeFrom]
    by_cases hn : isprime n = true
    · rw [if_pos hn]
      exact ⟨n, rfl, (isprime_iff hodd h5 (by lia)).mp hn, le_rfl, fun q _ h => h⟩
    · have hnot : ¬n.Prime := fun h => hn ((isprime_iff hodd h5 (by lia)).mpr h)
      -- a prime from `n` on is neither `n` nor even
      have hskip : ∀ q, q.Prime → n ≤ q → n + 2 ≤ q := by
        intro q hq hle
        have hne : q ≠ n := fun h => hnot (h ▸ hq)
        rcases hq.eq_two_or_odd with h | h <;> lia
      rw [if_neg hn]
      obtain ⟨size, hs, hprime, hle, hleast⟩ :=
        ih (n + 2) (by lia) (by lia) (hskip p hp hnp) (by lia)
      exact ⟨size, hs, hprime, by lia, fun q hq h => hleast q hq (hskip q hq h)⟩

theorem or_one (n : ℕ) : n ||| 1 = n / 2 * 2 + 1 := by
  have hdiv : (n ||| 1) / 2 = n / 2 := by rw [Nat.or_div_two, Nat.or_zero]
  have hmod : (n ||| 1) % 2 = 1 := by simp [Nat.or_mod_two_eq_one]
  lia

/-- `hcreate_r` picks the smallest prime not below `nel`. -/
theorem hcreateR_size (Callback : Type) (nel : ℕ) (h4 : 4 ≤ nel) (hmax : nel < 2 ^ 30 - 1) :
    ∃ htab, hcreateR Callback nel = some htab ∧ htab.size.Prime ∧ 5 ≤ htab.size ∧
      nel ≤ htab.size ∧ ∀ q, q.Prime → nel ≤ q → htab.size ≤ q := by
  have hn := or_one nel
  obtain ⟨p, hp, hlt, hle⟩ := Nat.exists_prime_lt_and_le_two_mul (nel ||| 1) (by lia)
  obtain ⟨size, hs, hprime, hsize, hleast⟩ :=
    primeFrom_spec (nel + 2) (nel ||| 1) p (by lia) (by lia) hp (by lia) (by lia) (by lia)
  have h5 : 5 ≤ size := by lia
  have hnel : nel ≤ size := by lia
  refine ⟨⟨size, 0, fun _ => emptySlot Callback⟩, by rw [hcreateR, hs, Option.map_some], hprime,
    h5, hnel, fun q hq h => hleast q hq ?_⟩
  rcases hq.eq_two_or_odd with h2 | h2 <;> lia

end UBoot.Env
