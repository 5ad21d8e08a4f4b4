import UBoot.Lib.Memory

/-!
# Memory buffers (lib/membuff.c)

A `struct membuff` is four pointers into flat memory. Data is written at `head` and
read at `tail`; one byte of the buffer is kept free. Pointers are addresses, lengths are
C `int`s. The caller's own buffers (`buff`, `str`) are lists: they are other objects.
-/

namespace UBoot

open UBoot.Memory

/- `stop` is the source's `end`. -/
structure Membuff where
  start : ℕ
  stop : ℕ
  head : ℕ
  tail : ℕ
deriving DecidableEq, Repr

namespace Membuff

def e2big : ℤ := -7
def enomem : ℤ := -12

/- Pointer plus `int`. -/
def advance (p : ℕ) (len : ℤ) : ℕ := (p + len).toNat

/- `if (maxlen >= 0 && len > maxlen) len = maxlen`. -/
def clip (maxlen len : ℤ) : ℤ := if 0 ≤ maxlen ∧ maxlen < len then maxlen else len

/- An `int` result that wraps. -/
def toInt (x : ℤ) : ℤ := x.bmod (2 ^ 32)

/- `*data = ch` for a `char *data` and an `int ch`. -/
def toChar (ch : ℤ) : UInt8 := UInt8.ofNat (ch % 256).toNat

def purge (mb : Membuff) : Membuff := { mb with head := mb.start, tail := mb.start }

def init (buff : ℕ) (size : ℕ) : Membuff :=
  purge { start := buff, stop := buff + size, head := 0, tail := 0 }

/- Returns the buffer, `*offsetp` and the length; `*data` is `&mb->start`. -/
def putrawflex (mb : Membuff) (maxlen : ℤ) (update : Bool) : Membuff × ℕ × ℤ :=
  let offset := mb.head - mb.start
  if mb.start = 0 then (mb, offset, 0)
  else if mb.tail ≤ mb.head then
    let len := clip maxlen ((mb.stop : ℤ) - mb.head - 1)
    let mb₁ := if update then { mb with head := advance mb.head len } else mb
    -- the byte right before the end is free unless the tail is at the start
    if (maxlen < 0 ∨ len < maxlen) ∧ mb.tail ≠ mb.start then
      (if update then { mb₁ with head := mb.start } else mb₁, offset, len + 1)
    else (mb₁, offset, len)
  else
    let len := clip maxlen ((mb.tail : ℤ) - mb.head - 1)
    (if update then { mb with head := advance mb.head len } else mb, offset, len)

/- Returns the buffer, `*data` and the size. -/
def putraw (mb : Membuff) (maxlen : ℤ) (update : Bool) : Membuff × ℕ × ℤ :=
  let (mb', offset, size) := putrawflex mb maxlen update
  (mb', mb'.start + offset, size)

def putbyte (mem : Mem) (mb : Membuff) (ch : ℤ) : Mem × Membuff × Bool :=
  let (mb', data, size) := putraw mb 1 true
  if size ≠ 1 then (mem, mb', false) else (store mem data [toChar ch], mb', true)

/- The turns of the loop of `membuff_put`; `buff` is what is left of the data. -/
def putTurns : ℕ → Mem → Membuff → List UInt8 → ℤ → ℤ → Mem × Membuff × ℤ
  | 0, mem, mb, _, _, written => (mem, mb, written)
  | i + 1, mem, mb, buff, length, written =>
    let (mb', data, towrite) := putraw mb length true
    putTurns i (store mem data (buff.take towrite.toNat)) mb' (buff.drop towrite.toNat)
      (length - towrite) (written + towrite)

def put (mem : Mem) (mb : Membuff) (buff : List UInt8) : Mem × Membuff × ℤ :=
  putTurns 2 mem mb buff buff.length 0

/- Returns the buffer, `*data` and the length; `data` is what `*data` held before. -/
def getraw (mb : Membuff) (maxlen : ℤ) (update : Bool) (data : ℕ) : Membuff × ℕ × ℤ :=
  if mb.tail < mb.head then
    let len := clip maxlen ((mb.head : ℤ) - mb.tail)
    (if update then { mb with tail := advance mb.tail len } else mb, mb.tail, len)
  else if mb.head < mb.tail then
    let len := clip maxlen ((mb.stop : ℤ) - mb.tail)
    let mb₁ := if update then { mb with tail := advance mb.tail len } else mb
    (if update ∧ mb₁.tail = mb₁.stop then { mb₁ with tail := mb₁.start } else mb₁, mb.tail, len)
  else (mb, data, 0)

def getbyte (mem : Mem) (mb : Membuff) : Membuff × ℤ :=
  let (mb', data, len) := getraw mb 1 true 0
  (mb', if len ≠ 1 then -1 else (mem data).toNat)

def peekbyte (mem : Mem) (mb : Membuff) : Membuff × ℤ :=
  let (mb', data, len) := getraw mb 1 false 0
  (mb', if len ≠ 1 then -1 else (mem data).toNat)

/- The turns of the loop of `membuff_get`; `buff` is what has been copied out. -/
def getTurns (mem : Mem) : ℕ → Membuff → ℕ → ℤ → ℤ → List UInt8 → Membuff × List UInt8
  | 0, mb, _, _, _, buff => (mb, buff)
  | i + 1, mb, data, maxlen, len, buff =>
    if len = 0 then (mb, buff)
    else
      let (mb', data', len') := getraw mb maxlen true data
      getTurns mem i mb' data' (maxlen - len') len' (buff ++ bytes mem data' len'.toNat)

/- The bytes put into `buff`: their number is the result of the call. -/
def get (mem : Mem) (mb : Membuff) (maxlen : ℤ) : Membuff × List UInt8 :=
  getTurns mem 2 mb 0 maxlen 1 []

def isempty (mb : Membuff) : Bool := mb.head = mb.tail

def avail (mb : Membuff) : ℤ :=
  let (copy, data, len) := getraw mb (-1) true 0
  let (_, _, len') := getraw copy (-1) true data
  len + len'

def size (mb : Membuff) : ℤ := (mb.stop : ℤ) - mb.start

def free (mb : Membuff) : ℤ := if mb.stop = mb.start then 0 else size mb - 1 - avail mb

/- The loop of `membuff_readline`; the first argument is `maxlen - 1 - len`. `charVal` is
the value of a `char`: whether that type is signed depends on the target. -/
def readlineLoop (charVal : UInt8 → ℤ) (mem : Mem) (mb : Membuff) (minch : ℤ) :
    ℕ → ℕ → ℕ → List UInt8 → Bool × ℕ × List UInt8
  | 0, s, _, str => (false, s, str)
  | n + 1, s, stop, str =>
    if s < stop then
      let str' := str ++ [mem s]
      if mem s = 10 ∨ charVal (mem s) < minch then (true, s + 1, str')
      else if s + 1 = stop ∧ mb.head < mb.tail then
        readlineLoop charVal mem mb minch n mb.start mb.head str'
      else readlineLoop charVal mem mb minch n (s + 1) stop str'
    else (false, s, str)

/- Returns the buffer, the length and what has been written to `str`. -/
def readline (charVal : UInt8 → ℤ) (mem : Mem) (mb : Membuff) (maxlen minch : ℤ) :
    Membuff × ℤ × List UInt8 :=
  let stop := if mb.tail ≤ mb.head then mb.head else mb.stop
  let (ok, s, str) := readlineLoop charVal mem mb minch (maxlen - 1).toNat mb.tail stop []
  if ok then
    ({ mb with tail := if s = mb.stop then mb.start else s }, str.length, str ++ [0])
  else (mb, 0, if maxlen ≠ 0 then 0 :: str.drop 1 else str)

/- `w` is the size of an `unsigned long`, by which `memcpy` copies. -/
def makecontig (w : ℕ) (mem : Mem) (mb : Membuff) : Mem × Membuff × Bool :=
  if mb.head < mb.tail then
    let topsize := mb.stop - mb.tail
    let botsize := mb.head - mb.start
    if mb.tail ≤ mb.head + topsize then (mem, mb, false)
    else
      let mem₁ := memmove mem (mb.start + topsize) mb.start botsize
      (memcpy w mem₁ mb.start mb.tail topsize,
        { mb with tail := mb.start, head := mb.start + topsize + botsize }, true)
  else
    let topsize := mb.head - mb.tail
    (memcpy w mem mb.start mb.tail topsize,
      { mb with tail := mb.start, head := mb.start + topsize + 0 }, true)

/- `for (size = orig; size < orig + by;) size *= 2`, for `fuel` turns. -/
def doubleUntil (goal : ℤ) : ℕ → ℤ → Option ℤ
  | 0, _ => none
  | fuel + 1, size => if size < goal then doubleUntil goal fuel (toInt (size * 2)) else some size

/- What `realloc` answers: the new address, or 0, and what stands in memory outside the
bytes that it keeps. -/
structure Realloc where
  ptr : ℕ
  rest : Mem

/- A size that is negative as a `long` is refused (`dlmalloc.c:1677`). -/
def Realloc.answer (r : Realloc) (bytes : ℤ) : ℕ := if bytes < 0 then 0 else r.ptr

def Realloc.memory (r : Realloc) (mem : Mem) (start orig : ℕ) : Mem :=
  store r.rest r.ptr (bytes mem start orig)

/- `membuff_extend_by` from `by = size - orig` on. -/
def extendTo (mem : Mem) (mb : Membuff) (goal : ℤ) (r : Realloc) : Mem × Membuff × ℤ :=
  let orig := size mb
  let by' := toInt (goal - orig)
  if by' ≤ 0 then (mem, mb, e2big)
  else
    let oldhead := mb.head - mb.start
    let oldtail := mb.tail - mb.start
    let ptr := r.answer goal
    if ptr = 0 then (mem, mb, enomem)
    else
      let mem₁ := r.memory mem mb.start orig.toNat
      let head := ptr + oldhead
      let tail := ptr + oldtail
      let stop := advance ptr goal
      if head < tail then
        (memmove mem₁ (advance tail by') tail (orig.toNat - oldtail),
          { start := ptr, stop := stop, head := head, tail := advance tail by' }, 0)
      else (mem₁, { start := ptr, stop := stop, head := head, tail := tail }, 0)

/- `none`: the loop runs for ever. A doubled `int` is 0 after 32 turns. -/
def extendBy (mem : Mem) (mb : Membuff) (by' max : ℤ) (r : Realloc) :
    Option (Mem × Membuff × ℤ) :=
  (doubleUntil (toInt (size mb + by')) 33 (size mb)).map fun s =>
    extendTo mem mb (if max ≠ -1 then min s max else s) r

end Membuff

end UBoot
