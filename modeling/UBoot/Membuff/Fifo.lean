import UBoot.Membuff.Moves

/-!
# A membuff is a bounded FIFO queue of bytes

The queue says what a buffer of `size` bytes is for: at most `size - 1` bytes, taken out in the
order in which they went in.
-/

namespace UBoot.Membuff

open Memory List Option

structure Fifo where
  size : ℕ
  bytes : List UInt8
  bound : bytes.length < size

namespace Fifo

def empty (n : ℕ) (h : 1 ≤ n) : Fifo := ⟨n, [], h⟩

def room (q : Fifo) : ℕ := q.size - 1 - q.bytes.length

/- The longest prefix of `data` that fits goes to the back. -/
def append (q : Fifo) (data : List UInt8) : Fifo where
  size := q.size
  bytes := q.bytes ++ data.take q.room
  bound := by
    have h := q.bound
    simp only [room, length_append, length_take]
    lia

/- The first `n` bytes go. -/
def remove (q : Fifo) (n : ℕ) : Fifo where
  size := q.size
  bytes := q.bytes.drop n
  bound := by
    have h := q.bound
    rw [length_drop]
    lia

def clear (q : Fifo) : Fifo := ⟨q.size, [], Nat.zero_lt_of_lt q.bound⟩

def enlarge (q : Fifo) (n : ℕ) (h : q.size < n) : Fifo := ⟨n, q.bytes, q.bound.trans h⟩

end Fifo

inductive Op
  | put (data : List UInt8)
  | get (maxlen : ℤ)
  | putbyte (ch : ℤ)
  | getbyte
  | peekbyte
  | readline (maxlen minch : ℤ)
  | makecontig
  | extendBy (by' max : ℤ) (r : Realloc)
  | purge

structure Answer where
  ret : ℤ
  out : List UInt8

structure State where
  mem : Mem
  mb : Membuff

/- The target: the value of a `char` as an `int`, and the size of an `unsigned long`. -/
structure Target where
  charVal : UInt8 → ℤ
  word : ℕ

/- One call. Only `membuff_extend_by` can fail to return. -/
def exec (t : Target) (s : State) : Op → Option (State × Answer)
  | .put data =>
    let (mem, mb, ret) := put s.mem s.mb data
    some (⟨mem, mb⟩, ⟨ret, []⟩)
  | .get maxlen =>
    let (mb, out) := get s.mem s.mb maxlen
    some (⟨s.mem, mb⟩, ⟨out.length, out⟩)
  | .putbyte ch =>
    let (mem, mb, ok) := putbyte s.mem s.mb ch
    some (⟨mem, mb⟩, ⟨ok.toNat, []⟩)
  | .getbyte =>
    let (mb, ret) := getbyte s.mem s.mb
    some (⟨s.mem, mb⟩, ⟨ret, []⟩)
  | .peekbyte =>
    let (mb, ret) := peekbyte s.mem s.mb
    some (⟨s.mem, mb⟩, ⟨ret, []⟩)
  | .readline maxlen minch =>
    let (mb, ret, out) := readline t.charVal s.mem s.mb maxlen minch
    some (⟨s.mem, mb⟩, ⟨ret, out⟩)
  | .makecontig =>
    let (mem, mb, ok) := makecontig t.word s.mem s.mb
    some (⟨mem, mb⟩, ⟨ok.toNat, []⟩)
  | .extendBy by' max r =>
    (extendBy s.mem s.mb by' max r).map fun (mem, mb, ret) => (⟨mem, mb⟩, ⟨ret, []⟩)
  | .purge => some (⟨s.mem, purge s.mb⟩, ⟨0, []⟩)

inductive Runs (t : Target) : State → List (Op × Answer) → State → Prop
  | nil (s : State) : Runs t s [] s
  | cons {s s₁ s₂ : State} {op : Op} {a : Answer} {calls : List (Op × Answer)}
      (step : exec t s op = some (s₁, a)) (run : Runs t s₁ calls s₂) :
      Runs t s ((op, a) :: calls) s₂

inductive Fifo.Step (t : Target) : Fifo → Op → Answer → Fifo → Prop
  /-- `put` appends the longest prefix of its data that fits and returns its length. -/
  | put (q : Fifo) (data : List UInt8) :
      Step t q (.put data) ⟨(min data.length q.room : ℕ), []⟩ (q.append data)
  /-- `get` takes `min(maxlen, avail)` bytes from the front. -/
  | get (q : Fifo) (maxlen : ℕ) :
      Step t q (.get maxlen) ⟨(min maxlen q.bytes.length : ℕ), q.bytes.take maxlen⟩
        (q.remove maxlen)
  /-- A negative `maxlen` is no limit. -/
  | getAll (q : Fifo) (maxlen : ℤ) (h : maxlen < 0) :
      Step t q (.get maxlen) ⟨q.bytes.length, q.bytes⟩ q.clear
  | putbyte (q : Fifo) (ch : ℤ) :
      Step t q (.putbyte ch) ⟨(min 1 q.room : ℕ), []⟩ (q.append [toChar ch])
  | getbyte (q : Fifo) : Step t q .getbyte ⟨frontByte q.bytes, []⟩ (q.remove 1)
  | peekbyte (q : Fifo) : Step t q .peekbyte ⟨frontByte q.bytes, []⟩ q
  /-- A line that fits is taken with its end, and terminated. -/
  | readline (q : Fifo) (maxlen minch : ℤ) (n : ℕ)
      (h : lineLen t.charVal maxlen minch q.bytes = some n) :
      Step t q (.readline maxlen minch) ⟨n, q.bytes.take n ++ [0]⟩ (q.remove n)
  | noLine (q : Fifo) (maxlen minch : ℤ) (str : List UInt8)
      (h : lineLen t.charVal maxlen minch q.bytes = none) :
      Step t q (.readline maxlen minch) ⟨0, str⟩ q
  /-- Whether it succeeds or not. -/
  | makecontig (q : Fifo) (ok : Bool) : Step t q .makecontig ⟨ok.toNat, []⟩ q
  | enlarged (q : Fifo) (by' max : ℤ) (r : Realloc) (n : ℕ) (h : q.size < n) :
      Step t q (.extendBy by' max r) ⟨0, []⟩ (q.enlarge n h)
  | notEnlarged (q : Fifo) (by' max : ℤ) (r : Realloc) (ret : ℤ) (h : ret < 0) :
      Step t q (.extendBy by' max r) ⟨ret, []⟩ q
  | purge (q : Fifo) : Step t q .purge ⟨0, []⟩ q.clear

inductive Fifo.Runs (t : Target) : Fifo → List (Op × Answer) → Fifo → Prop
  | nil (q : Fifo) : Fifo.Runs t q [] q
  | cons {q q₁ q₂ : Fifo} {op : Op} {a : Answer} {calls : List (Op × Answer)}
      (step : Fifo.Step t q op a q₁) (run : Fifo.Runs t q₁ calls q₂) :
      Fifo.Runs t q ((op, a) :: calls) q₂

section Refinement

variable {t : Target} {s s' : State}

theorem SameBuffer.size {mb mb' : Membuff} (h : SameBuffer mb mb') :
    mb'.stop - mb'.start = mb.stop - mb.start := by
  rw [h.start, h.stop]

end Refinement

end UBoot.Membuff
