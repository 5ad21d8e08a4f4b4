import UBoot.Membuff.Model

/-!
# The bytes of a membuff

The data of a buffer is one run of bytes from `tail`, or two when it goes over the end. Each raw put
adds to its back, each raw get takes from its front.
-/

namespace UBoot.Membuff

open Memory List

/- The pointers are inside the buffer, and its size is an `int`. -/
structure Valid (mb : Membuff) : Prop where
  start_ne_zero : mb.start ≠ 0
  start_le_head : mb.start ≤ mb.head
  head_lt_stop : mb.head < mb.stop
  start_le_tail : mb.start ≤ mb.tail
  tail_lt_stop : mb.tail < mb.stop
  size_lt : mb.stop < mb.start + 2 ^ 31

/- The bytes from `tail` to `head`, over the end of the buffer if need be. -/
def queue (mem : Mem) (mb : Membuff) : List UInt8 :=
  if mb.tail ≤ mb.head then bytes mem mb.tail (mb.head - mb.tail)
  else bytes mem mb.tail (mb.stop - mb.tail) ++ bytes mem mb.start (mb.head - mb.start)

def used (mb : Membuff) : ℕ :=
  if mb.tail ≤ mb.head then mb.head - mb.tail
  else (mb.stop - mb.tail) + (mb.head - mb.start)

def room (mb : Membuff) : ℕ := mb.stop - mb.start - 1 - used mb

section Basic

variable {mb : Membuff}

end Basic

section Pieces

variable {mb : Membuff}

/- Only the head and the tail may have moved, and inside the buffer. -/
structure SameBuffer (mb mb' : Membuff) : Prop where
  valid : Valid mb'
  start : mb'.start = mb.start
  stop : mb'.stop = mb.stop

theorem SameBuffer.trans {mb₁ mb₂ : Membuff} (h₁ : SameBuffer mb mb₁) (h₂ : SameBuffer mb₁ mb₂) :
    SameBuffer mb mb₂ :=
  ⟨h₂.valid, h₂.start.trans h₁.start, h₂.stop.trans h₁.stop⟩

end Pieces

section Whole

variable {mb : Membuff}

/- The `maxlen` of `membuff_get` as a bound: a negative one is none. -/
def bound (maxlen : ℤ) (n : ℕ) : ℕ := if maxlen < 0 then n else min maxlen.toNat n

/- `getbyte` and `peekbyte` answer with the front byte, or -1. -/
def frontByte (q : List UInt8) : ℤ :=
  match q with
  | [] => -1
  | b :: _ => b.toNat

end Whole

end UBoot.Membuff
