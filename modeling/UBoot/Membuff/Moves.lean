import UBoot.Membuff.Queue

/-!
# Lines, contiguity and growth of a membuff

`membuff_readline` walks the data by hand and starts again at the bottom when it comes to
the end of the buffer, `membuff_makecontig` and `membuff_extend_by` move the data.
-/

namespace UBoot.Membuff

open Memory List Option

section Readline

variable {charVal : UInt8 → ℤ} {mem : Mem} {mb : Membuff} {minch : ℤ}

def lineEnd (charVal : UInt8 → ℤ) (minch : ℤ) (c : UInt8) : Bool := c = 10 ∨ charVal c < minch

/- The length of the first line, with its end, if it is shorter than `maxlen`. -/
def lineLen (charVal : UInt8 → ℤ) (maxlen minch : ℤ) (q : List UInt8) : Option ℕ :=
  match q.findIdx? (lineEnd charVal minch) with
  | some i => if (i : ℤ) + 1 < maxlen then some (i + 1) else none
  | none => none

section Line

variable {n i : ℕ} {c : UInt8} (h : Valid mb) (hn : i < n) (hi : (queue mem mb)[i]? = some c)
  (hend : lineEnd charVal minch c = true)
  (hbefore : ∀ c ∈ (queue mem mb).take i, lineEnd charVal minch c = false)

include h hn hi hend hbefore

end Line

end Readline

section Extend

theorem toInt_lt (x : ℤ) : toInt x < 2 ^ 31 := by
  have h := Int.bmod_lt (x := x) (m := 2 ^ 32) (by norm_num)
  unfold toInt
  lia

variable {mb : Membuff} {mem : Mem} {r : Realloc}

/- A call that returns: an error and the buffer as it was, or a larger buffer. -/
inductive Extended (mem : Mem) (mb : Membuff) (mem' : Mem) (mb' : Membuff) (ret : ℤ) : Prop
  | failed (hret : ret < 0) (hmem : mem' = mem) (hmb : mb' = mb)
  | grown (hret : ret = 0) (hsize : mb.stop - mb.start < mb'.stop - mb'.start) (hvalid : Valid mb')
      (hqueue : queue mem' mb' = queue mem mb)

end Extend

end UBoot.Membuff
