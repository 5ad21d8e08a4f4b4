import UBoot.Lib.Access
import UBoot.Lib.Limbs

/-!
# Byte strings and transfers of the TPM library (lib/tpm.c)

`pack_byte_string`, `unpack_byte_string` and `tpm_sendrecv_command`. A transfer leaves its result, a
length, and the memory from the response buffer on, whatever stood there. Every response byte that
is read is recorded with the length received.
-/

namespace UBoot.Tpm

open Access Limbs List

def tpmLibError : ℕ := 2 ^ 32 - 1
def tpmAuthfail : ℕ := 1

def commandBufferSize : ℕ := 256

/- `ret` is the result of `tpm_xfer`; offsets into `mem` wrap at the width of `size_t`. -/
structure Reply where
  ret : ℤ
  len : ℕ
  mem : ℕ → UInt8

def Reply.received (r : Reply) : ℕ := if r.ret = 0 then r.len else 0

structure Host where
  sizeBits : ℕ
  size_ge : 32 ≤ sizeBits
  -- the result of `uclass_first_device_err`
  device : ℕ
  -- by the requests so far, the last one included, and the size of the buffer
  xfer : List (List UInt8) → ℕ → Reply
  len_le : ∀ sent size, (xfer sent size).len ≤ size
  -- buffers that were not written yet
  stack : ℕ → UInt8
  -- the address of `command` in `tpm_get_permissions`
  commandAt : ℕ
  sha1 : List UInt8 → List UInt8

structure Use where
  received : ℕ
  index : ℕ

def inside (u : Use) : Prop := u.index < u.received

section Strings

variable (host : Host)

/- A value in `size_t`. -/
def Host.size (x : ℕ) : ℕ := x % 2 ^ host.sizeBits

def Host.fresh (n : ℕ) : List UInt8 := (List.range n).map host.stack

def be32 (value : ℕ) : List UInt8 :=
  [UInt8.ofNat (value / 2 ^ 24), UInt8.ofNat (value / 2 ^ 16), UInt8.ofNat (value / 2 ^ 8),
    UInt8.ofNat value]

inductive Datum where
  | dword (offset value : ℕ)
  | str (offset : ℕ) (data : List UInt8)

def Datum.offset : Datum → ℕ
  | .dword offset _ => offset
  | .str offset _ => offset

/- The length of a string is passed as `uint32_t`. -/
def Datum.bytes : Datum → List UInt8
  | .dword _ value => be32 value
  | .str _ data => data.take (data.length % 2 ^ 32)

def packByteString (str : List UInt8) : List Datum → Option (List UInt8)
  | [] => some str
  | d :: data =>
    if str.length < host.size (d.offset + d.bytes.length) then none
    else packByteString (str.take d.offset ++ d.bytes ++ str.drop (d.offset + d.bytes.length)) data

def readBytes (r : Reply) (offset n : ℕ) : Traced Use (List UInt8) :=
  ⟨(List.range n).map fun i => ⟨r.received, host.size (offset + i)⟩,
    (List.range n).map fun i => r.mem (host.size (offset + i))⟩

def unpackByteString (r : Reply) (offset length : ℕ) : Traced Use (Option (List UInt8)) :=
  if r.len < host.size (offset + length) then pure none
  else do
    let bytes ← readBytes host r offset length
    pure (some bytes)

def tpmReturnCode (r : Reply) : Traced Use ℕ := do
  let bytes ← readBytes host r 6 4
  pure (beValue bytes)

/- `size` is that of the response buffer. -/
def tpmSendrecvCommand (command : List UInt8) (size : ℕ) (sent : List (List UInt8)) :
    Traced Use (ℕ × List (List UInt8)) :=
  if host.device ≠ 0 then pure (host.device, sent)
  else
    let r := host.xfer (sent ++ [command]) size
    let err := (r.ret % 2 ^ 32).toNat
    -- never, for an unsigned number
    if err < 0 then pure (tpmLibError, sent ++ [command])
    else do
      let code ← tpmReturnCode host r
      pure (code, sent ++ [command])

end Strings

def bytes (r : Reply) (offset n : ℕ) : List UInt8 := (List.range n).map fun i => r.mem (offset + i)

def returnCode (r : Reply) : ℕ := beValue (bytes r 6 4)

def Received (r : Reply) : Prop := r.ret = 0 ∧ 10 ≤ r.len

section Reads

variable {host : Host} {r : Reply} {offset n : ℕ}

theorem Host.size_of_lt {x : ℕ} (h : x < 2 ^ 32) : host.size x = x :=
  Nat.mod_eq_of_lt (h.trans_le (Nat.pow_le_pow_right (by decide) host.size_ge))

theorem bytes_length (r : Reply) (offset n : ℕ) : (bytes r offset n).length = n := by
  unfold bytes
  rw [length_map, length_range]

theorem readBytes_val (h : offset + n ≤ 2 ^ 32) : (readBytes host r offset n).val = bytes r offset n := by
  refine map_congr_left fun i hi => ?_
  have hin : i < n := mem_range.mp hi
  rw [host.size_of_lt (by lia)]

theorem within_readBytes (h : offset + n ≤ 2 ^ 32) :
    Within inside (readBytes host r offset n) ↔ n = 0 ∨ offset + n ≤ r.received := by
  constructor
  · intro hw
    by_cases hn : n = 0
    · exact .inl hn
    · have hlast := hw ⟨r.received, host.size (offset + (n - 1))⟩
        (mem_map.mpr ⟨n - 1, mem_range.mpr (by lia), rfl⟩)
      have hin : host.size (offset + (n - 1)) < r.received := hlast
      rw [host.size_of_lt (by lia)] at hin
      exact .inr (by lia)
  · intro hle u hu
    obtain ⟨i, hi, rfl⟩ := mem_map.mp hu
    have hin : i < n := mem_range.mp hi
    have hplace : host.size (offset + i) < r.received := by
      rw [host.size_of_lt (by lia)]
      lia
    exact hplace

theorem received_header : Received r ↔ 10 ≤ r.received := by
  unfold Received Reply.received
  split
  next hret => exact and_iff_right hret
  next hret => exact iff_of_false (fun h => hret h.1) (by decide)

theorem Received.len (h : Received r) : r.received = r.len := if_pos h.1

theorem within_tpmReturnCode : Within inside (tpmReturnCode host r) ↔ Received r := by
  unfold tpmReturnCode
  rw [within_bind, and_iff_left (within_pure _), within_readBytes (by decide), received_header]
  exact or_iff_right (by decide)

theorem tpmReturnCode_val : (tpmReturnCode host r).val = returnCode r :=
  congrArg beValue (readBytes_val (by decide))

theorem within_unpackByteString (h : offset + n < 2 ^ host.sizeBits) (hr : Received r)
    (hlen : r.len < 2 ^ 32) : Within inside (unpackByteString host r offset n) := by
  have hsize : host.size (offset + n) = offset + n := Nat.mod_eq_of_lt h
  unfold unpackByteString
  rw [hsize]
  split
  · exact within_pure _
  · rw [within_bind, and_iff_left (within_pure _), within_readBytes (by lia), hr.len]
    exact .inr (by lia)

theorem unpackByteString_val (h : offset + n < 2 ^ 32) : (unpackByteString host r offset n).val =
    if r.len < offset + n then none else some (bytes r offset n) := by
  unfold unpackByteString
  rw [host.size_of_lt h]
  split
  · rfl
  · exact congrArg some (readBytes_val (by lia))

theorem readBytes_length (host : Host) (r : Reply) (offset n : ℕ) :
    (readBytes host r offset n).val.length = n := by
  unfold readBytes
  rw [length_map, length_range]

end Reads

section Transfers

variable {host : Host} {command : List UInt8} {size : ℕ} {sent : List (List UInt8)}

theorem tpmSendrecvCommand_noDevice (h : host.device ≠ 0) :
    tpmSendrecvCommand host command size sent = pure (host.device, sent) := if_pos h

theorem tpmSendrecvCommand_val (h : host.device = 0) :
    (tpmSendrecvCommand host command size sent).val =
      (returnCode (host.xfer (sent ++ [command]) size), sent ++ [command]) := by
  unfold tpmSendrecvCommand
  rw [if_neg (not_not.mpr h), if_neg (Nat.not_lt_zero _)]
  exact congrArg (·, sent ++ [command]) tpmReturnCode_val

theorem within_tpmSendrecvCommand (h : host.device = 0) :
    Within inside (tpmSendrecvCommand host command size sent) ↔
      Received (host.xfer (sent ++ [command]) size) := by
  unfold tpmSendrecvCommand
  rw [if_neg (not_not.mpr h), if_neg (Nat.not_lt_zero _), within_bind, and_iff_left (within_pure _)]
  exact within_tpmReturnCode

end Transfers

end UBoot.Tpm
