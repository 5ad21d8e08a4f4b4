import UBoot.Tpm.Pack
import UBoot.Tpm.Responses

/-!
# The requests of the TPM library

A request is a tag, its own size, a command code and the parameters, all big-endian. The library
packs its requests from templates; here they are compared with what they should be.
-/

namespace UBoot.Tpm

open Access Limbs List

def tpmRequest (tag : UInt8) (code : ℕ) (params : List UInt8) : List UInt8 :=
  [0x00, tag] ++ be32 (10 + params.length) ++ be32 code ++ params

def tpmCommandSize (command : List UInt8) : ℕ := beValue ((command.drop 2).take 4)

/- The request that stands at the start of a buffer of this size is the expected one. -/
structure WellFormed (buffer : ℕ) (expected request : List UInt8) : Prop where
  size : tpmCommandSize request = expected.length
  inside : expected.length ≤ buffer
  content : request.take expected.length = expected

/- An error without a transfer, or one transfer of a well-formed request. -/
def Sends (buffer : ℕ) (expected : List UInt8) (before : List (List UInt8)) (code : ℕ)
    (after : List (List UInt8)) : Prop :=
  (code ≠ 0 ∧ after = before) ∨
    ∃ request, after = before ++ [request] ∧ WellFormed buffer expected request

def pcrInfoShort : List UInt8 := [0x00, 0x03, 0x00, 0x00, 0x00, 0x1f] ++ zeros 20

def nvDefineExpected (index perm size : ℕ) : List UInt8 :=
  tpmRequest 0xc1 0xcc ([0x00, 0x18] ++ be32 index ++ pcrInfoShort ++ pcrInfoShort ++ [0x00, 0x17] ++
    be32 perm ++ zeros 3 ++ be32 size ++ zeros 20)

def nvReadExpected (index count : ℕ) : List UInt8 :=
  tpmRequest 0xc1 0xcf (be32 index ++ zeros 4 ++ be32 count)

def nvWriteExpected (index : ℕ) (data : List UInt8) : List UInt8 :=
  tpmRequest 0xc1 0xcd (be32 index ++ zeros 4 ++ be32 data.length ++ data)

def extendExpected (index : ℕ) (inDigest : List UInt8) : List UInt8 :=
  tpmRequest 0xc1 0x14 (be32 index ++ inDigest)

def pcrReadExpected (index : ℕ) : List UInt8 := tpmRequest 0xc1 0x15 (be32 index)

def capabilityExpected (capArea subCap : ℕ) : List UInt8 :=
  tpmRequest 0xc1 0x65 (be32 capArea ++ be32 4 ++ be32 subCap)

def permissionsExpected (index : ℕ) : List UInt8 := capabilityExpected 0x11 index

def terminateExpected (authHandle : ℕ) : List UInt8 :=
  tpmRequest 0xc1 0xba (be32 authHandle ++ be32 2)

def loadKeyExpected (parentHandle : ℕ) (key block : List UInt8) : List UInt8 :=
  tpmRequest 0xc2 0x41 (be32 parentHandle ++ key ++ block)

section Commands

variable (host : Host)

def nvDefineRequest (index perm size : ℕ) : Option (List UInt8) :=
  let command : List UInt8 := [0x0, 0xc1, 0x0, 0x0, 0x0, 0x65, 0x0, 0x0, 0x0, 0xcc, 0x0, 0x18] ++
    zeros 4 ++ [0x0, 0x3, 0, 0, 0, 0x1f] ++ zeros 20 ++ [0x0, 0x3, 0, 0, 0, 0x1f] ++ zeros 20 ++
    [0x0, 0x17] ++ zeros 4 ++ zeros 3 ++ zeros 4 ++ zeros 20
  packByteString host (host.fresh commandBufferSize)
    [.str 0 command, .dword 12 index, .dword 70 perm, .dword 77 size]

def tpmNvDefineSpace (index perm size : ℕ) : State → Traced Use Answer :=
  runCommand host (nvDefineRequest host index perm size) commandBufferSize fun _ => pure (0, [])

def nvWriteRequest (index : ℕ) (data : List UInt8) : Option (List UInt8) :=
  let command : List UInt8 := [0x0, 0xc1, 0x0, 0x0, 0x0, 0x0, 0x0, 0x0, 0x0, 0xcd] ++ zeros 246
  packByteString host (host.fresh commandBufferSize)
    [.str 0 command, .dword 2 (10 + 12 + data.length), .dword 10 index, .dword 18 data.length,
      .str 22 data]

def tpmNvWriteValue (index : ℕ) (data : List UInt8) : State → Traced Use Answer :=
  runCommand host (nvWriteRequest host index data) commandBufferSize fun _ => pure (0, [])

end Commands

def put (str : List UInt8) (offset : ℕ) (bs : List UInt8) : List UInt8 :=
  str.take offset ++ bs ++ str.drop (offset + bs.length)

def putAll (data : List Datum) (str : List UInt8) : List UInt8 :=
  data.foldl (fun str d => put str d.offset d.bytes) str

section Put

variable {host : Host} {str rest bs : List UInt8} {data : List Datum} {offset : ℕ}

theorem length_put (h : offset + bs.length ≤ str.length) : (put str offset bs).length = str.length := by
  unfold put
  rw [length_append, length_append, length_take, length_drop]
  lia

theorem put_append (h : offset + bs.length ≤ str.length) :
    put (str ++ rest) offset bs = put str offset bs ++ rest := by
  unfold put
  rw [take_append_of_le_length (by lia), drop_append_of_le_length h, append_assoc _ _ rest]

theorem put_behind (h : offset = str.length) :
    put (str ++ rest) offset bs = str ++ bs ++ rest.drop bs.length := by
  unfold put
  rw [h, take_left, drop_append, drop_of_length_le (Nat.le_add_right _ _),
    Nat.add_sub_cancel_left, nil_append]

theorem length_putAll (h : ∀ d ∈ data, d.offset + d.bytes.length ≤ str.length) :
    (putAll data str).length = str.length := by
  induction data generalizing str with
  | nil => rfl
  | cons d data ih =>
    have hput := length_put (h d mem_cons_self)
    rw [putAll, foldl_cons]
    refine (ih fun e he => ?_).trans hput
    exact (h e (mem_cons_of_mem _ he)).trans hput.ge

theorem length_fresh (host : Host) (n : ℕ) : (host.fresh n).length = n := by
  rw [Host.fresh, length_map, length_range]

theorem putAll_append (h : ∀ d ∈ data, d.offset + d.bytes.length ≤ str.length) :
    putAll data (str ++ rest) = putAll data str ++ rest := by
  induction data generalizing str with
  | nil => rfl
  | cons d data ih =>
    have hd := h d mem_cons_self
    have hrest : ∀ e ∈ data, e.offset + e.bytes.length ≤ (put str d.offset d.bytes).length := by
      intro e he
      rw [length_put hd]
      exact h e (mem_cons_of_mem _ he)
    unfold putAll at ih ⊢
    rw [foldl_cons, foldl_cons, put_append hd]
    exact ih hrest

theorem packByteString_append (hlen : str.length < 2 ^ 32)
    (h : ∀ d ∈ data, d.offset + d.bytes.length ≤ str.length) (more : List Datum) :
    packByteString host str (data ++ more) = packByteString host (putAll data str) more := by
  induction data generalizing str with
  | nil => rfl
  | cons d data ih =>
    have hd := h d mem_cons_self
    rw [cons_append, packByteString, host.size_of_lt (by lia), if_neg (Nat.not_lt.mpr hd)]
    have hput := length_put hd
    refine ih (by rw [← hput] at hlen; exact hlen) fun e he => ?_
    exact (h e (mem_cons_of_mem _ he)).trans hput.ge

theorem packByteString_template (host : Host) {n : ℕ} {command : List UInt8} (hn : n < 2 ^ 32)
    (hcommand : command.length ≤ n) (data : List Datum)
    (h : ∀ d ∈ data, d.offset + d.bytes.length ≤ command.length) (more : List Datum) :
    packByteString host (host.fresh n) (.str 0 command :: (data ++ more)) =
      packByteString host (putAll data command ++ (host.fresh n).drop command.length) more := by
  have hfresh := length_fresh host n
  have hbytes : (Datum.str 0 command).bytes = command :=
    take_of_length_le (by rw [Nat.mod_eq_of_lt (by lia)])
  have hput : put (host.fresh n) 0 command = command ++ (host.fresh n).drop command.length := by
    rw [put, take_zero, nil_append, Nat.zero_add]
  have hfits : ∀ d ∈ Datum.str 0 command :: data,
      d.offset + d.bytes.length ≤ (host.fresh n).length := by
    intro d hd
    rw [hfresh]
    rcases mem_cons.mp hd with rfl | hd
    · rw [hbytes]
      exact (Nat.zero_add _).trans_le hcommand
    · exact (h d hd).trans hcommand
  have hall : packByteString host _ _ = _ :=
    packByteString_append (by rw [hfresh]; exact hn) hfits more
  rw [cons_append, putAll, foldl_cons, hbytes] at hall
  rw [hall, Datum.offset, hput]
  exact congrArg (packByteString host · more) (putAll_append h)

theorem packByteString_string (host : Host) {n offset : ℕ} {command start filler : List UInt8}
    (hn : n < 2 ^ 32) (hcommand : command.length ≤ n) (data : List Datum) (string : List UInt8)
    (h : ∀ d ∈ data, d.offset + d.bytes.length ≤ command.length)
    (hput : putAll data command = start ++ filler) (hoffset : offset = start.length) :
    ∃ rest, packByteString host (host.fresh n) (.str 0 command :: (data ++ [.str offset string])) =
      if n < host.size (offset + string.length % 2 ^ 32) then none
      else some (start ++ string.take (string.length % 2 ^ 32) ++ rest) := by
  have hbytes : (Datum.str offset string).bytes.length = string.length % 2 ^ 32 :=
    length_take_of_le (Nat.mod_le _ _)
  have hlength : (start ++ (filler ++ (host.fresh n).drop command.length)).length = n := by
    have hsame := length_putAll h
    have hstart := congrArg List.length hput
    rw [length_append] at hstart
    rw [length_append, length_append, length_drop, length_fresh]
    lia
  refine ⟨(filler ++ (host.fresh n).drop command.length).drop (string.length % 2 ^ 32), ?_⟩
  rw [packByteString_template host hn hcommand data h, hput, append_assoc, packByteString, hlength,
    hbytes]
  refine if_congr Iff.rfl rfl (congrArg some ?_)
  have hbehind : put (start ++ (filler ++ (host.fresh n).drop command.length)) offset
      (Datum.str offset string).bytes = _ := put_behind hoffset
  rw [put, hbytes] at hbehind
  exact hbehind

end Put

section WellFormed

variable {host : Host} {buffer : ℕ} {expected request rest params : List UInt8} {tag : UInt8} {code : ℕ}

@[simp] theorem length_be32 (value : ℕ) : (be32 value).length = 4 := rfl

@[simp] theorem length_zeros (n : ℕ) : (zeros n).length = n := length_replicate

theorem length_tpmRequest : (tpmRequest tag code params).length = 10 + params.length := by
  simp only [tpmRequest, length_append, length_cons, length_nil, length_be32]

theorem tpmRequest_eq {n : ℕ} (h : params.length = n) :
    tpmRequest tag code params = [0x00, tag] ++ be32 (10 + n) ++ be32 code ++ params := by
  rw [← h, tpmRequest]

theorem beValue_be32 {value : ℕ} (h : value < 2 ^ 32) : beValue (be32 value) = value := by
  rw [Format.be32_eq, beValue_beBytes]
  exact Nat.mod_eq_of_lt h

theorem wellFormed_append (h : (tpmRequest tag code params).length ≤ buffer) (hbuffer : buffer < 2 ^ 32) :
    WellFormed buffer (tpmRequest tag code params) (tpmRequest tag code params ++ rest) := by
  refine ⟨?_, h, take_left⟩
  rw [length_tpmRequest] at h ⊢
  exact beValue_be32 (h.trans_lt hbuffer)

theorem wellFormed_iff (h : (tpmRequest tag code params).length ≤ buffer) (hbuffer : buffer < 2 ^ 32) :
    WellFormed buffer (tpmRequest tag code params) request ↔
      request.take (tpmRequest tag code params).length = tpmRequest tag code params := by
  refine ⟨fun hw => hw.content, fun htake => ?_⟩
  rw [← take_append_drop (tpmRequest tag code params).length request, htake]
  exact wellFormed_append h hbuffer

theorem sends_error {before : List (List UInt8)} {ret : ℕ} (h : ret ≠ 0) :
    Sends buffer expected before ret before :=
  .inl ⟨h, rfl⟩

theorem sends_iff {before : List (List UInt8)} {ret : ℕ} :
    Sends buffer expected before ret (before ++ [request]) ↔ WellFormed buffer expected request := by
  constructor
  · rintro (⟨-, h⟩ | ⟨request', h, hw⟩)
    · have hlen := congrArg List.length h
      rw [length_append, length_singleton] at hlen
      lia
    · obtain rfl := singleton_inj.mp (append_cancel_left h)
      exact hw
  · exact fun hw => .inr ⟨request, rfl, hw⟩

end WellFormed

section Plain

variable {host : Host} {t : State} {size buffer : ℕ} {expected : List UInt8}
  {finish : Reply → Traced Use (ℕ × List UInt8)}

def AnswerSends (buffer : ℕ) (expected : List UInt8) (t : State) (m : Traced Use Answer) : Prop :=
  Sends buffer expected t.sent m.val.code m.val.state.sent

theorem runCommand_none : AnswerSends buffer expected t (runCommand host none size finish t) :=
  sends_error (show tpmLibError ≠ 0 by decide)

theorem runCommand_noDevice (request : Option (List UInt8)) (h : host.device ≠ 0) :
    AnswerSends buffer expected t (runCommand host request size finish t) := by
  cases request with
  | none => exact runCommand_none
  | some request =>
    unfold AnswerSends runCommand
    dsimp only
    rw [sendThen_noDevice h]
    exact sends_error h

theorem sendThen_sent {command : List UInt8} {refused : ℕ → State → Answer}
    {next : Reply → State → Traced Use Answer} (h : host.device = 0)
    (hrefused : ∀ err t, (refused err t).state.sent = t.sent)
    (hnext : ∀ r t, (next r t).val.state.sent = t.sent) :
    (sendThen host command size t refused next).val.state.sent = t.sent ++ [command] := by
  rw [sendThen_val h]
  split
  · exact hrefused _ _
  · exact hnext _ _

theorem runCommand_iff (request : List UInt8) (h : host.device = 0) :
    AnswerSends buffer expected t (runCommand host (some request) size finish t) ↔
      WellFormed buffer expected request := by
  have hsent : (runCommand host (some request) size finish t).val.state.sent = t.sent ++ [request] :=
    sendThen_sent h (fun _ _ => rfl) fun _ _ => rfl
  unfold AnswerSends
  rw [hsent]
  exact sends_iff

theorem runCommand_sends {tag : UInt8} {code : ℕ} {params rest : List UInt8}
    {request : Option (List UInt8)} (hlen : (tpmRequest tag code params).length ≤ buffer)
    (hbuffer : buffer < 2 ^ 32) (h : request = some (tpmRequest tag code params ++ rest)) :
    AnswerSends buffer (tpmRequest tag code params) t (runCommand host request size finish t) := by
  by_cases hdevice : host.device = 0
  · rw [h]
    exact (runCommand_iff _ hdevice).mpr (wellFormed_append hlen hbuffer)
  · exact runCommand_noDevice request hdevice

theorem template_sends {tag : UInt8} {code : ℕ} {params command : List UInt8} {data : List Datum}
    {request : Option (List UInt8)}
    (hrequest : request = packByteString host (host.fresh commandBufferSize) (.str 0 command :: data))
    (hcommand : command.length ≤ commandBufferSize)
    (hdata : ∀ d ∈ data, d.offset + d.bytes.length ≤ command.length)
    (hput : putAll data command = tpmRequest tag code params)
    (hlen : (tpmRequest tag code params).length ≤ commandBufferSize) :
    AnswerSends commandBufferSize (tpmRequest tag code params) t
      (runCommand host request size finish t) := by
  have hpack := packByteString_template host (by decide) hcommand data hdata []
  rw [append_nil, hput] at hpack
  exact runCommand_sends hlen (by decide) (hrequest.trans hpack)

theorem tpmNvDefineSpace_sends (index perm size : ℕ) :
    AnswerSends commandBufferSize (nvDefineExpected index perm size) t
      (tpmNvDefineSpace host index perm size t) := by
  refine template_sends rfl (by decide) ?_ ?_ (show (101 : ℕ) ≤ commandBufferSize by decide)
  · intro d hd
    fin_cases hd
    · exact (by decide : 12 + 4 ≤ 101)
    · exact (by decide : 70 + 4 ≤ 101)
    · exact (by decide : 77 + 4 ≤ 101)
  · rw [tpmRequest_eq (n := 91) rfl]
    rfl

theorem tpmNvReadValue_sends (index count : ℕ) :
    AnswerSends commandBufferSize (nvReadExpected index count) t (tpmNvReadValue host index count t) := by
  refine template_sends rfl (by decide) ?_ ?_ (show (22 : ℕ) ≤ commandBufferSize by decide)
  · intro d hd
    fin_cases hd
    · exact (by decide : 10 + 4 ≤ 22)
    · exact (by decide : 18 + 4 ≤ 22)
  · rw [tpmRequest_eq (n := 12) rfl]
    rfl

variable {data : List UInt8}

theorem bytes_str {offset : ℕ} (h : data.length < 2 ^ 32) : (Datum.str offset data).bytes = data :=
  take_of_length_le (Nat.mod_eq_of_lt h).ge

theorem tpmExtend_sends (index : ℕ) {inDigest : List UInt8} (h : inDigest.length = pcrDigestLength) :
    AnswerSends commandBufferSize (extendExpected index inDigest) t
      (tpmExtend host index inDigest t) := by
  have hlen : inDigest.length = 20 := h
  have hbytes : (Datum.str 14 inDigest).bytes = inDigest := bytes_str (by lia)
  have hparams : (be32 index ++ inDigest).length = 24 := by
    rw [length_append, hlen, length_be32]
  refine template_sends rfl (by decide) ?_ ?_ ?_
  · intro d hd
    fin_cases hd
    · exact (by decide : 10 + 4 ≤ 34)
    · change 14 + (Datum.str 14 inDigest).bytes.length ≤ 34
      rw [hbytes, hlen]
  · -- the digest lies behind the first 14 bytes and fills the template
    have hfirst : put ([0x0, 0xc1, 0x0, 0x0, 0x0, 0x22, 0x0, 0x0, 0x0, 0x14] ++ zeros 24) 10
        (be32 index) = [0x0, 0xc1, 0x0, 0x0, 0x0, 0x22, 0x0, 0x0, 0x0, 0x14] ++ be32 index ++ zeros 20 :=
      rfl
    change put (put ([0x0, 0xc1, 0x0, 0x0, 0x0, 0x22, 0x0, 0x0, 0x0, 0x14] ++ zeros 24) 10 (be32 index))
      14 (Datum.str 14 inDigest).bytes = _
    rw [hfirst, hbytes, put_behind (by rfl), hlen, tpmRequest_eq hparams, ← append_assoc]
    exact append_nil _
  · rw [length_tpmRequest, hparams]
    decide

theorem tpmPcrRead_sends (index count : ℕ) :
    AnswerSends commandBufferSize (pcrReadExpected index) t (tpmPcrRead host index count t) := by
  by_cases hcount : count < pcrDigestLength
  · have hnone : pcrReadRequest host index count = none := if_pos hcount
    unfold tpmPcrRead
    rw [hnone]
    exact runCommand_none
  · refine template_sends (if_neg hcount) (by decide) ?_ ?_
      (show (14 : ℕ) ≤ commandBufferSize by decide)
    · intro d hd
      fin_cases hd
      exact (by decide : 10 + 4 ≤ 14)
    · rw [tpmRequest_eq (n := 4) rfl]
      rfl

theorem tpmGetCapability_sends (capArea subCap count : ℕ) :
    AnswerSends commandBufferSize (capabilityExpected capArea subCap) t
      (tpmGetCapability host capArea subCap count t) := by
  refine template_sends rfl (by decide) ?_ ?_ (show (22 : ℕ) ≤ commandBufferSize by decide)
  · intro d hd
    fin_cases hd
    · exact (by decide : 10 + 4 ≤ 22)
    · exact (by decide : 18 + 4 ≤ 22)
  · rw [tpmRequest_eq (n := 12) rfl]
    rfl

theorem tpmGetPermissions_sends (index : ℕ) :
    AnswerSends commandBufferSize (permissionsExpected index) t (tpmGetPermissions host index t) ↔
      host.device ≠ 0 ∨ (be32 host.commandAt ++ (host.fresh commandBufferSize).drop 4).take 22 =
        permissionsExpected index := by
  by_cases hdevice : host.device = 0
  · have hpack : permissionsRequest host index =
        some (be32 host.commandAt ++ (host.fresh commandBufferSize).drop 4) := by
      unfold permissionsRequest
      rw [packByteString, if_neg]
      · rfl
      · rw [length_fresh, host.size_of_lt]
        · exact (by decide : ¬256 < 0 + 4)
        · exact (by decide : 0 + 4 < 2 ^ 32)
    unfold tpmGetPermissions
    rw [hpack, runCommand_iff _ hdevice, or_iff_right (not_not.mpr hdevice)]
    exact wellFormed_iff (show (22 : ℕ) ≤ commandBufferSize by decide) (by decide)
  · exact iff_of_true (runCommand_noDevice _ hdevice) (.inl hdevice)

def nvWriteHead (index : ℕ) (data : List UInt8) : List UInt8 :=
  [0x00, 0xc1] ++ be32 (10 + 12 + data.length) ++ be32 0xcd ++ be32 index ++ zeros 4 ++
    be32 data.length

theorem nvWriteRequest_eq (index : ℕ) (hshort : data.length < 2 ^ 32) :
    ∃ rest, nvWriteRequest host index data =
      if commandBufferSize < host.size (22 + data.length) then none
      else some (nvWriteHead index data ++ data ++ rest) := by
  have hcommand : [0x0, 0xc1, 0x0, 0x0, 0x0, 0x0, 0x0, 0x0, 0x0, 0xcd] ++ zeros 246 =
      [0x0, 0xc1, 0x0, 0x0, 0x0, 0x0, 0x0, 0x0, 0x0, 0xcd] ++ zeros 12 ++ zeros 234 := by
    rw [append_assoc]
    exact congrArg _ (replicate_add 12 234 0)
  have hfits : ∀ d ∈ [Datum.dword 2 (10 + 12 + data.length), .dword 10 index, .dword 18 data.length],
      d.offset + d.bytes.length ≤ 22 := by
    intro d hd
    fin_cases hd
    · exact (by decide : 2 + 4 ≤ 22)
    · exact (by decide : 10 + 4 ≤ 22)
    · exact (by decide : 18 + 4 ≤ 22)
  have hlen : ([0x0, 0xc1, 0x0, 0x0, 0x0, 0x0, 0x0, 0x0, 0x0, 0xcd] ++ zeros 246).length = 256 := by
    rw [length_append, length_zeros]
    rfl
  have hput : putAll [.dword 2 (10 + 12 + data.length), .dword 10 index, .dword 18 data.length]
      ([0x0, 0xc1, 0x0, 0x0, 0x0, 0x0, 0x0, 0x0, 0x0, 0xcd] ++ zeros 246) =
        nvWriteHead index data ++ zeros 234 := by
    rw [hcommand, putAll_append hfits]
    rfl
  have hpack := packByteString_string host (show commandBufferSize < 2 ^ 32 by decide) hlen.le _ data
    (fun d hd => (hfits d hd).trans (by rw [hlen]; decide)) hput (show 22 = _ from rfl)
  rwa [Nat.mod_eq_of_lt hshort, take_length] at hpack

theorem tpmNvWriteValue_sends (index : ℕ) (hshort : data.length < 2 ^ 32) :
    AnswerSends commandBufferSize (nvWriteExpected index data) t (tpmNvWriteValue host index data t) ↔
      host.device ≠ 0 ∨ 22 + data.length < 2 ^ host.sizeBits := by
  have hbig := size_large host
  have hsize : commandBufferSize = 256 := rfl
  have hparams : (be32 index ++ zeros 4 ++ be32 data.length ++ data).length = 12 + data.length := by
    rw [length_append]
    rfl
  have hexpected : nvWriteExpected index data = nvWriteHead index data ++ data := by
    rw [nvWriteExpected, tpmRequest_eq hparams, ← Nat.add_assoc, nvWriteHead]
    simp only [append_assoc]
  have hlength : (nvWriteExpected index data).length = 22 + data.length := by
    rw [nvWriteExpected, length_tpmRequest, hparams]
    lia
  by_cases hdevice : host.device = 0
  swap
  · exact iff_of_true (runCommand_noDevice _ hdevice) (.inl hdevice)
  obtain ⟨rest, hrequest⟩ : ∃ rest, nvWriteRequest host index data = _ := nvWriteRequest_eq index hshort
  rw [or_iff_right (not_not.mpr hdevice), tpmNvWriteValue, hrequest]
  by_cases hwrap : 22 + data.length < 2 ^ host.sizeBits
  · refine iff_of_true ?_ hwrap
    rw [show host.size (22 + data.length) = 22 + data.length from Nat.mod_eq_of_lt hwrap]
    by_cases hlong : commandBufferSize < 22 + data.length
    · rw [if_pos hlong]
      exact runCommand_none
    · rw [if_neg hlong, runCommand_iff _ hdevice, ← hexpected]
      exact wellFormed_append (by rw [← nvWriteExpected, hlength]; lia) (by decide)
  · refine iff_of_false ?_ hwrap
    have hmod : host.size (22 + data.length) = 22 + data.length - 2 ^ host.sizeBits := by
      unfold Host.size
      rw [Nat.mod_eq_sub_mod (not_lt.mp hwrap)]
      exact Nat.mod_eq_of_lt (by lia)
    rw [if_neg (by lia), runCommand_iff _ hdevice]
    intro hformed
    have hinside := hformed.inside
    lia

end Plain

section Sessions

variable {host : Host} {t : State}

theorem tpmTerminateAuthSession_sends (authHandle : ℕ) :
    Sends commandBufferSize (terminateExpected authHandle) t.sent
        (tpmTerminateAuthSession host authHandle t).val.1
        (tpmTerminateAuthSession host authHandle t).val.2.sent ↔ host.device ≠ 0 := by
  have hpack : ∃ rest, terminateRequest host authHandle =
      some ([0x00, 0xc1, 0x00, 0x00, 0x00, 0x00] ++ rest) := by
    refine ⟨_, (packByteString_template host (by decide) ?_ [.dword 10 authHandle] ?_ []).trans rfl⟩
    · decide
    · intro d hd
      fin_cases hd
      exact (by decide : 10 + 4 ≤ 18)
  obtain ⟨rest, hpack⟩ := hpack
  unfold tpmTerminateAuthSession
  rw [hpack]
  dsimp only
  rw [val_bind]
  by_cases hdevice : host.device = 0
  · rw [tpmSendrecvCommand_val hdevice]
    refine iff_of_false (fun hsends => ?_) (not_not.mpr hdevice)
    have hsize := (sends_iff.mp hsends).size
    exact absurd hsize (show ¬ (0 : ℕ) = 18 by decide)
  · rw [tpmSendrecvCommand_noDevice hdevice]
    exact iff_of_true (sends_error hdevice) hdevice

def loadKeyBufferSize : ℕ := 14 + tpmKey12MaxLength + tpmRequestAuthLength

/- The request for a key in front of the key, which has `keyLength` bytes. -/
def loadKeyStart (parentHandle keyLength : ℕ) : List UInt8 :=
  [0x00, 0xc2] ++ be32 (14 + keyLength + tpmRequestAuthLength) ++ be32 0x41 ++ be32 parentHandle

theorem loadKeyRequest_eq (parentHandle : ℕ) (key : List UInt8) :
    ∃ rest, loadKeyRequest host parentHandle key =
      if loadKeyBufferSize < host.size (14 + key.length % 2 ^ 32) then none
      else some (loadKeyStart parentHandle key.length ++ key.take (key.length % 2 ^ 32) ++ rest) := by
  have hfits : ∀ d ∈ [Datum.dword 2 (14 + key.length + tpmRequestAuthLength), .dword 10 parentHandle],
      d.offset + d.bytes.length ≤ 14 := by
    intro d hd
    fin_cases hd
    · exact (by decide : 2 + 4 ≤ 14)
    · exact (by decide : 10 + 4 ≤ 14)
  have htemplate : ([0x00, 0xc2, 0x00, 0x00, 0x00, 0x00, 0x00, 0x00, 0x00, 0x41] ++ zeros 4).length = 14 :=
    rfl
  exact packByteString_string host (show loadKeyBufferSize < 2 ^ 32 by decide)
    (htemplate.trans_le (by decide)) _ key hfits (append_nil _).symm rfl

def authBlock (host : Host) (request : List UInt8) (session : Session) (auth : List UInt8) : List UInt8 :=
  (createRequestAuth host request request.length 4 session auth).2.2

variable {session : Session}

theorem createRequestAuth_append {head rest : List UInt8} {auth : List UInt8}
    (h : 10 ≤ head.length) :
    createRequestAuth host (head ++ rest) head.length 4 session auth =
      createRequestAuth host head head.length 4 session auth := by
  have hsegment : ∀ first last, last ≤ head.length →
      segment (head ++ rest) first last = segment head first last := fun first last hlast => by
    rw [segment, segment, take_append_of_le_length hlast]
  rw [createRequestAuth, createRequestAuth, hsegment 6 10 h, hsegment (10 + 4) head.length le_rfl]

theorem length_authBlock (hsha : ∀ data, (host.sha1 data).length = digestLength) {request : List UInt8} {auth : List UInt8} (hvalid : session.valid = true) :
    (authBlock host request session auth).length = tpmRequestAuthLength := by
  have hnot : session.valid ≠ false := by rw [hvalid]; decide
  unfold authBlock createRequestAuth
  rw [if_neg hnot]
  simp only [length_append, length_be32, length_singleton, sha1Hmac, hsha]
  rfl

theorem openSession_sent : (openSession host t).val.state.sent = t.sent ∨
    (openSession host t).val.state.sent = t.sent ++ [oiapCommand] := by
  unfold openSession
  by_cases hvalid : t.session.valid = true
  · rw [if_pos hvalid]
    exact .inl rfl
  · rw [if_neg hvalid]
    have hended : (endSession host t).val = t := by
      unfold endSession
      rw [if_neg hvalid]
      rfl
    unfold tpmOiap
    rw [val_bind, hended]
    by_cases hdevice : host.device = 0
    · refine .inr (sendThen_sent hdevice (fun _ _ => rfl) fun r t => ?_)
      exact (takeSession_val host t r false).1
    · rw [sendThen_noDevice hdevice]
      exact .inl rfl

theorem oiapCommand_wellFormed : WellFormed oiapCommand.length (tpmRequest 0xc1 0x0a []) oiapCommand :=
  ⟨by decide, by decide, by decide⟩

theorem tpmLoadKey2Oiap_opened (parentHandle : ℕ) (key auth : List UInt8) (wantHandle : Bool)
    (hopen : (openSession host t).val.code = 0) {request : List UInt8}
    (hrequest : loadKeyRequest host parentHandle key = some request) (hdevice : host.device = 0) :
    (tpmLoadKey2Oiap host parentHandle key auth wantHandle t).val.state.sent =
      (openSession host t).val.state.sent ++ [request.take (14 + key.length) ++
        (createRequestAuth host request (14 + key.length) 4 (openSession host t).val.state.session
          auth).2.2] := by
  have hvalid := (openSession_spec host t).2.1 hopen
  unfold tpmLoadKey2Oiap runInSession
  rw [val_bind, if_neg (not_not.mpr hopen), hrequest]
  dsimp only
  rw [runAuthorised_eq hvalid, sendThen_sent hdevice]
  · rfl
  · intro err t
    unfold refuse
    split
    · rfl
    · rfl
  · intro r t
    exact (acceptResponse_out le_rfl).2

theorem loadKeyExpected_eq (parentHandle : ℕ) {key block : List UInt8}
    (hblock : block.length = tpmRequestAuthLength) :
    loadKeyExpected parentHandle key block = loadKeyStart parentHandle key.length ++ key ++ block := by
  have hparams : (be32 parentHandle ++ key ++ block).length = 4 + key.length + tpmRequestAuthLength := by
    rw [length_append, length_append, hblock, length_be32]
  have hsize : 10 + (4 + key.length + tpmRequestAuthLength) = 14 + key.length + tpmRequestAuthLength := by
    lia
  rw [loadKeyExpected, tpmRequest_eq hparams, hsize, loadKeyStart]
  simp only [append_assoc]

def loadKeyAuthorised (host : Host) (parentHandle : ℕ) (key : List UInt8) (session : Session)
    (auth : List UInt8) : List UInt8 :=
  loadKeyExpected parentHandle key
    (authBlock host (loadKeyStart parentHandle key.length ++ key) session auth)

theorem loadKey_wellFormed (hsha : ∀ data, (host.sha1 data).length = digestLength)
    (hvalid : session.valid = true) (parentHandle : ℕ) (key auth rest : List UInt8) :
    WellFormed loadKeyBufferSize (loadKeyAuthorised host parentHandle key session auth)
      ((loadKeyStart parentHandle key.length ++ key.take (key.length % 2 ^ 32) ++ rest).take
          (14 + key.length) ++
        (createRequestAuth host (loadKeyStart parentHandle key.length ++
          key.take (key.length % 2 ^ 32) ++ rest) (14 + key.length) 4 session auth).2.2) ↔
      key.length ≤ tpmKey12MaxLength := by
  have hblock : (authBlock host (loadKeyStart parentHandle key.length ++ key) session auth).length =
      tpmRequestAuthLength := length_authBlock hsha hvalid
  have hexpected : loadKeyExpected parentHandle key _ = _ := loadKeyExpected_eq parentHandle hblock
  have hlength : (loadKeyAuthorised host parentHandle key session auth).length =
      14 + key.length + tpmRequestAuthLength := by
    rw [loadKeyAuthorised, hexpected, length_append, length_append, hblock]
    rfl
  have hmax : tpmKey12MaxLength = 618 := rfl
  have hbuffer : loadKeyBufferSize = 14 + tpmKey12MaxLength + tpmRequestAuthLength := rfl
  constructor
  · intro hformed
    have hinside := hformed.inside
    lia
  · intro hshort
    have hhead : (loadKeyStart parentHandle key.length ++ key).length = 14 + key.length := by
      rw [length_append]
      rfl
    rw [take_of_length_le (show key.length ≤ key.length % 2 ^ 32 by lia), ← hhead, take_left,
      createRequestAuth_append (by lia), ← authBlock, ← hexpected, ← loadKeyAuthorised]
    have hroom : (loadKeyAuthorised host parentHandle key session auth).length ≤ loadKeyBufferSize := by
      lia
    have hformed : WellFormed loadKeyBufferSize (loadKeyAuthorised host parentHandle key session auth)
        (loadKeyAuthorised host parentHandle key session auth ++ []) :=
      wellFormed_append hroom (by decide)
    rwa [append_nil] at hformed

/-- A key is loaded with a well-formed request exactly if there is no device or no session, or the key
is at most as long as the buffer was made for, or its length is seen to be too large. -/
theorem tpmLoadKey2Oiap_sends (hsha : ∀ data, (host.sha1 data).length = digestLength)
    (parentHandle : ℕ) (key auth : List UInt8) (wantHandle : Bool) :
    Sends loadKeyBufferSize
        (loadKeyAuthorised host parentHandle key (openSession host t).val.state.session auth)
        (openSession host t).val.state.sent
        (tpmLoadKey2Oiap host parentHandle key auth wantHandle t).val.code
        (tpmLoadKey2Oiap host parentHandle key auth wantHandle t).val.state.sent ↔
      host.device ≠ 0 ∨ (openSession host t).val.code ≠ 0 ∨ key.length ≤ tpmKey12MaxLength ∨
        loadKeyBufferSize < host.size (14 + key.length % 2 ^ 32) := by
  obtain ⟨rest, hrequest⟩ : ∃ rest, loadKeyRequest host parentHandle key = _ :=
    loadKeyRequest_eq parentHandle key
  by_cases hopen : (openSession host t).val.code = 0
  swap
  · refine iff_of_true ?_ (.inr (.inl hopen))
    unfold tpmLoadKey2Oiap runInSession
    rw [val_bind, if_pos hopen]
    exact sends_error hopen
  by_cases hlong : loadKeyBufferSize < host.size (14 + key.length % 2 ^ 32)
  · refine iff_of_true ?_ (.inr (.inr (.inr hlong)))
    rw [if_pos hlong] at hrequest
    unfold tpmLoadKey2Oiap runInSession
    rw [val_bind, if_neg (not_not.mpr hopen), hrequest]
    exact sends_error (show tpmLibError ≠ 0 by decide)
  rw [if_neg hlong] at hrequest
  have hvalid := (openSession_spec host t).2.1 hopen
  by_cases hdevice : host.device = 0
  · rw [tpmLoadKey2Oiap_opened parentHandle key auth wantHandle hopen hrequest hdevice, sends_iff,
      loadKey_wellFormed hsha hvalid]
    constructor
    · exact fun hshort => .inr (.inr (.inl hshort))
    · rintro (h | h | h | h)
      · exact absurd hdevice h
      · exact absurd hopen h
      · exact h
      · exact absurd h hlong
  · refine iff_of_true ?_ (.inl hdevice)
    unfold tpmLoadKey2Oiap runInSession
    rw [val_bind, if_neg (not_not.mpr hopen), hrequest]
    dsimp only
    rw [runAuthorised_eq hvalid, sendThen_noDevice hdevice]
    refine .inl ⟨hdevice, ?_⟩
    change (refuse host.device _).state.sent = _
    unfold refuse
    split
    · rfl
    · rfl

end Sessions

/- The functions with their arguments; a digest has 20 bytes, a length of data 32 bits. -/
inductive Command where
  | nvDefineSpace (index perm size : ℕ)
  | nvReadValue (index count : ℕ)
  | nvWriteValue (index : ℕ) (data : List UInt8) (short : data.length < 2 ^ 32)
  | extend (index : ℕ) (inDigest : List UInt8) (digest : inDigest.length = pcrDigestLength)
  | pcrRead (index count : ℕ)
  | getCapability (capArea subCap count : ℕ)
  | getPermissions (index : ℕ)
  | terminateAuthSession (authHandle : ℕ)
  | loadKey2Oiap (parentHandle : ℕ) (key parentKeyUsageAuth : List UInt8) (wantHandle : Bool)

/- The call returns an error or sends the expected request out of its buffer. Loading a key may open
a session first, with a request of its own. -/
def Command.Requests (host : Host) (t : State) : Command → Prop
  | .nvDefineSpace index perm size => AnswerSends commandBufferSize (nvDefineExpected index perm size) t
    (tpmNvDefineSpace host index perm size t)
  | .nvReadValue index count =>
    AnswerSends commandBufferSize (nvReadExpected index count) t (tpmNvReadValue host index count t)
  | .nvWriteValue index data _ =>
    AnswerSends commandBufferSize (nvWriteExpected index data) t (tpmNvWriteValue host index data t)
  | .extend index inDigest _ =>
    AnswerSends commandBufferSize (extendExpected index inDigest) t (tpmExtend host index inDigest t)
  | .pcrRead index count =>
    AnswerSends commandBufferSize (pcrReadExpected index) t (tpmPcrRead host index count t)
  | .getCapability capArea subCap count => AnswerSends commandBufferSize
    (capabilityExpected capArea subCap) t (tpmGetCapability host capArea subCap count t)
  | .getPermissions index =>
    AnswerSends commandBufferSize (permissionsExpected index) t (tpmGetPermissions host index t)
  | .terminateAuthSession authHandle => Sends commandBufferSize (terminateExpected authHandle) t.sent
    (tpmTerminateAuthSession host authHandle t).val.1
    (tpmTerminateAuthSession host authHandle t).val.2.sent
  | .loadKey2Oiap parentHandle key auth wantHandle =>
    ((openSession host t).val.state.sent = t.sent ∨
      ∃ request, (openSession host t).val.state.sent = t.sent ++ [request] ∧
        WellFormed oiapCommand.length (tpmRequest 0xc1 0x0a []) request) ∧
    Sends loadKeyBufferSize
      (loadKeyAuthorised host parentHandle key (openSession host t).val.state.session auth)
      (openSession host t).val.state.sent
      (tpmLoadKey2Oiap host parentHandle key auth wantHandle t).val.code
      (tpmLoadKey2Oiap host parentHandle key auth wantHandle t).val.state.sent

def Command.Formed (host : Host) (t : State) : Command → Prop
  | .nvWriteValue _ data _ => host.device ≠ 0 ∨ 22 + data.length < 2 ^ host.sizeBits
  | .getPermissions index => host.device ≠ 0 ∨
    (be32 host.commandAt ++ (host.fresh commandBufferSize).drop 4).take 22 = permissionsExpected index
  | .terminateAuthSession _ => host.device ≠ 0
  | .loadKey2Oiap _ key _ _ => host.device ≠ 0 ∨ (openSession host t).val.code ≠ 0 ∨
    key.length ≤ tpmKey12MaxLength ∨ loadKeyBufferSize < host.size (14 + key.length % 2 ^ 32)
  | .nvDefineSpace .. | .nvReadValue .. | .extend .. | .pcrRead .. | .getCapability .. => True

theorem command_requests {host : Host} (hsha : ∀ data, (host.sha1 data).length = digestLength)
    (t : State) (c : Command) : c.Requests host t ↔ c.Formed host t := by
  cases c with
  | nvDefineSpace index perm size => exact iff_of_true (tpmNvDefineSpace_sends index perm size) trivial
  | nvReadValue index count => exact iff_of_true (tpmNvReadValue_sends index count) trivial
  | nvWriteValue index data short => exact tpmNvWriteValue_sends index short
  | extend index inDigest digest => exact iff_of_true (tpmExtend_sends index digest) trivial
  | pcrRead index count => exact iff_of_true (tpmPcrRead_sends index count) trivial
  | getCapability capArea subCap count =>
    exact iff_of_true (tpmGetCapability_sends capArea subCap count) trivial
  | getPermissions index => exact tpmGetPermissions_sends index
  | terminateAuthSession authHandle => exact tpmTerminateAuthSession_sends authHandle
  | loadKey2Oiap parentHandle key auth wantHandle =>
    have hopened : (openSession host t).val.state.sent = t.sent ∨
        ∃ request, (openSession host t).val.state.sent = t.sent ++ [request] ∧
          WellFormed oiapCommand.length (tpmRequest 0xc1 0x0a []) request :=
      openSession_sent.imp_right fun h => ⟨_, h, oiapCommand_wellFormed⟩
    exact (and_iff_right hopened).trans (tpmLoadKey2Oiap_sends hsha parentHandle key auth wantHandle)

/-- Packing is undone by unpacking exactly if the first field that does not fit is caught, and every
call sends well-formed requests exactly under its condition. -/
theorem requests_wellFormed {bits : ℕ} (size : Fin (2 ^ bits)) (fields : List (Format.Field bits))
    {host : Host} (hsha : ∀ data, (host.sha1 data).length = digestLength) (t : State) (c : Command) :
    (Format.Undoes size fields ↔ Format.Caught size fields) ∧ (c.Requests host t ↔ c.Formed host t) :=
  ⟨Format.undoes_iff size fields, command_requests hsha t c⟩

def silentState : State := ⟨⟨true, 7, [], []⟩, []⟩

theorem requests_wellFormed_silent :
    Format.Undoes (256 : Fin (2 ^ 32)) [.d 254 1] ∧
      (Command.loadKey2Oiap 1 (zeros 618) [] true).Requests silentHost silentState := by
  have hcaught : Format.Caught (256 : Fin (2 ^ 32)) [.d 254 1] := by
    intro f hf
    obtain rfl := Option.some.inj hf
    decide
  have hsha : ∀ data, (silentHost.sha1 data).length = digestLength := fun _ => length_replicate
  have hboth := requests_wellFormed (256 : Fin (2 ^ 32)) [.d 254 1] hsha silentState
    (Command.loadKey2Oiap 1 (zeros 618) [] true)
  refine ⟨hboth.1.mpr hcaught, hboth.2.mpr (.inr (.inr (.inl ?_)))⟩
  rw [length_zeros]
  decide

/- An offset near the end of the space, and the calls that go wrong, on 32 bits. -/
theorem requests_malformed :
    ¬ Format.Undoes (256 : Fin (2 ^ 32)) [.d 0xfffffffe 1] ∧
      ¬ (Command.terminateAuthSession 7).Requests silentHost silentState ∧
      ¬ (Command.getPermissions 7).Requests silentHost silentState ∧
      ¬ (Command.loadKey2Oiap 1 (zeros 619) [] true).Requests silentHost silentState ∧
      ∃ data short, ¬ (Command.nvWriteValue 1 data short).Requests silentHost silentState := by
  have hsha : ∀ data, (silentHost.sha1 data).length = digestLength := fun _ => length_replicate
  have hdevice : ¬ silentHost.device ≠ 0 := not_not.mpr rfl
  refine ⟨?_, ?_, ?_, ?_, zeros (2 ^ 32 - 22), by rw [length_zeros]; decide, ?_⟩
  · rw [Format.undoes_iff]
    intro h
    exact absurd (h _ rfl) (by decide)
  · rw [command_requests hsha]
    exact hdevice
  · rw [command_requests hsha]
    rintro (h | h)
    · exact hdevice h
    · exact absurd h (by decide +kernel)
  · rw [command_requests hsha]
    rintro (h | h | h | h)
    · exact hdevice h
    · exact h rfl
    · rw [length_zeros] at h
      exact absurd h (by decide)
    · rw [length_zeros] at h
      exact absurd h (by decide)
  · rw [command_requests hsha]
    rintro (h | h)
    · exact hdevice h
    · rw [length_zeros] at h
      exact absurd h (by decide)

end UBoot.Tpm
