import UBoot.Fat.Read

/-!
# The slots of a long name (fs/fat/fat.c and fat_write.c)

Records of 32 bytes, which are directory entries or slots of a long name. A slot has 13 characters of
two bytes, of which the code uses the first. `str2slot` fills one, `slot2str` reads it back.
-/

namespace UBoot.Fat

open Memory List

abbrev Text := List UInt8

def vfatMaxlenBytes : ℕ := 256
def vfatMaxseq : ℕ := 9
def lastLongEntryMask : UInt8 := 0x40
def attrVfat : UInt8 := 0x0f
def deletedFlag : UInt8 := 0xe5
def aRING : UInt8 := 0x05

/- `isupper` and `islower` over the table of lib/ctype.c. -/
def isupper (c : UInt8) : Bool := 65 ≤ c && c ≤ 90 || 192 ≤ c && c ≤ 222 && c != 215
def islower (c : UInt8) : Bool := 97 ≤ c && c ≤ 122 || 223 ≤ c && c != 247

def tolower (c : UInt8) : UInt8 := if isupper c then c + 32 else c
def toupper (c : UInt8) : UInt8 := if islower c then c - 32 else c

def downcase (s : Text) : Text := s.map tolower
def uppercase (s : Text) : Text := s.map toupper

/- Record `k` of a buffer. -/
def record (buf : Mem) (k : ℕ) : List UInt8 := bytes buf (32 * k) 32

/- `id & ~LAST_LONG_ENTRY_MASK` of record `k`. -/
def seqOf (buf : Mem) (k : ℕ) : ℕ := (buf (32 * k) &&& 0xbf).toNat

def isLast (buf : Mem) (k : ℕ) : Bool := buf (32 * k) &&& lastLongEntryMask != 0

/- Where the 13 characters of a slot are, `name0_4`, `name5_10` and `name11_12`. -/
def slotChars : List ℕ := [1, 3, 5, 7, 9, 14, 16, 18, 20, 22, 24, 28, 30]

def put (m : Mem) (a : ℕ) (b : UInt8) : Mem := fun x => if x = a then b else m x

/- The name is read on from where it is; the result is whether that is its end. -/
def str2slotFrom : List ℕ → Mem → Text → Bool × Mem × Text
  | [], slot, name => (decide (name = []), slot, name)
  | off :: offs, slot, [] =>
    -- not used characters are filled with 0xff 0xff
    (true, offs.foldl (fun s o => put (put s o 0xff) (o + 1) 0xff)
      (put (put slot off 0) (off + 1) 0), [])
  | off :: offs, slot, c :: name => str2slotFrom offs (put slot off c) name

def str2slot (slot : Mem) (name : Text) : Bool × Mem × Text := str2slotFrom slotChars slot name

/- `base` is the address of the slot; `l_name` has the characters up to `idx`. `none` is a write
behind its end. -/
def slot2strFrom (buf : Mem) (base : ℕ) : List ℕ → Text → Option (Bool × Text)
  | [], lName => some (false, lName)
  | off :: offs, lName =>
    if vfatMaxlenBytes ≤ lName.length then none
    else if buf (base + off) = 0 then some (true, lName)
    else slot2strFrom buf base offs (lName ++ [buf (base + off)])

def slot2str (buf : Mem) (k : ℕ) (lName : Text) : Option (Bool × Text) :=
  slot2strFrom buf (32 * k) slotChars lName

def mkcksum (name : List UInt8) : UInt8 :=
  name.foldl (fun ret c => (((ret &&& 1) <<< 7) ||| ((ret &&& 0xfe) >>> 1)) + c) 0

def slotOf (checksum : UInt8) (id : UInt8) (slot : Mem) : Mem :=
  put (put (put slot 0 id) 11 attrVfat) 13 checksum

/- The `do` loop of `fill_dir_slot`: the slots of a name, the first part of it first. -/
def slotsFrom (checksum : UInt8) : ℕ → ℕ → Text → Option (List Mem)
  | 0, _, _ => none
  | fuel + 1, counter, name =>
    match str2slot (fun _ => 0) name with
    | (true, slot, _) =>
      some [slotOf checksum (UInt8.ofNat (counter + 1) ||| lastLongEntryMask) slot]
    | (false, slot, rest) =>
      (slotsFrom checksum fuel (counter + 1) rest).map
        (slotOf checksum (UInt8.ofNat (counter + 1)) slot :: ·)

def slots (checksum : UInt8) (name : Text) : Option (List Mem) :=
  slotsFrom checksum (name.length + 1) 0 name

section RoundTrip

variable {offs : List ℕ} {slot buf : Mem} {name lName : Text} {base : ℕ}

theorem put_self (m : Mem) (a : ℕ) (b : UInt8) : put m a b a = b := if_pos rfl

theorem put_of_ne {m : Mem} {a x : ℕ} (b : UInt8) (h : x ≠ a) : put m a b x = m x := if_neg h

def Spaced (offs : List ℕ) : Prop := offs.Pairwise fun a b => a + 2 ≤ b

theorem slotChars_spaced : Spaced slotChars := by unfold Spaced; decide

theorem padding_before {s : Mem} {x : ℕ} (h : ∀ o ∈ offs, x < o) :
    offs.foldl (fun s o => put (put s o 0xff) (o + 1) 0xff) s x = s x := by
  induction offs generalizing s with
  | nil => rfl
  | cons o offs ih =>
    have ho := h o mem_cons_self
    rw [foldl_cons, ih fun o' ho' => h o' (mem_cons_of_mem _ ho'),
      put_of_ne _ (by lia), put_of_ne _ (by lia)]

theorem str2slotFrom_before {x : ℕ} (h : ∀ o ∈ offs, x < o) :
    (str2slotFrom offs slot name).2.1 x = slot x := by
  induction offs generalizing slot name with
  | nil => rfl
  | cons o offs ih =>
    have ho := h o mem_cons_self
    have hrest : ∀ o' ∈ offs, x < o' := fun o' ho' => h o' (mem_cons_of_mem _ ho')
    cases name with
    | nil =>
      rw [str2slotFrom]
      simp only
      rw [padding_before hrest, put_of_ne _ (by lia), put_of_ne _ (by lia)]
    | cons c name =>
      rw [str2slotFrom, ih hrest, put_of_ne _ (by lia)]

theorem slot2strFrom_str2slotFrom (hoffs : Spaced offs) (hname : (0 : UInt8) ∉ name)
    (hroom : lName.length + offs.length ≤ vfatMaxlenBytes)
    (hsame : ∀ o ∈ offs, buf (base + o) = (str2slotFrom offs slot name).2.1 o) :
    slot2strFrom buf base offs lName =
      some (decide (name.length < offs.length), lName ++ name.take offs.length) := by
  induction offs generalizing slot name lName with
  | nil => simp [slot2strFrom]
  | cons o offs ih =>
    unfold Spaced at hoffs
    rw [pairwise_cons] at hoffs
    rw [length_cons] at hroom
    have hlater : ∀ o' ∈ offs, o < o' := fun o' ho' => by
      have := hoffs.1 o' ho'
      lia
    have hhere := hsame o mem_cons_self
    rw [slot2strFrom, if_neg (by lia)]
    cases name with
    | nil =>
      have hzero : (str2slotFrom (o :: offs) slot []).2.1 o = 0 := by
        rw [str2slotFrom]
        simp only
        rw [padding_before hlater, put_of_ne _ (by lia), put_self]
      rw [hhere, hzero, if_pos rfl]
      simp
    | cons c name =>
      rw [mem_cons, not_or] at hname
      have hchar : (str2slotFrom (o :: offs) slot (c :: name)).2.1 o = c := by
        rw [str2slotFrom, str2slotFrom_before hlater, put_self]
      have hread := @ih (put slot o c) name (lName ++ [c]) hoffs.2 hname.2
        (by rw [length_append, length_singleton]; lia)
        fun o' ho' => by rw [hsame o' (mem_cons_of_mem _ ho'), str2slotFrom]
      rw [hhere, hchar, if_neg (Ne.symm hname.1), hread]
      simp

theorem str2slotFrom_fst : (str2slotFrom offs slot name).1 = decide (name.length ≤ offs.length) := by
  induction offs generalizing slot name with
  | nil =>
    rw [str2slotFrom]
    cases name with
    | nil => rfl
    | cons c name => rfl
  | cons o offs ih =>
    cases name with
    | nil => simp [str2slotFrom]
    | cons c name =>
      rw [str2slotFrom, ih]
      simp

theorem str2slotFrom_rest : (str2slotFrom offs slot name).2.2 = name.drop offs.length := by
  induction offs generalizing slot name with
  | nil => rfl
  | cons o offs ih =>
    cases name with
    | nil => rfl
    | cons c name =>
      rw [str2slotFrom, ih]
      rfl

end RoundTrip

end UBoot.Fat

/-!
## Reading long names (fs/fat/fat.c and fat_write.c)

`get_vfatname` and `get_long_file_name` walk forward over the slots to the real entry, into the next
cluster of the directory if need be, and backward to gather the name. `none` is a record read outside of
a cluster buffer, or a byte written behind `l_name`.
-/

namespace UBoot.Fat

open Memory

def prefetchBlocks : ℕ := 2

/- Where the walk over the slots ends: in front of record `k`, with `counter` slots to come. -/
inductive Walked where
  | at (k counter : ℕ)
  | wrong
deriving DecidableEq, Repr

/- `limit` is the length of the buffer. -/
def slotWalk (buf : Mem) (limit : ℕ) : ℕ → ℕ → Walked
  | 0, k => .at k 0
  | counter + 1, k =>
    if limit ≤ 32 * k then .at k (counter + 1)
    else if seqOf buf k ≠ counter + 1 then .wrong
    else slotWalk buf limit counter (k + 1)

def blockWalk (buf : Mem) (limit : ℕ) : ℕ → ℕ → Option Walked
  | 0, k => if limit ≤ 32 * k then none else some (.at k 0)
  | counter + 1, k =>
    if limit ≤ 32 * k then none
    else if seqOf buf k ≠ counter + 1 then some .wrong
    else blockWalk buf limit counter (k + 1)

/- The slots of the next cluster in front of record `k`, all of them. -/
def blockNames (buf : Mem) : ℕ → Text → Option Text
  | 0, lName => some lName
  | k + 1, lName =>
    match slot2str buf k lName with
    | none => none
    | some (_, lName) => blockNames buf k lName

/- The `do` loop. -/
def backWalk (buf : Mem) : ℕ → Text → Option Text
  | 0, _ => none
  | k + 1, lName =>
    match slot2str buf k lName with
    | none => none
    | some (true, lName) => some lName
    | some (false, lName) => if isLast buf k then some lName else backWalk buf k lName

/- From `l_name[idx] = '\0'` on. -/
def finishName (lName : Text) : Option Text :=
  if vfatMaxlenBytes ≤ lName.length then none
  else
    match lName with
    | [] => some []
    | c :: rest =>
      if c = deletedFlag then some []
      else if c = aRING then some (downcase (deletedFlag :: rest))
      else some (downcase lName)

/- The name whose real entry is record `k` of the same buffer. -/
def nameHere (cluster : Mem) (k : ℕ) : Option Text := (backWalk cluster k []).bind finishName

/- The name whose real entry is record `k` of the next cluster. -/
def nameAcross (cluster : Mem) (front : ℕ) (block : Mem) (k : ℕ) : Option Text :=
  ((blockNames block k []).bind fun lName => backWalk cluster front lName).bind finishName

namespace FsData

/- `answers` says for which clusters the device gives the sectors. -/
variable (v : FsData) (answers : ℕ → Bool)

/- `buflimit - cluster` -/
def nameLimit (curclust : ℕ) : ℕ :=
  if curclust = 0 then v.sectSize * prefetchBlocks else v.bytesperclust

def dirBlock (disk : Mem) (clust : ℕ) : Mem :=
  v.getCluster disk (fun _ => 0) clust 0 v.bytesperclust

/- -1 is the inner `none`; else the name and what is copied to `retdent`. -/
def getVfatname (w : World) (curclust : ℕ) (cluster : Mem) (retdent : ℕ) :
    Option (Option (Text × List UInt8) × World) :=
  let counter := seqOf cluster retdent
  if vfatMaxseq < counter then some (none, w)
  else
    match slotWalk cluster (v.nameLimit curclust) counter retdent with
    | .wrong => some (none, w)
    | .at k counter =>
      if 32 * k < v.nameLimit curclust then
        (nameHere cluster k).map fun name => (some (name, record cluster k), w)
      else if curclust = 0 then some (none, w)
      else
        let (next, w₁) := v.getFatent w curclust
        if v.checkClust next then some (none, w₁)
        else if answers next = false then some (none, w₁)
        else
          let block := v.dirBlock w₁.disk next
          match blockWalk block v.bytesperclust counter 0 with
          | none => none
          | some .wrong => some (none, w₁)
          | some (.at k₂ _) =>
            (nameAcross cluster k block k₂).map fun name => (some (name, record block k₂), w₁)

/- `get_dentfromdir_block`, `dir_curclust` and the FAT. -/
structure Dir where
  world : World
  block : Mem
  dirCurclust : ℕ

/- -1 is the inner `none`; else the name and the record of `get_dentfromdir_block` that `retdent` is. -/
def getLongFileName (d : Dir) (curclust retdent : ℕ) : Option (Option (Text × ℕ) × Dir) :=
  let counter := seqOf d.block retdent
  if vfatMaxseq < counter then some (none, d)
  else
    match slotWalk d.block (v.nameLimit curclust) counter retdent with
    | .wrong => some (none, d)
    | .at k counter =>
      if 32 * k < v.nameLimit curclust then
        (nameHere d.block k).map fun name => (some (name, k), d)
      else if curclust = 0 then some (none, d)
      else
        let (next, w₁) := v.getFatentValue d.world d.dirCurclust
        if v.checkClust next then some (none, { d with world := w₁ })
        else
          let d₁ := { d with world := w₁, dirCurclust := next }
          if answers next = false then some (none, d₁)
          else
            let block := v.dirBlock w₁.disk next
            match blockWalk block v.bytesperclust counter 0 with
            | none => none
            | some .wrong => some (none, d₁)
            | some (.at k₂ _) =>
              (nameAcross d.block k block k₂).map fun name =>
                (some (name, k₂), { d₁ with block := block })

end FsData

end UBoot.Fat
