import UBoot.Fat.LongName

/-!
# Looking a name up in a directory (fs/fat/fat.c and fat_write.c)

`get_dentfromdir` and `find_directory_entry` read one cluster of the directory after another. What a
cluster does to the search is one function, so that the loop over the clusters is only the chain.
-/

namespace UBoot.Fat

open Memory

def attrVolume : UInt8 := 8

def attrOf (buf : Mem) (k : ℕ) : UInt8 := buf (32 * k + 11)

/- `get_name` -/
def getName (buf : Mem) (k : ℕ) : Text :=
  let base := (bytes buf (32 * k) 8).takeWhile fun c => c != 0 && c != 32
  let ext := (bytes buf (32 * k + 8) 3).takeWhile fun c => c != 0 && c != 32
  let sName := if ext = [] then base else base ++ 46 :: ext
  match sName with
  | [] => []
  | c :: rest =>
    if c = deletedFlag then []
    else if c = aRING then downcase (deletedFlag :: rest)
    else downcase sName

/- What a record does to a search: it goes on behind it, it ends, or it is the one. -/
inductive Seen (α : Type) where
  | next (state : α)
  | null (state : α)
  | found (state : α)

inductive Left (α : Type) where
  | chain (state : α)
  | null (state : α)
  | found (state : α)

namespace FsData

variable (v : FsData) (answers : ℕ → Bool)

def direntsperclust : ℕ := v.bytesperclust / 32

/- The FAT, `get_dentfromdir_block` and `prevcksum`. -/
structure Scan where
  world : World
  block : Mem
  prevcksum : ℕ

/- The name of the slots, and the real entry put over the first one. `none` is an access outside of
the buffers. -/
def dentNamed (curclust : ℕ) (volume : Bool) (s : Scan) (i : ℕ) : Option (Text × Scan) :=
  if volume then
    (v.getVfatname answers s.world curclust s.block i).map fun r =>
      let prevcksum := (s.block (32 * i + 13)).toNat
      match r with
      | (some (lName, dent), w) => (lName, ⟨w, store s.block (32 * i) dent, prevcksum⟩)
      | (none, w) => ([], ⟨w, s.block, prevcksum⟩)
  else some ([], s)

def dentSeen (filename : Text) (dols volume : Bool) (lName : Text) (s : Scan) (i : ℕ) : Seen Scan :=
  if volume && dols then .next s
  else if s.block (32 * i) = 0 then .null s
  else if dols && decide ((mkcksum (bytes s.block (32 * i) 11)).toNat = s.prevcksum) then
    .next { s with prevcksum := 0xffff }
  else if dols then .next s
  else if filename ≠ getName s.block i ∧ filename ≠ lName then .next s
  else .found s

/- Record `i` of the cluster. -/
def dentStep (curclust : ℕ) (filename : Text) (dols : Bool) (s : Scan) (i : ℕ) :
    Option (Seen Scan) :=
  if s.block (32 * i) = deletedFlag then some (.next s)
  else
    let volume := attrOf s.block i &&& attrVolume != 0
    let long := attrOf s.block i &&& attrVfat == attrVfat && isLast s.block i
    if volume && !long then some (.next s)
    else
      (v.dentNamed answers curclust volume s i).map fun (lName, s) =>
        dentSeen filename dols volume lName s i

/- `n` more records. -/
def dentLoop (curclust : ℕ) (filename : Text) (dols : Bool) :
    ℕ → Scan → ℕ → Option (Left (Scan × ℕ))
  | 0, s, i => some (.chain (s, i))
  | n + 1, s, i =>
    match v.dentStep answers curclust filename dols s i with
    | none => none
    | some (.next s) => dentLoop curclust filename dols n s (i + 1)
    | some (.null s) => some (.null (s, i))
    | some (.found s) => some (.found (s, i))

/- The records of a cluster, and the FAT for the next one. With a state goes the cluster to come, or the
record that is found. -/
def dentCluster (filename : Text) (dols : Bool) (s : Scan) (curclust : ℕ) :
    Option (Left (Scan × ℕ)) :=
  if answers curclust = false then some (.null (s, 0))
  else
    let s := { s with block := v.dirBlock s.world.disk curclust }
    match v.dentLoop answers curclust filename dols v.direntsperclust s 0 with
    | some (.chain (s, i)) =>
      let (next, w) := v.getFatent s.world curclust
      if v.checkClust next then some (.null ({ s with world := w }, i))
      else some (.chain ({ s with world := w }, next))
    | left => left

/- The result is NULL or the entry. `none`: no result within the fuel, or an access outside of the
buffers. -/
def getDentfromdir (filename : Text) (dols : Bool) : ℕ → Scan → ℕ → Option (Option (List UInt8))
  | 0, _, _ => none
  | fuel + 1, s, curclust =>
    match v.dentCluster answers filename dols s curclust with
    | none => none
    | some (.null _) => some none
    | some (.found (s, i)) => some (some (record s.block i))
    | some (.chain (s, next)) => getDentfromdir filename dols fuel s next

/- The name of a long entry moves `dentptr`, into the next cluster perhaps. -/
def entryNamed (curclust : ℕ) (volume : Bool) (d : Dir) (dentptr : ℕ) : Option (Text × Dir × ℕ) :=
  if volume then
    (v.getLongFileName answers d curclust dentptr).map fun r =>
      match r with
      | (some (lName, k), d) => (lName, d, k)
      | (none, d) => ([], d, dentptr)
  else some ([], d, dentptr)

def entrySeen (filename lName : Text) (d : Dir) (k : ℕ) : Seen (Dir × ℕ) :=
  if d.block (32 * k) = 0 then .null (d, k)
  else if filename ≠ getName d.block k ∧ filename ≠ lName then .next (d, k + 1)
  else .found (d, k)

/- Record `dentptr`. -/
def entryStep (curclust : ℕ) (filename : Text) (d : Dir) (dentptr : ℕ) :
    Option (Seen (Dir × ℕ)) :=
  if d.block (32 * dentptr) = deletedFlag then some (.next (d, dentptr + 1))
  else
    let volume := attrOf d.block dentptr &&& attrVolume != 0
    let long := attrOf d.block dentptr &&& attrVfat != 0 && isLast d.block dentptr
    if volume && !long then some (.next (d, dentptr + 1))
    else
      (v.entryNamed answers curclust volume d dentptr).map fun (lName, d, k) =>
        entrySeen filename lName d k

def entryLoop (curclust : ℕ) (filename : Text) : ℕ → Dir → ℕ → Option (Left (Dir × ℕ))
  | 0, d, dentptr => some (.chain (d, dentptr))
  | n + 1, d, dentptr =>
    match v.entryStep answers curclust filename d dentptr with
    | none => none
    | some (.next (d, k)) =>
      if v.bytesperclust ≤ 32 * k then some (.chain (d, k)) else entryLoop curclust filename n d k
    | some (.null (d, k)) => some (.null (d, k))
    | some (.found (d, k)) => some (.found (d, k))

/- `IS_LAST_CLUST` -/
def isLastClust (x : ℕ) : Bool :=
  match v.fatsize with
  | .fat12 => decide (0xff8 ≤ x)
  | .fat16 => decide (0xfff8 ≤ x)
  | .fat32 => decide (0xffffff8 ≤ x)

/- `(int)curclust <= 1` -/
def inRootDir (curclust : ℕ) : Bool := decide (curclust ≤ 1 ∨ 2 ^ 31 ≤ curclust)

/- How a search ends: at a record of `get_dentfromdir_block`, or with NULL and `empty_dentptr`, which
stays what it is when a cluster cannot be read or the FAT leads nowhere. -/
inductive Looked where
  | entry (d : Dir) (k : ℕ)
  | absent (d : Dir) (emptyDentptr : Option ℕ)

def Looked.dir : Looked → Dir
  | .entry d _ => d
  | .absent d _ => d

def entryCluster (filename : Text) (d : Dir) (curclust : ℕ) : Option (Looked ⊕ Dir × ℕ) :=
  if answers curclust = false then some (.inl (.absent d none))
  else
    let d := { d with block := v.dirBlock d.world.disk curclust, dirCurclust := curclust }
    match v.entryLoop answers curclust filename v.direntsperclust d 0 with
    | none => none
    | some (.null (d, k)) => some (.inl (.absent d (some k)))
    | some (.found (d, k)) => some (.inl (.entry d k))
    | some (.chain (d, k)) =>
      if v.fatsize ≠ .fat32 ∧ inRootDir curclust then
        let next := (curclust + 1) % 2 ^ 32
        if inRootDir next then some (.inr (d, next)) else some (.inl (.absent d (some k)))
      else
        let (next, w) := v.getFatentValue d.world d.dirCurclust
        if v.isLastClust next then some (.inl (.absent { d with world := w } (some k)))
        else if v.checkClust next then some (.inl (.absent { d with world := w } none))
        else some (.inr ({ d with world := w }, next))

/- `none`: no result within the fuel, or an access outside of the buffers. -/
def findDirectoryEntry (filename : Text) : ℕ → Dir → ℕ → Option Looked
  | 0, _, _ => none
  | fuel + 1, d, curclust =>
    match v.entryCluster answers filename d curclust with
    | none => none
    | some (.inl looked) => some looked
    | some (.inr (d, next)) => findDirectoryEntry filename fuel d next

end FsData

end UBoot.Fat
