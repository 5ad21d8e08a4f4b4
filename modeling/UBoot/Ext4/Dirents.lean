import Mathlib.Data.List.GetD
import UBoot.Lib.LittleEndian
import UBoot.Lib.Memory
import UBoot.Lib.Walks

/-!
# Directory blocks (fs/ext4/ext4_common.c)

`check_filename` takes a name out of a block and `ext4fs_update_parent_dentry` puts one into the
last block of a directory whose blocks are direct ones. A block is the memory from its buffer on;
the journal is written as it should be.
-/

namespace UBoot.Ext4

open Memory LittleEndian Function List Nat Option

section Fields

variable (b : Mem) (o : ℕ)

def inodeAt : ℕ := leValue (bytes b o 4)
def direntlen : ℕ := leValue (bytes b (o + 4) 2)
def namelen : ℕ := (b (o + 6)).toNat

def setDirentlen (len : ℕ) : Mem := store b (o + 4) (leBytes 2 len)

end Fields

def paddingFactor (n : ℕ) : ℕ := if n % 4 ≠ 0 then 4 - n % 4 else 0

def direntSize (n : ℕ) : ℕ := 8 + n + paddingFactor n

def filetypeReg : UInt8 := 1

inductive Checked where
  | found (b : Mem) (inodeno : ℕ)
  -- `previous_dir` is NULL
  | first
  | absent

def takeOut (b : Mem) (o : ℕ) : Option ℕ → Checked
  | none => .first
  | some p =>
    let b := setDirentlen b p (direntlen b p + direntlen b o)
    .found (store b o [0, 0, 0, 0]) (inodeAt b o)

section Walk

variable (blksz : ℕ) (b : Mem) (filename : List UInt8)

def nameMatches (o : ℕ) : Bool :=
  decide (filename.length = namelen b o) && bytes b (o + 8) filename.length == filename

/- `none` outside of the block. -/
def checkFilename : ℕ → Option ℕ × ℕ → Option Checked
  | 0, _ => none
  | n + 1, (previous, o) =>
    if blksz < o + 8 then none
    else if nameMatches b filename o then some (takeOut b o previous)
    else if blksz - o = direntlen b o then some .absent
    else checkFilename n (some o, o + direntlen b o)

inductive Spot where
  -- the block, and where the new entry is and how long
  | at (b : Mem) (o len : ℕ)
  | full (padding : ℕ)

/- `check_void_in_dentry` is the last case before the walk goes on. -/
def updateWalk (namelength padding : ℕ) : ℕ → ℕ → Option Spot
  | 0, _ => none
  | n + 1, o =>
    let size := direntSize (namelen b o)
    if blksz < o + 8 then none
    else if direntlen b o = 0 then some (.at b o (blksz - o))
    else if blksz - o = direntlen b o then
      let reqd := namelength + 8 + (if namelength % 4 ≠ 0 then 4 - namelength % 4 else padding)
      if size ≤ blksz - o ∧ blksz - o - size < reqd then some (.full (paddingFactor (namelen b o)))
      else some (.at (setDirentlen b o size) (o + size) (blksz - (o + size)))
    else if size + direntSize namelength ≤ direntlen b o then
      some (.at (setDirentlen b o size) (o + size) (direntlen b o - size))
    else updateWalk namelength padding n (o + direntlen b o)

def newDirent (o inodeno len : ℕ) : Mem :=
  store b o (leBytes 4 inodeno ++ leBytes 2 len ++
    [UInt8.ofNat filename.length, filetypeReg] ++ filename)

end Walk

def firstFree (blocks : ℕ → ℕ) : ℕ → ℕ → ℕ
  | 0, i => i
  | m + 1, i => if blocks i = 0 then i else firstFree blocks m (i + 1)

structure Directory where
  disk : ℕ → Mem
  blocks : ℕ → ℕ

/- From `restart` on; `n` bounds the passes and `call` counts the new blocks. `none` when no entry is
made. -/
def updateParentDentry (blksz : ℕ) (newBlk : ℕ → Option ℕ) (newIno : Option ℕ)
    (filename : List UInt8) : ℕ → ℕ → ℕ → ℕ → Directory → Option (Directory × ℕ)
  | 0, _, _, _, _ => none
  | n + 1, call, padding, first, d =>
    let idx := firstFree d.blocks 12 0
    if idx = 0 then none
    else
      let first := if idx < 12 then d.blocks (idx - 1) else first
      match updateWalk blksz (d.disk first) filename.length padding (blksz + 1) 0 with
      | none => none
      | some (.at b o len) => newIno.map fun inodeno =>
        ({ d with disk := update d.disk first (newDirent b filename o inodeno len) }, inodeno)
      | some (.full padding) =>
        if idx = 11 then none
        else match newBlk call with
          | none => none
          | some k => updateParentDentry blksz newBlk newIno filename n (call + 1) padding first
            ⟨update d.disk k fun _ => 0, update d.blocks idx k⟩

structure Entry where
  inode : ℕ
  len : ℕ
  name : List UInt8

structure EntryAt (b : Mem) (o : ℕ) (e : Entry) : Prop where
  inode : inodeAt b o = e.inode
  len : direntlen b o = e.len
  length : namelen b o = e.name.length
  name : bytes b (o + 8) e.name.length = e.name
  aligned : e.len % 4 = 0
  fits : 8 + e.name.length ≤ e.len

/- The entries from `o` up to `stop`. -/
def Laid (b : Mem) : ℕ → List Entry → ℕ → Prop
  | o, [], stop => o = stop
  | o, e :: es, stop => EntryAt b o e ∧ Laid b (o + e.len) es stop

def live (es : List Entry) : List (List UInt8 × ℕ) :=
  (es.filter fun e => e.inode ≠ 0).map fun e => (e.name, e.inode)

section Laid

variable {b b' : Mem} {o mid stop : ℕ} {e : Entry} {es fs : List Entry}

theorem direntSize_mod (n : ℕ) : direntSize n % 4 = 0 := by
  rw [direntSize, paddingFactor]
  split <;> lia

theorem EntryAt.size_le (h : EntryAt b o e) : direntSize e.name.length ≤ e.len := by
  have := h.aligned
  have := h.fits
  rw [direntSize, paddingFactor]
  split <;> lia

theorem EntryAt.congr (h : EntryAt b o e)
    (hb : ∀ x, o ≤ x → x < o + (8 + e.name.length) → b x = b' x) : EntryAt b' o e := by
  obtain ⟨hinode, hlen, hnamelen, hname, haligned, hfits⟩ := h
  refine ⟨?_, ?_, ?_, ?_, haligned, hfits⟩
  · rw [← hinode, inodeAt, inodeAt, bytes_congr o 4 (fun x h₁ h₂ => hb x h₁ (by lia))]
  · rw [← hlen, direntlen, direntlen,
      bytes_congr (o + 4) 2 (fun x h₁ h₂ => hb x (by lia) (by lia))]
  · rw [← hnamelen, namelen, namelen, hb _ (by lia) (by lia)]
  · rw [← bytes_congr (o + 8) _ (fun x h₁ h₂ => hb x (by lia) (by lia)), hname]

theorem Laid.le (h : Laid b o es stop) : o ≤ stop := by
  induction es generalizing o with
  | nil => exact Nat.le_of_eq h
  | cons e es ih =>
    have := ih h.2
    lia

theorem Laid.congr (h : Laid b o es stop) (hb : ∀ x, o ≤ x → x < stop → b x = b' x) :
    Laid b' o es stop := by
  induction es generalizing o with
  | nil => exact h
  | cons e es ih =>
    have hle := Laid.le h.2
    have hfits := h.1.fits
    exact ⟨h.1.congr fun x h₁ h₂ => hb x h₁ (by lia), ih h.2 fun x h₁ h₂ => hb x (by lia) h₂⟩

theorem laid_append : Laid b o (es ++ fs) stop ↔ ∃ mid, Laid b o es mid ∧ Laid b mid fs stop := by
  induction es generalizing o with
  | nil => simp [Laid]
  | cons e es ih => simp only [cons_append, Laid, ih, and_assoc, exists_and_left]

theorem EntryAt.unique {e' : Entry} (h : EntryAt b o e) (h' : EntryAt b o e') : e = e' := by
  have hlength : e.name.length = e'.name.length := by rw [← h.length, h'.length]
  have hname := h'.name
  rw [← hlength, h.name] at hname
  have hinode := h.inode.symm.trans h'.inode
  have hlen := h.len.symm.trans h'.len
  cases e
  cases e'
  simp_all

theorem Laid.unique (h : Laid b o es stop) (h' : Laid b o fs stop) : es = fs := by
  induction es generalizing o fs with
  | nil =>
    cases fs with
    | nil => rfl
    | cons f fs =>
      have hle := Laid.le h'.2
      have hfits := h'.1.fits
      rw [show o = stop from h] at hle
      lia
  | cons e es ih =>
    cases fs with
    | nil =>
      have hle := Laid.le h.2
      have hfits := h.1.fits
      rw [show o = stop from h'] at hle
      lia
    | cons f fs =>
      obtain rfl := h.1.unique h'.1
      rw [ih h.2 h'.2]

theorem bytes_store_part (xs ys zs : List UInt8) :
    bytes (store b o (xs ++ ys ++ zs)) (o + xs.length) ys.length = ys := by
  rw [append_assoc, store_append, store_append, bytes_store_apart _ _ _ _ _ (by lia),
    bytes_store_same]

theorem EntryAt.cut (h : EntryAt b o e) {len : ℕ} (hfits : 8 + e.name.length ≤ len)
    (haligned : len % 4 = 0) (hlt : len < 2 ^ 16) :
    EntryAt (setDirentlen b o len) o { e with len := len } := by
  have hapart : ∀ x, x < o + 4 ∨ o + 6 ≤ x → setDirentlen b o len x = b x := by
    intro x hx
    exact store_outside _ _ _ (by rw [length_leBytes]; lia)
  refine ⟨?_, ?_, ?_, ?_, haligned, hfits⟩
  · rw [← h.inode, inodeAt, inodeAt, bytes_congr o 4 (fun x _ _ => hapart x (by lia))]
  · have hsame := bytes_store_same b (o + 4) (leBytes 2 len)
    rw [length_leBytes] at hsame
    rw [direntlen, setDirentlen, hsame, leValue_leBytes, mod_eq_of_lt (by lia)]
  · rw [← h.length, namelen, namelen, hapart _ (by lia)]
  · rw [bytes_congr (o + 8) _ (fun x _ _ => hapart x (by lia))]
    exact h.name

theorem direntlen_new (name : List UInt8) (ino len : ℕ) :
    direntlen (newDirent b name o ino len) o = len % 2 ^ 16 := by
  have h := @bytes_store_part b o (leBytes 4 ino) (leBytes 2 len)
    ([UInt8.ofNat name.length, filetypeReg] ++ name)
  rw [length_leBytes, length_leBytes, ← append_assoc] at h
  rw [direntlen, newDirent, h, leValue_leBytes]
  rfl

theorem entryAt_new {name : List UInt8} {ino len : ℕ} (hname : name.length < 2 ^ 8)
    (hino : ino < 2 ^ 32) (hlen : len < 2 ^ 16) (hfits : 8 + name.length ≤ len)
    (haligned : len % 4 = 0) : EntryAt (newDirent b name o ino len) o ⟨ino, len, name⟩ := by
  have hpart := fun xs ys zs => @bytes_store_part b o xs ys zs
  refine ⟨?_, ?_, ?_, ?_, haligned, hfits⟩
  · have h := hpart [] (leBytes 4 ino)
      (leBytes 2 len ++ [UInt8.ofNat name.length, filetypeReg] ++ name)
    rw [length_leBytes] at h
    rw [inodeAt, newDirent, append_assoc, append_assoc]
    simp only [nil_append, length_nil, Nat.add_zero, append_assoc] at h
    rw [h, leValue_leBytes, mod_eq_of_lt (by lia)]
  · rw [direntlen_new, mod_eq_of_lt hlen]
  · have h := hpart (leBytes 4 ino ++ leBytes 2 len) [UInt8.ofNat name.length] (filetypeReg :: name)
    simp only [length_append, length_leBytes, append_assoc, singleton_append,
      length_singleton, bytes_succ, bytes_zero, List.cons.injEq, and_true] at h
    rw [namelen, newDirent]
    simp only [append_assoc, cons_append, nil_append]
    rw [h, UInt8.toNat_ofNat', mod_eq_of_lt hname]
  · have h := hpart (leBytes 4 ino ++ leBytes 2 len ++ [UInt8.ofNat name.length, filetypeReg]) name []
    rw [append_nil] at h
    simp only [length_append, length_leBytes, length_cons, length_nil] at h
    exact h

theorem EntryAt.len_lt (h : EntryAt b o e) : e.len < 2 ^ 16 := by
  have hlt := leValue_lt (bytes b (o + 4) 2)
  rw [Memory.length_bytes] at hlt
  rw [← h.len, direntlen]
  lia

def endOf (o : ℕ) (es : List Entry) : ℕ := o + (es.map Entry.len).sum

def lastOf : Option ℕ → ℕ → List Entry → Option ℕ
  | previous, _, [] => previous
  | _, o, e :: es => lastOf (some o) (o + e.len) es

theorem endOf_cons : endOf o (e :: es) = endOf (o + e.len) es := by
  simp [endOf, Nat.add_assoc]

theorem Laid.end_eq (h : Laid b o es stop) : stop = endOf o es := by
  induction es generalizing o with
  | nil => exact h.symm
  | cons e es ih => rw [ih h.2, endOf_cons]

theorem lastOf_append (previous : Option ℕ) : lastOf previous o (es ++ [e]) = some (endOf o es) := by
  induction es generalizing o previous with
  | nil => rfl
  | cons f es ih => rw [cons_append, lastOf, ih, endOf_cons]

end Laid

section Remove

variable {blksz : ℕ} {b : Mem} {name : List UInt8} {o : ℕ} {e p : Entry} {es fs gs : List Entry}

theorem nameMatches_iff (h : EntryAt b o e) : nameMatches b name o = true ↔ e.name = name := by
  rw [nameMatches, h.length, Bool.and_eq_true, decide_eq_true_eq, beq_iff_eq]
  constructor
  · intro hm
    rw [← hm.2, hm.1, h.name]
  · intro hm
    rw [← hm]
    exact ⟨rfl, h.name⟩

theorem checkFilename_mono {n m : ℕ} {s : Option ℕ × ℕ} {r : Checked}
    (h : checkFilename blksz b name n s = some r) (hle : n ≤ m) :
    checkFilename blksz b name m s = some r := by
  induction n generalizing m s with
  | zero => cases h
  | succ n ih =>
    cases m with
    | zero => lia
    | succ m =>
      obtain ⟨previous, o⟩ := s
      rw [checkFilename] at h ⊢
      by_cases hout : blksz < o + 8
      · rw [if_pos hout] at h
        cases h
      rw [if_neg hout] at h ⊢
      by_cases hname : nameMatches b name o = true
      · rwa [if_pos hname] at h ⊢
      rw [if_neg hname] at h ⊢
      by_cases hlast : blksz - o = direntlen b o
      · rwa [if_pos hlast] at h ⊢
      rw [if_neg hlast] at h ⊢
      exact ih h (by lia)

theorem checkFilename_cons {n : ℕ} {previous : Option ℕ} (h : Laid b o (e :: es) blksz)
    (hes : es ≠ []) (hname : e.name ≠ name) :
    checkFilename blksz b name (n + 1) (previous, o) =
      checkFilename blksz b name n (some o, o + e.len) := by
  have hfits := h.1.fits
  obtain ⟨f, es, rfl⟩ := exists_cons_of_ne_nil hes
  have hle := Laid.le h.2.2
  have hfits' := h.2.1.fits
  rw [checkFilename, if_neg (by lia), if_neg (mt (nameMatches_iff h.1).mp hname), h.1.len,
    if_neg (by lia)]

theorem checkFilename_found (h : Laid b o (fs ++ e :: gs) blksz) (hfs : ∀ x ∈ fs, x.name ≠ name)
    (he : e.name = name) {n : ℕ} (hn : fs.length < n) (previous : Option ℕ) :
    checkFilename blksz b name n (previous, o) =
      some (takeOut b (endOf o fs) (lastOf previous o fs)) := by
  induction fs generalizing o n previous with
  | nil =>
    obtain _ | n := n
    · lia
    have hle := Laid.le h.2
    have hfits := h.1.fits
    rw [checkFilename, if_neg (by lia), if_pos ((nameMatches_iff h.1).mpr he)]
    rfl
  | cons f fs ih =>
    obtain _ | n := n
    · lia
    rw [checkFilename_cons h (by simp) (hfs f mem_cons_self),
      ih h.2 (fun x hx => hfs x (mem_cons_of_mem _ hx)) (lt_of_succ_lt_succ hn), endOf_cons]
    rfl

theorem laid_takeOut (h : Laid b 0 (fs ++ p :: e :: gs) blksz) (hlt : p.len + e.len < 2 ^ 16) :
    Laid (store (setDirentlen b (endOf 0 fs) (p.len + e.len)) (endOf 0 fs + p.len) [0, 0, 0, 0]) 0
      (fs ++ { p with len := p.len + e.len } :: gs) blksz := by
  obtain ⟨q, hfs, hp, he, hgs⟩ := laid_append.mp h
  obtain rfl := hfs.end_eq
  have hpfits := hp.fits
  have hefits := he.fits
  have hpmod := hp.aligned
  have hemod := he.aligned
  generalize endOf 0 fs = q at *
  have hapart : ∀ x, x < q + 4 ∨ q + 6 ≤ x ∧ x < q + p.len ∨ q + p.len + 4 ≤ x →
      b x = store (setDirentlen b q (p.len + e.len)) (q + p.len) [0, 0, 0, 0] x := by
    intro x hx
    rw [store_outside _ _ _ (by simp only [length_cons, length_nil]; lia), setDirentlen,
      store_outside _ _ _ (by rw [length_leBytes]; lia)]
  rw [laid_append]
  refine ⟨q, hfs.congr fun x _ _ => hapart x (by lia), ?_, ?_⟩
  · apply (hp.cut (by lia) (by lia) hlt).congr
    intro x h₁ h₂
    dsimp only at h₂
    rw [store_outside _ _ _ (by simp only [length_cons, length_nil]; lia)]
  · rw [← Nat.add_assoc]
    exact hgs.congr fun x _ _ => hapart x (by lia)

/- A name can be removed when the first entry that has it is alive, not the first of the block, and
the only one alive that has it; the joint length has 16 bits. -/
def Removable (name : List UInt8) (es : List Entry) : Prop :=
  ∃ fs p e gs, es = fs ++ p :: e :: gs ∧ (∀ x ∈ fs ++ [p], x.name ≠ name) ∧ e.name = name ∧
    e.inode ≠ 0 ∧ name ∉ (live gs).map Prod.fst ∧ p.len + e.len < 2 ^ 16

def Removes (blksz : ℕ) (b : Mem) (name : List UInt8) (es : List Entry) : Prop :=
  ∃ n b' ino, checkFilename blksz b name n (none, 0) = some (.found b' ino) ∧
    ∃ es', Laid b' 0 es' blksz ∧ (live es').Perm ((live es).filter fun x => x.1 ≠ name)

theorem live_append : live (es ++ fs) = live es ++ live fs := by simp [live]

theorem filter_live (h : name ∉ (live es).map Prod.fst) :
    (live es).filter (fun x => x.1 ≠ name) = live es := by
  rw [filter_eq_self]
  intro x hx
  rw [decide_eq_true_eq]
  rintro rfl
  exact h (mem_map_of_mem hx)

theorem removes_iff (hblksz : blksz ≤ 2 ^ 16) (h : Laid b 0 es blksz)
    (hlive : name ∈ (live es).map Prod.fst) : Removes blksz b name es ↔ Removable name es := by
  have hnot : ∀ {xs : List Entry}, (∀ x ∈ xs, x.name ≠ name) → name ∉ (live xs).map Prod.fst := by
    intro xs hxs hmem
    simp only [live, List.map_map, List.mem_map, mem_filter] at hmem
    obtain ⟨x, hx, hname⟩ := hmem
    exact hxs x hx.1 hname
  have hes : es ≠ [] := by
    rintro rfl
    exact not_mem_nil hlive
  have hone : ∀ (x : Entry) (xs : List Entry), live (x :: xs) = live [x] ++ live xs :=
    fun x xs => @live_append [x] xs
  constructor
  · intro hremoves
    obtain ⟨n, b', ino, hfound, es', hlaid, hperm⟩ := hremoves
    have hafter : name ∉ (live es').map Prod.fst := by
      rw [(hperm.map Prod.fst).mem_iff]
      simp
    -- the first entry that has the name
    cases hfind : es.find? fun x => decide (x.name = name) with
    | none =>
      rw [find?_eq_none] at hfind
      exact absurd hlive (hnot fun x hx => by simpa using hfind x hx)
    | some e =>
      obtain ⟨he, fs, gs, rfl, hfs⟩ := find?_eq_some_iff_append.mp hfind
      have hfs : ∀ x ∈ fs, x.name ≠ name := fun x hx => by simpa using hfs x hx
      have he : e.name = name := by simpa using he
      have hwalk := checkFilename_found h hfs he
        (show fs.length < max n (fs.length + 1) by lia) none
      rw [checkFilename_mono hfound (le_max_left _ _)] at hwalk
      cases eq_nil_or_concat fs with
      | inl hnil =>
        rw [hnil] at hwalk
        cases hwalk
      | inr hlast =>
        obtain ⟨fs, p, rfl⟩ := hlast
        rw [concat_eq_append] at *
        have hno := hnot hfs
        rw [append_assoc] at h
        rw [lastOf_append] at hwalk
        obtain ⟨q, hfs', hp, hat, hgs⟩ := laid_append.mp h
        obtain rfl := hfs'.end_eq
        have hend : endOf 0 (fs ++ [p]) = endOf 0 fs + p.len := by simp [endOf]
        simp only [takeOut, hend, hp.len, hat.len, some.injEq, Checked.found.injEq] at hwalk
        obtain ⟨rfl, -⟩ := hwalk
        have hle := Laid.le hgs
        have hlt : p.len + e.len < 2 ^ 16 := by
          by_contra hge
          -- the length of the first entry is 0 then
          have hfull : p.len + e.len = 2 ^ 16 := by lia
          have hzero : endOf 0 fs = 0 := by lia
          rw [hfull, hzero] at hlaid
          have hpfits := hp.fits
          have hdirentlen : direntlen (store (setDirentlen b 0 (2 ^ 16)) (0 + p.len)
              [0, 0, 0, 0]) 0 = 0 := by
            have hsame := bytes_store_same b (0 + 4) (leBytes 2 (2 ^ 16))
            rw [direntlen, bytes_store_apart _ _ _ _ _ (by lia), setDirentlen]
            rw [length_leBytes] at hsame
            rw [hsame, leValue_leBytes]
            rfl
          cases es' with
          | nil =>
            have : 0 = blksz := hlaid
            lia
          | cons f es' =>
            have hfits := hlaid.1.fits
            have hlen := hlaid.1.len
            lia
        obtain rfl := (laid_takeOut h hlt).unique hlaid
        rw [live_append, hone, map_append, map_append, mem_append, mem_append] at hafter
        refine ⟨fs, p, e, gs, by rw [append_assoc]; rfl, hfs, he, ?_, ?_, hlt⟩
        · intro hdead
          have hgone : live [e] = [] := by simp [live, hdead]
          rw [live_append, hone, hgone, nil_append, map_append, mem_append] at hlive
          cases hlive with
          | inl hmem => exact hno hmem
          | inr hmem => exact hafter (.inr (.inr hmem))
        · exact fun hmem => hafter (.inr (.inr hmem))
  · intro hremovable
    obtain ⟨fs, p, e, gs, rfl, hfs, he, hinode, hgs, hlt⟩ := hremovable
    have hsplit : fs ++ p :: e :: gs = (fs ++ [p]) ++ e :: gs := by rw [append_assoc]; rfl
    obtain ⟨q, hfs', hp, hat, -⟩ := laid_append.mp h
    obtain rfl := hfs'.end_eq
    have hend : endOf 0 (fs ++ [p]) = endOf 0 fs + p.len := by simp [endOf]
    have hwalk := checkFilename_found (hsplit ▸ h) hfs he (lt_succ_self _) none
    rw [lastOf_append, hend] at hwalk
    simp only [takeOut, hp.len, hat.len] at hwalk
    refine ⟨_, _, _, hwalk, _, laid_takeOut h hlt, ?_⟩
    have hgone : (live [e]).filter (fun x => x.1 ≠ name) = [] := by simp [live, hinode, he]
    have hsame : live [{ p with len := p.len + e.len }] = live [p] := by
      by_cases hdead : p.inode = 0 <;> simp [live, hdead]
    have hbefore := filter_live (hnot hfs)
    rw [live_append, filter_append] at hbefore
    rw [hsplit, live_append, live_append, hone, hsame, hone e, filter_append, live_append,
      filter_append, filter_append, hbefore, hgone, filter_live hgs, nil_append,
      append_assoc]

end Remove

section Insert

variable {blksz : ℕ} {b : Mem} {name : List UInt8} {o : ℕ} {e : Entry} {es fs gs : List Entry}

/- There is room for a name of length `n` behind an entry. -/
def Room (n : ℕ) (e : Entry) : Prop := direntSize e.name.length + direntSize n ≤ e.len

instance (n : ℕ) (e : Entry) : Decidable (Room n e) := inferInstanceAs (Decidable (_ ≤ _))

variable {m n : ℕ}

theorem updateWalk_cons (h : Laid b o (e :: es) blksz) (hroom : ¬Room n e) :
    updateWalk blksz b n 0 (m + 1) o =
      if es = [] then some (.full (paddingFactor e.name.length))
      else updateWalk blksz b n 0 m (o + e.len) := by
  have hfits := h.1.fits
  have hsize := h.1.size_le
  have hle := Laid.le h.2
  rw [Room, direntSize.eq_def n, paddingFactor] at hroom
  rw [updateWalk]
  simp only [h.1.len, h.1.length]
  rw [if_neg (by lia), if_neg (by lia)]
  cases es with
  | nil =>
    have hstop : o + e.len = blksz := h.2
    rw [if_pos (by lia), if_pos (by lia), if_pos rfl]
  | cons f es =>
    have hle' := Laid.le h.2.2
    have hfits' := h.2.1.fits
    rw [if_neg (by lia), direntSize.eq_def n, paddingFactor, if_neg (by lia),
      if_neg (cons_ne_nil _ _)]

theorem updateWalk_room (h : Laid b o (fs ++ e :: gs) blksz) (hfs : ∀ x ∈ fs, ¬Room n x)
    (he : Room n e) (hm : fs.length < m) :
    updateWalk blksz b n 0 m o = some (.at (setDirentlen b (endOf o fs) (direntSize e.name.length))
      (endOf o fs + direntSize e.name.length) (e.len - direntSize e.name.length)) := by
  induction fs generalizing o m with
  | nil =>
    obtain _ | m := m
    · lia
    have hfits := h.1.fits
    have hle := Laid.le h.2
    have hroom := he
    have hend : endOf o [] = o := rfl
    rw [Room, direntSize.eq_def n, paddingFactor] at hroom
    rw [updateWalk, hend]
    simp only [h.1.len, h.1.length]
    rw [if_neg (by lia), if_neg (by lia)]
    by_cases hlast : blksz - o = e.len
    · rw [if_pos hlast, if_neg (by lia), ← Nat.sub_sub, hlast]
    · rw [if_neg hlast]
      exact if_pos he
  | cons f fs ih =>
    obtain _ | m := m
    · lia
    rw [cons_append] at h
    rw [updateWalk_cons h (hfs f mem_cons_self), if_neg (by simp),
      ih h.2 (fun x hx => hfs x (mem_cons_of_mem _ hx)) (lt_of_succ_lt_succ hm), endOf_cons]

theorem updateWalk_full (h : Laid b o es blksz) (hes : es ≠ []) (hall : ∀ x ∈ es, ¬Room n x)
    (hm : es.length ≤ m) : ∃ padding, updateWalk blksz b n 0 m o = some (.full padding) := by
  induction es generalizing o m with
  | nil => exact absurd rfl hes
  | cons e es ih =>
    obtain _ | m := m
    · cases hm
    rw [updateWalk_cons h (hall e mem_cons_self)]
    split
    · exact ⟨_, rfl⟩
    next hnil =>
      exact ih h.2 hnil (fun x hx => hall x (mem_cons_of_mem _ hx)) (le_of_succ_le_succ hm)

theorem laid_insert {ino : ℕ} (hname : name.length < 2 ^ 8) (hino : ino < 2 ^ 32)
    (h : Laid b 0 (fs ++ e :: gs) blksz) (he : Room name.length e) :
    Laid (newDirent (setDirentlen b (endOf 0 fs) (direntSize e.name.length)) name
        (endOf 0 fs + direntSize e.name.length) ino (e.len - direntSize e.name.length)) 0
      (fs ++ { e with len := direntSize e.name.length } ::
        ⟨ino, e.len - direntSize e.name.length, name⟩ :: gs) blksz := by
  obtain ⟨q, hfs, hat, hgs⟩ := laid_append.mp h
  obtain rfl := hfs.end_eq
  generalize endOf 0 fs = q at *
  have hlt := hat.len_lt
  have hmod := hat.aligned
  have hfits : ∀ n, 8 + n ≤ direntSize n := by
    intro n
    rw [direntSize]
    lia
  have hsize := hfits e.name.length
  have hnew := hfits name.length
  have hsizemod := direntSize_mod e.name.length
  have hroom : direntSize e.name.length + direntSize name.length ≤ e.len := he
  generalize direntSize e.name.length = size at *
  have hheader : (leBytes 4 ino ++ leBytes 2 (e.len - size) ++
      [UInt8.ofNat name.length, filetypeReg] ++ name).length = 8 + name.length := by
    simp only [length_append, length_leBytes, length_cons, length_nil]
  have hapart : ∀ x, x < q + size ∨ q + e.len ≤ x →
      setDirentlen b q size x = newDirent (setDirentlen b q size) name (q + size) ino
        (e.len - size) x := by
    intro x hx
    rw [newDirent, store_outside _ _ _ (by rw [hheader]; lia)]
  have hold : ∀ x, x < q ∨ q + e.len ≤ x → b x = setDirentlen b q size x := by
    intro x hx
    rw [setDirentlen, store_outside _ _ _ (by rw [length_leBytes]; lia)]
  rw [laid_append]
  refine ⟨q, hfs.congr fun x _ _ => ?_, ?_, ?_, ?_⟩
  · rw [hold x (by lia), hapart x (by lia)]
  · apply (hat.cut hsize hsizemod (by lia)).congr
    intro x h₁ h₂
    dsimp only at h₂
    exact hapart x (by lia)
  · exact entryAt_new hname hino (by lia) (by lia) (by lia)
  · have hend : q + size + (e.len - size) = q + e.len := by lia
    rw [hend]
    exact hgs.congr fun x _ _ => by rw [hold x (by lia), hapart x (by lia)]

/- A directory with the blocks `nums`, which say `es`. -/
structure IsDir (blksz : ℕ) (d : Directory) (nums : List ℕ) (es : ℕ → List Entry) : Prop where
  nonempty : nums ≠ []
  length : nums.length ≤ 12
  nodup : nums.Nodup
  nonzero : 0 ∉ nums
  blocks : ∀ i < 12, d.blocks i = nums.getD i 0
  laid : ∀ k ∈ nums, Laid (d.disk k) 0 (es k) blksz

def allLive (nums : List ℕ) (es : ℕ → List Entry) : List (List UInt8 × ℕ) :=
  nums.flatMap fun k => live (es k)

variable {nums : List ℕ}

theorem firstFree_eq {blocks : ℕ → ℕ} (hzero : 0 ∉ nums)
    (hblocks : ∀ i < 12, blocks i = nums.getD i 0) {i : ℕ} (hm : i + m = 12)
    (hi : i ≤ nums.length) (hlen : nums.length ≤ 12) : firstFree blocks m i = nums.length := by
  induction m generalizing i with
  | zero =>
    rw [firstFree]
    lia
  | succ m ih =>
    rw [firstFree, hblocks i (by lia)]
    by_cases hlt : i < nums.length
    · have hmem := getElem_mem hlt
      rw [getD_eq_getElem _ _ hlt, if_neg fun h : nums[i] = 0 => hzero (h ▸ hmem), ih (by lia) (by lia)]
    · rw [getD_eq_default _ _ (by lia), if_pos rfl]
      lia

theorem IsDir.unique {d : Directory} {nums' : List ℕ} {f g : ℕ → List Entry}
    (h : IsDir blksz d nums f) (h' : IsDir blksz d nums' g) :
    nums = nums' ∧ allLive nums f = allLive nums' g := by
  have hlength : nums.length = nums'.length := by
    rw [← firstFree_eq h.nonzero h.blocks (show 0 + 12 = 12 from rfl) (Nat.zero_le _) h.length,
      firstFree_eq h'.nonzero h'.blocks (show 0 + 12 = 12 from rfl) (Nat.zero_le _) h'.length]
  have hnums : nums = nums' := by
    apply ext_getElem hlength
    intro i h₁ h₂
    have hi := h.length
    rw [← getD_eq_getElem nums 0 h₁, ← getD_eq_getElem nums' 0 h₂,
      ← h.blocks i (by lia), h'.blocks i (by lia)]
  subst hnums
  refine ⟨rfl, ?_⟩
  rw [allLive, allLive, flatMap_congr]
  intro k hk
  rw [(h.laid k hk).unique (h'.laid k hk)]

def Keeps (nums : List ℕ) (d d' : Directory) : Prop :=
  (∀ i < 12, d'.blocks i = d.blocks i) ∧ ∀ k ∈ nums, d'.disk k = d.disk k

theorem updateParentDentry_twelve {d d₀ d' : Directory} {newBlk : ℕ → Option ℕ}
    {newIno : Option ℕ} (hblk : ∀ c k, newBlk c = some k → k ≠ 0 ∧ k ∉ nums) (hzero : 0 ∉ nums)
    (hlen : nums.length = 12) (hblocks : ∀ i < 12, d₀.blocks i = nums.getD i 0)
    {call padding ino : ℕ} (hd : Keeps nums d₀ d)
    (h : updateParentDentry blksz newBlk newIno name n call padding 0 d = some (d', ino)) :
    Keeps nums d₀ d' := by
  induction n generalizing call padding d with
  | zero => cases h
  | succ n ih =>
    have hfree : firstFree d.blocks 12 0 = 12 := by
      rw [← hlen]
      exact firstFree_eq hzero (fun i hi => by rw [hd.1 i hi, hblocks i hi]) (by lia) (by lia)
        (by lia)
    unfold updateParentDentry at h
    simp only [hfree, Nat.lt_irrefl, if_false, show (12 : ℕ) ≠ 0 by decide,
      show (12 : ℕ) ≠ 11 by decide] at h
    split at h
    · cases h
    · obtain ⟨ino', -, heq⟩ := map_eq_some_iff.mp h
      obtain ⟨rfl, -⟩ := Prod.mk.inj heq
      refine ⟨hd.1, fun k hk => ?_⟩
      rw [← hd.2 k hk]
      exact update_of_ne (fun hk0 : k = 0 => hzero (hk0 ▸ hk)) _ _
    · split at h
      · cases h
      next k hk =>
        apply ih _ h
        refine ⟨fun i hi => ?_, fun j hj => ?_⟩
        · rw [← hd.1 i hi]
          exact update_of_ne (by lia) _ _
        · rw [← hd.2 j hj]
          exact update_of_ne (fun hjk : j = k => (hblk _ _ hk).2 (hjk ▸ hj)) _ _

def Inserts (blksz : ℕ) (newBlk : ℕ → Option ℕ) (newIno : Option ℕ) (name : List UInt8)
    (d : Directory) (nums : List ℕ) (es : ℕ → List Entry) : Prop :=
  ∃ n d' ino, updateParentDentry blksz newBlk newIno name n 0 0 0 d = some (d', ino) ∧
    ∃ nums' es', IsDir blksz d' nums' es' ∧
      (allLive nums' es').Perm ((name, ino) :: allLive nums es)

def Insertable (blksz : ℕ) (newBlk : ℕ → Option ℕ) (newIno : Option ℕ) (name : List UInt8)
    (nums : List ℕ) (es : ℕ → List Entry) : Prop :=
  nums.length < 12 ∧ newIno ≠ none ∧
    ((∃ e ∈ es (nums.getD (nums.length - 1) 0), Room name.length e) ∨
      nums.length < 11 ∧ newBlk 0 ≠ none ∧ blksz < 2 ^ 16)

section Dir

variable {d : Directory} {nums : List ℕ} {f : ℕ → List Entry} {newBlk : ℕ → Option ℕ} {ino : ℕ}

theorem updateParentDentry_first {n call first padding last : ℕ} (hzero : 0 ∉ nums)
    (hblocks : ∀ i < 12, d.blocks i = nums.getD i 0) (hne : nums.length ≠ 0) (hlen : nums.length < 12)
    (hlast : nums.getD (nums.length - 1) 0 = last) :
    updateParentDentry blksz newBlk (some ino) name (n + 1) call padding first d =
      match updateWalk blksz (d.disk last) name.length padding (blksz + 1) 0 with
      | none => none
      | some (.at b o len) => some
        ({ d with disk := update d.disk last (newDirent b name o ino len) }, ino)
      | some (.full padding) =>
        if nums.length = 11 then none
        else match newBlk call with
          | none => none
          | some k => updateParentDentry blksz newBlk (some ino) name n (call + 1) padding last
            ⟨update d.disk k fun _ => 0, update d.blocks nums.length k⟩ := by
  have hfree := firstFree_eq hzero hblocks (show 0 + 12 = 12 from rfl) (Nat.zero_le _) hlen.le
  rw [updateParentDentry]
  simp only [hfree, hne, if_false, hlen, if_true, hblocks (nums.length - 1) (by lia), hlast,
    map_some]

theorem Laid.length_le {o stop : ℕ} (h : Laid b o es stop) : o + 8 * es.length ≤ stop := by
  induction es generalizing o with
  | nil => exact Nat.le_of_eq h
  | cons e es ih =>
    have := ih h.2
    have := h.1.fits
    rw [length_cons]
    lia

variable (hd : IsDir blksz d nums f) (hname : name.length < 2 ^ 8) (hino : ino ≠ 0 ∧ ino < 2 ^ 32)

include hd hname hino in
theorem inserts_room {last : ℕ} (hlen : nums.length < 12)
    (hlast : nums.getD (nums.length - 1) 0 = last) (hroom : ∃ e ∈ f last, Room name.length e) :
    Inserts blksz newBlk (some ino) name d nums f := by
  have hpos := length_pos_iff.mpr hd.nonempty
  have hmem : last ∈ nums := by
    rw [← hlast, getD_eq_getElem _ _ (by lia)]
    exact getElem_mem _
  have hlaid := hd.laid last hmem
  -- the first entry with room
  obtain ⟨e, hfind⟩ := isSome_iff_exists.mp
    (find?_isSome.mpr (by simpa using hroom) :
      ((f last).find? fun e => decide (Room name.length e)).isSome = true)
  obtain ⟨he, fs, gs, heq, hfs⟩ := find?_eq_some_iff_append.mp hfind
  have he : Room name.length e := by simpa using he
  rw [heq] at hlaid
  have hcount := hlaid.length_le
  rw [length_append] at hcount
  have hwalk := updateWalk_room hlaid (fun x hx => by simpa using hfs x hx) he
    (show fs.length < blksz + 1 by lia)
  have hrun := @updateParentDentry_first blksz name d nums newBlk ino 0 0 0 0 last hd.nonzero
    hd.blocks (by lia) hlen hlast
  rw [hwalk] at hrun
  refine ⟨1, _, _, hrun, nums, update f last (fs ++
    { e with len := direntSize e.name.length } ::
      ⟨ino, e.len - direntSize e.name.length, name⟩ :: gs), ?_, ?_⟩
  · refine ⟨hd.nonempty, hd.length, hd.nodup, hd.nonzero, hd.blocks, ?_⟩
    intro k hk
    by_cases hkl : k = last
    · subst hkl
      simp only [update_self]
      exact laid_insert hname hino.2 hlaid he
    · simp only [update_of_ne hkl]
      exact hd.laid k hk
  · -- the other blocks say what they said
    obtain ⟨xs, ys, hsplit⟩ := append_of_mem hmem
    have hnodup := hd.nodup
    rw [hsplit, nodup_append, nodup_cons] at hnodup
    have hrest : ∀ zs : List ℕ, last ∉ zs → ∀ g, (zs.flatMap fun k =>
        live (update f last g k)) = zs.flatMap fun k => live (f k) := by
      intro zs hzs g
      apply flatMap_congr
      intro k hk
      rw [update_of_ne fun hkl : k = last => hzs (hkl ▸ hk)]
    have hxs : last ∉ xs := fun hx => hnodup.2.2 last hx last mem_cons_self rfl
    have hsame : live [{ e with len := direntSize e.name.length }] = live [e] := by
      by_cases hdead : e.inode = 0 <;> simp [live, hdead]
    have hnew : live [(⟨ino, e.len - direntSize e.name.length, name⟩ : Entry)] = [(name, ino)] := by
      simp [live, hino.1]
    have hone : ∀ (x : Entry) (xs : List Entry), live (x :: xs) = live [x] ++ live xs :=
      fun x xs => @live_append [x] xs
    rw [allLive, allLive, hsplit, flatMap_append, flatMap_append, flatMap_cons,
      flatMap_cons, hrest xs hxs, hrest ys hnodup.2.1.1, update_self, heq, live_append,
      live_append, hone _ (_ :: gs), hsame, hone _ gs, hnew, hone e gs]
    simp only [append_assoc, singleton_append]
    have hmove := @List.perm_middle _ (name, ino)
      ((xs.flatMap fun k => live (f k)) ++ (live fs ++ live [e]))
      (live gs ++ ys.flatMap fun k => live (f k))
    simpa only [append_assoc, cons_append] using hmove

include hd in
theorem concat_blocks (k : ℕ) :
    ∀ i < 12, update d.blocks nums.length k i = (nums ++ [k]).getD i 0 := by
  intro i hi
  by_cases heq : i = nums.length
  · rw [heq, update_self, getD_append_right _ _ _ _ (Nat.le_refl _), Nat.sub_self]
    rfl
  · rw [update_of_ne heq, hd.blocks i hi]
    by_cases hlt : i < nums.length
    · rw [getD_append _ _ _ _ hlt]
    · rw [getD_eq_default _ _ (by lia), getD_eq_default _ _ (by simp; lia)]

include hd in
theorem updateParentDentry_second {n call padding first k : ℕ} (hlen : nums.length < 11) (hk : k ≠ 0)
    (h8 : 8 ≤ blksz) : updateParentDentry blksz newBlk (some ino) name (n + 1) call padding first
      ⟨update d.disk k fun _ => 0, update d.blocks nums.length k⟩ =
    some (⟨update (update d.disk k fun _ => 0) k
      (newDirent (fun _ => 0) name 0 ino blksz), update d.blocks nums.length k⟩, ino) := by
  have hzero : 0 ∉ nums ++ [k] := by
    rw [mem_append, mem_singleton]
    exact fun h => h.elim hd.nonzero hk.symm
  have hblocks := concat_blocks hd k
  have hlast : (nums ++ [k]).getD ((nums ++ [k]).length - 1) 0 = k := by
    rw [length_append, length_singleton, Nat.add_sub_cancel,
      getD_append_right _ _ _ _ (Nat.le_refl _), Nat.sub_self]
    rfl
  have hwalk : updateWalk blksz (fun _ => 0) name.length padding (blksz + 1) 0 =
      some (.at (fun _ => 0) 0 blksz) := by
    rw [updateWalk]
    simp only [show direntlen (fun _ => 0) 0 = 0 from rfl]
    rw [if_neg (by lia), if_pos trivial, Nat.sub_zero]
  rw [@updateParentDentry_first blksz name _ (nums ++ [k]) newBlk ino n call first padding k hzero
    hblocks (by simp) (by simp; lia) hlast]
  simp only [update_self, hwalk]

include hd hname hino in
theorem inserts_full (hblk : ∀ c k, newBlk c = some k → k ≠ 0 ∧ k ∉ nums)
    (hblksz : 1024 ≤ blksz ∧ blksz ≤ 2 ^ 16 ∧ blksz % 4 = 0) (hlen : nums.length < 12)
    (hroom : ∀ e ∈ f (nums.getD (nums.length - 1) 0), ¬Room name.length e) :
    Inserts blksz newBlk (some ino) name d nums f ↔
      nums.length < 11 ∧ newBlk 0 ≠ none ∧ blksz < 2 ^ 16 := by
  have hpos := length_pos_iff.mpr hd.nonempty
  have hmem : nums.getD (nums.length - 1) 0 ∈ nums := by
    rw [getD_eq_getElem _ _ (by lia)]
    exact getElem_mem _
  have hlaid := hd.laid _ hmem
  have hcount := hlaid.length_le
  have hnil : f (nums.getD (nums.length - 1) 0) ≠ [] := by
    intro hnil
    rw [hnil] at hlaid
    have : 0 = blksz := hlaid
    lia
  obtain ⟨padding, hwalk⟩ := updateWalk_full hlaid hnil hroom
    (show (f (nums.getD (nums.length - 1) 0)).length ≤ blksz + 1 by lia)
  have hfirst := fun n => @updateParentDentry_first blksz name d nums newBlk ino n 0 0 0 _
    hd.nonzero hd.blocks (by lia) hlen rfl
  simp only [hwalk] at hfirst
  constructor
  · intro hins
    obtain ⟨n, d', ino', hrun, nums', es', hdir, -⟩ := hins
    cases n with
    | zero => cases hrun
    | succ n =>
      rw [hfirst] at hrun
      split at hrun
      · cases hrun
      next hne =>
      cases hnew : newBlk 0 with
      | none =>
        rw [hnew] at hrun
        cases hrun
      | some k =>
        rw [hnew] at hrun
        cases n with
        | zero => cases hrun
        | succ n =>
          dsimp only at hrun
          rw [updateParentDentry_second hd (by lia) (hblk _ _ hnew).1 (by lia)] at hrun
          obtain ⟨rfl, -⟩ := Prod.mk.inj (some.inj hrun)
          refine ⟨by lia, some_ne_none k, ?_⟩
          by_contra hge
          -- the only entry of the new block has length 0
          have hk := hdir.blocks nums.length (by lia)
          simp only [update_self] at hk
          have hmem' : k ∈ nums' := by
            by_cases hlt : nums.length < nums'.length
            · rw [hk, getD_eq_getElem _ _ hlt]
              exact getElem_mem _
            · rw [getD_eq_default _ _ (by lia)] at hk
              exact absurd hk (hblk _ _ hnew).1
          have hlaid' := hdir.laid k hmem'
          simp only [update_self] at hlaid'
          cases hes : es' k with
          | nil =>
            rw [hes] at hlaid'
            have : 0 = blksz := hlaid'
            lia
          | cons e es =>
            rw [hes] at hlaid'
            have hlen' := hlaid'.1.len
            have hfits := hlaid'.1.fits
            rw [direntlen_new] at hlen'
            lia
  · intro hcond
    obtain ⟨hlen', hsome, hlt⟩ := hcond
    obtain ⟨k, hk⟩ := ne_none_iff_exists'.mp hsome
    obtain ⟨hk0, hknums⟩ := hblk _ _ hk
    have hrun := hfirst 1
    rw [if_neg (by lia), hk] at hrun
    dsimp only at hrun
    rw [updateParentDentry_second hd hlen' hk0 (by lia)] at hrun
    refine ⟨2, _, _, hrun, nums ++ [k], update f k [⟨ino, blksz, name⟩], ?_, ?_⟩
    · refine ⟨by simp, by simp; lia, ?_, ?_, concat_blocks hd k, ?_⟩
      · rw [nodup_append]
        refine ⟨hd.nodup, nodup_singleton k, ?_⟩
        intro x hx y hy hxy
        rw [mem_singleton] at hy
        exact hknums (hy ▸ hxy ▸ hx)
      · rw [mem_append, mem_singleton]
        exact fun h => h.elim hd.nonzero hk0.symm
      · intro x hx
        by_cases hxk : x = k
        · simp only [hxk, update_self]
          exact ⟨entryAt_new hname hino.2 hlt (by lia) hblksz.2.2, Nat.zero_add _⟩
        · simp only [update_of_ne hxk]
          cases mem_append.mp hx with
          | inl hx => exact hd.laid x hx
          | inr hx => exact absurd (mem_singleton.mp hx) hxk
    · have hsame : allLive nums (update f k [⟨ino, blksz, name⟩]) = allLive nums f := by
        apply flatMap_congr
        intro x hx
        rw [update_of_ne fun hxk : x = k => hknums (hxk ▸ hx)]
      have hnew : allLive [k] (update f k [⟨ino, blksz, name⟩]) = [(name, ino)] := by
        simp [allLive, live, hino.1]
      rw [allLive, flatMap_append]
      change (allLive nums _ ++ allLive [k] _).Perm _
      rw [hsame, hnew]
      exact perm_append_singleton _ _

theorem updateParentDentry_none (n call padding first : ℕ) (d : Directory) :
    updateParentDentry blksz newBlk none name n call padding first d = none := by
  induction n generalizing call padding first d with
  | zero => rfl
  | succ n ih =>
    unfold updateParentDentry
    dsimp only
    split
    · rfl
    split
    · rfl
    · rfl
    split
    · rfl
    split
    · rfl
    · exact ih ..

include hd hname in
theorem inserts_iff {newIno : Option ℕ} (hblk : ∀ c k, newBlk c = some k → k ≠ 0 ∧ k ∉ nums)
    (hino : ∀ i, newIno = some i → i ≠ 0 ∧ i < 2 ^ 32)
    (hblksz : 1024 ≤ blksz ∧ blksz ≤ 2 ^ 16 ∧ blksz % 4 = 0) :
    Inserts blksz newBlk newIno name d nums f ↔ Insertable blksz newBlk newIno name nums f := by
  rw [Insertable]
  by_cases hlen : nums.length < 12
  · cases newIno with
    | none =>
      refine iff_of_false ?_ fun h => h.2.1 rfl
      intro hins
      obtain ⟨n, d', ino', hrun, -⟩ := hins
      rw [updateParentDentry_none] at hrun
      cases hrun
    | some ino =>
      by_cases hroom : ∃ e ∈ f (nums.getD (nums.length - 1) 0), Room name.length e
      · exact iff_of_true (inserts_room hd hname (hino ino rfl) hlen rfl hroom)
          ⟨hlen, some_ne_none _, .inl hroom⟩
      · rw [inserts_full hd hname (hino ino rfl) hblk hblksz hlen (by simpa using hroom)]
        exact ⟨fun h => ⟨hlen, some_ne_none _, .inr h⟩, fun h => h.2.2.resolve_left hroom⟩
  · refine iff_of_false ?_ fun h => hlen h.1
    intro hins
    obtain ⟨n, d', ino', hrun, nums', es', hdir, hperm⟩ := hins
    have hlen12 : nums.length = 12 := by
      have := hd.length
      lia
    have hkeeps := updateParentDentry_twelve hblk hd.nonzero hlen12 hd.blocks
      ⟨fun _ _ => rfl, fun _ _ => rfl⟩ hrun
    -- the directory is what it was
    have hold : IsDir blksz d' nums f := by
      refine ⟨hd.nonempty, hd.length, hd.nodup, hd.nonzero, ?_, ?_⟩
      · intro i hi
        rw [hkeeps.1 i hi, hd.blocks i hi]
      · intro k hk
        rw [hkeeps.2 k hk]
        exact hd.laid k hk
    have hlength := hperm.length_eq
    rw [length_cons, ← (hold.unique hdir).2] at hlength
    lia

end Dir

end Insert

section Ends

open Walks

variable (blksz : ℕ) (b : Mem) (name : List UInt8)

def checkNext (o : ℕ) : List ℕ :=
  if o + 8 ≤ blksz ∧ nameMatches b name o = false ∧ blksz - o ≠ direntlen b o then
    [o + direntlen b o] else []

def updateNext (o : ℕ) : List ℕ :=
  if o + 8 ≤ blksz ∧ direntlen b o ≠ 0 ∧ blksz - o ≠ direntlen b o ∧
    ¬direntSize (namelen b o) + direntSize name.length ≤ direntlen b o then
    [o + direntlen b o] else []

/- The walk comes to no entry outside of the block, and to none twice. -/
def StaysInside (next : ℕ → List ℕ) : Prop :=
  (∀ o, Relation.ReflTransGen (Edge next) 0 o → o + 8 ≤ blksz) ∧ NoCycle next 0

variable {blksz b name}

theorem reach_finite {next : ℕ → List ℕ}
    (hnext : ∀ o, next o = [] ∨ o + 8 ≤ blksz ∧ next o = [o + direntlen b o]) :
    {o | Relation.ReflTransGen (Edge next) 0 o}.Finite := by
  apply (Set.finite_le_nat (blksz + 2 ^ 16)).subset
  intro o ho
  cases Relation.ReflTransGen.cases_tail ho with
  | inl hzero => exact hzero ▸ Nat.zero_le _
  | inr hlast =>
    obtain ⟨x, -, hx⟩ := hlast
    have hlt := leValue_lt (bytes b (x + 4) 2)
    rw [Memory.length_bytes] at hlt
    cases hnext x with
    | inl hnil =>
      rw [Edge, hnil] at hx
      cases hx
    | inr hone =>
      rw [Edge, hone.2, mem_singleton] at hx
      rw [direntlen] at hx
      simp only [Set.mem_ofPred_eq]
      lia

theorem checkFilename_ends : (∃ n r, checkFilename blksz b name n (none, 0) = some r) ↔
    StaysInside blksz (checkNext blksz b name) := by
  refine @run_iff_noCycle _ (checkNext blksz b name) _ _ (checkFilename blksz b name) Prod.snd
    (fun o => o + 8 ≤ blksz) (fun _ => True) (none, 0) (fun _ => rfl) ?_ trivial ?_
  · intro s _
    obtain ⟨previous, o⟩ := s
    by_cases hin : o + 8 ≤ blksz
    · have hout : ¬blksz < o + 8 := by lia
      cases hname : nameMatches b name o with
      | true =>
        exact .ends hin (by simp [checkNext, hname]) (takeOut b o previous)
          fun n => by rw [checkFilename, if_neg hout, if_pos hname]
      | false =>
        by_cases hlast : blksz - o = direntlen b o
        · exact .ends hin (by simp [checkNext, hlast]) .absent
            fun n => by rw [checkFilename, if_neg hout, hname, if_neg (by simp), if_pos hlast]
        · exact .goes hin (some o, o + direntlen b o) trivial
            (by simp [checkNext, hin, hname, hlast])
            fun n => by rw [checkFilename, if_neg hout, hname, if_neg (by simp), if_neg hlast]
    · exact .fails hin fun n => by rw [checkFilename, if_pos (by lia)]
  · apply reach_finite (b := b)
    intro o
    rw [checkNext]
    split
    next h => exact .inr ⟨h.1, rfl⟩
    · exact .inl rfl

theorem updateWalk_ends {padding : ℕ} :
    (∃ n r, updateWalk blksz b name.length padding n 0 = some r) ↔
      StaysInside blksz (updateNext blksz b name) := by
  refine @run_iff_noCycle _ (updateNext blksz b name) _ _ (updateWalk blksz b name.length padding) id
    (fun o => o + 8 ≤ blksz) (fun _ => True) 0 (fun _ => rfl) ?_ trivial ?_
  · intro o _
    by_cases hin : o + 8 ≤ blksz
    · have hout : ¬blksz < o + 8 := by lia
      -- what the walk comes to does not depend on the steps it may still make
      have hends : ∀ {r}, updateWalk blksz b name.length padding 1 o = some r →
          updateNext blksz b name o = [] → Turn (updateNext blksz b name)
            (updateWalk blksz b name.length padding) id (fun o => o + 8 ≤ blksz) (fun _ => True) o := by
        intro r hr hnext
        refine .ends hin hnext r fun n => ?_
        rw [← hr]
        simp only [updateNext, hin, true_and] at hnext
        simp only [updateWalk, hout, if_false]
        split
        · rfl
        split
        · rfl
        split
        · rfl
        next hz hl hv => simp [hz, hl, hv] at hnext
      by_cases hzero : direntlen b o = 0
      · exact hends (by simp only [updateWalk, hout, hzero, if_true, if_false]; rfl)
          (by simp [updateNext, hzero])
      · by_cases hlast : blksz - o = direntlen b o
        · exact hends (by
            simp only [updateWalk, hout, hzero, hlast, if_true, if_false, ← apply_ite some]
            rfl) (by simp [updateNext, hlast])
        · by_cases hvoid : direntSize (namelen b o) + direntSize name.length ≤ direntlen b o
          · exact hends (by
              simp only [updateWalk, hout, hzero, hlast, hvoid, if_true, if_false]
              rfl) (by simp [updateNext, hvoid])
          · exact .goes hin (o + direntlen b o) trivial
              (by simp [updateNext, hin, hzero, hlast, hvoid])
              fun n => by simp only [updateWalk, hout, hzero, hlast, hvoid, if_false]
    · exact .fails hin fun n => by simp only [updateWalk, show blksz < o + 8 by lia, if_true]
  · apply reach_finite (b := b)
    intro o
    rw [updateNext]
    split
    next h => exact .inr ⟨h.1, rfl⟩
    · exact .inl rfl

end Ends

/- A name is removed and inserted as it should be in these cases; each walk comes to an end inside the
block if it comes to no entry outside of it and to none twice. -/
theorem dirents_exact {blksz : ℕ} (hblksz : 1024 ≤ blksz ∧ blksz ≤ 2 ^ 16 ∧ blksz % 4 = 0)
    (name : List UInt8) (hname : name.length < 2 ^ 8) :
    (∀ b es, Laid b 0 es blksz → name ∈ (live es).map Prod.fst →
      (Removes blksz b name es ↔ Removable name es)) ∧
    (∀ newBlk newIno d nums f, IsDir blksz d nums f →
      (∀ c k, newBlk c = some k → k ≠ 0 ∧ k ∉ nums) →
      (∀ i, newIno = some i → i ≠ 0 ∧ i < 2 ^ 32) →
      (Inserts blksz newBlk newIno name d nums f ↔ Insertable blksz newBlk newIno name nums f)) ∧
    ∀ b padding, ((∃ n r, checkFilename blksz b name n (none, 0) = some r) ↔
        StaysInside blksz (checkNext blksz b name)) ∧
      ((∃ n r, updateWalk blksz b name.length padding n 0 = some r) ↔
        StaysInside blksz (updateNext blksz b name)) :=
  ⟨fun _ _ h hlive => removes_iff hblksz.2.1 h hlive,
    fun _ _ _ _ _ hd hblk hino => inserts_iff hd hname hblk hino hblksz,
    fun _ _ => ⟨checkFilename_ends, updateWalk_ends⟩⟩

/- A block of `.` and `a`. -/
def twoDirents : Mem := fun x =>
  [2, 0, 0, 0, 12, 0, 1, 2, 46, 0, 0, 0, 11, 0, 0, 0, 0xf4, 3, 1, 1, 97].getD x 0

def dotAndA : List Entry := [⟨2, 12, [46]⟩, ⟨11, 1012, [97]⟩]

theorem twoDirents_laid : Laid twoDirents 0 dotAndA 1024 :=
  ⟨⟨rfl, rfl, rfl, rfl, rfl, by decide⟩, ⟨rfl, rfl, rfl, rfl, rfl, by decide⟩, rfl⟩

def oneDirBlock : Directory := ⟨fun _ => twoDirents, fun i => if i = 0 then 5 else 0⟩

theorem oneDirBlock_isDir : IsDir 1024 oneDirBlock [5] fun _ => dotAndA :=
  ⟨by decide, by decide, by decide, by decide, by decide, fun _ _ => twoDirents_laid⟩

/- The removal of `a`, and `b` put into the rest of the block. -/
theorem dirents_exact_two :
    (Removes 1024 twoDirents [97] dotAndA ↔ Removable [97] dotAndA) ∧
      (Inserts 1024 (fun _ => some 6) (some 12) [98] oneDirBlock [5] (fun _ => dotAndA) ↔
        Insertable 1024 (fun _ => some 6) (some 12) [98] [5] fun _ => dotAndA) := by
  refine ⟨(dirents_exact (by decide) [97] (by decide)).1 _ _ twoDirents_laid (by decide),
    (dirents_exact (by decide) [98] (by decide)).2.1 _ _ _ _ _ oneDirBlock_isDir ?_ ?_⟩
  · intro c k hk
    obtain rfl := some.inj hk
    decide
  · intro i hi
    obtain rfl := some.inj hi
    decide

/- The name is that of the first entry. -/
theorem dirents_first : ¬∀ blksz b name es, Laid b 0 es blksz → name ∈ (live es).map Prod.fst →
    Removes blksz b name es := by
  intro h
  have hremoves := h 1024 (fun x => [11, 0, 0, 0, 0, 4, 1, 1, 97].getD x 0) [97] [⟨11, 1024, [97]⟩]
    ⟨⟨rfl, rfl, rfl, rfl, rfl, by decide⟩, rfl⟩ (by decide)
  obtain ⟨n, b', ino, hfound, -⟩ := hremoves
  cases n with
  | zero => cases hfound
  | succ n => cases hfound

end UBoot.Ext4
