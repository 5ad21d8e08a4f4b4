import UBoot.Ext4.Journal

/-!
# Scanning and recovering a journal

The loop over the log for both passes: the scan collects the revokes and the recovery replays what
is committed.
-/

namespace UBoot.Ext4.Journal

open List

section Runs

/- `journal i` is the block of the journal at index `i`; replaying does not touch these. -/
variable (dev : Device) (journal : ℕ → Block)

def Reads (disk : ℕ → Block) : Prop := ∀ i, disk (dev.phys i) = journal i

/- The copies behind the descriptor at index `d`. -/
def copiesFrom (i : ℕ) (tags : List Tag) : List (ℕ × Block) :=
  (tags.map Tag.block).zip ((List.range tags.length).map fun j => journal (i + j))

def Outside (ws : List (ℕ × Block)) : Prop := ∀ w ∈ ws, ∀ i, dev.phys i ≠ w.1

variable {dev journal}

variable {b : ℕ}

theorem Reads.update {disk : ℕ → Block} {copy : Block} (h : Reads dev journal disk)
    (hb : ∀ i, dev.phys i ≠ b) : Reads dev journal (Function.update disk b copy) := by
  intro i
  rw [Function.update_of_ne (hb i)]
  exact h i

variable {seq : ℕ}

variable (dev journal) in
/- The loop is at the block `k` of the log that starts at index `first`. -/
structure At (first k seq : ℕ) (s : Scan) : Prop where
  index : s.i = first + k
  sequence : s.sequence = seq
  reads : Reads dev journal s.disk

variable (dev journal) in
/- The copies of the transaction so far; they are those behind one descriptor. -/
structure Pending (seq : ℕ) (s : Scan) (ws : List (ℕ × Block)) : Prop where
  flags : s.dbFound = s.transactionRunning
  writes : ws = if s.transactionRunning
    then copiesFrom journal (s.currDescLogicalNo + 1)
      (tagsOf dev.blksz (journal s.currDescLogicalNo))
    else []
  sequence : s.transactionRunning = true → hSequence (journal s.currDescLogicalNo) = seq

def isDescriptor : Item → Bool
  | .descriptor _ _ => true
  | .revoke _ => false

def Gathers (flag : RecoveryFlag) (s s' : Scan) (p : ℕ → ℕ → Prop) : Prop :=
  match flag with
  | .recover => s'.revokes = s.revokes
  | .scan => ∀ b seq, checkBlknrForRevoke s'.revokes b seq = true ↔
      checkBlknrForRevoke s.revokes b seq = true ∨ p b seq

variable {flag : RecoveryFlag} {s : Scan}

theorem Gathers.trans {s₁ s₂ : Scan} {p p' q : ℕ → ℕ → Prop} (h : Gathers flag s s₁ p)
    (h' : Gathers flag s₁ s₂ p') (hq : ∀ b seq, q b seq ↔ p b seq ∨ p' b seq) : Gathers flag s s₂ q := by
  cases flag with
  | recover => exact Eq.trans h' h
  | scan =>
    intro b seq
    rw [h' b seq, h b seq, hq b seq, or_assoc]

section Items

variable {flag : RecoveryFlag} {first k k' seq : ℕ}

variable (dev journal) in
structure Passes (flag : RecoveryFlag) (first k' seq : ℕ) (s s' : Scan) (ws : List (ℕ × Block))
    (rs : List ℕ) : Prop where
  at_ : At dev journal first k' seq s'
  pending : Pending dev journal seq s' ws
  disk : s'.disk = s.disk
  gathers : Gathers flag s s' fun b q => q < seq ∧ b ∈ rs

end Items

variable {ts : List (List Item)}

def Outcome.state : Outcome → Scan
  | .finished s => s
  | .failed s => s

/- The tail stops the loop before anything of it counts: at a block of another sequence number,
or behind one descriptor at such a block or at a second descriptor. -/
def Quiet (blksz : ℕ) (log : ℕ → Block) (k seq : ℕ) : Prop :=
  hSequence (log k) ≠ seq ∨ hBlocktype (log k) = descriptorBlock ∧
    (hSequence (log (k + (tagsOf blksz (log k)).length + 1)) ≠ seq ∨
      hBlocktype (log (k + (tagsOf blksz (log k)).length + 1)) = descriptorBlock)

end Runs

end UBoot.Ext4.Journal
