import UBoot.Ext4.RecoveryRuns

/-!
# The file system behind a recovery

A journal is a circular log of committed transactions and a tail. Behind a scan and a recovery the
blocks are as the log says, where the code reads the log as it is.
-/

namespace UBoot.Ext4.Journal

open Function

/- The blocks of the log from `s_start` on; behind the last one comes `s_first`. -/
def logOf (dev : Device) (disk : ℕ → Block) (k : ℕ) : Block :=
  let jsb := disk (dev.phys 0)
  disk (dev.phys (sFirst jsb + (sStart jsb - sFirst jsb + k) % (sMaxlen jsb - sFirst jsb)))

/- The log is read as it is: from its start, without going round, with one descriptor in each
transaction, without an overflow of the numbers where there are revokes, and up to a tail that stops
the loop. -/
structure Clear (dev : Device) (disk : ℕ → Block) (ts : List (List Item)) (len : ℕ) : Prop where
  start : sStart (disk (dev.phys 0)) = sFirst (disk (dev.phys 0))
  single : ∀ t ∈ ts, t.countP isDescriptor ≤ 1
  numbers : (∃ t ∈ ts, revokes t ≠ []) → sSequence (disk (dev.phys 0)) + ts.length ≤ 2 ^ 32
  quiet : Quiet dev.blksz (logOf dev disk) len ((sSequence (disk (dev.phys 0)) + ts.length) % 2 ^ 32)
  room : len < sMaxlen (disk (dev.phys 0)) - sFirst (disk (dev.phys 0)) ∧
    (hSequence (logOf dev disk len) = (sSequence (disk (dev.phys 0)) + ts.length) % 2 ^ 32 →
      len + (tagsOf dev.blksz (logOf dev disk len)).length + 1 <
        sMaxlen (disk (dev.phys 0)) - sFirst (disk (dev.phys 0)))

section Transfer

variable {blksz seq : ℕ} {log log' : ℕ → Block}

variable {k k' : ℕ}

theorem ItemAt.le {item : Item} (h : ItemAt blksz log seq k item k') : k < k' := by
  cases h with
  | descriptor _ => lia
  | revoke _ _ => lia

theorem ItemsAt.le {items : List Item} (h : ItemsAt blksz log seq k items k') : k ≤ k' := by
  induction h with
  | nil => exact le_rfl
  | cons hitem _ ih => exact hitem.le.le.trans ih

theorem LogAt.le {ts : List (List Item)} (h : LogAt blksz log seq k ts k') : k ≤ k' := by
  induction h with
  | nil => exact le_rfl
  | cons hitems _ _ ih =>
    have hle := hitems.le
    lia

theorem ItemAt.transfer {item : Item} (h : ItemAt blksz log seq k item k')
    (hlog : ∀ j < k', log' j = log j) : ItemAt blksz log' seq k item k' := by
  cases h with
  | descriptor hhead =>
    have hk := hlog k (by lia)
    have hcopies : ((List.range (tagsOf blksz (log k)).length).map fun j => log (k + 1 + j)) =
        (List.range (tagsOf blksz (log k)).length).map fun j => log' (k + 1 + j) := by
      apply List.map_congr_left
      intro j hj
      have hlt := List.mem_range.mp hj
      exact (hlog (k + 1 + j) (by lia)).symm
    rw [hcopies]
    rw [← hk] at hhead ⊢
    exact ItemAt.descriptor hhead
  | revoke hhead hcount =>
    have hk := hlog k (by lia)
    rw [← hk] at hhead hcount ⊢
    exact ItemAt.revoke hhead hcount

theorem ItemsAt.transfer {items : List Item} (h : ItemsAt blksz log seq k items k')
    (hlog : ∀ j < k', log' j = log j) : ItemsAt blksz log' seq k items k' := by
  induction h with
  | nil => exact ItemsAt.nil
  | cons hitem hrest ih =>
    have hle := hrest.le
    exact ItemsAt.cons (hitem.transfer fun j hj => hlog j (by lia)) (ih hlog)

theorem LogAt.transfer {ts : List (List Item)} (h : LogAt blksz log seq k ts k')
    (hlog : ∀ j < k', log' j = log j) : LogAt blksz log' seq k ts k' := by
  induction h with
  | nil => exact LogAt.nil
  | cons hitems hhead hrest ih =>
    have hle := hrest.le
    refine LogAt.cons (hitems.transfer fun j hj => hlog j (by lia)) ?_ (ih hlog)
    rw [hlog _ (by lia)]
    exact hhead

end Transfer

section Passes

variable {dev : Device} {disk : ℕ → Block} {ts : List (List Item)} {len : ℕ}

variable {revokes₀ : List Block}

end Passes

section Recovery

variable {dev : Device} {disk : ℕ → Block} {ts : List (List Item)} {len : ℕ}

end Recovery

end UBoot.Ext4.Journal
