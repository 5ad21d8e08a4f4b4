import UBoot.Fat.Cycles
import UBoot.Fat.NewName

/-!
# A file that does not fit

`check_overflow` compares the end of one run of clusters with the end of the volume. If that refuses a
size, nothing has been written.
-/

namespace UBoot.Fat

open Memory LittleEndian Option Walks Relation

/- `e` is the first free cluster, and the FAT entries up to it lie in whole windows of the cache. -/
structure FirstFree (v : FsData) (disk : Mem) (e : ℕ) : Prop where
  low : 3 ≤ e
  inside : ∀ x, 3 ≤ x → x ≤ e →
    v.checkClust x = false ∧ v.HasEntry x ∧ v.toVolume.WholeWindow x
  zero : v.fatEntry disk e = 0
  before : ∀ x, 3 ≤ x → x < e → v.fatEntry disk x ≠ 0

/- `check_overflow` refuses the size: from the start of the file that was found, or from the first free
cluster for an empty file or for a new one that does not need another cluster of the directory. -/
inductive Refused (v : FsData) (partStart : ℕ) (disk : Mem) (filename : Text) (size : ℕ) :
    FsData.Looked → Prop where
  | file {d : FsData.Dir} {k : ℕ} (hstart : v.startOf (dentOf d.block k) ≠ 0)
      (h : v.checkOverflow partStart (v.startOf (dentOf d.block k)) size ≠ 0) :
      Refused v partStart disk filename size (.entry d k)
  | empty {d : FsData.Dir} {k e : ℕ} (hstart : v.startOf (dentOf d.block k) = 0)
      (hfree : FirstFree v disk e) (h : v.checkOverflow partStart e size ≠ 0) :
      Refused v partStart disk filename size (.entry d k)
  | new {d : FsData.Dir} {k e : ℕ}
      (hroom : 32 * (k + (filename.length + 12) / 13) < v.bytesperclust)
      (hbuf : 32 * k + 11 ≤ maxClustSize)
      (hfree : FirstFree v disk e) (h : v.checkOverflow partStart e size ≠ 0) :
      Refused v partStart disk filename size (.absent d (some k))

section Refusal

variable {v : FsData} {disk : Mem} {w : World} {e x fuel : ℕ}

end Refusal

def FsData.Looked.start (v : FsData) : Looked → ℕ
  | .entry d k => v.startOf (dentOf d.block k)
  | .absent _ _ => 0

end UBoot.Fat
