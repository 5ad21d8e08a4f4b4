import Mathlib.Tactic

/-!
# Computations that touch memory

A value together with the accesses made on the way to it, the first one first. `Within ok`
says that every one of them is allowed.
-/

namespace UBoot.Access

open List

structure Traced (A : Type) (α : Type) where
  accesses : List A
  val : α

/- The payload of a datagram: its length and the memory from its start on. -/
structure Payload where
  len : ℕ
  mem : ℕ → UInt8

variable {A α β : Type}

instance : Monad (Traced A) where
  pure x := ⟨[], x⟩
  bind m f := ⟨m.accesses ++ (f m.val).accesses, (f m.val).val⟩

def touch (a : A) : Traced A Unit := ⟨[a], ()⟩

def Within (ok : A → Prop) (m : Traced A α) : Prop := ∀ a ∈ m.accesses, ok a

section Values

variable (m : Traced A α) (f : α → Traced A β)

@[simp] theorem val_pure (x : α) : (pure x : Traced A α).val = x := rfl

@[simp] theorem val_bind : (m >>= f).val = (f m.val).val := rfl

theorem val_ite {p : Prop} [Decidable p] (m m' : Traced A α) :
    (if p then m else m').val = if p then m.val else m'.val := apply_ite _ _ _ _

end Values

section Allowed

variable {ok : A → Prop} (m : Traced A α) (f : α → Traced A β)

@[simp] theorem within_pure (x : α) : Within ok (pure x : Traced A α) := by
  intro a ha
  cases ha

@[simp] theorem within_bind : Within ok (m >>= f) ↔ Within ok m ∧ Within ok (f m.val) := by
  constructor
  · intro h
    exact ⟨fun a ha => h a (mem_append_left _ ha), fun a ha => h a (mem_append_right _ ha)⟩
  · rintro ⟨hm, hf⟩ a ha
    cases mem_append.mp ha with
    | inl ha => exact hm a ha
    | inr ha => exact hf a ha

@[simp] theorem within_touch (a : A) : Within ok (touch a) ↔ ok a := by
  constructor
  · intro h
    exact h a mem_cons_self
  · intro h b hb
    rw [mem_singleton.mp hb]
    exact h

theorem within_ite {p : Prop} [Decidable p] (m m' : Traced A α) :
    Within ok (if p then m else m') ↔ (p → Within ok m) ∧ (¬ p → Within ok m') := by
  by_cases h : p
  · simp only [h, if_true, true_imp_iff, not_true_eq_false, false_imp_iff, and_true]
  · simp only [h, if_false, false_imp_iff, not_false_eq_true, true_imp_iff, true_and]

end Allowed

end UBoot.Access
