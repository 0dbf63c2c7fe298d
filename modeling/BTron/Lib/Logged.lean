import Mathlib.Data.List.Basic

namespace BTron.Lib

-- A computation over a memory, together with the addresses it has read, oldest first.
@[ext]
structure Logged (α : Type) where
  val : α
  log : List Nat

namespace Logged

variable {α β : Type}

instance : Monad Logged where
  pure a := ⟨a, []⟩
  bind x f := ⟨(f x.val).val, x.log ++ (f x.val).log⟩

@[simp] theorem val_pure (a : α) : (pure a : Logged α).val = a := rfl
@[simp] theorem log_pure (a : α) : (pure a : Logged α).log = [] := rfl

@[simp] theorem val_bind (x : Logged α) (f : α → Logged β) :
    (x >>= f).val = (f x.val).val := rfl

@[simp] theorem log_bind (x : Logged α) (f : α → Logged β) :
    (x >>= f).log = x.log ++ (f x.val).log := rfl

@[simp] theorem val_ite (c : Prop) [Decidable c] (x y : Logged α) :
    (if c then x else y).val = if c then x.val else y.val := by split <;> rfl

@[simp] theorem log_ite (c : Prop) [Decidable c] (x y : Logged α) :
    (if c then x else y).log = if c then x.log else y.log := by split <;> rfl

-- One read of the cell at address `i`.
def read (mem : Nat → β) (i : Nat) : Logged β := ⟨mem i, [i]⟩

-- A block copy out of the memory: `n` consecutive cells from `i` on.
def readBlock (mem : Nat → β) (i n : Nat) : Logged (List β) :=
  ⟨(List.range n).map fun k => mem (i + k), (List.range n).map fun k => i + k⟩

@[simp] theorem val_read (mem : Nat → β) (i : Nat) : (read mem i).val = mem i := rfl
@[simp] theorem log_read (mem : Nat → β) (i : Nat) : (read mem i).log = [i] := rfl

@[simp] theorem val_readBlock (mem : Nat → β) (i n : Nat) :
    (readBlock mem i n).val = (List.range n).map fun k => mem (i + k) := rfl

@[simp] theorem log_readBlock (mem : Nat → β) (i n : Nat) :
    (readBlock mem i n).log = (List.range n).map fun k => i + k := rfl

-- Every address read satisfies `P`.
def Within (P : Nat → Prop) (x : Logged α) : Prop := ∀ i ∈ x.log, P i

variable {P : Nat → Prop}

@[simp] theorem within_pure (a : α) : Within P (pure a : Logged α) := by
  simp [Within]

@[simp] theorem within_bind (x : Logged α) (f : α → Logged β) :
    Within P (x >>= f) ↔ Within P x ∧ Within P (f x.val) := by
  simp [Within, or_imp, forall_and]

@[simp] theorem within_read (mem : Nat → β) (i : Nat) : Within P (read mem i) ↔ P i := by
  simp [Within]

@[simp] theorem within_readBlock (mem : Nat → β) (i n : Nat) :
    Within P (readBlock mem i n) ↔ ∀ k < n, P (i + k) := by
  simp [Within]

theorem val_read_bind (mem : Nat → β) (i : Nat) (f : β → Logged α) :
    (read mem i >>= f).val = (f (mem i)).val := rfl

theorem within_read_bind (mem : Nat → β) (i : Nat) (f : β → Logged α) :
    Within P (read mem i >>= f) ↔ P i ∧ Within P (f (mem i)) := by
  rw [within_bind, within_read, val_read]

theorem within_ite (c : Prop) [Decidable c] (x y : Logged α) :
    Within P (if c then x else y) ↔ (c → Within P x) ∧ (¬c → Within P y) := by
  split <;> simp [*]

end Logged

end BTron.Lib
