import BTron.Lib.Memory
import BTron.Types

namespace BTron.Libstr

open Lib

-- Cells of one size, the bytes of a memory or the rows of an array
variable {β : Type}

-- `while (n--) *d++ = *s++`
def copyUp (mem : Nat → β) (d s : Nat) : Nat → Nat → β
  | 0 => mem
  | n + 1 => copyUp (Function.update mem d (mem s)) (d + 1) (s + 1) n

-- `while (n--) *--d = *--s`
def copyDown (mem : Nat → β) (d s : Nat) : Nat → Nat → β
  | 0 => mem
  | n + 1 => copyDown (Function.update mem (d - 1) (mem (s - 1))) (d - 1) (s - 1) n

-- The memory after a call, and the pointer it returns.
def tklMemcpy (mem : Nat → β) (dst src n : Nat) : (Nat → β) × Nat := (copyUp mem dst src n, dst)

def tklMemmove (mem : Nat → β) (dst src n : Nat) : (Nat → β) × Nat :=
  if dst < src then (copyUp mem dst src n, dst)
  else (copyDown mem (dst + n) (src + n) n, dst)

-- A byte below its source does not overwrite a byte that is still to be copied.
theorem copyUp_eq (mem : Nat → β) {d s : Nat} (h : d ≤ s) (n : Nat) :
    copyUp mem d s n = copied mem d s n := by
  induction n generalizing mem d s with
  | zero => rw [copyUp, copied_zero]
  | succ n ih => rw [copyUp, ih _ (by omega), copied_first mem h]

-- Neither does one above its source, from the end of the range on.
theorem copyDown_eq (mem : Nat → β) {d s : Nat} (h : s ≤ d) (n : Nat) :
    copyDown mem (d + n) (s + n) n = copied mem d s n := by
  induction n generalizing mem with
  | zero => rw [copyDown, copied_zero]
  | succ n ih =>
      have hlast : ∀ p : Nat, p + (n + 1) - 1 = p + n := by omega
      rw [copyDown, hlast, hlast, ih, copied_last mem h]

-- The direction is always the one that reads every byte before it is overwritten.
theorem tklMemmove_eq (mem : Nat → β) (dst src n : Nat) :
    tklMemmove mem dst src n = (copied mem dst src n, dst) := by
  rw [tklMemmove]
  split
  · rename_i hlt
    rw [copyUp_eq mem hlt.le]
  · rename_i hge
    rw [copyDown_eq mem (by omega)]

-- memcpy only goes forward, which is as good when the range moves down.
theorem tklMemcpy_eq (mem : Nat → β) {dst src : Nat} (h : dst ≤ src) (n : Nat) :
    tklMemcpy mem dst src n = tklMemmove mem dst src n := by
  rw [tklMemcpy, copyUp_eq mem h, tklMemmove_eq]

theorem tklMemmove_snapshot (mem : Memory) (dst src n : Nat) :
    (∀ i, i < n → (tklMemmove mem dst src n).1 (dst + i) = mem (src + i)) ∧
      (∀ a, a < dst ∨ dst + n ≤ a → (tklMemmove mem dst src n).1 a = mem a) := by
  rw [tklMemmove_eq]
  constructor
  · intro i hi
    exact copied_of_mem mem dst src hi
  · intro a ha
    exact copied_of_notMem mem src ha

end BTron.Libstr
