import Mathlib.Data.List.Basic
import Mathlib.Logic.Function.Basic

namespace BTron.Lib

variable {β : Type}

-- The cells from address `i` on hold the list `bs`.
def Stored (mem : Nat → β) (i : Nat) (bs : List β) : Prop :=
  ∀ k (hk : k < bs.length), mem (i + k) = bs[k]

@[simp] theorem stored_nil (mem : Nat → β) (i : Nat) : Stored mem i [] := by
  intro k hk
  simp at hk

@[simp] theorem stored_cons (mem : Nat → β) (i : Nat) (b : β) (bs : List β) :
    Stored mem i (b :: bs) ↔ mem i = b ∧ Stored mem (i + 1) bs := by
  have hshift : ∀ k, i + 1 + k = i + (k + 1) := by omega
  constructor
  · intro h
    refine ⟨h 0 (by simp), fun k hk => ?_⟩
    rw [hshift]
    exact h (k + 1) (by simpa using hk)
  · rintro ⟨h0, h⟩ k hk
    cases k with
    | zero => exact h0
    | succ k =>
        rw [← hshift]
        exact h k (by simpa using hk)

@[simp] theorem stored_append (mem : Nat → β) (i : Nat) (as bs : List β) :
    Stored mem i (as ++ bs) ↔ Stored mem i as ∧ Stored mem (i + as.length) bs := by
  induction as generalizing i with
  | nil => simp
  | cons a as ih =>
      have hlen : i + 1 + as.length = i + (as.length + 1) := by omega
      simp only [List.cons_append, stored_cons, ih, List.length_cons, and_assoc, hlen]

-- The memory whose first cells are a given list.
def ofList [Inhabited β] (bs : List β) : Nat → β := fun i => bs.getD i default

theorem stored_ofList [Inhabited β] (bs : List β) : Stored (ofList bs) 0 bs := by
  intro k hk
  simp [ofList, hk]

-- The memory after the `n` cells from `src` on are copied to `dst` through a snapshot of them.
def copied (mem : Nat → β) (dst src n : Nat) : Nat → β := fun a =>
  if dst ≤ a ∧ a < dst + n then mem (src + (a - dst)) else mem a

theorem copied_of_mem (mem : Nat → β) (dst src : Nat) {n i : Nat} (hi : i < n) :
    copied mem dst src n (dst + i) = mem (src + i) := by
  have hoffset : dst + i - dst = i := by omega
  rw [copied, if_pos (by omega), hoffset]

theorem copied_of_notMem (mem : Nat → β) (src : Nat) {dst n a : Nat}
    (ha : a < dst ∨ dst + n ≤ a) : copied mem dst src n a = mem a := by
  rw [copied, if_neg (by omega)]

@[simp] theorem copied_zero (mem : Nat → β) (dst src : Nat) : copied mem dst src 0 = mem := by
  funext a
  exact copied_of_notMem mem src (by omega)

-- The first cell may be copied ahead of the others when it is not one of theirs.
theorem copied_first (mem : Nat → β) {dst src : Nat} (h : dst ≤ src) (n : Nat) :
    copied (Function.update mem dst (mem src)) (dst + 1) (src + 1) n =
      copied mem dst src (n + 1) := by
  funext a
  by_cases ha : dst + 1 ≤ a ∧ a < dst + 1 + n
  · have hcell : src + 1 + (a - (dst + 1)) = src + (a - dst) := by omega
    rw [copied, copied, if_pos ha, if_pos (by omega), hcell, Function.update_of_ne (by omega)]
  · rw [copied, copied, if_neg ha]
    by_cases hdst : a = dst
    · subst hdst
      rw [Function.update_self, if_pos (by omega), Nat.sub_self, Nat.add_zero]
    · rw [Function.update_of_ne hdst, if_neg (by omega)]

-- So may the last one.
theorem copied_last (mem : Nat → β) {dst src : Nat} (h : src ≤ dst) (n : Nat) :
    copied (Function.update mem (dst + n) (mem (src + n))) dst src n =
      copied mem dst src (n + 1) := by
  funext a
  by_cases ha : dst ≤ a ∧ a < dst + n
  · rw [copied, copied, if_pos ha, if_pos (by omega), Function.update_of_ne (by omega)]
  · rw [copied, copied, if_neg ha]
    by_cases hdst : a = dst + n
    · have hcell : src + (dst + n - dst) = src + n := by omega
      subst hdst
      rw [Function.update_self, if_pos (by omega), hcell]
    · rw [Function.update_of_ne hdst, if_neg (by omega)]

end BTron.Lib
