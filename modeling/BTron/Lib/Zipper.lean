import Mathlib.Data.List.Basic

namespace BTron.Lib

-- A text of lines with a place in it: the lines above, what is left and right of the place in
-- its line, and the lines below.
structure Zipper (α : Type) where
  above : List (List α)
  left : List α
  right : List α
  below : List (List α)

namespace Zipper

variable {α : Type} {n m : Nat}

def lines (z : Zipper α) : List (List α) := z.above ++ (z.left ++ z.right) :: z.below

def size (z : Zipper α) : Nat := z.lines.flatten.length

def split (z : Zipper α) : Zipper α := ⟨z.above ++ [z.left], [], z.right, z.below⟩

def insert (z : Zipper α) (t : List α) : Zipper α := { z with left := z.left ++ t }

-- A line has fewer than `n` elements, and a text has `m` lines at most.
def insertMax (n : Nat) (z : Zipper α) (t : List α) : Zipper α :=
  if z.left.length + z.right.length + t.length < n then z.insert t else z

def splitMax (m : Nat) (z : Zipper α) : Zipper α := if z.lines.length < m then z.split else z

-- Every further line begins with a split.
def paste (n m : Nat) (z : Zipper α) : List (List α) → Zipper α
  | [] => z
  | t :: ts => ((z.splitMax m).insertMax n t).paste n m ts

-- A text goes in, unless there is nothing of it.
def Enters (n : Nat) (z : Zipper α) (t : List α) : Prop :=
  t = [] ∨ z.left.length + z.right.length + t.length < n

variable (z : Zipper α)

@[simp] theorem lines_split : z.split.lines = z.above ++ z.left :: z.right :: z.below := by
  simp [split, lines]

@[simp] theorem length_split : z.split.lines.length = z.lines.length + 1 := by
  rw [lines_split, lines]
  simp only [List.length_append, List.length_cons]
  omega

@[simp] theorem size_split : z.split.size = z.size := by
  rw [size, lines_split, size, lines]
  simp only [List.flatten_append, List.flatten_cons, List.length_append]
  omega

@[simp] theorem length_insertMax (t : List α) :
    (z.insertMax n t).lines.length = z.lines.length := by
  rw [insertMax]
  split
  · simp [insert, lines]
  · rfl

@[simp] theorem right_insertMax (t : List α) : (z.insertMax n t).right = z.right := by
  rw [insertMax]
  split <;> rfl

theorem size_insert (t : List α) : (z.insert t).size = z.size + t.length := by
  simp only [insert, size, lines, List.flatten_append, List.flatten_cons, List.length_append]
  omega

theorem insertMax_eq {t : List α} (h : z.Enters n t) : z.insertMax n t = z.insert t := by
  rw [insertMax]
  split
  · rfl
  · rename_i hfull
    obtain rfl := h.resolve_right hfull
    rw [insert, List.append_nil]

-- What does not go in is missing.
theorem size_insertMax_iff (t : List α) :
    (z.insertMax n t).size ≤ z.size + t.length ∧
      ((z.insertMax n t).size = z.size + t.length ↔ z.Enters n t) := by
  by_cases h : z.Enters n t
  · rw [z.insertMax_eq h, size_insert]
    exact ⟨Nat.le_refl _, iff_of_true rfl h⟩
  · obtain ⟨hne, hfull⟩ := not_or.mp h
    have hpos := List.length_pos_iff.mpr hne
    rw [insertMax, if_neg hfull]
    exact ⟨by omega, iff_of_false (by omega) h⟩

@[simp] theorem size_splitMax : (z.splitMax m).size = z.size := by
  rw [splitMax]
  split
  · exact z.size_split
  · rfl

theorem enters_split (t : List α) :
    z.split.Enters n t ↔ t = [] ∨ t.length + z.right.length < n := by
  rw [Enters, split, List.length_nil, Nat.zero_add, Nat.add_comm]

theorem splitMax_eq (h : z.lines.length < m) : z.splitMax m = z.split := if_pos h

-- A paste adds no line that it has no room for.
theorem length_paste (ts : List (List α)) :
    (z.paste n m ts).lines.length ≤ z.lines.length + ts.length ∧
      (ts ≠ [] → m < z.lines.length + ts.length →
        (z.paste n m ts).lines.length < z.lines.length + ts.length) := by
  induction ts generalizing z with
  | nil => exact ⟨Nat.le_refl _, fun h => absurd rfl h⟩
  | cons t ts ih =>
      obtain ⟨hle, hlt⟩ := ih ((z.splitMax m).insertMax n t)
      rw [length_insertMax] at hle hlt
      rw [paste, List.length_cons]
      by_cases hroom : z.lines.length < m
      · rw [z.splitMax_eq hroom, length_split] at hle hlt
        rw [z.splitMax_eq hroom]
        refine ⟨by omega, fun _ hfull => ?_⟩
        have hne : ts ≠ [] := by
          rintro rfl
          rw [List.length_nil] at hfull
          omega
        have := hlt hne (by omega)
        omega
      · have hstay : z.splitMax m = z := if_neg hroom
        rw [hstay] at hle
        rw [hstay]
        exact ⟨by omega, fun _ _ => by omega⟩

theorem size_paste_le (ts : List (List α)) :
    (z.paste n m ts).size ≤ z.size + ts.flatten.length := by
  induction ts generalizing z with
  | nil => exact Nat.le_refl _
  | cons t ts ih =>
      have hrest := ih ((z.splitMax m).insertMax n t)
      have hfirst := ((z.splitMax m).size_insertMax_iff (n := n) t).1
      rw [size_splitMax] at hfirst
      rw [paste, List.flatten_cons, List.length_append]
      omega

-- With room for the lines, a paste is complete if and only if each of them goes in.
theorem size_paste_iff (ts : List (List α)) (hroom : z.lines.length + ts.length ≤ m) :
    (z.paste n m ts).size = z.size + ts.flatten.length ↔
      ∀ t ∈ ts, t = [] ∨ t.length + z.right.length < n := by
  induction ts generalizing z with
  | nil => simp [paste]
  | cons t ts ih =>
      rw [List.length_cons] at hroom
      have hsplit := z.splitMax_eq (m := m) (by omega)
      obtain ⟨hle, hiff⟩ := z.split.size_insertMax_iff (n := n) t
      have hrest := (z.split.insertMax n t).size_paste_le (n := n) (m := m) ts
      have hih := ih (z.split.insertMax n t) (by rw [length_insertMax, length_split]; omega)
      have hright : (z.split.insertMax n t).right = z.right := right_insertMax _ _
      rw [size_split] at hle hiff
      rw [hright] at hih
      rw [paste, hsplit, List.flatten_cons, List.length_append, List.forall_mem_cons,
        ← z.enters_split, ← hiff, ← hih]
      omega

-- The lines of a complete paste.
theorem lines_paste (ts : List (List α)) (t : List α)
    (hroom : z.lines.length + (ts.length + 1) ≤ m)
    (hall : ∀ u ∈ ts ++ [t], u = [] ∨ u.length + z.right.length < n) :
    (z.paste n m (ts ++ [t])).lines = z.above ++ z.left :: ts ++ (t ++ z.right) :: z.below := by
  induction ts generalizing z with
  | nil =>
      rw [List.nil_append, paste, z.splitMax_eq (by omega),
        z.split.insertMax_eq ((z.enters_split t).mpr (hall t (List.mem_singleton_self t))), paste]
      simp [insert, split, lines]
  | cons u ts ih =>
      rw [List.length_cons] at hroom
      rw [List.cons_append, List.forall_mem_cons] at hall
      have hlen : (z.split.insert u).lines.length = z.lines.length + 1 := by
        rw [← length_split]
        simp [insert, lines]
      have hih := ih (z.split.insert u) (by rw [hlen]; omega) hall.2
      rw [List.cons_append, paste, z.splitMax_eq (by omega),
        z.split.insertMax_eq ((z.enters_split u).mpr hall.1), hih]
      simp [insert, split]

end Zipper

end BTron.Lib
