import Mathlib.Data.List.Range
import Mathlib.Data.Nat.ModEq
import Mathlib.Logic.Function.Basic

namespace BTron.Lib

variable {α : Type} {n head count i j : Nat} {cells : Nat → α}

-- The `count` elements of a ring of `n` cells, from the cell `head` on.
def ringList (n : Nat) (cells : Nat → α) (head count : Nat) : List α :=
  (List.range count).map fun i => cells ((head + i) % n)

-- `steps` elements from the `i`-th on, each overwritten with the one behind it.
def ringShift (n head : Nat) (cells : Nat → α) (i steps : Nat) : Nat → α :=
  (List.range' i steps).foldl
    (fun cs j => Function.update cs ((head + j) % n) (cs ((head + j + 1) % n))) cells

@[simp] theorem ringList_length : (ringList n cells head count).length = count := by
  simp [ringList]

theorem getElem_ringList (hi : i < (ringList n cells head count).length) :
    (ringList n cells head count)[i] = cells ((head + i) % n) := by
  simp [ringList]

theorem cell_inj (hi : i < n) (hj : j < n) (h : (head + i) % n = (head + j) % n) : i = j := by
  have hmod : i ≡ j [MOD n] := Nat.ModEq.add_left_cancel' head h
  rw [Nat.ModEq, Nat.mod_eq_of_lt hi, Nat.mod_eq_of_lt hj] at hmod
  exact hmod

theorem ringList_push (x : α) (hcount : count < n) :
    ringList n (Function.update cells ((head + count) % n) x) head (count + 1) =
      ringList n cells head count ++ [x] := by
  rw [ringList, List.range_succ, List.map_append]
  congr 1
  · apply List.map_congr_left
    intro i hi
    rw [List.mem_range] at hi
    rw [Function.update_of_ne]
    intro h
    exact Nat.ne_of_lt hi (cell_inj (by omega) hcount h)
  · simp

theorem ringList_succ :
    ringList n cells head (count + 1) =
      cells (head % n) :: ringList n cells ((head + 1) % n) count := by
  apply List.ext_getElem
  · simp
  · intro i hi hi'
    rw [getElem_ringList]
    cases i with
    | zero => simp
    | succ i =>
        rw [List.getElem_cons_succ, getElem_ringList, Nat.mod_add_mod, Nat.add_right_comm,
          Nat.add_assoc]

-- A ring filled from its first cell on.
theorem ringList_of_list {l : List α} (hl : l.length ≤ n) :
    ringList n (fun i => (l[i]?).getD (cells i)) 0 l.length = l := by
  apply List.ext_getElem
  · simp
  · intro i hi hi'
    rw [getElem_ringList, Nat.zero_add, Nat.mod_eq_of_lt (by omega), List.getElem?_eq_getElem hi']
    rfl

theorem ringShift_succ (steps : Nat) :
    ringShift n head cells i (steps + 1) =
      Function.update (ringShift n head cells i steps) ((head + (i + steps)) % n)
        (ringShift n head cells i steps ((head + (i + steps) + 1) % n)) := by
  simp [ringShift, List.range'_concat, List.foldl_append]

-- The cells written so far hold their successors, the others are as before.
theorem ringShift_cell {steps k : Nat} (hk : k < n) (hsteps : i + steps < n) :
    ringShift n head cells i steps ((head + k) % n) =
      if i ≤ k ∧ k < i + steps then cells ((head + k + 1) % n) else cells ((head + k) % n) := by
  induction steps generalizing k with
  | zero => rw [if_neg (by omega)]; rfl
  | succ steps ih =>
      rw [ringShift_succ]
      by_cases hlast : k = i + steps
      · subst hlast
        rw [Function.update_self, Nat.add_assoc head, ih (by omega) (by omega),
          if_neg (by omega), if_pos (by omega)]
      · rw [Function.update_of_ne fun h => hlast (cell_inj hk (by omega) h),
          ih hk (by omega)]
        by_cases hin : i ≤ k ∧ k < i + steps
        · rw [if_pos hin, if_pos (by omega)]
        · rw [if_neg hin, if_neg (by omega)]

-- Shifting the elements behind the `i`-th forward takes the `i`-th out of the ring.
theorem ringList_shift (hi : i < count) (hcount : count ≤ n) :
    ringList n (ringShift n head cells i (count - 1 - i)) head (count - 1) =
      (ringList n cells head count).eraseIdx i := by
  apply List.ext_getElem
  · rw [List.length_eraseIdx_of_lt (by simpa using hi)]
    simp
  · intro k hk hk'
    rw [ringList_length] at hk
    rw [getElem_ringList, ringShift_cell (by omega) (by omega), List.getElem_eraseIdx]
    by_cases hlt : k < i
    · rw [if_neg (by omega), dif_pos hlt, getElem_ringList]
    · rw [if_pos (by omega), dif_neg hlt, getElem_ringList, Nat.add_assoc]

end BTron.Lib
