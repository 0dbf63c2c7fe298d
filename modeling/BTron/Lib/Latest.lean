import BTron.Lib.Memory
import Mathlib.Data.List.DropRight

namespace BTron.Lib

variable {α β : Type}

-- The first `count` cells of an array stand for the last `max` entries of a log, or for all of
-- them.
structure Latest (max : Nat) (R : β → α → Prop) (cells : Nat → β) (count : Nat) (log : List α) :
    Prop where
  count : count = (log.rtake max).length
  cell : ∀ k x, (log.rtake max)[k]? = some x → R (cells k) x

theorem rtake_of_length_le {log : List α} {max : Nat} (h : log.length ≤ max) :
    log.rtake max = log := by
  rw [List.rtake, Nat.sub_eq_zero_of_le h, List.drop_zero]

theorem length_rtake (log : List α) (max : Nat) : (log.rtake max).length = min log.length max := by
  rw [List.rtake, List.length_drop]
  omega

-- The last entries but the first of them
theorem drop_rtake {log : List α} {max : Nat} (h : max ≤ log.length) (hmax : 0 < max) :
    (log.rtake max).drop 1 = log.rtake (max - 1) := by
  rw [List.rtake, List.rtake, List.drop_drop]
  congr 1
  omega

-- A new entry takes the place of the first one when there is no room for it.
theorem rtake_push {max : Nat} (hmax : 0 < max) (log : List α) (x : α) :
    (if (log.rtake max).length < max then log.rtake max else (log.rtake max).drop 1) ++ [x] =
      (log ++ [x]).rtake max := by
  obtain ⟨m, rfl⟩ : ∃ m, max = m + 1 := ⟨max - 1, by omega⟩
  have hlen := length_rtake log (m + 1)
  rw [List.rtake_concat_succ]
  congr 1
  split
  · rw [rtake_of_length_le (by omega), rtake_of_length_le (by omega)]
  · exact drop_rtake (by omega) hmax

-- The last entries, counted from the end of the log
theorem getElem?_rtake (log : List α) (max : Nat) {k : Nat} (h0 : 0 < k)
    (hk : k ≤ (log.rtake max).length) :
    (log.rtake max)[(log.rtake max).length - k]? = log.reverse[k - 1]? := by
  have hlen := length_rtake log max
  rw [List.rtake, List.getElem?_drop, List.getElem?_reverse (by omega), ← List.rtake]
  congr 1
  omega

variable {max count : Nat} {R : β → α → Prop} {cells cells' : Nat → β} {log : List α} {x : α}

theorem Latest.nil (cells : Nat → β) : Latest max R cells 0 [] :=
  ⟨by simp, by simp⟩

theorem Latest.count_le (h : Latest max R cells count log) : count ≤ max := by
  rw [h.count, length_rtake]
  omega

-- What is not among the last entries does not matter.
theorem latest_rtake : Latest max R cells count (log.rtake max) ↔ Latest max R cells count log := by
  have hlen := length_rtake log max
  have htwice : (log.rtake max).rtake max = log.rtake max := rtake_of_length_le (by omega)
  constructor
  · rintro ⟨hcount, hcell⟩
    rw [htwice] at hcount hcell
    exact ⟨hcount, hcell⟩
  · rintro ⟨hcount, hcell⟩
    exact ⟨by rw [htwice]; exact hcount, by rw [htwice]; exact hcell⟩

-- A full array gives up its first cell.
theorem Latest.slide (h : Latest max R cells count log) (hfull : max ≤ count) (hmax : 0 < max) :
    Latest (max - 1) R (copied cells 0 1 (max - 1)) (max - 1) log := by
  have hcount := h.count
  rw [length_rtake] at hcount
  refine ⟨by rw [length_rtake]; omega, fun k x hx => ?_⟩
  rw [← drop_rtake (by omega) hmax, List.getElem?_drop] at hx
  have hk := (List.getElem?_eq_some_iff.mp hx).1
  rw [length_rtake] at hk
  have hcell := copied_of_mem cells 0 1 (by omega : k < max - 1)
  rw [Nat.zero_add] at hcell
  rw [hcell]
  exact h.cell (1 + k) x hx

-- One that is not full has room without it.
theorem Latest.room (h : Latest max R cells count log) (hroom : count < max) :
    Latest (max - 1) R cells count log := by
  have hcount := h.count
  rw [length_rtake] at hcount
  have hlog := h.cell
  rw [rtake_of_length_le (by omega)] at hlog
  refine ⟨by rw [length_rtake]; omega, fun k x hx => ?_⟩
  rw [rtake_of_length_le (by omega)] at hx
  exact hlog k x hx

-- A new entry goes behind the others.
theorem Latest.push (h : Latest (max - 1) R cells count log) (hmax : 0 < max)
    (hkeep : ∀ k, k < count → cells' k = cells k) (hnew : R (cells' count) x) :
    Latest max R cells' (count + 1) (log ++ [x]) := by
  obtain ⟨m, rfl⟩ : ∃ m, max = m + 1 := ⟨max - 1, by omega⟩
  have hcount := h.count
  rw [Nat.add_sub_cancel] at h hcount
  constructor
  · rw [List.rtake_concat_succ, List.length_append, ← hcount, List.length_singleton]
  · intro k y hy
    rw [List.rtake_concat_succ, List.getElem?_append, ← hcount] at hy
    split at hy
    · rename_i hk
      rw [hkeep k hk]
      exact h.cell k y hy
    · rw [List.getElem?_singleton, Option.ite_none_right_eq_some] at hy
      obtain ⟨hk, heq⟩ := hy
      obtain rfl := Option.some.inj heq
      have hlast : k = count := by omega
      rwa [hlast]

end BTron.Lib
