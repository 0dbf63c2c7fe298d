import Mathlib.Data.List.Rotate

namespace BTron.Lib

variable {α : Type} {q : α → Bool}

-- To drop elements of a list turned by `k` is to turn what is left of it by as many as are left
-- of the first `k`.
theorem filter_rotate (l : List α) {k : Nat} (hk : k ≤ l.length) :
    (l.rotate k).filter q = (l.filter q).rotate ((l.take k).countP q) := by
  have hsplit : l.filter q = (l.take k).filter q ++ (l.drop k).filter q := by
    rw [← List.filter_append, List.take_append_drop]
  rw [List.rotate_eq_drop_append_take hk, List.filter_append, hsplit,
    List.countP_eq_length_filter, List.rotate_append_length_eq]

theorem getElem?_filter_countP {l : List α} {k : Nat} {x : α} (hx : l[k]? = some x) (hq : q x) :
    (l.filter q)[(l.take k).countP q]? = some x := by
  obtain ⟨hk, rfl⟩ := List.getElem?_eq_some_iff.mp hx
  have hsplit : l.filter q = (l.take k).filter q ++ (l.drop k).filter q := by
    rw [← List.filter_append, List.take_append_drop]
  rw [hsplit, List.countP_eq_length_filter, List.getElem?_append_right le_rfl, Nat.sub_self,
    List.drop_eq_getElem_cons hk, List.filter_cons_of_pos hq, List.getElem?_cons_zero]

-- The next element with a property behind one that has it, going round.
theorem find?_behind {l : List α} {k : Nat} {x : α} (hx : l[k]? = some x) (hq : q x) :
    (l.rotate (k + 1)).find? q =
      (l.filter q)[((l.take k).countP q + 1) % (l.filter q).length]? := by
  obtain ⟨hk, heq⟩ := List.getElem?_eq_some_iff.mp hx
  have hcount : (l.take (k + 1)).countP q = (l.take k).countP q + 1 := by
    rw [List.take_add_one, hx, List.countP_append]
    simp [hq]
  have hpos : 0 < (l.filter q).length :=
    List.length_pos_of_mem (List.mem_filter.mpr ⟨List.mem_of_getElem? hx, hq⟩)
  rw [← List.head?_filter, filter_rotate l (by omega), hcount, ← List.rotate_mod,
    List.head?_rotate (Nat.mod_lt _ hpos)]

-- The one before it.
theorem find?_ahead {l : List α} {k : Nat} {x : α} (hx : l[k]? = some x) (hq : q x) :
    (l.rotate k).reverse.find? q =
      (l.filter q)[((l.take k).countP q + (l.filter q).length - 1) % (l.filter q).length]? := by
  obtain ⟨hk, heq⟩ := List.getElem?_eq_some_iff.mp hx
  have hpos : 0 < (l.filter q).length :=
    List.length_pos_of_mem (List.mem_filter.mpr ⟨List.mem_of_getElem? hx, hq⟩)
  have hlast : (l.filter q).length - 1 + (l.take k).countP q =
      (l.take k).countP q + (l.filter q).length - 1 := by omega
  rw [← List.head?_filter, List.filter_reverse, List.head?_reverse, List.getLast?_eq_getElem?,
    filter_rotate l hk.le, List.length_rotate, List.getElem?_rotate (by omega), hlast]

-- `k` steps round a circle of `k` places come to every place once.
theorem existsUnique_steps (a : Nat) {m k : Nat} (hm : m < k) : ∃! j, j < k ∧ (a + j) % k = m := by
  have ha : a % k < k := Nat.mod_lt a (by omega)
  have hstep : ∀ j, (a + j) % k = (a % k + j) % k := fun j => (Nat.mod_add_mod a k j).symm
  have hwrap : ∀ x, x < k → (x + k) % k = x := fun x hx => by
    rw [Nat.add_mod_right, Nat.mod_eq_of_lt hx]
  refine ⟨if a % k ≤ m then m - a % k else m + k - a % k, ?_, ?_⟩
  · dsimp only
    rw [hstep]
    split
    · have hsum : a % k + (m - a % k) = m := by omega
      exact ⟨by omega, by rw [hsum, Nat.mod_eq_of_lt hm]⟩
    · have hsum : a % k + (m + k - a % k) = m + k := by omega
      exact ⟨by omega, by rw [hsum, hwrap m hm]⟩
  · rintro j ⟨hj, hjm⟩
    rw [hstep] at hjm
    by_cases hlt : a % k + j < k
    · rw [Nat.mod_eq_of_lt hlt] at hjm
      split <;> omega
    · have hsum : a % k + j = a % k + j - k + k := by omega
      rw [hsum, hwrap _ (by omega)] at hjm
      split <;> omega

end BTron.Lib
