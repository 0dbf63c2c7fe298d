import Mathlib.Data.List.Basic
import Mathlib.Data.List.TakeWhile

namespace BTron.Lib

-- The bytes of a char array up to its first NUL.
def cstr (bs : List UInt8) : List UInt8 := bs.takeWhile (· != 0)

-- The bytes `strncpy(dst, src, n)` copies into a zeroed array.
def strncpy (src : List UInt8) (n : Nat) : List UInt8 := (cstr src).take n

theorem cstr_eq {bs : List UInt8} (h0 : 0 ∉ bs) : cstr bs = bs := by
  apply List.takeWhile_eq_self_iff.mpr
  intro c hc
  rw [bne_iff_ne]
  rintro rfl
  exact h0 hc

theorem zero_notMem_cstr (bs : List UInt8) : 0 ∉ cstr bs := by
  intro h
  have hne := List.mem_takeWhile_imp h
  simp at hne

theorem zero_notMem_strncpy (bs : List UInt8) (n : Nat) : 0 ∉ strncpy bs n := fun h =>
  zero_notMem_cstr bs (List.mem_of_mem_take h)

theorem strncpy_eq {bs : List UInt8} {n : Nat} (h0 : 0 ∉ bs) (hlen : bs.length ≤ n) :
    strncpy bs n = bs := by
  rw [strncpy, cstr_eq h0, List.take_of_length_le hlen]

theorem cstr_append {as : List UInt8} (h0 : 0 ∉ as) (bs : List UInt8) :
    cstr (as ++ bs) = as ++ cstr bs := by
  apply List.takeWhile_append_of_pos
  intro c hc
  rw [bne_iff_ne]
  rintro rfl
  exact h0 hc

theorem strncpy_cstr (bs : List UInt8) (n : Nat) : strncpy (cstr bs) n = strncpy bs n := by
  rw [strncpy, cstr_eq (zero_notMem_cstr bs), strncpy]

-- A list that a copy of it behind `p` starts with has no elements but those of `p`.
theorem mem_of_eq_take {p l q : List UInt8} {n : Nat} (hp : p ≠ []) (h : l = (p ++ l ++ q).take n) :
    ∀ c ∈ l, c ∈ p := by
  have hpos := List.length_pos_iff.mpr hp
  have hget : ∀ i (hi : i < l.length), l[i] ∈ p := by
    intro i
    induction i using Nat.strong_induction_on with
    | _ i ih =>
        intro hi
        have hi' : i < (p ++ l).length := by
          rw [List.length_append]
          omega
        have hcell : l[i] = (p ++ l)[i] := by
          conv_lhs => rw [List.getElem_of_eq h hi]
          rw [List.getElem_take, List.getElem_append_left]
        rw [hcell]
        by_cases hlt : i < p.length
        · rw [List.getElem_append_left hlt]
          exact List.getElem_mem hlt
        · rw [List.getElem_append_right (by omega)]
          exact ih (i - p.length) (by omega) (by omega)
  intro c hc
  obtain ⟨i, hi, rfl⟩ := List.getElem_of_mem hc
  exact hget i hi

-- A text is copied out of a line behind `p` if and only if the line repeats it.
theorem strncpy_eq_iff {p l q : List UInt8} {n : Nat} (hp : p ≠ []) (h0 : 0 ∉ p) :
    strncpy (p ++ l ++ q) n = l ↔ l = (p ++ l ++ q).take n := by
  have hpos := List.length_pos_iff.mpr hp
  -- the copy fills the room, so what follows it does not matter
  have hfull : ∀ q', l.length = ((p ++ l ++ q').take n).length →
      n ≤ (p ++ l).length := by
    intro q' hlen
    rw [List.length_take, List.length_append, List.length_append] at hlen
    rw [List.length_append]
    omega
  have hcopy : 0 ∉ l → strncpy (p ++ l ++ q) n = (p ++ l ++ cstr q).take n := by
    intro h0'
    rw [strncpy, cstr_append (by simp [h0, h0'])]
  constructor
  · intro h
    have h0' : 0 ∉ l := by
      rw [← h]
      exact zero_notMem_strncpy _ _
    rw [hcopy h0'] at h
    have hn := hfull (cstr q) (by rw [h])
    rw [List.take_append_of_le_length hn] at h ⊢
    exact h.symm
  · intro h
    have h0' : 0 ∉ l := fun hmem => h0 (mem_of_eq_take hp h 0 hmem)
    have hn := hfull q (by rw [← h])
    rw [hcopy h0', List.take_append_of_le_length hn]
    rw [List.take_append_of_le_length hn] at h
    exact h.symm

end BTron.Lib
