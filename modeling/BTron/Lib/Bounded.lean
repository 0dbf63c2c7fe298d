import Mathlib.Data.List.Nodup
import Mathlib.Data.List.TakeDrop

namespace BTron.Lib.Bounded

variable {α : Type*} {l ts : List α} {a : α} {max : Nat}

-- An array of `max` elements takes what there is room for.
def push (max : Nat) (l : List α) (a : α) : List α := if l.length < max then l ++ [a] else l

-- It holds the first elements of the unbounded list.
theorem push_take : push max (ts.take max) a = (ts ++ [a]).take max := by
  unfold push
  rw [List.length_take]
  by_cases h : ts.length < max
  · rw [if_pos (by omega), List.take_of_length_le (Nat.le_of_lt h), List.take_of_length_le]
    rw [List.length_append, List.length_singleton]
    omega
  · rw [if_neg (by omega), List.take_append_of_le_length (Nat.not_lt.mp h)]

theorem nodup_take_concat :
    ((ts ++ [a]).take max).Nodup ↔ (ts.take max).Nodup ∧ (ts.length < max → a ∉ ts) := by
  by_cases h : ts.length < max
  · have hall : (ts ++ [a]).take max = ts ++ [a] := by
      apply List.take_of_length_le
      rw [List.length_append, List.length_singleton]
      omega
    rw [hall, List.take_of_length_le (Nat.le_of_lt h), List.nodup_append_comm,
      List.singleton_append, List.nodup_cons]
    simp only [h, true_imp_iff]
    exact and_comm
  · rw [List.take_append_of_le_length (Nat.not_lt.mp h)]
    simp only [h, false_imp_iff, and_true]

theorem forall_take_concat {P : Nat → α → Prop} :
    (∀ k, ∀ x ∈ ((ts ++ [a]).take max)[k]?, P k x) ↔
      (∀ k, ∀ x ∈ (ts.take max)[k]?, P k x) ∧ (ts.length < max → P ts.length a) := by
  by_cases h : ts.length < max
  · have hall : (ts ++ [a]).take max = ts ++ [a] := by
      apply List.take_of_length_le
      rw [List.length_append, List.length_singleton]
      omega
    rw [hall, List.take_of_length_le (Nat.le_of_lt h)]
    simp only [h, true_imp_iff, Option.mem_def]
    constructor
    · intro hP
      refine ⟨fun k x hx => hP k x ?_, hP ts.length a (by simp)⟩
      rwa [List.getElem?_append_left (List.getElem?_eq_some_iff.mp hx).1]
    · rintro ⟨hP, ha⟩ k x hx
      by_cases hk : k < ts.length
      · rw [List.getElem?_append_left hk] at hx
        exact hP k x hx
      · rw [List.getElem?_append_right (Nat.not_lt.mp hk), List.getElem?_singleton] at hx
        split at hx
        · obtain rfl : k = ts.length := by omega
          obtain rfl := Option.some.inj hx
          exact ha
        · cases hx
  · rw [List.take_append_of_le_length (Nat.not_lt.mp h)]
    simp only [h, false_imp_iff, and_true]

section New

variable [DecidableEq α]

-- Elements that are there already are not repeated.
def addNew (ts : List α) (a : α) : List α := if a ∈ ts then ts else ts ++ [a]

@[simp] theorem mem_addNew {x : α} : x ∈ addNew ts a ↔ x ∈ ts ∨ x = a := by
  unfold addNew
  split
  · rename_i h
    exact ⟨.inl, fun hx => hx.elim id fun heq => heq ▸ h⟩
  · simp

theorem addNew_nodup_iff : ((addNew ts a).take max).Nodup ↔ (ts.take max).Nodup := by
  unfold addNew
  split
  · exact Iff.rfl
  · rename_i h
    rw [nodup_take_concat]
    exact and_iff_left fun _ => h

theorem mem_foldl_addNew {as : List α} {x : α} :
    x ∈ as.foldl addNew ts ↔ x ∈ ts ∨ x ∈ as := by
  induction as generalizing ts with
  | nil => simp
  | cons a as ih => rw [List.foldl_cons, ih, mem_addNew, List.mem_cons, or_assoc]

theorem foldl_addNew_nodup_iff {as : List α} :
    ((as.foldl addNew ts).take max).Nodup ↔ (ts.take max).Nodup := by
  induction as generalizing ts with
  | nil => exact Iff.rfl
  | cons a as ih => rw [List.foldl_cons, ih, addNew_nodup_iff]

theorem foldl_addNew_nodup {as : List α} (h : ts.Nodup) : (as.foldl addNew ts).Nodup := by
  have hall := @foldl_addNew_nodup_iff _ ts ((as.foldl addNew ts).length + ts.length) _ as
  rw [List.take_of_length_le (Nat.le_add_right _ _), List.take_of_length_le (Nat.le_add_left _ _)]
    at hall
  exact hall.mpr h

-- A bounded array that takes new elements only holds the first ones too.
theorem addNew_take :
    (if a ∈ ts.take max then ts.take max else push max (ts.take max) a) =
      (addNew ts a).take max := by
  unfold addNew
  by_cases hmem : a ∈ ts
  · rw [if_pos hmem]
    split
    · rfl
    · rename_i hnot
      rw [push, if_neg]
      intro hlt
      rw [List.length_take] at hlt
      rw [List.take_of_length_le (by omega)] at hnot
      exact hnot hmem
  · rw [if_neg hmem, if_neg fun h => hmem (List.mem_of_mem_take h), push_take]

theorem addNew_forall {P : Nat → α → Prop} (ha : ∀ k, P k a) :
    (∀ k, ∀ x ∈ ((addNew ts a).take max)[k]?, P k x) ↔ ∀ k, ∀ x ∈ (ts.take max)[k]?, P k x := by
  unfold addNew
  split
  · exact Iff.rfl
  · rw [forall_take_concat]
    exact and_iff_left fun _ => ha _

theorem foldl_addNew_forall {P : Nat → α → Prop} {as : List α} (has : ∀ a ∈ as, ∀ k, P k a) :
    (∀ k, ∀ x ∈ ((as.foldl addNew ts).take max)[k]?, P k x) ↔
      ∀ k, ∀ x ∈ (ts.take max)[k]?, P k x := by
  induction as generalizing ts with
  | nil => exact Iff.rfl
  | cons a as ih =>
      rw [List.foldl_cons, ih fun a ha => has a (List.mem_cons_of_mem _ ha),
        addNew_forall (has _ List.mem_cons_self)]

end New

end BTron.Lib.Bounded
