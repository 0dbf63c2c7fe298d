import Mathlib.Data.Finset.Card
import Mathlib.Data.List.Nodup
import Mathlib.Logic.Function.Iterate

namespace BTron.Lib

variable {α : Type} {inside : α → Prop} {next : α → α}

-- `next` leads from a node out of the inside in `n` steps, and not before.
def Leaves (inside : α → Prop) (next : α → α) : Nat → α → Prop
  | 0, a => ¬inside a
  | n + 1, a => inside a ∧ Leaves inside next n (next a)

theorem Leaves.unique {n m : Nat} {a : α} (hn : Leaves inside next n a)
    (hm : Leaves inside next m a) : n = m := by
  induction n generalizing m a with
  | zero =>
      cases m with
      | zero => rfl
      | succ m => exact absurd hm.1 hn
  | succ n ih =>
      cases m with
      | zero => exact absurd hn.1 hm
      | succ m => rw [ih hn.2 hm.2]

-- The nodes passed are all different: each is left in its own number of steps.
theorem Leaves.exists_path {n : Nat} {a : α} (h : Leaves inside next n a) :
    ∃ l : List α, l.length = n ∧ l.Nodup ∧
      ∀ b ∈ l, inside b ∧ ∃ k ≤ n, Leaves inside next k b := by
  induction n generalizing a with
  | zero => exact ⟨[], rfl, .nil, by simp⟩
  | succ n ih =>
      obtain ⟨l, hlen, hnodup, hl⟩ := ih h.2
      have hnew : a ∉ l := by
        intro ha
        obtain ⟨_, k, hk, hleaves⟩ := hl a ha
        have := h.unique hleaves
        omega
      refine ⟨a :: l, by simp [hlen], List.nodup_cons.mpr ⟨hnew, hnodup⟩, ?_⟩
      rw [List.forall_mem_cons]
      refine ⟨⟨h.1, n + 1, le_rfl, h⟩, fun b hb => ?_⟩
      obtain ⟨hin, k, hk, hleaves⟩ := hl b hb
      exact ⟨hin, k, by omega, hleaves⟩

theorem Leaves.le_card {n : Nat} {a : α} (h : Leaves inside next n a) {s : Finset α}
    (hs : ∀ b, inside b → b ∈ s) : n ≤ s.card := by
  classical
  obtain ⟨l, hlen, hnodup, hl⟩ := h.exists_path
  rw [← hlen, ← List.toFinset_card_of_nodup hnodup]
  exact Finset.card_le_card fun b hb => hs b (hl b (List.mem_toFinset.mp hb)).1

-- Where the steps inside stay in a set and decrease a rank, the inside is left.
theorem exists_leaves {P : α → Prop} [DecidablePred inside] (rank : α → Nat)
    (h : ∀ a, P a → inside a → P (next a) ∧ rank (next a) < rank a) {a : α} (ha : P a) :
    ∃ n, Leaves inside next n a ∧ P (next^[n] a) := by
  induction hr : rank a using Nat.strong_induction_on generalizing a with
  | _ r ih =>
      by_cases hin : inside a
      · obtain ⟨hnext, hlt⟩ := h a ha hin
        obtain ⟨n, hn, hend⟩ := ih _ (hr ▸ hlt) hnext rfl
        exact ⟨n + 1, ⟨hin, hn⟩, hend⟩
      · exact ⟨0, hin, ha⟩

theorem Leaves.not_inside {n : Nat} {a : α} (h : Leaves inside next n a) :
    ¬inside (next^[n] a) := by
  induction n generalizing a with
  | zero => exact h
  | succ n ih => exact ih h.2

end BTron.Lib
