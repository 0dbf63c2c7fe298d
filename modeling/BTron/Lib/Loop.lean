import BTron.Lib.Logged
import BTron.Lib.Run

namespace BTron.Lib

open Logged

variable {σ β : Type}

-- `for (;;) body`, of at most `fuel` turns: a turn goes on from the next state or ends with a
-- result.
def loop (body : σ → Logged (σ ⊕ β)) : Nat → σ → Logged (Option β)
  | 0, _ => pure none
  | fuel + 1, s => do
    let turn ← body s
    match turn with
    | .inl t => loop body fuel t
    | .inr b => pure (some b)

-- The loop from a state ends, with a result and with the reads of all its turns.
inductive Ends (body : σ → Logged (σ ⊕ β)) : σ → Logged β → Prop
  | stop {s : σ} {b : β} : (body s).val = .inr b → Ends body s ⟨b, (body s).log⟩
  | next {s t : σ} {x : Logged β} : (body s).val = .inl t → Ends body t x →
      Ends body s ⟨x.val, (body s).log ++ x.log⟩

-- The turn as a partial step: `none` ends the loop.
def turn (body : σ → Logged (σ ⊕ β)) (s : σ) : Option σ := (body s).val.getLeft?

variable {body : σ → Logged (σ ⊕ β)}

theorem loop_next {fuel : Nat} {s t : σ} (h : (body s).val = .inl t) :
    loop body (fuel + 1) s = ⟨(loop body fuel t).val, (body s).log ++ (loop body fuel t).log⟩ := by
  apply Logged.ext <;> simp [loop, h]

theorem loop_stop {fuel : Nat} {s : σ} {b : β} (h : (body s).val = .inr b) :
    loop body (fuel + 1) s = ⟨some b, (body s).log⟩ := by
  apply Logged.ext <;> simp [loop, h]

theorem Ends.exists_fuel {s : σ} {x : Logged β} (h : Ends body s x) :
    ∃ fuel, loop body fuel s = ⟨some x.val, x.log⟩ := by
  induction h with
  | stop hturn => exact ⟨1, loop_stop hturn⟩
  | next hturn _ ih =>
      obtain ⟨fuel, hfuel⟩ := ih
      exact ⟨fuel + 1, by rw [loop_next hturn, hfuel]⟩

theorem ends_of_fuel {fuel : Nat} {s : σ} {b : β} (h : (loop body fuel s).val = some b) :
    Ends body s ⟨b, (loop body fuel s).log⟩ := by
  induction fuel generalizing s with
  | zero => cases h
  | succ fuel ih =>
      cases hturn : (body s).val with
      | inl t =>
          rw [loop_next hturn] at h ⊢
          exact .next hturn (ih h)
      | inr b' =>
          rw [loop_stop hturn] at h ⊢
          cases h
          exact .stop hturn

-- More fuel changes nothing.
theorem loop_mono {fuel fuel' : Nat} {s : σ} {b : β} (h : (loop body fuel s).val = some b)
    (hle : fuel ≤ fuel') : loop body fuel' s = loop body fuel s := by
  induction fuel generalizing s fuel' with
  | zero => cases h
  | succ fuel ih =>
      obtain ⟨more, rfl⟩ : ∃ more, fuel' = more + 1 := ⟨fuel' - 1, by omega⟩
      cases hturn : (body s).val with
      | inl t =>
          rw [loop_next hturn] at h ⊢
          rw [loop_next hturn, ih h (by omega)]
      | inr b' => rw [loop_stop hturn, loop_stop hturn]

theorem Ends.unique {s : σ} {x y : Logged β} (hx : Ends body s x) (hy : Ends body s y) :
    x = y := by
  induction hx generalizing y with
  | stop hturn =>
      cases hy with
      | stop hturn' => cases hturn.symm.trans hturn'; rfl
      | next hturn' _ => cases hturn.symm.trans hturn'
  | next hturn _ ih =>
      cases hy with
      | stop hturn' => cases hturn.symm.trans hturn'
      | next hturn' hy =>
          cases hturn.symm.trans hturn'
          rw [ih hy]

theorem next_turn {s t : σ} : Next (turn body) s t ↔ (body s).val = .inl t :=
  Sum.getLeft?_eq_some_iff

theorem Ends.of_reaches {s t : σ} {x : Logged β} (h : Ends body s x)
    (hr : Reaches (turn body) s t) : ∃ y, Ends body t y ∧ y.val = x.val := by
  induction hr with
  | refl => exact ⟨x, h, rfl⟩
  | tail _ hturn ih =>
      obtain ⟨y, hy, hval⟩ := ih
      rw [next_turn] at hturn
      cases hy with
      | stop hstop => cases hturn.symm.trans hstop
      | next hnext hy =>
          cases hturn.symm.trans hnext
          exact ⟨_, hy, hval⟩

-- A loop ends from every state from which it reaches one that it ends from.
theorem Ends.of_later {s t : σ} {x : Logged β} (h : Ends body t x)
    (hr : Reaches (turn body) s t) : ∃ y, Ends body s y ∧ y.val = x.val := by
  induction hr using Relation.ReflTransGen.head_induction_on with
  | refl => exact ⟨x, h, rfl⟩
  | head hturn _ ih =>
      obtain ⟨y, hy, hval⟩ := ih
      exact ⟨_, .next (next_turn.mp hturn) hy, hval⟩

-- A loop that ends does so in a state that it reaches.
theorem Ends.exists_last {s : σ} {x : Logged β} (h : Ends body s x) :
    ∃ t, Reaches (turn body) s t ∧ (body t).val = .inr x.val := by
  induction h with
  | stop hturn => exact ⟨_, .refl, hturn⟩
  | next hturn _ ih =>
      obtain ⟨t, hr, hstop⟩ := ih
      exact ⟨t, .head (next_turn.mpr hturn) hr, hstop⟩

-- The rule for total correctness: a turn keeps the invariant, reads only what is allowed and
-- makes the variant smaller.
theorem exists_ends {I : σ → Prop} {P : Nat → Prop} (size : σ → Nat)
    (hread : ∀ s, I s → Within P (body s))
    (hnext : ∀ s t, I s → (body s).val = .inl t → I t ∧ size t < size s) {s : σ} (hs : I s) :
    ∃ x, Ends body s x ∧ Within P x := by
  obtain ⟨m, hm⟩ : ∃ m, size s < m := ⟨size s + 1, Nat.lt_succ_self _⟩
  induction m generalizing s with
  | zero => omega
  | succ m ih =>
      cases hturn : (body s).val with
      | inl t =>
          obtain ⟨ht, hlt⟩ := hnext s t hs hturn
          obtain ⟨x, hx, hp⟩ := ih ht (by omega)
          refine ⟨_, .next hturn hx, fun i hi => ?_⟩
          rcases List.mem_append.mp hi with hi | hi
          · exact hread s hs i hi
          · exact hp i hi
      | inr b => exact ⟨_, .stop hturn, hread s hs⟩

-- The rule for what the loop ends with.
theorem Ends.result {I : σ → Prop} {Q : β → Prop} {s : σ} {x : Logged β} (h : Ends body s x)
    (hnext : ∀ s t, I s → (body s).val = .inl t → I t)
    (hstop : ∀ s b, I s → (body s).val = .inr b → Q b) (hs : I s) : Q x.val := by
  induction h with
  | stop hturn => exact hstop _ _ hs hturn
  | next hturn _ ih => exact ih (hnext _ _ hs hturn)

-- What holds where the loop ends, and of a state if it holds of the next one, holds where the
-- loop starts. The reads of the turns may be used.
theorem Ends.backward {M : σ → Prop} {P : Nat → Prop} {s : σ} {x : Logged β}
    (h : Ends body s x) (hread : Within P x)
    (hstop : ∀ s b, Within P (body s) → (body s).val = .inr b → M s)
    (hnext : ∀ s t, Within P (body s) → (body s).val = .inl t → M t → M s) : M s := by
  induction h with
  | stop hturn => exact hstop _ _ hread hturn
  | next hturn _ ih =>
      exact hnext _ _ (fun i hi => hread i (List.mem_append_left _ hi)) hturn
        (ih fun i hi => hread i (List.mem_append_right _ hi))

-- With enough fuel the function returns, and it has read nothing but `P`.
def Returns (P : Nat → Prop) (f : Nat → Logged (Option β)) : Prop :=
  ∃ fuel b, (f fuel).val = some b ∧ Within P (f fuel)

-- With enough fuel the function returns `b`.
def Gives (f : Nat → Logged (Option β)) (b : β) : Prop := ∃ fuel, (f fuel).val = some b

theorem Ends.gives {s : σ} {x : Logged β} (h : Ends body s x) :
    Gives (fun fuel => loop body fuel s) x.val := by
  obtain ⟨fuel, hfuel⟩ := h.exists_fuel
  exact ⟨fuel, congrArg Logged.val hfuel⟩

theorem returns_loop {P : Nat → Prop} {s : σ} :
    Returns P (fun fuel => loop body fuel s) ↔ ∃ x, Ends body s x ∧ Within P x := by
  constructor
  · rintro ⟨fuel, b, hval, hread⟩
    exact ⟨_, ends_of_fuel hval, hread⟩
  · rintro ⟨x, hx, hread⟩
    obtain ⟨fuel, hfuel⟩ := hx.exists_fuel
    refine ⟨fuel, x.val, congrArg Logged.val hfuel, ?_⟩
    dsimp only
    rw [hfuel]
    exact hread

end BTron.Lib
