import Mathlib.Data.List.Basic

namespace BTron.Lib

section Stops

variable {σ α : Type*}

-- The places where a scan of a list starts a turn, each with the state it is in there. A turn
-- takes the next element and `(next ..).2` more, and `k` elements are left of the current turn.
def stops (next : σ → List α → σ × Nat) : Nat → σ → List α → List (σ × List α)
  | _, _, [] => []
  | k + 1, s, _ :: rest => stops next k s rest
  | 0, s, c :: rest =>
    (s, c :: rest) :: stops next (next s (c :: rest)).2 (next s (c :: rest)).1 rest

variable {next : σ → List α → σ × Nat}

@[simp] theorem stops_nil (k : Nat) (s : σ) : stops next k s [] = [] := by
  cases k <;> rfl

theorem stops_drop (k : Nat) (s : σ) (l : List α) :
    stops next k s l = stops next 0 s (l.drop k) := by
  induction k generalizing l with
  | zero => rfl
  | succ k ih =>
      cases l with
      | nil => simp
      | cons c rest => exact ih rest

theorem stops_cons (s : σ) (c : α) (rest : List α) :
    stops next 0 s (c :: rest) = (s, c :: rest) ::
      stops next 0 (next s (c :: rest)).1 (rest.drop (next s (c :: rest)).2) := by
  rw [stops, stops_drop]

theorem ne_nil_of_mem_stops {k : Nat} {s : σ} {l : List α} {x : σ × List α}
    (h : x ∈ stops next k s l) : x.2 ≠ [] := by
  induction l generalizing k s with
  | nil => simp at h
  | cons c rest ih =>
      cases k with
      | zero =>
          rw [stops] at h
          obtain rfl | h := List.mem_cons.mp h
          · exact List.cons_ne_nil c rest
          · exact ih h
      | succ k => exact ih h

-- Two scans that agree at the stops of the first one have the same stops.
theorem stops_congr {next' : σ → List α → σ × Nat} {k : Nat} {s : σ} {l : List α}
    (h : ∀ x ∈ stops next k s l, next' x.1 x.2 = next x.1 x.2) :
    stops next' k s l = stops next k s l := by
  induction l generalizing k s with
  | nil => simp
  | cons c rest ih =>
      cases k with
      | zero =>
          have hhead : next' s (c :: rest) = next s (c :: rest) := h _ List.mem_cons_self
          rw [stops, stops, hhead, ih fun x hx => h x (List.mem_cons_of_mem _ hx)]
      | succ k => exact ih h

end Stops

section Emit

variable {α : Type*} {guard max : Nat}

-- Texts are put out one after another in `max` cells. A text that does not fit below the last
-- cell is left out, and the first one to start `guard` cells before the end stops the output.
def emit (guard max : Nat) : List (List α) → List α → List α
  | [], out => out
  | p :: ps, out =>
    if out.length + guard < max then
      emit guard max ps (if out.length + p.length < max then out ++ p else out)
    else out

-- Behind `n` cells all the texts are put out.
def Fits (guard max : Nat) : List (List α) → Nat → Prop
  | [], _ => True
  | p :: ps, n => n + guard < max ∧ n + p.length < max ∧ Fits guard max ps (n + p.length)

-- No text behind the first one that is left out is put out.
def NoGap (guard max : Nat) : List (List α) → Nat → Prop
  | [], _ => True
  | p :: ps, n =>
    n + guard < max →
      if n + p.length < max then NoGap guard max ps (n + p.length)
      else ∀ q ∈ ps, q = [] ∨ max ≤ n + q.length

-- The number of texts before the first one that is left out.
def fitting (guard max : Nat) : List (List α) → Nat → Nat
  | [], _ => 0
  | p :: ps, n =>
    if n + guard < max ∧ n + p.length < max then fitting guard max ps (n + p.length) + 1 else 0

variable {ps qs : List (List α)} {out : List α}

theorem emit_grows (ps : List (List α)) (out : List α) : out <+: emit guard max ps out := by
  induction ps generalizing out with
  | nil => exact List.prefix_refl out
  | cons p ps ih =>
      unfold emit
      split_ifs
      · exact (List.prefix_append out p).trans (ih _)
      · exact ih out
      · exact List.prefix_refl out

-- Without room for another text the output stays as it is.
theorem emit_stuck (h : ¬out.length + guard < max) : emit guard max ps out = out := by
  cases ps with
  | nil => rfl
  | cons p ps => rw [emit, if_neg h]

theorem emit_append :
    emit guard max (ps ++ qs) out = emit guard max qs (emit guard max ps out) := by
  induction ps generalizing out with
  | nil => rfl
  | cons p ps ih =>
      by_cases hguard : out.length + guard < max
      · rw [List.cons_append, emit, emit, if_pos hguard, if_pos hguard, ih]
      · rw [List.cons_append, emit, emit, if_neg hguard, if_neg hguard, emit_stuck hguard]

theorem emit_fits (h : Fits guard max ps out.length) :
    emit guard max ps out = out ++ ps.flatten := by
  induction ps generalizing out with
  | nil => simp [emit]
  | cons p ps ih =>
      obtain ⟨hguard, hroom, hrest⟩ := h
      rw [← List.length_append] at hrest
      rw [emit, if_pos hguard, if_pos hroom, ih hrest, List.flatten_cons, List.append_assoc]

-- In a buffer for all of the texts only the guard can stop the output.
theorem emit_cases (hne : [] ∉ ps) (hroom : out.length + ps.flatten.length < max) :
    Fits guard max ps out.length ∨ ¬(emit guard max ps out).length + guard < max ∧
      (emit guard max ps out).length < out.length + ps.flatten.length := by
  induction ps generalizing out with
  | nil => exact .inl trivial
  | cons p ps ih =>
      rw [List.mem_cons, not_or] at hne
      have hp := List.length_pos_iff.mpr (Ne.symm hne.1)
      rw [List.flatten_cons, List.length_append] at hroom
      have hfit : out.length + p.length < max := by omega
      by_cases hguard : out.length + guard < max
      · obtain hrest | ⟨hstop, hshort⟩ := @ih (out ++ p) hne.2 (by rw [List.length_append]; omega)
        · rw [List.length_append] at hrest
          exact .inl ⟨hguard, hfit, hrest⟩
        · right
          rw [emit, if_pos hguard, if_pos hfit]
          rw [List.length_append] at hshort
          rw [List.flatten_cons, List.length_append]
          exact ⟨hstop, by omega⟩
      · right
        rw [emit, if_neg hguard, List.flatten_cons, List.length_append]
        exact ⟨hguard, by omega⟩

theorem emit_eq_iff (hne : [] ∉ ps) (hroom : out.length + ps.flatten.length < max) :
    emit guard max ps out = out ++ ps.flatten ↔ Fits guard max ps out.length := by
  refine ⟨fun heq => ?_, emit_fits⟩
  obtain hfits | ⟨_, hshort⟩ := @emit_cases _ guard _ _ _ hne hroom
  · exact hfits
  · rw [heq, List.length_append] at hshort
    omega

-- The guard matters for the last text at most.
theorem fits_iff (hne : [] ∉ ps) {n : Nat} (hroom : n + ps.flatten.length < max) :
    Fits guard max ps n ↔ ps = [] ∨ n + ps.dropLast.flatten.length + guard < max := by
  induction ps generalizing n with
  | nil => simp [Fits]
  | cons p ps ih =>
      rw [List.mem_cons, not_or] at hne
      have hp := List.length_pos_iff.mpr (Ne.symm hne.1)
      rw [List.flatten_cons, List.length_append] at hroom
      rw [Fits, ih hne.2 (by omega)]
      cases ps with
      | nil => simp; omega
      | cons q ps =>
          have hdrop : (p :: q :: ps).dropLast = p :: (q :: ps).dropLast := rfl
          rw [hdrop, List.flatten_cons, List.length_append]
          have hq : q :: ps ≠ [] := List.cons_ne_nil q ps
          simp only [hq, List.cons_ne_nil, false_or]
          omega

theorem fits_of_room {n : Nat} (h : n + ps.flatten.length + guard < max) :
    Fits guard max ps n := by
  induction ps generalizing n with
  | nil => trivial
  | cons p ps ih =>
      rw [List.flatten_cons, List.length_append] at h
      exact ⟨by omega, by omega, ih (by omega)⟩

-- Texts that differ in a cell are told apart by the output, if the first of them is no longer than
-- the guard.
theorem emit_ne {p q : List α} (hne : [] ∉ ps ++ [q])
    (hroom : out.length + (ps ++ q :: qs).flatten.length < max) (hp : p.length ≤ guard)
    (hdiffer : ¬p <+: q ++ qs.flatten) {rs : List (List α)} :
    emit guard max (ps ++ p :: rs) out ≠ out ++ (ps ++ q :: qs).flatten := by
  intro heq
  rw [List.mem_append, not_or, List.mem_singleton] at hne
  have hq := List.length_pos_iff.mpr (Ne.symm hne.2)
  rw [List.flatten_append, List.flatten_cons] at heq hroom
  rw [List.length_append, List.length_append] at hroom
  rw [emit_append] at heq
  have hfirst : out.length + ps.flatten.length < max := by omega
  obtain hfits | ⟨hstop, hshort⟩ := @emit_cases _ guard _ _ _ hne.1 hfirst
  · rw [emit_fits hfits, emit] at heq
    by_cases hguard : (out ++ ps.flatten).length + guard < max
    · have hfit : (out ++ ps.flatten).length + p.length < max := by omega
      rw [if_pos hguard, if_pos hfit, ← List.append_assoc] at heq
      have hgrows := @emit_grows _ guard max rs (out ++ ps.flatten ++ p)
      rw [heq] at hgrows
      exact hdiffer ((List.prefix_append_right_inj _).mp hgrows)
    · rw [if_neg hguard] at heq
      have hlen := congrArg List.length heq
      simp only [List.length_append] at hlen
      omega
  · rw [emit_stuck hstop] at heq
    have hlen := congrArg List.length heq
    simp only [List.length_append] at hlen
    omega

theorem emit_length_lt (h : out.length < max) : (emit guard max ps out).length < max := by
  induction ps generalizing out with
  | nil => exact h
  | cons p ps ih =>
      unfold emit
      split_ifs with hguard hfit
      · exact ih (by rwa [List.length_append])
      · exact ih h
      · exact h

theorem emit_eq_self (h : ∀ q ∈ ps, q = [] ∨ max ≤ out.length + q.length) :
    emit guard max ps out = out := by
  induction ps with
  | nil => rfl
  | cons p ps ih =>
      have hrest := ih fun q hq => h q (List.mem_cons_of_mem p hq)
      rw [emit]
      obtain rfl | hlong := h p List.mem_cons_self
      · simp [hrest]
      · rw [if_neg (Nat.not_lt.mpr hlong), hrest, ite_self]

-- A text that fits is put out, or another one in its place.
theorem length_lt_emit {q : List α} (hq : q ∈ ps) (hne : q ≠ []) (hguard : out.length + guard < max)
    (hfit : out.length + q.length < max) : out.length < (emit guard max ps out).length := by
  induction ps with
  | nil => exact absurd hq List.not_mem_nil
  | cons p ps ih =>
      rw [emit, if_pos hguard]
      by_cases hp : p = []
      · subst hp
        rw [List.append_nil, ite_self]
        exact ih ((List.mem_cons.mp hq).resolve_left hne)
      · split_ifs with hroom
        · have hlen := (@emit_grows _ guard max ps (out ++ p)).length_le
          have hpos := List.length_pos_iff.mpr hp
          rw [List.length_append] at hlen
          omega
        · obtain rfl | hq := List.mem_cons.mp hq
          · exact absurd hfit hroom
          · exact ih hq

theorem emit_eq_take (h : NoGap guard max ps out.length) :
    emit guard max ps out = out ++ (ps.take (fitting guard max ps out.length)).flatten := by
  induction ps generalizing out with
  | nil => simp [emit, fitting]
  | cons p ps ih =>
      rw [NoGap] at h
      by_cases hguard : out.length + guard < max
      · have h := h hguard
        rw [emit, fitting, if_pos hguard]
        by_cases hfit : out.length + p.length < max
        · rw [if_pos hfit, ← List.length_append] at h
          rw [if_pos hfit, if_pos ⟨hguard, hfit⟩, ih h, List.take_succ_cons, List.flatten_cons,
            List.append_assoc, List.length_append]
        · rw [if_neg hfit] at h
          rw [if_neg hfit, if_neg (fun hand => hfit hand.2), emit_eq_self h]
          simp
      · rw [emit, fitting, if_neg hguard, if_neg (fun hand => hguard hand.1)]
        simp

theorem noGap_of_emit {k : Nat} (h : emit guard max ps out = out ++ (ps.take k).flatten) :
    NoGap guard max ps out.length := by
  induction ps generalizing out k with
  | nil => trivial
  | cons p ps ih =>
      rw [NoGap]
      intro hguard
      rw [emit, if_pos hguard] at h
      by_cases hfit : out.length + p.length < max
      · rw [if_pos hfit] at h ⊢
        rw [← List.length_append]
        cases k with
        | zero =>
            have hgrows := @emit_grows _ guard max ps (out ++ p)
            rw [h, List.take_zero, List.flatten_nil] at hgrows
            have hp : p = [] := by
              have hlen := hgrows.length_le
              rw [List.append_nil, List.length_append] at hlen
              exact List.length_eq_zero_iff.mp (by omega)
            subst hp
            apply @ih _ 0
            simpa using h
        | succ k =>
            apply @ih _ k
            rw [h, List.take_succ_cons, List.flatten_cons, List.append_assoc]
      · rw [if_neg hfit] at h ⊢
        intro q hq
        by_contra hsome
        obtain ⟨hne, hroom⟩ := not_or.mp hsome
        have hgrown := length_lt_emit hq hne hguard (Nat.not_le.mp hroom)
        have hlt : (emit guard max ps out).length < max := emit_length_lt (by omega)
        rw [h] at hgrown hlt
        cases k with
        | zero => simp at hgrown
        | succ k =>
            rw [List.take_succ_cons, List.flatten_cons, List.length_append,
              List.length_append] at hlt
            omega

-- The output is the first texts and a property holds of what is left of them, if and only if
-- there is no gap and it holds behind the texts that fit.
theorem emit_cut_iff {P : List α → Prop} :
    (∃ k, emit guard max ps [] = (ps.take k).flatten ∧ P (ps.drop k).flatten) ↔
      NoGap guard max ps 0 ∧ P (ps.drop (fitting guard max ps 0)).flatten := by
  constructor
  · rintro ⟨k, hk, hp⟩
    have hgap : NoGap guard max ps 0 := @noGap_of_emit _ guard max ps [] k (by simpa using hk)
    have htake := @emit_eq_take _ guard max ps [] hgap
    rw [hk, List.nil_append, List.length_nil] at htake
    have hsplit : (ps.take k).flatten ++ (ps.drop k).flatten =
        (ps.take (fitting guard max ps 0)).flatten ++
          (ps.drop (fitting guard max ps 0)).flatten := by
      rw [← List.flatten_append, ← List.flatten_append, List.take_append_drop,
        List.take_append_drop]
    rw [htake] at hsplit
    exact ⟨hgap, List.append_cancel_left hsplit ▸ hp⟩
  · rintro ⟨hgap, hp⟩
    refine ⟨_, ?_, hp⟩
    simpa using @emit_eq_take _ guard max ps [] hgap

-- What is put out behind `n` cells.
def added (guard max : Nat) : List (List α) → Nat → List α
  | [], _ => []
  | p :: ps, n =>
    if n + guard < max then
      if n + p.length < max then p ++ added guard max ps (n + p.length) else added guard max ps n
    else []

-- The texts put out behind the first one that is left out go on as that one does.
def GoesOn (guard max : Nat) : List (List α) → Nat → Prop
  | [], _ => True
  | p :: ps, n =>
    n + guard < max →
      if n + p.length < max then GoesOn guard max ps (n + p.length)
      else added guard max ps n <+: p

theorem emit_eq_added (ps : List (List α)) (out : List α) :
    emit guard max ps out = out ++ added guard max ps out.length := by
  induction ps generalizing out with
  | nil => simp [emit, added]
  | cons p ps ih =>
      rw [emit, added]
      split_ifs
      · rw [ih, List.append_assoc, List.length_append]
      · exact ih out
      · rw [List.append_nil]

theorem added_length_lt {ps : List (List α)} {n : Nat} (h : n < max) :
    n + (added guard max ps n).length < max := by
  induction ps generalizing n with
  | nil => simpa [added] using h
  | cons p ps ih =>
      unfold added
      split_ifs with hguard hfit
      · have := ih hfit
        rw [List.length_append]
        omega
      · exact ih h
      · simpa using h

theorem emit_prefix_iff :
    emit guard max ps out <+: out ++ ps.flatten ↔ GoesOn guard max ps out.length := by
  rw [emit_eq_added, List.prefix_append_right_inj]
  generalize out.length = n
  induction ps generalizing n with
  | nil => simp [added, GoesOn]
  | cons p ps ih =>
      rw [added, GoesOn, List.flatten_cons]
      by_cases hguard : n + guard < max
      · simp only [hguard, if_true, true_imp_iff]
        by_cases hfit : n + p.length < max
        · rw [if_pos hfit, if_pos hfit, List.prefix_append_right_inj]
          exact ih _
        · rw [if_neg hfit, if_neg hfit]
          have hlt := @added_length_lt _ guard max ps n (by omega)
          refine ⟨fun h => ?_, fun h => h.trans (List.prefix_append p _)⟩
          exact List.prefix_of_prefix_length_le h (List.prefix_append p _) (by omega)
      · simp [hguard]

theorem goesOn_of_le (h : ∀ p ∈ ps, p.length ≤ guard) {n : Nat} : GoesOn guard max ps n := by
  induction ps generalizing n with
  | nil => trivial
  | cons p ps ih =>
      rw [List.forall_mem_cons] at h
      intro hguard
      rw [if_pos (by omega)]
      exact ih h.2

theorem mem_emit {a : α} (h : a ∈ emit guard max ps out) : a ∈ out ∨ ∃ p ∈ ps, a ∈ p := by
  induction ps generalizing out with
  | nil => exact .inl h
  | cons p ps ih =>
      unfold emit at h
      split_ifs at h
      · obtain h | ⟨q, hq, ha⟩ := ih h
        · exact (List.mem_append.mp h).imp_right fun ha => ⟨p, List.mem_cons_self, ha⟩
        · exact .inr ⟨q, List.mem_cons_of_mem p hq, ha⟩
      · exact (ih h).imp_right fun ⟨q, hq, ha⟩ => ⟨q, List.mem_cons_of_mem p hq, ha⟩
      · exact .inl h

theorem added_eq_nil_iff {n : Nat} (hguard : n + guard < max) :
    added guard max ps n = [] ↔ ∀ q ∈ ps, q = [] ∨ max ≤ n + q.length := by
  induction ps with
  | nil => simp [added]
  | cons p ps ih =>
      rw [added, if_pos hguard, List.forall_mem_cons]
      by_cases hfit : n + p.length < max
      · rw [if_pos hfit, List.append_eq_nil_iff]
        constructor
        · rintro ⟨rfl, hrest⟩
          exact ⟨.inl rfl, ih.mp (by simpa using hrest)⟩
        · rintro ⟨hp, hrest⟩
          obtain rfl := hp.resolve_right (by omega)
          exact ⟨rfl, by simpa using ih.mpr hrest⟩
      · rw [if_neg hfit, ih]
        exact ⟨fun h => ⟨.inr (by omega), h⟩, fun h => h.2⟩

-- Where no text starts another one, the output goes on only where nothing is added.
theorem goesOn_iff_noGap {n : Nat}
    (hfree : ∀ p ∈ ps, ∀ q ∈ ps, q ≠ [] → q.length < p.length → ¬q <+: p) :
    GoesOn guard max ps n ↔ NoGap guard max ps n := by
  induction ps generalizing n with
  | nil => exact Iff.rfl
  | cons p ps ih =>
      rw [GoesOn, NoGap]
      refine forall_congr' fun hguard => ?_
      by_cases hfit : n + p.length < max
      · rw [if_pos hfit, if_pos hfit]
        exact ih fun p hp q hq => hfree p (List.mem_cons_of_mem _ hp) q (List.mem_cons_of_mem _ hq)
      · rw [if_neg hfit, if_neg hfit, ← added_eq_nil_iff hguard]
        refine ⟨fun hpre => ?_, fun hnil => hnil ▸ List.nil_prefix⟩
        by_contra hne
        -- the first text that is added starts the one that is left out
        have hfirst : ∃ q ∈ ps, q ≠ [] ∧ n + q.length < max ∧ q <+: added guard max ps n := by
          clear hpre ih hfree
          induction ps with
          | nil => exact absurd rfl hne
          | cons q ps ih =>
              rw [added, if_pos hguard] at hne ⊢
              by_cases hroom : n + q.length < max
              · rw [if_pos hroom] at hne ⊢
                by_cases hq : q = []
                · subst hq
                  obtain ⟨q, hq, hrest⟩ := ih (by simpa using hne)
                  exact ⟨q, List.mem_cons_of_mem _ hq, by simpa using hrest⟩
                · exact ⟨q, List.mem_cons_self, hq, hroom, List.prefix_append q _⟩
              · rw [if_neg hroom] at hne ⊢
                obtain ⟨q, hq, hrest⟩ := ih hne
                exact ⟨q, List.mem_cons_of_mem _ hq, hrest⟩
        obtain ⟨q, hq, hqne, hroom, hqpre⟩ := hfirst
        exact hfree p List.mem_cons_self q (List.mem_cons_of_mem _ hq) hqne (by omega)
          (hqpre.trans hpre)

end Emit

end BTron.Lib
