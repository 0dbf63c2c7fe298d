import Mathlib.Data.List.Basic
import Mathlib.Logic.Relation
import Mathlib.Order.WellFounded

namespace BTron.Lib

open Relation

variable {σ : Type}

-- What every step preserves holds in every state a run reaches.
theorem run_preserves {step : σ → σ → Prop} {P : σ → Prop}
    (hstep : ∀ s s', P s → step s s' → P s') {s s' : σ} (h0 : P s)
    (hrun : ReflTransGen step s s') : P s' := by
  induction hrun with
  | refl => exact h0
  | tail _ hlast ih => exact hstep _ _ ih hlast

-- A loop is its body as a partial step: `none` leaves the loop.
def Next (step : σ → Option σ) (s s' : σ) : Prop := step s = some s'

def Reaches (step : σ → Option σ) : σ → σ → Prop := ReflTransGen (Next step)

-- The loop entered in `s` is left in `t`.
def Exits (step : σ → Option σ) (s t : σ) : Prop := Reaches step s t ∧ step t = none

def Halts (step : σ → Option σ) (s : σ) : Prop := ∃ t, Exits step s t

-- At most `fuel` turns of the loop.
def runFor (step : σ → Option σ) : Nat → σ → Option σ
  | 0, _ => none
  | fuel + 1, s =>
    match step s with
    | none => some s
    | some s' => runFor step fuel s'

-- `n` turns of the loop, where it takes so many.
def turns (step : σ → Option σ) : Nat → σ → Option σ
  | 0, s => some s
  | n + 1, s => (step s).bind (turns step n)

-- A turn of a loop that goes on, leaves the loop, or uses what is not there.
inductive Outcome (σ : Type)
  | go (s : σ)
  | leave
  | fault

def Outcome.ofOption : Option σ → Outcome σ
  | none => .fault
  | some s => .go s

-- The state in which the loop goes on
def Outcome.next : Outcome σ → Option σ
  | .go s => some s
  | _ => none

theorem Outcome.next_eq_some {o : Outcome σ} {s : σ} : o.next = some s ↔ o = .go s := by
  cases o <;> simp [Outcome.next]

variable {step : σ → Option σ}

theorem reaches_of_turns {n : Nat} {s t : σ} (h : turns step n s = some t) :
    Reaches step s t := by
  induction n generalizing s with
  | zero =>
      cases h
      exact .refl
  | succ n ih =>
      obtain ⟨s', hs', ht⟩ := Option.bind_eq_some_iff.mp h
      exact .head hs' (ih ht)

theorem Exits.stop {s : σ} (h : step s = none) : Exits step s s := ⟨.refl, h⟩

theorem Exits.next {s s' t : σ} (h : step s = some s') (ht : Exits step s' t) : Exits step s t :=
  ⟨ht.1.head h, ht.2⟩

theorem Exits.unique {s t t' : σ} (h : Exits step s t) (h' : Exits step s t') : t = t' := by
  obtain ⟨hrun, hstop⟩ := h
  induction hrun using ReflTransGen.head_induction_on with
  | refl =>
      cases h'.1.cases_head with
      | inl heq => exact heq
      | inr hnext =>
          obtain ⟨c, hc, _⟩ := hnext
          cases hstop.symm.trans hc
  | head hab _ ih =>
      cases h'.1.cases_head with
      | inl heq =>
          subst heq
          cases h'.2.symm.trans hab
      | inr hnext =>
          obtain ⟨c, hc, hrest⟩ := hnext
          obtain rfl := Option.some.inj (hab.symm.trans hc)
          exact ih ⟨hrest, h'.2⟩

theorem exits_of_runFor {fuel : Nat} {s t : σ} (h : runFor step fuel s = some t) :
    Exits step s t := by
  induction fuel generalizing s with
  | zero => simp [runFor] at h
  | succ fuel ih =>
      unfold runFor at h
      split at h
      · rename_i hs
        obtain rfl := Option.some.inj h
        exact .stop hs
      · rename_i s' hs
        exact .next hs (ih h)

-- A loop whose reachable turns all decrease a measure is left.
theorem halts_of_measure (m : σ → Nat) {s : σ}
    (h : ∀ a b, Reaches step s a → step a = some b → m b < m a) : Halts step s := by
  induction hm : m s using Nat.strong_induction_on generalizing s with
  | _ n ih =>
      cases hs : step s with
      | none => exact ⟨s, .stop hs⟩
      | some s' =>
          have hlt : m s' < n := hm ▸ h s s' .refl hs
          obtain ⟨t, ht⟩ := ih _ hlt (fun a b ha => h a b (.head hs ha)) rfl
          exact ⟨t, ht.next hs⟩

theorem measure_lt_of_transGen (m : σ → Nat) {s a b : σ}
    (h : ∀ a b, Reaches step s a → step a = some b → m b < m a) (hsa : Reaches step s a)
    (hab : TransGen (Next step) a b) : m b < m a := by
  induction hab with
  | single hstep => exact h _ _ hsa hstep
  | tail hrun hstep ih => exact Nat.lt_trans (h _ _ (hsa.trans hrun.to_reflTransGen) hstep) ih

theorem not_halts_of_fixed {s s' : σ} (hrun : Reaches step s s') (hfix : step s' = some s') :
    ¬Halts step s := by
  rintro ⟨t, ht⟩
  have hstay : ∀ t, Reaches step s' t → t = s' := by
    intro t hrun
    induction hrun with
    | refl => rfl
    | tail _ hlast ih =>
        subst ih
        exact (Option.some.inj (hfix.symm.trans hlast)).symm
  have hback : Exits step s' t := by
    obtain ⟨hst, hstop⟩ := ht
    induction hrun using ReflTransGen.head_induction_on with
    | refl => exact ⟨hst, hstop⟩
    | head hab _ ih =>
        cases hst.cases_head with
        | inl heq =>
            subst heq
            simp [Next, hstop] at hab
        | inr hnext =>
            obtain ⟨c, hc, hrest⟩ := hnext
            obtain rfl := Option.some.inj (hab.symm.trans hc)
            exact ih hrest
  obtain rfl := hstay t hback.1
  simp [hback.2] at hfix

-- A run of labelled steps: the states passed with the step taken in each, the last one first,
-- and the state arrived at.
inductive Trace {α : Type} (step : σ → α → σ → Prop) (s₀ : σ) : List (σ × α) → σ → Prop
  | start : Trace step s₀ [] s₀
  | next {tr s a s'} : Trace step s₀ tr s → step s a s' → Trace step s₀ ((s, a) :: tr) s'

variable {α : Type} {step : σ → α → σ → Prop} {s₀ : σ}

-- A run goes on with labels that can be executed one after the other.
theorem Trace.foldlM {exec : σ → α → Option σ} {as : List α} {tr : List (σ × α)} {s t : σ}
    (htr : Trace step s₀ tr s) (hstep : ∀ a ∈ as, ∀ s s', exec s a = some s' → step s a s')
    (hrun : as.foldlM exec s = some t) :
    ∃ tr', Trace step s₀ tr' t ∧ tr'.map Prod.snd = as.reverse ++ tr.map Prod.snd := by
  induction as generalizing tr s with
  | nil =>
      cases hrun
      exact ⟨tr, htr, rfl⟩
  | cons a as ih =>
      rw [List.foldlM_cons, Option.bind_eq_bind, Option.bind_eq_some_iff] at hrun
      obtain ⟨s', hs', hrest⟩ := hrun
      rw [List.forall_mem_cons] at hstep
      obtain ⟨tr', htr', hlabels⟩ := ih (htr.next (hstep.1 s s' hs')) hstep.2 hrest
      exact ⟨tr', htr', by simp [hlabels]⟩

-- What the steps of a run preserve holds in the state arrived at.
theorem Trace.preserves {P : σ → Prop} {C : σ → α → Prop} {tr : List (σ × α)} {s : σ}
    (htr : Trace step s₀ tr s) (h0 : P s₀)
    (hstep : ∀ s a s', P s → C s a → step s a s' → P s') (hC : ∀ t ∈ tr, C t.1 t.2) : P s := by
  induction htr with
  | start => exact h0
  | next _ hlast ih =>
      rw [List.forall_mem_cons] at hC
      exact hstep _ _ _ (ih hC.2) hC.1 hlast

-- Steps that keep a property exactly on a condition: it holds all along a run if and only if
-- every step of the run meets the condition.
theorem Trace.forall_iff {P : σ → Prop} {C : σ → α → Prop} {tr : List (σ × α)} {s : σ}
    (htr : Trace step s₀ tr s) (h0 : P s₀)
    (hstep : ∀ s a s', P s → step s a s' → (P s' ↔ C s a)) :
    (P s ∧ ∀ t ∈ tr, P t.1) ↔ ∀ t ∈ tr, C t.1 t.2 := by
  induction htr with
  | start => simp [h0]
  | next _ hlast ih =>
      rw [List.forall_mem_cons, List.forall_mem_cons, ← ih]
      constructor
      · rintro ⟨hs', hs, hall⟩
        exact ⟨(hstep _ _ _ hs hlast).mp hs', hs, hall⟩
      · rintro ⟨hc, hs, hall⟩
        exact ⟨(hstep _ _ _ hs hlast).mpr hc, hs, hall⟩

theorem Trace.always {I : σ → Prop} {tr : List (σ × α)} {s : σ} (htr : Trace step s₀ tr s)
    (h0 : I s₀) (hstep : ∀ s a s', I s → step s a s' → I s') : I s ∧ ∀ t ∈ tr, I t.1 := by
  induction htr with
  | start => exact ⟨h0, by simp⟩
  | next _ hlast ih => exact ⟨hstep _ _ _ ih.1 hlast, List.forall_mem_cons.mpr ih⟩

-- The same where the steps keep the property on the condition only within an invariant.
theorem Trace.forall_iff_within {I P : σ → Prop} {C : σ → α → Prop} {tr : List (σ × α)} {s : σ}
    (htr : Trace step s₀ tr s) (hI0 : I s₀) (hI : ∀ s a s', I s → step s a s' → I s') (h0 : P s₀)
    (hstep : ∀ s a s', I s → P s → step s a s' → (P s' ↔ C s a)) :
    (P s ∧ ∀ t ∈ tr, P t.1) ↔ ∀ t ∈ tr, C t.1 t.2 := by
  obtain ⟨hlast, hall⟩ := htr.always hI0 hI
  have hiff := htr.forall_iff (P := fun s => I s ∧ P s) (C := C) ⟨hI0, h0⟩ fun s a s' h hs =>
    (and_iff_right (hI s a s' h.1 hs)).trans (hstep s a s' h.1 h.2 hs)
  rw [← hiff]
  constructor
  · rintro ⟨hP, hprev⟩
    exact ⟨⟨hlast, hP⟩, fun t ht => ⟨hall t ht, hprev t ht⟩⟩
  · rintro ⟨hP, hprev⟩
    exact ⟨hP.2, fun t ht => (hprev t ht).2⟩

-- The same with a property of the steps as well.
theorem Trace.forall_iff_steps {I P : σ → Prop} {Q C : σ → α → Prop} {tr : List (σ × α)} {s : σ}
    (htr : Trace step s₀ tr s) (hI0 : I s₀) (hI : ∀ s a s', I s → step s a s' → I s') (h0 : P s₀)
    (hstep : ∀ s a s', I s → P s → step s a s' → (P s' ∧ Q s a ↔ C s a)) :
    (P s ∧ ∀ t ∈ tr, P t.1 ∧ Q t.1 t.2) ↔ ∀ t ∈ tr, C t.1 t.2 := by
  induction htr with
  | start => simp [h0]
  | next hprev hlast ih =>
      have hI' := (hprev.always hI0 hI).1
      rw [List.forall_mem_cons, List.forall_mem_cons, ← ih]
      constructor
      · rintro ⟨hs', ⟨hs, hq⟩, hall⟩
        exact ⟨(hstep _ _ _ hI' hs hlast).mp ⟨hs', hq⟩, hs, hall⟩
      · rintro ⟨hc, hs, hall⟩
        obtain ⟨hs', hq⟩ := (hstep _ _ _ hI' hs hlast).mpr hc
        exact ⟨hs', ⟨hs, hq⟩, hall⟩

-- A property of the steps alone, where the condition keeps the invariant.
theorem Trace.forall_steps_iff {I : σ → Prop} {Q C : σ → α → Prop} {tr : List (σ × α)} {s : σ}
    (htr : Trace step s₀ tr s) (h0 : I s₀)
    (hiff : ∀ s a s', I s → step s a s' → (Q s a ↔ C s a))
    (hkeep : ∀ s a s', I s → C s a → step s a s' → I s') :
    (∀ t ∈ tr, Q t.1 t.2) ↔ ∀ t ∈ tr, C t.1 t.2 := by
  induction htr with
  | start => simp
  | next hprev hlast ih =>
      rw [List.forall_mem_cons, List.forall_mem_cons, ih]
      constructor
      · rintro ⟨hq, hall⟩
        exact ⟨(hiff _ _ _ (hprev.preserves h0 hkeep hall) hlast).mp hq, hall⟩
      · rintro ⟨hc, hall⟩
        exact ⟨(hiff _ _ _ (hprev.preserves h0 hkeep hall) hlast).mpr hc, hall⟩

-- The same where an invariant that implies the property holds exactly as long as the condition.
theorem Trace.forall_iff_while {I P : σ → Prop} {C : σ → α → Prop} {tr : List (σ × α)} {s : σ}
    (htr : Trace step s₀ tr s) (h0 : I s₀) (hP : ∀ s, I s → P s)
    (hkeep : ∀ s a s', I s → C s a → step s a s' → I s')
    (hbreak : ∀ s a s', I s → step s a s' → P s' → C s a) :
    (P s ∧ ∀ t ∈ tr, P t.1) ↔ ∀ t ∈ tr, C t.1 t.2 := by
  induction htr with
  | start => simp [hP _ h0]
  | next hprev hlast ih =>
      rw [List.forall_mem_cons, List.forall_mem_cons, ← ih]
      constructor
      · rintro ⟨hs', hs, hall⟩
        have hI := hprev.preserves h0 hkeep (ih.mp ⟨hs, hall⟩)
        exact ⟨hbreak _ _ _ hI hlast hs', hs, hall⟩
      · rintro ⟨hc, hs, hall⟩
        have hI := hprev.preserves h0 hkeep (ih.mp ⟨hs, hall⟩)
        exact ⟨hP _ (hkeep _ _ _ hI hc hlast), hs, hall⟩

end BTron.Lib

namespace BTron.Lib

variable {σ : Type}

-- The rule for a loop over the numbers below `n` that may fail: where every turn succeeds and
-- takes the invariant on, so does the loop.
theorem foldlM_range {f : σ → Nat → Option σ} {I : Nat → σ → Prop} {n : Nat} {s : σ} (h0 : I 0 s)
    (hstep : ∀ x < n, ∀ s, I x s → ∃ t, f s x = some t ∧ I (x + 1) t) :
    ∃ t, (List.range n).foldlM f s = some t ∧ I n t := by
  induction n with
  | zero => exact ⟨s, rfl, h0⟩
  | succ n ih =>
      obtain ⟨t, ht, hI⟩ := ih fun x hx => hstep x (by omega)
      obtain ⟨u, hu, hI'⟩ := hstep n (Nat.lt_succ_self n) t hI
      refine ⟨u, ?_, hI'⟩
      rw [List.range_succ, List.foldlM_append, ht]
      simp [hu]

-- Lists of one length put one behind the other: the place of an element.
theorem getElem?_flatMap_range {α : Type} {k : Nat} {f : Nat → List α} {n : Nat}
    (hlen : ∀ y < n, (f y).length = k) {y i : Nat} (hy : y < n) (hi : i < k) :
    ((List.range n).flatMap f)[y * k + i]? = (f y)[i]? := by
  induction n with
  | zero => omega
  | succ n ih =>
      have hall : ((List.range n).flatMap f).length = n * k := by
        rw [List.length_flatMap, List.map_congr_left (g := fun _ => k)]
        · simp
        · intro y hy
          exact hlen y (by have := List.mem_range.mp hy; omega)
      rw [List.range_succ, List.flatMap_append, List.flatMap_singleton]
      by_cases hlast : y < n
      · have hle : (y + 1) * k ≤ n * k := Nat.mul_le_mul_right _ hlast
        rw [Nat.succ_mul] at hle
        rw [List.getElem?_append_left (by omega)]
        exact ih (fun y hy => hlen y (by omega)) hlast
      · obtain rfl : y = n := by omega
        rw [List.getElem?_append_right (by omega), hall, Nat.add_sub_cancel_left]

end BTron.Lib
