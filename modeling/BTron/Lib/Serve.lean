import Mathlib.Data.List.Pairwise
import Mathlib.Data.List.Perm.Basic
import Mathlib.Data.List.Sort

namespace BTron.Lib

variable {α σ : Type}

-- Behind all of the same or a smaller key, in front of the others.
def insertByKey (key : α → Nat) (x : α) (q : List α) : List α :=
  q.orderedInsert (fun a b => key a < key b) x

section

variable {key : α → Nat} {x : α} {q : List α}

theorem insertByKey_perm (key : α → Nat) (x : α) (q : List α) :
    (insertByKey key x q).Perm (x :: q) := List.perm_orderedInsert _ x q

theorem mem_insertByKey {y : α} : y ∈ insertByKey key x q ↔ y = x ∨ y ∈ q := by
  rw [(insertByKey_perm key x q).mem_iff, List.mem_cons]

theorem insertByKey_sorted (h : q.Pairwise fun a b => key a ≤ key b) :
    (insertByKey key x q).Pairwise fun a b => key a ≤ key b := by
  induction q with
  | nil => exact List.pairwise_singleton _ x
  | cons y q ih =>
      obtain ⟨hy, hq⟩ := List.pairwise_cons.mp h
      rw [insertByKey, List.orderedInsert_cons]
      split
      · rename_i hlt
        refine List.pairwise_cons.mpr ⟨?_, h⟩
        intro z hz
        obtain rfl | hz := List.mem_cons.mp hz
        · exact hlt.le
        · exact hlt.le.trans (hy z hz)
      · rename_i hle
        refine List.pairwise_cons.mpr ⟨?_, ih hq⟩
        intro z hz
        obtain rfl | hz := mem_insertByKey.mp hz
        · exact not_lt.mp hle
        · exact hy z hz

-- Among those of one key it goes to the end.
theorem insertByKey_filter (h : q.Pairwise fun a b => key a ≤ key b) (k : Nat) :
    (insertByKey key x q).filter (key · = k) =
      q.filter (key · = k) ++ if key x = k then [x] else [] := by
  induction q with
  | nil =>
      rw [insertByKey, List.orderedInsert_nil]
      by_cases hk : key x = k <;> simp [hk]
  | cons y q ih =>
      obtain ⟨hy, hq⟩ := List.pairwise_cons.mp h
      rw [insertByKey, List.orderedInsert_cons]
      split
      · rename_i hlt
        rw [List.filter_cons]
        by_cases hk : key x = k
        · have hnone : (y :: q).filter (key · = k) = [] := by
            rw [List.filter_eq_nil_iff]
            intro z hz heq
            have heq : key z = k := of_decide_eq_true heq
            have hle : key y ≤ key z := by
              obtain rfl | hz := List.mem_cons.mp hz
              · exact le_rfl
              · exact hy z hz
            omega
          simp [hk, hnone]
        · simp [hk]
      · rw [List.filter_cons, ← insertByKey, ih hq, List.filter_cons]
        split <;> simp

end

-- Goes along those who wait and serves whom `can` lets. Where one cannot be served it passes on to
-- the next or stops, and it stops after one whom `stop` names. Who was served, and who is left.
def serveQueue (skip : Bool) (can : σ → α → Bool) (serve : σ → α → σ) (stop : σ → α → Bool) :
    σ → List α → σ × List α × List α
  | s, [] => (s, [], [])
  | s, x :: q =>
    if can s x then
      if stop s x then (serve s x, [x], q)
      else
        let (t, served, left) := serveQueue skip can serve stop (serve s x) q
        (t, x :: served, left)
    else if skip then
      let (t, served, left) := serveQueue skip can serve stop s q
      (t, served, x :: left)
    else (s, [], x :: q)

-- Nobody waits who could be served: of those who may be passed over none, else not the first.
def Quiet (skip : Bool) (can : σ → α → Bool) (s : σ) (q : List α) : Prop :=
  if skip then ∀ x ∈ q, can s x = false else ∀ x ∈ q.head?, can s x = false

section

variable {skip : Bool} {can : σ → α → Bool} {serve : σ → α → σ} {stop : σ → α → Bool}

theorem quiet_nil (skip : Bool) (can : σ → α → Bool) (s : σ) : Quiet skip can s [] := by
  cases skip <;> simp [Quiet]

theorem quiet_of_forall {s : σ} {q : List α} (h : ∀ x ∈ q, can s x = false) :
    Quiet skip can s q := by
  cases skip
  · exact fun x hx => h x (List.mem_of_head? hx)
  · exact h

-- What makes fewer requests possible leaves it quiet.
theorem Quiet.mono {s t : σ} {q : List α} (h : Quiet skip can s q)
    (hmono : ∀ x ∈ q, can t x = true → can s x = true) : Quiet skip can t q := by
  have hkeep : ∀ x ∈ q, can s x = false → can t x = false := by
    intro x hx hs
    by_contra ht
    rw [hmono x hx (by simpa using ht)] at hs
    exact absurd hs (by decide)
  cases skip
  · exact fun x hx => hkeep x (List.mem_of_head? hx) (h x hx)
  · exact fun x hx => hkeep x hx (h x hx)

theorem serveQueue_perm (s : σ) (q : List α) :
    ((serveQueue skip can serve stop s q).2.1 ++
      (serveQueue skip can serve stop s q).2.2).Perm q := by
  induction q generalizing s with
  | nil => exact .refl _
  | cons x q ih =>
      rw [serveQueue]
      split
      · split
        · exact .refl _
        · exact (ih _).cons x
      · split
        · exact List.perm_middle.trans ((ih _).cons x)
        · exact .refl _

theorem serveQueue_sublist (s : σ) (q : List α) :
    (serveQueue skip can serve stop s q).2.2.Sublist q := by
  induction q generalizing s with
  | nil => exact .refl _
  | cons x q ih =>
      rw [serveQueue]
      split
      · split
        · exact List.sublist_cons_self x q
        · exact (ih _).cons x
      · split
        · exact (ih _).cons_cons x
        · exact .refl _

-- The state is the one after the service of those who were served, in their order.
theorem serveQueue_state (s : σ) (q : List α) :
    (serveQueue skip can serve stop s q).1 =
      (serveQueue skip can serve stop s q).2.1.foldl serve s := by
  induction q generalizing s with
  | nil => rfl
  | cons x q ih =>
      rw [serveQueue]
      split
      · split
        · rfl
        · exact ih _
      · split
        · exact ih _
        · rfl

-- Every service keeps what holds of the state.
theorem serveQueue_keeps {I : σ → Prop} {s : σ} {q : List α} (hI : I s)
    (hserve : ∀ s, ∀ x ∈ q, I s → can s x = true → I (serve s x)) :
    I (serveQueue skip can serve stop s q).1 := by
  induction q generalizing s with
  | nil => exact hI
  | cons x q ih =>
      have hrest : ∀ s, ∀ y ∈ q, I s → can s y = true → I (serve s y) :=
        fun s y hy => hserve s y (List.mem_cons_of_mem x hy)
      rw [serveQueue]
      split
      · rename_i hcan
        have hnext := hserve s x List.mem_cons_self hI hcan
        split
        · exact hnext
        · exact ih hnext hrest
      · split
        · exact ih hI hrest
        · exact hI

-- Whom nothing makes servable stays so.
theorem serveQueue_cannot {I : σ → Prop} {s : σ} {q : List α} {x : α} (hI : I s)
    (hserve : ∀ s, ∀ y ∈ q, I s → can s y = true → I (serve s y))
    (hmono : ∀ s, ∀ y ∈ q, I s → can s y = true → can (serve s y) x = true → can s x = true)
    (hx : can s x = false) : can (serveQueue skip can serve stop s q).1 x = false := by
  refine (serveQueue_keeps (I := fun t => I t ∧ can t x = false) ⟨hI, hx⟩ ?_).2
  intro t y hy ht hty
  refine ⟨hserve t y hy ht.1 hty, ?_⟩
  by_contra h
  have hback := hmono t y hy ht.1 hty (by simpa using h)
  rw [ht.2] at hback
  exact absurd hback (by decide)

-- Nobody is left who could be served, where a service only takes away and the last one, after
-- which it stops, takes all.
theorem serveQueue_quiet {I : σ → Prop} {s : σ} {q : List α} (hI : I s)
    (hserve : ∀ s, ∀ x ∈ q, I s → can s x = true → I (serve s x))
    (hmono : ∀ s, ∀ x ∈ q, ∀ y ∈ q, I s → can s x = true → can (serve s x) y = true →
      can s y = true)
    (hstop : ∀ s, ∀ x ∈ q, I s → can s x = true → stop s x = true →
      ∀ y ∈ q, can (serve s x) y = false) :
    Quiet skip can (serveQueue skip can serve stop s q).1
      (serveQueue skip can serve stop s q).2.2 := by
  induction q generalizing s with
  | nil => exact quiet_nil skip can s
  | cons x q ih =>
      have hin : ∀ {y}, y ∈ q → y ∈ x :: q := List.mem_cons_of_mem x
      have hrest := fun s hI => ih (s := s) hI (fun s y hy => hserve s y (hin hy))
        (fun s y hy z hz => hmono s y (hin hy) z (hin hz))
        (fun s y hy hI hcan hstp z hz => hstop s y (hin hy) hI hcan hstp z (hin hz))
      rw [serveQueue]
      split
      · rename_i hcan
        have hnext := hserve s x List.mem_cons_self hI hcan
        split
        · rename_i hstp
          exact quiet_of_forall fun y hy =>
            hstop s x List.mem_cons_self hI hcan hstp y (hin hy)
        · exact hrest _ hnext
      · rename_i hcan
        have hcan : can s x = false := by simpa using hcan
        split
        · rename_i hskip
          subst hskip
          have hx : can (serveQueue true can serve stop s q).1 x = false :=
            serveQueue_cannot hI (fun s y hy => hserve s y (hin hy))
              (fun s y hy => hmono s y (hin hy) x List.mem_cons_self) hcan
          exact List.forall_mem_cons.mpr ⟨hx, hrest s hI⟩
        · rename_i hskip
          have hskip : skip = false := by simpa using hskip
          subst hskip
          intro y hy
          obtain rfl := Option.some.inj hy
          exact hcan

end

end BTron.Lib
