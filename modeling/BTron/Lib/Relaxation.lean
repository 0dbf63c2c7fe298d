import Mathlib.Logic.Function.Basic
import Mathlib.Order.Bounds.Basic

namespace BTron.Lib.Relaxation

variable {L : Type}

-- A step forward over `len` positions, with the label it arrives with and a weight of its own.
structure Edge (L : Type) where
  len : Nat
  label : L
  weight : Nat
  deriving DecidableEq

-- The cheapest way to a position found so far, by its last step.
structure Cell (L : Type) where
  cost : Nat
  prev : Option Nat
  label : L

structure Table (L : Type) where
  cell : Nat → Cell L

instance : CoeFun (Table L) fun _ => Nat → Cell L := ⟨Table.cell⟩

def start (inf : Nat) (bos : L) : Table L := ⟨fun j => ⟨if j = 0 then 0 else inf, none, bos⟩⟩

section Scan

variable (trans : L → L → Nat) (inf : Nat) (edges : Nat → List (Edge L)) (bos : L)

def total (cell : Cell L) (e : Edge L) : Nat := cell.cost + e.weight + trans cell.label e.label

def relax (i : Nat) (t : Table L) (e : Edge L) : Table L :=
  if total trans (t i) e < (t (i + e.len)).cost then
    ⟨Function.update t.cell (i + e.len) ⟨total trans (t i) e, some i, e.label⟩⟩
  else t

def visit (t : Table L) (i : Nat) : Table L :=
  if (t i).cost < inf then (edges i).foldl (relax trans i) t else t

-- The table once the positions before `n` are visited.
def scan : Nat → Table L
  | 0 => start inf bos
  | n + 1 => visit trans inf edges (scan n) n

-- The way back from a position, for at most `fuel` steps.
def cuts (t : Table L) : Nat → Nat → List Nat
  | 0, _ => [0]
  | fuel + 1, j => if 0 < j then j :: cuts t fuel ((t j).prev.getD 0) else [0]

-- The ways from position 0 to a position, and what they cost.
inductive Walk : List (Edge L) → Nat → Prop
  | nil : Walk [] 0
  | snoc {es i e} : Walk es i → e ∈ edges i → 0 < e.len → Walk (es ++ [e]) (i + e.len)

def cost : L → List (Edge L) → Nat
  | _, [] => 0
  | l, e :: es => trans l e.label + e.weight + cost e.label es

def last : L → List (Edge L) → L
  | l, [] => l
  | _, e :: es => last e.label es

-- At each position of the walk no other walk is cheaper, and none as cheap goes on at a higher
-- cost.
def Steady (es : List (Edge L)) : Prop :=
  ∀ p e q, es = p ++ e :: q → ∀ j p', Walk edges p j → Walk edges p' j →
    cost trans bos p ≤ cost trans bos p' ∧
      (cost trans bos p' = cost trans bos p →
        trans (last bos p') e.label ≤ trans (last bos p) e.label)

end Scan

section Cost

variable {trans : L → L → Nat}

theorem cost_snoc (l : L) (es : List (Edge L)) (e : Edge L) :
    cost trans l (es ++ [e]) = cost trans l es + e.weight + trans (last l es) e.label := by
  induction es generalizing l with
  | nil =>
      simp only [List.nil_append, cost, last]
      omega
  | cons d es ih =>
      simp only [List.cons_append, cost, last, ih]
      omega

theorem last_snoc (l : L) (es : List (Edge L)) (e : Edge L) : last l (es ++ [e]) = e.label := by
  induction es generalizing l with
  | nil => rfl
  | cons d es ih => exact ih d.label

end Cost

section Visit

variable (trans : L → L → Nat) (inf : Nat) (edges : Nat → List (Edge L)) {t : Table L} {i : Nat}

theorem lt_of_relaxed {e : Edge L} (h : total trans (t i) e < (t (i + e.len)).cost) :
    0 < e.len := by
  by_contra hlen
  have hzero : e.len = 0 := by omega
  rw [hzero, Nat.add_zero] at h
  unfold total at h
  omega

-- What an edge does to a cell.
theorem relax_cases (t : Table L) (i : Nat) (e : Edge L) (j : Nat) :
    relax trans i t e j = t j ∨
      0 < e.len ∧ j = i + e.len ∧ total trans (t i) e < (t j).cost ∧
        relax trans i t e j = ⟨total trans (t i) e, some i, e.label⟩ := by
  unfold relax
  split
  · rename_i hless
    by_cases hj : j = i + e.len
    · subst hj
      exact .inr ⟨lt_of_relaxed trans hless, rfl, hless, Function.update_self ..⟩
    · exact .inl (Function.update_of_ne hj ..)
  · exact .inl rfl

theorem relax_of_le {j : Nat} (hj : j ≤ i) (e : Edge L) : relax trans i t e j = t j := by
  obtain h | ⟨hlen, rfl, -, -⟩ := relax_cases trans t i e j
  · exact h
  · omega

theorem relax_cost_le (t : Table L) (i : Nat) (e : Edge L) (j : Nat) :
    (relax trans i t e j).cost ≤ (t j).cost := by
  obtain h | ⟨-, -, hless, h⟩ := relax_cases trans t i e j
  · rw [h]
  · rw [h]
    exact Nat.le_of_lt hless

theorem relax_target (t : Table L) (i : Nat) (e : Edge L) :
    (relax trans i t e (i + e.len)).cost ≤ total trans (t i) e := by
  unfold relax
  split
  · simp only [Function.update_self, Nat.le_refl]
  · omega

-- What the edges of a position do to a cell.
theorem foldl_cases (es : List (Edge L)) (t : Table L) (i j : Nat) :
    es.foldl (relax trans i) t j = t j ∨
      ∃ e ∈ es, 0 < e.len ∧ j = i + e.len ∧ total trans (t i) e < (t j).cost ∧
        es.foldl (relax trans i) t j = ⟨total trans (t i) e, some i, e.label⟩ := by
  induction es generalizing t with
  | nil => exact .inl rfl
  | cons e es ih =>
      have hi : relax trans i t e i = t i := relax_of_le trans (Nat.le_refl i) e
      have hle := relax_cost_le trans t i e j
      obtain hrest | ⟨d, hd, hlen, hj, hless, hrest⟩ := ih (relax trans i t e)
      · obtain hfirst | ⟨hlen, hj, hless, hfirst⟩ := relax_cases trans t i e j
        · exact .inl (hrest.trans hfirst)
        · exact .inr ⟨e, List.mem_cons_self, hlen, hj, hless, hrest.trans hfirst⟩
      · rw [hi] at hless hrest
        exact .inr ⟨d, List.mem_cons_of_mem e hd, hlen, hj, Nat.lt_of_lt_of_le hless hle, hrest⟩

theorem foldl_cost_le (es : List (Edge L)) (t : Table L) (i j : Nat) :
    (es.foldl (relax trans i) t j).cost ≤ (t j).cost := by
  obtain h | ⟨e, -, -, -, hless, h⟩ := foldl_cases trans es t i j
  · rw [h]
  · rw [h]
    exact Nat.le_of_lt hless

theorem foldl_target {es : List (Edge L)} {e : Edge L} (he : e ∈ es) (t : Table L) (i : Nat) :
    (es.foldl (relax trans i) t (i + e.len)).cost ≤ total trans (t i) e := by
  induction es generalizing t with
  | nil => simp at he
  | cons d es ih =>
      cases List.mem_cons.mp he with
      | inl heq =>
          subst heq
          exact Nat.le_trans (foldl_cost_le trans es _ i _) (relax_target trans t i e)
      | inr hrest =>
          have h := ih hrest (relax trans i t d)
          rwa [relax_of_le trans (Nat.le_refl i)] at h

theorem visit_cases (t : Table L) (i j : Nat) :
    visit trans inf edges t i j = t j ∨
      (t i).cost < inf ∧ ∃ e ∈ edges i, 0 < e.len ∧ j = i + e.len ∧
        total trans (t i) e < (t j).cost ∧
        visit trans inf edges t i j = ⟨total trans (t i) e, some i, e.label⟩ := by
  unfold visit
  split
  · rename_i hi
    obtain h | h := foldl_cases trans (edges i) t i j
    · exact .inl h
    · exact .inr ⟨hi, h⟩
  · exact .inl rfl

theorem visit_of_le {j : Nat} (hj : j ≤ i) : visit trans inf edges t i j = t j := by
  obtain h | ⟨-, e, -, hlen, rfl, -, -⟩ := visit_cases trans inf edges t i j
  · exact h
  · omega

theorem visit_cost_le (t : Table L) (i j : Nat) :
    (visit trans inf edges t i j).cost ≤ (t j).cost := by
  obtain h | ⟨-, e, -, -, -, hless, h⟩ := visit_cases trans inf edges t i j
  · rw [h]
  · rw [h]
    exact Nat.le_of_lt hless

end Visit

section Table

variable {trans : L → L → Nat} {inf : Nat} {edges : Nat → List (Edge L)} {bos : L}

-- A table whose costs are those of walks, each cell extending the cell before it.
structure Linked (trans : L → L → Nat) (inf : Nat) (edges : Nat → List (Edge L)) (bos : L)
    (n : Nat) (t : Table L) : Prop where
  zero : t 0 = start inf bos 0
  unreached : ∀ j, 0 < j → inf ≤ (t j).cost → t j = start inf bos j
  reached : ∀ j, 0 < j → (t j).cost < inf → ∃ i < n, (t i).cost < inf ∧
    ∃ e ∈ edges i, 0 < e.len ∧ j = i + e.len ∧ t j = ⟨total trans (t i) e, some i, e.label⟩
  relaxed : ∀ i < n, (t i).cost < inf → ∀ e ∈ edges i, (t (i + e.len)).cost ≤ total trans (t i) e

theorem linked_start : Linked trans inf edges bos 0 (start inf bos) := by
  constructor
  · rfl
  · intro j _ _
    rfl
  · intro j hj hlt
    simp only [start, if_neg (Nat.ne_of_gt hj)] at hlt
    omega
  · intro i hi
    omega

theorem linked_visit {n : Nat} {t : Table L}
    (h : Linked trans inf edges bos n t) :
    Linked trans inf edges bos (n + 1) (visit trans inf edges t n) := by
  have hkeep : ∀ i ≤ n, visit trans inf edges t n i = t i := fun i hi =>
    visit_of_le trans inf edges hi
  constructor
  · rw [hkeep 0 (Nat.zero_le n), h.zero]
  · intro j hj hcost
    obtain heq | ⟨-, e, -, -, -, hless, heq⟩ := visit_cases trans inf edges t n j
    · rw [heq] at hcost ⊢
      exact h.unreached j hj hcost
    · rw [heq] at hcost
      -- a cell that is improved was at most `inf`
      have hle : (t j).cost ≤ inf := by
        by_contra hgt
        have hstart := h.unreached j hj (by omega)
        simp only [hstart, start, if_neg (Nat.ne_of_gt hj)] at hgt
        omega
      simp only at hcost
      omega
  · intro j hj hcost
    obtain heq | ⟨hn, e, he, hlen, hjn, -, heq⟩ := visit_cases trans inf edges t n j
    · rw [heq] at hcost
      obtain ⟨i, hi, hreach, hedge⟩ := h.reached j hj hcost
      refine ⟨i, by omega, ?_⟩
      rw [hkeep i (Nat.le_of_lt hi), heq]
      exact ⟨hreach, hedge⟩
    · refine ⟨n, by omega, ?_⟩
      rw [hkeep n (Nat.le_refl n), heq]
      exact ⟨hn, e, he, hlen, hjn, rfl⟩
  · intro i hi hcost e he
    rw [hkeep i (by omega)] at hcost ⊢
    by_cases hin : i = n
    · subst hin
      unfold visit
      rw [if_pos hcost]
      exact foldl_target trans he t i
    · exact Nat.le_trans (visit_cost_le trans inf edges t n _) (h.relaxed i (by omega) hcost e he)

theorem linked_scan (n : Nat) :
    Linked trans inf edges bos n (scan trans inf edges bos n) := by
  induction n with
  | zero => exact linked_start
  | succ n ih => exact linked_visit ih

variable {n : Nat} {t : Table L}

-- A position with a step back is reached, over an edge from there.
theorem Linked.lt_of_prev (h : Linked trans inf edges bos n t) {i j : Nat}
    (hprev : (t j).prev = some i) : 0 < j ∧ (t j).cost < inf := by
  cases Nat.eq_zero_or_pos j with
  | inl hzero =>
      subst hzero
      simp [h.zero, start] at hprev
  | inr hpos =>
      refine ⟨hpos, ?_⟩
      by_contra hge
      simp [h.unreached j hpos (by omega), start] at hprev

theorem Linked.step_back (h : Linked trans inf edges bos n t) {i j : Nat}
    (hprev : (t j).prev = some i) :
    (t i).cost < inf ∧ ∃ e ∈ edges i, 0 < e.len ∧ j = i + e.len := by
  obtain ⟨hpos, hreach⟩ := h.lt_of_prev hprev
  obtain ⟨k, -, hk, e, he, hlen, rfl, heq⟩ := h.reached j hpos hreach
  obtain rfl : k = i := by simpa [heq] using hprev
  exact ⟨hk, e, he, hlen, rfl⟩

theorem Linked.prev_lt (h : Linked trans inf edges bos n t) {j : Nat} (hj : 0 < j) :
    (t j).prev.getD 0 < j := by
  cases hprev : (t j).prev with
  | none => exact hj
  | some i =>
      obtain ⟨-, e, -, hlen, rfl⟩ := h.step_back hprev
      exact Nat.lt_add_of_pos_right hlen

theorem Linked.exists_prev (h : Linked trans inf edges bos n t) {j : Nat} (hj : 0 < j)
    (hcost : (t j).cost < inf) : ∃ i, (t j).prev = some i := by
  obtain ⟨i, -, -, e, -, -, -, heq⟩ := h.reached j hj hcost
  exact ⟨i, by rw [heq]⟩

-- A way back of at least as many steps as there are positions is not cut short.
theorem Linked.cuts_eq (h : Linked trans inf edges bos n t) {m k j : Nat} (hm : j ≤ m)
    (hk : j ≤ k) : cuts t m j = cuts t k j := by
  induction j using Nat.strong_induction_on generalizing m k with
  | _ j ih =>
      cases Nat.eq_zero_or_pos j with
      | inl hzero =>
          subst hzero
          cases m <;> cases k <;> rfl
      | inr hpos =>
          have hlt := h.prev_lt hpos
          obtain ⟨m, rfl⟩ : ∃ m', m = m' + 1 := ⟨m - 1, by omega⟩
          obtain ⟨k, rfl⟩ : ∃ k', k = k' + 1 := ⟨k - 1, by omega⟩
          have hback : cuts t m ((t j).prev.getD 0) = cuts t k ((t j).prev.getD 0) :=
            ih _ hlt (by omega) (by omega)
          unfold cuts
          rw [if_pos hpos, if_pos hpos, hback]

theorem Linked.cuts_step (h : Linked trans inf edges bos n t) {m j : Nat} (hpos : 0 < j)
    (hm : j ≤ m) : cuts t m j = j :: cuts t m ((t j).prev.getD 0) := by
  have hlt := h.prev_lt hpos
  obtain ⟨m, rfl⟩ : ∃ m', m = m' + 1 := ⟨m - 1, by omega⟩
  rw [h.cuts_eq (m := m + 1) (k := m) (j := (t j).prev.getD 0) (by omega) (by omega)]
  conv_lhs => unfold cuts
  rw [if_pos hpos]

theorem cuts_zero (t : Table L) (m : Nat) : cuts t m 0 = [0] := by
  cases m <;> rfl

theorem Linked.cuts_head (h : Linked trans inf edges bos n t) {m j : Nat} (hm : j ≤ m) :
    ∃ rest, cuts t m j = j :: rest := by
  cases Nat.eq_zero_or_pos j with
  | inl hzero =>
      subst hzero
      exact ⟨[], cuts_zero t m⟩
  | inr hpos => exact ⟨_, h.cuts_step hpos hm⟩

-- The cost of a reached position is that of a walk to it.
theorem Linked.sound (h : Linked trans inf edges bos n t) {j : Nat} (hj : (t j).cost < inf) :
    ∃ es, Walk edges es j ∧ cost trans bos es = (t j).cost ∧ last bos es = (t j).label := by
  induction j using Nat.strong_induction_on with
  | _ j ih =>
      cases Nat.eq_zero_or_pos j with
      | inl hzero =>
          subst hzero
          refine ⟨[], .nil, ?_, ?_⟩
          · simp [h.zero, start, cost]
          · simp [h.zero, start, last]
      | inr hpos =>
          obtain ⟨i, -, hi, e, he, hlen, rfl, heq⟩ := h.reached j hpos hj
          obtain ⟨es, hwalk, hcost, hlast⟩ := ih i (by omega) hi
          refine ⟨es ++ [e], .snoc hwalk he hlen, ?_, ?_⟩
          · rw [cost_snoc, hcost, hlast, heq]
            rfl
          · rw [last_snoc, heq]

-- Where a step over `len` positions costs at most `c * len`, a position that has a walk is reached.
theorem Linked.reaches (h : Linked trans inf edges bos n t) {c : Nat}
    (hc : ∀ i, ∀ e ∈ edges i, ∀ l, e.weight + trans l e.label ≤ c) (hn : c * n < inf)
    {es : List (Edge L)} {j : Nat} (hwalk : Walk edges es j) (hj : j ≤ n) :
    (t j).cost ≤ c * j := by
  induction hwalk with
  | nil => simp [h.zero, start]
  | @snoc es i e _ he hlen ih =>
      have hi := ih (by omega)
      have hless : (t i).cost < inf := by
        have hmul := Nat.mul_le_mul_left c (show i ≤ n by omega)
        omega
      have hstep := h.relaxed i (by omega) hless e he
      have hedge := hc i e he (t i).label
      have hmul : c * (i + 1) ≤ c * (i + e.len) := Nat.mul_le_mul_left c (by omega)
      rw [Nat.mul_add, Nat.mul_one] at hmul
      unfold total at hstep
      omega

theorem Linked.reached_of_walk (h : Linked trans inf edges bos n t) {c : Nat}
    (hc : ∀ i, ∀ e ∈ edges i, ∀ l, e.weight + trans l e.label ≤ c) (hn : c * n < inf)
    {es : List (Edge L)} {j : Nat} (hwalk : Walk edges es j) (hj : j ≤ n) : (t j).cost < inf := by
  have hle := h.reaches hc hn hwalk hj
  have hmul := Nat.mul_le_mul_left c hj
  omega

theorem steady_init {es : List (Edge L)} {e : Edge L} (h : Steady trans edges bos (es ++ [e])) :
    Steady trans edges bos es := fun p d q heq =>
  h p d (q ++ [e]) (by rw [heq, List.append_assoc, List.cons_append])

-- One cell for each position is enough along a steady walk.
theorem Linked.le_of_steady (h : Linked trans inf edges bos n t) {c : Nat}
    (hc : ∀ i, ∀ e ∈ edges i, ∀ l, e.weight + trans l e.label ≤ c) (hn : c * n < inf)
    {es : List (Edge L)} {j : Nat} (hwalk : Walk edges es j) (hj : j ≤ n)
    (hsteady : Steady trans edges bos es) : (t j).cost ≤ cost trans bos es := by
  induction hwalk with
  | nil => simp [h.zero, start]
  | @snoc es i e hes he hlen ih =>
      have hi := ih (by omega) (steady_init hsteady)
      have hless := h.reached_of_walk hc hn hes (by omega)
      obtain ⟨es', hwalk', hcost', hlast'⟩ := h.sound hless
      obtain ⟨hle, hnext⟩ := hsteady es e [] rfl i es' hes hwalk'
      have htrans := hnext (by omega)
      have hstep := h.relaxed i (by omega) hless e he
      rw [hlast'] at htrans
      rw [cost_snoc]
      unfold total at hstep
      omega

theorem Linked.least (h : Linked trans inf edges bos n t) {c : Nat}
    (hc : ∀ i, ∀ e ∈ edges i, ∀ l, e.weight + trans l e.label ≤ c) (hn : c * n < inf)
    {es : List (Edge L)} (hwalk : Walk edges es n)
    (hmin : ∀ es', Walk edges es' n → cost trans bos es ≤ cost trans bos es')
    (hsteady : Steady trans edges bos es) :
    IsLeast {k | ∃ es, Walk edges es n ∧ cost trans bos es = k} (t n).cost := by
  obtain ⟨es', hwalk', hcost', -⟩ := h.sound (h.reached_of_walk hc hn hwalk (Nat.le_refl n))
  refine ⟨⟨es', hwalk', hcost'⟩, ?_⟩
  rintro _ ⟨es'', hwalk'', rfl⟩
  exact Nat.le_trans (h.le_of_steady hc hn hwalk (Nat.le_refl n) hsteady) (hmin es'' hwalk'')

end Table

end BTron.Lib.Relaxation
