import Mathlib.Data.List.Basic
import Mathlib.Data.List.Nodup

namespace BTron.Lib

variable {α : Type}

-- A queue by its history: what it accepted, in order, and the positions already received.
structure Fifo (α : Type) where
  accepted : List α
  received : List Nat

namespace Fifo

def empty : Fifo α := ⟨[], []⟩

-- What is accepted and not received, in the order of acceptance, with its position.
def pending (q : Fifo α) : List (α × Nat) :=
  q.accepted.zipIdx.filter fun e => e.2 ∉ q.received

def send (q : Fifo α) (x : α) : Fifo α := { q with accepted := q.accepted ++ [x] }

-- The oldest pending element that `p` wants.
def receive (q : Fifo α) (p : α → Bool) : Option (α × Fifo α) :=
  match q.pending.find? fun e => p e.1 with
  | none => none
  | some e => some (e.1, { q with received := e.2 :: q.received })

-- The oldest pending element that `p` wants, which stays pending.
def peek (q : Fifo α) (p : α → Bool) : Option α := (q.pending.map Prod.fst).find? p

-- Everything pending that `p` wants is taken out.
def clear (q : Fifo α) (p : α → Bool) : Fifo α :=
  { q with received := (q.pending.filter fun e => p e.1).map Prod.snd ++ q.received }

-- A queue that has received nothing from beyond its end.
def Valid (q : Fifo α) : Prop := ∀ i ∈ q.received, i < q.accepted.length

theorem valid_empty : (empty : Fifo α).Valid := by
  intro i hi
  simp [empty] at hi

theorem pending_lt {q : Fifo α} {e : α × Nat} (he : e ∈ q.pending) : e.2 < q.accepted.length := by
  have hmem := (List.mem_filter.mp he).1
  have hlt := List.snd_lt_add_of_mem_zipIdx hmem
  simpa using hlt

theorem nodup_pending (q : Fifo α) : (q.pending.map Prod.snd).Nodup := by
  have hall : (q.accepted.zipIdx.map Prod.snd).Nodup := by
    rw [List.zipIdx_map_snd]
    exact List.nodup_range'
  exact hall.sublist (List.filter_sublist.map _)

theorem pending_send {q : Fifo α} (hq : q.Valid) (x : α) :
    (q.send x).pending = q.pending ++ [(x, q.accepted.length)] := by
  have hnew : q.accepted.length ∉ q.received := fun h => Nat.lt_irrefl _ (hq _ h)
  have hlast : ([x].zipIdx q.accepted.length).filter (fun e => e.2 ∉ q.received) =
      [(x, q.accepted.length)] := by
    simp [hnew]
  rw [pending, send, List.zipIdx_append, List.filter_append, Nat.zero_add, hlast]
  rfl

theorem valid_send {q : Fifo α} (hq : q.Valid) (x : α) : (q.send x).Valid := by
  intro i hi
  have hlt := hq i hi
  simp only [send, List.length_append, List.length_singleton]
  omega

theorem valid_clear {q : Fifo α} (hq : q.Valid) (p : α → Bool) : (q.clear p).Valid := by
  intro i hi
  rw [clear, List.mem_append] at hi
  cases hi with
  | inl hi =>
      obtain ⟨e, he, rfl⟩ := List.mem_map.mp hi
      exact pending_lt (q := q) (List.mem_of_mem_filter he)
  | inr hi => exact hq i hi

theorem pending_clear (q : Fifo α) (p : α → Bool) :
    (q.clear p).pending = q.pending.filter fun e => !p e.1 := by
  rw [pending, pending, List.filter_filter]
  apply List.filter_congr
  intro e he
  rw [clear, Bool.eq_iff_iff]
  simp only [List.mem_append, not_or, Bool.decide_and, Bool.and_eq_true, decide_eq_true_eq,
    Bool.not_eq_true']
  -- a position stands for one element only
  constructor
  · rintro ⟨hnot, hrec⟩
    refine ⟨?_, hrec⟩
    rw [Bool.eq_false_iff]
    intro hp
    apply hnot
    apply List.mem_map_of_mem
    exact List.mem_filter.mpr ⟨List.mem_filter.mpr ⟨he, decide_eq_true hrec⟩, hp⟩
  · rintro ⟨hp, hrec⟩
    refine ⟨fun hmem => ?_, hrec⟩
    obtain ⟨e', he', hsame⟩ := List.mem_map.mp hmem
    obtain ⟨hpend, hp'⟩ := List.mem_filter.mp he'
    have hall := (List.mem_filter.mp hpend).1
    obtain ⟨x, i⟩ := e
    obtain ⟨x', i'⟩ := e'
    simp only at hsame hp hp'
    subst hsame
    rw [List.mem_zipIdx_iff_getElem?] at he hall
    obtain rfl := Option.some.inj (he.symm.trans hall)
    rw [hp] at hp'
    cases hp'

-- Without duplicate keys, dropping one key drops one position.
theorem filter_ne_eq_eraseIdx {β : Type} {f : β → Nat} {l : List β} (h : (l.map f).Nodup) {i : Nat}
    (hi : i < l.length) : (l.filter fun e => f e ≠ f l[i]) = l.eraseIdx i := by
  induction l generalizing i with
  | nil => simp at hi
  | cons b l ih =>
      rw [List.map_cons, List.nodup_cons] at h
      obtain ⟨hb, hl⟩ := h
      cases i with
      | zero =>
          have hall : ∀ e ∈ l, f e ≠ f b := by
            intro e he heq
            exact hb (heq ▸ List.mem_map_of_mem he)
          simpa using hall
      | succ i =>
          have hi' : i < l.length := by simpa using hi
          have hne : f b ≠ f l[i] := by
            intro heq
            exact hb (heq ▸ List.mem_map_of_mem (List.getElem_mem hi'))
          rw [List.getElem_cons_succ, List.eraseIdx_cons_succ,
            List.filter_cons_of_pos (by simpa using hne), ih hl hi']

theorem receive_eq_none_iff {q : Fifo α} {p : α → Bool} :
    q.receive p = none ↔ ∀ e ∈ q.pending, ¬p e.1 := by
  unfold receive
  cases hfind : q.pending.find? fun e => p e.1 with
  | none => simpa using hfind
  | some e =>
      have hp := List.find?_some hfind
      have hmem := List.mem_of_find?_eq_some hfind
      simp only [reduceCtorEq, false_iff]
      exact fun hall => hall e hmem hp

-- A receive takes out the first pending element that is wanted, and nothing else.
theorem receive_eq_some {q q' : Fifo α} {p : α → Bool} {x : α} (hq : q.Valid)
    (h : q.receive p = some (x, q')) :
    q'.Valid ∧ ∃ i, ∃ hi : i < q.pending.length, x = q.pending[i].1 ∧ p x ∧
      (∀ j, ∀ hj : j < i, ¬p (q.pending[j]).1) ∧ q'.pending = q.pending.eraseIdx i := by
  unfold receive at h
  cases hfind : q.pending.find? fun e => p e.1 with
  | none => simp [hfind] at h
  | some e =>
      simp only [hfind, Option.some.injEq, Prod.mk.injEq] at h
      obtain ⟨rfl, rfl⟩ := h
      obtain ⟨hp, i, hi, rfl, hbefore⟩ := List.find?_eq_some_iff_getElem.mp hfind
      refine ⟨?_, i, hi, rfl, hp, fun j hj => by simpa using hbefore j hj, ?_⟩
      · intro j hj
        obtain rfl | hj := List.mem_cons.mp hj
        · exact @pending_lt _ q _ (List.getElem_mem hi)
        · exact hq j hj
      · rw [← filter_ne_eq_eraseIdx q.nodup_pending hi]
        simp only [pending, List.filter_filter, List.mem_cons, not_or]
        apply List.filter_congr
        intro e _
        simp

end Fifo

end BTron.Lib

namespace BTron.Lib

variable {α : Type}

-- A stream by its history: what was written to it, and what was read from it.
structure Stream (α : Type) where
  written : List α
  read : List α

namespace Stream

def empty : Stream α := ⟨[], []⟩

-- What is still to be read.
def pending (q : Stream α) : List α := q.written.drop q.read.length

def put (q : Stream α) (xs : List α) : Stream α := { q with written := q.written ++ xs }

def take (q : Stream α) (n : Nat) : Stream α := { q with read := q.read ++ q.pending.take n }

-- Nothing is read that was not written, in the order of writing.
def Valid (q : Stream α) : Prop := q.read <+: q.written

theorem valid_empty : (empty : Stream α).Valid := List.prefix_rfl

theorem Valid.read_append_pending {q : Stream α} (h : q.Valid) : q.read ++ q.pending = q.written :=
  List.prefix_iff_eq_append.mp h

theorem Valid.put {q : Stream α} (h : q.Valid) (xs : List α) : (q.put xs).Valid :=
  h.trans (List.prefix_append _ _)

theorem Valid.pending_put {q : Stream α} (h : q.Valid) (xs : List α) :
    (q.put xs).pending = q.pending ++ xs :=
  List.drop_append_of_le_length h.length_le

theorem Valid.take {q : Stream α} (h : q.Valid) (n : Nat) : (q.take n).Valid := by
  have hparts : q.read ++ q.pending.take n ++ q.pending.drop n = q.written := by
    rw [List.append_assoc, List.take_append_drop, h.read_append_pending]
  exact ⟨q.pending.drop n, hparts⟩

theorem Valid.pending_take {q : Stream α} (h : q.Valid) (n : Nat) :
    (q.take n).pending = q.pending.drop n := by
  have hparts : q.written = q.read ++ q.pending.take n ++ q.pending.drop n := by
    rw [List.append_assoc, List.take_append_drop, h.read_append_pending]
  rw [Stream.pending, Stream.take]
  simp only
  rw [hparts, List.drop_left]

end Stream

end BTron.Lib
