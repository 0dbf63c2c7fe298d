import Mathlib.Data.List.Basic
import Mathlib.Logic.Function.Basic

namespace BTron.Lib

variable {α : Type}

-- The nodes `l` are linked both ways, `before` being the `prev` of the first and `after`
-- the `next` of the last.
def Linked (next prev : α → Option α) : Option α → List α → Option α → Prop
  | _, [], _ => True
  | before, x :: xs, after =>
    prev x = before ∧ next x = xs.head?.or after ∧ Linked next prev (some x) xs after

variable {next prev next' prev' : α → Option α}

@[simp] theorem linked_nil (before after : Option α) : Linked next prev before [] after := trivial

@[simp] theorem linked_cons (before after : Option α) (x : α) (xs : List α) :
    Linked next prev before (x :: xs) after ↔
      prev x = before ∧ next x = xs.head?.or after ∧ Linked next prev (some x) xs after :=
  Iff.rfl

theorem linked_append (before after : Option α) (xs ys : List α) :
    Linked next prev before (xs ++ ys) after ↔
      Linked next prev before xs (ys.head?.or after) ∧
        Linked next prev (xs.getLast?.or before) ys after := by
  induction xs generalizing before with
  | nil => simp
  | cons x xs ih =>
      have hlast : (x :: xs).getLast?.or before = xs.getLast?.or (some x) := by
        cases xs <;> simp [List.getLast?_cons]
      simp only [List.cons_append, linked_cons, ih, hlast, List.head?_append, Option.or_assoc,
        and_assoc]

-- Links read nothing but the two pointers of their own nodes.
theorem Linked.congr {before after : Option α} {xs : List α}
    (h : Linked next prev before xs after)
    (heq : ∀ x ∈ xs, next' x = next x ∧ prev' x = prev x) :
    Linked next' prev' before xs after := by
  induction xs generalizing before with
  | nil => trivial
  | cons x xs ih =>
      obtain ⟨hprev, hnext, hrest⟩ := h
      obtain ⟨hn, hp⟩ := heq x List.mem_cons_self
      exact ⟨hp ▸ hprev, hn ▸ hnext, ih hrest fun y hy => heq y (List.mem_cons_of_mem _ hy)⟩

-- The links determine the list from its first node on.
theorem Linked.unique {before before' : Option α} {xs ys : List α}
    (hx : Linked next prev before xs none) (hy : Linked next prev before' ys none)
    (hhead : xs.head? = ys.head?) : xs = ys := by
  induction xs generalizing before before' ys with
  | nil => exact (List.head?_eq_none_iff.mp hhead.symm).symm
  | cons x xs ih =>
      obtain ⟨rest, rfl⟩ := List.head?_eq_some_iff.mp hhead.symm
      obtain ⟨-, hxnext, hxs⟩ := hx
      obtain ⟨-, hynext, hys⟩ := hy
      rw [Option.or_none] at hxnext hynext
      rw [ih hxs hys (hxnext.symm.trans hynext)]

-- The first node is hung on another predecessor.
theorem Linked.rehang {before before' after : Option α} {xs : List α} (hnd : xs.Nodup)
    (h : Linked next prev before xs after) (hhead : ∀ x ∈ xs.head?, prev' x = before')
    (heq : ∀ x ∈ xs, next' x = next x ∧ (x ∉ xs.head? → prev' x = prev x)) :
    Linked next' prev' before' xs after := by
  cases xs with
  | nil => trivial
  | cons x xs =>
      obtain ⟨-, hnext, hrest⟩ := h
      refine ⟨hhead x rfl, (heq x List.mem_cons_self).1 ▸ hnext, hrest.congr fun y hy => ?_⟩
      obtain ⟨hn, hp⟩ := heq y (List.mem_cons_of_mem _ hy)
      refine ⟨hn, hp fun hxy => ?_⟩
      obtain rfl : x = y := by simpa using hxy
      exact (List.nodup_cons.mp hnd).1 hy

-- The last node is hung on another successor.
theorem Linked.retail {before after after' : Option α} {xs : List α} (hnd : xs.Nodup)
    (h : Linked next prev before xs after) (hlast : ∀ x ∈ xs.getLast?, next' x = after')
    (heq : ∀ x ∈ xs, prev' x = prev x ∧ (x ∉ xs.getLast? → next' x = next x)) :
    Linked next' prev' before xs after' := by
  rcases xs.eq_nil_or_concat with rfl | ⟨ys, t, rfl⟩
  · trivial
  · simp only [List.concat_eq_append] at *
    rw [linked_append] at h ⊢
    obtain ⟨hys, hprev, -, -⟩ := h
    have ht : t ∉ ys := fun ht => (List.nodup_append.mp hnd).2.2 t ht t (by simp) rfl
    refine ⟨hys.congr fun y hy => ?_, ?_, ?_, trivial⟩
    · obtain ⟨hp, hn⟩ := heq y (by simp [hy])
      refine ⟨hn fun hyt => ?_, hp⟩
      obtain rfl : t = y := by simpa using hyt
      exact ht hy
    · exact (heq t (by simp)).1 ▸ hprev
    · exact hlast t (by simp)

-- `y`, the successor of `x`, is taken out of the list.
theorem Linked.unlink {before after : Option α} {pre post : List α} {x y : α}
    (hnd : (pre ++ x :: y :: post).Nodup)
    (h : Linked next prev before (pre ++ x :: y :: post) after)
    (hnext : next' x = next y) (hprev : prev' x = prev x)
    (hpost : ∀ z ∈ post.head?, prev' z = some x)
    (heq : ∀ z ∈ pre ++ post, next' z = next z ∧ (z ∉ post.head? → prev' z = prev z)) :
    Linked next' prev' before (pre ++ x :: post) after := by
  rw [linked_append] at h ⊢
  obtain ⟨hpre, hpx, -, -, hny, hrest⟩ := h
  have hnd' : post.Nodup := by
    rw [List.nodup_append, List.nodup_cons, List.nodup_cons] at hnd
    exact hnd.2.1.2.2
  refine ⟨hpre.congr fun z hz => ?_, hprev ▸ hpx, hnext ▸ hny, ?_⟩
  · obtain ⟨hn, hp⟩ := heq z (by simp [hz])
    refine ⟨hn, hp fun hzp => ?_⟩
    exact (List.nodup_append.mp hnd).2.2 z hz z
      (by simp [List.mem_of_mem_head? hzp]) rfl
  · exact hrest.rehang hnd' hpost fun z hz => heq z (by simp [hz])

-- `y` becomes the successor of `x`.
theorem Linked.link {before after : Option α} {pre post : List α} {x y : α}
    (hnd : (pre ++ x :: y :: post).Nodup) (h : Linked next prev before (pre ++ x :: post) after)
    (hnext : next' x = some y) (hprev : prev' x = prev x) (hny : next' y = next x)
    (hpy : prev' y = some x) (hpost : ∀ z ∈ post.head?, prev' z = some y)
    (heq : ∀ z ∈ pre ++ post, next' z = next z ∧ (z ∉ post.head? → prev' z = prev z)) :
    Linked next' prev' before (pre ++ x :: y :: post) after := by
  rw [linked_append] at h ⊢
  obtain ⟨hpre, hpx, hnx, hrest⟩ := h
  have hnd' : post.Nodup := by
    rw [List.nodup_append, List.nodup_cons, List.nodup_cons] at hnd
    exact hnd.2.1.2.2
  refine ⟨hpre.congr fun z hz => ?_, hprev ▸ hpx, hnext, hpy, hny.trans hnx, ?_⟩
  · obtain ⟨hn, hp⟩ := heq z (by simp [hz])
    refine ⟨hn, hp fun hzp => ?_⟩
    exact (List.nodup_append.mp hnd).2.2 z hz z
      (by simp [List.mem_of_mem_head? hzp]) rfl
  · exact hrest.rehang hnd' hpost fun z hz => heq z (by simp [hz])

-- `y` is taken out of the list, wherever it is.
theorem Linked.remove {before after : Option α} {pre post : List α} {y : α}
    (hnd : (pre ++ y :: post).Nodup) (h : Linked next prev before (pre ++ y :: post) after)
    (hlast : ∀ z ∈ pre.getLast?, next' z = post.head?.or after)
    (hhead : ∀ z ∈ post.head?, prev' z = pre.getLast?.or before)
    (hpre : ∀ z ∈ pre, prev' z = prev z ∧ (z ∉ pre.getLast? → next' z = next z))
    (hpost : ∀ z ∈ post, next' z = next z ∧ (z ∉ post.head? → prev' z = prev z)) :
    Linked next' prev' before (pre ++ post) after := by
  rw [linked_append] at h ⊢
  obtain ⟨hl, -, -, hr⟩ := h
  rw [List.nodup_append, List.nodup_cons] at hnd
  exact ⟨hl.retail hnd.1 hlast hpre, hr.rehang hnd.2.1.2 hhead hpost⟩

-- `x` becomes the first node.
theorem Linked.push {before before' after : Option α} {xs : List α} {x : α} (hnd : xs.Nodup)
    (h : Linked next prev before xs after) (hnext : next' x = xs.head?.or after)
    (hprev : prev' x = before') (hhead : ∀ z ∈ xs.head?, prev' z = some x)
    (heq : ∀ z ∈ xs, next' z = next z ∧ (z ∉ xs.head? → prev' z = prev z)) :
    Linked next' prev' before' (x :: xs) after :=
  ⟨hprev, hnext, h.rehang hnd hhead heq⟩

theorem Linked.next_inverse {before : Option α} {xs : List α} (hnd : xs.Nodup)
    (h : Linked next prev before xs none) {x y : α} (hx : x ∈ xs) (hxy : next x = some y) :
    y ∈ xs ∧ prev y = some x := by
  obtain ⟨pre, post, rfl⟩ := List.append_of_mem hx
  rw [linked_append, linked_cons] at h
  obtain ⟨-, -, hnext, hpost⟩ := h
  cases post with
  | nil => simp [hnext] at hxy
  | cons z zs =>
      obtain rfl : z = y := by simpa [hnext] using hxy
      exact ⟨by simp, hpost.1⟩

theorem Linked.prev_inverse {after : Option α} {xs : List α} (hnd : xs.Nodup)
    (h : Linked next prev none xs after) {x y : α} (hy : y ∈ xs) (hxy : prev y = some x) :
    x ∈ xs ∧ next x = some y := by
  obtain ⟨pre, post, rfl⟩ := List.append_of_mem hy
  rcases pre.eq_nil_or_concat with rfl | ⟨pre, z, rfl⟩
  · simp [h.1] at hxy
  · rw [List.concat_eq_append, List.append_assoc, linked_append] at h
    obtain ⟨-, -, hnext, hprev, -⟩ := h
    obtain rfl : z = x := by simpa [hprev] using hxy
    exact ⟨by simp, hnext⟩

-- Behind `p` the nodes `l` follow each other, and `null` the last.
def Chain (next : α → α) (null : α) : α → List α → Prop
  | p, [] => next p = null
  | p, x :: l => next p = x ∧ Chain next null x l

section

variable {next next' : α → α} {null p x : α} {l : List α}

theorem Chain.congr (h : Chain next null p l) (heq : ∀ y ∈ p :: l, next' y = next y) :
    Chain next' null p l := by
  induction l generalizing p with
  | nil => exact (heq p List.mem_cons_self).trans h
  | cons y l ih =>
      exact ⟨(heq p List.mem_cons_self).trans h.1,
        ih h.2 fun z hz => heq z (List.mem_cons_of_mem p hz)⟩

theorem Chain.first (h : Chain next null p l) : next p = l.headD null := by
  cases l with
  | nil => exact h
  | cons y l => exact h.1

theorem Chain.rest {y : α} (h : Chain next null p (y :: l)) : Chain next null y l := h.2

theorem Chain.last (h : Chain next null p l) : next ((p :: l).getLast (by simp)) = null := by
  induction l generalizing p with
  | nil => exact h
  | cons y l ih =>
      rw [List.getLast_cons (List.cons_ne_nil y l)]
      exact ih h.2

-- The first node behind `p` is taken out.
theorem Chain.tail [DecidableEq α] (h : Chain next null p (x :: l)) (hnd : (p :: x :: l).Nodup) :
    Chain (Function.update next p (next x)) null p l := by
  cases l with
  | nil => exact (Function.update_self _ _ _).trans h.2
  | cons y l =>
      refine ⟨(Function.update_self _ _ _).trans h.2.1, h.2.2.congr ?_⟩
      intro z hz
      refine Function.update_of_ne ?_ _ _
      rintro rfl
      exact (List.nodup_cons.mp hnd).1 (List.mem_cons_of_mem x hz)

-- A new node is hung in behind another.
theorem Chain.insert [DecidableEq α] {r : List α} (h : Chain next null p (l ++ r))
    (hnd : (p :: (l ++ r)).Nodup) (hx : x ∉ p :: (l ++ r)) :
    Chain (Function.update (Function.update next x (next ((p :: l).getLast (by simp))))
      ((p :: l).getLast (by simp)) x) null p (l ++ x :: r) := by
  induction l generalizing p with
  | nil =>
      have hpx : p ≠ x := fun heq => hx (heq ▸ List.mem_cons_self)
      refine ⟨Function.update_self _ _ _, ?_⟩
      have hnew : Function.update (Function.update next x (next p)) p x x = next p := by
        rw [Function.update_of_ne hpx.symm, Function.update_self]
      cases r with
      | nil => exact hnew.trans h
      | cons y r =>
          refine ⟨hnew.trans h.1, h.2.congr ?_⟩
          intro z hz
          have hzp : z ≠ p := fun heq => (List.nodup_cons.mp hnd).1 (heq ▸ hz)
          have hzx : z ≠ x := fun heq => hx (List.mem_cons_of_mem p (heq ▸ hz))
          rw [List.getLast_singleton, Function.update_of_ne hzp, Function.update_of_ne hzx]
  | cons y l ih =>
      have hlast : (p :: y :: l).getLast (by simp) = (y :: l).getLast (by simp) :=
        List.getLast_cons (by simp)
      have hmem : (y :: l).getLast (by simp) ∈ y :: l := List.getLast_mem _
      have hpx : p ≠ x := fun heq => hx (heq ▸ List.mem_cons_self)
      have hpl : p ≠ (y :: l).getLast (by simp) := fun heq =>
        (List.nodup_cons.mp hnd).1 (List.mem_append_left r (heq ▸ hmem))
      refine ⟨?_, ?_⟩
      · rw [hlast, Function.update_of_ne hpl, Function.update_of_ne hpx]
        exact h.1
      · rw [hlast]
        exact ih h.2 (List.nodup_cons.mp hnd).2 fun hmem => hx (List.mem_cons_of_mem p hmem)

end

end BTron.Lib
