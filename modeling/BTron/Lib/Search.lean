import Mathlib.Data.Finset.Card
import Mathlib.Data.Fintype.Card
import Mathlib.Data.List.Infix
import Mathlib.Data.Nat.Basic
import Mathlib.Data.Nat.Find

namespace BTron.Lib

variable {α : Type} {n a b h p s : List α}

section First

variable [DecidableEq α]

-- The first occurrence of `n` in `h`, with what is before it and behind it.
theorem dropInfix_eq_some :
    h.dropInfix? n = some (p, s) ↔
      h = p ++ n ++ s ∧ ∀ p' s', h = p' ++ n ++ s' → p.length ≤ p'.length := by
  rw [List.dropInfix?_eq_some_iff]
  constructor
  · rintro ⟨⟨i, heq, hi⟩, hfirst⟩
    obtain rfl := eq_of_beq hi
    exact ⟨heq, fun p' s' heq' => hfirst p' i s' heq' (beq_self_eq_true i)⟩
  · rintro ⟨heq, hfirst⟩
    refine ⟨⟨n, heq, beq_self_eq_true n⟩, fun p' i s' heq' hi => ?_⟩
    obtain rfl := eq_of_beq hi
    exact hfirst p' s' heq'

theorem dropInfix_eq_none : h.dropInfix? n = none ↔ ¬n <:+: h := by
  constructor
  · rintro hnone ⟨p, s, heq⟩
    -- of all occurrences there is a first one
    classical
    have hex : ∃ k p s, h = p ++ n ++ s ∧ p.length = k := ⟨_, p, s, heq.symm, rfl⟩
    obtain ⟨q, t, hq, hlen⟩ := Nat.find_spec hex
    have hfound : h.dropInfix? n = some (q, t) := dropInfix_eq_some.mpr
      ⟨hq, fun p' s' heq' => hlen ▸ Nat.find_min' hex ⟨p', s', heq', rfl⟩⟩
    rw [hnone] at hfound
    cases hfound
  · intro hnot
    cases hfound : h.dropInfix? n with
    | none => rfl
    | some found => exact absurd ⟨_, _, (dropInfix_eq_some.mp hfound).1.symm⟩ hnot

-- What is found stays found when more follows.
theorem dropInfix_append (hfound : h.dropInfix? n = some (p, s)) (b : List α) :
    (h ++ b).dropInfix? n = some (p, s ++ b) := by
  obtain ⟨heq, hfirst⟩ := dropInfix_eq_some.mp hfound
  refine dropInfix_eq_some.mpr ⟨by simp [heq], fun p' s' heq' => ?_⟩
  by_contra hlt
  rw [not_le] at hlt
  obtain ⟨r, hr, -⟩ | ⟨r, hr, hb⟩ := List.append_eq_append_iff.mp heq'
  · have hlen := congrArg List.length hr
    have hlen' := congrArg List.length heq
    simp only [List.length_append] at hlen hlen'
    omega
  · have hle := hfirst p' r hr
    omega

theorem dropInfix_self (n s : List α) : (n ++ s).dropInfix? n = some ([], s) :=
  dropInfix_eq_some.mpr ⟨rfl, fun _ _ _ => Nat.zero_le _⟩

end First

-- No occurrence of `n` begins in `a` where `b` follows.
def Free (n a b : List α) : Prop := ∀ p s, a ++ b = p ++ n ++ s → a.length ≤ p.length

theorem Free.split (hfree : Free n a b) (heq : a ++ b = p ++ n ++ s) :
    ∃ p', p = a ++ p' ∧ b = p' ++ n ++ s := by
  have hlen := hfree p s heq
  rw [List.append_assoc] at heq
  obtain ⟨p', rfl, hb⟩ | ⟨a', rfl, hb⟩ := List.append_eq_append_iff.mp heq
  · exact ⟨p', rfl, by rw [hb, List.append_assoc]⟩
  · rw [List.length_append] at hlen
    obtain rfl : a' = [] := List.length_eq_zero_iff.mp (by omega)
    exact ⟨[], by simp, by simpa using hb.symm⟩

theorem Free.append {a' : List α} (h : Free n a (a' ++ b)) (h' : Free n a' b) :
    Free n (a ++ a') b := by
  intro p s heq
  rw [List.append_assoc] at heq
  obtain ⟨p', rfl, hp'⟩ := h.split heq
  have hle := h' p' s hp'
  simp only [List.length_append]
  omega

theorem Free.infix_iff (hfree : Free n a b) : n <:+: a ++ b ↔ n <:+: b := by
  constructor
  · rintro ⟨p, s, heq⟩
    obtain ⟨p', -, hp'⟩ := hfree.split heq.symm
    exact ⟨p', s, hp'.symm⟩
  · exact fun h => h.trans (List.suffix_append a b).isInfix

-- A search passes what is free of `n`.
theorem Free.dropInfix [DecidableEq α] (hfree : Free n a b) :
    (a ++ b).dropInfix? n = (b.dropInfix? n).map fun found => (a ++ found.1, found.2) := by
  cases hb : b.dropInfix? n with
  | none => rw [Option.map_none, dropInfix_eq_none, hfree.infix_iff, ← dropInfix_eq_none, hb]
  | some found =>
      obtain ⟨heq, hfirst⟩ := dropInfix_eq_some.mp hb
      rw [Option.map_some, dropInfix_eq_some]
      refine ⟨by simp [heq], fun p' s' heq' => ?_⟩
      obtain ⟨p'', rfl, hp''⟩ := hfree.split heq'
      have hle := hfirst p'' s' hp''
      simp only [List.length_append]
      omega

theorem Free.found [DecidableEq α] (hfree : Free n a (n ++ s)) :
    (a ++ (n ++ s)).dropInfix? n = some (a, s) := by
  rw [hfree.dropInfix, dropInfix_self, Option.map_some, List.append_nil]

theorem Free.of_suffix (h : ∀ p x s, a = p ++ x → x ≠ [] → x ++ b ≠ n ++ s) : Free n a b := by
  intro p s heq
  by_contra hlt
  rw [List.append_assoc] at heq
  obtain ⟨p', rfl, hb⟩ | ⟨x, rfl, hb⟩ := List.append_eq_append_iff.mp heq
  · simp at hlt
  · cases x with
    | nil => simp at hlt
    | cons c x => exact h p (c :: x) s rfl (List.cons_ne_nil c x) hb.symm

section Needles

variable {c d : α} {k : List α}

-- A needle begins with a character that `a` does not have.
theorem Free.of_notMem (hc : c ∉ a) : Free (c :: k) a b := by
  apply Free.of_suffix
  intro p x s ha hx heq
  cases x with
  | nil => exact hx rfl
  | cons x₀ x =>
      rw [List.cons_append, List.cons_append, List.cons.injEq] at heq
      apply hc
      rw [ha, ← heq.1]
      exact List.mem_append_right p List.mem_cons_self

-- A needle has its first character once, and what follows `a` begins with that character.
theorem Free.of_head (hk : c ∉ k) (ha : ¬(c :: k) <:+: a) (hb : ∀ e ∈ b.head?, e = c) :
    Free (c :: k) a b := by
  apply Free.of_suffix
  intro p x s hax hx heq
  obtain ⟨y, hy, -⟩ | ⟨y, hy, hby⟩ := List.append_eq_append_iff.mp heq.symm
  · exact ha ⟨p, y, by rw [hax, hy, List.append_assoc]⟩
  · cases y with
    | nil =>
        rw [List.append_nil] at hy
        exact ha ⟨p, [], by rw [hax, hy, List.append_nil]⟩
    | cons e y =>
        have he : e = c := hb e (by rw [hby]; rfl)
        cases x with
        | nil => exact hx rfl
        | cons x₀ x =>
            rw [List.cons_append, List.cons.injEq] at hy
            apply hk
            rw [hy.2, he]
            exact List.mem_append_right x List.mem_cons_self

-- What is before the first occurrence of `n` in `h`, and what is behind it.
def Splits (n h p s : List α) : Prop := h = p ++ n ++ s ∧ ¬n <:+: p

theorem Splits.isInfix (hsplit : Splits n h p s) : n <:+: h := ⟨p, s, hsplit.1.symm⟩

theorem dropInfix_splits [DecidableEq α] (hk : c ∉ k) :
    h.dropInfix? (c :: k) = some (p, s) ↔ Splits (c :: k) h p s := by
  constructor
  · intro hfound
    obtain ⟨heq, hfirst⟩ := dropInfix_eq_some.mp hfound
    refine ⟨heq, fun hoccurs => ?_⟩
    obtain ⟨p', s', hp⟩ := hoccurs
    have hle := hfirst p' (s' ++ (c :: k) ++ s) (by rw [heq, ← hp]; simp)
    have hlen := congrArg List.length hp
    simp only [List.length_append, List.length_cons] at hlen
    omega
  · rintro ⟨rfl, hnot⟩
    have hfree : Free (c :: k) p (c :: k ++ s) :=
      .of_head hk hnot fun e he => (Option.some.inj he).symm
    rw [List.append_assoc]
    exact hfree.found

-- What is before the first mark, and what is behind it.
theorem eq_of_mark {a' s' : List α} (ha : d ∉ a) (ha' : d ∉ a') (h : a ++ d :: s = a' ++ d :: s') :
    a = a' ∧ s = s' := by
  induction a generalizing a' with
  | nil =>
      cases a' with
      | nil => exact ⟨rfl, (List.cons.inj h).2⟩
      | cons e a' => exact absurd ((List.cons.inj h).1 ▸ List.mem_cons_self) ha'
  | cons e a ih =>
      cases a' with
      | nil => exact absurd ((List.cons.inj h).1 ▸ List.mem_cons_self) ha
      | cons e' a' =>
          obtain ⟨rfl, hrest⟩ := List.cons.inj h
          rw [List.mem_cons, not_or] at ha ha'
          obtain ⟨rfl, hs⟩ := ih ha.2 ha'.2 hrest
          exact ⟨rfl, hs⟩

-- A needle has its last character once, and so has a text that ends with it.
theorem Free.of_last (hk : d ∉ k) (hd : d ∉ a) (ha : ¬k <:+ a) : Free (k ++ [d]) (a ++ [d]) b := by
  apply Free.of_suffix
  intro p x s hax hx heq
  obtain rfl | ⟨y, e, rfl⟩ := List.eq_nil_or_concat' x
  · exact hx rfl
  rw [← List.append_assoc, List.append_singleton_inj] at hax
  obtain ⟨rfl, rfl⟩ := hax
  rw [List.append_assoc, List.append_assoc] at heq
  have hy : d ∉ y := fun hmem => hd (List.mem_append_right p hmem)
  obtain ⟨rfl, -⟩ := eq_of_mark hy hk heq
  exact ha (List.suffix_append p y)

-- Such a needle is found up to the mark, or behind it.
theorem dropInfix_mark [DecidableEq α] (hk : d ∉ k) (hd : d ∉ a) (hka : k <:+ a) (b : List α) :
    ((a ++ d :: b).dropInfix? (k ++ [d])).map Prod.snd = some b := by
  obtain ⟨p, rfl⟩ := hka
  have hfree : Free (k ++ [d]) p ((k ++ [d]) ++ b) := by
    apply Free.of_suffix
    intro p' x s hp hx heq
    rw [← List.append_assoc, ← List.append_assoc, List.append_assoc, List.append_assoc k] at heq
    have hxk : d ∉ x ++ k := by
      intro hmem
      apply hd
      rw [hp, List.append_assoc]
      exact List.mem_append_right p' hmem
    obtain ⟨hsame, -⟩ := eq_of_mark hxk hk heq
    exact hx (List.append_left_eq_self.mp hsame)
  have hshape : p ++ k ++ d :: b = p ++ ((k ++ [d]) ++ b) := by simp
  rw [hshape, hfree.found]
  rfl

theorem dropInfix_skip [DecidableEq α] (hk : d ∉ k) (hd : d ∉ a) (hka : ¬k <:+ a) (b : List α) :
    ((a ++ d :: b).dropInfix? (k ++ [d])).map Prod.snd =
      (b.dropInfix? (k ++ [d])).map Prod.snd := by
  have hfree : Free (k ++ [d]) (a ++ [d]) b := .of_last hk hd hka
  have hshape : a ++ d :: b = (a ++ [d]) ++ b := by simp
  rw [hshape, hfree.dropInfix, Option.map_map]
  rfl

end Needles

-- A table of `n` slots whose entries in use have different owners, fewer than `n` of them in
-- all, has a slot that is free.
theorem exists_free_slot {n : Nat} {α : Type} (used : Fin n → Prop) (owner : Fin n → α)
    (owners : Finset α) (hmem : ∀ i, used i → owner i ∈ owners)
    (hinj : ∀ i j, used i → used j → owner i = owner j → i = j) (hcard : owners.card < n) :
    ∃ i, ¬used i := by
  by_contra hfull
  push Not at hfull
  have hle : (Finset.univ : Finset (Fin n)).card ≤ owners.card := by
    apply Finset.card_le_card_of_injOn owner
    · exact fun i _ => hmem i (hfull i)
    · exact fun i _ j _ hij => hinj i j (hfull i) (hfull j) hij
  rw [Finset.card_univ, Fintype.card_fin] at hle
  omega

end BTron.Lib

namespace BTron.Lib

-- `while (offset < end && !stop(p[offset])) offset++` over the next `n` cells.
def scan (stop : Nat → Bool) : Nat → Nat → Nat
  | 0, o => o
  | n + 1, o => if stop o then o else scan stop n (o + 1)

-- `while (i > lo && more(i - 1)) i--`
def backWhile (more : Nat → Bool) (lo : Nat) : Nat → Nat
  | 0 => 0
  | n + 1 => if lo < n + 1 ∧ more n then backWhile more lo n else n + 1

variable {stop more : Nat → Bool}

theorem scan_bounds (stop : Nat → Bool) (n o : Nat) :
    o ≤ scan stop n o ∧ scan stop n o ≤ o + n := by
  induction n generalizing o with
  | zero => exact ⟨Nat.le_refl _, Nat.le_refl _⟩
  | succ n ih =>
      unfold scan
      split
      · omega
      · have := ih (o + 1)
        omega

theorem scan_before {n o k : Nat} (hlo : o ≤ k) (hk : k < scan stop n o) : stop k = false := by
  induction n generalizing o with
  | zero =>
      unfold scan at hk
      omega
  | succ n ih =>
      unfold scan at hk
      split at hk
      · omega
      · rename_i hstop
        by_cases heq : k = o
        · subst heq
          simpa using hstop
        · exact ih (by omega) hk

theorem scan_stop {n o : Nat} (h : scan stop n o < o + n) : stop (scan stop n o) = true := by
  induction n generalizing o with
  | zero =>
      unfold scan at h
      omega
  | succ n ih =>
      unfold scan at h ⊢
      split at h
      · rename_i hstop
        rwa [if_pos hstop]
      · rename_i hstop
        rw [if_neg hstop]
        exact ih (by omega)

-- The scan stops where a stop follows cells without one, or at its end.
theorem scan_eq {n o l : Nat} (hl : l ≤ n) (hbefore : ∀ k < l, stop (o + k) = false)
    (hend : l < n → stop (o + l) = true) : scan stop n o = o + l := by
  have hb := scan_bounds stop n o
  rcases Nat.lt_trichotomy (scan stop n o) (o + l) with h | h | h
  · obtain ⟨k, hk⟩ := Nat.exists_eq_add_of_le hb.1
    have hlt : scan stop n o < o + n := by omega
    have hstop := scan_stop hlt
    rw [hk, hbefore k (by omega)] at hstop
    exact absurd hstop (by decide)
  · exact h
  · have hstop := scan_before (n := n) (Nat.le_add_right o l) h
    rw [hend (by omega)] at hstop
    exact absurd hstop (by decide)

-- A scan depends on nothing but the cells it may pass.
theorem scan_shift {stop' : Nat → Bool} {n o o' : Nat}
    (h : ∀ k < n, stop (o + k) = stop' (o' + k)) : scan stop n o - o = scan stop' n o' - o' := by
  have hb := scan_bounds stop n o
  have heq : scan stop' n o' = o' + (scan stop n o - o) := by
    refine scan_eq (by omega) (fun k hk => ?_) fun hlt => ?_
    · rw [← h k (by omega)]
      exact scan_before (Nat.le_add_right o k) (Nat.add_lt_of_lt_sub' hk)
    · rw [← h _ hlt, Nat.add_sub_cancel' hb.1]
      exact scan_stop (by omega)
  omega

theorem backWhile_congr {more' : Nat → Bool} (lo : Nat) {n : Nat}
    (h : ∀ k < n, more k = more' k) : backWhile more lo n = backWhile more' lo n := by
  induction n with
  | zero => rfl
  | succ n ih =>
      unfold backWhile
      rw [h n (Nat.lt_succ_self n), ih fun k hk => h k (by omega)]

theorem backWhile_le (more : Nat → Bool) (lo n : Nat) : backWhile more lo n ≤ n := by
  induction n with
  | zero => exact Nat.le_refl _
  | succ n ih =>
      unfold backWhile
      split
      · omega
      · exact Nat.le_refl _

-- Everything passed over satisfies `more`.
theorem backWhile_after {lo n k : Nat} (hk : backWhile more lo n ≤ k) (hn : k < n) :
    more k = true := by
  induction n with
  | zero => omega
  | succ n ih =>
      unfold backWhile at hk
      split at hk
      · rename_i hmore
        by_cases heq : k = n
        · exact heq ▸ hmore.2
        · exact ih hk (by omega)
      · omega

theorem backWhile_stop {lo n : Nat} (h : lo < backWhile more lo n) :
    more (backWhile more lo n - 1) = false := by
  induction n with
  | zero =>
      unfold backWhile at h
      omega
  | succ n ih =>
      unfold backWhile at h ⊢
      split at h
      · rename_i hmore
        rw [if_pos hmore]
        exact ih h
      · rename_i hmore
        rw [if_neg hmore]
        simpa [h] using hmore

end BTron.Lib
