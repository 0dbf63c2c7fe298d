import Mathlib.Data.List.Pairwise
import Mathlib.Data.List.Perm.Basic
import Mathlib.Order.Lattice

namespace BTron.Lib

variable {α κ : Type}

-- The inner loop of an exchange sort, with what stands in front and what stands behind that.
-- `swap` says that the two change places. It may fail.
def exchangePass (swap : α → α → Option Bool) : α → List α → Option (α × List α)
  | x, [] => some (x, [])
  | x, y :: ys => do
    if ← swap x y then
      let (m, zs) ← exchangePass swap y ys
      some (m, x :: zs)
    else
      let (m, zs) ← exchangePass swap x ys
      some (m, y :: zs)

-- The outer loop, in as many rounds as there are places.
def exchangeLoop (swap : α → α → Option Bool) : Nat → List α → Option (List α)
  | 0, l => some l
  | _ + 1, [] => some []
  | fuel + 1, x :: xs => do
    let (m, zs) ← exchangePass swap x xs
    let rest ← exchangeLoop swap fuel zs
    some (m :: rest)

def exchangeSort (swap : α → α → Option Bool) (l : List α) : Option (List α) :=
  exchangeLoop swap l.length l

variable [LinearOrder κ] {swap : α → α → Option Bool} {key : α → κ}

-- Of these two the one with the greater key goes behind the other.
def SwapsBy (swap : α → α → Option Bool) (key : α → κ) (a b : α) : Prop :=
  (∃ r, swap a b = some r ∧ (r = true ↔ key b < key a)) ∧
    ∃ r, swap b a = some r ∧ (r = true ↔ key a < key b)

-- The least of all goes to the front.
theorem exchangePass_spec {x : α} {ys : List α} (h : (x :: ys).Pairwise (SwapsBy swap key)) :
    ∃ m zs, exchangePass swap x ys = some (m, zs) ∧ (m :: zs).Perm (x :: ys) ∧
      ∀ z ∈ zs, key m ≤ key z := by
  induction ys generalizing x with
  | nil => exact ⟨x, [], rfl, .refl _, fun z hz => absurd hz List.not_mem_nil⟩
  | cons y ys ih =>
      rw [List.pairwise_cons, List.forall_mem_cons, List.pairwise_cons] at h
      obtain ⟨⟨⟨⟨r, hr, hrKey⟩, _⟩, hx⟩, hy, hys⟩ := h
      by_cases hlt : key y < key x
      · obtain ⟨m, zs, hpass, hperm, hleast⟩ := ih (List.pairwise_cons.mpr ⟨hy, hys⟩)
        refine ⟨m, x :: zs, ?_, ?_, ?_⟩
        · rw [exchangePass, hr, Option.bind_eq_bind, Option.bind_some, if_pos (hrKey.mpr hlt),
            hpass]
          rfl
        · exact (List.Perm.swap x m zs).trans (hperm.cons x)
        · have hmy : key m ≤ key y := by
            obtain heq | hmem := List.mem_cons.mp (hperm.symm.subset List.mem_cons_self)
            · rw [heq]
            · exact hleast y hmem
          exact List.forall_mem_cons.mpr ⟨hmy.trans hlt.le, hleast⟩
      · obtain ⟨m, zs, hpass, hperm, hleast⟩ := ih (List.pairwise_cons.mpr ⟨hx, hys⟩)
        refine ⟨m, y :: zs, ?_, ?_, ?_⟩
        · rw [exchangePass, hr, Option.bind_eq_bind, Option.bind_some,
            if_neg fun h => hlt (hrKey.mp h), hpass]
          rfl
        · exact ((List.Perm.swap y m zs).trans (hperm.cons y)).trans (List.Perm.swap x y ys)
        · have hmx : key m ≤ key x := by
            obtain heq | hmem := List.mem_cons.mp (hperm.symm.subset List.mem_cons_self)
            · rw [heq]
            · exact hleast x hmem
          exact List.forall_mem_cons.mpr ⟨hmx.trans (not_lt.mp hlt), hleast⟩

theorem exchangeSort_spec {l : List α} (h : l.Pairwise (SwapsBy swap key)) :
    ∃ out, exchangeSort swap l = some out ∧ out.Perm l ∧
      out.Pairwise fun a b => key a ≤ key b := by
  generalize hlen : l.length = n
  rw [exchangeSort, hlen]
  induction n generalizing l with
  | zero =>
      obtain rfl := List.length_eq_zero_iff.mp hlen
      exact ⟨[], rfl, .refl _, .nil⟩
  | succ n ih =>
      obtain ⟨x, xs, rfl⟩ := List.exists_cons_of_length_eq_add_one hlen
      obtain ⟨m, zs, hpass, hperm, hleast⟩ := exchangePass_spec h
      have hrest : (m :: zs).Pairwise (SwapsBy swap key) :=
        (hperm.pairwise_iff fun hab => ⟨hab.2, hab.1⟩).mpr h
      have hzs : zs.length = n := by
        have hsame := hperm.length_eq
        rw [List.length_cons] at hsame
        omega
      obtain ⟨out, hout, hpermOut, hsorted⟩ := ih (List.pairwise_cons.mp hrest).2 hzs
      refine ⟨m :: out, ?_, (hpermOut.cons m).trans hperm, ?_⟩
      · rw [exchangeLoop, hpass, Option.bind_eq_bind, Option.bind_some]
        dsimp only
        rw [hout]
        rfl
      · exact List.pairwise_cons.mpr ⟨fun z hz => hleast z (hpermOut.subset hz), hsorted⟩

-- What is in order stays as it is.
theorem exchangePass_ordered {x : α} {ys : List α} (h : ∀ y ∈ ys, swap x y = some false) :
    exchangePass swap x ys = some (x, ys) := by
  induction ys with
  | nil => rfl
  | cons y ys ih =>
      rw [List.forall_mem_cons] at h
      rw [exchangePass, h.1, Option.bind_eq_bind, Option.bind_some, if_neg (by decide), ih h.2]
      rfl

theorem exchangeSort_ordered {l : List α} (h : l.Pairwise fun a b => swap a b = some false) :
    exchangeSort swap l = some l := by
  rw [exchangeSort]
  induction l with
  | nil => rfl
  | cons x xs ih =>
      obtain ⟨hx, hxs⟩ := List.pairwise_cons.mp h
      rw [List.length_cons, exchangeLoop, exchangePass_ordered hx, Option.bind_eq_bind,
        Option.bind_some]
      dsimp only
      rw [ih hxs]
      rfl

-- One whose key no other has stands behind those with a smaller one.
theorem getElem?_sorted {l : List α} (h : l.Pairwise fun a b => key a ≤ key b) {a : α}
    (ha : a ∈ l) {less same : α → Bool} (hless : ∀ b ∈ l, less b = true ↔ key b < key a)
    (hsame : ∀ b ∈ l, same b = true ↔ key b = key a) (hone : l.countP same = 1) :
    l[l.countP less]? = some a := by
  induction l with
  | nil => exact absurd ha List.not_mem_nil
  | cons x xs ih =>
      obtain ⟨hx, hxs⟩ := List.pairwise_cons.mp h
      rw [List.forall_mem_cons] at hless hsame
      rw [List.countP_cons] at hone ⊢
      obtain hlt | heq | hgt := lt_trichotomy (key x) (key a)
      · have hne : x ≠ a := by
          rintro rfl
          exact lt_irrefl _ hlt
        have hmem : a ∈ xs := (List.mem_cons.mp ha).resolve_left fun heq => hne heq.symm
        rw [if_neg fun h => hlt.ne (hsame.1.mp h)] at hone
        rw [if_pos (hless.1.mpr hlt), List.getElem?_cons_succ]
        exact ih hxs hmem hless.2 hsame.2 hone
      · have hnone : a ∉ xs := by
          intro hmem
          have hpos : 0 < xs.countP same :=
            List.countP_pos_iff.mpr ⟨a, hmem, (hsame.2 a hmem).mpr rfl⟩
          rw [if_pos (hsame.1.mpr heq)] at hone
          omega
        have hax : a = x := (List.mem_cons.mp ha).resolve_right hnone
        have hzero : xs.countP less = 0 := by
          rw [List.countP_eq_zero]
          intro b hb hb'
          have hle := hx b hb
          rw [heq] at hle
          exact absurd ((hless.2 b hb).mp hb') (not_lt.mpr hle)
        rw [hzero, if_neg fun h => heq.not_lt (hless.1.mp h), List.getElem?_cons_zero, hax]
      · have hle : key x ≤ key a := by
          obtain rfl | hmem := List.mem_cons.mp ha
          · exact le_rfl
          · exact hx a hmem
        exact absurd hgt (not_lt.mpr hle)

end BTron.Lib
