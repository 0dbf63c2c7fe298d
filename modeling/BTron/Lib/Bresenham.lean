import Mathlib.Data.List.Chain
import Mathlib.Logic.Function.Iterate
import Mathlib.Tactic.Linarith

namespace BTron.Lib.Bresenham

-- A line that goes `dx` across and `dy` along, in whole steps. A position is how many of each
-- have been made.
variable {dx dy : Int}

-- The error the next choice is made on.
def error (dx dy : Int) (p : Int × Int) : Int := (p.2 + 1) * dx - (p.1 + 1) * dy

def next (dx dy : Int) (p : Int × Int) : Int × Int :=
  (if -dy ≤ 2 * error dx dy p then p.1 + 1 else p.1,
    if 2 * error dx dy p ≤ dx then p.2 + 1 else p.2)

def position (dx dy : Int) (k : Nat) : Int × Int := (next dx dy)^[k] (0, 0)

theorem position_zero : position dx dy 0 = (0, 0) := rfl

theorem position_succ (k : Nat) : position dx dy (k + 1) = next dx dy (position dx dy k) :=
  Function.iterate_succ_apply' _ _ _

-- The two directions have the same rule.
theorem next_swap (p : Int × Int) : next dy dx p.swap = (next dx dy p).swap := by
  have herror : error dy dx p.swap = -error dx dy p := by
    rw [error, error, Prod.fst_swap, Prod.snd_swap]
    omega
  rw [next, next, herror, Prod.swap_prod_mk]
  congr 1
  · apply if_congr _ rfl rfl
    omega
  · apply if_congr _ rfl rfl
    omega

theorem position_swap (dx dy : Int) (k : Nat) : position dy dx k = (position dx dy k).swap := by
  induction k with
  | zero => rfl
  | succ k ih => rw [position_succ, position_succ, ih, next_swap]

-- How far a position is from the line between the ends, in units of the longer side.
def off (dx dy : Int) (p : Int × Int) : Int := p.2 * dx - p.1 * dy

-- Where the walk along the longer side is after `k` steps.
structure Near (dx dy : Int) (k : Nat) (p : Int × Int) : Prop where
  first : p.1 = k
  second : 0 ≤ p.2 ∧ p.2 ≤ dy
  close : -dx ≤ 2 * off dx dy p ∧ 2 * off dx dy p ≤ dx

theorem second_le (hdy : 0 ≤ dy) {i j : Int} (hi : i ≤ dx) (hdx : 0 < dx)
    (hoff : 2 * (j * dx - i * dy) ≤ dx) : j ≤ dy := by
  by_contra hj
  have hj' : (dy + 1) * dx ≤ j * dx := Int.mul_le_mul_of_nonneg_right (by omega) (by omega)
  have hi' : i * dy ≤ dx * dy := Int.mul_le_mul_of_nonneg_right hi hdy
  rw [Int.add_mul, Int.mul_comm dy dx] at hj'
  omega

theorem near_next (hdy : 0 ≤ dy) (hle : dy ≤ dx) {k : Nat} (hk : (k : Int) < dx) {p : Int × Int}
    (h : Near dx dy k p) : Near dx dy (k + 1) (next dx dy p) := by
  obtain ⟨i, j⟩ := p
  obtain ⟨hi, ⟨hj₀, hj⟩, hlow, hhigh⟩ := h
  simp only [off] at hi hj₀ hj hlow hhigh
  subst hi
  have herror : error dx dy (k, j) = (j * dx - k * dy) + dx - dy := by
    simp only [error, Int.add_mul]
    omega
  -- a step along the longer side is made every time
  have hfirst : -dy ≤ 2 * error dx dy (k, j) := by
    rw [herror]
    omega
  have hk' : ((k : Int) + 1) * dy = k * dy + dy := by rw [Int.add_mul, Int.one_mul]
  have hj' : (j + 1) * dx = j * dx + dx := by rw [Int.add_mul, Int.one_mul]
  rw [next, if_pos hfirst, herror]
  split
  · rename_i hsecond
    have hoff : 2 * ((j + 1) * dx - (k + 1) * dy) ≤ dx := by omega
    refine ⟨rfl, ⟨by omega, second_le hdy (by omega) (by omega) hoff⟩, ?_, hoff⟩
    simp only [off]
    omega
  · rename_i hsecond
    have hoff : 2 * (j * dx - (k + 1) * dy) ≤ dx := by omega
    refine ⟨rfl, ⟨hj₀, hj⟩, ?_, hoff⟩
    simp only [off]
    omega

theorem near_position (hdy : 0 ≤ dy) (hle : dy ≤ dx) {k : Nat} (hk : (k : Int) ≤ dx) :
    Near dx dy k (position dx dy k) := by
  induction k with
  | zero =>
      refine ⟨rfl, ⟨Int.le_refl 0, hdy⟩, ?_⟩
      rw [position_zero, off]
      omega
  | succ k ih =>
      rw [position_succ]
      exact near_next hdy hle (by omega) (ih (by omega))

-- A line with one side only
theorem position_row {k : Nat} (hk : (k : Int) ≤ dx) : position dx 0 k = ((k : Int), 0) := by
  obtain ⟨hfirst, ⟨hlow, hhigh⟩, -⟩ := near_position (Int.le_refl 0) (by omega) hk
  exact Prod.ext hfirst (by omega)

theorem position_column {k : Nat} (hk : (k : Int) ≤ dy) : position 0 dy k = (0, (k : Int)) := by
  rw [position_swap, position_row hk]
  rfl

-- With the longer side walked along, the shorter one is too.
theorem Near.last (hdx : 0 < dx) {p : Int × Int} {k : Nat} (h : Near dx dy k p)
    (hk : (k : Int) = dx) : p = (dx, dy) := by
  obtain ⟨i, j⟩ := p
  obtain ⟨hi, -, hlow, hhigh⟩ := h
  simp only [off] at hi hlow hhigh
  obtain rfl : i = dx := hi.trans hk
  have hoff : j * i - i * dy = (j - dy) * i := by rw [Int.sub_mul, Int.mul_comm dy i]
  rw [hoff] at hlow hhigh
  -- a distance of a whole unit would be too far
  have hlt : ¬1 ≤ j - dy := fun h1 => by
    have := Int.mul_le_mul_of_nonneg_right h1 hdx.le
    omega
  have hgt : ¬j - dy ≤ -1 := fun h1 => by
    have := Int.mul_le_mul_of_nonneg_right h1 hdx.le
    omega
  have hj : j = dy := by omega
  rw [hj]

-- The number of steps
def steps (dx dy : Int) : Nat := (max dx dy).toNat

-- What the walk does from one end to the other.
structure Walk (dx dy : Int) : Prop where
  within : ∀ k ≤ steps dx dy, (0 ≤ (position dx dy k).1 ∧ (position dx dy k).1 ≤ dx) ∧
    0 ≤ (position dx dy k).2 ∧ (position dx dy k).2 ≤ dy
  near : ∀ k ≤ steps dx dy, |2 * off dx dy (position dx dy k)| ≤ max dx dy
  last : position dx dy (steps dx dy) = (dx, dy)
  before : ∀ k < steps dx dy, position dx dy k ≠ (dx, dy)

theorem walk_of_le (hdy : 0 ≤ dy) (hle : dy ≤ dx) : Walk dx dy := by
  have hsteps : (steps dx dy : Int) = dx := by
    rw [steps]
    omega
  have hmax : max dx dy = dx := by omega
  have hnear : ∀ k ≤ steps dx dy, Near dx dy k (position dx dy k) := fun k hk =>
    near_position hdy hle (by omega)
  constructor
  · intro k hk
    obtain ⟨hfirst, hsecond, -⟩ := hnear k hk
    exact ⟨by omega, hsecond⟩
  · intro k hk
    obtain ⟨-, -, hoff⟩ := hnear k hk
    rw [hmax, abs_le]
    exact hoff
  · by_cases hdx : dx = 0
    · have hdy₀ : dy = 0 := by omega
      subst hdx hdy₀
      rfl
    · exact (hnear _ (Nat.le_refl _)).last (by omega) hsteps
  · intro k hk heq
    have hfirst := (hnear k hk.le).first
    rw [heq] at hfirst
    simp only at hfirst
    omega

theorem walk (hdx : 0 ≤ dx) (hdy : 0 ≤ dy) : Walk dx dy := by
  rcases Int.le_total dy dx with hle | hle
  · exact walk_of_le hdy hle
  · have h := walk_of_le hdx hle
    have hsteps : steps dy dx = steps dx dy := by
      rw [steps, steps]
      omega
    have hmax : max dy dx = max dx dy := by omega
    have hoff : ∀ p : Int × Int, off dy dx p.swap = -off dx dy p := fun p => by
      rw [off, off, Prod.fst_swap, Prod.snd_swap]
      omega
    obtain ⟨hwithin, hnear, hlast, hbefore⟩ := h
    simp only [position_swap dx dy, hsteps, hmax, Prod.fst_swap, Prod.snd_swap, hoff] at *
    refine ⟨fun k hk => (hwithin k hk).symm, fun k hk => ?_, ?_, fun k hk heq => ?_⟩
    · have := hnear k hk
      rw [Int.mul_neg, abs_neg] at this
      exact this
    · rw [← Prod.swap_swap (position dx dy _), hlast]
      rfl
    · exact hbefore k hk (by rw [heq]; rfl)

-- One step goes at most one further in each direction, and goes on.
theorem next_step (dx dy : Int) (p : Int × Int) : (next dx dy p).1 - p.1 ∈ ({0, 1} : Set Int) ∧
    (next dx dy p).2 - p.2 ∈ ({0, 1} : Set Int) := by
  simp only [next, Set.mem_insert_iff, Set.mem_singleton_iff]
  constructor <;> split <;> omega

end BTron.Lib.Bresenham
