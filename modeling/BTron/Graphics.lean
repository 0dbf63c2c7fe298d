import BTron.Types
import Mathlib.Logic.Function.Basic

namespace BTron.Graphics

-- Conversion of an int to H.
def asH (n : Int) : Int := n.bmod 65536

theorem asH_of_range {n : Int} (h : -32768 ≤ n ∧ n < 32768) : asH n = n :=
  Int.bmod_eq_of_le (by omega) (by omega)

theorem asH_eq (n : Int) : asH n = (n + 32768) % 65536 - 32768 := by
  rw [asH, Int.bmod_eq_emod]
  split <;> omega

theorem asH_inj {k m n : Int} (h : asH (k + m) = asH (k + n)) (hm : 0 ≤ m ∧ m < 65536)
    (hn : 0 ≤ n ∧ n < 65536) : m = n := by
  rw [asH_eq, asH_eq] at h
  omega

structure Rect where
  left : Int
  top : Int
  right : Int
  bottom : Int
deriving DecidableEq

-- GDEV. The pixels are any values, and their array is any memory.
structure Gdev (γ : Type) where
  width : Int
  height : Int
  pixels : Int → γ
  clip : Rect

variable {γ : Type}

-- The device `opn_dev` makes when there is memory for it.
def opnDev (w h : Int) (blank : γ) : Option (Gdev γ) :=
  if w ≤ 0 ∨ h ≤ 0 then none else some ⟨w, h, fun _ => blank, ⟨0, 0, w, h⟩⟩

def Gdev.set (dev : Gdev γ) (i : Int) (col : γ) : Gdev γ :=
  { dev with pixels := Function.update dev.pixels i col }

-- The pixel in column `x` of row `y`
def Gdev.at (dev : Gdev γ) (x y : Int) : γ := dev.pixels (y * dev.width + x)

-- The inner loop of `fill_rec`, from the pixel `row` on.
def fillRow (dev : Gdev γ) (row : Int) (col : γ) : Nat → Gdev γ
  | 0 => dev
  | span + 1 => (fillRow dev row col span).set (row + span) col

-- The outer loop, from the row `top` on.
def fillRows (dev : Gdev γ) (left top : Int) (span : Nat) (col : γ) : Nat → Gdev γ
  | 0 => dev
  | rows + 1 =>
    let dev := fillRows dev left top span col rows
    fillRow dev ((top + rows) * dev.width + left) col span

def fillRec (dev : Gdev γ) (r : Rect) (col : γ) : Gdev γ :=
  let left := if r.left < dev.clip.left then dev.clip.left else r.left
  let top := if r.top < dev.clip.top then dev.clip.top else r.top
  let right := if r.right > dev.clip.right then dev.clip.right else r.right
  let bottom := if r.bottom > dev.clip.bottom then dev.clip.bottom else r.bottom
  if left ≥ right ∨ top ≥ bottom then dev
  else fillRows dev left top (right - left).toNat col (bottom - top).toNat

-- The pixel (x, y) of the rectangle. The right and bottom edges are not part of it.
def Rect.contains (r : Rect) (x y : Int) : Bool :=
  x ≥ r.left && x < r.right && y ≥ r.top && y < r.bottom

theorem Rect.contains_iff {r : Rect} {x y : Int} :
    r.contains x y ↔ r.left ≤ x ∧ x < r.right ∧ r.top ≤ y ∧ y < r.bottom := by
  simp only [Rect.contains, Bool.and_eq_true, decide_eq_true_eq, ge_iff_le, and_assoc]

-- The same screen but for its pixels.
structure Gdev.Like (dev dev' : Gdev γ) : Prop where
  width : dev'.width = dev.width
  height : dev'.height = dev.height
  clip : dev'.clip = dev.clip

theorem Gdev.Like.refl (dev : Gdev γ) : dev.Like dev := ⟨rfl, rfl, rfl⟩

theorem Gdev.Like.trans {dev dev' dev'' : Gdev γ} (h : dev.Like dev') (h' : dev'.Like dev'') :
    dev.Like dev'' :=
  ⟨h'.width.trans h.width, h'.height.trans h.height, h'.clip.trans h.clip⟩

theorem fillRow_like (dev : Gdev γ) (row : Int) (col : γ) (span : Nat) :
    dev.Like (fillRow dev row col span) := by
  induction span with
  | zero => exact .refl dev
  | succ span ih => exact ih.trans ⟨rfl, rfl, rfl⟩

theorem fillRows_like (dev : Gdev γ) (left top : Int) (span : Nat) (col : γ) (rows : Nat) :
    dev.Like (fillRows dev left top span col rows) := by
  induction rows with
  | zero => exact .refl dev
  | succ rows ih => exact ih.trans (fillRow_like _ _ _ _)

theorem fillRec_like (dev : Gdev γ) (r : Rect) (col : γ) : dev.Like (fillRec dev r col) := by
  rw [fillRec]
  apply iteInduction
  · exact fun _ => .refl dev
  · exact fun _ => fillRows_like dev _ _ _ col _

theorem Gdev.set_pixels (dev : Gdev γ) (i : Int) (col : γ) :
    (dev.set i col).pixels = Function.update dev.pixels i col := rfl

theorem fillRow_pixels (dev : Gdev γ) (row : Int) (col : γ) (span : Nat) (i : Int) :
    (fillRow dev row col span).pixels i =
      if row ≤ i ∧ i < row + span then col else dev.pixels i := by
  induction span with
  | zero =>
      rw [fillRow, if_neg (by omega)]
  | succ span ih =>
      rw [fillRow, Gdev.set_pixels]
      by_cases hi : i = row + span
      · rw [hi, Function.update_self, if_pos (by omega)]
      · rw [Function.update_of_ne hi, ih]
        apply if_congr _ rfl rfl
        omega

-- Two pixels of one row have addresses that do not meet those of another row.
theorem row_of_address {w x y x' y' : Int} (hx : 0 ≤ x ∧ x < w) (hx' : 0 ≤ x' ∧ x' < w)
    (h : y * w + x = y' * w + x') : x = x' ∧ y = y' := by
  have hmod : ∀ {a b : Int}, 0 ≤ a ∧ a < w → (b * w + a) % w = a := fun ha => by
    rw [Int.add_comm, Int.add_mul_emod_self_right, Int.emod_eq_of_lt ha.1 ha.2]
  have hxx : x = x' := by rw [← hmod (b := y) hx, h, hmod hx']
  subst hxx
  refine ⟨rfl, ?_⟩
  have hw : w ≠ 0 := by omega
  exact Int.eq_of_mul_eq_mul_right hw (by omega)

theorem fillRow_at {dev : Gdev γ} {left y₀ x y : Int} {col : γ} {span : Nat} (hleft : 0 ≤ left)
    (hright : left + span ≤ dev.width) (hx : 0 ≤ x ∧ x < dev.width) :
    (fillRow dev (y₀ * dev.width + left) col span).at x y =
      if left ≤ x ∧ x < left + span ∧ y = y₀ then col else dev.at x y := by
  rw [Gdev.at, (fillRow_like dev _ col span).width, fillRow_pixels, Gdev.at]
  apply if_congr _ rfl rfl
  constructor
  · intro hin
    -- the address is that of a pixel of the row
    have hk : y * dev.width + x = y₀ * dev.width + (y * dev.width + x - y₀ * dev.width) := by omega
    obtain ⟨hxk, rfl⟩ := row_of_address hx ⟨by omega, by omega⟩ hk
    omega
  · rintro ⟨hl, hr, rfl⟩
    omega

theorem fillRows_at {dev : Gdev γ} {left top x y : Int} {span : Nat} {col : γ} (rows : Nat)
    (hleft : 0 ≤ left) (hright : left + span ≤ dev.width) (hx : 0 ≤ x ∧ x < dev.width) :
    (fillRows dev left top span col rows).at x y =
      if left ≤ x ∧ x < left + span ∧ top ≤ y ∧ y < top + rows then col else dev.at x y := by
  induction rows with
  | zero => rw [fillRows, if_neg (by omega)]
  | succ rows ih =>
      have hlike := fillRows_like dev left top span col rows
      rw [fillRows, fillRow_at hleft (by rw [hlike.width]; exact hright)
        (by rw [hlike.width]; exact hx), ih]
      by_cases hin : left ≤ x ∧ x < left + span
      · by_cases hy : y = top + rows
        · rw [if_pos ⟨hin.1, hin.2, hy⟩, if_pos (by omega)]
        · rw [if_neg (by omega)]
          apply if_congr _ rfl rfl
          omega
      · rw [if_neg (by omega), if_neg (by omega), if_neg (by omega)]

-- A device that may be drawn on everywhere.
structure Gdev.Whole (dev : Gdev γ) : Prop where
  clip : dev.clip = ⟨0, 0, dev.width, dev.height⟩

theorem opnDev_whole {w h : Int} {blank : γ} {dev : Gdev γ} (hdev : opnDev w h blank = some dev) :
    dev.Whole := by
  rw [opnDev] at hdev
  split at hdev
  · cases hdev
  · cases hdev
    exact ⟨rfl⟩

theorem Gdev.Whole.like {dev dev' : Gdev γ} (h : dev.Whole) (hlike : dev.Like dev') :
    dev'.Whole :=
  ⟨by rw [hlike.clip, h.clip, hlike.width, hlike.height]⟩

theorem fillRec_at {dev : Gdev γ} (h : dev.Whole) (r : Rect) (col : γ) {x y : Int}
    (hx : 0 ≤ x ∧ x < dev.width) (hy : 0 ≤ y ∧ y < dev.height) :
    (fillRec dev r col).at x y = if r.contains x y then col else dev.at x y := by
  have hlow : ∀ a b : Int, (if a < b then b else a) = max a b := fun a b => by split <;> omega
  have hhigh : ∀ a b : Int, (if a > b then b else a) = min a b := fun a b => by split <;> omega
  rw [fillRec, h.clip]
  simp only [hlow, hhigh, Rect.contains_iff]
  split
  · rw [if_neg (by omega)]
  · rw [fillRows_at _ (by omega) (by omega) hx]
    apply if_congr _ rfl rfl
    omega

end BTron.Graphics
