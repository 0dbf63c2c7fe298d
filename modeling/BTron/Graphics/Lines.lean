import BTron.Graphics
import BTron.Lib.Bresenham
import Mathlib.Data.List.Range
import Mathlib.Tactic.Ring

namespace BTron.Graphics

open Lib

variable {γ : Type}

def setClip (dev : Gdev γ) : Option Rect → Gdev γ
  | some clip =>
    { dev with
        clip :=
          ⟨if clip.left < 0 then 0 else clip.left, if clip.top < 0 then 0 else clip.top,
            if clip.right > dev.width then dev.width else clip.right,
            if clip.bottom > dev.height then dev.height else clip.bottom⟩ }
  | none => { dev with clip := ⟨0, 0, dev.width, dev.height⟩ }

section Drawing

-- COLOR_BLACK
variable (black : γ)

def drwPnt (dev : Gdev γ) (x y : Int) : Gdev γ :=
  if x < dev.clip.left ∨ x ≥ dev.clip.right ∨ y < dev.clip.top ∨ y ≥ dev.clip.bottom then dev
  else dev.set (y * dev.width + x) black

-- The loops of `drw_lin` have made at most so many turns. They say whether they have ended.
-- The loop of the two fast paths goes from `c` to `last`, and `addr` says where its pixels are.
def spanLoop (addr : Int → Int) (last : Int) : Nat → Gdev γ → Int → Gdev γ × Bool
  | 0, dev, _ => (dev, false)
  | n + 1, dev, c =>
    if c ≤ last then spanLoop addr last n (dev.set (addr c) black) (asH (c + 1)) else (dev, true)

-- A fast path: the pixels from `a` to `b`, where the clip goes from `low` to `high`.
def spanPath (addr : Int → Int) (low high : Int) (n : Nat) (dev : Gdev γ) (a b : Int) :
    Gdev γ × Bool :=
  let first := if a < b then a else b
  let last := if a < b then b else a
  let first := if first < low then low else first
  let last := if last ≥ high then asH (high - 1) else last
  if first > last then (dev, true) else spanLoop black addr last n dev first

structure Turn where
  x : Int
  y : Int
  err : Int

-- The choice of the next pixel.
def lineNext (dx dy sx sy : Int) (t : Turn) : Turn :=
  let e2 := asH (2 * t.err)
  let t := if e2 ≥ dy then { t with err := asH (t.err + dy), x := asH (t.x + sx) } else t
  if e2 ≤ dx then { t with err := asH (t.err + dx), y := asH (t.y + sy) } else t

def lineLoop (next : Turn → Turn) (x2 y2 : Int) : Nat → Gdev γ → Turn → Gdev γ × Bool
  | 0, dev, _ => (dev, false)
  | n + 1, dev, t =>
    let dev := if dev.clip.contains t.x t.y then dev.set (t.y * dev.width + t.x) black else dev
    if t.x = x2 ∧ t.y = y2 then (dev, true) else lineLoop next x2 y2 n dev (next t)

def lineStart (x1 y1 x2 y2 : Int) : Turn :=
  ⟨x1, y1, asH (asH |x2 - x1| + asH (-|y2 - y1|))⟩

def lineStep (x1 y1 x2 y2 : Int) : Turn → Turn :=
  lineNext (asH |x2 - x1|) (asH (-|y2 - y1|)) (if x1 < x2 then 1 else -1)
    (if y1 < y2 then 1 else -1)

def drwLin (n : Nat) (dev : Gdev γ) (x1 y1 x2 y2 : Int) : Gdev γ × Bool :=
  let clip := dev.clip
  if y1 = y2 then
    if y1 < clip.top ∨ y1 ≥ clip.bottom then (dev, true)
    else spanPath black (fun x => y1 * dev.width + x) clip.left clip.right n dev x1 x2
  else if x1 = x2 then
    if x1 < clip.left ∨ x1 ≥ clip.right then (dev, true)
    else spanPath black (fun y => y * dev.width + x1) clip.top clip.bottom n dev y1 y2
  else lineLoop black (lineStep x1 y1 x2 y2) x2 y2 n dev (lineStart x1 y1 x2 y2)

-- Calls of `drw_lin` one after the other
def drwLins (n : Nat) (dev : Gdev γ) : List (Int × Int × Int × Int) → Gdev γ × Bool
  | [] => (dev, true)
  | (x1, y1, x2, y2) :: rest =>
    let r := drwLin black n dev x1 y1 x2 y2
    if r.2 then drwLins n r.1 rest else r

def recLines (r : Rect) : List (Int × Int × Int × Int) :=
  [(r.left, r.top, asH (r.right - 1), r.top),
    (asH (r.right - 1), r.top, asH (r.right - 1), asH (r.bottom - 1)),
    (r.left, asH (r.bottom - 1), asH (r.right - 1), asH (r.bottom - 1)),
    (r.left, r.top, r.left, asH (r.bottom - 1))]

def drwRec (n : Nat) (dev : Gdev γ) (r : Rect) : Gdev γ × Bool := drwLins black n dev (recLines r)

end Drawing

section Loops

variable {black : γ}

-- The pixels that change are those of `P`, and these become black.
structure Drawn (black : γ) (dev dev' : Gdev γ) (P : Int → Prop) : Prop where
  like : dev.Like dev'
  on : ∀ i, P i → dev'.pixels i = black
  off : ∀ i, ¬P i → dev'.pixels i = dev.pixels i

theorem Drawn.none (dev : Gdev γ) {P : Int → Prop} (hP : ∀ i, ¬P i) : Drawn black dev dev P :=
  ⟨.refl dev, fun i hi => absurd hi (hP i), fun _ _ => rfl⟩

theorem Drawn.pixel (dev : Gdev γ) (i : Int) : Drawn black dev (dev.set i black) (· = i) := by
  refine ⟨⟨rfl, rfl, rfl⟩, fun j hj => ?_, fun j hj => ?_⟩
  · rw [hj, Gdev.set_pixels, Function.update_self]
  · rw [Gdev.set_pixels, Function.update_of_ne hj]

theorem Drawn.trans {dev dev' dev'' : Gdev γ} {P Q : Int → Prop} (h : Drawn black dev dev' P)
    (h' : Drawn black dev' dev'' Q) : Drawn black dev dev'' fun i => P i ∨ Q i := by
  refine ⟨h.like.trans h'.like, fun i hi => ?_, fun i hi => ?_⟩
  · by_cases hQ : Q i
    · exact h'.on i hQ
    · rw [h'.off i hQ, h.on i (hi.resolve_right hQ)]
  · rw [not_or] at hi
    rw [h'.off i hi.2, h.off i hi.1]

theorem Drawn.congr {dev dev' : Gdev γ} {P Q : Int → Prop} (h : Drawn black dev dev' P)
    (hPQ : ∀ i, Q i ↔ P i) : Drawn black dev dev' Q :=
  ⟨h.like, fun i hi => h.on i ((hPQ i).mp hi), fun i hi => h.off i fun hP => hi ((hPQ i).mpr hP)⟩

theorem asH_isH (m : Int) : -32768 ≤ asH m ∧ asH m < 32768 := by
  rw [asH_eq]
  omega

theorem spanLoop_drawn (addr : Int → Int) {last : Int} (hlast : last < 32767) (n : Nat)
    (dev : Gdev γ) {c : Int} (hc : -32768 ≤ c) :
    Drawn black dev (spanLoop black addr last n dev c).1
      fun i => ∃ x, c ≤ x ∧ x ≤ last ∧ x < c + n ∧ addr x = i := by
  induction n generalizing dev c with
  | zero =>
      refine .none dev fun i => ?_
      rintro ⟨x, hx, -, hxn, -⟩
      omega
  | succ n ih =>
      rw [spanLoop]
      split
      · rename_i hle
        rw [asH_of_range (by omega)]
        refine ((Drawn.pixel dev (addr c)).trans (ih _ (by omega))).congr fun i => ⟨?_, ?_⟩
        · rintro ⟨x, hx, hxl, hxn, rfl⟩
          by_cases hxc : x = c
          · exact .inl (by rw [hxc])
          · exact .inr ⟨x, by omega, hxl, by omega, rfl⟩
        · rintro (rfl | ⟨x, hx, hxl, hxn, rfl⟩)
          · exact ⟨c, Int.le_refl c, hle, by omega, rfl⟩
          · exact ⟨x, by omega, hxl, by omega, rfl⟩
      · refine .none dev fun i => ?_
        rintro ⟨x, hx, hxl, -⟩
        omega

theorem spanLoop_ends (addr : Int → Int) {last : Int} (hlast : last < 32767) {n : Nat}
    (dev : Gdev γ) {c : Int} (hc : -32768 ≤ c) (hn : 0 < n) (hend : last + 1 < c + n) :
    (spanLoop black addr last n dev c).2 = true := by
  induction n generalizing dev c with
  | zero => omega
  | succ n ih =>
      rw [spanLoop]
      split
      · rw [asH_of_range (by omega)]
        exact ih _ (by omega) (by omega) (by omega)
      · rfl

-- No H is greater than 32767.
theorem spanLoop_never (addr : Int → Int) (n : Nat) (dev : Gdev γ) {c : Int} (hc : c < 32768) :
    (spanLoop black addr 32767 n dev c).2 = false := by
  induction n generalizing dev c with
  | zero => rfl
  | succ n ih =>
      rw [spanLoop, if_pos (by omega)]
      exact ih _ (asH_isH (c + 1)).2

section Path

variable {addr : Int → Int} {low high a b : Int}

theorem spanPath_eq (n : Nat) (dev : Gdev γ) :
    spanPath black addr low high n dev a b =
      let first := max (min a b) low
      let last := if max a b ≥ high then asH (high - 1) else max a b
      if first > last then (dev, true) else spanLoop black addr last n dev first := by
  have hmin : (if a < b then a else b) = min a b := by split <;> omega
  have hmax : (if a < b then b else a) = max a b := by split <;> omega
  have hfirst : ∀ m : Int, (if m < low then low else m) = max m low := fun m => by split <;> omega
  rw [spanPath]
  simp only [hmin, hmax, hfirst]

theorem spanPath_drawn (ha : -32768 ≤ a) (hb : -32768 ≤ b)
    (hhigh : -32768 < high ∧ high < 32768) (n : Nat) (dev : Gdev γ) :
    Drawn black dev (spanPath black addr low high n dev a b).1 fun i => ∃ x,
      (min a b ≤ x ∧ x ≤ max a b) ∧ (low ≤ x ∧ x < high) ∧ x < max (min a b) low + n ∧
        addr x = i := by
  have hlast : (if max a b ≥ high then asH (high - 1) else max a b) = min (max a b) (high - 1) := by
    rw [asH_of_range (by omega)]
    split <;> omega
  rw [spanPath_eq]
  simp only [hlast]
  split
  · refine .none dev fun i => ?_
    rintro ⟨x, hx, hin, -⟩
    omega
  · refine (spanLoop_drawn addr (by omega) n dev (by omega)).congr fun i => exists_congr fun x => ?_
    constructor
    · rintro ⟨hx, hin, hn, heq⟩
      exact ⟨by omega, by omega, hn, heq⟩
    · rintro ⟨hx, hin, hn, heq⟩
      exact ⟨by omega, by omega, hn, heq⟩

theorem spanPath_ends (ha : -32768 ≤ a) (hb : -32768 ≤ b)
    (hhigh : -32768 < high ∧ high < 32768) {n : Nat} (hn : 65536 < n) (dev : Gdev γ) :
    (spanPath black addr low high n dev a b).2 = true := by
  have hlast : (if max a b ≥ high then asH (high - 1) else max a b) = min (max a b) (high - 1) := by
    rw [asH_of_range (by omega)]
    split <;> omega
  rw [spanPath_eq]
  simp only [hlast]
  split
  · rfl
  · exact spanLoop_ends addr (by omega) dev (by omega) (by omega) (by omega)

-- Below the least H there is the greatest: the loop goes on for ever.
theorem spanPath_never (ha : -32768 ≤ a ∧ a < 32768) (hlow : low < 32768) (n : Nat)
    (dev : Gdev γ) : (spanPath black addr low (-32768) n dev a b).2 = false := by
  have hlast : (if max a b ≥ -32768 then asH (-32768 - 1) else max a b) = 32767 := by
    rw [if_pos (by omega)]
    decide
  rw [spanPath_eq]
  simp only [hlast]
  rw [if_neg (by omega)]
  exact spanLoop_never addr n dev (by omega)

end Path

def AtEnd (x2 y2 : Int) (t : Turn) : Prop := t.x = x2 ∧ t.y = y2

theorem lineLoop_drawn (next : Turn → Turn) (x2 y2 : Int) (n : Nat) (dev : Gdev γ) (t : Turn) :
    Drawn black dev (lineLoop black next x2 y2 n dev t).1 fun i => ∃ k < n,
      (∀ m < k, ¬AtEnd x2 y2 (next^[m] t)) ∧
        dev.clip.contains (next^[k] t).x (next^[k] t).y ∧
          (next^[k] t).y * dev.width + (next^[k] t).x = i := by
  induction n generalizing dev t with
  | zero => exact .none dev fun i => by simp
  | succ n ih =>
      rw [lineLoop]
      -- the pixel of this turn
      have hturn : Drawn black dev
          (if dev.clip.contains t.x t.y then dev.set (t.y * dev.width + t.x) black else dev)
          fun i => dev.clip.contains t.x t.y ∧ t.y * dev.width + t.x = i := by
        split
        · rename_i hin
          exact (Drawn.pixel dev _).congr fun i => ⟨fun h => h.2.symm, fun h => ⟨hin, h.symm⟩⟩
        · rename_i hin
          exact .none dev fun i h => hin h.1
      split
      · rename_i hend
        refine hturn.congr fun i => ⟨?_, fun h => ⟨0, by omega, by omega, h⟩⟩
        rintro ⟨k, -, hbefore, hk⟩
        cases k with
        | zero => exact hk
        | succ k => exact absurd hend (hbefore 0 (by omega))
      · rename_i hend
        refine (hturn.trans (ih _ (next t))).congr fun i => ⟨?_, ?_⟩
        · rintro ⟨k, hk, hbefore, hpix⟩
          cases k with
          | zero => exact .inl hpix
          | succ k =>
              rw [hturn.like.clip, hturn.like.width]
              exact .inr ⟨k, by omega, fun m hm => hbefore (m + 1) (by omega), hpix⟩
        · rw [hturn.like.clip, hturn.like.width]
          rintro (hpix | ⟨k, hk, hbefore, hpix⟩)
          · exact ⟨0, by omega, by omega, hpix⟩
          · refine ⟨k + 1, by omega, fun m hm => ?_, hpix⟩
            cases m with
            | zero => exact hend
            | succ m => exact hbefore m (by omega)

theorem lineLoop_ends_iff (next : Turn → Turn) (x2 y2 : Int) (n : Nat) (dev : Gdev γ) (t : Turn) :
    (lineLoop black next x2 y2 n dev t).2 = true ↔ ∃ k < n, AtEnd x2 y2 (next^[k] t) := by
  induction n generalizing dev t with
  | zero => simp [lineLoop]
  | succ n ih =>
      rw [lineLoop]
      split
      · rename_i hend
        exact ⟨fun _ => ⟨0, by omega, hend⟩, fun _ => rfl⟩
      · rename_i hend
        rw [ih]
        constructor
        · rintro ⟨k, hk, hat⟩
          exact ⟨k + 1, by omega, hat⟩
        · rintro ⟨k, hk, hat⟩
          cases k with
          | zero => exact absurd hat hend
          | succ k => exact ⟨k, by omega, hat⟩

end Loops

section Line

-- The line between the ends over the integers.
def lineSteps (x1 y1 x2 y2 : Int) : Nat := Bresenham.steps |x2 - x1| |y2 - y1|

def linePoint (x1 y1 x2 y2 : Int) (k : Nat) : Int × Int :=
  let p := Bresenham.position |x2 - x1| |y2 - y1| k
  (x1 + (if x1 < x2 then 1 else -1) * p.1, y1 + (if y1 < y2 then 1 else -1) * p.2)

def linePoints (x1 y1 x2 y2 : Int) : List (Int × Int) :=
  (List.range (lineSteps x1 y1 x2 y2 + 1)).map (linePoint x1 y1 x2 y2)

-- The points go from one end to the other, by at most 1 in each coordinate, and none is more
-- than half a unit of the longer side away from the straight line.
structure IsLine (pts : List (Int × Int)) (x1 y1 x2 y2 : Int) : Prop where
  first : pts.head? = some (x1, y1)
  last : pts.getLast? = some (x2, y2)
  step : pts.IsChain fun p q => |q.1 - p.1| ≤ 1 ∧ |q.2 - p.2| ≤ 1
  near : ∀ p ∈ pts, |2 * ((p.2 - y1) * (x2 - x1) - (p.1 - x1) * (y2 - y1))| ≤
    max |x2 - x1| |y2 - y1|

variable {x1 y1 x2 y2 : Int}

theorem lineWalk (x1 y1 x2 y2 : Int) : Bresenham.Walk |x2 - x1| |y2 - y1| :=
  Bresenham.walk (abs_nonneg _) (abs_nonneg _)

theorem sign_mul_abs (a b : Int) : (if a < b then 1 else -1) * |b - a| = b - a := by
  split
  · rw [abs_of_pos (by omega), Int.one_mul]
  · rw [abs_of_nonpos (by omega)]
    omega

theorem sign_cases (a b : Int) :
    (if a < b then (1 : Int) else -1) = 1 ∨ (if a < b then (1 : Int) else -1) = -1 := by
  split <;> simp

theorem linePoint_step (x1 y1 x2 y2 : Int) (k : Nat) :
    |(linePoint x1 y1 x2 y2 (k + 1)).1 - (linePoint x1 y1 x2 y2 k).1| ≤ 1 ∧
      |(linePoint x1 y1 x2 y2 (k + 1)).2 - (linePoint x1 y1 x2 y2 k).2| ≤ 1 := by
  have hnext := Bresenham.next_step |x2 - x1| |y2 - y1|
    (Bresenham.position |x2 - x1| |y2 - y1| k)
  simp only [Set.mem_insert_iff, Set.mem_singleton_iff] at hnext
  simp only [linePoint, Bresenham.position_succ, abs_le]
  rcases sign_cases x1 x2 with hx | hx <;> rcases sign_cases y1 y2 with hy | hy <;>
    rw [hx, hy] <;> omega

-- The distance of a point from the straight line is that of the position, up to its sign.
theorem linePoint_off (x1 y1 x2 y2 : Int) (k : Nat) :
    |2 * (((linePoint x1 y1 x2 y2 k).2 - y1) * (x2 - x1) -
        ((linePoint x1 y1 x2 y2 k).1 - x1) * (y2 - y1))| =
      |2 * Bresenham.off |x2 - x1| |y2 - y1| (Bresenham.position |x2 - x1| |y2 - y1| k)| := by
  have hx := sign_mul_abs x1 x2
  have hy := sign_mul_abs y1 y2
  simp only [linePoint, Bresenham.off]
  generalize |x2 - x1| = dx at hx ⊢
  generalize |y2 - y1| = dy at hy ⊢
  rw [← hx, ← hy]
  rcases sign_cases x1 x2 with hsx | hsx <;> rcases sign_cases y1 y2 with hsy | hsy <;>
    rw [hsx, hsy]
  · congr 1
    ring
  · rw [← abs_neg]
    congr 1
    ring
  · rw [← abs_neg]
    congr 1
    ring
  · congr 1
    ring

theorem linePoints_isLine (x1 y1 x2 y2 : Int) : IsLine (linePoints x1 y1 x2 y2) x1 y1 x2 y2 := by
  have hwalk := lineWalk x1 y1 x2 y2
  constructor
  · simp [linePoints, List.range_succ_eq_map, linePoint, Bresenham.position_zero]
  · have hlast := hwalk.last
    simp only [linePoints, List.range_succ, List.map_append, List.map_cons, List.map_nil,
      List.getLast?_concat, linePoint, lineSteps, hlast, sign_mul_abs]
    congr 2 <;> omega
  · rw [linePoints, List.isChain_map]
    exact (List.isChain_range_succ _ _).mpr fun k _ => linePoint_step x1 y1 x2 y2 k
  · intro p hp
    obtain ⟨k, hk, rfl⟩ := List.mem_map.mp hp
    rw [List.mem_range] at hk
    rw [linePoint_off]
    exact hwalk.near k (by rw [lineSteps] at hk; omega)

theorem linePoint_range (hx1 : -32768 ≤ x1 ∧ x1 < 32768) (hy1 : -32768 ≤ y1 ∧ y1 < 32768)
    (hx2 : -32768 ≤ x2 ∧ x2 < 32768) (hy2 : -32768 ≤ y2 ∧ y2 < 32768) {k : Nat}
    (hk : k ≤ lineSteps x1 y1 x2 y2) :
    (-32768 ≤ (linePoint x1 y1 x2 y2 k).1 ∧ (linePoint x1 y1 x2 y2 k).1 < 32768) ∧
      -32768 ≤ (linePoint x1 y1 x2 y2 k).2 ∧ (linePoint x1 y1 x2 y2 k).2 < 32768 := by
  have hwithin := (lineWalk x1 y1 x2 y2).within k hk
  have hx := sign_mul_abs x1 x2
  have hy := sign_mul_abs y1 y2
  simp only [linePoint]
  rcases sign_cases x1 x2 with hsx | hsx <;> rcases sign_cases y1 y2 with hsy | hsy <;>
    rw [hsx] at hx ⊢ <;> rw [hsy] at hy ⊢ <;> omega

-- The error at a point of the line
def lineError (x1 y1 x2 y2 : Int) (k : Nat) : Int :=
  Bresenham.error |x2 - x1| |y2 - y1| (Bresenham.position |x2 - x1| |y2 - y1| k)

-- The two comparisons with twice the error come out the same on H values and on the integers.
def SameChoice (dx dy err : Int) : Prop :=
  (asH (-dy) ≤ asH (2 * err) ↔ -dy ≤ 2 * err) ∧ (asH (2 * err) ≤ asH dx ↔ 2 * err ≤ dx)

theorem asH_add_asH (m n : Int) : asH (asH m + asH n) = asH (m + n) := by
  rw [asH, asH, asH, asH, Int.add_bmod_bmod, Int.bmod_add_bmod]

theorem asH_mul_asH (m n : Int) : asH (m * asH n) = asH (m * n) := by
  rw [asH, asH, asH, Int.mul_bmod_bmod]

-- The turn at a point of the line
def lineTurn (x1 y1 x2 y2 : Int) (k : Nat) : Turn :=
  ⟨(linePoint x1 y1 x2 y2 k).1, (linePoint x1 y1 x2 y2 k).2, asH (lineError x1 y1 x2 y2 k)⟩

theorem lineStart_eq (x1 y1 x2 y2 : Int) : lineStart x1 y1 x2 y2 = lineTurn x1 y1 x2 y2 0 := by
  rw [lineStart, lineTurn, linePoint, lineError, Bresenham.position_zero, asH_add_asH,
    Bresenham.error]
  simp only [Int.mul_zero, Int.add_zero, Int.zero_add, Int.one_mul, Int.sub_eq_add_neg]

-- What `drw_lin` makes of a point of the line.
theorem lineStep_turn (x1 y1 x2 y2 : Int) (k : Nat) :
    lineStep x1 y1 x2 y2 (lineTurn x1 y1 x2 y2 k) =
      let e := lineError x1 y1 x2 y2 k
      let right := asH (-|y2 - y1|) ≤ asH (2 * e)
      let down := asH (2 * e) ≤ asH |x2 - x1|
      ⟨if right then asH ((linePoint x1 y1 x2 y2 k).1 + if x1 < x2 then 1 else -1)
        else (linePoint x1 y1 x2 y2 k).1,
        if down then asH ((linePoint x1 y1 x2 y2 k).2 + if y1 < y2 then 1 else -1)
        else (linePoint x1 y1 x2 y2 k).2,
        asH (e + (if right then -|y2 - y1| else 0) + if down then |x2 - x1| else 0)⟩ := by
  rw [lineStep, lineNext, lineTurn]
  simp only [asH_mul_asH, ge_iff_le]
  by_cases hright : asH (-|y2 - y1|) ≤ asH (2 * lineError x1 y1 x2 y2 k) <;>
    by_cases hdown : asH (2 * lineError x1 y1 x2 y2 k) ≤ asH |x2 - x1| <;>
      simp [hright, hdown, asH_add_asH]

theorem linePoint_succ (x1 y1 x2 y2 : Int) (k : Nat) :
    linePoint x1 y1 x2 y2 (k + 1) =
      (if -|y2 - y1| ≤ 2 * lineError x1 y1 x2 y2 k then
          (linePoint x1 y1 x2 y2 k).1 + if x1 < x2 then 1 else -1
        else (linePoint x1 y1 x2 y2 k).1,
        if 2 * lineError x1 y1 x2 y2 k ≤ |x2 - x1| then
          (linePoint x1 y1 x2 y2 k).2 + if y1 < y2 then 1 else -1
        else (linePoint x1 y1 x2 y2 k).2) := by
  simp only [linePoint, lineError, Bresenham.position_succ, Bresenham.next]
  generalize (if x1 < x2 then (1 : Int) else -1) = sx
  generalize (if y1 < y2 then (1 : Int) else -1) = sy
  have hstep : ∀ (c : Prop) [Decidable c] (a s i : Int),
      a + s * (if c then i + 1 else i) = if c then a + s * i + s else a + s * i := by
    intro c _ a s i
    split
    · rw [Int.mul_add, Int.mul_one, Int.add_assoc]
    · rfl
  rw [hstep, hstep]
  rfl

theorem lineError_succ (x1 y1 x2 y2 : Int) (k : Nat) :
    lineError x1 y1 x2 y2 (k + 1) = lineError x1 y1 x2 y2 k +
      (if -|y2 - y1| ≤ 2 * lineError x1 y1 x2 y2 k then -|y2 - y1| else 0) +
        if 2 * lineError x1 y1 x2 y2 k ≤ |x2 - x1| then |x2 - x1| else 0 := by
  have herror : ∀ p : Int × Int, Bresenham.error |x2 - x1| |y2 - y1| p =
      p.2 * |x2 - x1| + |x2 - x1| - p.1 * |y2 - y1| - |y2 - y1| := fun p => by
    rw [Bresenham.error, Int.add_mul, Int.add_mul]
    omega
  rw [lineError, Bresenham.position_succ, Bresenham.next, ← lineError, herror, lineError, herror]
  split <;> split <;> simp only [Int.add_mul] <;> omega

structure EndsIsH (x1 y1 x2 y2 : Int) : Prop where
  x1 : -32768 ≤ x1 ∧ x1 < 32768
  y1 : -32768 ≤ y1 ∧ y1 < 32768
  x2 : -32768 ≤ x2 ∧ x2 < 32768
  y2 : -32768 ≤ y2 ∧ y2 < 32768

def SameAt (x1 y1 x2 y2 : Int) (k : Nat) : Prop :=
  SameChoice |x2 - x1| |y2 - y1| (lineError x1 y1 x2 y2 k)

-- With the same choice the next turn is at the next point.
theorem lineStep_same (h : EndsIsH x1 y1 x2 y2) {k : Nat} (hk : k < lineSteps x1 y1 x2 y2)
    (hsame : SameAt x1 y1 x2 y2 k) :
    lineStep x1 y1 x2 y2 (lineTurn x1 y1 x2 y2 k) = lineTurn x1 y1 x2 y2 (k + 1) := by
  obtain ⟨hx, hy⟩ := linePoint_range h.x1 h.y1 h.x2 h.y2 hk
  obtain ⟨hright, hdown⟩ := hsame
  rw [lineStep_turn, lineTurn, lineError_succ]
  rw [linePoint_succ] at hx hy ⊢
  simp only [hright, hdown] at hx hy ⊢
  congr 1
  · split
    · rename_i hc
      rw [if_pos hc] at hx
      exact asH_of_range hx
    · rfl
  · split
    · rename_i hc
      rw [if_pos hc] at hy
      exact asH_of_range hy
    · rfl

theorem turns_of_same (h : EndsIsH x1 y1 x2 y2) {k : Nat} (hk : k ≤ lineSteps x1 y1 x2 y2)
    (hsame : ∀ m < k, SameAt x1 y1 x2 y2 m) :
    (lineStep x1 y1 x2 y2)^[k] (lineStart x1 y1 x2 y2) = lineTurn x1 y1 x2 y2 k := by
  induction k with
  | zero => exact lineStart_eq x1 y1 x2 y2
  | succ k ih =>
      rw [Function.iterate_succ_apply', ih (by omega) fun m hm => hsame m (by omega)]
      exact lineStep_same h (by omega) (hsame k (by omega))

-- A step to the next number never comes out as no step.
theorem choice_of_step {c d : Prop} [Decidable c] [Decidable d] {a s : Int}
    (hs : s = 1 ∨ s = -1) (h : (if c then asH (a + s) else a) = if d then a + s else a) :
    c ↔ d := by
  have hne : asH (a + s) ≠ a := by
    rw [asH_eq]
    omega
  by_cases hc : c <;> by_cases hd : d <;> simp only [hc, hd, if_true, if_false] at h ⊢
  · exact absurd h hne
  · omega

theorem same_of_next {k : Nat}
    (hx : (lineStep x1 y1 x2 y2 (lineTurn x1 y1 x2 y2 k)).x = (linePoint x1 y1 x2 y2 (k + 1)).1)
    (hy : (lineStep x1 y1 x2 y2 (lineTurn x1 y1 x2 y2 k)).y = (linePoint x1 y1 x2 y2 (k + 1)).2) :
    SameAt x1 y1 x2 y2 k := by
  rw [lineStep_turn, linePoint_succ] at hx hy
  exact ⟨choice_of_step (sign_cases x1 x2) hx, choice_of_step (sign_cases y1 y2) hy⟩

theorem same_of_turns (h : EndsIsH x1 y1 x2 y2)
    (hturns : ∀ k ≤ lineSteps x1 y1 x2 y2,
      ((lineStep x1 y1 x2 y2)^[k] (lineStart x1 y1 x2 y2)).x = (linePoint x1 y1 x2 y2 k).1 ∧
        ((lineStep x1 y1 x2 y2)^[k] (lineStart x1 y1 x2 y2)).y = (linePoint x1 y1 x2 y2 k).2)
    {k : Nat} (hk : k < lineSteps x1 y1 x2 y2) : SameAt x1 y1 x2 y2 k := by
  induction k using Nat.strong_induction_on with
  | _ k ih =>
      have hturn := turns_of_same h hk.le fun m hm => ih m hm (by omega)
      have hnext := hturns (k + 1) hk
      rw [Function.iterate_succ_apply', hturn] at hnext
      exact same_of_next hnext.1 hnext.2

theorem mem_linePoints {p : Int × Int} : p ∈ linePoints x1 y1 x2 y2 ↔
    ∃ k ≤ lineSteps x1 y1 x2 y2, linePoint x1 y1 x2 y2 k = p := by
  simp only [linePoints, List.mem_map, List.mem_range, Nat.lt_succ_iff]

theorem linePoint_row {k : Nat} (hk : (k : Int) ≤ |x2 - x1|) :
    linePoint x1 y1 x2 y1 k = (x1 + (if x1 < x2 then 1 else -1) * k, y1) := by
  rw [linePoint, Int.sub_self, abs_zero, Bresenham.position_row hk, Int.mul_zero, Int.add_zero]

theorem linePoint_column {k : Nat} (hk : (k : Int) ≤ |y2 - y1|) :
    linePoint x1 y1 x1 y2 k = (x1, y1 + (if y1 < y2 then 1 else -1) * k) := by
  rw [linePoint, Int.sub_self, abs_zero, Bresenham.position_column hk, Int.mul_zero, Int.add_zero]

theorem lineSteps_cast (x1 y1 x2 y2 : Int) :
    (lineSteps x1 y1 x2 y2 : Int) = max |x2 - x1| |y2 - y1| := by
  rw [lineSteps, Bresenham.steps, Int.toNat_of_nonneg]
  exact le_max_of_le_left (abs_nonneg _)

-- The numbers from one end to the other
theorem mem_span {a b x : Int} : (∃ k : Nat, (k : Int) ≤ |b - a| ∧
    a + (if a < b then 1 else -1) * (k : Int) = x) ↔ min a b ≤ x ∧ x ≤ max a b := by
  have hsign := sign_mul_abs a b
  constructor
  · rintro ⟨k, hk, rfl⟩
    rcases sign_cases a b with hs | hs <;> rw [hs] at hsign ⊢ <;> omega
  · rintro ⟨hlow, hhigh⟩
    refine ⟨(x - a).natAbs, ?_⟩
    rcases sign_cases a b with hs | hs <;> rw [hs] at hsign ⊢ <;> omega

theorem mem_linePoints_row {p : Int × Int} : p ∈ linePoints x1 y1 x2 y1 ↔
    p.2 = y1 ∧ min x1 x2 ≤ p.1 ∧ p.1 ≤ max x1 x2 := by
  have hsteps := lineSteps_cast x1 y1 x2 y1
  rw [Int.sub_self, abs_zero, max_eq_left (abs_nonneg _)] at hsteps
  rw [mem_linePoints, ← mem_span]
  constructor
  · rintro ⟨k, hk, rfl⟩
    rw [linePoint_row (by omega)]
    exact ⟨rfl, k, by omega, rfl⟩
  · rintro ⟨hp, k, hk, heq⟩
    refine ⟨k, by omega, ?_⟩
    rw [linePoint_row hk]
    exact Prod.ext heq hp.symm

theorem mem_linePoints_column {p : Int × Int} : p ∈ linePoints x1 y1 x1 y2 ↔
    p.1 = x1 ∧ min y1 y2 ≤ p.2 ∧ p.2 ≤ max y1 y2 := by
  have hsteps := lineSteps_cast x1 y1 x1 y2
  rw [Int.sub_self, abs_zero, max_eq_right (abs_nonneg _)] at hsteps
  rw [mem_linePoints, ← mem_span]
  constructor
  · rintro ⟨k, hk, rfl⟩
    rw [linePoint_column (by omega)]
    exact ⟨rfl, k, by omega, rfl⟩
  · rintro ⟨hp, k, hk, heq⟩
    refine ⟨k, by omega, ?_⟩
    rw [linePoint_column hk]
    exact Prod.ext hp.symm heq

-- The pixels of the line that are in the clip
def LinePixel (dev : Gdev γ) (x1 y1 x2 y2 i : Int) : Prop :=
  ∃ p ∈ linePoints x1 y1 x2 y2, dev.clip.contains p.1 p.2 ∧ p.2 * dev.width + p.1 = i

-- The call ends and has drawn the line, and the loop for the other lines visits its points.
structure DrawsLine (black : γ) (dev : Gdev γ) (x1 y1 x2 y2 : Int) : Prop where
  line : IsLine (linePoints x1 y1 x2 y2) x1 y1 x2 y2
  draws : ∃ n dev', drwLin black n dev x1 y1 x2 y2 = (dev', true) ∧
    Drawn black dev dev' (LinePixel dev x1 y1 x2 y2)
  visits : x1 ≠ x2 → y1 ≠ y2 → ∀ k ≤ lineSteps x1 y1 x2 y2,
    ((lineStep x1 y1 x2 y2)^[k] (lineStart x1 y1 x2 y2)).x = (linePoint x1 y1 x2 y2 k).1 ∧
      ((lineStep x1 y1 x2 y2)^[k] (lineStart x1 y1 x2 y2)).y = (linePoint x1 y1 x2 y2 k).2

structure Rect.AllH (r : Rect) : Prop where
  left : -32768 ≤ r.left ∧ r.left < 32768
  top : -32768 ≤ r.top ∧ r.top < 32768
  right : -32768 ≤ r.right ∧ r.right < 32768
  bottom : -32768 ≤ r.bottom ∧ r.bottom < 32768

variable {black : γ} {dev : Gdev γ}

theorem drwLin_row (n : Nat) (dev : Gdev γ) (x1 y1 x2 : Int) :
    drwLin black n dev x1 y1 x2 y1 =
      if y1 < dev.clip.top ∨ y1 ≥ dev.clip.bottom then (dev, true)
      else
        spanPath black (fun x => y1 * dev.width + x) dev.clip.left dev.clip.right n dev x1 x2 := by
  rw [drwLin, if_pos rfl]

theorem drwLin_column (n : Nat) (dev : Gdev γ) (x1 : Int) (hy : y1 ≠ y2) :
    drwLin black n dev x1 y1 x1 y2 =
      if x1 < dev.clip.left ∨ x1 ≥ dev.clip.right then (dev, true)
      else
        spanPath black (fun y => y * dev.width + x1) dev.clip.top dev.clip.bottom n dev y1 y2 := by
  rw [drwLin, if_neg hy, if_pos rfl]

theorem drwLin_slope (n : Nat) (dev : Gdev γ) (hx : x1 ≠ x2) (hy : y1 ≠ y2) :
    drwLin black n dev x1 y1 x2 y2 =
      lineLoop black (lineStep x1 y1 x2 y2) x2 y2 n dev (lineStart x1 y1 x2 y2) := by
  rw [drwLin, if_neg hy, if_neg hx]

-- What has been drawn of some pixels after `n` turns a loop, and with turns enough all of them.
structure Draws (black : γ) (n : Nat) (dev : Gdev γ) (r : Gdev γ × Bool) (L : Int → Prop) :
    Prop where
  part : ∃ P, Drawn black dev r.1 P ∧ (∀ i, P i → L i) ∧ (65536 < n → ∀ i, L i → P i)
  ends : 65536 < n → r.2 = true

def PathDraws (black : γ) (dev : Gdev γ) (x1 y1 x2 y2 : Int) (n : Nat) : Prop :=
  Draws black n dev (drwLin black n dev x1 y1 x2 y2) (LinePixel dev x1 y1 x2 y2)

-- A fast path is taken with a clip that ends below the least H.
def PathFits (clip : Rect) (x1 y1 x2 y2 : Int) : Prop :=
  (y1 = y2 → ¬(clip.right = -32768 ∧ clip.top ≤ y1 ∧ y1 < clip.bottom)) ∧
    (y1 ≠ y2 → x1 = x2 → ¬(clip.bottom = -32768 ∧ clip.left ≤ x1 ∧ x1 < clip.right))

-- Where the two fast paths and the loop do what they are meant to.
def LineFits (clip : Rect) (x1 y1 x2 y2 : Int) : Prop :=
  PathFits clip x1 y1 x2 y2 ∧
    (x1 ≠ x2 → y1 ≠ y2 → ∀ k < lineSteps x1 y1 x2 y2, SameAt x1 y1 x2 y2 k)

theorem row_draws (hclip : dev.clip.AllH) (h : EndsIsH x1 y1 x2 y1)
    (hfit : PathFits dev.clip x1 y1 x2 y1) (n : Nat) : PathDraws black dev x1 y1 x2 y1 n := by
  obtain ⟨hx1, hy1, hx2, -⟩ := h
  have hright := hclip.right
  have hno := hfit.1 rfl
  by_cases hout : y1 < dev.clip.top ∨ y1 ≥ dev.clip.bottom
  · have hpixel : ∀ i, ¬LinePixel dev x1 y1 x2 y1 i := by
      rintro i ⟨p, hp, hin, -⟩
      rw [mem_linePoints_row] at hp
      rw [Rect.contains_iff] at hin
      omega
    constructor
    · rw [drwLin_row, if_pos hout]
      exact ⟨_, .none dev hpixel, fun _ h => h, fun _ _ h => h⟩
    · rw [drwLin_row, if_pos hout]
      exact fun _ => rfl
  · have hhigh : -32768 < dev.clip.right ∧ dev.clip.right < 32768 := by omega
    constructor
    · rw [drwLin_row, if_neg hout]
      refine ⟨_, spanPath_drawn hx1.1 hx2.1 hhigh n dev, ?_, fun hn i => ?_⟩
      · rintro i ⟨x, hx, hin, -, heq⟩
        refine ⟨(x, y1), mem_linePoints_row.mpr ⟨rfl, hx⟩, ?_, heq⟩
        rw [Rect.contains_iff]
        omega
      · rintro ⟨p, hp, hin, heq⟩
        rw [mem_linePoints_row] at hp
        rw [Rect.contains_iff] at hin
        rw [hp.1] at heq
        exact ⟨p.1, hp.2, ⟨hin.1, hin.2.1⟩, by omega, heq⟩
    · rw [drwLin_row, if_neg hout]
      exact fun hn => spanPath_ends hx1.1 hx2.1 hhigh hn dev

theorem column_draws (hclip : dev.clip.AllH) (h : EndsIsH x1 y1 x1 y2) (hy : y1 ≠ y2)
    (hfit : PathFits dev.clip x1 y1 x1 y2) (n : Nat) : PathDraws black dev x1 y1 x1 y2 n := by
  obtain ⟨hx1, hy1, -, hy2⟩ := h
  have hbottom := hclip.bottom
  have hno := hfit.2 hy rfl
  by_cases hout : x1 < dev.clip.left ∨ x1 ≥ dev.clip.right
  · have hpixel : ∀ i, ¬LinePixel dev x1 y1 x1 y2 i := by
      rintro i ⟨p, hp, hin, -⟩
      rw [mem_linePoints_column] at hp
      rw [Rect.contains_iff] at hin
      omega
    constructor
    · rw [drwLin_column n dev x1 hy, if_pos hout]
      exact ⟨_, .none dev hpixel, fun _ h => h, fun _ _ h => h⟩
    · rw [drwLin_column n dev x1 hy, if_pos hout]
      exact fun _ => rfl
  · have hhigh : -32768 < dev.clip.bottom ∧ dev.clip.bottom < 32768 := by omega
    constructor
    · rw [drwLin_column n dev x1 hy, if_neg hout]
      refine ⟨_, spanPath_drawn hy1.1 hy2.1 hhigh n dev, ?_, fun hn i => ?_⟩
      · rintro i ⟨y, hy, hin, -, heq⟩
        refine ⟨(x1, y), mem_linePoints_column.mpr ⟨rfl, hy⟩, ?_, heq⟩
        rw [Rect.contains_iff]
        omega
      · rintro ⟨p, hp, hin, heq⟩
        rw [mem_linePoints_column] at hp
        rw [Rect.contains_iff] at hin
        rw [hp.1] at heq
        exact ⟨p.2, hp.2, hin.2.2, by omega, heq⟩
    · rw [drwLin_column n dev x1 hy, if_neg hout]
      exact fun hn => spanPath_ends hy1.1 hy2.1 hhigh hn dev

theorem path_draws (hclip : dev.clip.AllH) (h : EndsIsH x1 y1 x2 y2) (hpath : y1 = y2 ∨ x1 = x2)
    (hfit : PathFits dev.clip x1 y1 x2 y2) (n : Nat) : PathDraws black dev x1 y1 x2 y2 n := by
  by_cases hy : y1 = y2
  · subst hy
    exact row_draws hclip h hfit n
  · obtain rfl := hpath.resolve_left hy
    exact column_draws hclip h hy hfit n

-- The call on a fast path whose clip ends below the least H does not return.
theorem path_never (hclip : dev.clip.AllH) (h : EndsIsH x1 y1 x2 y2)
    (hfit : ¬PathFits dev.clip x1 y1 x2 y2) (n : Nat) :
    (drwLin black n dev x1 y1 x2 y2).2 = false := by
  rw [PathFits] at hfit
  by_cases hy : y1 = y2
  · subst hy
    have hbad : dev.clip.right = -32768 ∧ dev.clip.top ≤ y1 ∧ y1 < dev.clip.bottom := by
      simpa using hfit
    rw [drwLin_row, if_neg (by omega), hbad.1]
    exact spanPath_never h.x1 hclip.left.2 n dev
  · by_cases hx : x1 = x2
    · subst hx
      have hbad : dev.clip.bottom = -32768 ∧ dev.clip.left ≤ x1 ∧ x1 < dev.clip.right := by
        simpa [hy] using hfit
      rw [drwLin_column n dev x1 hy, if_neg (by omega), hbad.1]
      exact spanPath_never h.y1 hclip.top.2 n dev
    · simp [hx, hy] at hfit

theorem drawsLine_path_iff (black : γ) (hclip : dev.clip.AllH) (h : EndsIsH x1 y1 x2 y2)
    (hpath : y1 = y2 ∨ x1 = x2) :
    (∃ n dev', drwLin black n dev x1 y1 x2 y2 = (dev', true) ∧
      Drawn black dev dev' (LinePixel dev x1 y1 x2 y2)) ↔ PathFits dev.clip x1 y1 x2 y2 := by
  constructor
  · rintro ⟨n, dev', hdraw, -⟩
    by_contra hfit
    have hend : (drwLin black n dev x1 y1 x2 y2).2 = false := path_never hclip h hfit n
    rw [hdraw] at hend
    cases hend
  · intro hfit
    have hpaths : PathDraws black dev x1 y1 x2 y2 65537 := path_draws hclip h hpath hfit 65537
    obtain ⟨⟨P, hdrawn, hsub, hall⟩, hends⟩ := hpaths
    exact ⟨65537, _, Prod.ext rfl (hends (by omega)), hdrawn.congr fun i =>
      ⟨hall (by omega) i, hsub i⟩⟩

theorem linePoint_last (x1 y1 x2 y2 : Int) :
    linePoint x1 y1 x2 y2 (lineSteps x1 y1 x2 y2) = (x2, y2) := by
  simp only [linePoint, lineSteps, (lineWalk x1 y1 x2 y2).last, sign_mul_abs]
  congr 1 <;> omega

theorem linePoint_before {k : Nat} (hk : k < lineSteps x1 y1 x2 y2) :
    linePoint x1 y1 x2 y2 k ≠ (x2, y2) := by
  intro heq
  refine (lineWalk x1 y1 x2 y2).before k hk ?_
  obtain ⟨hx, hy⟩ := Prod.mk.inj heq
  have hsx := sign_mul_abs x1 x2
  have hsy := sign_mul_abs y1 y2
  have hcancel : ∀ a b i m : Int, (if a < b then 1 else -1) * m = b - a →
      a + (if a < b then 1 else -1) * i = b → i = m := by
    intro a b i m hm hi
    rcases sign_cases a b with hs | hs <;> rw [hs] at hm hi <;> omega
  exact Prod.ext (hcancel _ _ _ _ hsx hx) (hcancel _ _ _ _ hsy hy)

-- A loop that follows the line ends with it.
theorem lineLoop_line (dev : Gdev γ)
    (hturns : ∀ k ≤ lineSteps x1 y1 x2 y2,
      (lineStep x1 y1 x2 y2)^[k] (lineStart x1 y1 x2 y2) = lineTurn x1 y1 x2 y2 k) :
    (lineLoop black (lineStep x1 y1 x2 y2) x2 y2 (lineSteps x1 y1 x2 y2 + 1) dev
        (lineStart x1 y1 x2 y2)).2 = true ∧
      Drawn black dev (lineLoop black (lineStep x1 y1 x2 y2) x2 y2 (lineSteps x1 y1 x2 y2 + 1) dev
        (lineStart x1 y1 x2 y2)).1 (LinePixel dev x1 y1 x2 y2) := by
  have hend : ∀ k ≤ lineSteps x1 y1 x2 y2,
      AtEnd x2 y2 ((lineStep x1 y1 x2 y2)^[k] (lineStart x1 y1 x2 y2)) ↔
        k = lineSteps x1 y1 x2 y2 := by
    intro k hk
    rw [hturns k hk, AtEnd, lineTurn]
    constructor
    · rintro ⟨hx, hy⟩
      by_contra hne
      exact linePoint_before (by omega) (Prod.ext hx hy)
    · rintro rfl
      simp only [linePoint_last, and_self]
  constructor
  · rw [lineLoop_ends_iff]
    exact ⟨_, Nat.lt_succ_self _, (hend _ (Nat.le_refl _)).mpr rfl⟩
  · refine (lineLoop_drawn _ x2 y2 _ dev _).congr fun i => ?_
    simp only [LinePixel, mem_linePoints]
    constructor
    · rintro ⟨p, ⟨k, hk, rfl⟩, hin, heq⟩
      refine ⟨k, by omega, fun m hm hat => ?_, ?_⟩
      · have := (hend m (by omega)).mp hat
        omega
      · rw [hturns k hk]
        exact ⟨hin, heq⟩
    · rintro ⟨k, hk, -, hin, heq⟩
      rw [hturns k (by omega)] at hin heq
      exact ⟨_, ⟨k, by omega, rfl⟩, hin, heq⟩

-- Sides that leave room for three times their length are safe.
theorem sameAt_of_short (hdx : |x2 - x1| ≤ 10922) (hdy : |y2 - y1| ≤ 10922) {k : Nat}
    (hk : k ≤ lineSteps x1 y1 x2 y2) : SameAt x1 y1 x2 y2 k := by
  have hnear := (lineWalk x1 y1 x2 y2).near k hk
  have herror : ∀ p : Int × Int, Bresenham.error |x2 - x1| |y2 - y1| p =
      Bresenham.off |x2 - x1| |y2 - y1| p + |x2 - x1| - |y2 - y1| := fun p => by
    rw [Bresenham.error, Bresenham.off, Int.add_mul, Int.add_mul]
    omega
  have hdx₀ := abs_nonneg (x2 - x1)
  have hdy₀ := abs_nonneg (y2 - y1)
  rw [abs_le] at hnear
  rw [SameAt, lineError, herror]
  constructor
  · rw [asH_of_range (by omega), asH_of_range (by omega)]
  · rw [asH_of_range (by omega), asH_of_range (by omega)]

-- The call draws the line between any two ends, exactly where its 16-bit comparisons go as
-- on the integers and its clip does not end below the least H.
theorem drwLin_line_iff (hclip : dev.clip.AllH) (h : EndsIsH x1 y1 x2 y2) :
    DrawsLine black dev x1 y1 x2 y2 ↔ LineFits dev.clip x1 y1 x2 y2 := by
  have hline := linePoints_isLine x1 y1 x2 y2
  by_cases hpath : y1 = y2 ∨ x1 = x2
  · have hno : ¬(x1 ≠ x2 ∧ y1 ≠ y2) := fun hne => hpath.elim hne.2 hne.1
    have hiff := drawsLine_path_iff black hclip h hpath
    exact ⟨fun hd => ⟨hiff.mp hd.draws, fun hx hy => absurd ⟨hx, hy⟩ hno⟩,
      fun hd => ⟨hline, hiff.mpr hd.1, fun hx hy => absurd ⟨hx, hy⟩ hno⟩⟩
  obtain ⟨hy, hx⟩ := not_or.mp hpath
  constructor
  · exact fun hd => ⟨⟨fun heq => absurd heq hy, fun _ heq => absurd heq hx⟩,
      fun _ _ k hk => same_of_turns h (hd.visits hx hy) hk⟩
  · intro hfit
    have hturns : ∀ k ≤ lineSteps x1 y1 x2 y2,
        (lineStep x1 y1 x2 y2)^[k] (lineStart x1 y1 x2 y2) = lineTurn x1 y1 x2 y2 k :=
      fun k hk => turns_of_same h hk fun m hm => hfit.2 hx hy m (by omega)
    obtain ⟨hend, hdrawn⟩ : _ ∧ Drawn black dev _ _ := lineLoop_line dev hturns
    refine ⟨hline, ⟨lineSteps x1 y1 x2 y2 + 1, _, ?_, hdrawn⟩, fun _ _ k hk => ?_⟩
    · rw [drwLin_slope _ dev hx hy]
      exact Prod.ext rfl hend
    · rw [hturns k hk]
      exact ⟨rfl, rfl⟩

-- A device of 100 by 100 blank pixels
def smallDev : Gdev Bool := ⟨100, 100, fun _ => false, ⟨0, 0, 100, 100⟩⟩

theorem smallDev_allH : smallDev.clip.AllH := ⟨by decide, by decide, by decide, by decide⟩

theorem drwLin_line_iff_short :
    DrawsLine true smallDev 3 4 90 50 ↔ LineFits smallDev.clip 3 4 90 50 :=
  drwLin_line_iff smallDev_allH ⟨by decide, by decide, by decide, by decide⟩

-- Twice the first error does not fit: the second pixel is below the first one, off the line.
theorem drwLin_overflow : ¬DrawsLine true smallDev 0 0 20000 1 := by
  intro h
  obtain ⟨n, dev', hdraw, hdrawn⟩ := h.draws
  rw [drwLin_slope n smallDev (by decide) (by decide)] at hdraw
  have hends := congrArg Prod.snd hdraw
  rw [lineLoop_ends_iff] at hends
  have hsecond : (lineStep 0 0 20000 1)^[1] (lineStart 0 0 20000 1) = ⟨0, 1, -25537⟩ := rfl
  have hn : 1 < n := by
    obtain ⟨k, hk, hat⟩ := hends
    cases k with
    | zero => exact absurd hat.1 (by decide)
    | succ k => omega
  have hloop : Drawn true smallDev _ _ :=
    lineLoop_drawn (lineStep 0 0 20000 1) 20000 1 n smallDev (lineStart 0 0 20000 1)
  rw [hdraw] at hloop
  have hblack : dev'.pixels 100 = true := by
    refine hloop.on 100 ⟨1, hn, fun m hm hat => ?_, ?_⟩
    · obtain rfl : m = 0 := by omega
      exact absurd hat.1 (by decide)
    · rw [hsecond]
      exact ⟨by decide, by decide⟩
  have hblank : dev'.pixels 100 = false := by
    refine hdrawn.off 100 ?_
    rintro ⟨p, hp, hin, heq⟩
    obtain ⟨k, hk, rfl⟩ := mem_linePoints.mp hp
    rw [Rect.contains_iff] at hin
    -- only (0, 1) has this address, and the line starts with (0, 0)
    have hfirst : (linePoint 0 0 20000 1 k).1 = k := by
      have hsteps := lineSteps_cast 0 0 20000 1
      have hdx : |(20000 : Int) - 0| = 20000 := by decide
      have hdy : |(1 : Int) - 0| = 1 := by decide
      have hnear := Bresenham.near_position (hdy ▸ by decide : (0 : Int) ≤ |1 - 0|)
        (by decide : |(1 : Int) - 0| ≤ |20000 - 0|) (k := k) (by omega)
      rw [linePoint, if_pos (by decide), hnear.first]
      omega
    have hk₀ : k = 0 := by
      simp only [smallDev] at hin heq
      omega
    subst hk₀
    exact absurd heq (by decide)
  rw [hblack] at hblank
  cases hblank

end Line

end BTron.Graphics
