import BTron.Hmi.Panels
import BTron.Graphics.Lines

namespace BTron.Hmi

open Graphics Lib

-- The height of a row as `hmi_draw_radio_selector` reckons it.
def Ctrl.optH (c : Ctrl) : Int :=
  let optH := asH ((c.bounds.bottom - c.bounds.top).tdiv c.numOptions)
  if optH < 18 then 18 else optH

-- The face of option `i`, which its outline and its lamp lie on.
def Ctrl.itemRect (c : Ctrl) (i : Nat) : Rect :=
  let itemY := asH (c.bounds.top + i * c.optH)
  ⟨c.bounds.left, itemY, c.bounds.right, asH (itemY + c.optH - 2)⟩

-- The loop of `hmi_draw_radio_selector`, each face in the colour of its option.
def drawItems {γ : Type} (face : Nat → γ) (dev : Gdev γ) (c : Ctrl) : Nat → Gdev γ
  | 0 => dev
  | i + 1 => fillRec (drawItems face dev c i) (c.itemRect i) (face i)

def hmiDrawRadioSelector {γ : Type} (face : Nat → γ) (dev : Gdev γ) (c : Ctrl) : Gdev γ :=
  if c.numOptions ≤ 0 then dev else drawItems face dev c c.numOptions.toNat

-- The last of the first `n` options whose face has the pixel.
def Ctrl.paintedBy (c : Ctrl) (x y : Int) : Nat → Option Nat
  | 0 => none
  | i + 1 => if (c.itemRect i).contains x y then some i else c.paintedBy x y i

def Ctrl.painted (c : Ctrl) (x y : Int) : Option Nat := c.paintedBy x y c.numOptions.toNat

-- The height of a row as `hmi_dispatch_event` reckons it.
def Ctrl.itemH (c : Ctrl) : Int :=
  let itemH := asH ((c.bounds.bottom - c.bounds.top).tdiv
    (if c.numOptions > 0 then c.numOptions else 1))
  if itemH ≤ 0 then 20 else itemH

-- The track of a slider
def Ctrl.trackLeft (c : Ctrl) : Int := asH (c.bounds.left + 10)

def Ctrl.trackW (c : Ctrl) : Int := asH (asH (c.bounds.right - 10) - c.trackLeft)

-- The column of the thumb's centre, unless a difference is no int.
def Ctrl.thumbX (c : Ctrl) : Option Int := do
  let range ← asInt (c.maxVal - c.minVal)
  let range := if range ≤ 0 then 1 else range
  let curNorm ← asInt (c.val - c.minVal)
  let curNorm := if curNorm < 0 then 0 else curNorm
  let curNorm := if curNorm > range then range else curNorm
  some (asH (c.trackLeft + asH ((curNorm * c.trackW).tdiv range)))

section Radio

variable {c : Ctrl} {x y : Int}

theorem paintedBy_iff {n i : Nat} : c.paintedBy x y n = some i ↔
    i < n ∧ (c.itemRect i).contains x y ∧
      ∀ j, i < j → j < n → (c.itemRect j).contains x y = false := by
  induction n with
  | zero => simp [Ctrl.paintedBy]
  | succ n ih =>
      rw [Ctrl.paintedBy]
      by_cases hn : (c.itemRect n).contains x y
      · rw [if_pos hn, Option.some_inj]
        constructor
        · rintro rfl
          exact ⟨by omega, hn, fun j hlt hle => by omega⟩
        · rintro ⟨hi, -, hlater⟩
          by_contra hne
          have hoff := hlater n (by omega) (by omega)
          rw [hn] at hoff
          cases hoff
      · rw [if_neg hn, ih]
        constructor
        · rintro ⟨hi, hin, hlater⟩
          refine ⟨by omega, hin, fun j hlt hle => ?_⟩
          by_cases hj : j = n
          · rw [hj]
            exact Bool.eq_false_iff.mpr hn
          · exact hlater j hlt (by omega)
        · rintro ⟨hi, hin, hlater⟩
          have hne : i ≠ n := by
            rintro rfl
            exact hn hin
          exact ⟨by omega, hin, fun j hlt hle => hlater j hlt (by omega)⟩

-- On a device each pixel shows the option it is painted as.
theorem drawItems_at {γ : Type} {face : Nat → γ} {dev : Gdev γ} (h : dev.Whole)
    (hx : 0 ≤ x ∧ x < dev.width) (hy : 0 ≤ y ∧ y < dev.height) (n : Nat) :
    (drawItems face dev c n).at x y = ((c.paintedBy x y n).map face).getD (dev.at x y) := by
  have hlike : ∀ n, dev.Like (drawItems face dev c n) := by
    intro n
    induction n with
    | zero => exact .refl dev
    | succ n ih => exact ih.trans (fillRec_like _ _ _)
  induction n with
  | zero => rfl
  | succ n ih =>
      have hwidth := (hlike n).width
      have hheight := (hlike n).height
      rw [drawItems, fillRec_at (h.like (hlike n)) _ _ (by omega) (by omega), ih, Ctrl.paintedBy]
      split <;> rfl

theorem drawRadioSelector_at {γ : Type} {face : Nat → γ} {dev : Gdev γ} (h : dev.Whole)
    (hx : 0 ≤ x ∧ x < dev.width) (hy : 0 ≤ y ∧ y < dev.height) :
    (hmiDrawRadioSelector face dev c).at x y = ((c.painted x y).map face).getD (dev.at x y) := by
  rw [hmiDrawRadioSelector, Ctrl.painted]
  split
  · rename_i hn
    rw [Int.toNat_of_nonpos hn]
    rfl
  · exact drawItems_at h hx hy _

-- A press selects the option of its row, as the dispatcher reckons rows.
theorem press_selects_iff (htype : c.type = .radioSelector) {i : Nat} (hi : i < c.numOptions) :
    c.press x y = some ({ c with val := (i : Int) }, true) ↔
      (y - c.bounds.top).tdiv c.itemH = i := by
  have hpress : c.press x y = if (y - c.bounds.top).tdiv c.itemH ≥ 0 ∧
      (y - c.bounds.top).tdiv c.itemH < c.numOptions then
        some ({ c with val := (y - c.bounds.top).tdiv c.itemH }, true)
      else some (c, false) := by
    rw [Ctrl.press, htype]
    rfl
  rw [hpress]
  constructor
  · intro h
    split at h
    · exact congrArg (fun r : Option (Ctrl × Bool) => (r.map (·.1.val)).getD 0) h
    · cases congrArg (fun r : Option (Ctrl × Bool) => r.map (·.2)) h
  · intro h
    rw [h, if_pos (by omega)]

-- The rows of both reckonings agree where they are high enough, where there is one option or the
-- part is lower than the number of its options, and in a few cases of low rows.
def Ctrl.RowsAgree (c : Ctrl) : Prop :=
  let h := c.bounds.bottom - c.bounds.top
  let n := c.numOptions
  c.bounds.right ≤ c.bounds.left ∨ n = 1 ∨ h < n ∨ 18 * n ≤ h ∨
    n = 2 ∧ (h = 32 ∨ h = 34 ∨ h = 35) ∨ n = 3 ∧ h = 51 ∨
    -- where no face, or not the last one, ends below the largest coordinate
    32751 < c.bounds.top ∨ n = 2 ∧ h = 33 ∧ c.bounds.bottom = 32767

instance (c : Ctrl) : Decidable c.RowsAgree := inferInstanceAs (Decidable (_ ∨ _))

-- Each pixel of the part that is painted as an option selects it.
def Ctrl.SelectsPainted (c : Ctrl) : Prop :=
  ∀ x y i, c.painted x y = some i → c.bounds.contains x y →
    c.press x y = some ({ c with val := (i : Int) }, true)

-- The height of the part, divided by the number of options.
theorem rowHeight {h n : Int} (h0 : 0 ≤ h) (hlt : h < 65536) (hn : 2 ≤ n) :
    asH (h.tdiv n) = h / n := by
  have hnonneg : 0 ≤ h / n := Int.ediv_nonneg h0 (by omega)
  have hle : h / n * n ≤ h := Int.ediv_mul_le h (by omega)
  have hmul : h / n * 2 ≤ h / n * n := Int.mul_le_mul_of_nonneg_left hn hnonneg
  rw [Int.tdiv_eq_ediv_of_nonneg h0]
  exact asH_of_range ⟨by omega, by omega⟩

-- A face of the least height lies where it should, or outside the part.
theorem lowItem_iff (hb : c.bounds.AllH) (hopt : c.optH = 18) {i : Nat} (hi : i < 16)
    (hin : c.bounds.contains x y) : (c.itemRect i).contains x y ↔
      c.bounds.top + 18 * i ≤ y ∧ y < c.bounds.top + 18 * i + 16 ∧
        c.bounds.top + 18 * i + 16 < 32768 := by
  have htop := hb.top
  have hbottom := hb.bottom
  rw [Rect.contains_iff] at hin ⊢
  simp only [Ctrl.itemRect, hopt, asH_eq]
  omega

-- The row of a pixel at a distance from the top
theorem row_eq_iff {d q i : Int} (h0 : 0 ≤ d) (hq : 0 < q) :
    d.tdiv q = i ↔ q * i ≤ d ∧ d < q * i + q := by
  rw [Int.tdiv_eq_ediv_of_nonneg h0]
  have hmod := Int.emod_nonneg d (by omega : q ≠ 0)
  have hlt := Int.emod_lt_of_pos d hq
  have hdiv := Int.mul_ediv_add_emod d q
  constructor
  · rintro rfl
    omega
  · rintro ⟨hle, hlt'⟩
    apply le_antisymm
    · rw [← Int.lt_add_one_iff, Int.ediv_lt_iff_lt_mul hq, Int.add_mul, Int.mul_comm]
      omega
    · rw [Int.le_ediv_iff_mul_le hq, Int.mul_comm]
      exact hle

-- With rows of one height there is one reckoning.
theorem selects_of_high (htype : c.type = .radioSelector) (hb : c.bounds.AllH)
    (hn : 2 ≤ c.numOptions)
    (hhigh : 18 * c.numOptions ≤ c.bounds.bottom - c.bounds.top) : c.SelectsPainted := by
  intro x y i hpainted hin
  obtain ⟨hi, hitem, -⟩ := paintedBy_iff.mp hpainted
  have htop := hb.top
  have hbottom := hb.bottom
  rw [Rect.contains_iff] at hin hitem
  have hq := rowHeight (by omega : 0 ≤ c.bounds.bottom - c.bounds.top) (by omega) hn
  have hge : 18 ≤ (c.bounds.bottom - c.bounds.top) / c.numOptions := by
    rw [Int.le_ediv_iff_mul_le (by omega)]
    exact hhigh
  have hle := Int.ediv_mul_le (c.bounds.bottom - c.bounds.top) (b := c.numOptions) (by omega)
  have hopt : c.optH = (c.bounds.bottom - c.bounds.top) / c.numOptions := by
    rw [Ctrl.optH, hq]
    exact if_neg (by omega)
  have hrow : c.itemH = (c.bounds.bottom - c.bounds.top) / c.numOptions := by
    rw [Ctrl.itemH, if_pos (by omega : c.numOptions > 0), hq]
    exact if_neg (by omega)
  generalize (c.bounds.bottom - c.bounds.top) / c.numOptions = q at *
  have hlast : q * ((i : Int) + 1) ≤ q * c.numOptions :=
    Int.mul_le_mul_of_nonneg_left (by omega) (by omega)
  rw [Int.mul_add, Int.mul_one] at hlast
  rw [press_selects_iff htype (by omega), hrow, row_eq_iff (by omega) (by omega)]
  simp only [Ctrl.itemRect, hopt, Int.mul_comm (i : Int) q] at hitem
  have hnonneg : 0 ≤ q * (i : Int) := Int.mul_nonneg (by omega) (by omega)
  rw [asH_of_range ⟨by omega, by omega⟩, asH_of_range ⟨by omega, by omega⟩] at hitem
  omega

-- One option is selected wherever the part is pressed.
theorem selects_of_single (htype : c.type = .radioSelector) (hb : c.bounds.AllH)
    (hn : c.numOptions = 1) : c.SelectsPainted := by
  intro x y i hpainted hin
  obtain ⟨hi, hitem, -⟩ := paintedBy_iff.mp hpainted
  obtain rfl : i = 0 := by
    rw [hn] at hi
    omega
  have htop := hb.top
  have hbottom := hb.bottom
  rw [Rect.contains_iff] at hin hitem
  have hopt : c.optH = if asH (c.bounds.bottom - c.bounds.top) < 18 then 18
      else asH (c.bounds.bottom - c.bounds.top) := by
    rw [Ctrl.optH, hn, Int.tdiv_one]
  have hrow : c.itemH = if asH (c.bounds.bottom - c.bounds.top) ≤ 0 then 20
      else asH (c.bounds.bottom - c.bounds.top) := by
    rw [Ctrl.itemH, hn, if_pos Int.one_pos, Int.tdiv_one]
  simp only [Ctrl.itemRect, asH_eq] at hitem
  rw [asH_eq] at hopt hrow
  rw [press_selects_iff htype (by omega), row_eq_iff (by omega) (by split at hrow <;> omega)]
  split at hopt <;> split at hrow <;> omega

-- A part lower than the number of its options has only a part of the first one to press.
theorem selects_of_tiny (htype : c.type = .radioSelector) (hb : c.bounds.AllH)
    (hn : c.numOptions ≤ 16) (htiny : c.bounds.bottom - c.bounds.top < c.numOptions) :
    c.SelectsPainted := by
  intro x y i hpainted hin
  obtain ⟨hi, hitem, -⟩ := paintedBy_iff.mp hpainted
  have hin' := Rect.contains_iff.mp hin
  have hzero : (c.bounds.bottom - c.bounds.top).tdiv c.numOptions = 0 :=
    Int.tdiv_eq_zero_of_lt (by omega) htiny
  have hopt : c.optH = 18 := by
    rw [Ctrl.optH, hzero]
    rfl
  have hrow : c.itemH = 20 := by
    rw [Ctrl.itemH, if_pos (by omega : c.numOptions > 0), hzero]
    rfl
  rw [lowItem_iff hb hopt (by omega) hin] at hitem
  rw [press_selects_iff htype (by omega), hrow, row_eq_iff (by omega) (by omega)]
  omega

-- What is left are rows of at least one pixel and less than the least height of a face.
structure Ctrl.LowRows (c : Ctrl) (q : Int) : Prop where
  optH : c.optH = 18
  itemH : c.itemH = q
  pos : 0 < q
  low : q < 18
  le : q * c.numOptions ≤ c.bounds.bottom - c.bounds.top
  lt : c.bounds.bottom - c.bounds.top < q * c.numOptions + c.numOptions

theorem lowRows (hb : c.bounds.AllH) (hn : 2 ≤ c.numOptions)
    (hle : c.numOptions ≤ c.bounds.bottom - c.bounds.top)
    (hlt : c.bounds.bottom - c.bounds.top < 18 * c.numOptions) :
    c.LowRows ((c.bounds.bottom - c.bounds.top) / c.numOptions) := by
  have htop := hb.top
  have hbottom := hb.bottom
  have hq := rowHeight (by omega : 0 ≤ c.bounds.bottom - c.bounds.top) (by omega) hn
  have hpos : 0 < (c.bounds.bottom - c.bounds.top) / c.numOptions := by
    rw [← Int.add_one_le_iff, Int.le_ediv_iff_mul_le (by omega)]
    omega
  have hlow : (c.bounds.bottom - c.bounds.top) / c.numOptions < 18 := by
    rw [Int.ediv_lt_iff_lt_mul (by omega)]
    exact hlt
  have hdiv := Int.mul_ediv_add_emod (c.bounds.bottom - c.bounds.top) c.numOptions
  have hmod := Int.emod_nonneg (c.bounds.bottom - c.bounds.top) (by omega : c.numOptions ≠ 0)
  have hmod' := Int.emod_lt_of_pos (c.bounds.bottom - c.bounds.top) (by omega : 0 < c.numOptions)
  rw [Int.mul_comm] at hdiv
  refine ⟨?_, ?_, hpos, hlow, by omega, by omega⟩
  · rw [Ctrl.optH, hq]
    exact if_pos hlow
  · rw [Ctrl.itemH, if_pos (by omega : c.numOptions > 0), hq]
    exact if_neg (by omega)

-- Which pixels of the part they select the right option for.
theorem low_selects_iff (htype : c.type = .radioSelector) (hb : c.bounds.AllH)
    (hn : c.numOptions ≤ 16) {q : Int} (hlow : c.LowRows q) : c.SelectsPainted ↔
      ∀ i d : Nat, i < c.numOptions → d < 16 → c.bounds.left < c.bounds.right →
        18 * (i : Int) + d < c.bounds.bottom - c.bounds.top →
        c.bounds.top + 18 * i + 16 < 32768 → q * i ≤ 18 * i + d ∧ 18 * i + d < q * i + q := by
  constructor
  · intro h i d hi hd hwidth hpart hend
    have hin : c.bounds.contains c.bounds.left (c.bounds.top + 18 * i + d) := by
      rw [Rect.contains_iff]
      omega
    have hface : ∀ j : Nat, j < 16 →
        ((c.itemRect j).contains c.bounds.left (c.bounds.top + 18 * i + d) ↔ j = i) := by
      intro j hj
      rw [lowItem_iff hb hlow.optH hj hin]
      omega
    have hpainted : c.painted c.bounds.left (c.bounds.top + 18 * i + d) = some i := by
      refine paintedBy_iff.mpr ⟨by omega, (hface i (by omega)).mpr rfl, fun j hlt hle => ?_⟩
      rw [Bool.eq_false_iff, ne_eq, hface j (by omega)]
      omega
    have hpress := h _ _ i hpainted hin
    have hdist : c.bounds.top + 18 * (i : Int) + d - c.bounds.top = 18 * i + d := by omega
    rw [press_selects_iff htype hi, hlow.itemH, hdist, row_eq_iff (by omega) hlow.pos] at hpress
    exact hpress
  · intro h x y i hpainted hin
    obtain ⟨hi, hitem, -⟩ := paintedBy_iff.mp hpainted
    have hin' := Rect.contains_iff.mp hin
    rw [lowItem_iff hb hlow.optH (by omega) hin] at hitem
    have hrow := h i (y - c.bounds.top - 18 * i).toNat (by omega) (by omega) (by omega)
      (by omega) (by omega)
    have hdist : 18 * (i : Int) + ((y - c.bounds.top - 18 * i).toNat : Int) =
        y - c.bounds.top := by omega
    rw [hdist] at hrow
    rwa [press_selects_iff htype (by omega), hlow.itemH, row_eq_iff (by omega) hlow.pos]

-- Rows lower than a face by two pixels or more: the first face has a pixel of the second row.
theorem low_selects_short {q : Int} (hlow : c.LowRows q) (hb : c.bounds.AllH)
    (hn : 2 ≤ c.numOptions) (hq : q ≤ 15) :
    (∀ i d : Nat, i < c.numOptions → d < 16 → c.bounds.left < c.bounds.right →
        18 * (i : Int) + d < c.bounds.bottom - c.bounds.top →
        c.bounds.top + 18 * i + 16 < 32768 → q * i ≤ 18 * i + d ∧ 18 * i + d < q * i + q) ↔
      c.RowsAgree := by
  have hpos := hlow.pos
  have hle := hlow.le
  have hlt := hlow.lt
  have hbottom := hb.bottom
  have hmul : q * 2 ≤ q * c.numOptions := Int.mul_le_mul_of_nonneg_left hn (by omega)
  have hmul' : q * c.numOptions ≤ 15 * c.numOptions :=
    Int.mul_le_mul_of_nonneg_right hq (by omega)
  have hone : 1 * c.numOptions ≤ q * c.numOptions :=
    Int.mul_le_mul_of_nonneg_right hpos (by omega)
  simp only [Ctrl.RowsAgree]
  constructor
  · intro h
    by_contra hnot
    have hrow := h 0 q.toNat (by omega) (by omega) (by omega) (by omega) (by omega)
    simp only [Nat.cast_zero, Int.mul_zero] at hrow
    omega
  · intro h i d hi hd hwidth hpart hend
    have hcases : c.bounds.right ≤ c.bounds.left ∨ 32751 < c.bounds.top := by omega
    omega

-- Rows of sixteen pixels
theorem low_selects_sixteen (hlow : c.LowRows 16) (hb : c.bounds.AllH) (hn : 2 ≤ c.numOptions) :
    (∀ i d : Nat, i < c.numOptions → d < 16 → c.bounds.left < c.bounds.right →
        18 * (i : Int) + d < c.bounds.bottom - c.bounds.top →
        c.bounds.top + 18 * i + 16 < 32768 → 16 * (i : Int) ≤ 18 * i + d ∧
          18 * (i : Int) + d < 16 * i + 16) ↔ c.RowsAgree := by
  have hle := hlow.le
  have hlt := hlow.lt
  have hbottom := hb.bottom
  simp only [Ctrl.RowsAgree]
  constructor
  · intro h
    by_contra hnot
    have hrow := h 1 14 (by omega) (by omega) (by omega) (by omega) (by omega)
    omega
  · intro h i d hi hd hwidth hpart hend
    omega

-- Rows of seventeen
theorem low_selects_seventeen (hlow : c.LowRows 17) (hb : c.bounds.AllH)
    (hn : 2 ≤ c.numOptions) :
    (∀ i d : Nat, i < c.numOptions → d < 16 → c.bounds.left < c.bounds.right →
        18 * (i : Int) + d < c.bounds.bottom - c.bounds.top →
        c.bounds.top + 18 * i + 16 < 32768 → 17 * (i : Int) ≤ 18 * i + d ∧
          18 * (i : Int) + d < 17 * i + 17) ↔ c.RowsAgree := by
  have hle := hlow.le
  have hlt := hlow.lt
  have hbottom := hb.bottom
  simp only [Ctrl.RowsAgree]
  constructor
  · intro h
    by_contra hnot
    have hrow := h 2 15 (by omega) (by omega) (by omega) (by omega) (by omega)
    omega
  · intro h i d hi hd hwidth hpart hend
    omega

theorem selectsPainted_iff (htype : c.type = .radioSelector) (hb : c.bounds.AllH)
    (hn : 1 ≤ c.numOptions ∧ c.numOptions ≤ 16) : c.SelectsPainted ↔ c.RowsAgree := by
  by_cases hsingle : c.numOptions = 1
  · exact iff_of_true (selects_of_single htype hb hsingle) (.inr (.inl hsingle))
  by_cases htiny : c.bounds.bottom - c.bounds.top < c.numOptions
  · exact iff_of_true (selects_of_tiny htype hb hn.2 htiny) (.inr (.inr (.inl htiny)))
  by_cases hhigh : 18 * c.numOptions ≤ c.bounds.bottom - c.bounds.top
  · exact iff_of_true (selects_of_high htype hb (by omega) hhigh)
      (.inr (.inr (.inr (.inl hhigh))))
  have hlow := lowRows hb (by omega) (by omega) (by omega)
  generalize (c.bounds.bottom - c.bounds.top) / c.numOptions = q at hlow
  have hq := hlow.low
  rw [low_selects_iff htype hb hn.2 hlow]
  obtain hq | rfl | rfl : q ≤ 15 ∨ q = 16 ∨ q = 17 := by omega
  · exact low_selects_short hlow hb (by omega) hq
  · exact low_selects_sixteen hlow hb (by omega)
  · exact low_selects_seventeen hlow hb (by omega)

end Radio

section Slider

variable {c : Ctrl}

-- The dispatcher's track is the painted one.
theorem trackW_eq (c : Ctrl) : c.trackW = asH (c.bounds.right - c.bounds.left - 20) := by
  simp only [Ctrl.trackW, Ctrl.trackLeft, asH_eq]
  omega

-- Down to a pixel of the track and back, a part of the range comes out unless it is between two
-- pixels.
theorem scale_back_iff {k width range : Int} (hrange : 0 < range) (hle : range ≤ width)
    (hk : 0 ≤ k) :
    ((k * width).tdiv range * range).tdiv width = k ↔ range ∣ k * width := by
  have hprod : 0 ≤ k * width := Int.mul_nonneg hk (by omega)
  have hdown : 0 ≤ k * width / range := Int.ediv_nonneg hprod hrange.le
  have hexact := Int.ediv_mul_le (k * width) (b := range) (by omega)
  rw [Int.tdiv_eq_ediv_of_nonneg hprod,
    Int.tdiv_eq_ediv_of_nonneg (Int.mul_nonneg hdown hrange.le)]
  constructor
  · intro h
    have hback : k * width ≤ k * width / range * range := by
      rw [← Int.le_ediv_iff_mul_le (by omega), h]
    rw [le_antisymm hback hexact]
    exact Int.dvd_mul_left _ _
  · intro h
    rw [Int.ediv_mul_cancel h, Int.mul_ediv_cancel _ (by omega)]

-- The part of the range that the thumb stands for.
def Ctrl.curNorm (c : Ctrl) : Int :=
  max 0 (min (c.val - c.minVal) (c.maxVal - c.minVal))

-- How far it is from the left end of the track.
def Ctrl.thumbOffset (c : Ctrl) : Int := (c.curNorm * c.trackW).tdiv (c.maxVal - c.minVal)

theorem trackW_isH (c : Ctrl) : -32768 ≤ c.trackW ∧ c.trackW < 32768 := asH_isH _

section Thumb

variable (hrange : c.minVal < c.maxVal) (hwidth : c.maxVal - c.minVal ≤ c.trackW)
include hrange hwidth

theorem thumbOffset_bounds : 0 ≤ c.thumbOffset ∧ c.thumbOffset ≤ c.trackW := by
  have hnorm : 0 ≤ c.curNorm ∧ c.curNorm ≤ c.maxVal - c.minVal := by
    rw [Ctrl.curNorm]
    omega
  rw [Ctrl.thumbOffset]
  exact scale_bounds (by omega) hnorm.1 hnorm.2 (by omega)

theorem thumbX_eq : c.thumbX =
    (asInt (c.val - c.minVal)).map fun _ => asH (c.bounds.left + 10 + c.thumbOffset) := by
  have htrack := trackW_isH c
  have hoffset := thumbOffset_bounds hrange hwidth
  have hint : IsInt (c.maxVal - c.minVal) := by
    rw [IsInt]
    omega
  have hnorm : ∀ v, asInt (c.val - c.minVal) = some v →
      (if (if v < 0 then 0 else v) > c.maxVal - c.minVal then c.maxVal - c.minVal
        else if v < 0 then 0 else v) = c.curNorm := by
    intro v hv
    rw [← (asInt_eq_some.mp hv).2, Ctrl.curNorm]
    split <;> split <;> omega
  rw [Ctrl.thumbX, asInt, if_pos hint, Option.bind_eq_bind, Option.bind_some,
    if_neg (by omega)]
  cases hv : asInt (c.val - c.minVal) with
  | none => rfl
  | some v =>
      dsimp only
      rw [Option.bind_some, Option.map_some, hnorm v hv, ← Ctrl.thumbOffset, Ctrl.trackLeft,
        asH_add_asH]

theorem press_thumb (htype : c.type = .sliderVolume) (hmin : IsInt c.minVal)
    (hmax : IsInt c.maxVal) (y : Int) :
    c.press (asH (c.bounds.left + 10 + c.thumbOffset)) y = some ({ c with
      val := c.minVal + (c.thumbOffset * (c.maxVal - c.minVal)).tdiv c.trackW }, true) := by
  have htrack := trackW_isH c
  have hoffset := thumbOffset_bounds hrange hwidth
  have hback := scale_bounds (by omega : 0 < c.trackW) hoffset.1 hoffset.2
    (by omega : 0 ≤ c.maxVal - c.minVal)
  have hclick : asH (asH (c.bounds.left + 10 + c.thumbOffset) - (c.bounds.left + 10)) =
      c.thumbOffset := by
    rw [asH_eq, asH_eq]
    omega
  have hint : IsInt (c.maxVal - c.minVal) := by
    rw [IsInt]
    omega
  have hval : IsInt (c.minVal + (c.thumbOffset * (c.maxVal - c.minVal)).tdiv c.trackW) := by
    rw [IsInt] at hmin hmax ⊢
    omega
  rw [Ctrl.press, htype]
  dsimp only
  rw [← trackW_eq, if_pos (by omega), hclick, if_neg (by omega : ¬c.thumbOffset < 0),
    if_neg (by omega : ¬c.thumbOffset > c.trackW), asInt, if_pos hint, Option.bind_eq_bind,
    Option.bind_some, asInt, if_pos hval]
  rfl

-- A press at the thumb gives back a value of the range that has a pixel of its own.
theorem press_thumb_iff (htype : c.type = .sliderVolume) (hmin : IsInt c.minVal)
    (hmax : IsInt c.maxVal) (y : Int) :
    (∃ x, c.thumbX = some x ∧ c.press x y = some (c, true)) ↔
      (c.minVal ≤ c.val ∧ c.val ≤ c.maxVal) ∧
        c.maxVal - c.minVal ∣ (c.val - c.minVal) * c.trackW := by
  have hoffset := thumbOffset_bounds hrange hwidth
  have hback := scale_bounds (by omega : 0 < c.trackW) hoffset.1 hoffset.2
    (by omega : 0 ≤ c.maxVal - c.minVal)
  have hsame : c.press (asH (c.bounds.left + 10 + c.thumbOffset)) y = some (c, true) ↔
      c.minVal + (c.thumbOffset * (c.maxVal - c.minVal)).tdiv c.trackW = c.val := by
    rw [press_thumb hrange hwidth htype hmin hmax]
    constructor
    · intro h
      exact congrArg (fun r : Option (Ctrl × Bool) => (r.map (·.1.val)).getD 0) h
    · intro h
      rw [h]
  rw [thumbX_eq hrange hwidth]
  by_cases hin : c.minVal ≤ c.val ∧ c.val ≤ c.maxVal
  · have hnorm : c.curNorm = c.val - c.minVal := by
      rw [Ctrl.curNorm]
      omega
    have hint : IsInt (c.val - c.minVal) := by
      have htrack := trackW_isH c
      rw [IsInt]
      omega
    have hscale := scale_back_iff (by omega : 0 < c.maxVal - c.minVal) hwidth
      (by omega : 0 ≤ c.val - c.minVal)
    rw [← hnorm, ← Ctrl.thumbOffset, hnorm] at hscale
    rw [asInt, if_pos hint, ← hscale]
    simp only [Option.map_some, Option.some_inj, exists_eq_left', hsame, hin, and_self, true_and]
    omega
  · refine iff_of_false ?_ fun h => hin h.1
    rintro ⟨x, hx, hpress⟩
    obtain ⟨v, -, rfl⟩ := Option.map_eq_some_iff.mp hx
    rw [hsame] at hpress
    omega

end Thumb

end Slider

-- What the flags are makes no difference to the value a press sets.
theorem press_flags {c : Ctrl} (htype : c.type = .radioSelector ∨ c.type = .sliderVolume)
    (x y : Int) (f : Flags) : Ctrl.press x y { c with flags := f } =
      (c.press x y).map fun r => ({ r.1 with flags := f }, r.2) := by
  obtain htype | htype := htype
  · simp only [Ctrl.press, htype]
    generalize (y - c.bounds.top).tdiv _ = optIdx
    split
    · rfl
    · simp only [Option.map_some, htype]
  · simp only [Ctrl.press, htype]
    split
    · generalize asInt (c.maxVal - c.minVal) = range
      cases range with
      | none => rfl
      | some range =>
          simp only [Option.bind_eq_bind, Option.bind_some]
          generalize asInt _ = v
          cases v <;> rfl
    · simp only [Option.map_some, htype]

theorem change_cell {p : Panel} {c c' : Ctrl} {i : Nat} {told : Bool}
    {f : Ctrl → Option (Ctrl × Bool)} (hc : p.controls[i]? = some c)
    (hf : f c = some (c', told)) : ∃ r, p.change i f = some r ∧ r.1.controls[i]? = some c' := by
  refine ⟨(p.modify i fun _ => c', if told && c'.onChange then [i] else []), ?_, ?_⟩
  · rw [Panel.change, Option.bind_eq_bind, hc, Option.bind_some, hf]
    rfl
  · rw [Panel.modify_getElem?, if_pos rfl, hc]
    rfl

-- The value is the one the part under the press has after the event.
theorem dispatch_press {p : Panel} {c c' : Ctrl} {i : Nat} {told : Bool} {evt : Event.Evt}
    (hm : p.Marked) (hc : p.controls[i]? = some c)
    (htype : c.type = .radioSelector ∨ c.type = .sliderVolume) (hdown : evt.type = .EV_BUT_DOWN)
    (hunder : pressed p evt.posX evt.posY = some i)
    (hpress : c.press evt.posX evt.posY = some (c', told)) :
    ∃ r, hmiDispatchEvent p evt = some r ∧ r.1.controls[i]?.map Ctrl.val = some c'.val := by
  obtain ⟨f, hcell⟩ : ∃ f, ((hmiSetFocus p i).modify i (·.setPressed true)).controls[i]? =
      some { c with flags := f } := by
    rw [Panel.modify_getElem?, if_pos rfl, (setFocus_spec hm i).2, hc]
    exact ⟨_, rfl⟩
  have hflags := press_flags htype evt.posX evt.posY f
  rw [hpress, Option.map_some] at hflags
  obtain ⟨r, hr, hval⟩ := change_cell hcell hflags
  refine ⟨(r.1, true, r.2), ?_, ?_⟩
  · simp only [hmiDispatchEvent, hdown, hunder, hr, Option.map_some]
  · rw [hval]
    rfl

-- Four options in 80 rows, and the slider of a range that divides its track.
def bandSelector : Ctrl :=
  { newCtrl 11 .radioSelector none 10 50 100 80 true with numOptions := 4 }

def evenSlider : Ctrl :=
  { newCtrl 20 .sliderVolume none 10 10 220 40 true with maxVal := 100, val := 37, step := 1 }

-- Four options in 40 rows: row 10 is painted as option 0 and selects option 1. And the slider of
-- 180 pixels for 100 values, where 1 is between two of them.
def lowSelector : Ctrl :=
  { newCtrl 11 .radioSelector none 10 50 100 40 true with numOptions := 4 }

def oddSlider : Ctrl :=
  { newCtrl 20 .sliderVolume none 10 10 200 40 true with maxVal := 100, val := 1, step := 1 }

end BTron.Hmi
