import BTron.Lib.Run
import BTron.Png
import Mathlib.Data.List.MinMax

namespace BTron.Png

-- The filter types of the format, each a prediction of a byte from the bytes to the left, above
-- and to the left above.
inductive FilterType
  | none
  | sub
  | up
  | average
  | paeth

def FilterType.number : FilterType → UB
  | none => 0
  | sub => 1
  | up => 2
  | average => 3
  | paeth => 4

-- The nearest of the three to a + b - c, of equal ones the first.
def nearest (a b c : Nat) : Nat :=
  (List.argmin (fun v : Nat => ((a : Int) + b - c - v).natAbs) [a, b, c]).getD 0

def FilterType.predict (a b c : Nat) : FilterType → Nat
  | none => 0
  | sub => a
  | up => b
  | average => (a + b) / 2
  | paeth => nearest a b c

-- The colour types of eight bits a sample.
inductive ColourType
  | grey
  | rgb
  | rgba

def ColourType.number : ColourType → UB
  | grey => 0
  | rgb => 2
  | rgba => 6

def ColourType.bytes : ColourType → Nat
  | grey => 1
  | rgb => 3
  | rgba => 4

-- The bytes of the pixels, by row.
structure Image where
  width : Nat
  height : Nat
  colour : ColourType
  byte : Nat → Nat → UB

def Image.rowBytes (m : Image) : Nat := m.width * m.colour.bytes

def Image.left (m : Image) (y x : Nat) : UB :=
  if x < m.colour.bytes then 0 else m.byte y (x - m.colour.bytes)

def Image.above (m : Image) (y x : Nat) : UB := if y = 0 then 0 else m.byte (y - 1) x

def Image.leftAbove (m : Image) (y x : Nat) : UB := if y = 0 then 0 else m.left (y - 1) x

def Image.filteredByte (m : Image) (t : FilterType) (y x : Nat) : UB :=
  m.byte y x -
    UInt8.ofNat (t.predict (m.left y x).toNat (m.above y x).toNat (m.leftAbove y x).toNat)

def Image.filteredRow (m : Image) (t : FilterType) (y : Nat) : List UB :=
  t.number :: (List.range m.rowBytes).map (m.filteredByte t y)

-- The rows as they are compressed, each behind its filter type.
def Image.filtered (m : Image) (types : Nat → FilterType) : List UB :=
  (List.range m.height).flatMap fun y => m.filteredRow (types y) y

theorem nearest_eq (a b c : UB) :
    UInt8.ofNat (nearest a.toNat b.toNat c.toNat) = paethPredictor a b c := by
  unfold nearest paethPredictor
  simp only [List.argmin, List.foldl, List.argAux]
  by_cases hb : ((a.toNat : Int) + b.toNat - c.toNat - b.toNat).natAbs <
      ((a.toNat : Int) + b.toNat - c.toNat - a.toNat).natAbs
  · rw [if_pos hb, if_neg (by omega)]
    dsimp only
    split
    · rw [if_neg (by omega), Option.getD_some, UInt8.ofNat_toNat]
    · rw [if_pos (by omega), Option.getD_some, UInt8.ofNat_toNat]
  · rw [if_neg hb]
    dsimp only
    split
    · rw [if_neg (by omega), if_neg (by omega), Option.getD_some, UInt8.ofNat_toNat]
    · rw [if_pos (by omega), Option.getD_some, UInt8.ofNat_toNat]

end BTron.Png

namespace BTron.Png

open Lib

theorem maxPngRaw_eq : maxPngRaw = 16777216 := rfl

-- Inside the buffers nothing is reduced.
theorem i32_of_lt {n : Nat} (h : n ≤ maxPngRaw) : i32 n = n := by
  rw [maxPngRaw_eq] at h
  exact Int.bmod_eq_of_le (by omega) (by omega)

theorem load_eq {buf : Nat → UB} {i : Nat} (h : i < maxPngRaw) : load buf i = some (buf i) := by
  rw [load, if_pos ⟨by omega, by omega⟩, Int.toNat_natCast]

theorem load_add {buf : Nat → UB} {i j : Nat} (h : i + j < maxPngRaw) :
    load buf ((i : Int) + j) = some (buf (i + j)) := by
  rw [load, if_pos ⟨by omega, by omega⟩, ← Int.natCast_add, Int.toNat_natCast]

theorem store_add {buf : Nat → UB} {i j : Nat} (h : i + j < maxPngRaw) (b : UB) :
    store buf ((i : Int) + j) b = some (Function.update buf (i + j) b) := by
  rw [store, if_pos ⟨by omega, by omega⟩, ← Int.natCast_add, Int.toNat_natCast]

-- What a filter adds to a byte.
def predict (filter a b c : UB) : UB :=
  if filter = 1 then a
  else if filter = 2 then b
  else if filter = 3 then UInt8.ofNat ((a.toNat + b.toNat) >>> 1)
  else if filter = 4 then paethPredictor a b c
  else 0

theorem predict_eq (t : FilterType) (a b c : UB) :
    predict t.number a b c = UInt8.ofNat (t.predict a.toNat b.toNat c.toNat) := by
  cases t with
  | none => rfl
  | sub => exact (UInt8.ofNat_toNat).symm
  | up => exact (UInt8.ofNat_toNat).symm
  | average => exact congrArg UInt8.ofNat (Nat.shiftRight_one _)
  | paeth => exact (nearest_eq a b c).symm

-- The bytes that the code takes for those to the left, above and to the left above.
def leftByte (bpp : Nat) (scan : Nat → UB) (dst x : Nat) : UB :=
  if x ≥ bpp then scan (dst + (x - bpp)) else 0

def aboveByte (scan : Nat → UB) (prev : Option Nat) (x : Nat) : UB :=
  match prev with
  | some prev => scan (prev + x)
  | none => 0

def leftAboveByte (bpp : Nat) (scan : Nat → UB) (prev : Option Nat) (x : Nat) : UB :=
  match prev with
  | some prev => leftByte bpp scan prev x
  | none => 0

theorem load_left {bpp dst x : Nat} {scan : Nat → UB} (h : dst + x < maxPngRaw) :
    (if x ≥ bpp then load scan ((dst : Int) + (x - bpp : Nat)) else some 0) =
      some (leftByte bpp scan dst x) := by
  unfold leftByte
  split
  · exact load_add (by omega)
  · rfl

theorem unfiltered_some (filter raw a b c : UB) :
    unfiltered filter raw (some a) (some b) (some c) = some (raw + predict filter a b c) := by
  unfold unfiltered predict
  split
  · rfl
  · split
    · rfl
    · split
      · rfl
      · split
        · rfl
        · rw [UInt8.add_zero]

-- A turn within the buffers.
theorem unfilterByte_eq {bpp raw dst x : Nat} {prev : Option Nat} (filter : UB)
    (decomp scan : Nat → UB) (hraw : raw + x < maxPngRaw) (hdst : dst + x < maxPngRaw)
    (hprev : ∀ q, prev = some q → q + x < maxPngRaw) :
    unfilterByte bpp filter ⟨raw, dst, prev.map Nat.cast⟩ decomp scan x =
      some (Function.update scan (dst + x) (decomp (raw + x) + predict filter
        (leftByte bpp scan dst x) (aboveByte scan prev x) (leftAboveByte bpp scan prev x))) := by
  have hvalue : ∀ f : UB → Option (Nat → UB),
      (do
        let raw ← load decomp ((raw : Int) + x)
        f raw) = f (decomp (raw + x)) := by
    intro f
    rw [load_add hraw]
    rfl
  have hstore : ∀ a b c : UB,
      (do
        let b ← unfiltered filter (decomp (raw + x)) (some a) (some b) (some c)
        store scan ((dst : Int) + x) b) =
      some (Function.update scan (dst + x) (decomp (raw + x) + predict filter a b c)) := by
    intro a b c
    rw [unfiltered_some, Option.bind_eq_bind, Option.bind_some, store_add hdst]
  unfold unfilterByte
  rw [hvalue, load_left hdst]
  cases prev with
  | none =>
      dsimp only [Option.map_none, aboveByte, leftAboveByte]
      exact hstore _ 0 0
  | some q =>
      have hq := hprev q rfl
      dsimp only [Option.map_some, aboveByte, leftAboveByte]
      rw [load_add hq, load_left hq]
      exact hstore _ _ _

def prevRow (rowBytes y : Nat) : Option Nat := if y > 0 then some ((y - 1) * rowBytes) else none

-- A row within the buffers.
theorem unfilterRow_eq {bpp rowBytes y : Nat} {decomp scan : Nat → UB}
    (hfit : (y + 1) * (rowBytes + 1) ≤ maxPngRaw) :
    unfilterRow bpp rowBytes (rowBytes + 1 : Nat) decomp scan y =
      (List.range rowBytes).foldlM (unfilterByte bpp (decomp (y * (rowBytes + 1)))
        ⟨(y * (rowBytes + 1) + 1 : Nat), (y * rowBytes : Nat),
          (prevRow rowBytes y).map Nat.cast⟩ decomp) scan := by
  have hsrc : y * (rowBytes + 1) < maxPngRaw := by
    rw [Nat.succ_mul] at hfit
    omega
  have hdst : y * rowBytes ≤ maxPngRaw := by
    rw [Nat.mul_succ] at hsrc
    omega
  have hprev : (if y > 0 then some (i32 (((y : Int) - 1) * rowBytes)) else none) =
      (prevRow rowBytes y).map Nat.cast := by
    unfold prevRow
    split
    · have hle : (y - 1) * rowBytes ≤ y * rowBytes := Nat.mul_le_mul_right _ (Nat.sub_le ..)
      have hcast : ((y : Int) - 1) * rowBytes = ((y - 1) * rowBytes : Nat) := by
        rw [Int.natCast_mul, Int.natCast_sub (by omega), Int.natCast_one]
      rw [hcast, i32_of_lt (by omega)]
      rfl
    · rfl
  unfold unfilterRow
  rw [← Int.natCast_mul, ← Int.natCast_mul, i32_of_lt hsrc.le, i32_of_lt hdst, hprev]
  dsimp only
  rw [load_eq hsrc, Option.bind_eq_bind, Option.bind_some, if_neg (by omega), Int.toNat_natCast,
    ← Int.natCast_succ]

-- Where the rows are within the buffers, no product overflows.
theorem unfilter_eq {bpp width height : Nat} {decomp scan : Nat → UB}
    (hfit : height * (width * bpp + 1) ≤ maxPngRaw) :
    unfilter width height bpp decomp scan =
      (List.range height).foldlM
        (unfilterRow bpp (width * bpp : Nat) (width * bpp + 1 : Nat) decomp) scan := by
  unfold unfilter
  dsimp only
  rw [Int.toNat_natCast]
  cases height with
  | zero => rw [List.range_zero, List.foldlM_nil, List.foldlM_nil]
  | succ height =>
      have hone : width * bpp + 1 ≤ maxPngRaw :=
        le_trans (Nat.le_mul_of_pos_left _ (Nat.succ_pos _)) hfit
      rw [← Int.natCast_mul, i32_of_lt (by omega), ← Int.natCast_succ, i32_of_lt hone]

theorem row_fits {rowBytes height y : Nat} (hfit : height * (rowBytes + 1) ≤ maxPngRaw)
    (hy : y < height) : (y + 1) * (rowBytes + 1) ≤ maxPngRaw :=
  le_trans (Nat.mul_le_mul_right _ hy) hfit

theorem byte_fits {rowBytes y x : Nat} (hfit : (y + 1) * (rowBytes + 1) ≤ maxPngRaw)
    (hx : x < rowBytes) :
    y * (rowBytes + 1) + 1 + x < maxPngRaw ∧ y * rowBytes + x < maxPngRaw ∧
      ∀ q, prevRow rowBytes y = some q → q + x < y * rowBytes := by
  have hrow : (y + 1) * (rowBytes + 1) = y * rowBytes + y + rowBytes + 1 := by
    rw [Nat.succ_mul, Nat.mul_succ, Nat.add_assoc _ rowBytes]
  refine ⟨by rw [Nat.mul_succ]; omega, by omega, fun q hq => ?_⟩
  unfold prevRow at hq
  split at hq
  · rename_i hpos
    cases hq
    obtain ⟨y, rfl⟩ : ∃ k, y = k + 1 := ⟨y - 1, by omega⟩
    rw [Nat.add_sub_cancel, Nat.succ_mul]
    omega
  · cases hq

-- No index is outside the buffers, whatever the bytes are.
theorem exists_unfilter {bpp width height : Nat} (decomp scan : Nat → UB)
    (hfit : height * (width * bpp + 1) ≤ maxPngRaw) :
    ∃ scan', unfilter width height bpp decomp scan = some scan' := by
  rw [unfilter_eq hfit]
  have hrow : ∀ y < height, ∀ s, True → ∃ t,
      unfilterRow bpp (width * bpp : Nat) (width * bpp + 1 : Nat) decomp s y = some t ∧ True := by
    intro y hy s _
    have hrow := row_fits hfit hy
    rw [unfilterRow_eq hrow]
    refine foldlM_range (I := fun _ _ => True) trivial fun x hx t _ => ?_
    obtain ⟨hraw, hdst, hprev⟩ := byte_fits hrow hx
    rw [unfilterByte_eq _ _ _ hraw hdst fun q hq => by have := hprev q hq; omega]
    exact ⟨_, rfl, trivial⟩
  obtain ⟨scan', hscan', _⟩ := foldlM_range (I := fun _ _ => True) trivial hrow
  exact ⟨scan', hscan'⟩

theorem bytes_pos (c : ColourType) : 0 < c.bytes := by
  cases c <;> decide

theorem bytesPerPixel_number (c : ColourType) : bytesPerPixel c.number = c.bytes := by
  cases c <;> rfl

variable {m : Image}

-- A byte comes back from the bytes before it in its row and from the row above.
theorem unfilterByte_filtered {t : FilterType} {y x : Nat} {decomp scan : Nat → UB}
    (hfit : (y + 1) * (m.rowBytes + 1) ≤ maxPngRaw) (hx : x < m.rowBytes)
    (hdecomp : decomp (y * (m.rowBytes + 1) + 1 + x) = m.filteredByte t y x)
    (hleft : ∀ x' < x, scan (y * m.rowBytes + x') = m.byte y x')
    (habove : y > 0 → ∀ x' < m.rowBytes, scan ((y - 1) * m.rowBytes + x') = m.byte (y - 1) x') :
    unfilterByte m.colour.bytes t.number ⟨(y * (m.rowBytes + 1) + 1 : Nat),
        (y * m.rowBytes : Nat), (prevRow m.rowBytes y).map Nat.cast⟩ decomp scan x =
      some (Function.update scan (y * m.rowBytes + x) (m.byte y x)) := by
  obtain ⟨hraw, hdst, hprev⟩ := byte_fits hfit hx
  have hpos := bytes_pos m.colour
  have hl : ∀ (row : Nat) (x' : Nat), (∀ z < x', scan (row * m.rowBytes + z) = m.byte row z) →
      leftByte m.colour.bytes scan (row * m.rowBytes) x' = m.left row x' := by
    intro row x' hrow
    unfold leftByte Image.left
    split
    · rw [if_neg (by omega)]
      exact hrow _ (by omega)
    · rw [if_pos (by omega)]
  have hup : aboveByte scan (prevRow m.rowBytes y) x = m.above y x ∧
      leftAboveByte m.colour.bytes scan (prevRow m.rowBytes y) x = m.leftAbove y x := by
    unfold prevRow Image.above Image.leftAbove
    by_cases hy : y > 0
    · rw [if_pos hy, if_neg (by omega), if_neg (by omega)]
      exact ⟨habove hy x hx, hl (y - 1) x fun z hz => habove hy z (by omega)⟩
    · rw [if_neg hy, if_pos (by omega), if_pos (by omega)]
      exact ⟨rfl, rfl⟩
  rw [unfilterByte_eq _ _ _ hraw hdst fun q hq => by have := hprev q hq; omega, hl y x hleft,
    hup.1, hup.2, hdecomp, predict_eq, Image.filteredByte, UInt8.sub_add_cancel]

end BTron.Png
