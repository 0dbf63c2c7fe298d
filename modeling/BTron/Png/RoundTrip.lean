import BTron.Png.Unfilter

namespace BTron.Png

open Lib

variable {m : Image}

theorem filteredRow_length (m : Image) (t : FilterType) (y : Nat) :
    (m.filteredRow t y).length = m.rowBytes + 1 := by
  rw [Image.filteredRow, List.length_cons, List.length_map, List.length_range]

theorem filtered_length (m : Image) (types : Nat → FilterType) :
    (m.filtered types).length = m.height * (m.rowBytes + 1) := by
  rw [Image.filtered, List.length_flatMap]
  simp only [filteredRow_length, List.map_const', List.length_range, List.sum_replicate_nat]

-- The bytes of a row in the uncompressed data.
theorem overlay_filtered (m : Image) (types : Nat → FilterType) (stale : Nat → UB) {y : Nat}
    (hy : y < m.height) :
    overlay (m.filtered types) stale (y * (m.rowBytes + 1)) = (types y).number ∧
      ∀ x < m.rowBytes, overlay (m.filtered types) stale (y * (m.rowBytes + 1) + 1 + x) =
        m.filteredByte (types y) y x := by
  have hget : ∀ i < m.rowBytes + 1, (m.filtered types)[y * (m.rowBytes + 1) + i]? =
      (m.filteredRow (types y) y)[i]? := fun i hi =>
    getElem?_flatMap_range (fun y _ => filteredRow_length m (types y) y) hy hi
  constructor
  · have hfirst := hget 0 (Nat.succ_pos _)
    rw [Nat.add_zero] at hfirst
    rw [overlay, List.getD_eq_getElem?_getD, hfirst]
    rfl
  · intro x hx
    have hbyte := hget (1 + x) (by omega)
    rw [← Nat.add_assoc] at hbyte
    rw [overlay, List.getD_eq_getElem?_getD, hbyte, Image.filteredRow, Nat.add_comm 1 x,
      List.getElem?_cons_succ, List.getElem?_map, List.getElem?_range hx]
    rfl

-- The bytes of the row are put behind the rows before it, which stay.
theorem unfilterRow_filtered {t : FilterType} {y : Nat} {decomp scan : Nat → UB}
    (hfit : (y + 1) * (m.rowBytes + 1) ≤ maxPngRaw)
    (hfilter : decomp (y * (m.rowBytes + 1)) = t.number)
    (hdecomp : ∀ x < m.rowBytes,
      decomp (y * (m.rowBytes + 1) + 1 + x) = m.filteredByte t y x)
    (habove : y > 0 → ∀ x < m.rowBytes, scan ((y - 1) * m.rowBytes + x) = m.byte (y - 1) x) :
    ∃ scan', unfilterRow m.colour.bytes m.rowBytes (m.rowBytes + 1 : Nat) decomp scan y =
        some scan' ∧ (∀ i < y * m.rowBytes, scan' i = scan i) ∧
      ∀ x < m.rowBytes, scan' (y * m.rowBytes + x) = m.byte y x := by
  rw [unfilterRow_eq hfit, hfilter]
  refine foldlM_range (I := fun k (s : Nat → UB) => (∀ i < y * m.rowBytes, s i = scan i) ∧
    ∀ x < k, s (y * m.rowBytes + x) = m.byte y x) ⟨fun _ _ => rfl, by simp⟩ ?_
  rintro x hx s ⟨hkept, hdone⟩
  have habove' : y > 0 → ∀ x' < m.rowBytes,
      s ((y - 1) * m.rowBytes + x') = m.byte (y - 1) x' := by
    intro hy x' hx'
    have hlt := (byte_fits hfit hx').2.2 ((y - 1) * m.rowBytes) (if_pos hy)
    rw [hkept _ hlt]
    exact habove hy x' hx'
  refine ⟨_, unfilterByte_filtered hfit hx (hdecomp x hx) hdone habove', fun i hi => ?_,
    fun x' hx' => ?_⟩
  · rw [Function.update_of_ne (by omega)]
    exact hkept i hi
  · by_cases hlast : x' = x
    · rw [hlast, Function.update_self]
    · rw [Function.update_of_ne (by omega)]
      exact hdone x' (by omega)

-- Unfiltering the rows of an image gives back its bytes, whatever their filter types. The output
-- of uncompress is within the buffer, so that the rows of an image that are not are never seen.
theorem unfilter_filtered (z : Zlib) (m : Image) (types : Nat → FilterType) :
    (∀ idat, z.uncompress idat maxPngRaw = some (m.filtered types) → ∀ decomp scan,
      ∃ scan', unfilter m.width m.height (bytesPerPixel m.colour.number)
          (overlay (m.filtered types) decomp) scan = some scan' ∧
        ∀ y < m.height, ∀ x < m.rowBytes, scan' (y * m.rowBytes + x) = m.byte y x) ∧
    (maxPngRaw < m.height * (m.rowBytes + 1) →
      ∀ idat, z.uncompress idat maxPngRaw ≠ some (m.filtered types)) := by
  constructor
  · intro idat hout decomp scan
    have hfit := z.fits _ _ _ hout
    rw [filtered_length] at hfit
    rw [bytesPerPixel_number, unfilter_eq hfit]
    refine foldlM_range (I := fun k (s : Nat → UB) =>
      ∀ y < k, ∀ x < m.rowBytes, s (y * m.rowBytes + x) = m.byte y x) (by simp) ?_
    intro y hy s hrows
    obtain ⟨hfilter, hdecomp⟩ := overlay_filtered m types decomp hy
    obtain ⟨scan', hscan', hkept, hrow⟩ := unfilterRow_filtered (row_fits hfit hy) hfilter hdecomp
      (fun hpos x hx => hrows (y - 1) (by omega) x hx)
    refine ⟨scan', hscan', fun y' hy' x hx => ?_⟩
    by_cases hlast : y' = y
    · rw [hlast]
      exact hrow x hx
    · have hlt : y' * m.rowBytes + x < y * m.rowBytes := by
        have hle : (y' + 1) * m.rowBytes ≤ y * m.rowBytes := Nat.mul_le_mul_right _ (by omega)
        rw [Nat.succ_mul] at hle
        omega
      rw [hkept _ hlt]
      exact hrows y' (by omega) x hx
  · intro hlarge idat hout
    have hfit := z.fits _ _ _ hout
    rw [filtered_length] at hfit
    omega

-- The output for a stream of one block that is stored as it is. The check value is not looked at.
def storedOutput (destLen : Nat) : List UB → Option (List UB)
  | 0x78 :: 0x01 :: 0x01 :: lo :: hi :: _ :: _ :: rest =>
    let n := hi.toNat * 256 + lo.toNat
    if rest.length = n + 4 ∧ n ≤ destLen then some (rest.take n) else none
  | _ => none

def storedZlib : Zlib where
  uncompress src destLen := storedOutput destLen src
  fits := by
    intro src destLen out h
    unfold storedOutput at h
    split at h
    · dsimp only at h
      split at h
      · rename_i hle
        cases h
        rw [List.length_take]
        omega
      · cases h
    · cases h

-- Two grey pixels, one above the other: the first row filtered by sub, the second by paeth.
def column : Image := ⟨1, 2, .grey, fun y _ => if y = 0 then 5 else 7⟩

def columnTypes (y : Nat) : FilterType := if y = 0 then .sub else .paeth

theorem unfilter_filtered_column :
    ∃ scan', unfilter column.width column.height (bytesPerPixel 0)
        (overlay (column.filtered columnTypes) fun _ => 0) (fun _ => 0) = some scan' ∧
      scan' 0 = 5 ∧ scan' 1 = 7 := by
  obtain ⟨scan', hscan', hbytes⟩ := (unfilter_filtered storedZlib column columnTypes).1
    [0x78, 1, 1, 4, 0, 251, 255, 1, 5, 4, 2, 0, 33, 0, 13] (by decide) (fun _ => 0) (fun _ => 0)
  exact ⟨scan', hscan', hbytes 0 (by decide) 0 (by decide), hbytes 1 (by decide) 0 (by decide)⟩

end BTron.Png
