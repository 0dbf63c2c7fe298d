import BTron.Lib.Bits

namespace BTron.Lib.Lzw

-- LZW with codes of growing width over a palette of 2 ^ m symbols. Above the palette are a code
-- that clears the table and one that ends the data; the entries follow.
def clearCode (m : Nat) : Nat := 2 ^ m
def endCode (m : Nat) : Nat := clearCode m + 1
def firstCode (m : Nat) : Nat := clearCode m + 2
def tableSize : Nat := 4096
def maxWidth : Nat := 12

def code (m : Nat) (table : List (List UInt8)) : List UInt8 → Nat
  | [b] => b.toNat
  | w => firstCode m + table.idxOf w

-- The width behind a code that is put out when `next` is the entry to be made.
def grow (next width : Nat) : Nat :=
  if next > 2 ^ width - 1 ∧ width < maxWidth then width + 1 else width

-- The codes for `w` and what follows it, where the table has the string `w`: it is put out as
-- soon as the table does not have it with the next symbol, which becomes an entry. A full table
-- is cleared.
def encodeFrom (m : Nat) (table : List (List UInt8)) (w : List UInt8) (width : Nat) :
    List UInt8 → List (Nat × Nat)
  | [] => [(code m table w, width), (endCode m, grow (firstCode m + table.length) width)]
  | b :: rest =>
    if w ++ [b] ∈ table then encodeFrom m table (w ++ [b]) width rest
    else
      let width' := grow (firstCode m + table.length) width
      (code m table w, width) ::
        if firstCode m + table.length < tableSize then
          encodeFrom m (table ++ [w ++ [b]]) [b] width' rest
        else (clearCode m, width') :: encodeFrom m [] [b] (m + 1) rest

def encode (m : Nat) : List UInt8 → List (Nat × Nat)
  | [] => [(clearCode m, m + 1), (endCode m, m + 1)]
  | b :: rest => (clearCode m, m + 1) :: encodeFrom m [] [b] (m + 1) rest

-- A string that has a code.
def Known (table : List (List UInt8)) (w : List UInt8) : Prop := (∃ b, w = [b]) ∨ w ∈ table

theorem code_lt {m : Nat} {table : List (List UInt8)} {w : List UInt8}
    (hpalette : ∀ b ∈ w, b.toNat < 2 ^ m) (h : Known table w) :
    code m table w < firstCode m + table.length := by
  unfold code
  split
  · rename_i b
    have := hpalette b (List.mem_singleton_self b)
    simp only [firstCode, clearCode]
    omega
  · rename_i hone
    obtain ⟨b, hb⟩ | hmem := h
    · exact absurd hb (hone b)
    · exact Nat.add_lt_add_left (List.idxOf_lt_length_of_mem hmem) _

theorem code_ne {m : Nat} {table : List (List UInt8)} {w : List UInt8}
    (hpalette : ∀ b ∈ w, b.toNat < 2 ^ m) :
    code m table w ≠ clearCode m ∧ code m table w ≠ endCode m := by
  unfold code
  split
  · rename_i b
    have := hpalette b (List.mem_singleton_self b)
    simp only [endCode, clearCode]
    omega
  · simp only [firstCode, endCode]
    omega

-- The entries fit into the width.
def Fits (m : Nat) (table : List (List UInt8)) (width : Nat) : Prop :=
  firstCode m + table.length ≤ 2 ^ width

theorem fits_nil {m : Nat} (hm : 1 ≤ m) : Fits m [] (m + 1) := by
  have := Nat.pow_le_pow_right (n := 2) (by decide) hm
  simp only [Fits, firstCode, clearCode, List.length_nil, Nat.pow_succ]
  omega

theorem fits_append {m : Nat} {table : List (List UInt8)} {width : Nat} (h : Fits m table width)
    (hroom : firstCode m + table.length < tableSize) (w : List UInt8) :
    Fits m (table ++ [w]) (grow (firstCode m + table.length) width) := by
  unfold Fits grow at *
  rw [List.length_append, List.length_singleton]
  have hpos := Nat.two_pow_pos width
  split
  · rw [Nat.pow_succ]
    omega
  · rename_i hno
    by_cases hwidth : width < maxWidth
    · have : ¬firstCode m + table.length > 2 ^ width - 1 := fun hgt => hno ⟨hgt, hwidth⟩
      omega
    · have hle : 2 ^ 12 ≤ 2 ^ width :=
        Nat.pow_le_pow_right (by decide) (by simpa [maxWidth] using hwidth)
      simp only [tableSize] at hroom
      omega

theorem le_grow (next width : Nat) : width ≤ grow next width := by
  unfold grow
  split <;> omega

-- The two codes that are no string fit as well.
theorem Fits.reserved {m : Nat} {table : List (List UInt8)} {width width' : Nat}
    (h : Fits m table width) (hle : width ≤ width') :
    clearCode m < 2 ^ width' ∧ endCode m < 2 ^ width' := by
  have hpow : 2 ^ width ≤ 2 ^ width' := Nat.pow_le_pow_right (by decide) hle
  simp only [Fits, firstCode, endCode] at h ⊢
  omega

end BTron.Lib.Lzw
