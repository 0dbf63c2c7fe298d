import BTron.Lib.Utf8
import BTron.TronCode.RoundTrip
import BTron.TronCode.Width

namespace BTron.TronCode

open Lib Lib.Logged Lib.Utf8
open String (utf8EncodeChar)

-- The code of a character. Beyond the basic plane it keeps the last six bits.
def tcOf (c : Char) : TC :=
  if c.toNat < 0x10000 then codeOf c.toNat else 0xFF80 ||| c.toNat % 64

-- The string of a list of characters, with its terminator, at an address.
def TextAt (text : Memory) (i : Nat) (cs : List Char) : Prop := Stored text i (bytes cs ++ [0])

variable {text : Memory} {i : Nat} {c : Char} {cs : List Char}

theorem textAt_cons :
    TextAt text i (c :: cs) ↔
      Stored text i (utf8EncodeChar c) ∧ TextAt text (i + (utf8EncodeChar c).length) cs := by
  rw [TextAt, bytes_cons, List.append_assoc, stored_append, TextAt]

theorem TextAt.terminator (h : TextAt text i cs) : text (i + (bytes cs).length) = 0 := by
  simpa [TextAt] using ((stored_append ..).mp h).2

theorem encode_length_pos (c : Char) : 0 < (utf8EncodeChar c).length := by
  rw [List.length_pos_iff]
  intro h
  simp [utf8EncodeChar] at h
  split_ifs at h

private theorem four_lead (n : Nat) :
    UInt8.ofNat (0xF0 + n % 8) ≠ 0 ∧ ¬UInt8.ofNat (0xF0 + n % 8) < 0x80 ∧
    ¬UInt8.ofNat (0xF0 + n % 8) &&& 0xE0 = 0xC0 ∧ ¬UInt8.ofNat (0xF0 + n % 8) &&& 0xF0 = 0xE0 ∧
    UInt8.ofNat (0xF0 + n % 8) &&& 0xF8 = 0xF0 := by
  have htable : ∀ k : Fin 8,
      UInt8.ofNat (0xF0 + k.val) ≠ 0 ∧ ¬UInt8.ofNat (0xF0 + k.val) < 0x80 ∧
      ¬UInt8.ofNat (0xF0 + k.val) &&& 0xE0 = 0xC0 ∧
      ¬UInt8.ofNat (0xF0 + k.val) &&& 0xF0 = 0xE0 ∧
      UInt8.ofNat (0xF0 + k.val) &&& 0xF8 = 0xF0 := by decide
  exact htable ⟨n % 8, Nat.mod_lt _ (by decide)⟩

-- utf8_to_tc on a well-formed character.
theorem utf8ToTc_char (h0 : 0 < c.toNat) (h : Stored text i (utf8EncodeChar c)) :
    (utf8ToTc text i).val = (tcOf c, (utf8EncodeChar c).length) := by
  unfold tcOf
  by_cases hbmp : c.toNat < 0x10000
  · rw [if_pos hbmp]
    exact utf8ToTc_encode text i c h0 hbmp h
  · rw [if_neg hbmp]
    rw [encode_four (Nat.le_of_not_lt hbmp)] at h ⊢
    simp only [stored_cons] at h
    obtain ⟨hs0, -, -, hs3, -⟩ := h
    obtain ⟨hne, h1, h2, h3, h4⟩ := four_lead (c.toNat / 262144)
    have htail : (UInt8.ofNat (0x80 + c.toNat % 64)).toNat &&& 0x7F = c.toNat % 64 := by
      rw [UInt8.toNat_ofNat', Nat.and_two_pow_sub_one_eq_mod (n := 7)]
      omega
    have hs3' : text (i + 3) = UInt8.ofNat (0x80 + c.toNat % 64) := hs3
    simp only [utf8ToTc, val_bind, val_read, hs0, hs3', hne, h1, h2, h3, h4, if_true, if_false,
      val_pure, htail, List.length_cons, List.length_nil]

theorem stepOf_char (h0 : 0 < c.toNat) (h : Stored text i (utf8EncodeChar c)) :
    stepOf (utf8ToTc text i).val.2 = (utf8EncodeChar c).length := by
  rw [utf8ToTc_char h0 h, stepOf, if_pos (encode_length_pos c)]

-- The first byte of a character is an ASCII byte if and only if the character is that byte.
theorem head_eq_iff {b : UB} (hb : b < 0x80) (h : Stored text i (utf8EncodeChar c)) :
    text i = b ↔ c.toNat = b.toNat := by
  have hb' : b.toNat < 0x80 := hb
  have hlead : ∀ n, 0x80 ≤ n → n < 256 → (UInt8.ofNat n = b ↔ n = b.toNat) := by
    intro n _ hn
    rw [← UInt8.toNat_inj, UInt8.toNat_ofNat_of_lt' hn]
  by_cases h1 : c.toNat < 0x80
  · rw [encode_one h1, stored_cons] at h
    rw [h.1, ← UInt8.toNat_inj, UInt8.toNat_ofNat_of_lt' (show c.toNat < 256 by omega)]
  by_cases h2 : c.toNat < 0x800
  · rw [encode_two (by omega) h2, stored_cons] at h
    rw [h.1, hlead _ (by omega) (by omega)]
    omega
  by_cases h3 : c.toNat < 0x10000
  · rw [encode_three (by omega) h3, stored_cons] at h
    rw [h.1, hlead _ (by omega) (by omega)]
    omega
  · rw [encode_four (by omega), stored_cons] at h
    rw [h.1, hlead _ (by omega) (by omega)]
    omega

theorem head_ne_zero (h0 : 0 < c.toNat) (h : Stored text i (utf8EncodeChar c)) : text i ≠ 0 := by
  intro hz
  have := (head_eq_iff (by decide) h).mp hz
  exact Nat.ne_of_gt h0 this

end BTron.TronCode
