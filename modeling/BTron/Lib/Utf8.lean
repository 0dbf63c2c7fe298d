import Mathlib.Data.List.Basic
import Mathlib.Data.Nat.Bitwise

namespace BTron.Lib.Utf8

open String (utf8EncodeChar)

-- The UTF-8 form of a sequence of Unicode scalar values.
def bytes (cs : List Char) : List UInt8 := cs.flatMap utf8EncodeChar

-- The bytes of a literal are read off the string.
theorem bytes_toList (s : String) : bytes s.toList = s.toByteArray.data.toList := by
  rw [← String.utf8Encode_toList, List.utf8Encode]
  simp [bytes]

def Valid (bs : List UInt8) : Prop := ∃ cs, bs = bytes cs

-- A byte `10xxxxxx`, which never starts a character.
def isCont (b : UInt8) : Bool := b &&& 0xC0 == 0x80

@[simp] theorem bytes_nil : bytes [] = [] := rfl

@[simp] theorem bytes_cons (c : Char) (cs : List Char) :
    bytes (c :: cs) = utf8EncodeChar c ++ bytes cs := rfl

@[simp] theorem bytes_append (cs ds : List Char) : bytes (cs ++ ds) = bytes cs ++ bytes ds :=
  List.flatMap_append

theorem Valid.append {as bs : List UInt8} (ha : Valid as) (hb : Valid bs) : Valid (as ++ bs) := by
  obtain ⟨cs, rfl⟩ := ha
  obtain ⟨ds, rfl⟩ := hb
  exact ⟨cs ++ ds, (bytes_append cs ds).symm⟩

theorem valid_nil : Valid [] := ⟨[], rfl⟩

-- The lead-byte and continuation-byte masks of a decoder, as ranges of the byte value.
private theorem mask_table : ∀ n : Fin 256,
    (UInt8.ofNat n.val &&& 0xE0 = 0xC0 ↔ 0xC0 ≤ n.val ∧ n.val < 0xE0) ∧
    (UInt8.ofNat n.val &&& 0xF0 = 0xE0 ↔ 0xE0 ≤ n.val ∧ n.val < 0xF0) ∧
    (UInt8.ofNat n.val &&& 0xC0 = 0x80 ↔ 0x80 ≤ n.val ∧ n.val < 0xC0) := by
  decide +kernel

theorem lead_two_iff (b : UInt8) : b &&& 0xE0 = 0xC0 ↔ 0xC0 ≤ b.toNat ∧ b.toNat < 0xE0 := by
  simpa using (mask_table ⟨b.toNat, b.toNat_lt⟩).1

theorem lead_three_iff (b : UInt8) : b &&& 0xF0 = 0xE0 ↔ 0xE0 ≤ b.toNat ∧ b.toNat < 0xF0 := by
  simpa using (mask_table ⟨b.toNat, b.toNat_lt⟩).2.1

theorem isCont_iff (b : UInt8) : isCont b = true ↔ 0x80 ≤ b.toNat ∧ b.toNat < 0xC0 := by
  simpa [isCont] using (mask_table ⟨b.toNat, b.toNat_lt⟩).2.2

theorem encode_one {c : Char} (h : c.toNat < 0x80) : utf8EncodeChar c = [UInt8.ofNat c.toNat] := by
  simp only [utf8EncodeChar, Char.toNat_val]
  rw [if_pos (by omega)]

theorem encode_two {c : Char} (hlo : 0x80 ≤ c.toNat) (hhi : c.toNat < 0x800) :
    utf8EncodeChar c =
      [UInt8.ofNat (0xC0 + c.toNat / 64), UInt8.ofNat (0x80 + c.toNat % 64)] := by
  have hdiv : c.toNat / 64 % 32 + 192 = 0xC0 + c.toNat / 64 := by omega
  have hmod : c.toNat % 64 + 128 = 0x80 + c.toNat % 64 := Nat.add_comm _ _
  simp only [utf8EncodeChar, Char.toNat_val]
  rw [if_neg (by omega), if_pos (by omega), hdiv, hmod]

theorem encode_three {c : Char} (hlo : 0x800 ≤ c.toNat) (hhi : c.toNat < 0x10000) :
    utf8EncodeChar c =
      [UInt8.ofNat (0xE0 + c.toNat / 4096), UInt8.ofNat (0x80 + c.toNat / 64 % 64),
        UInt8.ofNat (0x80 + c.toNat % 64)] := by
  have hdiv : c.toNat / 4096 % 16 + 224 = 0xE0 + c.toNat / 4096 := by omega
  simp only [utf8EncodeChar, Char.toNat_val]
  rw [if_neg (by omega), if_neg (by omega), if_pos (by omega), hdiv]
  simp only [Nat.add_comm]

theorem encode_four {c : Char} (hlo : 0x10000 ≤ c.toNat) :
    utf8EncodeChar c =
      [UInt8.ofNat (0xF0 + c.toNat / 262144 % 8), UInt8.ofNat (0x80 + c.toNat / 4096 % 64),
        UInt8.ofNat (0x80 + c.toNat / 64 % 64), UInt8.ofNat (0x80 + c.toNat % 64)] := by
  simp only [utf8EncodeChar, Char.toNat_val]
  rw [if_neg (by omega), if_neg (by omega), if_neg (by omega)]
  simp only [Nat.add_comm]

theorem encode_ne_zero {c : Char} (h0 : 0 < c.toNat) {b : UInt8} (hb : b ∈ utf8EncodeChar c) :
    b ≠ 0 := by
  have hne : ∀ n, 0 < n → n < 256 → UInt8.ofNat n ≠ 0 := by
    intro n hlo hhi
    rw [Ne, ← UInt8.toNat_inj, UInt8.toNat_ofNat_of_lt' hhi]
    exact Nat.ne_of_gt hlo
  by_cases h1 : c.toNat < 0x80
  · rw [encode_one h1, List.mem_singleton] at hb
    exact hb ▸ hne _ h0 (by omega)
  · by_cases h2 : c.toNat < 0x800
    · simp only [encode_two (by omega) h2, List.mem_cons, List.not_mem_nil, or_false] at hb
      rcases hb with rfl | rfl <;> exact hne _ (by omega) (by omega)
    · by_cases h3 : c.toNat < 0x10000
      · simp only [encode_three (by omega) h3, List.mem_cons, List.not_mem_nil, or_false] at hb
        rcases hb with rfl | rfl | rfl <;> exact hne _ (by omega) (by omega)
      · simp only [encode_four (Nat.le_of_not_lt h3), List.mem_cons, List.not_mem_nil,
          or_false] at hb
        rcases hb with rfl | rfl | rfl | rfl <;> exact hne _ (by omega) (by omega)

-- At most `m` continuation bytes come first, at most three behind every other byte, and no
-- byte is 0xFF.
def Sparse : Nat → List UInt8 → Prop
  | _, [] => True
  | m, b :: bs => b ≠ 0xFF ∧ if isCont b then 0 < m ∧ Sparse (m - 1) bs else Sparse 3 bs

theorem Sparse.mono {m n : Nat} (hmn : m ≤ n) {bs : List UInt8} (h : Sparse m bs) :
    Sparse n bs := by
  induction bs generalizing m n with
  | nil => trivial
  | cons b bs ih =>
      obtain ⟨hb, hrest⟩ := h
      refine ⟨hb, ?_⟩
      split
      · rename_i hc
        rw [if_pos hc] at hrest
        exact ⟨by omega, ih (by omega) hrest.2⟩
      · rename_i hc
        rwa [if_neg hc] at hrest

theorem Sparse.tail {m : Nat} (hm : m ≤ 3) {b : UInt8} {bs : List UInt8}
    (h : Sparse m (b :: bs)) : Sparse 3 bs := by
  obtain ⟨-, hrest⟩ := h
  split at hrest
  · exact hrest.2.mono (by omega)
  · exact hrest

theorem Sparse.drop {bs : List UInt8} (h : Sparse 3 bs) (k : Nat) : Sparse 3 (bs.drop k) := by
  induction k generalizing bs with
  | zero => exact h
  | succ k ih =>
      cases bs with
      | nil => trivial
      | cons b bs => exact ih (h.tail (Nat.le_refl 3))

theorem Sparse.ne_ff {m : Nat} {bs : List UInt8} (hm : m ≤ 3) (h : Sparse m bs) {b : UInt8}
    (hb : b ∈ bs) : b ≠ 0xFF := by
  induction bs generalizing m with
  | nil => simp at hb
  | cons c bs ih =>
      rcases List.mem_cons.mp hb with rfl | hb
      · exact h.1
      · exact ih (Nat.le_refl 3) (h.tail hm) hb

-- Among more than `m` bytes one is not a continuation byte.
theorem Sparse.exists_start {m : Nat} {bs : List UInt8} (h : Sparse m bs) (hlen : m < bs.length) :
    ∃ k, ∃ hk : k < bs.length, k ≤ m ∧ isCont bs[k] = false := by
  induction bs generalizing m with
  | nil => simp at hlen
  | cons b bs ih =>
      obtain ⟨-, hrest⟩ := h
      by_cases hc : isCont b = true
      · rw [if_pos hc] at hrest
        obtain ⟨k, hk, hkm, hcont⟩ := ih hrest.2 (by simp at hlen; omega)
        exact ⟨k + 1, by simpa using hk, by omega, hcont⟩
      · exact ⟨0, by simp, Nat.zero_le _, by simpa using hc⟩

theorem sparse_append {m : Nat} {as bs : List UInt8} (hm : m ≤ 3) (ha : Sparse m as)
    (hb : Sparse 0 bs) : Sparse m (as ++ bs) := by
  induction as generalizing m with
  | nil => exact hb.mono (Nat.zero_le _)
  | cons a as ih =>
      obtain ⟨hne, hrest⟩ := ha
      refine ⟨hne, ?_⟩
      split
      · rename_i hc
        rw [if_pos hc] at hrest
        exact ⟨hrest.1, ih (by omega) hrest.2⟩
      · rename_i hc
        rw [if_neg hc] at hrest
        exact ih (Nat.le_refl 3) hrest

private theorem toNat_ofNat_lt {n : Nat} (h : n < 256) : (UInt8.ofNat n).toNat = n :=
  UInt8.toNat_ofNat_of_lt' h

private theorem isCont_lead {n : Nat} (hn : n < 0x80 ∨ 0xC0 ≤ n ∧ n < 0xFF) :
    isCont (UInt8.ofNat n) = false := by
  rw [← Bool.not_eq_true, isCont_iff, toNat_ofNat_lt (by omega)]
  omega

private theorem isCont_tail (k : Nat) : isCont (UInt8.ofNat (0x80 + k % 64)) = true := by
  rw [isCont_iff, toNat_ofNat_lt (by omega)]
  omega

private theorem sparse_lead {n : Nat} (hn : n < 0x80 ∨ 0xC0 ≤ n ∧ n < 0xFF) {bs : List UInt8}
    (h : Sparse 3 bs) : Sparse 0 (UInt8.ofNat n :: bs) := by
  have hne : UInt8.ofNat n ≠ 0xFF := by
    rw [Ne, ← UInt8.toNat_inj, toNat_ofNat_lt (by omega)]
    exact Nat.ne_of_lt (show n < 255 by omega)
  exact ⟨hne, by rwa [if_neg (by simp [isCont_lead hn])]⟩

private theorem sparse_cont {m k : Nat} {bs : List UInt8} (h : Sparse m bs) :
    Sparse (m + 1) (UInt8.ofNat (0x80 + k % 64) :: bs) := by
  have hne : UInt8.ofNat (0x80 + k % 64) ≠ 0xFF := by
    rw [Ne, ← UInt8.toNat_inj, toNat_ofNat_lt (by omega)]
    exact Nat.ne_of_lt (show 0x80 + k % 64 < 255 by omega)
  exact ⟨hne, by rw [if_pos (isCont_tail k)]; exact ⟨Nat.succ_pos m, h⟩⟩

theorem sparse_encode (c : Char) : Sparse 0 (utf8EncodeChar c) := by
  by_cases h1 : c.toNat < 0x80
  · rw [encode_one h1]
    exact sparse_lead (.inl h1) trivial
  · by_cases h2 : c.toNat < 0x800
    · have htail : Sparse 1 [UInt8.ofNat (0x80 + c.toNat % 64)] := sparse_cont trivial
      rw [encode_two (by omega) h2]
      exact sparse_lead (.inr (by omega)) (htail.mono (by decide))
    · by_cases h3 : c.toNat < 0x10000
      · have htail : Sparse 2 [UInt8.ofNat (0x80 + c.toNat / 64 % 64),
            UInt8.ofNat (0x80 + c.toNat % 64)] := sparse_cont (sparse_cont trivial)
        rw [encode_three (by omega) h3]
        exact sparse_lead (.inr (by omega)) (htail.mono (by decide))
      · have htail : Sparse 3 [UInt8.ofNat (0x80 + c.toNat / 4096 % 64),
            UInt8.ofNat (0x80 + c.toNat / 64 % 64), UInt8.ofNat (0x80 + c.toNat % 64)] :=
          sparse_cont (sparse_cont (sparse_cont trivial))
        rw [encode_four (by omega)]
        exact sparse_lead (.inr (by omega)) htail

-- The bytes of a character behind the first are continuation bytes, and the first is not.
theorem encode_shape (c : Char) :
    ∃ b bs, utf8EncodeChar c = b :: bs ∧ isCont b = false ∧ ∀ x ∈ bs, isCont x = true := by
  have hnil : ∀ x ∈ [], isCont x = true := fun _ hx => absurd hx List.not_mem_nil
  by_cases h1 : c.toNat < 0x80
  · exact ⟨_, [], encode_one h1, isCont_lead (.inl h1), hnil⟩
  · by_cases h2 : c.toNat < 0x800
    · refine ⟨_, _, encode_two (by omega) h2, isCont_lead (.inr (by omega)), ?_⟩
      simp only [List.forall_mem_cons, isCont_tail, true_and]
      exact hnil
    · by_cases h3 : c.toNat < 0x10000
      · refine ⟨_, _, encode_three (by omega) h3, isCont_lead (.inr (by omega)), ?_⟩
        simp only [List.forall_mem_cons, isCont_tail, true_and]
        exact hnil
      · refine ⟨_, _, encode_four (by omega), isCont_lead (.inr (by omega)), ?_⟩
        simp only [List.forall_mem_cons, isCont_tail, true_and]
        exact hnil

-- Valid UTF-8 has at most three continuation bytes in a row and no byte 0xFF.
theorem Valid.sparse {bs : List UInt8} (h : Valid bs) : Sparse 3 bs := by
  obtain ⟨cs, rfl⟩ := h
  apply Sparse.mono (Nat.zero_le 3)
  induction cs with
  | nil => trivial
  | cons c cs ih => exact sparse_append (Nat.zero_le 3) (sparse_encode c) ih

end BTron.Lib.Utf8
