import BTron.TronCode
import BTron.Lib.Memory
import BTron.Lib.Utf8

namespace BTron.TronCode

open Lib Lib.Logged Lib.Utf8
open String (utf8EncodeChar)

-- The blocks utf8_to_tc maps explicitly.
def Mapped (c : Char) : Prop :=
  (0x0001 ≤ c.toNat ∧ c.toNat ≤ 0x007F) ∨ (0x0400 ≤ c.toNat ∧ c.toNat ≤ 0x04FF) ∨
  (0x0F00 ≤ c.toNat ∧ c.toNat ≤ 0x0FFF) ∨ (0x2000 ≤ c.toNat ∧ c.toNat ≤ 0x206F) ∨
  c.toNat = 0x2116 ∨ (0x3000 ≤ c.toNat ∧ c.toNat ≤ 0x30FF) ∨
  (0x4E00 ≤ c.toNat ∧ c.toNat ≤ 0x9FFF) ∨ (0xFF00 ≤ c.toNat ∧ c.toNat ≤ 0xFFEF)

instance (c : Char) : Decidable (Mapped c) := inferInstanceAs (Decidable (_ ∨ _))

-- U+3016 shares its code 0x2116 with U+2116, and the ideographs U+8D00..U+8DFF
-- get the codes 0x6F00..0x6FFF of the Tibetan block.
def Collides (c : Char) : Prop :=
  c.toNat = 0x3016 ∨ (0x8D00 ≤ c.toNat ∧ c.toNat ≤ 0x8DFF)

instance (c : Char) : Decidable (Collides c) := inferInstanceAs (Decidable (_ ∨ _))

def codeOf (cp : Nat) : TC :=
  if cp < 0x80 then cp else if cp < 0x800 then tcOfTwo cp else tcOfThree cp

-- The code point tc_to_utf8 reads out of the code of `cp`.
def readBack (cp : Nat) : Nat :=
  if cp = 0x3016 then 0x2116
  else if 0x8D00 ≤ cp ∧ cp ≤ 0x8DFF then cp - 0x8D00 + 0x0F00
  else cp

private theorem and_tail (k : Nat) (hk : k < 64) : (0x80 + k) % 256 &&& 0x3F = k := by
  rw [Nat.and_two_pow_sub_one_eq_mod (n := 6)]
  omega

theorem two_bits (cp : Nat) (h : cp < 0x800) :
    ((UInt8.ofNat (0xC0 + cp / 64)).toNat &&& 0x1F) <<< 6 |||
      ((UInt8.ofNat (0x80 + cp % 64)).toNat &&& 0x3F) = cp := by
  have hlo : cp % 64 < 2 ^ 6 := Nat.mod_lt _ (by decide)
  simp only [UInt8.toNat_ofNat']
  rw [and_tail _ hlo, Nat.and_two_pow_sub_one_eq_mod (n := 5), or_eq_add 6 _ hlo]
  omega

theorem three_bits (cp : Nat) (h : cp < 0x10000) :
    (((UInt8.ofNat (0xE0 + cp / 4096)).toNat &&& 0x0F) <<< 6 |||
      ((UInt8.ofNat (0x80 + cp / 64 % 64)).toNat &&& 0x3F)) <<< 6 |||
      ((UInt8.ofNat (0x80 + cp % 64)).toNat &&& 0x3F) = cp := by
  have hmid : cp / 64 % 64 < 2 ^ 6 := Nat.mod_lt _ (by decide)
  have hlo : cp % 64 < 2 ^ 6 := Nat.mod_lt _ (by decide)
  simp only [UInt8.toNat_ofNat']
  rw [and_tail _ hmid, and_tail _ hlo, Nat.and_two_pow_sub_one_eq_mod (n := 4),
    or_eq_add 6 _ hmid, or_eq_add 6 _ hlo]
  omega

private theorem ofNat_ne_zero {n : Nat} (h0 : 0 < n) (h : n < 256) : UInt8.ofNat n ≠ 0 := by
  rw [Ne, ← UInt8.toNat_inj, UInt8.toNat_ofNat_of_lt' h]
  exact Nat.ne_of_gt h0

private theorem ofNat_lt_iff {n : Nat} (h : n < 256) : UInt8.ofNat n < 0x80 ↔ n < 0x80 := by
  rw [UInt8.lt_iff_toNat_lt, UInt8.toNat_ofNat_of_lt' h]
  rfl

-- utf8_to_tc on one well-formed character of the basic plane.
theorem utf8ToTc_encode (s : Memory) (i : Nat) (c : Char) (h0 : 0 < c.toNat)
    (hbmp : c.toNat < 0x10000) (hs : Stored s i (utf8EncodeChar c)) :
    (utf8ToTc s i).val = (codeOf c.toNat, (utf8EncodeChar c).length) := by
  by_cases h1 : c.toNat < 0x80
  · rw [encode_one h1] at hs ⊢
    have hb : c.toNat < 256 := by omega
    obtain ⟨hs0, -⟩ := (stored_cons ..).mp hs
    simp only [utf8ToTc, val_bind, val_read, hs0, ofNat_ne_zero h0 hb, (ofNat_lt_iff hb).mpr h1,
      if_true, if_false, val_pure, codeOf, h1, UInt8.toNat_ofNat_of_lt' hb, List.length_singleton]
  · by_cases h2 : c.toNat < 0x800
    · have hb : 0xC0 + c.toNat / 64 < 256 := by omega
      have hlead : UInt8.ofNat (0xC0 + c.toNat / 64) &&& 0xE0 = 0xC0 := by
        rw [lead_two_iff, UInt8.toNat_ofNat_of_lt' hb]
        omega
      have hlt : ¬UInt8.ofNat (0xC0 + c.toNat / 64) < 0x80 := by
        rw [ofNat_lt_iff hb]
        omega
      rw [encode_two (by omega) h2] at hs ⊢
      obtain ⟨hs0, hs⟩ := (stored_cons ..).mp hs
      obtain ⟨hs1, -⟩ := (stored_cons ..).mp hs
      simp only [utf8ToTc, val_bind, val_read, hs0, hs1, ofNat_ne_zero (by omega) hb,
        hlt, hlead, two_bits _ h2, if_true, if_false, val_pure, codeOf, h1, h2, List.length_cons,
        List.length_nil]
    · have hb : 0xE0 + c.toNat / 4096 < 256 := by omega
      have hlead : UInt8.ofNat (0xE0 + c.toNat / 4096) &&& 0xF0 = 0xE0 := by
        rw [lead_three_iff, UInt8.toNat_ofNat_of_lt' hb]
        omega
      have hnot : ¬UInt8.ofNat (0xE0 + c.toNat / 4096) &&& 0xE0 = 0xC0 := by
        rw [lead_two_iff, UInt8.toNat_ofNat_of_lt' hb]
        omega
      have hlt : ¬UInt8.ofNat (0xE0 + c.toNat / 4096) < 0x80 := by
        rw [ofNat_lt_iff hb]
        omega
      rw [encode_three (by omega) hbmp] at hs ⊢
      obtain ⟨hs0, hs⟩ := (stored_cons ..).mp hs
      obtain ⟨hs1, hs⟩ := (stored_cons ..).mp hs
      obtain ⟨hs2, -⟩ := (stored_cons ..).mp hs
      simp only [utf8ToTc, val_bind, val_read, hs0, hs1, hs2, ofNat_ne_zero (by omega) hb,
        hlt, hlead, hnot, three_bits _ hbmp, if_true, if_false, val_pure, codeOf, h1, h2,
        List.length_cons, List.length_nil]

-- The UTF-8 bytes of a code point of the basic plane.
def written (cp : Nat) : List UB :=
  if cp < 0x80 then [UInt8.ofNat cp]
  else if cp < 0x800 then [UInt8.ofNat (0xC0 + cp / 64), UInt8.ofNat (0x80 + cp % 64)]
  else [UInt8.ofNat (0xE0 + cp / 4096), UInt8.ofNat (0x80 + cp / 64 % 64),
    UInt8.ofNat (0x80 + cp % 64)]

theorem encode_eq_written (c : Char) (hbmp : c.toNat < 0x10000) :
    utf8EncodeChar c = written c.toNat := by
  unfold written
  split
  · exact encode_one ‹_›
  · split
    · exact encode_two (by omega) ‹_›
    · exact encode_three (by omega) hbmp

private theorem tail_or (k : Nat) : 0x80 ||| (k &&& 0x3F) = 0x80 + k % 64 := by
  rw [Nat.and_two_pow_sub_one_eq_mod (n := 6)]
  exact or_eq_add 6 2 (Nat.mod_lt _ (by decide))

theorem threeBytes_eq (cp : Nat) (hlo : 0x800 ≤ cp) (hhi : cp < 0x10000) :
    threeBytes cp = written cp := by
  have hlead : 0xE0 ||| ((cp >>> 12) &&& 0x0F) = 0xE0 + cp / 4096 := by
    rw [Nat.and_two_pow_sub_one_eq_mod (n := 4), Nat.shiftRight_eq_div_pow]
    rw [show 0xE0 ||| cp / 2 ^ 12 % 2 ^ 4 = 0xE0 + cp / 2 ^ 12 % 2 ^ 4 from
      or_eq_add 4 14 (Nat.mod_lt _ (by decide))]
    omega
  unfold threeBytes written
  rw [if_neg (by omega), if_neg (by omega), hlead, tail_or, tail_or, Nat.shiftRight_eq_div_pow]

theorem twoBytes_eq (cp : Nat) (hlo : 0x80 ≤ cp) (hhi : cp < 0x800) :
    [UInt8.ofNat (0xC0 ||| ((cp >>> 6) &&& 0x1F)), UInt8.ofNat (0x80 ||| (cp &&& 0x3F))] =
      written cp := by
  have hlead : 0xC0 ||| ((cp >>> 6) &&& 0x1F) = 0xC0 + cp / 64 := by
    rw [Nat.and_two_pow_sub_one_eq_mod (n := 5), Nat.shiftRight_eq_div_pow]
    rw [show 0xC0 ||| cp / 2 ^ 6 % 2 ^ 5 = 0xC0 + cp / 2 ^ 6 % 2 ^ 5 from
      or_eq_add 5 6 (Nat.mod_lt _ (by decide))]
    omega
  unfold written
  rw [if_neg (by omega), if_pos hhi, hlead, tail_or]

theorem or_low (high low : Nat) (h : low < 256) : high * 256 ||| low = high * 256 + low := by
  have := or_eq_add 8 high (b := low) (by omega)
  rwa [Nat.shiftLeft_eq] at this

-- A two-byte code is taken apart into the bytes it was put together from.
theorem high_low (high low : Nat) (hh : high < 256) (hl : low < 256) :
    ((high * 256 + low) >>> 8) &&& 0xFF = high ∧ (high * 256 + low) &&& 0xFF = low := by
  rw [Nat.and_two_pow_sub_one_eq_mod (n := 8), Nat.and_two_pow_sub_one_eq_mod (n := 8),
    Nat.shiftRight_eq_div_pow]
  omega

private theorem codeOf_two {cp : Nat} (hlo : 0x0400 ≤ cp) (hhi : cp ≤ 0x04FF) :
    codeOf cp = 0x27 * 256 + (cp - 0x0400) := by
  rw [← or_low _ _ (by omega), codeOf, if_neg (by omega), if_pos (by omega), tcOfTwo,
    if_pos ⟨hlo, hhi⟩]

-- The cascade of range tests reaches the block of a high byte; the fallback is not reached.
private theorem tcToUtf8_at {high low : Nat} (h0 : 0 < high) (hh : high < 256) (hl : low < 256) :
    tcToUtf8 (high * 256 + low) 8 =
      if high = 0x6F then threeBytes (0x0F00 + low)
      else if high = 0x27 then
        [UInt8.ofNat (0xC0 ||| (((if low = 0x91 then 0x0491 else if low = 0x90 then 0x0490
            else 0x0400 + low) >>> 6) &&& 0x1F)),
          UInt8.ofNat (0x80 ||| ((if low = 0x91 then 0x0491 else if low = 0x90 then 0x0490
            else 0x0400 + low) &&& 0x3F))]
      else if high * 256 + low = 0x2116 then [0xE2, 0x84, 0x96]
      else if high = 0x26 ∧ low ≤ 0x6F then threeBytes (0x2000 + low)
      else if high = 0x21 ∧ low ≤ 0x3F then threeBytes (0x3000 + low)
      else if high = 0x22 ∧ low ≤ 0xEF then threeBytes (0xFF00 + low)
      else if high = 0x24 ∧ low ≤ 0x5F then threeBytes (0x3040 + low)
      else if high = 0x25 ∧ low ≤ 0x5F then threeBytes (0x30A0 + low)
      else if 0x30 ≤ high ∧ high ≤ 0x85 ∧ 0x4E00 + ((high - 0x30) <<< 8 ||| low) ≤ 0x9FFF then
        threeBytes (0x4E00 + ((high - 0x30) <<< 8 ||| low))
      else threeBytes (high * 256 + low) := by
  obtain ⟨hhigh, hlow⟩ := high_low high low hh hl
  have hascii : ¬high * 256 + low < 0x80 := by omega
  simp only [tcToUtf8, hhigh, hlow, hascii, if_false, show ¬8 < 4 by decide]

private theorem readBack_self {cp : Nat} (h : cp ≠ 0x3016) (hcjk : cp < 0x8D00 ∨ 0x8DFF < cp) :
    readBack cp = cp := by
  unfold readBack
  rw [if_neg h, if_neg (by omega)]

private theorem readBack_cjk {cp : Nat} (hlo : 0x8D00 ≤ cp) (hhi : cp ≤ 0x8DFF) :
    readBack cp = cp - 0x8D00 + 0x0F00 := by
  unfold readBack
  rw [if_neg (by omega), if_pos ⟨hlo, hhi⟩]

private theorem codeOf_three {cp : Nat} (h : 0x800 ≤ cp) : codeOf cp = tcOfThree cp := by
  unfold codeOf
  rw [if_neg (by omega), if_neg (by omega)]

theorem tcToUtf8_codeOf (c : Char) (hm : Mapped c) :
    tcToUtf8 (codeOf c.toNat) 8 = written (readBack c.toNat) := by
  generalize hcp : c.toNat = cp
  simp only [Mapped, hcp] at hm
  rcases hm with hascii | hcyr | htib | hpun | hno | hcjk | hkan | hful
  · have hlt : cp < 0x80 := by omega
    rw [readBack_self (by omega) (by omega), codeOf, if_pos hlt, tcToUtf8, if_neg (by decide),
      if_pos hlt, written, if_pos hlt]
  · have hcode : (if cp - 0x0400 = 0x91 then 0x0491 else if cp - 0x0400 = 0x90 then 0x0490
        else 0x0400 + (cp - 0x0400)) = cp := by split_ifs <;> omega
    rw [readBack_self (by omega) (by omega), codeOf_two hcyr.1 hcyr.2,
      tcToUtf8_at (by decide) (by decide) (by omega), if_neg (by decide), if_pos rfl, hcode,
      twoBytes_eq cp (by omega) (by omega)]
  · have hcode : codeOf cp = 0x6F * 256 + (cp - 0x0F00) := by
      rw [← or_low _ _ (by omega), codeOf_three (by omega), tcOfThree, if_pos htib]
    rw [readBack_self (by omega) (by omega), hcode, tcToUtf8_at (by decide) (by decide) (by omega),
      if_pos rfl, Nat.add_sub_cancel' htib.1, threeBytes_eq cp (by omega) (by omega)]
  · have hcode : codeOf cp = 0x26 * 256 + (cp - 0x2000) := by
      rw [← or_low _ _ (by omega), codeOf_three (by omega), tcOfThree, if_neg (by omega),
        if_neg (by omega), if_neg (by omega), if_neg (by omega), if_neg (by omega), if_pos hpun]
    rw [readBack_self (by omega) (by omega), hcode, tcToUtf8_at (by decide) (by decide) (by omega),
      if_neg (by decide), if_neg (by decide), if_neg (by omega), if_pos (by omega),
      Nat.add_sub_cancel' hpun.1, threeBytes_eq cp (by omega) (by omega)]
  · subst hno
    decide
  · by_cases hsym : cp ≤ 0x303F
    · have hcode : codeOf cp = 0x21 * 256 + (cp - 0x3000) := by
        rw [← or_low _ _ (by omega), codeOf_three (by omega), tcOfThree, if_neg (by omega),
          if_pos ⟨hcjk.1, hsym⟩]
      by_cases hbr : cp = 0x3016
      · subst hbr
        decide
      · rw [readBack_self hbr (by omega), hcode, tcToUtf8_at (by decide) (by decide) (by omega),
          if_neg (by decide), if_neg (by decide), if_neg (by omega), if_neg (by omega),
          if_pos (by omega), Nat.add_sub_cancel' hcjk.1, threeBytes_eq cp (by omega) (by omega)]
    · by_cases hhira : cp ≤ 0x309F
      · have hcode : codeOf cp = 0x24 * 256 + (cp - 0x3040) := by
          rw [← or_low _ _ (by omega), codeOf_three (by omega), tcOfThree, if_neg (by omega),
            if_neg (by omega), if_pos (by omega)]
        rw [readBack_self (by omega) (by omega), hcode,
          tcToUtf8_at (by decide) (by decide) (by omega), if_neg (by decide), if_neg (by decide),
          if_neg (by omega), if_neg (by omega), if_neg (by omega), if_neg (by omega),
          if_pos (by omega), Nat.add_sub_cancel' (by omega), threeBytes_eq cp (by omega) (by omega)]
      · have hcode : codeOf cp = 0x25 * 256 + (cp - 0x30A0) := by
          rw [← or_low _ _ (by omega), codeOf_three (by omega), tcOfThree, if_neg (by omega),
            if_neg (by omega), if_neg (by omega), if_pos (by omega)]
        rw [readBack_self (by omega) (by omega), hcode,
          tcToUtf8_at (by decide) (by decide) (by omega), if_neg (by decide), if_neg (by decide),
          if_neg (by omega), if_neg (by omega), if_neg (by omega), if_neg (by omega),
          if_neg (by omega), if_pos (by omega), Nat.add_sub_cancel' (by omega),
          threeBytes_eq cp (by omega) (by omega)]
  · have hcode : codeOf cp = (0x30 + (cp - 0x4E00) / 256) * 256 + (cp - 0x4E00) % 256 := by
      rw [← or_low _ _ (by omega), codeOf_three (by omega), tcOfThree, if_neg (by omega),
        if_neg (by omega), if_neg (by omega), if_neg (by omega), if_neg (by omega),
        if_neg (by omega), if_neg (by omega), if_pos hkan, Nat.shiftRight_eq_div_pow,
        Nat.shiftLeft_eq, Nat.and_two_pow_sub_one_eq_mod (n := 8)]
    have hlow : (cp - 0x4E00) % 256 < 2 ^ 8 := Nat.mod_lt _ (by decide)
    have hoff : ((0x30 + (cp - 0x4E00) / 256 - 0x30) <<< 8 ||| (cp - 0x4E00) % 256) =
        cp - 0x4E00 := by
      rw [or_eq_add 8 _ hlow]
      omega
    rw [hcode, tcToUtf8_at (by omega) (by omega) (by omega), hoff]
    by_cases htib : 0x8D00 ≤ cp ∧ cp ≤ 0x8DFF
    · have hback : 0x0F00 + (cp - 0x4E00) % 256 = readBack cp := by
        rw [readBack_cjk htib.1 htib.2]
        omega
      rw [if_pos (by omega), hback, threeBytes_eq _ (by rw [← hback]; omega)
        (by rw [← hback]; omega)]
    · rw [if_neg (by omega), if_neg (by omega), if_neg (by omega), if_neg (by omega),
        if_neg (by omega), if_neg (by omega), if_neg (by omega), if_neg (by omega),
        if_pos (by omega), Nat.add_sub_cancel' hkan.1, threeBytes_eq cp (by omega) (by omega),
        readBack_self (by omega) (by omega)]
  · have hcode : codeOf cp = 0x22 * 256 + (cp - 0xFF00) := by
      rw [← or_low _ _ (by omega), codeOf_three (by omega), tcOfThree, if_neg (by omega),
        if_neg (by omega), if_neg (by omega), if_neg (by omega), if_pos hful]
    rw [readBack_self (by omega) (by omega), hcode, tcToUtf8_at (by decide) (by decide) (by omega),
      if_neg (by decide), if_neg (by decide), if_neg (by omega), if_neg (by omega),
      if_neg (by omega), if_pos (by omega), Nat.add_sub_cancel' hful.1,
      threeBytes_eq cp (by omega) (by omega)]

theorem written_length_readBack (c : Char) (hm : Mapped c) :
    (written (readBack c.toNat)).length = (utf8EncodeChar c).length := by
  rw [encode_eq_written c (by unfold Mapped at hm; omega)]
  unfold readBack written
  split_ifs <;> first | omega | simp only [List.length_cons, List.length_nil]

theorem written_readBack_iff (c : Char) (hm : Mapped c) :
    written (readBack c.toNat) = utf8EncodeChar c ↔ ¬Collides c := by
  rw [encode_eq_written c (by unfold Mapped at hm; omega)]
  unfold Collides
  by_cases hbr : c.toNat = 0x3016
  · rw [hbr]
    decide
  by_cases hcjk : 0x8D00 ≤ c.toNat ∧ c.toNat ≤ 0x8DFF
  · -- the lead bytes are 0xE0 and 0xE8
    refine iff_of_false (fun heq => ?_) (by tauto)
    have hlo : 0xE0 + (c.toNat - 0x8D00 + 0x0F00) / 4096 < 256 := by omega
    have hhi : 0xE0 + c.toNat / 4096 < 256 := by omega
    rw [readBack_cjk hcjk.1 hcjk.2, written, written, if_neg (by omega), if_neg (by omega),
      if_neg (by omega), if_neg (by omega), List.cons.injEq, ← UInt8.toNat_inj,
      UInt8.toNat_ofNat_of_lt' hlo, UInt8.toNat_ofNat_of_lt' hhi] at heq
    omega
  · rw [readBack_self hbr (by omega)]
    tauto

private theorem codeOf_ne_zero {cp : Nat} (h : 0 < cp) : codeOf cp ≠ 0 := by
  have hor : ∀ a b : Nat, a ≠ 0 → a ||| b ≠ 0 := fun a b ha hab => ha (Nat.or_eq_zero_iff.mp hab).1
  unfold codeOf tcOfTwo tcOfThree
  split_ifs <;> first
    | exact Nat.ne_of_gt h
    | exact hor _ _ (by decide)
    | decide
    | exact hor _ _ (by rw [Nat.shiftLeft_eq]; omega)

private theorem mapped_pos {c : Char} (hm : Mapped c) : 0 < c.toNat ∧ c.toNat < 0x10000 := by
  unfold Mapped at hm
  omega

theorem utf8ToTcLoop_encode (s : Memory) (cs : List Char) (hm : ∀ c ∈ cs, Mapped c) (i n : Nat)
    (hs : Stored s i (bytes cs ++ [0])) (hn : cs.length ≤ n) :
    (utf8ToTcLoop s n i).val = cs.map fun c => codeOf c.toNat := by
  induction cs generalizing i n with
  | nil =>
      have hzero : s i = 0 := ((stored_cons ..).mp hs).1
      cases n with
      | zero => rfl
      | succ n => simp [utf8ToTcLoop, hzero]
  | cons c cs ih =>
      obtain ⟨n, rfl⟩ : ∃ m, n = m + 1 := ⟨n - 1, by simp at hn; omega⟩
      obtain ⟨h0, hbmp⟩ := mapped_pos (hm c List.mem_cons_self)
      rw [bytes_cons, List.append_assoc, stored_append] at hs
      have hcode := utf8ToTc_encode s i c h0 hbmp hs.1
      have hlen : 0 < (utf8EncodeChar c).length := by
        rw [String.length_utf8EncodeChar]
        exact c.utf8Size_pos
      have hne : s i ≠ 0 := by
        rw [← Nat.add_zero i, hs.1 0 hlen]
        exact encode_ne_zero h0 (List.getElem_mem _)
      have hrest := ih (fun d hd => hm d (List.mem_cons_of_mem _ hd)) _ n hs.2 (by simpa using hn)
      simp only [utf8ToTcLoop, val_bind, val_read, hne, if_false, hcode, hlen, if_true,
        hrest, val_pure, List.map_cons]

-- All characters fit, since a character and the one read back have equally many bytes.
theorem tcToUtf8Loop_codeOf (maxBytes : Nat) (cs : List Char) (hm : ∀ c ∈ cs, Mapped c)
    (out : List UB) (hlen : out.length + (bytes cs).length < maxBytes) :
    tcToUtf8Loop maxBytes (cs.map fun c => codeOf c.toNat) out =
      out ++ cs.flatMap fun c => written (readBack c.toNat) := by
  induction cs generalizing out with
  | nil => simp [tcToUtf8Loop]
  | cons c cs ih =>
      have hc := hm c List.mem_cons_self
      have hbytes := written_length_readBack c hc
      rw [bytes_cons, List.length_append, ← hbytes] at hlen
      rw [List.map_cons, tcToUtf8Loop, if_neg (codeOf_ne_zero (mapped_pos hc).1),
        tcToUtf8_codeOf c hc]
      simp only
      rw [if_neg (by omega), ih (fun d hd => hm d (List.mem_cons_of_mem _ hd)) _
        (by rw [List.length_append]; omega), List.flatMap_cons, List.append_assoc]

theorem flatMap_eq_iff {α β : Type} {f g : α → List β} {l : List α}
    (h : ∀ a ∈ l, (f a).length = (g a).length) :
    l.flatMap f = l.flatMap g ↔ ∀ a ∈ l, f a = g a := by
  induction l with
  | nil => simp
  | cons a l ih =>
      simp only [List.forall_mem_cons] at h ⊢
      rw [List.flatMap_cons, List.flatMap_cons, ← ih h.2]
      exact ⟨fun heq => List.append_inj heq h.1, fun heq => congrArg₂ _ heq.1 heq.2⟩

-- Exactly the strings without a character that shares its code are preserved.
theorem roundTrip_iff (cs : List Char) (hm : ∀ c ∈ cs, Mapped c) (s : Memory)
    (hs : Stored s 0 (bytes cs ++ [0])) (maxChars maxBytes : Nat) (hc : cs.length < maxChars)
    (hb : (bytes cs).length < maxBytes) :
    tcToUtf8String (utf8ToTcString s maxChars).val maxBytes = bytes cs ↔
      ∀ c ∈ cs, ¬Collides c := by
  have hcodes : (utf8ToTcString s maxChars).val = cs.map fun c => codeOf c.toNat := by
    rw [utf8ToTcString, if_neg (by omega), utf8ToTcLoop_encode s cs hm 0 _ hs (by omega)]
  have hout : tcToUtf8String (utf8ToTcString s maxChars).val maxBytes =
      cs.flatMap fun c => written (readBack c.toNat) := by
    rw [hcodes, tcToUtf8String, if_neg (by omega), tcToUtf8Loop_codeOf maxBytes cs hm [] (by simpa),
      List.nil_append]
  rw [hout, bytes, flatMap_eq_iff fun c hc => written_length_readBack c (hm c hc)]
  exact forall₂_congr fun c hc => written_readBack_iff c (hm c hc)

theorem roundTrip_iff_mixed :
    tcToUtf8String (utf8ToTcString (ofList (bytes ['a', '№', '字'] ++ [0])) 4).val 8 =
        bytes ['a', '№', '字'] ↔
      ∀ c ∈ ['a', '№', '字'], ¬Collides c :=
  roundTrip_iff ['a', '№', '字'] (by simp [Mapped]) _ (stored_ofList _) 4 8 (by decide) (by decide)

-- The white lenticular bracket comes back as the numero sign, U+8D00 as U+0F00.
theorem roundTrip_collision :
    Mapped '\u3016' ∧ Mapped '\u8D00' ∧
    tcToUtf8String (utf8ToTcString (ofList (bytes ['\u3016', '\u8D00'] ++ [0])) 3).val 7 =
      bytes ['№', '\u0F00'] ∧
    tcToUtf8String (utf8ToTcString (ofList (bytes ['\u3016', '\u8D00'] ++ [0])) 3).val 7 ≠
      bytes ['\u3016', '\u8D00'] := by
  decide

end BTron.TronCode
