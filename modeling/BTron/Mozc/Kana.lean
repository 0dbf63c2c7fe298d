import BTron.Lib.Transducer
import BTron.Mozc
import BTron.TronCode.Chars

namespace BTron.Mozc

open Lib Lib.Utf8 TronCode
open String (utf8EncodeChar)

-- The characters that mozc_hiragana_to_katakana and mozc_katakana_to_hiragana shift, and the second
-- bytes they look for.
structure KanaShift where
  second : UB
  second' : UB
  lo : Nat
  hi : Nat
  shift : Nat → Nat
  block : ∀ n, lo ≤ n → n ≤ hi →
    0x3000 ≤ n ∧ n < 0x4000 ∧ 0x3000 ≤ shift n ∧ shift n < 0x4000 ∧
      (UInt8.ofNat (0x80 + n / 64 % 64) = second ∨ UInt8.ofNat (0x80 + n / 64 % 64) = second')

def toKatakanaShift : KanaShift where
  second := 0x81
  second' := 0x82
  lo := 0x3041
  hi := 0x3096
  shift := (· + 0x60)
  block := by
    intro n hlo hhi
    have hmid : n / 64 % 64 = 1 ∨ n / 64 % 64 = 2 := by omega
    refine ⟨by omega, by omega, by omega, by omega, ?_⟩
    obtain h | h := hmid
    · exact .inl (by rw [h]; rfl)
    · exact .inr (by rw [h]; rfl)

def toHiraganaShift : KanaShift where
  second := 0x82
  second' := 0x83
  lo := 0x30A1
  hi := 0x30F6
  shift := (· - 0x60)
  block := by
    intro n hlo hhi
    have hmid : n / 64 % 64 = 2 ∨ n / 64 % 64 = 3 := by omega
    refine ⟨by omega, by omega, by omega, by omega, ?_⟩
    obtain h | h := hmid
    · exact .inl (by rw [h]; rfl)
    · exact .inr (by rw [h]; rfl)

-- A sequence to shift at address `i`:
def KanaShift.Found (k : KanaShift) (p : Memory) (i : Nat) : Prop :=
  p i = 0xE3 ∧ (p (i + 1) = k.second ∨ p (i + 1) = k.second') ∧
    k.lo ≤ threeByteChar p i ∧ threeByteChar p i ≤ k.hi

instance (k : KanaShift) (p : Memory) (i : Nat) : Decidable (k.Found p i) :=
  inferInstanceAs (Decidable (_ ∧ _))

-- The loop of both functions; every turn writes a byte.
def kanaLoop (k : KanaShift) (p : Memory) (maxLen : Nat) : Nat → Nat → List UB → List UB
  | 0, _, out => out
  | fuel + 1, i, out =>
    if ¬(p i ≠ 0 ∧ out.length + 4 < maxLen) then out
    else if k.Found p i then
      kanaLoop k p maxLen fuel (i + 3) (out ++ threeBytes (k.shift (threeByteChar p i)))
    else kanaLoop k p maxLen fuel (i + 1) (out ++ [p i])

theorem katakanaLoop_eq (p : Memory) (maxLen fuel i : Nat) (out : List UB) :
    katakanaLoop p maxLen fuel i out = kanaLoop toKatakanaShift p maxLen fuel i out := by
  induction fuel generalizing i out with
  | zero => rfl
  | succ fuel ih =>
      rw [katakanaLoop, kanaLoop, ih, ih]
      rfl

def katakanaToHiragana (behind : Memory) (katakana : List UB) (maxLen : Nat) : List UB :=
  kanaLoop toHiraganaShift (inMemory katakana behind) maxLen maxLen 0 []

namespace KanaShift

variable (k : KanaShift)

def Within (c : Char) : Prop := k.lo ≤ c.toNat ∧ c.toNat ≤ k.hi

instance : DecidablePred k.Within := fun _ => inferInstanceAs (Decidable (_ ∧ _))

def char (c : Char) : Char := if k.Within c then Char.ofNat (k.shift c.toNat) else c

-- The texts of a character in turn: a shifted one is written whole, another one byte by byte.
def texts (c : Char) : List (List UB) :=
  if k.Within c then [utf8EncodeChar (k.char c)] else (utf8EncodeChar c).map ([·])

end KanaShift

-- The block the first byte 0xE3 stands for.
def IsE3 (c : Char) : Prop := 0x3000 ≤ c.toNat ∧ c.toNat < 0x4000

instance : DecidablePred IsE3 := fun _ => inferInstanceAs (Decidable (_ ∧ _))

theorem encode_lead (c : Char) : ∃ b bs, utf8EncodeChar c = b :: bs ∧ (b = 0xE3 ↔ IsE3 c) ∧
    ∀ x ∈ bs, x ≠ 0xE3 := by
  have hne : ∀ n m, n < 256 → n ≠ m → m < 256 → UInt8.ofNat n ≠ UInt8.ofNat m := by
    intro n m hn hnm hm h
    have hnat := congrArg UInt8.toNat h
    rw [UInt8.toNat_ofNat_of_lt' hn, UInt8.toNat_ofNat_of_lt' hm] at hnat
    exact hnm hnat
  unfold IsE3
  by_cases h1 : c.toNat < 0x80
  · rw [encode_one h1]
    refine ⟨_, _, rfl, ?_, by simp⟩
    exact iff_of_false (hne _ 0xE3 (by omega) (by omega) (by decide)) (by omega)
  by_cases h2 : c.toNat < 0x800
  · rw [encode_two (by omega) h2]
    refine ⟨_, _, rfl, ?_, ?_⟩
    · exact iff_of_false (hne _ 0xE3 (by omega) (by omega) (by decide)) (by omega)
    · intro x hx
      rw [List.mem_singleton.mp hx]
      exact hne _ 0xE3 (by omega) (by omega) (by decide)
  by_cases h3 : c.toNat < 0x10000
  · rw [encode_three (by omega) h3]
    refine ⟨_, _, rfl, ?_, ?_⟩
    · by_cases heq : 0xE0 + c.toNat / 4096 = 0xE3
      · exact iff_of_true (by rw [heq]; rfl) (by omega)
      · exact iff_of_false (hne _ 0xE3 (by omega) heq (by decide)) (by omega)
    · intro x hx
      simp only [List.mem_cons, List.not_mem_nil, or_false] at hx
      rcases hx with rfl | rfl <;> exact hne _ 0xE3 (by omega) (by omega) (by decide)
  · rw [encode_four (by omega)]
    refine ⟨_, _, rfl, ?_, ?_⟩
    · exact iff_of_false (hne _ 0xE3 (by omega) (by omega) (by decide)) (by omega)
    · intro x hx
      simp only [List.mem_cons, List.not_mem_nil, or_false] at hx
      rcases hx with rfl | rfl | rfl <;> exact hne _ 0xE3 (by omega) (by omega) (by decide)

theorem encode_length_three {c : Char} (h : IsE3 c) : (utf8EncodeChar c).length = 3 := by
  obtain ⟨hlo, hhi⟩ := h
  rw [encode_three (by omega) (by omega)]
  rfl

theorem threeByteChar_eq {p : Memory} {i : Nat} {c : Char} (h : IsE3 c)
    (hp : Stored p i (utf8EncodeChar c)) : threeByteChar p i = c.toNat := by
  obtain ⟨hlo, hhi⟩ := h
  rw [encode_three (by omega) (by omega)] at hp
  simp only [stored_cons] at hp
  obtain ⟨h0, h1, h2, -⟩ := hp
  rw [threeByteChar, h0, h1, h2]
  conv_rhs => rw [← three_bits c.toNat (by omega)]
  rw [Nat.shiftLeft_or_distrib, ← Nat.shiftLeft_add]

theorem toNat_ofNat {n : Nat} (h : n < 0x4000) : (Char.ofNat n).toNat = n := by
  have hvalid : n.isValidChar := .inl (by omega)
  rw [Char.ofNat, dif_pos hvalid]
  rfl

-- The bytes of a text that is copied byte by byte.
theorem kanaLoop_raw {k : KanaShift} {p : Memory} {maxLen : Nat} {ts : List (List UB)}
    (bs : List UB) {fuel i : Nat} {out : List UB} (hp : Stored p i bs) (h0 : ∀ b ∈ bs, b ≠ 0)
    (hraw : ∀ j < bs.length, ¬k.Found p (i + j))
    (hfuel : maxLen ≤ fuel + out.length)
    (hrest : ∀ fuel out, maxLen ≤ fuel + out.length →
      kanaLoop k p maxLen fuel (i + bs.length) out = emit 4 maxLen ts out) :
    kanaLoop k p maxLen fuel i out = emit 4 maxLen (bs.map ([·]) ++ ts) out := by
  induction bs generalizing fuel i out with
  | nil => exact hrest fuel out hfuel
  | cons b bs ih =>
      rw [stored_cons] at hp
      rw [List.map_cons, List.cons_append, emit]
      cases fuel with
      | zero => rw [kanaLoop, if_neg (by omega)]
      | succ fuel =>
          by_cases hguard : out.length + 4 < maxLen
          · have hne : p i ≠ 0 := hp.1 ▸ h0 b List.mem_cons_self
            have hfit : out.length + [b].length < maxLen := by
              rw [List.length_singleton]
              omega
            have hfirst : ¬k.Found p i := hraw 0 (Nat.succ_pos _)
            rw [kanaLoop, if_neg (not_not.mpr ⟨hne, hguard⟩), if_neg hfirst, if_pos hguard,
              if_pos hfit, hp.1]
            apply ih hp.2 fun b hb => h0 b (List.mem_cons_of_mem _ hb)
            · intro j hj
              have hshift : i + 1 + j = i + (j + 1) := by omega
              rw [hshift]
              exact hraw (j + 1) (by simpa using hj)
            · rw [List.length_append, List.length_singleton]
              omega
            · intro fuel out hfuel
              have hlen : i + 1 + bs.length = i + (b :: bs).length := by
                rw [List.length_cons]
                omega
              rw [hlen]
              exact hrest fuel out hfuel
          · rw [kanaLoop, if_pos (fun hand => hguard hand.2), if_neg hguard]

namespace KanaShift

variable {k : KanaShift} {p : Memory} {i : Nat} {c : Char}

theorem isE3 (h : k.Within c) : IsE3 c :=
  ⟨(k.block c.toNat h.1 h.2).1, (k.block c.toNat h.1 h.2).2.1⟩

theorem char_toNat (h : k.Within c) : (k.char c).toNat = k.shift c.toNat := by
  rw [char, if_pos h, toNat_ofNat (k.block c.toNat h.1 h.2).2.2.2.1]

theorem char_isE3 (h : k.Within c) : IsE3 (k.char c) := by
  rw [IsE3, char_toNat h]
  exact ⟨(k.block c.toNat h.1 h.2).2.2.1, (k.block c.toNat h.1 h.2).2.2.2.1⟩

theorem threeBytes_char (h : k.Within c) :
    threeBytes (k.shift c.toNat) = utf8EncodeChar (k.char c) := by
  obtain ⟨hlo, hhi⟩ := char_isE3 h
  rw [encode_eq_written _ (by omega), char_toNat h]
  rw [char_toNat h] at hlo hhi
  exact threeBytes_eq _ (by omega) (by omega)

-- The test of the loop at a character.
theorem found_iff (hp : Stored p i (utf8EncodeChar c)) : k.Found p i ↔ k.Within c := by
  obtain ⟨b, bs, henc, hlead, -⟩ := encode_lead c
  have hb : p i = b := by
    rw [henc, stored_cons] at hp
    exact hp.1
  constructor
  · rintro ⟨h3, -, hlo, hhi⟩
    rw [threeByteChar_eq (hlead.mp (hb ▸ h3)) hp] at hlo hhi
    exact ⟨hlo, hhi⟩
  · intro h
    have hE3 := isE3 h
    refine ⟨hb ▸ hlead.mpr hE3, ?_, ?_⟩
    · have hsecond := (k.block c.toNat h.1 h.2).2.2.2.2
      rw [encode_three (by have := hE3.1; omega) (by have := hE3.2; omega), stored_cons,
        stored_cons] at hp
      rwa [hp.2.1]
    · rwa [threeByteChar_eq hE3 hp]

end KanaShift

-- The loop on a string: the texts of its characters one after another.
theorem kanaLoop_texts {k : KanaShift} {p : Memory} {maxLen : Nat} {cs : List Char}
    {fuel i : Nat} {out : List UB} (hp : TextAt p i cs) (h0 : ∀ c ∈ cs, 0 < c.toNat)
    (hfuel : maxLen ≤ fuel + out.length) :
    kanaLoop k p maxLen fuel i out = emit 4 maxLen (cs.flatMap k.texts) out := by
  induction cs generalizing fuel i out with
  | nil =>
      have hend : p i = 0 := by simpa using hp.terminator
      cases fuel with
      | zero => rfl
      | succ fuel => rw [kanaLoop, if_pos (fun hand => hand.1 hend)]; rfl
  | cons c cs ih =>
      obtain ⟨hc, hcs⟩ := textAt_cons.mp hp
      have hrest := fun fuel out hfuel => @ih fuel _ out hcs
        (fun d hd => h0 d (List.mem_cons_of_mem _ hd)) hfuel
      have hpos := h0 c List.mem_cons_self
      rw [List.flatMap_cons]
      by_cases hwithin : k.Within c
      · rw [KanaShift.texts, if_pos hwithin, List.singleton_append, emit]
        have hlen := encode_length_three (KanaShift.char_isE3 hwithin)
        cases fuel with
        | zero => rw [kanaLoop, if_neg (by omega)]
        | succ fuel =>
            by_cases hguard : out.length + 4 < maxLen
            · rw [kanaLoop, if_neg (not_not.mpr ⟨head_ne_zero hpos hc, hguard⟩),
                if_pos ((KanaShift.found_iff hc).mpr hwithin), if_pos hguard, if_pos (by omega),
                threeByteChar_eq (KanaShift.isE3 hwithin) hc, KanaShift.threeBytes_char hwithin]
              rw [encode_length_three (KanaShift.isE3 hwithin)] at hrest
              exact hrest _ _ (by rw [List.length_append]; omega)
            · rw [kanaLoop, if_pos (fun hand => hguard hand.2), if_neg hguard]
      · rw [KanaShift.texts, if_neg hwithin]
        apply kanaLoop_raw _ hc (fun b hb => encode_ne_zero hpos hb) _ hfuel hrest
        intro j hj hfound
        obtain ⟨b, bs, henc, -, hcont⟩ := encode_lead c
        cases j with
        | zero => exact hwithin ((KanaShift.found_iff hc).mp hfound)
        | succ j =>
            have hcell := hc (j + 1) hj
            rw [hfound.1] at hcell
            simp only [henc, List.getElem_cons_succ] at hcell
            exact hcont _ (List.getElem_mem _) hcell.symm

theorem inMemory_stored (s : List UB) (behind : Memory) :
    Stored (inMemory s behind) 0 (s ++ [0]) := by
  intro j hj
  rw [List.length_append, List.length_singleton] at hj
  rw [Nat.zero_add, inMemory]
  by_cases hlt : j < s.length
  · rw [if_pos hlt, List.getElem_append_left hlt, List.getD_eq_getElem _ _ hlt]
  · rw [if_neg hlt, if_pos (by omega), List.getElem_append_right (by omega)]
    simp

theorem inMemory_textAt (cs : List Char) (behind : Memory) :
    TextAt (inMemory (bytes cs) behind) 0 cs := inMemory_stored (bytes cs) behind

section Complete

variable {k : KanaShift} {cs : List Char} {maxLen : Nat}

theorem texts_ne_nil (cs : List Char) : [] ∉ cs.flatMap k.texts := by
  intro hmem
  obtain ⟨c, -, hc⟩ := List.mem_flatMap.mp hmem
  unfold KanaShift.texts at hc
  split at hc
  · exact List.length_pos_iff.mp (encode_length_pos _) (List.mem_singleton.mp hc).symm
  · obtain ⟨b, -, hb⟩ := List.mem_map.mp hc
    exact absurd hb (List.cons_ne_nil b [])

theorem flatten_singletons {α : Type*} (l : List α) : (l.map ([·])).flatten = l := by
  induction l with
  | nil => rfl
  | cons a l ih => rw [List.map_cons, List.flatten_cons, ih, List.singleton_append]

theorem texts_flatten (cs : List Char) : (cs.flatMap k.texts).flatten = bytes (cs.map k.char) := by
  induction cs with
  | nil => rfl
  | cons c cs ih =>
      rw [List.flatMap_cons, List.flatten_append, ih, List.map_cons, bytes_cons]
      congr 1
      unfold KanaShift.texts
      split
      · simp
      · rename_i hwithin
        rw [KanaShift.char, if_neg hwithin, flatten_singletons]

theorem char_length (k : KanaShift) (c : Char) :
    (utf8EncodeChar (k.char c)).length = (utf8EncodeChar c).length := by
  by_cases hwithin : k.Within c
  · rw [encode_length_three (KanaShift.char_isE3 hwithin),
      encode_length_three (KanaShift.isE3 hwithin)]
  · rw [KanaShift.char, if_neg hwithin]

theorem bytes_char_length (k : KanaShift) (cs : List Char) :
    (bytes (cs.map k.char)).length = (bytes cs).length := by
  induction cs with
  | nil => rfl
  | cons c cs ih => rw [List.map_cons, bytes_cons, bytes_cons, List.length_append,
      List.length_append, ih, char_length]

-- The last text is a shifted character or a byte.
theorem texts_dropLast_length (cs : List Char) (c : Char) :
    (((cs ++ [c]).flatMap k.texts).dropLast.flatten).length + (if k.Within c then 3 else 1) =
      (bytes (cs ++ [c])).length := by
  rw [List.flatMap_append, List.flatMap_singleton, bytes_append, List.length_append]
  have hfirst : (cs.flatMap k.texts).flatten.length = (bytes cs).length := by
    rw [texts_flatten, bytes_char_length]
  have hone : (bytes [c]).length = (utf8EncodeChar c).length := by simp
  rw [hone]
  unfold KanaShift.texts at hfirst ⊢
  split
  · rename_i hwithin
    rw [List.dropLast_concat, hfirst, encode_length_three (KanaShift.isE3 hwithin)]
  · have hne : (utf8EncodeChar c).map ([·]) ≠ [] := by
      simp
    rw [List.dropLast_append_of_ne_nil hne, List.flatten_append, List.length_append, hfirst,
      ← List.map_dropLast, flatten_singletons, List.length_dropLast]
    have := encode_length_pos c
    omega

theorem emit_texts_iff (hmax : (bytes cs).length < maxLen) :
    emit 4 maxLen (cs.flatMap k.texts) [] = bytes (cs.map k.char) ↔
      ∀ c ∈ cs.getLast?, (bytes cs).length + (if k.Within c then 1 else 3) < maxLen := by
  have hroom : ([] : List UB).length + (cs.flatMap k.texts).flatten.length < maxLen := by
    rwa [texts_flatten, bytes_char_length, List.length_nil, Nat.zero_add]
  have hiff := (@emit_eq_iff _ 4 maxLen _ [] (texts_ne_nil cs) hroom).trans
    (fits_iff (texts_ne_nil cs) hroom)
  rw [List.nil_append, List.length_nil, Nat.zero_add, texts_flatten] at hiff
  rw [hiff]
  obtain rfl | ⟨init, c, rfl⟩ := List.eq_nil_or_concat' cs
  · simp
  · have hlast := @texts_dropLast_length k init c
    have hne : (init ++ [c]).flatMap k.texts ≠ [] := by
      intro hnil
      have hflat := congrArg List.length (@texts_flatten k (init ++ [c]))
      have hpos := encode_length_pos c
      rw [hnil, bytes_char_length, bytes_append, List.length_append] at hflat
      simp only [List.flatten_nil, List.length_nil, bytes_cons, bytes_nil, List.append_nil] at hflat
      omega
    rw [List.getLast?_concat]
    simp only [hne, false_or, Option.mem_some_iff, forall_eq']
    split at hlast <;> rename_i hwithin
    · rw [if_pos hwithin]
      omega
    · rw [if_neg hwithin]
      omega

end Complete

def toKatakana (c : Char) : Char := toKatakanaShift.char c

def IsHiragana (c : Char) : Prop := toKatakanaShift.Within c

def IsKatakana (c : Char) : Prop := toHiraganaShift.Within c

instance : DecidablePred IsHiragana := fun c =>
  inferInstanceAs (Decidable (toKatakanaShift.Within c))

instance : DecidablePred IsKatakana := fun c =>
  inferInstanceAs (Decidable (toHiraganaShift.Within c))

section Claim

variable {cs : List Char} {maxLen : Nat}

theorem hiraganaToKatakana_eq (h0 : ∀ c ∈ cs, 0 < c.toNat) (behind : Memory) (maxLen : Nat) :
    hiraganaToKatakana behind (bytes cs) maxLen =
      emit 4 maxLen (cs.flatMap toKatakanaShift.texts) [] := by
  rw [hiraganaToKatakana, katakanaLoop_eq]
  exact kanaLoop_texts (inMemory_textAt cs behind) h0 (Nat.le_refl _)

theorem katakanaToHiragana_eq (h0 : ∀ c ∈ cs, 0 < c.toNat) (behind : Memory) (maxLen : Nat) :
    katakanaToHiragana behind (bytes cs) maxLen =
      emit 4 maxLen (cs.flatMap toHiraganaShift.texts) [] :=
  kanaLoop_texts (inMemory_textAt cs behind) h0 (Nat.le_refl _)

theorem toKatakana_of_not {c : Char} (h : ¬IsHiragana c) : toKatakana c = c := if_neg h

theorem isKatakana_toKatakana {c : Char} (h : ¬IsKatakana c) :
    IsKatakana (toKatakana c) ↔ IsHiragana c := by
  by_cases hh : IsHiragana c
  · refine iff_of_true ?_ hh
    obtain ⟨hlo, hhi⟩ := hh
    rw [IsKatakana, KanaShift.Within, toKatakana, KanaShift.char_toNat ⟨hlo, hhi⟩]
    simp only [toKatakanaShift, toHiraganaShift] at hlo hhi ⊢
    omega
  · rw [toKatakana_of_not hh]
    exact iff_of_false h hh

theorem toHiragana_toKatakana {c : Char} (h : ¬IsKatakana c) :
    toHiraganaShift.char (toKatakana c) = c := by
  by_cases hh : IsHiragana c
  · have hk := (isKatakana_toKatakana h).mpr hh
    have hround : toHiraganaShift.shift (toKatakana c).toNat = c.toNat := by
      rw [toKatakana, KanaShift.char_toNat hh]
      exact Nat.add_sub_cancel ..
    have hnat := (KanaShift.char_toNat hk).trans hround
    rw [← Char.ofNat_toNat (toHiraganaShift.char (toKatakana c)), hnat, Char.ofNat_toNat]
  · rw [toKatakana_of_not hh]
    exact if_neg h

theorem toKatakana_pos {c : Char} (h : 0 < c.toNat) : 0 < (toKatakana c).toNat := by
  by_cases hh : IsHiragana c
  · have hlo := (KanaShift.char_isE3 hh).1
    exact Nat.lt_of_lt_of_le (by decide) hlo
  · rwa [toKatakana_of_not hh]

-- A string is converted whole, and back, if and only if its last hiragana or its last byte starts
-- before the last 4 cells.
theorem hiraganaToKatakana_complete_iff (h0 : ∀ c ∈ cs, 0 < c.toNat)
    (hmax : (bytes cs).length < maxLen) (behind behind' : Memory) :
    (hiraganaToKatakana behind (bytes cs) maxLen = bytes (cs.map toKatakana) ∧
      ((∀ c ∈ cs, ¬IsKatakana c) →
        katakanaToHiragana behind' (hiraganaToKatakana behind (bytes cs) maxLen) maxLen =
          bytes cs)) ↔
      ∀ c ∈ cs.getLast?, (bytes cs).length + (if IsHiragana c then 1 else 3) < maxLen := by
  have hthere := @emit_texts_iff toKatakanaShift cs maxLen hmax
  rw [← hiraganaToKatakana_eq h0 behind] at hthere
  refine ⟨fun h => hthere.mp h.1, fun hlast => ?_⟩
  have hkatakana : hiraganaToKatakana behind (bytes cs) maxLen = bytes (cs.map toKatakana) :=
    hthere.mpr hlast
  refine ⟨hkatakana, fun hnone => ?_⟩
  have hpos : ∀ c ∈ cs.map toKatakana, 0 < c.toNat := by
    intro c hc
    obtain ⟨d, hd, rfl⟩ := List.mem_map.mp hc
    exact toKatakana_pos (h0 d hd)
  have hlen : (bytes (cs.map toKatakana)).length = (bytes cs).length := bytes_char_length _ cs
  have hback := (@emit_texts_iff toHiraganaShift (cs.map toKatakana) maxLen (by omega)).mpr
  rw [← katakanaToHiragana_eq hpos behind', ← hkatakana, List.map_map, hkatakana] at hback
  rw [hkatakana, hback]
  · congr 1
    have hsame := List.map_congr_left fun c hc => toHiragana_toKatakana (hnone c hc)
    exact hsame.trans (List.map_id cs)
  · intro c hc
    rw [List.getLast?_map] at hc
    obtain ⟨d, hd, rfl⟩ := Option.map_eq_some_iff.mp hc
    have hiff := isKatakana_toKatakana (hnone d (List.mem_of_getLast? hd))
    rw [hlen]
    have hfit := hlast d hd
    change _ + (if IsKatakana (toKatakana d) then 1 else 3) < _
    simpa only [hiff] using hfit

theorem hiraganaToKatakana_complete_a :
    hiraganaToKatakana (fun _ => 0) (bytes ['あ']) 5 = bytes (['あ'].map toKatakana) :=
  ((@hiraganaToKatakana_complete_iff ['あ'] 5 (by decide) (by decide) (fun _ => 0)
    (fun _ => 0)).mpr (by decide)).1

-- One kana in a buffer of 4 bytes is not converted.
theorem hiraganaToKatakana_incomplete :
    ¬∀ (cs : List Char) (maxLen : Nat) (behind : Memory), (∀ c ∈ cs, 0 < c.toNat) →
      (bytes cs).length < maxLen →
      hiraganaToKatakana behind (bytes cs) maxLen = bytes (cs.map toKatakana) := by
  intro h
  have hkana := h ['あ'] 4 (fun _ => 0) (by decide) (by decide)
  revert hkana
  decide

end Claim

end BTron.Mozc
