import BTron.Mozc.Kana

namespace BTron.Mozc

open Lib Lib.Logged Lib.Utf8 TronCode
open String (utf8EncodeChar)

-- The loop of mozc_hiragana_to_katakana with the cells of the hiragana it reads.
def katakanaReads (p : Memory) (maxLen : Nat) : Nat → Nat → List UB → Logged (List UB)
  | 0, i, out => do
    let _ ← read p i
    pure out
  | fuel + 1, i, out => do
    let first ← read p i
    if ¬(first ≠ 0 ∧ out.length + 4 < maxLen) then pure out
    else if first = 0xE3 then do
      let second ← read p (i + 1)
      if second = 0x81 ∨ second = 0x82 then do
        let _ ← read p (i + 2)
        if 0x3041 ≤ threeByteChar p i ∧ threeByteChar p i ≤ 0x3096 then
          katakanaReads p maxLen fuel (i + 3) (out ++ threeBytes (threeByteChar p i + 0x60))
        else katakanaReads p maxLen fuel (i + 1) (out ++ [first])
      else katakanaReads p maxLen fuel (i + 1) (out ++ [first])
    else katakanaReads p maxLen fuel (i + 1) (out ++ [first])

-- The loop of mozc_hiragana_to_halfwidth_katakana with the cells of kata_buf it reads.
def halfwidthReads (p : Memory) (maxLen : Nat) : Nat → Nat → List UB → Logged (List UB)
  | 0, i, out => do
    let _ ← read p i
    pure out
  | fuel + 1, i, out => do
    let first ← read p i
    if ¬(first ≠ 0 ∧ out.length + 6 < maxLen) then pure out
    else if first = 0xE3 then do
      let _ ← read p (i + 1)
      let _ ← read p (i + 2)
      match halfwidthTable.find? fun e => e.1 = threeByteChar p i with
      | some (_, hk) => halfwidthReads p maxLen fuel (i + 3) (put maxLen out hk)
      | none => do
        let behind ← read p (i + 3)
        halfwidthReads p maxLen fuel (i + 4) (out ++ [behind])
    else halfwidthReads p maxLen fuel (i + 1) (out ++ [first])

theorem katakanaReads_val (p : Memory) (maxLen fuel i : Nat) (out : List UB) :
    (katakanaReads p maxLen fuel i out).val = katakanaLoop p maxLen fuel i out := by
  induction fuel generalizing i out with
  | zero => rfl
  | succ fuel ih =>
      rw [katakanaReads, katakanaLoop, val_read_bind]
      by_cases hgo : p i ≠ 0 ∧ out.length + 4 < maxLen
      · rw [if_neg (not_not.mpr hgo), if_neg (not_not.mpr hgo)]
        by_cases hE3 : p i = 0xE3
        · rw [if_pos hE3, val_read_bind]
          by_cases hsecond : p (i + 1) = 0x81 ∨ p (i + 1) = 0x82
          · rw [if_pos hsecond, val_read_bind]
            by_cases hrange : 0x3041 ≤ threeByteChar p i ∧ threeByteChar p i ≤ 0x3096
            · rw [if_pos hrange, if_pos ⟨hE3, hsecond, hrange⟩, ih]
            · rw [if_neg hrange, if_neg (fun hand => hrange hand.2.2), ih]
          · rw [if_neg hsecond, if_neg (fun hand => hsecond hand.2.1), ih]
        · rw [if_neg hE3, if_neg (fun hand => hE3 hand.1), ih]
      · rw [if_pos hgo, if_pos hgo, val_pure]

theorem halfwidthReads_val (p : Memory) (maxLen fuel i : Nat) (out : List UB) :
    (halfwidthReads p maxLen fuel i out).val = halfwidthLoop p maxLen fuel i out := by
  induction fuel generalizing i out with
  | zero => rfl
  | succ fuel ih =>
      rw [halfwidthReads, halfwidthLoop, val_read_bind]
      by_cases hgo : p i ≠ 0 ∧ out.length + 6 < maxLen
      · rw [if_neg (not_not.mpr hgo), if_neg (not_not.mpr hgo)]
        by_cases hE3 : p i = 0xE3
        · rw [if_pos hE3, if_pos hE3, val_read_bind, val_read_bind]
          cases halfwidthTable.find? fun e => e.1 = threeByteChar p i with
          | none =>
              dsimp only
              rw [val_read_bind, ih]
          | some e => exact ih _ _
        · rw [if_neg hE3, if_neg hE3, ih]
      · rw [if_pos hgo, if_pos hgo, val_pure]

section Katakana

variable {p : Memory} {maxLen i bound : Nat} {out : List UB}

-- Behind every lead byte of the block two more bytes follow in the string.
theorem katakanaReads_within (hlead : ∀ j < bound, p j = 0xE3 → j + 3 ≤ bound)
    (hend : p bound = 0) (hi : i ≤ bound) (fuel : Nat) :
    Within (· ≤ bound) (katakanaReads p maxLen fuel i out) := by
  induction fuel generalizing i out with
  | zero => simpa [katakanaReads] using hi
  | succ fuel ih =>
      rw [katakanaReads, within_read_bind, within_ite, within_ite]
      refine ⟨hi, fun _ => within_pure out, fun hgo => ?_⟩
      have hlt : i < bound := by
        obtain hlt | rfl := Nat.lt_or_eq_of_le hi
        · exact hlt
        · exact absurd hend (not_not.mp hgo).1
      refine ⟨fun hE3 => ?_, fun _ => ih (by omega)⟩
      have hthree := hlead i hlt hE3
      rw [within_read_bind, within_ite]
      refine ⟨by omega, fun _ => ?_, fun _ => ih (by omega)⟩
      rw [within_read_bind, within_ite]
      exact ⟨by omega, fun _ => ih (by omega), fun _ => ih (by omega)⟩

theorem textAt_lead {cs : List Char} (h : TextAt p i cs) :
    ∀ j < i + (bytes cs).length, i ≤ j → p j = 0xE3 → j + 3 ≤ i + (bytes cs).length := by
  induction cs generalizing i with
  | nil =>
      intro j hlt hle
      simp at hlt
      omega
  | cons c cs ih =>
      intro j hlt hle hE3
      obtain ⟨hc, hcs⟩ := textAt_cons.mp h
      rw [bytes_cons, List.length_append] at hlt ⊢
      by_cases hin : j < i + (utf8EncodeChar c).length
      · obtain ⟨b, bs, henc, hlead, hcont⟩ := encode_lead c
        have hcell := hc (j - i) (by omega)
        rw [Nat.add_sub_cancel' hle, hE3] at hcell
        by_cases hfirst : j = i
        · subst hfirst
          simp only [henc, Nat.sub_self, List.getElem_cons_zero] at hcell
          rw [encode_length_three (hlead.mp hcell.symm)]
          omega
        · obtain ⟨k, hk⟩ : ∃ k, j - i = k + 1 := ⟨j - i - 1, by omega⟩
          simp only [henc, hk, List.getElem_cons_succ] at hcell
          exact absurd hcell.symm (hcont _ (List.getElem_mem _))
      · have hrest := ih hcs j (by omega) (by omega) hE3
        omega

end Katakana

-- The halfwidth form of a katakana:
def half (c : Char) : Option (List UB) :=
  (halfwidthTable.find? fun e => e.1 = c.toNat).map (·.2)

def Unmapped (c : Char) : Prop := IsE3 c ∧ half c = none

instance : DecidablePred Unmapped := fun _ => inferInstanceAs (Decidable (_ ∧ _))

theorem halfwidthTable_form : ∀ e ∈ halfwidthTable,
    0x3000 ≤ e.1 ∧ e.1 < 0x4000 ∧ 3 ≤ e.2.length ∧ e.2.length ≤ 6 ∧ 0 ∉ e.2 := by
  decide +kernel

theorem half_spec {c : Char} {hk : List UB} (h : half c = some hk) :
    IsE3 c ∧ 3 ≤ hk.length ∧ hk.length ≤ 6 ∧ 0 ∉ hk := by
  obtain ⟨e, hfind, rfl⟩ := Option.map_eq_some_iff.mp h
  have hcode : e.1 = c.toNat := by simpa using (List.find?_eq_some_iff_append.mp hfind).1
  obtain ⟨hlo, hhi, hlen⟩ := halfwidthTable_form e (List.mem_of_find?_eq_some hfind)
  rw [hcode] at hlo hhi
  exact ⟨⟨hlo, hhi⟩, hlen⟩

section Halfwidth

variable {p : Memory} {maxLen fuel i bound : Nat} {out : List UB}

theorem halfwidth_start (h : Within (· ≤ bound) (halfwidthReads p maxLen fuel i out)) :
    i ≤ bound := by
  cases fuel with
  | zero => simpa [halfwidthReads] using h
  | succ fuel =>
      rw [halfwidthReads, within_read_bind] at h
      exact h.1

theorem halfwidth_end (h : p i = 0) : halfwidthReads p maxLen fuel i out = ⟨out, [i]⟩ := by
  cases fuel with
  | zero => rfl
  | succ fuel =>
      apply Logged.ext
      · rw [halfwidthReads, val_read_bind, if_pos (fun hand => hand.1 h)]
        rfl
      · rw [halfwidthReads, log_bind, val_read, if_pos (fun hand => hand.1 h)]
        rfl

-- Bytes that start no sequence of the block are copied.
theorem halfwidth_bytes (bs : List UB) (hp : Stored p i bs) (hbytes : ∀ b ∈ bs, b ≠ 0 ∧ b ≠ 0xE3)
    (hroom : out.length + bs.length + 6 ≤ maxLen) (hi : i + bs.length ≤ bound) :
    (halfwidthReads p maxLen (fuel + bs.length) i out).val =
        (halfwidthReads p maxLen fuel (i + bs.length) (out ++ bs)).val ∧
      (Within (· ≤ bound) (halfwidthReads p maxLen (fuel + bs.length) i out) ↔
        Within (· ≤ bound) (halfwidthReads p maxLen fuel (i + bs.length) (out ++ bs))) := by
  induction bs generalizing i out with
  | nil => simp
  | cons b bs ih =>
      obtain ⟨hb, hbs⟩ := (stored_cons ..).mp hp
      obtain ⟨h0, h3⟩ := hbytes b List.mem_cons_self
      rw [List.length_cons] at hroom hi ⊢
      have hgo : p i ≠ 0 ∧ out.length + 6 < maxLen := ⟨hb ▸ h0, by omega⟩
      have hrest := @ih (i + 1) (out ++ [b]) hbs (fun x hx => hbytes x (List.mem_cons_of_mem b hx))
        (by rw [List.length_append, List.length_singleton]; omega) (by omega)
      have hsum : i + 1 + bs.length = i + (bs.length + 1) := by omega
      rw [List.append_assoc, List.singleton_append, hsum] at hrest
      rw [← Nat.add_assoc, halfwidthReads, val_read_bind, within_read_bind,
        if_neg (not_not.mpr hgo), if_neg (hb ▸ h3), hb, hrest.1, hrest.2]
      exact ⟨rfl, and_iff_right (by omega)⟩

-- A sequence with a halfwidth form, and one without.
theorem halfwidth_mapped {hk : List UB} (hE3 : p i = 0xE3)
    (hfind : ((halfwidthTable.find? fun e => e.1 = threeByteChar p i).map (·.2)) = some hk)
    (hroom : out.length + 6 < maxLen) (hlen : hk.length ≤ 6) (hi : i + 3 ≤ bound) :
    (halfwidthReads p maxLen (fuel + 1) i out).val =
        (halfwidthReads p maxLen fuel (i + 3) (out ++ hk)).val ∧
      (Within (· ≤ bound) (halfwidthReads p maxLen (fuel + 1) i out) ↔
        Within (· ≤ bound) (halfwidthReads p maxLen fuel (i + 3) (out ++ hk))) := by
  obtain ⟨e, he, rfl⟩ := Option.map_eq_some_iff.mp hfind
  have hgo : p i ≠ 0 ∧ out.length + 6 < maxLen := ⟨by rw [hE3]; decide, hroom⟩
  have hput : put maxLen out e.2 = out ++ e.2 := if_pos (by omega)
  rw [halfwidthReads, val_read_bind, within_read_bind, if_neg (not_not.mpr hgo), if_pos hE3,
    he, val_read_bind, val_read_bind, within_read_bind, within_read_bind]
  dsimp only
  rw [hput]
  exact ⟨rfl, fun h => h.2.2.2, fun h => ⟨by omega, by omega, by omega, h⟩⟩

theorem halfwidth_unmapped (hE3 : p i = 0xE3)
    (hfind : ((halfwidthTable.find? fun e => e.1 = threeByteChar p i).map (·.2)) = none)
    (hroom : out.length + 6 < maxLen) :
    (halfwidthReads p maxLen (fuel + 1) i out).val =
        (halfwidthReads p maxLen fuel (i + 4) (out ++ [p (i + 3)])).val ∧
      (Within (· ≤ bound) (halfwidthReads p maxLen (fuel + 1) i out) ↔ i + 3 ≤ bound ∧
        Within (· ≤ bound) (halfwidthReads p maxLen fuel (i + 4) (out ++ [p (i + 3)]))) := by
  have hgo : p i ≠ 0 ∧ out.length + 6 < maxLen := ⟨by rw [hE3]; decide, hroom⟩
  rw [halfwidthReads, val_read_bind, within_read_bind, if_neg (not_not.mpr hgo), if_pos hE3,
    Option.map_eq_none_iff.mp hfind, val_read_bind, val_read_bind, within_read_bind,
    within_read_bind]
  dsimp only
  rw [val_read_bind, within_read_bind]
  exact ⟨rfl, fun h => ⟨h.2.2.2.1, h.2.2.2.2⟩,
    fun h => ⟨by omega, by omega, by omega, h.1, h.2⟩⟩

-- The text of a katakana, or of another character:
def halfOf (c : Char) : List UB := (half c).getD (utf8EncodeChar c)

theorem halfOf_length (c : Char) : (utf8EncodeChar c).length ≤ (halfOf c).length ∧
    (halfOf c).length ≤ 2 * (utf8EncodeChar c).length := by
  unfold halfOf
  cases h : half c with
  | none =>
      rw [Option.getD_none]
      omega
  | some hk =>
      obtain ⟨hE3, hlo, hhi, -⟩ := half_spec h
      rw [Option.getD_some, encode_length_three hE3]
      omega

theorem encode_length_le (c : Char) : (utf8EncodeChar c).length ≤ 4 := by
  by_cases h1 : c.toNat < 0x80
  · simp [encode_one h1]
  by_cases h2 : c.toNat < 0x800
  · simp [encode_two (by omega) h2]
  by_cases h3 : c.toNat < 0x10000
  · simp [encode_three (by omega) h3]
  · simp [encode_four (by omega : 0x10000 ≤ c.toNat)]

-- The bytes behind the first one are copied, and so is the first one outside the block.
theorem encode_rest {c : Char} (hpos : 0 < c.toNat) {b : UB} {bs : List UB}
    (henc : utf8EncodeChar c = b :: bs) : (b = 0xE3 ↔ IsE3 c) ∧ ∀ x ∈ bs, x ≠ 0 ∧ x ≠ 0xE3 := by
  obtain ⟨b', bs', henc', hlead, hcont⟩ := encode_lead c
  obtain ⟨rfl, rfl⟩ := List.cons.inj (henc.symm.trans henc')
  exact ⟨hlead, fun x hx =>
    ⟨encode_ne_zero hpos (henc ▸ List.mem_cons_of_mem b hx), hcont x hx⟩⟩

theorem encode_raw {c : Char} (hpos : 0 < c.toNat) (hE3 : ¬IsE3 c) :
    ∀ x ∈ utf8EncodeChar c, x ≠ 0 ∧ x ≠ 0xE3 := by
  obtain ⟨b, bs, henc, hlead, -⟩ := encode_lead c
  intro x hx
  rw [henc] at hx
  obtain rfl | hx := List.mem_cons.mp hx
  · exact ⟨encode_ne_zero hpos (henc ▸ List.mem_cons_self), fun h => hE3 (hlead.mp h)⟩
  · exact (encode_rest hpos henc).2 x hx

theorem half_at {c : Char} (hE3 : IsE3 c) (hc : Stored p i (utf8EncodeChar c)) :
    p i = 0xE3 ∧
      (halfwidthTable.find? fun e => e.1 = threeByteChar p i).map (·.2) = half c := by
  obtain ⟨b, bs, henc, hlead, -⟩ := encode_lead c
  rw [threeByteChar_eq hE3 hc]
  rw [henc, stored_cons] at hc
  exact ⟨hc.1.trans (hlead.mpr hE3), rfl⟩

-- A character that has a form or lies outside the block:
theorem halfwidth_char {c : Char} (hc : Stored p i (utf8EncodeChar c)) (hpos : 0 < c.toNat)
    (hmap : ¬Unmapped c) (hroom : out.length + 12 ≤ maxLen)
    (hi : i + (utf8EncodeChar c).length ≤ bound) : ∃ f, fuel ≤ f ∧
    (halfwidthReads p maxLen (fuel + (utf8EncodeChar c).length) i out).val =
      (halfwidthReads p maxLen f (i + (utf8EncodeChar c).length) (out ++ halfOf c)).val ∧
    (Within (· ≤ bound) (halfwidthReads p maxLen (fuel + (utf8EncodeChar c).length) i out) ↔
      Within (· ≤ bound)
        (halfwidthReads p maxLen f (i + (utf8EncodeChar c).length) (out ++ halfOf c))) := by
  by_cases hE3 : IsE3 c
  · obtain ⟨hfirst, hfind⟩ := half_at hE3 hc
    have hsome : half c ≠ none := fun h => hmap ⟨hE3, h⟩
    obtain ⟨hk, hform⟩ := Option.ne_none_iff_exists'.mp hsome
    have hlen := encode_length_three hE3
    rw [hlen] at hi ⊢
    rw [halfOf, hform, Option.getD_some]
    exact ⟨fuel + 2, by omega, halfwidth_mapped hfirst (hfind.trans hform) (by omega)
      (half_spec hform).2.2.1 hi⟩
  · have hnone : half c = none := by
      cases h : half c with
      | none => rfl
      | some hk => exact absurd (half_spec h).1 hE3
    have hlen := encode_length_le c
    rw [halfOf, hnone, Option.getD_none]
    exact ⟨fuel, Nat.le_refl fuel,
      halfwidth_bytes _ hc (encode_raw hpos hE3) (by omega) hi⟩

theorem halfwidth_text {cs : List Char} (hp : TextAt p i cs) (hpos : ∀ c ∈ cs, 0 < c.toNat)
    (hmap : ∀ c ∈ cs, ¬Unmapped c) (hroom : out.length + 2 * (bytes cs).length + 12 ≤ maxLen)
    (hfuel : (bytes cs).length ≤ fuel) :
    (halfwidthReads p maxLen fuel i out).val = out ++ cs.flatMap halfOf ∧
      Within (· ≤ i + (bytes cs).length) (halfwidthReads p maxLen fuel i out) := by
  induction cs generalizing fuel i out with
  | nil =>
      have hend : p i = 0 := by simpa using hp.terminator
      rw [halfwidth_end hend]
      exact ⟨by simp, by simp [Within]⟩
  | cons c cs ih =>
      obtain ⟨hc, hcs⟩ := textAt_cons.mp hp
      rw [bytes_cons, List.length_append] at hroom hfuel ⊢
      obtain ⟨f, rfl⟩ : ∃ f, fuel = f + (utf8EncodeChar c).length :=
        ⟨fuel - (utf8EncodeChar c).length, by omega⟩
      obtain ⟨g, hg, hval, hwithin⟩ := @halfwidth_char p maxLen f i
        (i + ((utf8EncodeChar c).length + (bytes cs).length)) out c hc
        (hpos c List.mem_cons_self) (hmap c List.mem_cons_self) (by omega) (by omega)
      have hlen := halfOf_length c
      have hrest := @ih g _ (out ++ halfOf c) hcs (fun d hd => hpos d (List.mem_cons_of_mem c hd))
        (fun d hd => hmap d (List.mem_cons_of_mem c hd)) (by rw [List.length_append]; omega)
        (by omega)
      rw [hval, hwithin, ← Nat.add_assoc, hrest.1, List.flatMap_cons, List.append_assoc]
      exact ⟨rfl, hrest.2⟩

theorem halfwidth_three (hE3 : p i = 0xE3) (hroom : out.length + 6 < maxLen)
    (hin : Within (· ≤ bound) (halfwidthReads p maxLen (fuel + 1) i out)) : i + 3 ≤ bound := by
  have hgo : p i ≠ 0 ∧ out.length + 6 < maxLen := ⟨by rw [hE3]; decide, hroom⟩
  rw [halfwidthReads, within_read_bind, if_neg (not_not.mpr hgo), if_pos hE3, within_read_bind,
    within_read_bind] at hin
  cases hfind : halfwidthTable.find? fun e => e.1 = threeByteChar p i with
  | none =>
      rw [hfind] at hin
      exact ((within_read_bind ..).mp hin.2.2.2).1
  | some e =>
      rw [hfind] at hin
      exact halfwidth_start hin.2.2.2

-- The start of a character that is cut off:
def CutOff (part : List UB) : Prop :=
  part = [] ∨ ∃ c tail, 0 < c.toNat ∧ utf8EncodeChar c = part ++ tail ∧ tail ≠ []

theorem halfwidth_cutOff {part : List UB} (hp : Stored p i (part ++ [0])) (hpart : CutOff part)
    (hroom : out.length + part.length + 7 ≤ maxLen) (hfuel : part.length ≤ fuel)
    (hin : Within (· ≤ i + part.length) (halfwidthReads p maxLen fuel i out)) :
    (halfwidthReads p maxLen fuel i out).val = out ++ part := by
  cases part with
  | nil =>
      have hend : p i = 0 := by simpa using hp
      rw [halfwidth_end hend, List.append_nil]
  | cons b bs =>
      obtain ⟨c, tail, hpos, henc, htail⟩ := hpart.resolve_left (List.cons_ne_nil b bs)
      obtain ⟨hpart', hzero⟩ := (stored_append ..).mp hp
      have hend := ((stored_cons ..).mp hzero).1
      rw [List.cons_append] at henc
      obtain ⟨hlead, hcont⟩ := encode_rest hpos henc
      by_cases hb : b = 0xE3
      -- two bytes more would be read
      · have hlen := encode_length_three (hlead.mp hb)
        have hpos' := List.length_pos_iff.mpr htail
        rw [henc, List.length_cons, List.length_append] at hlen
        obtain ⟨f, rfl⟩ : ∃ f, fuel = f + 1 := ⟨fuel - 1, by rw [List.length_cons] at hfuel; omega⟩
        rw [stored_cons] at hpart'
        have hthree := halfwidth_three (hpart'.1.trans hb) (by omega) hin
        rw [List.length_cons] at hthree
        omega
      · have hraw : ∀ x ∈ b :: bs, x ≠ 0 ∧ x ≠ 0xE3 := by
          intro x hx
          obtain rfl | hx := List.mem_cons.mp hx
          · exact ⟨encode_ne_zero hpos (henc ▸ List.mem_cons_self), hb⟩
          · exact hcont x (List.mem_append_left tail hx)
        obtain ⟨f, rfl⟩ : ∃ f, fuel = f + (b :: bs).length := ⟨fuel - (b :: bs).length, by omega⟩
        rw [(halfwidth_bytes (b :: bs) hpart' hraw (by omega) (Nat.le_refl _)).1,
          halfwidth_end hend]

-- A character without a form is skipped, and the next one copied.
theorem halfwidth_skip {c : Char} {b : UB} {bs : List UB} (hc : Stored p i (utf8EncodeChar c))
    (hmap : Unmapped c) (hp : Stored p (i + 3) (b :: bs)) (hraw : ∀ x ∈ bs, x ≠ 0 ∧ x ≠ 0xE3)
    (hroom : out.length + bs.length + 7 ≤ maxLen) (hi : i + 4 + bs.length ≤ bound) :
    (halfwidthReads p maxLen (fuel + bs.length + 1) i out).val =
        (halfwidthReads p maxLen fuel (i + 4 + bs.length) (out ++ b :: bs)).val ∧
      (Within (· ≤ bound) (halfwidthReads p maxLen (fuel + bs.length + 1) i out) ↔
        Within (· ≤ bound)
          (halfwidthReads p maxLen fuel (i + 4 + bs.length) (out ++ b :: bs))) := by
  obtain ⟨hE3, hfind⟩ := half_at hmap.1 hc
  rw [stored_cons] at hp
  obtain ⟨hval, hwithin⟩ := @halfwidth_unmapped p maxLen (fuel + bs.length) i bound out hE3
    (hfind.trans hmap.2) (by omega)
  have hbytes := @halfwidth_bytes p maxLen fuel (i + 4) bound (out ++ [p (i + 3)]) bs hp.2 hraw
    (by rw [List.length_append, List.length_singleton]; omega) hi
  rw [hp.1, List.append_assoc, List.singleton_append] at hbytes
  rw [hp.1] at hval hwithin
  rw [hval, hwithin, hbytes.1, hbytes.2]
  exact ⟨rfl, and_iff_right (by omega)⟩

-- Inside the string the output is no longer than what is meant, and shorter where a character
-- without a form is skipped.
theorem halfwidth_bound {cs : List Char} {part : List UB}
    (hp : Stored p i (bytes cs ++ (part ++ [0]))) (hpos : ∀ c ∈ cs, 0 < c.toNat)
    (hpart : CutOff part)
    (hroom : out.length + 2 * ((bytes cs).length + part.length) + 12 ≤ maxLen)
    (hfuel : (bytes cs).length + part.length ≤ fuel)
    (hin : Within (· ≤ i + (bytes cs).length + part.length) (halfwidthReads p maxLen fuel i out)) :
    ∃ text, (halfwidthReads p maxLen fuel i out).val = out ++ text ∧
      text.length ≤ (cs.flatMap halfOf).length + part.length ∧
      (text.length = (cs.flatMap halfOf).length + part.length → ∀ c ∈ cs, ¬Unmapped c) := by
  induction hn : cs.length using Nat.strong_induction_on generalizing cs fuel i out with
  | _ n ih =>
      cases cs with
      | nil =>
          rw [bytes_nil, List.length_nil] at hroom hfuel hin
          refine ⟨part, halfwidth_cutOff hp hpart (by omega) (by omega) hin, ?_, ?_⟩
          · rw [List.flatMap_nil, List.length_nil, Nat.zero_add]
          · exact fun _ c hc => absurd hc List.not_mem_nil
      | cons c cs =>
          rw [bytes_cons, List.append_assoc, stored_append] at hp
          obtain ⟨hc, hcs⟩ := hp
          have hlen := halfOf_length c
          rw [bytes_cons, List.length_append] at hroom hfuel hin
          rw [List.length_cons] at hn
          by_cases hmap : Unmapped c
          · have hthree := encode_length_three hmap.1
            rw [hthree] at hcs
            -- the text of the skipped character is missing
            have hmiss : ∀ text : List UB,
                text.length + 3 ≤ ((c :: cs).flatMap halfOf).length + part.length →
                text.length ≤ ((c :: cs).flatMap halfOf).length + part.length ∧
                (text.length = ((c :: cs).flatMap halfOf).length + part.length →
                  ∀ c' ∈ c :: cs, ¬Unmapped c') :=
              fun text h => ⟨by omega, fun heq => by omega⟩
            cases cs with
            | nil =>
                rw [bytes_nil, List.length_nil] at hroom hfuel hin
                rw [bytes_nil, List.nil_append] at hcs
                cases part with
                | nil =>
                    obtain ⟨f, rfl⟩ : ∃ f, fuel = f + 1 := ⟨fuel - 1, by omega⟩
                    obtain ⟨hE3, hfind⟩ := half_at hmap.1 hc
                    have hnone := hfind.trans hmap.2
                    have hwithin := (halfwidth_unmapped hE3 hnone (by omega)).2.mp hin
                    have hstart := halfwidth_start hwithin.2
                    rw [List.length_nil] at hstart
                    omega
                | cons b bs =>
                    obtain ⟨e, tail, hepos, henc, -⟩ := hpart.resolve_left (List.cons_ne_nil b bs)
                    have hraw := fun x hx =>
                      (encode_rest hepos henc).2 x (List.mem_append_left tail hx)
                    rw [List.length_cons] at hroom hfuel
                    obtain ⟨f, rfl⟩ : ∃ f, fuel = f + bs.length + 1 :=
                      ⟨fuel - (bs.length + 1), by omega⟩
                    rw [stored_append] at hcs
                    have hend : p (i + 4 + bs.length) = 0 := by
                      have hsum : i + 4 + bs.length = i + 3 + (b :: bs).length := by
                        rw [List.length_cons]
                        omega
                      rw [hsum]
                      exact ((stored_cons ..).mp hcs.2).1
                    refine ⟨b :: bs, ?_, hmiss _ ?_⟩
                    · rw [(@halfwidth_skip p maxLen f i (i + 4 + bs.length) out c b bs hc hmap hcs.1
                        hraw (by omega) (Nat.le_refl _)).1, halfwidth_end hend]
                    · rw [List.flatMap_singleton]
                      omega
            | cons d ds =>
                obtain ⟨b, bs, henc, -, -⟩ := encode_lead d
                have hdpos := hpos d (List.mem_cons_of_mem c List.mem_cons_self)
                have hdlen := halfOf_length d
                rw [bytes_cons, List.length_append] at hroom hfuel hin
                rw [bytes_cons, List.append_assoc, stored_append] at hcs
                have hbs : (utf8EncodeChar d).length = bs.length + 1 := by
                  rw [henc, List.length_cons]
                obtain ⟨f, rfl⟩ : ∃ f, fuel = f + bs.length + 1 :=
                  ⟨fuel - (bs.length + 1), by omega⟩
                have hskip := @halfwidth_skip p maxLen f i (i + ((utf8EncodeChar c).length +
                  ((utf8EncodeChar d).length + (bytes ds).length)) + part.length) out c b bs hc hmap
                  (henc ▸ hcs.1) (encode_rest hdpos henc).2 (by omega) (by omega)
                have hsum : i + 4 + bs.length = i + 3 + (utf8EncodeChar d).length := by omega
                rw [hsum] at hskip
                have hbound : i + ((utf8EncodeChar c).length +
                    ((utf8EncodeChar d).length + (bytes ds).length)) + part.length =
                    i + 3 + (utf8EncodeChar d).length + (bytes ds).length + part.length := by omega
                rw [List.length_cons] at hn
                obtain ⟨text, htext, hle, -⟩ := ih ds.length (by omega) hcs.2
                  (fun e he => hpos e (List.mem_cons_of_mem c (List.mem_cons_of_mem d he)))
                  (by rw [List.length_append, List.length_cons]; omega) (by omega)
                  (hbound ▸ hskip.2.mp hin) rfl
                refine ⟨b :: bs ++ text, ?_, hmiss _ ?_⟩
                · rw [hskip.1, htext, List.append_assoc]
                · rw [List.length_append, List.length_cons]
                  simp only [List.flatMap_cons, List.length_append]
                  omega
          · obtain ⟨f, rfl⟩ : ∃ f, fuel = f + (utf8EncodeChar c).length :=
              ⟨fuel - (utf8EncodeChar c).length, by omega⟩
            obtain ⟨g, hg, hval, hwithin⟩ := @halfwidth_char p maxLen f i
              (i + ((utf8EncodeChar c).length + (bytes cs).length) + part.length) out c hc
              (hpos c List.mem_cons_self) hmap (by omega) (by omega)
            have hbound : i + ((utf8EncodeChar c).length + (bytes cs).length) + part.length =
                i + (utf8EncodeChar c).length + (bytes cs).length + part.length := by omega
            obtain ⟨text, htext, hle, heq⟩ := ih cs.length (by omega) hcs
              (fun e he => hpos e (List.mem_cons_of_mem c he))
              (by rw [List.length_append]; omega) (by omega) (hbound ▸ hwithin.mp hin) rfl
            refine ⟨halfOf c ++ text, ?_, ?_, fun hsame => ?_⟩
            · rw [hval, htext, List.append_assoc]
            · rw [List.flatMap_cons, List.length_append, List.length_append]
              omega
            · rw [List.flatMap_cons, List.length_append, List.length_append] at hsame
              intro e he
              obtain rfl | he := List.mem_cons.mp he
              · exact hmap
              · exact heq (by omega) e he

end Halfwidth

section Cut

variable {maxLen : Nat}

theorem emit_singles (bs out : List UB) : ∃ m ≤ bs.length,
    emit 4 maxLen (bs.map ([·])) out = out ++ bs.take m ∧
      (m = bs.length ∨ ¬(out ++ bs.take m).length + 4 < maxLen) := by
  induction bs generalizing out with
  | nil => exact ⟨0, Nat.le_refl 0, by simp [emit], .inl rfl⟩
  | cons b bs ih =>
      rw [List.map_cons, emit]
      by_cases hguard : out.length + 4 < maxLen
      · obtain ⟨m, hm, heq, hstop⟩ := ih (out ++ [b])
        have hfit : out.length + [b].length < maxLen := by
          rw [List.length_singleton]
          omega
        rw [if_pos hguard, if_pos hfit, heq]
        rw [List.append_assoc, List.singleton_append] at heq hstop ⊢
        exact ⟨m + 1, by simpa using hm, rfl, hstop.imp (congrArg (· + 1)) id⟩
      · refine ⟨0, Nat.zero_le _, ?_, .inr ?_⟩
        · rw [if_neg hguard, List.take_zero, List.append_nil]
        · rwa [List.take_zero, List.append_nil]

-- A buffer without room for all of a string ends in front of a character or in one.
theorem emit_texts_cut (k : KanaShift) (cs : List Char) (out : List UB) :
    ∃ done left part, cs = done ++ left ∧
      emit 4 maxLen (cs.flatMap k.texts) out = out ++ bytes (done.map k.char) ++ part ∧
      (left = [] → part = []) ∧
      ∀ c left', left = c :: left' → ∃ tail, utf8EncodeChar c = part ++ tail ∧ tail ≠ [] := by
  have hnone : ∀ c, utf8EncodeChar c ≠ [] := fun c => List.length_pos_iff.mp (encode_length_pos c)
  induction cs generalizing out with
  | nil => exact ⟨[], [], [], rfl, by simp [emit], fun _ => rfl, fun c left' h => by cases h⟩
  | cons c cs ih =>
      rw [List.flatMap_cons, emit_append]
      have hdone : ∀ out', emit 4 maxLen (k.texts c) out = out' →
          out' = out ++ utf8EncodeChar (k.char c) →
          ∃ done left part, c :: cs = done ++ left ∧
            emit 4 maxLen (cs.flatMap k.texts) out' = out ++ bytes (done.map k.char) ++ part ∧
            (left = [] → part = []) ∧
            ∀ c left', left = c :: left' → ∃ tail, utf8EncodeChar c = part ++ tail ∧ tail ≠ [] := by
        rintro out' - rfl
        obtain ⟨done, left, part, rfl, heq, hleft, hpart⟩ := ih (out ++ utf8EncodeChar (k.char c))
        refine ⟨c :: done, left, part, rfl, ?_, hleft, hpart⟩
        rw [heq, List.map_cons, bytes_cons, ← List.append_assoc]
      by_cases hwithin : k.Within c
      · by_cases hguard : out.length + 4 < maxLen
        · have hlen := encode_length_three (KanaShift.char_isE3 hwithin)
          apply hdone _ rfl
          rw [KanaShift.texts, if_pos hwithin, emit, if_pos hguard, if_pos (by omega)]
          rfl
        · rw [emit_stuck hguard, emit_stuck hguard]
          refine ⟨[], c :: cs, [], rfl, by simp, fun _ => rfl, fun c' left' h => ?_⟩
          exact ⟨utf8EncodeChar c', rfl, hnone c'⟩
      · obtain ⟨m, hm, heq, hstop⟩ := @emit_singles maxLen (utf8EncodeChar c) out
        have htexts : emit 4 maxLen (k.texts c) out = out ++ (utf8EncodeChar c).take m := by
          rw [KanaShift.texts, if_neg hwithin, heq]
        obtain rfl | hm := Nat.lt_or_eq_of_le hm |>.symm
        · apply hdone _ rfl
          rw [htexts, List.take_length, KanaShift.char, if_neg hwithin]
        · have hguard := hstop.resolve_left (by omega)
          rw [htexts, emit_stuck hguard]
          refine ⟨[], c :: cs, (utf8EncodeChar c).take m, rfl, ?_,
            fun h => absurd h (List.cons_ne_nil c cs), ?_⟩
          · rw [List.map_nil, bytes_nil, List.append_nil]
          · intro c' left' h
            obtain ⟨rfl, -⟩ := List.cons.inj h
            refine ⟨(utf8EncodeChar c).drop m, (List.take_append_drop m _).symm, ?_⟩
            rw [Ne, List.drop_eq_nil_iff]
            omega

end Cut

-- The halfwidth form of a character when there is one, the character otherwise.
def halfChar (c : Char) : List UB := (half (toKatakana c)).getD (utf8EncodeChar c)

def Halved (cs : List Char) : Prop :=
  ∃ n, ∀ maxLen, n ≤ maxLen → ∀ behind rest : Memory,
    let kata := hiraganaToKatakana behind (bytes cs) 256
    hiraganaToHalfwidthKatakana behind rest (bytes cs) maxLen = cs.flatMap halfChar ∧
      Within (· ≤ (bytes cs).length) (katakanaReads (inMemory (bytes cs) behind) 256 256 0 []) ∧
      Within (· ≤ kata.length) (halfwidthReads (inMemory kata rest) maxLen maxLen 0 [])

section Halved

variable {cs : List Char}

theorem hiraganaToKatakana_full_iff (h0 : ∀ c ∈ cs, 0 < c.toNat) (behind : Memory) :
    hiraganaToKatakana behind (bytes cs) 256 = bytes (cs.map toKatakana) ↔
      ∀ c ∈ cs.getLast?, (bytes cs).length + (if IsHiragana c then 1 else 3) < 256 := by
  rw [hiraganaToKatakana_eq h0]
  by_cases hmax : (bytes cs).length < 256
  · exact emit_texts_iff hmax
  · constructor
    · intro heq
      have hlt : (emit 4 256 (cs.flatMap toKatakanaShift.texts) []).length < 256 :=
        emit_length_lt (by decide)
      have hlen : (bytes (cs.map toKatakana)).length = (bytes cs).length := bytes_char_length _ cs
      rw [heq, hlen] at hlt
      exact absurd hlt hmax
    · intro hlast
      obtain rfl | ⟨init, c, rfl⟩ := List.eq_nil_or_concat' cs
      · exact absurd (by decide) hmax
      · have := hlast c (by simp)
        omega

theorem halfOf_toKatakana {c : Char} (h : ¬Unmapped (toKatakana c)) :
    halfOf (toKatakana c) = halfChar c := by
  unfold halfOf halfChar
  cases hhalf : half (toKatakana c) with
  | some hk => rfl
  | none =>
      have hE3 : ¬IsE3 (toKatakana c) := fun hE3 => h ⟨hE3, hhalf⟩
      have hhira : ¬IsHiragana c := fun hh => hE3 (KanaShift.char_isE3 hh)
      rw [toKatakana_of_not hhira]

theorem halfChar_length (c : Char) : (halfChar c).length = (halfOf (toKatakana c)).length := by
  unfold halfOf halfChar
  cases half (toKatakana c) with
  | some hk => rfl
  | none => exact (char_length toKatakanaShift c).symm

theorem zero_notMem_halfOf {c : Char} (h : 0 < c.toNat) : 0 ∉ halfOf c := by
  unfold halfOf
  cases hhalf : half c with
  | some hk => exact (half_spec hhalf).2.2.2
  | none => exact fun hmem => encode_ne_zero h hmem rfl

theorem textAt_within (cs : List Char) (behind : Memory) :
    Within (· ≤ (bytes cs).length) (katakanaReads (inMemory (bytes cs) behind) 256 256 0 []) := by
  have htext := inMemory_textAt cs behind
  have hend := htext.terminator
  rw [Nat.zero_add] at hend
  refine katakanaReads_within (fun j hj hE3 => ?_) hend (Nat.zero_le _) 256
  have hlead := textAt_lead htext j (by omega) (Nat.zero_le j) hE3
  omega

theorem halved_of_mapped (h0 : ∀ c ∈ cs, 0 < c.toNat)
    (hmap : ∀ c ∈ cs, ¬Unmapped (toKatakana c))
    (hlast : ∀ c ∈ cs.getLast?, (bytes cs).length + (if IsHiragana c then 1 else 3) < 256) :
    Halved cs := by
  refine ⟨2 * (bytes cs).length + 12, fun maxLen hmax behind rest => ?_⟩
  have hkata := (hiraganaToKatakana_full_iff h0 behind).mpr hlast
  have hlen : (bytes (cs.map toKatakana)).length = (bytes cs).length := bytes_char_length _ cs
  have hpos : ∀ c ∈ cs.map toKatakana, 0 < c.toNat := by
    intro c hc
    obtain ⟨d, hd, rfl⟩ := List.mem_map.mp hc
    exact toKatakana_pos (h0 d hd)
  have hmapped : ∀ c ∈ cs.map toKatakana, ¬Unmapped c := by
    intro c hc
    obtain ⟨d, hd, rfl⟩ := List.mem_map.mp hc
    exact hmap d hd
  obtain ⟨hval, hwithin⟩ := @halfwidth_text _ maxLen maxLen 0 [] _
    (inMemory_textAt (cs.map toKatakana) rest) hpos hmapped
    (by rw [hlen, List.length_nil]; omega) (by omega)
  have hforms : (cs.map toKatakana).flatMap halfOf = cs.flatMap halfChar := by
    rw [List.flatMap_map]
    exact List.flatMap_congr fun c hc => halfOf_toKatakana (hmap c hc)
  have hzero : 0 ∉ cs.flatMap halfChar := by
    rw [← hforms]
    intro hmem
    obtain ⟨c, hc, hmem⟩ := List.mem_flatMap.mp hmem
    exact zero_notMem_halfOf (hpos c hc) hmem
  refine ⟨?_, textAt_within cs behind, ?_⟩
  · rw [hiraganaToHalfwidthKatakana, hkata, ← halfwidthReads_val, hval, List.nil_append, hforms,
      cstr_eq hzero]
  · rw [Nat.zero_add] at hwithin
    rw [hkata]
    exact hwithin

theorem halfChars_length (l : List Char) :
    (l.flatMap halfChar).length = ((l.map toKatakana).flatMap halfOf).length := by
  induction l with
  | nil => rfl
  | cons c l ih =>
      rw [List.flatMap_cons, List.map_cons, List.flatMap_cons, List.length_append,
        List.length_append, ih, halfChar_length]

theorem mapped_of_halved (h0 : ∀ c ∈ cs, 0 < c.toNat) (h : Halved cs) :
    (∀ c ∈ cs, ¬Unmapped (toKatakana c)) ∧
      ∀ c ∈ cs.getLast?, (bytes cs).length + (if IsHiragana c then 1 else 3) < 256 := by
  obtain ⟨n, hn⟩ := h
  obtain ⟨hout, -, hin⟩ := hn (max n (2 * 256 + 12)) (Nat.le_max_left _ _) (fun _ => 0) (fun _ => 0)
  obtain ⟨done, left, part, rfl, hcut, hnil, hcons⟩ :=
    @emit_texts_cut 256 toKatakanaShift cs []
  rw [← hiraganaToKatakana_eq h0 (fun _ => 0), List.nil_append] at hcut
  have hshort : (hiraganaToKatakana (fun _ => 0) (bytes (done ++ left)) 256).length < 256 := by
    rw [hiraganaToKatakana_eq h0]
    exact emit_length_lt (by decide)
  have hpos : ∀ c ∈ done.map toKatakana, 0 < c.toNat := by
    intro c hc
    obtain ⟨d, hd, rfl⟩ := List.mem_map.mp hc
    exact toKatakana_pos (h0 d (List.mem_append_left left hd))
  have hpart : CutOff part := by
    cases left with
    | nil => exact .inl (hnil rfl)
    | cons c left =>
        obtain ⟨tail, htail⟩ := hcons c left rfl
        exact .inr ⟨c, tail, h0 c (List.mem_append_right done List.mem_cons_self), htail⟩
  have hstored := inMemory_stored (hiraganaToKatakana (fun _ => 0) (bytes (done ++ left)) 256)
    (fun _ => 0)
  have hlen : (hiraganaToKatakana (fun _ => 0) (bytes (done ++ left)) 256).length =
      (bytes (done.map toKatakana)).length + part.length := by
    rw [hcut, List.length_append]
    rfl
  rw [hiraganaToHalfwidthKatakana, ← halfwidthReads_val] at hout
  have hsplit : Stored (inMemory (hiraganaToKatakana (fun _ => 0) (bytes (done ++ left)) 256)
      fun _ => 0) 0 (bytes (done.map toKatakana) ++ (part ++ [0])) := by
    rw [← List.append_assoc]
    have hsame : bytes (done.map toKatakana) ++ part =
        hiraganaToKatakana (fun _ => 0) (bytes (done ++ left)) 256 := hcut.symm
    rw [hsame]
    exact hstored
  obtain ⟨text, htext, hle, hmap⟩ := @halfwidth_bound _ (max n (2 * 256 + 12))
    (max n (2 * 256 + 12)) 0 [] _ part hsplit hpos hpart
    (by rw [List.length_nil]; omega) (by omega) (by rwa [Nat.zero_add, ← hlen])
  have hcstr : (cstr text).length ≤ text.length :=
    (List.takeWhile_prefix _).length_le
  rw [htext, List.nil_append] at hout
  have hexpected := congrArg List.length hout
  rw [List.flatMap_append, List.length_append, halfChars_length done] at hexpected
  cases left with
  | nil =>
      obtain rfl := hnil rfl
      rw [List.flatMap_nil, List.length_nil] at hexpected
      rw [List.length_nil] at hle hmap
      rw [List.append_nil] at h0 hcut ⊢
      refine ⟨fun c hc => hmap (by omega) _ (List.mem_map_of_mem hc), ?_⟩
      rw [← hiraganaToKatakana_full_iff h0 (fun _ => 0), hcut, List.append_nil]
      rfl
  -- the character that is cut off has a longer text
  | cons c left =>
      obtain ⟨tail, htail, hne⟩ := hcons c left rfl
      have hcut' := congrArg List.length htail
      have htailpos := List.length_pos_iff.mpr hne
      have hform := (halfOf_length (toKatakana c)).1
      have hsame : (utf8EncodeChar (toKatakana c)).length = (utf8EncodeChar c).length :=
        char_length toKatakanaShift c
      rw [List.flatMap_cons, List.length_append, halfChar_length] at hexpected
      rw [List.length_append] at hcut'
      omega

-- The text is converted character by character, if and only if every character of the block has a
-- form and the katakana fit the buffer between.
theorem halved_iff (h0 : ∀ c ∈ cs, 0 < c.toNat) :
    Halved cs ↔ (∀ c ∈ cs, ¬Unmapped (toKatakana c)) ∧
      ∀ c ∈ cs.getLast?, (bytes cs).length + (if IsHiragana c then 1 else 3) < 256 :=
  ⟨mapped_of_halved h0, fun h => halved_of_mapped h0 h.1 h.2⟩

theorem halved_kana : Halved ['か', 'a'] :=
  (halved_iff (by decide)).mpr ⟨by decide +kernel, by decide⟩

-- A comma is dropped and the terminator behind it copied.
theorem not_halved_comma : ¬∀ cs : List Char, (∀ c ∈ cs, 0 < c.toNat) → Halved cs := by
  intro h
  have hmap := (mapped_of_halved (by decide) (h ['、'] (by decide))).1
  revert hmap
  decide +kernel

end Halved

end BTron.Mozc
