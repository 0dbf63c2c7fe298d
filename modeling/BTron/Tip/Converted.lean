import BTron.Mozc.Kana
import BTron.Tibetan.Wylie
import BTron.Tip.Typed

namespace BTron.Tip

open Lib Lib.Utf8 Mozc Tibetan
open String (utf8EncodeChar)

-- The whole text of a composition.
def compositionText (c : TipContext) : List UB :=
  match c.state with
  | .idle => []
  | .precomp =>
    match c.mode with
    | .katakana => hiraganaToKatakana (fun _ => 0) c.readingBuf (c.readingBuf.length + 5)
    | .tibetan => (wylieTexts 0 c.romajiBuf).flatten
    | _ => c.readingBuf
  | _ => (clauseList c).flatMap (·.converted)

-- The buffer holds a string that begins the text, and the whole text where there is room for it.
def Delivered (c : TipContext) (maxLen : Nat) : Prop :=
  ∃ text, tipGetConvertedText c maxLen = text ++ [0] ∧ 0 ∉ text ∧ text.length < maxLen ∧
    text <+: compositionText c ∧ ((compositionText c).length < maxLen → text = compositionText c)

-- The last kana starts before the last 4 cells, unless the reading does not fit anyway.
def KanaRoom (reading : List UB) (maxLen : Nat) : Prop :=
  ∀ cs, reading = bytes cs → maxLen ≤ reading.length ∨
    ∀ ch ∈ cs.getLast?, reading.length + (if IsHiragana ch then 1 else 3) < maxLen

-- A reading leaves a cell for its terminator and no room for another one is needed, no code point
-- that fits follows one that does not, and clauses end anywhere but in the last but one cell and go
-- on as one that is left out.
def RoomFor (c : TipContext) (maxLen : Nat) : Prop :=
  match c.state with
  | .idle => True
  | .precomp =>
    match c.mode with
    | .katakana => KanaRoom c.readingBuf maxLen
    | .tibetan => NoGap 0 maxLen (wylieTexts 0 c.romajiBuf) 0
    | _ => maxLen = 1 ∨ c.readingBuf.length + 1 < maxLen
  | _ =>
    (compositionText c = [] ∨ (compositionText c).length + 1 ≠ maxLen) ∧
      GoesOn 0 (maxLen - 1) ((clauseList c).map (·.converted)) 0

section Reading

variable {romaji : List UB} {maxLen : Nat}

theorem valid_ascii {b : UB} (h : b < 0x80) : Valid [b] := by
  have hlt : b.toNat < 0x80 := UInt8.lt_iff_toNat_lt.mp h
  refine ⟨[Char.ofNat b.toNat], ?_⟩
  have hchar : (Char.ofNat b.toNat).toNat = b.toNat := toNat_ofNat (by omega)
  rw [bytes_cons, bytes_nil, List.append_nil, encode_one (by omega), hchar, UInt8.ofNat_toNat]

theorem kana_valid {text : List UB} (h : Kana text) : Valid text := by
  obtain rfl | rfl | ⟨e, he, rfl⟩ := h
  · exact ⟨_, rfl⟩
  · exact ⟨_, rfl⟩
  · obtain ⟨⟨romaji, hiragana⟩, -, rfl⟩ := List.mem_map.mp he
    exact ⟨_, rfl⟩

theorem romajiToHiragana_valid (h : ∀ b ∈ romaji, b < 0x80) :
    Valid (romajiToHiragana romaji maxLen) := by
  refine romajiLoop_preserves (P := Valid) ?_ ?_ valid_nil
  · intro out text hkana hout
    unfold put
    split
    · exact hout.append (kana_valid hkana)
    · exact hout
  · intro out c hc _ hout
    exact hout.append (valid_ascii
      (lowered_ascii (fun b hb => h b (List.mem_of_mem_take hb)) c hc))

theorem pos_of_zero_notMem {cs : List Char} (h0 : 0 ∉ bytes cs) : ∀ ch ∈ cs, 0 < ch.toNat := by
  intro ch hch
  by_contra hzero
  apply h0
  refine List.mem_flatMap.mpr ⟨ch, hch, ?_⟩
  rw [encode_one (by omega), Nat.eq_zero_of_not_pos hzero]
  exact List.mem_singleton_self _

end Reading

section Katakana

variable {cs : List Char} {maxLen : Nat}

theorem shift_texts_length {k : KanaShift} : ∀ text ∈ cs.flatMap k.texts, text.length ≤ 4 := by
  intro text htext
  obtain ⟨ch, -, htext⟩ := List.mem_flatMap.mp htext
  unfold KanaShift.texts at htext
  split at htext
  · rename_i hwithin
    rw [List.mem_singleton.mp htext, encode_length_three (KanaShift.char_isE3 hwithin)]
    decide
  · obtain ⟨b, -, rfl⟩ := List.mem_map.mp htext
    rw [List.length_singleton]
    omega

theorem katakana_whole (h0 : 0 ∉ bytes cs) :
    hiraganaToKatakana (fun _ => 0) (bytes cs) ((bytes cs).length + 5) =
      bytes (cs.map toKatakana) := by
  have htexts : (cs.flatMap toKatakanaShift.texts).flatten = bytes (cs.map toKatakana) :=
    texts_flatten cs
  rw [hiraganaToKatakana_eq (pos_of_zero_notMem h0), emit_fits, htexts, List.nil_append]
  apply fits_of_room
  rw [texts_flatten, bytes_char_length, List.length_nil]
  omega

-- The katakana that are written always begin the text.
theorem katakana_delivered_iff (h0 : 0 ∉ bytes cs) :
    (hiraganaToKatakana (fun _ => 0) (bytes cs) maxLen <+: bytes (cs.map toKatakana) ∧
      ((bytes (cs.map toKatakana)).length < maxLen →
        hiraganaToKatakana (fun _ => 0) (bytes cs) maxLen = bytes (cs.map toKatakana))) ↔
      (maxLen ≤ (bytes cs).length ∨
        ∀ ch ∈ cs.getLast?, (bytes cs).length + (if IsHiragana ch then 1 else 3) < maxLen) := by
  have hlen : (bytes (cs.map toKatakana)).length = (bytes cs).length := bytes_char_length _ cs
  have hfront : hiraganaToKatakana (fun _ => 0) (bytes cs) maxLen <+:
      bytes (cs.map toKatakana) := by
    have htexts : (cs.flatMap toKatakanaShift.texts).flatten = bytes (cs.map toKatakana) :=
      texts_flatten cs
    rw [hiraganaToKatakana_eq (pos_of_zero_notMem h0), ← htexts]
    exact @emit_prefix_iff _ 4 maxLen _ [] |>.mpr (goesOn_of_le shift_texts_length)
  rw [hlen]
  refine ⟨fun h => ?_, fun h => ⟨hfront, fun hlt => ?_⟩⟩
  · by_cases hlt : (bytes cs).length < maxLen
    · have hwhole := h.2 hlt
      rw [hiraganaToKatakana_eq (pos_of_zero_notMem h0)] at hwhole
      exact .inr ((emit_texts_iff hlt).mp hwhole)
    · exact .inl (Nat.not_lt.mp hlt)
  · rw [hiraganaToKatakana_eq (pos_of_zero_notMem h0)]
    exact (emit_texts_iff hlt).mpr (h.resolve_left (Nat.not_le.mpr hlt))

end Katakana

section Wylie

variable {wylie : List UB} {maxLen : Nat}

-- No rule writes beyond the basic plane.
theorem wylieRules_small :
    ∀ r ∈ wylieRules, ∀ p < 2, ∀ cp ∈ (applyRule r p).1, cp < 0x10000 := by
  decide +kernel

theorem applyRule_level (r : WylieRule) (p : Nat) :
    (applyRule r p).1 = (applyRule r (min p 1)).1 := by
  cases p with
  | zero => rfl
  | succ p =>
      rw [Nat.min_eq_right (Nat.succ_pos p)]
      unfold applyRule
      cases r.val <;> simp

theorem wylieTurn_small {p : Nat} {rest : List UB} : ∀ cp ∈ (wylieTurn p rest).1, cp < 0x10000 := by
  intro cp hcp
  cases rest with
  | nil => cases hcp
  | cons c rest =>
      unfold wylieTurn at hcp
      cases hmatch : matchRule (c :: rest) with
      | none =>
          simp only [hmatch] at hcp
          have hbyte := c.toNat_lt
          rw [List.mem_singleton.mp hcp]
          omega
      | some r =>
          simp only [hmatch] at hcp
          rw [applyRule_level] at hcp
          exact wylieRules_small r (matchRule_key hmatch).1 _ (by omega) cp hcp

-- The first byte of a code point tells its length.
theorem utf8Text_charLen {cp : Nat} (h : cp < 0x10000) :
    ∀ b ∈ (utf8Text cp).head?, (utf8Text cp).length = charLen b := by
  have hone : ∀ n < 0x80, charLen (UInt8.ofNat n) = 1 := by decide
  have htwo : ∀ n < 0x20, charLen (UInt8.ofNat (0xC0 ||| n)) = 2 := by decide
  have hthree : ∀ n < 0x10, charLen (UInt8.ofNat (0xE0 ||| n)) = 3 := by decide
  intro b hb
  unfold utf8Text writeUtf8 at hb ⊢
  split_ifs at hb ⊢ with hzero h1 h1' h2 h2' h3
  · cases hb
  · cases hb
  · obtain rfl := Option.some.inj hb
    exact (hone cp h1).symm
  · cases hb
  · obtain rfl := Option.some.inj hb
    refine (htwo _ ?_).symm
    rw [Nat.shiftRight_eq_div_pow]
    omega
  · cases hb
  · obtain rfl := Option.some.inj hb
    refine (hthree _ ?_).symm
    rw [Nat.shiftRight_eq_div_pow]
    omega

theorem wylieTexts_free : ∀ p ∈ wylieTexts 0 wylie, ∀ q ∈ wylieTexts 0 wylie, q ≠ [] →
    q.length < p.length → ¬q <+: p := by
  have hsmall : ∀ text ∈ wylieTexts 0 wylie, ∃ cp < 0x10000, text = utf8Text cp := by
    intro text htext
    obtain ⟨x, -, hx⟩ := List.mem_flatMap.mp htext
    obtain ⟨cp, hcp, rfl⟩ := List.mem_map.mp hx
    exact ⟨cp, wylieTurn_small cp hcp, rfl⟩
  intro p hp q hq hne hlt hpre
  obtain ⟨cp, hcp, rfl⟩ := hsmall p hp
  obtain ⟨cq, hcq, rfl⟩ := hsmall q hq
  obtain ⟨b, rest, hcons⟩ := List.exists_cons_of_ne_nil hne
  have hq := utf8Text_charLen hcq b (by rw [hcons]; rfl)
  have hp := utf8Text_charLen hcp b (by
    obtain ⟨behind, heq⟩ := hpre
    rw [← heq, hcons]
    rfl)
  omega

theorem tibetan_delivered_iff :
    (wylieToTibetan wylie maxLen <+: (wylieTexts 0 wylie).flatten ∧
      ((wylieTexts 0 wylie).flatten.length < maxLen →
        wylieToTibetan wylie maxLen = (wylieTexts 0 wylie).flatten)) ↔
      NoGap 0 maxLen (wylieTexts 0 wylie) 0 := by
  rw [and_iff_left fun h => wylieToTibetan_room h, wylieToTibetan_eq,
    ← goesOn_iff_noGap wylieTexts_free]
  exact @emit_prefix_iff _ 0 maxLen _ []

end Wylie

section Clauses

variable {maxLen : Nat} {clauses : List TipClause}

-- The terminator is counted twice.
theorem joinConverted_eq (hmax : 0 < maxLen) (clauses : List TipClause) :
    joinConverted maxLen clauses = emit 0 (maxLen - 1) (clauses.map (·.converted)) [] := by
  have hfrom : ∀ out : List UB, clauses.foldl
      (fun out cl =>
        if out.length + cl.converted.length + 1 < maxLen then out ++ cl.converted else out) out =
      emit 0 (maxLen - 1) (clauses.map (·.converted)) out := by
    induction clauses with
    | nil => exact fun _ => rfl
    | cons cl clauses ih =>
        intro out
        rw [List.foldl_cons, ih, List.map_cons, emit]
        by_cases hguard : out.length + 0 < maxLen - 1
        · rw [if_pos hguard]
          congr 1
          split_ifs <;> first | rfl | omega
        · rw [if_neg hguard, if_neg (by omega), emit_stuck hguard]
  exact hfrom []

theorem clauses_delivered_iff (hmax : 0 < maxLen) :
    (joinConverted maxLen clauses <+: clauses.flatMap (·.converted) ∧
      ((clauses.flatMap (·.converted)).length < maxLen →
        joinConverted maxLen clauses = clauses.flatMap (·.converted))) ↔
      (clauses.flatMap (·.converted) = [] ∨
        (clauses.flatMap (·.converted)).length + 1 ≠ maxLen) ∧
        GoesOn 0 (maxLen - 1) (clauses.map (·.converted)) 0 := by
  rw [joinConverted_eq hmax, List.flatMap_def]
  generalize hps : clauses.map (·.converted) = ps
  have hpre : emit 0 (maxLen - 1) ps [] <+: ps.flatten ↔ GoesOn 0 (maxLen - 1) ps 0 :=
    @emit_prefix_iff _ 0 (maxLen - 1) ps []
  rw [hpre, and_comm]
  refine and_congr_left fun hgoes => ⟨fun hwhole => ?_, fun hcell hlt => ?_⟩
  · by_cases hnil : ps.flatten = []
    · exact .inl hnil
    · right
      intro hlen
      have hpos := List.length_pos_iff.mpr hnil
      have hlt : (emit 0 (maxLen - 1) ps []).length < maxLen - 1 :=
        emit_length_lt (by simp only [List.length_nil]; omega)
      rw [hwhole (by omega)] at hlt
      omega
  · obtain hnil | hne := hcell
    · have hnone := hpre.mpr hgoes
      rw [hnil] at hnone ⊢
      exact List.prefix_nil.mp hnone
    · exact emit_fits (fits_of_room (by simp only [List.length_nil]; omega))

end Clauses

section Delivered

variable {c : TipContext} {maxLen : Nat}

-- A terminated string is delivered if it begins the text.
theorem delivered_iff {out : List UB} (hout : tipGetConvertedText c maxLen = out ++ [0])
    (h0 : 0 ∉ out) (hlen : out.length < maxLen) :
    Delivered c maxLen ↔ out <+: compositionText c ∧
      ((compositionText c).length < maxLen → out = compositionText c) := by
  constructor
  · rintro ⟨text, htext, -, -, hpre, hwhole⟩
    rw [hout] at htext
    obtain rfl := List.append_cancel_right htext
    exact ⟨hpre, hwhole⟩
  · rintro ⟨hpre, hwhole⟩
    exact ⟨out, hout, h0, hlen, hpre, hwhole⟩

-- A copy without a terminator is not a string.
theorem reading_delivered_iff (hmax : 0 < maxLen) (h0 : 0 ∉ c.readingBuf)
    (hout : tipGetConvertedText c maxLen = strncpyOut c.readingBuf maxLen)
    (htext : compositionText c = c.readingBuf) :
    Delivered c maxLen ↔ maxLen = 1 ∨ c.readingBuf.length + 1 < maxLen := by
  unfold strncpyOut at hout
  split_ifs at hout with hone hroom
  · refine iff_of_true ?_ (.inl (by omega))
    refine (@delivered_iff c maxLen [] hout List.not_mem_nil hmax).mpr ?_
    refine ⟨List.nil_prefix, fun hlt => ?_⟩
    exact (List.length_eq_zero_iff.mp (by omega)).symm
  · refine iff_of_true ?_ (.inr (by omega))
    refine (delivered_iff hout h0 (by omega)).mpr ?_
    rw [htext]
    exact ⟨List.prefix_refl _, fun _ => rfl⟩
  · refine iff_of_false ?_ (by omega)
    rintro ⟨text, heq, -⟩
    have hmem : (0 : UB) ∈ c.readingBuf.take (maxLen - 1) := by
      rw [← hout, heq]
      exact List.mem_append_right text (List.mem_singleton_self 0)
    exact h0 (List.mem_of_mem_take hmem)

theorem clauses_delivered (hmax : 0 < maxLen) (hshown : Shown c)
    (hout : tipGetConvertedText c maxLen = joinConverted maxLen (clauseList c) ++ [0])
    (htext : compositionText c = (clauseList c).flatMap (·.converted)) :
    Delivered c maxLen ↔
      (compositionText c = [] ∨ (compositionText c).length + 1 ≠ maxLen) ∧
        GoesOn 0 (maxLen - 1) ((clauseList c).map (·.converted)) 0 := by
  have h0 : 0 ∉ joinConverted maxLen (clauseList c) := by
    intro hmem
    rw [joinConverted_eq hmax] at hmem
    obtain hmem | ⟨text, htext, hmem⟩ := mem_emit hmem
    · cases hmem
    · obtain ⟨cl, hcl, rfl⟩ := List.mem_map.mp htext
      obtain ⟨i, -, rfl⟩ := List.mem_map.mp hcl
      exact hshown i hmem
  have hlen : (joinConverted maxLen (clauseList c)).length < maxLen := by
    rw [joinConverted_eq hmax]
    by_cases hone : maxLen = 1
    · rw [emit_stuck (by simp [hone])]
      exact hmax
    · have : (emit 0 (maxLen - 1) ((clauseList c).map (·.converted)) []).length < maxLen - 1 :=
        emit_length_lt (by simp only [List.length_nil]; omega)
      omega
  rw [delivered_iff hout h0 hlen, htext]
  exact clauses_delivered_iff hmax

-- In every reachable state the text is delivered if and only if there is room for it.
theorem convertedText_iff {tr : List (TipContext × TipCall)} (htr : Trace TipStep tipInit tr c)
    (hmax : 0 < maxLen) : Delivered c maxLen ↔ RoomFor c maxLen := by
  have htyped := typed_of_trace htr
  have hbuffers := htyped.strings.buffers
  cases hstate : c.state with
  | idle =>
      have hout : tipGetConvertedText c maxLen = [] ++ [0] := by simp [tipGetConvertedText, hstate]
      have htext : compositionText c = [] := by simp [compositionText, hstate]
      rw [delivered_iff hout List.not_mem_nil hmax, htext]
      simp [RoomFor, hstate]
  | precomp =>
      have hne : c.state ≠ .idle := by simp [hstate]
      have hreading := (htyped.strings.reading hne).1
      cases hmode : c.mode with
      | katakana =>
          have hvalid : Valid c.readingBuf := by
            rw [(hbuffers.composing hne).2, hmode]
            exact romajiToHiragana_valid htyped.ascii
          have hout : tipGetConvertedText c maxLen =
              hiraganaToKatakana (fun _ => 0) c.readingBuf maxLen ++ [0] := by
            simp [tipGetConvertedText, hstate, hmode]
          have hlen : (hiraganaToKatakana (fun _ => 0) c.readingBuf maxLen).length < maxLen := by
            obtain ⟨cs, hcs⟩ := hvalid
            rw [hcs] at hreading ⊢
            rw [hiraganaToKatakana_eq (pos_of_zero_notMem hreading)]
            exact emit_length_lt hmax
          have hiff : ∀ cs, c.readingBuf = bytes cs → (Delivered c maxLen ↔
              maxLen ≤ c.readingBuf.length ∨ ∀ ch ∈ cs.getLast?,
                c.readingBuf.length + (if IsHiragana ch then 1 else 3) < maxLen) := by
            intro cs hcs
            rw [hcs] at hreading
            have htext : compositionText c = bytes (cs.map toKatakana) := by
              simp only [compositionText, hstate, hmode, hcs]
              exact katakana_whole hreading
            rw [delivered_iff hout (hiraganaToKatakana_string _ _) hlen, htext, hcs]
            exact katakana_delivered_iff hreading
          have hroom : RoomFor c maxLen ↔ KanaRoom c.readingBuf maxLen := by
            simp [RoomFor, hstate, hmode]
          rw [hroom]
          constructor
          · exact fun h cs hcs => (hiff cs hcs).mp h
          · intro h
            obtain ⟨cs, hcs⟩ := hvalid
            exact (hiff cs hcs).mpr (h cs hcs)
      | tibetan =>
          have hout : tipGetConvertedText c maxLen = wylieToTibetan c.romajiBuf maxLen ++ [0] := by
            simp [tipGetConvertedText, hstate, hmode]
          have htext : compositionText c = (wylieTexts 0 c.romajiBuf).flatten := by
            simp [compositionText, hstate, hmode]
          rw [delivered_iff hout (wylieToTibetan_string _) (wylieToTibetan_length_lt _ hmax), htext,
            tibetan_delivered_iff]
          simp [RoomFor, hstate, hmode]
      | hiragana =>
          rw [reading_delivered_iff hmax hreading (by simp [tipGetConvertedText, hstate, hmode])
            (by simp [compositionText, hstate, hmode])]
          simp [RoomFor, hstate, hmode]
      | ascii =>
          exact absurd (hbuffers.ascii hmode) hne
  | converting =>
      rw [clauses_delivered hmax htyped.shown (by simp [tipGetConvertedText, hstate])
        (by simp [compositionText, hstate])]
      simp [RoomFor, hstate]
  | candidateSelect =>
      rw [clauses_delivered hmax htyped.shown (by simp [tipGetConvertedText, hstate])
        (by simp [compositionText, hstate])]
      simp [RoomFor, hstate]

theorem convertedText_letter : Delivered (afterKeys [0x61]) 5 := by
  have htr : Trace TipStep tipInit [(tipInit, press 0x61)] (afterKeys [0x61]) := .next .start rfl
  refine (convertedText_iff htr (by decide)).mpr ?_
  have hroom : (afterKeys [0x61]).readingBuf.length + 1 < 5 := by decide
  exact .inr hroom

-- The hiragana of one letter in 4 cells have no terminator.
theorem convertedText_unterminated :
    ¬∀ (c : TipContext) (tr : List (TipContext × TipCall)) (maxLen : Nat),
      Trace TipStep tipInit tr c → 0 < maxLen → Delivered c maxLen := by
  intro h
  obtain ⟨tr, htr⟩ := exists_trace_afterKeys [0x61]
  obtain ⟨text, htext, -⟩ := h _ tr 4 htr (by decide)
  have hout : tipGetConvertedText (afterKeys [0x61]) 4 = lit "あ" := by decide
  rw [hout] at htext
  have hmem : (0 : UB) ∈ lit "あ" := htext ▸ List.mem_append_right text (List.mem_singleton_self 0)
  revert hmem
  decide

end Delivered

end BTron.Tip
