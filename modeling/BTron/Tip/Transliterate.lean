import BTron.Tip

namespace BTron.Tip

open Lib Mozc Tibetan

section Romaji

variable {maxLen fuel : Nat} {rest out : List UB}

-- What the conversion of romaji appends besides the letters it has no kana for.
def Kana (text : List UB) : Prop :=
  text = lit "っ" ∨ text = lit "ん" ∨ ∃ e ∈ romajiTable, text = e.2

theorem romajiTable_text : ∀ e ∈ romajiTable, e.2 ≠ [] ∧ e.2.length < 256 ∧ 0 ∉ e.2 := by
  rw [romajiTable, lit_eq]
  decide +kernel

theorem kana_text {text : List UB} (h : Kana text) :
    text ≠ [] ∧ text.length < 256 ∧ 0 ∉ text := by
  obtain rfl | rfl | ⟨e, he, rfl⟩ := h
  · decide
  · decide
  · exact romajiTable_text e he

-- A turn appends a text or the letter it takes.
theorem romajiLoop_step {c : UB} (hroom : out.length + 4 < maxLen) :
    ∃ rest' out', rest' ⊆ c :: rest ∧ ((∃ text, Kana text ∧ out' = put maxLen out text) ∨
      out' = out ++ [c]) ∧
      romajiLoop maxLen (fuel + 1) (c :: rest) out = romajiLoop maxLen fuel rest' out' := by
  rw [romajiLoop, if_neg (not_not.mpr hroom)]
  have hsub : rest ⊆ c :: rest := List.subset_cons_self c rest
  split_ifs with hdouble hnn hn
  · exact ⟨rest, _, hsub, .inl ⟨_, .inl rfl, rfl⟩, rfl⟩
  · exact ⟨rest.tail, _, fun x hx => hsub (List.mem_of_mem_tail hx),
      .inl ⟨_, .inr (.inl rfl), rfl⟩, rfl⟩
  · exact ⟨rest, _, hsub, .inl ⟨_, .inr (.inl rfl), rfl⟩, rfl⟩
  · split
    · rename_i romaji hiragana hfind
      exact ⟨_, _, List.drop_subset _ _,
        .inl ⟨hiragana, .inr (.inr ⟨_, List.mem_of_find?_eq_some hfind, rfl⟩), rfl⟩, rfl⟩
    · exact ⟨rest, _, hsub, .inr rfl, rfl⟩

theorem romajiLoop_preserves {P : List UB → Prop}
    (hput : ∀ out text, Kana text → P out → P (put maxLen out text))
    (hletter : ∀ out, ∀ c ∈ rest, out.length + 4 < maxLen → P out → P (out ++ [c])) (h : P out) :
    P (romajiLoop maxLen fuel rest out) := by
  induction fuel generalizing rest out with
  | zero => exact h
  | succ fuel ih =>
      cases rest with
      | nil => exact h
      | cons c rest =>
          by_cases hroom : out.length + 4 < maxLen
          · obtain ⟨rest', out', hsub, hout, heq⟩ := romajiLoop_step hroom
            rw [heq]
            apply ih (fun out c hc => hletter out c (hsub hc))
            obtain ⟨text, hkana, rfl⟩ | rfl := hout
            · exact hput out text hkana h
            · exact hletter out c List.mem_cons_self hroom h
          · unfold romajiLoop
            rwa [if_pos hroom]

theorem lowerRomaji_ne_zero {c : UB} (h : c ≠ 0) : lowerRomaji c ≠ 0 := by
  have htable : ∀ n : Fin 256, UInt8.ofNat n.val ≠ 0 → lowerRomaji (UInt8.ofNat n.val) ≠ 0 := by
    decide +kernel
  simpa using htable ⟨c.toNat, c.toNat_lt⟩ (by simpa using h)

theorem romajiToHiragana_length_lt (romaji : List UB) (hmax : 0 < maxLen) :
    (romajiToHiragana romaji maxLen).length < maxLen := by
  refine romajiLoop_preserves (P := fun out => out.length < maxLen) ?_ ?_ hmax
  · intro out text _ h
    unfold put
    split
    · rwa [List.length_append]
    · exact h
  · intro out c _ hroom _
    rw [List.length_append, List.length_singleton]
    omega

theorem romajiToHiragana_string {romaji : List UB} (h0 : 0 ∉ romaji) :
    0 ∉ romajiToHiragana romaji maxLen := by
  refine romajiLoop_preserves (P := fun out => 0 ∉ out) ?_ ?_ List.not_mem_nil
  · intro out text hkana h
    unfold put
    split
    · exact fun hmem => (List.mem_append.mp hmem).elim h (kana_text hkana).2.2
    · exact h
  · intro out c hc _ h hmem
    obtain ⟨b, hb, rfl⟩ := List.mem_map.mp hc
    obtain hmem | hmem := List.mem_append.mp hmem
    · exact h hmem
    · exact lowerRomaji_ne_zero (fun hzero => h0 (hzero ▸ List.mem_of_mem_take hb))
        (List.mem_singleton.mp hmem).symm

-- The first letter leaves something.
theorem romajiToHiragana_ne_nil {romaji : List UB} (hne : romaji ≠ []) :
    romajiToHiragana romaji tipMaxPrecompLen ≠ [] := by
  obtain ⟨c, romaji, rfl⟩ := List.exists_cons_of_ne_nil hne
  have hstart : romajiToHiragana (c :: romaji) tipMaxPrecompLen =
      romajiLoop tipMaxPrecompLen ((romaji.take 254).map lowerRomaji).length.succ
        (lowerRomaji c :: (romaji.take 254).map lowerRomaji) [] := rfl
  have hroom : ([] : List UB).length + 4 < tipMaxPrecompLen := by decide
  obtain ⟨rest', out', -, hout, heq⟩ := romajiLoop_step hroom
  rw [hstart, heq]
  refine romajiLoop_preserves (P := fun out => out ≠ []) ?_ ?_ ?_
  · intro out text _ h
    unfold put
    split
    · exact List.append_ne_nil_of_left_ne_nil h text
    · exact h
  · intro out c _ _ _
    exact List.append_ne_nil_of_right_ne_nil out (List.cons_ne_nil c [])
  · obtain ⟨text, hkana, rfl⟩ | rfl := hout
    · unfold put
      rw [if_pos (by simpa [tipMaxPrecompLen] using (kana_text hkana).2.1)]
      exact (kana_text hkana).1
    · exact List.cons_ne_nil _ []

end Romaji

section Wylie

variable {max : Nat} {out : List UB}

theorem zero_ne_or {k : UB} (hk : k ≠ 0) (x : UB) : ¬(0 = k ||| x) := fun h =>
  hk (UInt8.or_eq_zero_iff.mp h.symm).1

-- A code point is written whole or left out.
theorem writeUtf8_cases (max : Nat) (out : List UB) (cp : Nat) : writeUtf8 max out cp = out ∨
    ∃ text, 0 ∉ text ∧ out.length + text.length < max ∧ writeUtf8 max out cp = out ++ text := by
  unfold writeUtf8
  split_ifs with hzero h1 hroom h2 hroom h3 hroom hroom
  · exact .inl rfl
  · exact .inl rfl
  · refine .inr ⟨_, ?_, by simpa using hroom, rfl⟩
    rw [List.mem_singleton]
    intro h
    have hcp := congrArg UInt8.toNat h
    rw [UInt8.toNat_zero, UInt8.toNat_ofNat'] at hcp
    omega
  · exact .inl rfl
  · exact .inr ⟨_, by simp [zero_ne_or], by simpa using hroom, rfl⟩
  · exact .inl rfl
  · exact .inr ⟨_, by simp [zero_ne_or], by simpa using hroom, rfl⟩
  · exact .inl rfl
  · exact .inr ⟨_, by simp [zero_ne_or], by simpa using hroom, rfl⟩

theorem wylieLoop_preserves {P : List UB → Prop} {fuel p : Nat} {rest : List UB}
    (hwrite : ∀ out cp, P out → P (writeUtf8 max out cp)) (h : P out) :
    P (wylieLoop max fuel rest p out) := by
  have hwrites : ∀ (cps : List Nat) out, P out → P (cps.foldl (writeUtf8 max) out) := by
    intro cps
    induction cps with
    | nil => exact fun _ h => h
    | cons cp cps ih => exact fun out h => ih _ (hwrite out cp h)
  induction fuel generalizing rest p out with
  | zero => exact h
  | succ fuel ih =>
      cases rest with
      | nil => exact h
      | cons c rest =>
          rw [wylieLoop]
          split
          · exact ih (hwrite out c.toNat h)
          · exact ih (hwrites _ out h)

theorem wylieToTibetan_length_lt (wylie : List UB) (hmax : 0 < max) :
    (wylieToTibetan wylie max).length < max := by
  refine wylieLoop_preserves (P := fun out => out.length < max) ?_ hmax
  intro out cp h
  obtain heq | ⟨text, -, hroom, heq⟩ := writeUtf8_cases max out cp
  · rwa [heq]
  · rwa [heq, List.length_append]

theorem wylieToTibetan_string (wylie : List UB) : 0 ∉ wylieToTibetan wylie max := by
  refine wylieLoop_preserves (P := fun out => 0 ∉ out) ?_ List.not_mem_nil
  intro out cp h
  obtain heq | ⟨text, h0, -, heq⟩ := writeUtf8_cases max out cp
  · rwa [heq]
  · rw [heq]
    exact fun hmem => (List.mem_append.mp hmem).elim h h0

end Wylie

theorem transliterate_length_lt (mode : TipInputMode) (romaji : List UB) :
    (transliterate mode romaji).length < tipMaxPrecompLen := by
  unfold transliterate
  split
  · exact wylieToTibetan_length_lt romaji (by decide)
  · exact romajiToHiragana_length_lt romaji (by decide)

theorem transliterate_string (mode : TipInputMode) {romaji : List UB} (h0 : 0 ∉ romaji) :
    0 ∉ transliterate mode romaji := by
  unfold transliterate
  split
  · exact wylieToTibetan_string romaji
  · exact romajiToHiragana_string h0

end BTron.Tip
