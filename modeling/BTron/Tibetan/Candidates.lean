import BTron.Mozc.Candidates
import BTron.Tibetan
import Mathlib.Data.Finset.Card

namespace BTron.Tibetan

open Lib Lib.Bounded
open Mozc (lit TipCandidate pushCandidate addText addText_stored values_pushCandidate
  values_foldl_pushNew strncpy_strncpy Offers)

-- The values of the words that start with the input.
def lexiconTexts (wylie : List UB) : List (List UB) :=
  (tibetanLexicon.filter fun e => wylie.isPrefixOf e.wylie).map (·.tibetan)

-- How many different texts the lexicon and the transliteration offer.
def wordCount (wylie reading : List UB) : Nat :=
  (strncpy reading 63 :: lexiconTexts wylie).toFinset.card

def exactTexts (wylie : List UB) : List (List UB) :=
  (tibetanLexicon.find? (·.wylie == wylie)).toList.map (·.tibetan)

-- The candidates of the first three steps in an array without an end, and all of them.
def wordTexts (wylie reading : List UB) : List (List UB) :=
  ((tibetanLexicon.filter fun e => wylie.isPrefixOf e.wylie && e.wylie != wylie).map
    (·.tibetan)).foldl addNew (addText (exactTexts wylie) reading)

def tibetanTexts (wylie reading : List UB) : List (List UB) :=
  wordTexts wylie reading ++ [strncpy (reading ++ tsheg) 63] ++ [strncpy (reading ++ shad) 63] ++
    [strncpy wylie 63]

section Lexicon

variable {wylie reading : List UB} {max : Nat}

theorem tibetanLexicon_texts : ∀ e ∈ tibetanLexicon,
    e.tibetan.length < 60 ∧ strncpy e.tibetan 63 = e.tibetan ∧
      ¬tsheg <:+ e.tibetan ∧ ¬shad <:+ e.tibetan := by
  intro e he
  obtain ⟨hlen, h0, hmarks⟩ := tibetanLexicon_words e he
  exact ⟨hlen, strncpy_eq h0 (by omega), hmarks⟩

theorem mem_exactTexts {text : List UB} (h : text ∈ exactTexts wylie) :
    ∃ e ∈ tibetanLexicon, e.wylie = wylie ∧ e.tibetan = text := by
  obtain ⟨e, he, rfl⟩ := List.mem_map.mp h
  have hfind := Option.mem_toList.mp he
  exact ⟨e, List.mem_of_find?_eq_some hfind, by simpa using List.find?_some hfind, rfl⟩

theorem exactTexts_nodup (wylie : List UB) : (exactTexts wylie).Nodup := by
  unfold exactTexts
  cases tibetanLexicon.find? (·.wylie == wylie) <;> simp

theorem lexicon_length {text : List UB} (h : text ∈ lexiconTexts wylie) : text.length < 60 := by
  obtain ⟨e, he, rfl⟩ := List.mem_map.mp h
  exact (tibetanLexicon_texts e (List.mem_of_mem_filter he)).1

theorem exactTexts_subset : exactTexts wylie ⊆ lexiconTexts wylie := by
  intro text h
  obtain ⟨e, he, rfl, rfl⟩ := mem_exactTexts h
  exact List.mem_map_of_mem (List.mem_filter.mpr ⟨he, by simp⟩)

-- The reading as it is stored.
theorem stored_reading (h0 : 0 ∉ reading) :
    strncpy reading 63 = reading ∨ (strncpy reading 63).length = 63 := by
  by_cases h : reading.length ≤ 63
  · exact .inl (strncpy_eq h0 h)
  · right
    rw [strncpy, cstr_eq h0, List.length_take]
    omega

theorem exact_reading (h0 : 0 ∉ reading) :
    strncpy reading 63 ∈ exactTexts wylie ↔ reading ∈ exactTexts wylie := by
  have hshort : ∀ text ∈ exactTexts wylie, text.length < 60 := fun text h =>
    lexicon_length (exactTexts_subset h)
  constructor
  · intro h
    obtain heq | hlen := stored_reading h0
    · rwa [← heq]
    · have := hshort _ h
      omega
  · intro h
    rwa [strncpy_eq h0 (by have := hshort _ h; omega)]

theorem addText_exact (h0 : 0 ∉ reading) :
    addText (exactTexts wylie) reading = addNew (exactTexts wylie) (strncpy reading 63) := by
  unfold addText addNew
  by_cases h : reading ∈ exactTexts wylie
  · rw [if_pos h, if_pos ((exact_reading h0).mpr h)]
  · rw [if_neg h, if_neg (mt (exact_reading h0).mp h)]

theorem mem_wordTexts (h0 : 0 ∉ reading) {text : List UB} :
    text ∈ wordTexts wylie reading ↔ text = strncpy reading 63 ∨ text ∈ lexiconTexts wylie := by
  rw [wordTexts, addText_exact h0, mem_foldl_addNew, mem_addNew]
  constructor
  · rintro ((h | h) | h)
    · exact .inr (exactTexts_subset h)
    · exact .inl h
    · obtain ⟨e, he, rfl⟩ := List.mem_map.mp h
      obtain ⟨he, hpre⟩ := List.mem_filter.mp he
      exact .inr (List.mem_map_of_mem (List.mem_filter.mpr ⟨he, (Bool.and_eq_true_iff.mp hpre).1⟩))
  · rintro (h | h)
    · exact .inl (.inr h)
    · obtain ⟨e, he, rfl⟩ := List.mem_map.mp h
      obtain ⟨hword, hpre⟩ := List.mem_filter.mp he
      by_cases heq : e.wylie = wylie
      · refine .inl (.inl ?_)
        subst heq
        obtain ⟨found, hfound, htext⟩ := Option.map_eq_some_iff.mp (tibetanLexicon_find e hword)
        rw [exactTexts, hfound, ← htext]
        exact List.mem_map_of_mem (List.mem_singleton_self found)
      · exact .inr (List.mem_map_of_mem (List.mem_filter.mpr ⟨hword, by simp [hpre, heq]⟩))

theorem wordTexts_nodup (h0 : 0 ∉ reading) : (wordTexts wylie reading).Nodup := by
  rw [wordTexts, addText_exact h0]
  apply foldl_addNew_nodup
  unfold addNew
  split
  · exact exactTexts_nodup wylie
  · rename_i h
    rw [List.nodup_append_comm, List.singleton_append, List.nodup_cons]
    exact ⟨h, exactTexts_nodup wylie⟩

theorem wordTexts_length (h0 : 0 ∉ reading) :
    (wordTexts wylie reading).length = wordCount wylie reading := by
  rw [wordCount, ← List.toFinset_card_of_nodup (wordTexts_nodup h0)]
  congr 1
  ext text
  rw [List.mem_toFinset, List.mem_toFinset, mem_wordTexts h0, List.mem_cons]

end Lexicon

section Lookup

variable {wylie reading : List UB} {max : Nat} {last : Nat → UB}

theorem tibetanLookupCandidates_values (hwylie : wylie ≠ []) (hreading : reading ≠ [])
    (hmax : 0 < max) : (tibetanLookupCandidates wylie reading max).map (·.value) =
      (tibetanTexts wylie reading).take max := by
  unfold tibetanLookupCandidates tibetanTexts
  extract_lets exact direct compound withTsheg withShad
  have hexact : exact.map (·.value) = (exactTexts wylie).take max := by
    unfold exact exactTexts
    cases hfind : tibetanLexicon.find? (·.wylie == wylie) with
    | none => simp
    | some e =>
        have hstored := (tibetanLexicon_texts e (List.mem_of_find?_eq_some hfind)).2.1
        simp only [if_neg hwylie]
        have hnil : ([] : List TipCandidate).map (·.value) = ([] : List (List UB)).take max := by
          simp
        rw [values_pushCandidate hnil, hstored]
        rfl
  have hdirect : direct.map (·.value) = (addText (exactTexts wylie) reading).take max := by
    have hhead : exact.head?.map (·.value) = (exactTexts wylie).head? := by
      rw [← List.head?_map, hexact, List.head?_take, if_neg (by omega)]
    have hmem : (exactTexts wylie).head? = some reading ↔ reading ∈ exactTexts wylie := by
      unfold exactTexts
      cases tibetanLexicon.find? (·.wylie == wylie) <;> simp [eq_comm]
    unfold direct
    rw [hhead]
    simp only [hreading, Ne, not_false_eq_true, true_and, hmem]
    by_cases h : reading ∈ exactTexts wylie
    · rw [if_neg (not_not.mpr h), addText, if_pos h, hexact]
    · rw [if_pos h, addText, if_neg h]
      exact values_pushCandidate hexact
  have hcompound : compound.map (·.value) = (wordTexts wylie reading).take max := by
    unfold compound wordTexts
    rw [if_neg hwylie]
    exact values_foldl_pushNew _ _ _ _
      (fun e he => (tibetanLexicon_texts e (List.mem_of_mem_filter he)).2.1) hdirect
  rw [if_neg hwylie]
  apply values_pushCandidate
  unfold withShad
  rw [if_neg hreading]
  apply values_pushCandidate
  unfold withTsheg
  rw [if_neg hreading]
  exact values_pushCandidate hcompound

-- A mark behind the reading.
theorem marked_eq {mark : List UB} (h0 : 0 ∉ reading) (hmark : 0 ∉ mark) :
    strncpy (reading ++ mark) 63 = (reading ++ mark).take 63 := by
  rw [strncpy, cstr_eq fun h => (List.mem_append.mp h).elim h0 hmark]

theorem marked_notMem {mark : List UB} (h0 : 0 ∉ reading) (hmark : mark = tsheg ∨ mark = shad) :
    strncpy (reading ++ mark) 63 ∉ lexiconTexts wylie := by
  intro h
  have hzero : 0 ∉ mark := by
    obtain rfl | rfl := hmark <;> decide
  have hlen := lexicon_length h
  obtain ⟨e, he, htext⟩ := List.mem_map.mp h
  obtain ⟨-, -, htsheg, hshad⟩ := tibetanLexicon_texts e (List.mem_of_mem_filter he)
  rw [marked_eq h0 hzero] at hlen htext
  have hwhole : (reading ++ mark).take 63 = reading ++ mark := by
    apply List.take_of_length_le
    rw [List.length_take] at hlen
    omega
  have hends : mark <:+ e.tibetan := by
    rw [htext, hwhole]
    exact List.suffix_append reading mark
  obtain rfl | rfl := hmark
  · exact htsheg hends
  · exact hshad hends

theorem tsheg_mem_iff (h0 : 0 ∉ reading) :
    strncpy (reading ++ tsheg) 63 ∉ wordTexts wylie reading ↔ reading.length ≤ 62 := by
  rw [mem_wordTexts h0, or_iff_left (marked_notMem h0 (.inl rfl)), marked_eq h0 (by decide),
    strncpy, cstr_eq h0]
  constructor
  · intro h
    by_contra hlong
    exact h (List.take_append_of_le_length (by omega))
  · intro hshort heq
    have hlen := congrArg List.length heq
    simp only [List.length_take, List.length_append, tsheg, List.length_cons, List.length_nil]
      at hlen
    omega

theorem shad_mem_iff (h0 : 0 ∉ reading) :
    strncpy (reading ++ shad) 63 ∉ wordTexts wylie reading ++ [strncpy (reading ++ tsheg) 63] ↔
      reading.length ≤ 60 := by
  rw [List.mem_append, List.mem_singleton, mem_wordTexts h0,
    or_iff_left (marked_notMem h0 (.inr rfl)), marked_eq h0 (by decide), marked_eq h0 (by decide),
    strncpy, cstr_eq h0]
  constructor
  · intro h
    by_contra hlong
    refine h (.inr ?_)
    -- what is left of the two marks is the same
    rw [List.take_append, List.take_append]
    congr 1
    have hcut : 63 - reading.length ≤ 2 := by omega
    obtain hcut | hcut | hcut : 63 - reading.length = 0 ∨ 63 - reading.length = 1 ∨
      63 - reading.length = 2 := by omega
    all_goals rw [hcut]; rfl
  · rintro hshort (heq | heq)
    · have hlen := congrArg List.length heq
      simp only [List.length_take, List.length_append, shad, List.length_cons, List.length_nil]
        at hlen
      omega
    · have hwhole : ∀ mark : List UB, mark.length = 3 →
          (reading ++ mark).take 63 = reading ++ mark := by
        intro mark hmark
        apply List.take_of_length_le
        rw [List.length_append]
        omega
      rw [hwhole _ rfl, hwhole _ rfl] at heq
      exact absurd (List.append_cancel_left heq) (by decide)

-- The input may be a value of the lexicon, or the reading with or without a mark.
def RawApart (wylie reading : List UB) : Prop :=
  strncpy wylie 63 ∉ lexiconTexts wylie ∧
    strncpy wylie 63 ∉ [reading, reading ++ tsheg, reading ++ shad]

theorem raw_mem_iff (h0 : 0 ∉ reading) (hshort : reading.length ≤ 60) :
    strncpy wylie 63 ∉ wordTexts wylie reading ++ [strncpy (reading ++ tsheg) 63] ++
      [strncpy (reading ++ shad) 63] ↔ RawApart wylie reading := by
  have hwhole : ∀ mark : List UB, mark.length = 3 → 0 ∉ mark →
      strncpy (reading ++ mark) 63 = reading ++ mark := by
    intro mark hmark hzero
    rw [marked_eq h0 hzero]
    apply List.take_of_length_le
    rw [List.length_append]
    omega
  rw [List.mem_append, List.mem_append, List.mem_singleton, List.mem_singleton, mem_wordTexts h0,
    hwhole tsheg rfl (by decide), hwhole shad rfl (by decide), strncpy_eq h0 (by omega), RawApart]
  simp only [List.mem_cons, List.not_mem_nil, or_false, not_or]
  tauto

theorem tibetanTexts_stored (h0 : 0 ∉ reading) {text : List UB}
    (h : text ∈ tibetanTexts wylie reading) : strncpy text 63 = text := by
  simp only [tibetanTexts, List.mem_append, List.mem_singleton, mem_wordTexts h0] at h
  obtain (((rfl | h) | rfl) | rfl) | rfl := h
  · exact strncpy_strncpy reading 63
  · obtain ⟨e, he, rfl⟩ := List.mem_map.mp h
    exact (tibetanLexicon_texts e (List.mem_of_mem_filter he)).2.1
  · exact strncpy_strncpy _ 63
  · exact strncpy_strncpy _ 63
  · exact strncpy_strncpy wylie 63

theorem tibetanTexts_nodup_iff (h0 : 0 ∉ reading) :
    ((tibetanTexts wylie reading).take max).Nodup ↔
      (wordCount wylie reading < max → reading.length ≤ 62) ∧
        (wordCount wylie reading + 1 < max → reading.length ≤ 60) ∧
        (wordCount wylie reading + 2 < max → RawApart wylie reading) := by
  have hwords : ((wordTexts wylie reading).take max).Nodup :=
    (wordTexts_nodup h0).sublist (List.take_sublist _ _)
  rw [tibetanTexts, nodup_take_concat, nodup_take_concat, nodup_take_concat,
    and_iff_right hwords, tsheg_mem_iff h0, shad_mem_iff h0, and_assoc]
  simp only [List.length_append, List.length_singleton, wordTexts_length h0]
  refine and_congr_right fun _ => and_congr_right fun hshad => forall_congr' fun hroom => ?_
  exact raw_mem_iff h0 (hshad (by omega))

-- The candidates are as they should be if and only if there is room for the marks behind the
-- reading where they are offered, and the input differs from the rest where it is.
theorem tibetanLookupCandidates_offers_iff (hwylie : wylie ≠ []) (hreading : reading ≠ [])
    (h0 : 0 ∉ reading) (hmax : 0 < max) :
    Offers (fun _ => 0) reading max (tibetanLookupCandidates wylie reading max) ↔
      (wordCount wylie reading < max → reading.length ≤ 62) ∧
        (wordCount wylie reading + 1 < max → reading.length ≤ 60) ∧
        (wordCount wylie reading + 2 < max → RawApart wylie reading) := by
  have hvalues := tibetanLookupCandidates_values hwylie hreading hmax
  have hlen : (tibetanLookupCandidates wylie reading max).length =
      min max (tibetanTexts wylie reading).length := by
    rw [← List.length_take, ← hvalues, List.length_map]
  have hcount : (tibetanTexts wylie reading).length = wordCount wylie reading + 3 := by
    simp only [tibetanTexts, List.length_append, List.length_singleton, wordTexts_length h0]
  rw [← tibetanTexts_nodup_iff h0]
  constructor
  · intro h
    exact hvalues ▸ h.apart
  · intro hapart
    have hstored : ∀ v ∈ (tibetanTexts wylie reading).take max, strncpy v 63 = v := fun v hv =>
      tibetanTexts_stored h0 (List.mem_of_mem_take hv)
    refine ⟨by omega, by omega, hvalues ▸ hapart, fun v hv => ?_, fun k v hv => ?_, fun hlt => ?_⟩
    · rw [hvalues] at hv
      rw [← hstored v hv]
      exact zero_notMem_strncpy v 63
    · rw [hvalues] at hv
      have hfits : v.length ≤ 63 := by
        rw [← hstored v (List.mem_of_getElem? hv)]
        exact List.length_take_le 63 _
      by_cases hfull : v.length < 63
      · exact .inl hfull
      · exact .inr ⟨by omega, rfl⟩
    · have hshort := ((tibetanTexts_nodup_iff h0).mp hapart).2.1 (by omega)
      rw [hvalues, List.take_of_length_le (by omega)]
      simp only [tibetanTexts, List.mem_append, mem_wordTexts h0]
      exact .inl (.inl (.inl (.inl (strncpy_eq h0 (by omega)).symm)))

end Lookup

section Claim

open Mozc

variable {d : UserDictionary} {behind : Memory} {last : Nat → UB} {wylie reading : List UB}
  {max : Nat}

-- Both lookups offer what they should, each in its own cases.
theorem candidates_iff (hwylie : wylie ≠ []) (hreading : reading ≠ []) (h0 : 0 ∉ reading)
    (hmax : 0 < max) :
    (Offers last reading max (getCandidates d behind reading max) ↔
      ((userTexts d reading).take max).Nodup ∧ Cleared d last reading max ∧
        (reading.length ≤ 63 ∨ max ≤ 2)) ∧
    (Offers (fun _ => 0) reading max (tibetanLookupCandidates wylie reading max) ↔
      (wordCount wylie reading < max → reading.length ≤ 62) ∧
        (wordCount wylie reading + 1 < max → reading.length ≤ 60) ∧
        (wordCount wylie reading + 2 < max → RawApart wylie reading)) :=
  ⟨getCandidates_offers_iff h0 hmax,
    tibetanLookupCandidates_offers_iff hwylie hreading h0 hmax⟩

theorem candidates_chos :
    Offers (fun _ => 0xFF) (lit "なかの") 16
      (getCandidates .empty (fun _ => 0) (lit "なかの") 16) ∧
    Offers (fun _ => 0) (lit "ཆོས") 16 (tibetanLookupCandidates (lit "chos") (lit "ཆོས") 16) := by
  constructor
  · refine (@candidates_iff .empty (fun _ => 0) (fun _ => 0xFF) (lit "chos") (lit "なかの") 16
      (by decide) (by decide) (by decide) (by decide)).1.mpr ⟨?_, ⟨?_, ?_⟩, .inl (by decide)⟩
    · simp [userTexts, UserDictionary.empty]
    · simp [userTexts, UserDictionary.empty]
    · exact .inl (by decide)
  · refine (@candidates_iff .empty (fun _ => 0) (fun _ => 0) (lit "chos") (lit "ཆོས") 16
      (by decide) (by decide) (by decide) (by decide)).2.mpr
      ⟨fun _ => by decide, fun _ => by decide, fun _ => ?_⟩
    unfold RawApart
    decide +kernel

-- A word with a value of 64 bytes that is registered twice is offered twice, and so is a letter
-- that stands for itself.
theorem candidates_twice :
    (¬∀ (d : UserDictionary) (behind : Memory) (last : Nat → UB) (reading : List UB) (max : Nat),
      reading ≠ [] → 0 ∉ reading → 0 < max →
        Offers last reading max (getCandidates d behind reading max)) ∧
    ¬∀ (wylie reading : List UB) (max : Nat), wylie ≠ [] → reading ≠ [] → 0 ∉ reading → 0 < max →
      Offers (fun _ => 0) reading max (tibetanLookupCandidates wylie reading max) := by
  constructor
  · intro h
    have hword := (h (registerUserWord (registerUserWord .empty (some (lit "a"))
      (some (List.replicate 64 0x62)) none).1 (some (lit "a")) (some (List.replicate 64 0x62))
      none).1 (fun _ => 0) (fun _ => 0) (lit "a") 2 (by decide) (by decide) (by decide)).apart
    revert hword
    decide +kernel
  · intro h
    have hletter := (h (lit "q") (lit "q") 16 (by decide) (by decide) (by decide) (by decide)).apart
    revert hletter
    decide +kernel

end Claim

end BTron.Tibetan
