import BTron.Lib.Bounded
import BTron.Mozc.Clauses

namespace BTron.Mozc

open Lib Lib.Bounded
open TronCode (threeBytes)

-- A value ends in its field, whose last byte is never written.
def Ended (last : Nat → UB) (k : Nat) (v : List UB) : Prop :=
  v.length < 63 ∨ v.length = 63 ∧ last k = 0

-- The values at the front of a candidate array of `max` cells whose values end in the bytes `last`
-- before.
structure Offers (last : Nat → UB) (reading : List UB) (max : Nat) (cs : List TipCandidate) :
    Prop where
  pos : 0 < cs.length
  length_le : cs.length ≤ max
  apart : (cs.map (·.value)).Nodup
  string : ∀ v ∈ cs.map (·.value), 0 ∉ v
  terminated : ∀ k, ∀ v ∈ (cs.map (·.value))[k]?, Ended last k v
  whole : cs.length < max → reading ∈ cs.map (·.value)

-- The values of the user's words for a reading.
def userTexts (d : UserDictionary) (reading : List UB) : List (List UB) :=
  (d.entries.filter (·.reading == reading)).map fun e => strncpy e.value 63

def addText (ts : List (List UB)) (text : List UB) : List (List UB) :=
  if text ∈ ts then ts else ts ++ [strncpy text 63]

-- The candidates for a reading in an array without an end.
def candidateTexts (d : UserDictionary) (behind : Memory) (reading : List UB) : List (List UB) :=
  let system := ((systemDictionary.filter (·.reading == reading)).map (·.value)).foldl addNew
    (userTexts d reading)
  addNew (addText system reading) (hiraganaToKatakana behind reading 64)

section Strings

variable {maxLen : Nat}

theorem threeBytes_string (cp : Nat) : 0 ∉ threeBytes cp := by
  have hlead : ∀ k n, 0 < k → UInt8.ofNat k = UInt8.ofNat (k % 256) → 0 < k % 256 →
      (0 : UB) ≠ UInt8.ofNat (k ||| n) := by
    intro k n _ _ hk h
    rw [UInt8.ofNat_or] at h
    have hzero := (UInt8.or_eq_zero_iff.mp h.symm).1
    have hnat := congrArg UInt8.toNat hzero
    rw [UInt8.toNat_ofNat', UInt8.toNat_zero] at hnat
    omega
  simp only [threeBytes, List.mem_cons, List.not_mem_nil, or_false, not_or]
  exact ⟨hlead _ _ (by decide) rfl (by decide), hlead _ _ (by decide) rfl (by decide),
    hlead _ _ (by decide) rfl (by decide)⟩

theorem katakanaLoop_string (p : Memory) {fuel i : Nat} {out : List UB} (h : 0 ∉ out) :
    0 ∉ katakanaLoop p maxLen fuel i out := by
  induction fuel generalizing i out with
  | zero => exact h
  | succ fuel ih =>
      unfold katakanaLoop
      split_ifs with hstop
      · exact ih fun hmem => (List.mem_append.mp hmem).elim h (threeBytes_string _)
      · exact ih fun hmem => (List.mem_append.mp hmem).elim h fun hmem =>
          hstop.1 (List.mem_singleton.mp hmem).symm
      · exact h

theorem hiraganaToKatakana_string (behind : Memory) (hiragana : List UB) :
    0 ∉ hiraganaToKatakana behind hiragana maxLen :=
  katakanaLoop_string _ List.not_mem_nil


-- A conversion stops 4 cells before the end.
theorem katakanaLoop_length (p : Memory) {fuel i : Nat} {out : List UB} (h : out.length ≤ 62) :
    (katakanaLoop p 64 fuel i out).length ≤ 62 := by
  induction fuel generalizing i out with
  | zero => exact h
  | succ fuel ih =>
      unfold katakanaLoop
      split_ifs with hstop
      · refine ih ?_
        rw [List.length_append, threeBytes, List.length_cons, List.length_cons,
          List.length_singleton]
        omega
      · refine ih ?_
        rw [List.length_append, List.length_singleton]
        omega
      · exact h

theorem hiraganaToKatakana_length (behind : Memory) (hiragana : List UB) :
    (hiraganaToKatakana behind hiragana 64).length ≤ 62 := katakanaLoop_length _ (Nat.zero_le _)

theorem katakana_stored (behind : Memory) (hiragana : List UB) :
    strncpy (hiraganaToKatakana behind hiragana 64) 63 = hiraganaToKatakana behind hiragana 64 :=
  strncpy_eq (hiraganaToKatakana_string behind hiragana)
    (Nat.le_succ_of_le (hiraganaToKatakana_length behind hiragana))

end Strings

section Values

variable {max : Nat} {cs : List TipCandidate} {ts : List (List UB)} {value annotation : List UB}
  {cost : Nat}

theorem addText_stored (h : strncpy value 63 = value) : addText ts value = addNew ts value := by
  unfold addText addNew
  by_cases hmem : value ∈ ts
  · rw [if_pos hmem, if_pos hmem]
  · rw [if_neg hmem, if_neg hmem, h]

theorem values_pushCandidate (h : cs.map (·.value) = ts.take max) :
    (pushCandidate max cs value annotation cost).map (·.value) =
      (ts ++ [strncpy value 63]).take max := by
  rw [← push_take, ← h, push, List.length_map, pushCandidate]
  split
  · rw [List.map_append]
    rfl
  · rfl

-- A value that is not there already is stored.
theorem values_pushNew (h : cs.map (·.value) = ts.take max) :
    (pushNew max cs value annotation cost).map (·.value) =
      (addText ts value).take max := by
  have hany : cs.any (·.value == value) = true ↔ value ∈ ts.take max := by
    rw [← h]
    simp
  unfold pushNew addText
  by_cases hmem : value ∈ ts
  · rw [if_pos hmem]
    split
    · exact h
    · rename_i hnot
      rw [values_pushCandidate h]
      rw [hany] at hnot
      have hfull : max ≤ ts.length := by
        by_contra hlt
        rw [List.take_of_length_le (by omega)] at hnot
        exact hnot hmem
      exact List.take_append_of_le_length hfull
  · rw [if_neg hmem, if_neg, values_pushCandidate h]
    rw [hany]
    exact fun h => hmem (List.mem_of_mem_take h)

theorem values_pushNew_stored (h : cs.map (·.value) = ts.take max)
    (hstored : strncpy value 63 = value) :
    (pushNew max cs value annotation cost).map (·.value) = (addNew ts value).take max := by
  rw [values_pushNew h, addText_stored hstored]

theorem values_foldl_pushCandidate {α : Type} (value note : α → List UB) (cost : α → Nat)
    (as : List α) (h : cs.map (·.value) = ts.take max) :
    (as.foldl (fun cs a => pushCandidate max cs (value a) (note a) (cost a)) cs).map
      (·.value) = (ts ++ as.map fun a => strncpy (value a) 63).take max := by
  induction as generalizing cs ts with
  | nil => simpa using h
  | cons a as ih =>
      rw [List.foldl_cons, ih (values_pushCandidate h), List.map_cons, List.append_assoc,
        List.singleton_append]

theorem values_foldl_pushNew {α : Type} (value note : α → List UB) (cost : α → Nat)
    (as : List α) (hstored : ∀ a ∈ as, strncpy (value a) 63 = value a)
    (h : cs.map (·.value) = ts.take max) :
    (as.foldl (fun cs a => pushNew max cs (value a) (note a) (cost a)) cs).map (·.value) =
      ((as.map value).foldl addNew ts).take max := by
  induction as generalizing cs ts with
  | nil => exact h
  | cons a as ih =>
      rw [List.foldl_cons, List.map_cons, List.foldl_cons]
      exact ih (fun a ha => hstored a (List.mem_cons_of_mem _ ha))
        (values_pushNew_stored h (hstored a List.mem_cons_self))

end Values

section System

variable {d : UserDictionary} {behind : Memory} {reading : List UB} {max : Nat}

theorem systemDictionary_stored : ∀ e ∈ systemDictionary,
    e.reading.length < 63 ∧ e.value.length < 63 ∧ strncpy e.value 63 = e.value := by
  intro e he
  obtain ⟨-, hreading, hvalue, h0⟩ := systemDictionary_words e he
  exact ⟨hreading, hvalue, strncpy_eq h0 (by omega)⟩

theorem getCandidates_values (d : UserDictionary) (behind : Memory) (reading : List UB)
    (max : Nat) : (getCandidates d behind reading max).map (·.value) =
      (candidateTexts d behind reading).take max := by
  have hnil : ([] : List TipCandidate).map (·.value) = ([] : List (List UB)).take max := by simp
  have huser := values_foldl_pushCandidate MozcEntry.value MozcEntry.annotation
    MozcEntry.unigramCost (d.entries.filter (·.reading == reading)) hnil
  rw [List.nil_append] at huser
  have hsystem := values_foldl_pushNew RawDictEntry.value RawDictEntry.annotation RawDictEntry.cost
    (systemDictionary.filter (·.reading == reading))
    (fun e he => (systemDictionary_stored e (List.mem_of_mem_filter he)).2.2) huser
  exact values_pushNew_stored (values_pushNew hsystem) (katakana_stored behind reading)

-- No word is longer than its field.
theorem userTexts_of_long (h : 63 < reading.length) : userTexts d reading = [] := by
  have hnone : d.entries.filter (·.reading == reading) = [] := by
    rw [List.filter_eq_nil_iff]
    intro e he heq
    have hlen := (d.registered e he).reading_length
    rw [eq_of_beq heq] at hlen
    omega
  rw [userTexts, hnone]
  rfl

theorem system_of_long (h : 63 ≤ reading.length) :
    systemDictionary.filter (·.reading == reading) = [] := by
  rw [List.filter_eq_nil_iff]
  intro e he heq
  have hlen := (systemDictionary_stored e he).1
  rw [eq_of_beq heq] at hlen
  omega

-- The array ends in zero where a text fills its field.
def Cleared (d : UserDictionary) (last : Nat → UB) (reading : List UB) (max : Nat) : Prop :=
  (∀ k, ∀ v ∈ ((userTexts d reading).take max)[k]?, Ended last k v) ∧
    (reading.length < 63 ∨ reading ∈ userTexts d reading ∨ max ≤ (userTexts d reading).length ∨
      last (userTexts d reading).length = 0)

theorem candidateTexts_long (h : 63 < reading.length) (h0 : 0 ∉ reading) :
    candidateTexts d behind reading =
      [strncpy reading 63, hiraganaToKatakana behind reading 64] := by
  have hkata := hiraganaToKatakana_length behind reading
  have hlen : (strncpy reading 63).length = 63 := by
    rw [strncpy, cstr_eq h0, List.length_take]
    omega
  have hne : hiraganaToKatakana behind reading 64 ∉ [strncpy reading 63] := by
    intro hmem
    rw [List.mem_singleton.mp hmem] at hkata
    omega
  unfold candidateTexts
  rw [userTexts_of_long h, system_of_long (Nat.le_of_lt h)]
  simp [addText, addNew, hne]

variable (d behind reading) in
theorem candidateTexts_short (h : reading.length ≤ 63) (h0 : 0 ∉ reading) :
    candidateTexts d behind reading =
      addNew (addNew (((systemDictionary.filter (·.reading == reading)).map (·.value)).foldl addNew
        (userTexts d reading)) reading) (hiraganaToKatakana behind reading 64) := by
  rw [candidateTexts, addText_stored (strncpy_eq h0 h)]

theorem system_nodup_iff (h0 : 0 ∉ reading) :
    ((candidateTexts d behind reading).take max).Nodup ↔
      ((userTexts d reading).take max).Nodup := by
  by_cases hlen : 63 < reading.length
  · have hkata := hiraganaToKatakana_length behind reading
    rw [userTexts_of_long hlen, candidateTexts_long hlen h0]
    refine iff_of_true (List.Nodup.sublist (List.take_sublist _ _) ?_) (by simp)
    rw [List.nodup_cons, List.mem_singleton]
    refine ⟨fun heq => ?_, List.nodup_singleton _⟩
    rw [← heq, strncpy, cstr_eq h0, List.length_take] at hkata
    omega
  · rw [candidateTexts_short d behind reading (by omega) h0, addNew_nodup_iff, addNew_nodup_iff,
      foldl_addNew_nodup_iff]

theorem cleared_iff {last : Nat → UB} (h0 : 0 ∉ reading) :
    (∀ k, ∀ v ∈ ((candidateTexts d behind reading).take max)[k]?, Ended last k v) ↔
      Cleared d last reading max := by
  have hkata : ∀ k, Ended last k (hiraganaToKatakana behind reading 64) := fun _ =>
    .inl (Nat.lt_succ_of_le (hiraganaToKatakana_length behind reading))
  have hsystem : ∀ v ∈ (systemDictionary.filter (·.reading == reading)).map (·.value), ∀ k,
      Ended last k v := by
    intro v hv k
    obtain ⟨e, he, rfl⟩ := List.mem_map.mp hv
    exact .inl (systemDictionary_stored e (List.mem_of_mem_filter he)).2.1
  rw [candidateTexts, addNew_forall hkata, Cleared]
  by_cases hlen : reading.length < 63
  · have hreading : ∀ k, Ended last k reading := fun _ => .inl hlen
    rw [addText_stored (strncpy_eq h0 (Nat.le_of_lt hlen)), addNew_forall hreading,
      foldl_addNew_forall hsystem]
    exact (and_iff_left (.inl hlen)).symm
  · have hstored : (strncpy reading 63).length = 63 := by
      rw [strncpy, cstr_eq h0, List.length_take]
      omega
    rw [system_of_long (Nat.not_lt.mp hlen), List.map_nil, List.foldl_nil, addText]
    by_cases hmem : reading ∈ userTexts d reading
    · rw [if_pos hmem]
      exact (and_iff_left (.inr (.inl hmem))).symm
    · rw [if_neg hmem, forall_take_concat]
      refine and_congr_right fun _ => ?_
      simp only [Ended, hlen, hmem, hstored, lt_irrefl, false_or, true_and]
      rw [← Nat.not_lt]
      exact imp_iff_not_or

end System

section Offered

variable {d : UserDictionary} {behind : Memory} {reading : List UB} {max : Nat} {last : Nat → UB}

theorem candidateTexts_whole_iff (h0 : 0 ∉ reading) :
    (((candidateTexts d behind reading).take max).length < max →
      reading ∈ (candidateTexts d behind reading).take max) ↔ reading.length ≤ 63 ∨ max ≤ 2 := by
  by_cases hlen : 63 < reading.length
  · have hstored : (strncpy reading 63).length ≤ 63 := List.length_take_le 63 _
    have hkata := hiraganaToKatakana_length behind reading
    have hnot : reading ∉ [strncpy reading 63, hiraganaToKatakana behind reading 64] := by
      simp only [List.mem_cons, List.not_mem_nil, or_false, not_or]
      refine ⟨fun heq => ?_, fun heq => ?_⟩
      · rw [← heq] at hstored
        omega
      · rw [← heq] at hkata
        omega
    rw [candidateTexts_long hlen h0]
    constructor
    · intro h
      right
      by_contra hmany
      refine hnot (List.mem_of_mem_take (h ?_))
      rw [List.length_take, List.length_cons, List.length_singleton]
      omega
    · intro h hlt
      rw [List.length_take, List.length_cons, List.length_singleton] at hlt
      omega
  · refine iff_of_true (fun hlt => ?_) (.inl (by omega))
    rw [List.length_take] at hlt
    rw [List.take_of_length_le (by omega), candidateTexts_short d behind reading (by omega) h0]
    simp

-- The candidates are as they should be if and only if no two words of the user for the reading
-- have the same value, the array is cleared where it has to be, and the reading fits.
theorem getCandidates_offers_iff (h0 : 0 ∉ reading) (hmax : 0 < max) :
    Offers last reading max (getCandidates d behind reading max) ↔
      ((userTexts d reading).take max).Nodup ∧ Cleared d last reading max ∧
        (reading.length ≤ 63 ∨ max ≤ 2) := by
  have hvalues := getCandidates_values d behind reading max
  have hlen : (getCandidates d behind reading max).length =
      ((candidateTexts d behind reading).take max).length := by
    rw [← hvalues, List.length_map]
  rw [← @system_nodup_iff d behind reading max h0, ← @cleared_iff d behind reading max last h0,
    ← @candidateTexts_whole_iff d behind reading max h0]
  constructor
  · intro h
    have hwhole := h.whole
    rw [hvalues, hlen] at hwhole
    exact ⟨hvalues ▸ h.apart, hvalues ▸ h.terminated, hwhole⟩
  · rintro ⟨hapart, hterminated, hwhole⟩
    have hoffered := @getCandidates_offered max d behind reading
    refine ⟨List.length_pos_iff.mpr (getCandidates_ne_nil d behind reading hmax),
      hoffered.length_le, hvalues ▸ hapart, fun v hv => ?_, hvalues ▸ hterminated, ?_⟩
    · obtain ⟨x, hx, rfl⟩ := List.mem_map.mp hv
      rw [← hoffered.value_fits x hx]
      exact zero_notMem_strncpy _ 63
    · rw [hvalues, hlen]
      exact hwhole

end Offered

end BTron.Mozc
