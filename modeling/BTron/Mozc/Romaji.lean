import BTron.Lib.Transducer
import BTron.Mozc
import Mathlib.Data.List.MinMax

namespace BTron.Mozc

open Lib

-- A turn of mozc_romaji_to_hiragana: the text it writes and how many letters it takes besides the
-- first one.
def romajiTurn : List UB → List UB × Nat
  | [] => ([], 0)
  | c :: rest =>
    if rest.head? = some c ∧ c ∉ lit "aiueon" then (lit "っ", 0)
    else if c = 0x6E ∧ (rest.head? = some 0x6E ∨ rest.head? = some 0x27) then (lit "ん", 1)
    else if c = 0x6E ∧ rest.head?.all (· ∉ lit "aiueoy") then (lit "ん", 0)
    else
      match romajiTable.find? fun e => e.1.isPrefixOf (c :: rest) with
      | some (romaji, hiragana) => (hiragana, romaji.length - 1)
      | none => ([c], 0)

-- Where the turns of a conversion of romaji start.
def romajiStops (turn : List UB → List UB × Nat) (romaji : List UB) : List (List UB) :=
  (stops (fun (_ : Unit) rest => ((), (turn rest).2)) 0 () romaji).map (·.2)

def romajiTexts (turn : List UB → List UB × Nat) (romaji : List UB) : List (List UB) :=
  (romajiStops turn romaji).map fun rest => (turn rest).1

theorem romajiStops_cons (turn : List UB → List UB × Nat) (c : UB) (rest : List UB) :
    romajiStops turn (c :: rest) =
      (c :: rest) :: romajiStops turn (rest.drop (turn (c :: rest)).2) := by
  rw [romajiStops, stops_cons]
  rfl

@[simp] theorem romajiStops_nil (turn : List UB → List UB × Nat) : romajiStops turn [] = [] := by
  simp [romajiStops]

@[simp] theorem romajiTexts_nil (turn : List UB → List UB × Nat) : romajiTexts turn [] = [] := by
  simp [romajiTexts]

theorem romajiTexts_cons (turn : List UB → List UB × Nat) (c : UB) (rest : List UB) :
    romajiTexts turn (c :: rest) =
      (turn (c :: rest)).1 :: romajiTexts turn (rest.drop (turn (c :: rest)).2) := by
  rw [romajiTexts, romajiStops_cons]
  rfl

theorem romajiTable_keys : ∀ e ∈ romajiTable, e.1 ≠ [] ∧ e.2 ≠ [] := by
  rw [romajiTable, lit_eq]
  decide +kernel

-- The loop puts the texts of the turns out, where a text needs 4 cells to start.
theorem romajiLoop_eq {maxLen fuel : Nat} {rest out : List UB} (hfuel : rest.length ≤ fuel) :
    romajiLoop maxLen fuel rest out = emit 4 maxLen (romajiTexts romajiTurn rest) out := by
  induction fuel generalizing rest out with
  | zero =>
      obtain rfl := List.length_eq_zero_iff.mp (Nat.le_zero.mp hfuel)
      simp [romajiLoop, emit]
  | succ fuel ih =>
      cases rest with
      | nil => simp [romajiLoop, emit]
      | cons c rest =>
          rw [List.length_cons] at hfuel
          rw [romajiLoop, romajiTexts_cons, emit]
          by_cases hroom : out.length + 4 < maxLen
          · rw [if_neg (not_not.mpr hroom), if_pos hroom]
            have hshort : ∀ k, (rest.drop k).length ≤ fuel := by
              intro k
              rw [List.length_drop]
              omega
            rw [← ih (hshort _)]
            change _ = romajiLoop maxLen fuel (rest.drop (romajiTurn (c :: rest)).2)
              (put maxLen out (romajiTurn (c :: rest)).1)
            rw [romajiTurn]
            split_ifs with hdouble hnn hn
            · rfl
            · rw [List.drop_one]
            · rfl
            · cases hfind : romajiTable.find? fun e => e.1.isPrefixOf (c :: rest) with
              | none =>
                  dsimp only
                  rw [put, if_pos (by rw [List.length_singleton]; omega), List.drop_zero]
              | some e =>
                  obtain ⟨romaji, hiragana⟩ := e
                  have hkey := (romajiTable_keys _ (List.mem_of_find?_eq_some hfind)).1
                  cases romaji with
                  | nil => exact absurd rfl hkey
                  | cons d romaji => rfl
          · rw [if_pos hroom, if_neg hroom]

def lowered (romaji : List UB) : List UB := romaji.map lowerRomaji

theorem romajiToHiragana_eq (romaji : List UB) (maxLen : Nat) :
    romajiToHiragana romaji maxLen =
      emit 4 maxLen (romajiTexts romajiTurn (lowered (romaji.take 255))) [] :=
  romajiLoop_eq (Nat.le_refl _)

-- The transliteration that is meant. The longest entry of the table that the rest starts with:
def longestEntry (rest : List UB) : Option (List UB × List UB) :=
  (romajiTable.filter fun e => e.1.isPrefixOf rest).argmax (·.1.length)

def IsLetter (c : UB) : Prop := 0x61 ≤ c ∧ c ≤ 0x7A

instance : DecidablePred IsLetter := fun c => inferInstanceAs (Decidable (0x61 ≤ c ∧ c ≤ 0x7A))

def IsConsonant (c : UB) : Prop := IsLetter c ∧ c ∉ lit "aiueo"

instance : DecidablePred IsConsonant := fun c =>
  inferInstanceAs (Decidable (IsLetter c ∧ c ∉ lit "aiueo"))

def referenceTurn : List UB → List UB × Nat
  | [] => ([], 0)
  | c :: rest =>
    if rest.head? = some c ∧ IsConsonant c ∧ c ≠ 0x6E then (lit "っ", 0)
    else if c = 0x6E ∧ (rest.head? = some 0x6E ∨ rest.head? = some 0x27) then (lit "ん", 1)
    else if c = 0x6E ∧ rest.head?.all (· ∉ lit "aiueoy") then (lit "ん", 0)
    else
      match longestEntry (c :: rest) with
      | some (romaji, hiragana) => (hiragana, romaji.length - 1)
      | none => ([c], 0)

-- Capital letters stand for small ones.
def referenceStops (romaji : List UB) : List (List UB) :=
  romajiStops referenceTurn (lowered romaji)

def referenceTexts (romaji : List UB) : List (List UB) := romajiTexts referenceTurn (lowered romaji)

def reference (romaji : List UB) : List UB := (referenceTexts romaji).flatten

-- The letters that a key has at its end only.
def closing : List UB := lit "aiueo-,.~[]/"

-- The keys that end in none of them.
def openKeys : List (List UB) :=
  [lit "tch", lit "nn", lit "n'", lit "xn", lit "zh", lit "zj", lit "zk", lit "zl", lit "n"]

def Latin (c : UB) : Prop := 0x41 ≤ c ∧ c ≤ 0x5A ∨ 0x61 ≤ c ∧ c ≤ 0x7A

instance : DecidablePred Latin := fun c =>
  inferInstanceAs (Decidable (0x41 ≤ c ∧ c ≤ 0x5A ∨ 0x61 ≤ c ∧ c ≤ 0x7A))

-- What the table says of an entry: where its key closes, which key it starts with, which letters
-- it begins with, and that it has kana. "n" comes last, and there is "tch".
set_option synthInstance.maxSize 1000 in
theorem romajiTable_facts :
    (∀ e ∈ romajiTable,
      ((∀ c ∈ e.1.dropLast, c ∉ closing) ∧
        ((∃ c ∈ e.1.getLast?, c ∈ closing) ∨ e.1 ∈ openKeys)) ∧
      (∀ k ∈ openKeys, k.isPrefixOf e.1 → k = e.1 ∨ k = lit "n") ∧
      ((∃ c ∈ e.1.head?, IsLetter c) ∨ e.2.length = 3 ∧ e.2 ≠ lit "っ") ∧
      (e.1 = lit "tch" ∨ ∀ c ∈ e.2, ¬Latin c) ∧
      ((e.1.tail.head? = e.1.head? → e.1.head? = some 0x6E) ∧
        (e.1.tail = [] → (∃ c ∈ e.1.head?, IsConsonant c) → e.1.head? = some 0x6E) ∧
        ((∃ c ∈ e.1.head?, c ∈ lit "aiueoy") → ∃ e' ∈ romajiTable, e'.1 = 0x6E :: e.1)) ∧
      (e.1.head? = some 0x6E → e.1.tail = [] ∨ e.1 = lit "nn" ∨ e.1 = lit "n'" ∨
        (∃ c ∈ e.1.tail.head?, c ∈ lit "aiueoy") ∧
          (e.1.tail = lit "yi" ∨ ∃ e' ∈ romajiTable, e'.1 = e.1.tail)) ∧
      (e.1.head? ≠ some 0x27 ∧ (e.1 = lit "tch" → ∃ c ∈ e.2, Latin c) ∧
        (e.1.head? = some 0x79 → e.1.tail ≠ [] ∧ e.1.tail.head? ≠ some 0x69)) ∧
      ∀ c ∈ e.1, lowerRomaji c = c) ∧
    (romajiTable.getLast? = some (lit "n", lit "ん") ∧
      ∀ e ∈ romajiTable.dropLast, e.1 ≠ lit "n") ∧
    ∃ e ∈ romajiTable, e.1 = lit "tch" := by
  rw [romajiTable, lit_eq]
  decide +kernel

theorem romajiTable_closing :
    ∀ e ∈ romajiTable, (∀ c ∈ e.1.dropLast, c ∉ closing) ∧
      ((∃ c ∈ e.1.getLast?, c ∈ closing) ∨ e.1 ∈ openKeys) :=
  fun e he => (romajiTable_facts.1 e he).1

theorem openKeys_apart :
    ∀ k ∈ openKeys, ∀ e ∈ romajiTable, k.isPrefixOf e.1 → k = e.1 ∨ k = lit "n" :=
  fun k hk e he => (romajiTable_facts.1 e he).2.1 k hk

theorem romajiTable_n_last : romajiTable.getLast? = some (lit "n", lit "ん") ∧
    ∀ e ∈ romajiTable.dropLast, e.1 ≠ lit "n" :=
  romajiTable_facts.2.1

-- "n" is the only key that another one starts with.
theorem eq_of_key_prefix {e e' : List UB × List UB} (he : e ∈ romajiTable) (he' : e' ∈ romajiTable)
    (hpre : e.1 <+: e'.1) : e.1 = e'.1 ∨ e.1 = lit "n" := by
  obtain ⟨-, ⟨c, hlast, hclosing⟩ | hopen⟩ := romajiTable_closing e he
  · left
    obtain ⟨t, ht⟩ := hpre
    by_contra hne
    have htail : t ≠ [] := by
      rintro rfl
      rw [List.append_nil] at ht
      exact hne ht
    have hmem : c ∈ e'.1.dropLast := by
      rw [← ht, List.dropLast_append_of_ne_nil htail]
      exact List.mem_append_left _ (List.mem_of_getLast? hlast)
    exact (romajiTable_closing e' he').1 c hmem hclosing
  · exact openKeys_apart e.1 hopen e' he' (List.isPrefixOf_iff_prefix.mpr hpre)

theorem key_length_le {rest : List UB} {e e' : List UB × List UB}
    (hfind : (romajiTable.find? fun e => e.1.isPrefixOf rest) = some e) (he' : e' ∈ romajiTable)
    (hpre : e'.1 <+: rest) : e'.1.length ≤ e.1.length := by
  have he := List.mem_of_find?_eq_some hfind
  have hmatch := List.isPrefixOf_iff_prefix.mp (List.find?_eq_some_iff_append.mp hfind).1
  by_contra hlong
  obtain heq | hn := eq_of_key_prefix he he'
    (List.prefix_of_prefix_length_le hmatch hpre (by omega))
  · rw [heq] at hlong
    omega
  -- "n" comes last, so a longer key has been tried before it
  · have hinit : e' ∈ romajiTable.dropLast := by
      rw [← List.dropLast_append_getLast? _ romajiTable_n_last.1] at he'
      obtain h | h := List.mem_append.mp he'
      · exact h
      · rw [List.mem_singleton.mp h, hn] at hlong
        exact absurd (Nat.le_refl _) hlong
    have hsome : (romajiTable.dropLast.find? fun e => e.1.isPrefixOf rest).isSome :=
      List.find?_isSome.mpr ⟨e', hinit, List.isPrefixOf_iff_prefix.mpr hpre⟩
    rw [← List.dropLast_append_getLast? _ romajiTable_n_last.1, List.find?_append,
      Option.or_of_isSome hsome] at hfind
    exact romajiTable_n_last.2 e (List.mem_of_find?_eq_some hfind) hn

-- The first entry that matches is the longest one.
theorem find_eq_longestEntry (rest : List UB) :
    (romajiTable.find? fun e => e.1.isPrefixOf rest) = longestEntry rest := by
  cases hfind : romajiTable.find? fun e => e.1.isPrefixOf rest with
  | none =>
      have hnil : (romajiTable.filter fun e => e.1.isPrefixOf rest) = [] :=
        List.filter_eq_nil_iff.mpr (List.find?_eq_none.mp hfind)
      rw [longestEntry, hnil]
      rfl
  | some e =>
      have hhead : (romajiTable.filter fun e => e.1.isPrefixOf rest).head? = some e := by
        rw [List.head?_filter, hfind]
      obtain ⟨es, hes⟩ := List.head?_eq_some_iff.mp hhead
      symm
      rw [longestEntry, hes]
      apply List.argmax_eq_some_iff.mpr
      refine ⟨List.mem_cons_self, fun e' he' => ?_, fun e' _ _ => ?_⟩
      · rw [← hes] at he'
        obtain ⟨he', hpre⟩ := List.mem_filter.mp he'
        exact key_length_le hfind he' (List.isPrefixOf_iff_prefix.mp hpre)
      · simp

-- A doubled character that is not a letter:
def DoubledOther (rest : List UB) : Prop := ∃ c tail, rest = c :: c :: tail ∧ ¬IsLetter c

theorem vowel_isLetter : ∀ c ∈ lit "aiueon", IsLetter c := by
  decide

-- The code differs from the reference there and nowhere else.
theorem romajiTurn_eq {rest : List UB} (h : ¬DoubledOther rest) :
    romajiTurn rest = referenceTurn rest := by
  cases rest with
  | nil => rfl
  | cons c rest =>
      have hdouble : rest.head? = some c ∧ c ∉ lit "aiueon" ↔
          rest.head? = some c ∧ IsConsonant c ∧ c ≠ 0x6E := by
        have hsplit : c ∉ lit "aiueon" ↔ c ∉ lit "aiueo" ∧ c ≠ 0x6E := by
          have happend : lit "aiueon" = lit "aiueo" ++ [0x6E] := by decide
          rw [happend, List.mem_append, List.mem_singleton, not_or]
        rw [hsplit, IsConsonant]
        constructor
        · rintro ⟨hhead, hvowel, hn⟩
          refine ⟨hhead, ⟨?_, hvowel⟩, hn⟩
          by_contra hletter
          obtain ⟨tail, rfl⟩ := List.head?_eq_some_iff.mp hhead
          exact h ⟨c, tail, rfl, hletter⟩
        · rintro ⟨hhead, ⟨_, hvowel⟩, hn⟩
          exact ⟨hhead, hvowel, hn⟩
      rw [romajiTurn, referenceTurn, find_eq_longestEntry]
      simp only [hdouble]

theorem romajiTurn_doubled {rest : List UB} (h : DoubledOther rest) :
    romajiTurn rest = (lit "っ", 0) := by
  obtain ⟨c, tail, rfl, hletter⟩ := h
  rw [romajiTurn, if_pos ⟨rfl, fun hc => hletter (vowel_isLetter c hc)⟩]

theorem longestEntry_spec {rest : List UB} {e : List UB × List UB}
    (h : longestEntry rest = some e) : e ∈ romajiTable ∧ e.1 <+: rest := by
  rw [← find_eq_longestEntry] at h
  exact ⟨List.mem_of_find?_eq_some h,
    List.isPrefixOf_iff_prefix.mp (List.find?_eq_some_iff_append.mp h).1⟩

theorem referenceTurn_ne_nil {rest : List UB} (h : rest ≠ []) : (referenceTurn rest).1 ≠ [] := by
  obtain ⟨c, rest, rfl⟩ := List.exists_cons_of_ne_nil h
  rw [referenceTurn]
  split_ifs
  · decide
  · decide
  · decide
  · cases hentry : longestEntry (c :: rest) with
    | none => exact List.cons_ne_nil c []
    | some e => exact (romajiTable_keys e (longestEntry_spec hentry).1).2

theorem referenceTexts_ne_nil (romaji : List UB) : [] ∉ romajiTexts referenceTurn romaji := by
  intro hmem
  obtain ⟨rest, hrest, hnil⟩ := List.mem_map.mp hmem
  obtain ⟨x, hx, rfl⟩ := List.mem_map.mp hrest
  exact referenceTurn_ne_nil (ne_nil_of_mem_stops hx) hnil

-- What stands for characters that are not letters.
theorem romajiTable_other :
    ∀ e ∈ romajiTable, (∃ c ∈ e.1.head?, IsLetter c) ∨ e.2.length = 3 ∧ e.2 ≠ lit "っ" :=
  fun e he => (romajiTable_facts.1 e he).2.2.1

theorem referenceTurn_differs {rest : List UB} (h : DoubledOther rest)
    (hascii : ∀ c ∈ rest, c < 0x80) (qs : List (List UB)) :
    ¬lit "っ" <+: (referenceTurn rest).1 ++ qs.flatten := by
  obtain ⟨c, tail, rfl, hletter⟩ := h
  have hc : c ≠ 0x6E := by
    rintro rfl
    exact hletter (by decide)
  rw [referenceTurn, if_neg (fun hand => hletter hand.2.1.1), if_neg (fun hand => hc hand.1),
    if_neg (fun hand => hc hand.1)]
  have htsu : lit "っ" = [0xE3, 0x81, 0xA3] := by decide
  cases hentry : longestEntry (c :: c :: tail) with
  | none =>
      dsimp only
      rw [htsu, List.cons_append, List.cons_prefix_cons]
      rintro ⟨rfl, -⟩
      exact absurd (hascii _ List.mem_cons_self) (by decide)
  | some e =>
      obtain ⟨he, hpre⟩ := longestEntry_spec hentry
      dsimp only
      intro hsame
      obtain ⟨d, hd, hd'⟩ | ⟨hlen, hne⟩ := romajiTable_other e he
      · obtain ⟨key, hkey⟩ := List.head?_eq_some_iff.mp hd
        rw [hkey, List.cons_prefix_cons] at hpre
        exact hletter (hpre.1 ▸ hd')
      · rw [← List.take_append_drop 3 (e.2 ++ qs.flatten)] at hsame
        apply hne
        have htake := List.prefix_iff_eq_take.mp hsame
        rw [List.take_append_drop] at htake
        rw [htake, List.take_append_of_le_length (by rw [hlen]; decide), List.take_of_length_le]
        rw [hlen]
        decide

-- Up to the first doubled character the texts are the same.
theorem romajiTexts_diverge (romaji : List UB) :
    (∀ rest ∈ romajiStops referenceTurn romaji, ¬DoubledOther rest) ∧
      romajiTexts romajiTurn romaji = romajiTexts referenceTurn romaji ∨
    ∃ ps rest qs rs, rest ∈ romajiStops referenceTurn romaji ∧ DoubledOther rest ∧
      rest <:+ romaji ∧ romajiTexts romajiTurn romaji = ps ++ lit "っ" :: rs ∧
      romajiTexts referenceTurn romaji = ps ++ (referenceTurn rest).1 :: qs := by
  induction hn : romaji.length using Nat.strong_induction_on generalizing romaji with
  | _ n ih =>
      cases romaji with
      | nil => simp
      | cons c tail =>
          rw [romajiTexts_cons, romajiTexts_cons, romajiStops_cons]
          by_cases hdouble : DoubledOther (c :: tail)
          · right
            rw [romajiTurn_doubled hdouble]
            exact ⟨[], _, _, _, List.mem_cons_self, hdouble, List.suffix_refl _, rfl, rfl⟩
          · rw [romajiTurn_eq hdouble]
            have hshort : (tail.drop (referenceTurn (c :: tail)).2).length < n := by
              rw [List.length_drop, ← hn, List.length_cons]
              omega
            obtain ⟨hnone, heq⟩ | ⟨ps, rest, qs, rs, hstop, hd, hsuf, hcode, href⟩ :=
              ih _ hshort _ rfl
            · left
              rw [heq]
              refine ⟨fun rest hrest => ?_, rfl⟩
              obtain rfl | hrest := List.mem_cons.mp hrest
              · exact hdouble
              · exact hnone rest hrest
            · right
              rw [hcode, href]
              refine ⟨(referenceTurn (c :: tail)).1 :: ps, rest, qs, rs,
                List.mem_cons_of_mem _ hstop, hd, ?_, rfl, rfl⟩
              exact (hsuf.trans (List.drop_suffix _ _)).trans (List.suffix_cons c tail)

def Spelled (romaji : List UB) : Prop := ∃ es ⊆ romajiTable, romaji = (es.map (·.1)).flatten

-- The rest begins with the entry that has letters, or with one that is missing.
def LeavesLetter (rest : List UB) : Prop := lit "tch" <+: rest ∨ lit "yi" <+: rest

-- Table facts about the keys in a row.
theorem romajiTable_latin : ∀ e ∈ romajiTable, e.1 = lit "tch" ∨ ∀ c ∈ e.2, ¬Latin c :=
  fun e he => (romajiTable_facts.1 e he).2.2.2.1

theorem romajiTable_single :
    ∀ e ∈ romajiTable, ∀ c, e.1.head? = some c →
      (e.1.tail.head? = some c → c = 0x6E) ∧ (e.1.tail = [] → IsConsonant c → c = 0x6E) ∧
      (c ∈ lit "aiueoy" → ∃ e' ∈ romajiTable, e'.1 = 0x6E :: e.1) := by
  intro e he c hc
  obtain ⟨hdouble, hsingle, hvowel⟩ := (romajiTable_facts.1 e he).2.2.2.2.1
  rw [hc] at hdouble hsingle hvowel
  refine ⟨fun h => Option.some.inj (hdouble h), fun hnil hcons => ?_, fun hv => ?_⟩
  · exact Option.some.inj (hsingle hnil ⟨c, rfl, hcons⟩)
  · exact hvowel ⟨c, rfl, hv⟩

theorem romajiTable_after_n :
    ∀ e ∈ romajiTable, e.1.head? = some 0x6E → e.1.tail = [] ∨
      e.1 = lit "nn" ∨ e.1 = lit "n'" ∨
      (∃ c ∈ e.1.tail.head?, c ∈ lit "aiueoy") ∧
        (e.1.tail = lit "yi" ∨ ∃ e' ∈ romajiTable, e'.1 = e.1.tail) :=
  fun e he => (romajiTable_facts.1 e he).2.2.2.2.2.1

theorem romajiTable_letters :
    ∀ e ∈ romajiTable, e.1.head? ≠ some 0x27 ∧
      (e.1 = lit "tch" → ∃ c ∈ e.2, Latin c) ∧
      (e.1.head? = some 0x79 → e.1.tail ≠ [] ∧ e.1.tail.head? ≠ some 0x69) :=
  fun e he => (romajiTable_facts.1 e he).2.2.2.2.2.2.1

-- An entry other than "n" is the longest one that matches where its key stands.
theorem longestEntry_key {e : List UB × List UB} (he : e ∈ romajiTable) (hne : e.1 ≠ lit "n")
    (rest : List UB) :
    ∃ e' ∈ romajiTable, e'.1 = e.1 ∧ longestEntry (e.1 ++ rest) = some e' := by
  have hpre : e.1 <+: e.1 ++ rest := List.prefix_append e.1 rest
  have hsome : (romajiTable.find? fun e' => e'.1.isPrefixOf (e.1 ++ rest)).isSome :=
    List.find?_isSome.mpr ⟨e, he, List.isPrefixOf_iff_prefix.mpr hpre⟩
  obtain ⟨e', hfind⟩ := Option.isSome_iff_exists.mp hsome
  have hlong := key_length_le hfind he hpre
  rw [find_eq_longestEntry] at hfind
  obtain ⟨he', hpre'⟩ := longestEntry_spec hfind
  obtain heq | hn := eq_of_key_prefix he he' (List.prefix_of_prefix_length_le hpre hpre' hlong)
  · exact ⟨e', he', heq.symm, hfind⟩
  · exact absurd hn hne

-- A turn that takes an entry:
theorem referenceTurn_key {e : List UB × List UB} (he : e ∈ romajiTable) (hne : e.1 ≠ lit "n")
    {c : UB} {key : List UB} (hkey : e.1 = c :: key) (rest : List UB)
    (hdouble : ¬((key ++ rest).head? = some c ∧ IsConsonant c ∧ c ≠ 0x6E))
    (hn : c = 0x6E → ∃ d, (key ++ rest).head? = some d ∧ d ∈ lit "aiueoy") :
    ∃ e' ∈ romajiTable, e'.1 = e.1 ∧ referenceTurn (c :: (key ++ rest)) = (e'.2, key.length) := by
  obtain ⟨e', he', hsame, hlongest⟩ := longestEntry_key he hne rest
  refine ⟨e', he', hsame, ?_⟩
  rw [hkey, List.cons_append] at hlongest
  have hn1 : ¬(c = 0x6E ∧ ((key ++ rest).head? = some 0x6E ∨ (key ++ rest).head? = some 0x27)) := by
    rintro ⟨hc, hhead⟩
    obtain ⟨d, hd, hvowel⟩ := hn hc
    rw [hd] at hhead
    obtain h | h := hhead
    · exact absurd (Option.some.inj h ▸ hvowel) (by decide)
    · exact absurd (Option.some.inj h ▸ hvowel) (by decide)
  have hn2 : ¬(c = 0x6E ∧ (key ++ rest).head?.all (· ∉ lit "aiueoy")) := by
    rintro ⟨hc, hall⟩
    obtain ⟨d, hd, hvowel⟩ := hn hc
    rw [hd, Option.all_some] at hall
    exact (of_decide_eq_true hall) hvowel
  rw [referenceTurn, if_neg hdouble, if_neg hn1, if_neg hn2, hlongest]
  have hlen : e'.1.length = key.length + 1 := by rw [hsame, hkey, List.length_cons]
  simp [hlen]

-- Romaji spelled with entries, or an apostrophe before it.
def Synced (l : List UB) : Prop := Spelled l ∨ ∃ l', Spelled l' ∧ l = 0x27 :: l'

theorem Spelled.cons {e : List UB × List UB} (he : e ∈ romajiTable) {l : List UB}
    (h : Spelled l) : Spelled (e.1 ++ l) := by
  obtain ⟨es, hes, rfl⟩ := h
  exact ⟨e :: es, List.cons_subset.mpr ⟨he, hes⟩, rfl⟩

theorem Spelled.cases {l : List UB} (h : Spelled l) :
    l = [] ∨ ∃ e ∈ romajiTable, ∃ l', Spelled l' ∧ l = e.1 ++ l' := by
  obtain ⟨es, hes, rfl⟩ := h
  cases es with
  | nil => exact .inl rfl
  | cons e es =>
      obtain ⟨he, hes⟩ := List.cons_subset.mp hes
      exact .inr ⟨e, he, _, ⟨es, hes, rfl⟩, rfl⟩

theorem spelled_nil : Spelled [] := ⟨[], List.nil_subset _, rfl⟩

theorem spelled_n {l : List UB} (h : Spelled l) : Spelled (0x6E :: l) :=
  Spelled.cons (List.mem_of_getLast? romajiTable_n_last.1) h

theorem kana_n : ∀ c ∈ lit "ん", ¬Latin c := by
  decide

theorem longestEntry_eq_none {c : UB} {rest : List UB}
    (h : ∀ e ∈ romajiTable, ∀ key, e.1 = c :: key → ¬key <+: rest) :
    longestEntry (c :: rest) = none := by
  rw [← find_eq_longestEntry, List.find?_eq_none]
  intro e he hmatch
  obtain ⟨d, key, hkey⟩ := List.exists_cons_of_ne_nil (romajiTable_keys e he).1
  have hpre := List.isPrefixOf_iff_prefix.mp hmatch
  rw [hkey, List.cons_prefix_cons] at hpre
  obtain ⟨rfl, htail⟩ := hpre
  exact h e he key hkey htail

theorem referenceTurn_apostrophe (rest : List UB) : referenceTurn (0x27 :: rest) = ([0x27], 0) := by
  have hnone : longestEntry (0x27 :: rest) = none := by
    apply longestEntry_eq_none
    intro e he key hkey
    exact absurd (by rw [hkey]; rfl) (romajiTable_letters e he).1
  rw [referenceTurn, if_neg (fun hand => absurd hand.2.1.1 (by decide)),
    if_neg (fun hand => absurd hand.1 (by decide)), if_neg (fun hand => absurd hand.1 (by decide)),
    hnone]

section Turns

variable {e : List UB × List UB} {l : List UB}

theorem referenceTurn_nn {d : UB} (hd : d = 0x6E ∨ d = 0x27) (l : List UB) :
    referenceTurn (0x6E :: d :: l) = (lit "ん", 1) := by
  have hsecond : (d :: l).head? = some 0x6E ∨ (d :: l).head? = some 0x27 :=
    hd.imp (congrArg some) (congrArg some)
  rw [referenceTurn, if_neg (fun hand => hand.2.2 rfl), if_pos ⟨rfl, hsecond⟩]

-- Behind an "n" of its own the next entry decides.
theorem referenceTurn_n (hl : Spelled l) : (∀ d ∈ (referenceTurn (0x6E :: l)).1, ¬Latin d) ∧
    (Synced (l.drop (referenceTurn (0x6E :: l)).2) ∨
      LeavesLetter (l.drop (referenceTurn (0x6E :: l)).2)) := by
  obtain rfl | ⟨e, he, l', hl', rfl⟩ := hl.cases
  · have hturn : referenceTurn [0x6E] = (lit "ん", 0) := by
      rw [referenceTurn, if_neg (by simp), if_neg (by simp), if_pos ⟨rfl, rfl⟩]
    rw [hturn]
    exact ⟨kana_n, .inl (.inl spelled_nil)⟩
  obtain ⟨d, key, hkey⟩ := List.exists_cons_of_ne_nil (romajiTable_keys e he).1
  have hdouble : ¬((d :: (key ++ l')).head? = some 0x6E ∧ IsConsonant 0x6E ∧ (0x6E : UB) ≠ 0x6E) :=
    fun hand => hand.2.2 rfl
  have hapostrophe : d ≠ 0x27 := by
    rintro rfl
    exact (romajiTable_letters e he).1 (by rw [hkey]; rfl)
  by_cases hd : d = 0x6E
  -- the first letter of the entry is taken along
  · subst hd
    rw [hkey, List.cons_append, referenceTurn_nn (.inl rfl)]
    refine ⟨kana_n, ?_⟩
    rw [List.drop_one, List.tail_cons]
    have hcases := romajiTable_after_n e he (by rw [hkey]; rfl)
    rw [hkey, List.tail_cons] at hcases
    obtain rfl | hnn | hna | ⟨-, rfl | ⟨e', he', rfl⟩⟩ := hcases
    · exact .inl (.inl hl')
    · obtain rfl : key = [0x6E] := (List.cons.inj hnn).2
      exact .inl (.inl (spelled_n hl'))
    · obtain rfl : key = [0x27] := (List.cons.inj hna).2
      exact .inl (.inr ⟨l', hl', rfl⟩)
    · exact .inr (.inr (List.prefix_append _ _))
    · exact .inl (.inl (Spelled.cons he' hl'))
  by_cases hvowel : d ∈ lit "aiueoy"
  -- the two entries make a longer one
  · obtain ⟨e', he', hkey'⟩ := (romajiTable_single e he d (by rw [hkey]; rfl)).2.2 hvowel
    rw [hkey] at hkey'
    have hlong : e'.1 ≠ lit "n" := by
      rw [hkey']
      exact fun h => absurd (congrArg List.length h) (by simp [lit, String.utf8EncodeChar])
    obtain ⟨e'', he'', hsame, hturn⟩ :=
      referenceTurn_key he' hlong hkey' l' hdouble fun _ => ⟨d, rfl, hvowel⟩
    rw [hkey, List.cons_append, ← List.cons_append, hturn]
    refine ⟨?_, .inl (.inl ?_)⟩
    · obtain htch | hkana := romajiTable_latin e'' he''
      · rw [hsame, hkey'] at htch
        exact absurd (List.cons.inj htch).1 (by decide)
      · exact hkana
    · rw [List.drop_left]
      exact hl'
  · have hturn : referenceTurn (0x6E :: d :: (key ++ l')) = (lit "ん", 0) := by
      rw [referenceTurn, if_neg hdouble, if_neg, if_pos]
      · exact ⟨rfl, by simpa using hvowel⟩
      · rintro ⟨-, h | h⟩
        · exact hd (Option.some.inj h)
        · exact hapostrophe (Option.some.inj h)
    rw [hkey, List.cons_append, hturn]
    refine ⟨kana_n, .inl (.inl ?_)⟩
    rw [List.drop_zero, ← List.cons_append, ← hkey]
    exact Spelled.cons he hl'

-- A turn leaves no letter, and stays at the start of an entry.
theorem referenceTurn_synced {c : UB} {tail : List UB} (h : Synced (c :: tail))
    (hno : ¬LeavesLetter (c :: tail)) : (∀ d ∈ (referenceTurn (c :: tail)).1, ¬Latin d) ∧
    (Synced (tail.drop (referenceTurn (c :: tail)).2) ∨
      LeavesLetter (tail.drop (referenceTurn (c :: tail)).2)) := by
  obtain hspelled | ⟨l, hl, heq⟩ := h
  · obtain hnil | ⟨e, he, l, hl, heq⟩ := hspelled.cases
    · exact absurd hnil (List.cons_ne_nil c tail)
    obtain ⟨d, key, hkey⟩ := List.exists_cons_of_ne_nil (romajiTable_keys e he).1
    rw [hkey, List.cons_append] at heq
    obtain ⟨rfl, rfl⟩ := List.cons.inj heq
    obtain ⟨hsecond, hsingle, -⟩ := romajiTable_single e he c (by rw [hkey]; rfl)
    rw [hkey, List.tail_cons] at hsecond hsingle
    have hdouble : ¬((key ++ l).head? = some c ∧ IsConsonant c ∧ c ≠ 0x6E) := by
      rintro ⟨hhead, hcons, hn⟩
      cases key with
      | nil => exact hn (hsingle rfl hcons)
      | cons k key => exact hn (hsecond hhead)
    have htake : e.1 ≠ lit "n" → (c = 0x6E → ∃ d, (key ++ l).head? = some d ∧ d ∈ lit "aiueoy") →
        (∀ d ∈ (referenceTurn (c :: (key ++ l))).1, ¬Latin d) ∧
          (key ++ l).drop (referenceTurn (c :: (key ++ l))).2 = l := by
      intro hne hn
      obtain ⟨e', he', hsame, hturn⟩ := referenceTurn_key he hne hkey l hdouble hn
      rw [hturn]
      refine ⟨?_, List.drop_left⟩
      obtain htch | hkana := romajiTable_latin e' he'
      · refine absurd (.inl ?_) hno
        rw [← List.cons_append, ← hkey, ← hsame, htch]
        exact List.prefix_append _ l
      · exact hkana
    by_cases hn : c = 0x6E
    · subst hn
      have hafter := romajiTable_after_n e he (by rw [hkey]; rfl)
      rw [hkey, List.tail_cons] at hafter
      obtain rfl | hnn | hna | ⟨⟨d, hd, hvowel⟩, -⟩ := hafter
      · exact referenceTurn_n hl
      · obtain rfl : key = [0x6E] := (List.cons.inj hnn).2
        rw [List.singleton_append, referenceTurn_nn (.inl rfl)]
        exact ⟨kana_n, .inl (.inl hl)⟩
      · obtain rfl : key = [0x27] := (List.cons.inj hna).2
        rw [List.singleton_append, referenceTurn_nn (.inr rfl)]
        exact ⟨kana_n, .inl (.inl hl)⟩
      · have hlong : e.1 ≠ lit "n" := by
          rw [hkey]
          intro h
          obtain rfl : key = [] := (List.cons.inj h).2
          cases hd
        obtain ⟨hkana, hdrop⟩ := htake hlong fun _ =>
          ⟨d, by rw [List.head?_append, Option.mem_def.mp hd]; rfl, hvowel⟩
        rw [hdrop]
        exact ⟨hkana, .inl (.inl hl)⟩
    · have hlong : e.1 ≠ lit "n" := by
        rw [hkey]
        exact fun h => hn (List.cons.inj h).1
      obtain ⟨hkana, hdrop⟩ := htake hlong fun h => absurd h hn
      rw [hdrop]
      exact ⟨hkana, .inl (.inl hl)⟩
  · obtain ⟨rfl, rfl⟩ := List.cons.inj heq
    rw [referenceTurn_apostrophe]
    exact ⟨by decide, .inl (.inl hl)⟩

theorem reference_no_latin {l : List UB} (h : Synced l)
    (hno : ∀ rest ∈ romajiStops referenceTurn l, ¬LeavesLetter rest) :
    ∀ p ∈ romajiTexts referenceTurn l, ∀ d ∈ p, ¬Latin d := by
  induction hn : l.length using Nat.strong_induction_on generalizing l with
  | _ n ih =>
      cases l with
      | nil => simp
      | cons c tail =>
          rw [romajiStops_cons] at hno
          rw [romajiTexts_cons]
          obtain ⟨hkana, hnext⟩ := referenceTurn_synced h (hno _ List.mem_cons_self)
          have hrest := fun rest hrest => hno rest (List.mem_cons_of_mem _ hrest)
          have hsynced : Synced (tail.drop (referenceTurn (c :: tail)).2) := by
            obtain hsynced | hleaves := hnext
            · exact hsynced
            · cases hdrop : tail.drop (referenceTurn (c :: tail)).2 with
              | nil => exact .inl spelled_nil
              | cons d tail' =>
                  rw [hdrop] at hleaves hrest
                  rw [romajiStops_cons] at hrest
                  exact absurd hleaves (hrest _ List.mem_cons_self)
          have hshort : (tail.drop (referenceTurn (c :: tail)).2).length < n := by
            rw [List.length_drop, ← hn, List.length_cons]
            omega
          intro p hp
          obtain rfl | hp := List.mem_cons.mp hp
          · exact hkana
          · exact ih _ hshort hsynced hrest rfl p hp

theorem referenceTurn_latin {rest : List UB} (h : LeavesLetter rest) :
    ∃ d ∈ (referenceTurn rest).1, Latin d := by
  obtain ⟨l, rfl⟩ | ⟨l, rfl⟩ := h
  · have hbytes : lit "tch" = [0x74, 0x63, 0x68] := by decide
    obtain ⟨e, he, hkey⟩ := romajiTable_facts.2.2
    obtain ⟨e', he', hsame, hturn⟩ := referenceTurn_key he (by rw [hkey]; decide)
      (hkey.trans hbytes) l (fun hand => absurd (Option.some.inj hand.1) (by decide))
      (fun h => absurd h (by decide))
    have hlatin := (romajiTable_letters e' he').2.1 (hsame.trans hkey)
    rw [hbytes, List.cons_append, hturn]
    exact hlatin
  · have hnone : longestEntry (0x79 :: 0x69 :: l) = none := by
      apply longestEntry_eq_none
      intro e he key hkey hpre
      obtain ⟨hne, hhead⟩ := (romajiTable_letters e he).2.2 (by rw [hkey]; rfl)
      rw [hkey, List.tail_cons] at hne hhead
      obtain ⟨k, key', rfl⟩ := List.exists_cons_of_ne_nil hne
      exact hhead (by rw [(List.cons_prefix_cons.mp hpre).1]; rfl)
    have hturn : referenceTurn (0x79 :: 0x69 :: l) = ([0x79], 0) := by
      rw [referenceTurn, if_neg (fun hand => absurd (Option.some.inj hand.1) (by decide)),
        if_neg (fun hand => absurd hand.1 (by decide)),
        if_neg (fun hand => absurd hand.1 (by decide)), hnone]
    have hbytes : lit "yi" = [0x79, 0x69] := by decide
    rw [hbytes, List.cons_append, List.singleton_append, hturn]
    exact ⟨0x79, List.mem_cons_self, by decide⟩

end Turns

theorem romajiTable_lower : ∀ e ∈ romajiTable, ∀ c ∈ e.1, lowerRomaji c = c :=
  fun e he => (romajiTable_facts.1 e he).2.2.2.2.2.2.2

theorem lowered_of_spelled {romaji : List UB} (h : Spelled romaji) : lowered romaji = romaji := by
  obtain ⟨es, hes, rfl⟩ := h
  refine (List.map_congr_left fun c hc => ?_).trans (List.map_id _)
  obtain ⟨key, hkey, hc⟩ := List.mem_flatten.mp hc
  obtain ⟨e, he, rfl⟩ := List.mem_map.mp hkey
  exact romajiTable_lower e (hes he) c hc

theorem lowered_ascii {romaji : List UB} (h : ∀ c ∈ romaji, c < 0x80) :
    ∀ c ∈ lowered romaji, c < 0x80 := by
  intro c hc
  obtain ⟨d, hd, rfl⟩ := List.mem_map.mp hc
  have hascii := h d hd
  unfold lowerRomaji
  split
  · rename_i hcapital
    simp only [UInt8.le_iff_toNat_le, UInt8.lt_iff_toNat_lt, UInt8.toNat_add, UInt8.toNat_sub,
      UInt8.reduceToNat] at hcapital ⊢
    omega
  · exact hascii

section Reference

variable {romaji : List UB} {maxLen : Nat}

-- A text starts below the last 4 cells of the buffer.
theorem romajiToHiragana_eq_iff (hascii : ∀ c ∈ romaji, c < 0x80) (hlen : romaji.length < 256)
    (hfit : (reference romaji).length < maxLen) :
    romajiToHiragana romaji maxLen = reference romaji ↔
      (∀ rest ∈ referenceStops romaji, ¬DoubledOther rest) ∧
        (romaji = [] ∨ (referenceTexts romaji).dropLast.flatten.length + 4 < maxLen) := by
  have hroom : ([] : List UB).length + (referenceTexts romaji).flatten.length < maxLen := by
    rw [List.length_nil, Nat.zero_add]
    exact hfit
  have hempty : referenceTexts romaji = [] ↔ romaji = [] := by
    cases romaji with
    | nil => simp [referenceTexts, lowered]
    | cons c tail => simp [referenceTexts, lowered, romajiTexts_cons]
  rw [romajiToHiragana_eq, List.take_of_length_le (by omega), reference]
  obtain ⟨hnone, hsame⟩ | ⟨ps, rest, qs, rs, hstop, hdouble, hsuf, hcode, href⟩ :=
    romajiTexts_diverge (lowered romaji)
  · have hne : [] ∉ referenceTexts romaji := referenceTexts_ne_nil (lowered romaji)
    have hemit := (@emit_eq_iff _ 4 maxLen _ [] hne hroom).trans (fits_iff hne hroom)
    rw [List.nil_append, List.length_nil, Nat.zero_add, hempty] at hemit
    rw [hsame]
    exact hemit.trans ⟨fun h => ⟨hnone, h⟩, fun h => h.2⟩
  · refine ⟨fun heq => ?_, fun h => absurd hdouble (h.1 rest hstop)⟩
    have hne := referenceTexts_ne_nil (lowered romaji)
    rw [referenceTexts, href] at heq hroom
    rw [href] at hne
    rw [hcode] at heq
    have hdiffer := referenceTurn_differs hdouble
      (fun c hc => lowered_ascii hascii c (hsuf.subset hc)) qs
    refine absurd heq (@emit_ne _ 4 maxLen ps qs [] _ _ ?_ hroom (by decide) hdiffer rs)
    intro hmem
    apply hne
    obtain h | h := List.mem_append.mp hmem
    · exact List.mem_append_left _ h
    · exact List.mem_append_right _ (List.mem_singleton.mp h ▸ List.mem_cons_self)

theorem reference_latin_iff (h : Spelled romaji) :
    (∀ c ∈ reference romaji, ¬Latin c) ↔ ∀ rest ∈ referenceStops romaji, ¬LeavesLetter rest := by
  constructor
  · intro hkana rest hrest hleaves
    obtain ⟨d, hd, hlatin⟩ := referenceTurn_latin hleaves
    exact hkana d (List.mem_flatten.mpr ⟨_, List.mem_map.mpr ⟨rest, hrest, rfl⟩, hd⟩) hlatin
  · intro hno c hc
    obtain ⟨p, hp, hc⟩ := List.mem_flatten.mp hc
    have hsynced : Synced (lowered romaji) := .inl (by rwa [lowered_of_spelled h])
    exact reference_no_latin hsynced hno p hp c hc

-- The reference is met, and without letters where entries are spelled, unless a character that is
-- not a letter is doubled, the last text starts in the last cells, or "tch" or "yi" is left.
theorem romajiToHiragana_correct_iff (hascii : ∀ c ∈ romaji, c < 0x80)
    (hlen : romaji.length < 256) (hfit : (reference romaji).length < maxLen) :
    (romajiToHiragana romaji maxLen = reference romaji ∧
        (Spelled romaji → ∀ c ∈ romajiToHiragana romaji maxLen, ¬Latin c)) ↔
      (∀ rest ∈ referenceStops romaji, ¬DoubledOther rest) ∧
        (romaji = [] ∨ (referenceTexts romaji).dropLast.flatten.length + 4 < maxLen) ∧
        (Spelled romaji → ∀ rest ∈ referenceStops romaji, ¬LeavesLetter rest) := by
  rw [← and_assoc, ← romajiToHiragana_eq_iff hascii hlen hfit]
  apply and_congr_right
  intro heq
  rw [heq]
  exact forall_congr' reference_latin_iff

theorem romajiToHiragana_correct_kyatto :
    romajiToHiragana (lit "kyatto") 64 = reference (lit "kyatto") ∧
      ¬∃ rest ∈ referenceStops (lit "kyatto"), DoubledOther rest := by
  have hkana : (reference (lit "kyatto")).length < 64 ∧
      romajiToHiragana (lit "kyatto") 64 = reference (lit "kyatto") ∧
      ∀ c ∈ romajiToHiragana (lit "kyatto") 64, ¬Latin c := by decide +kernel
  have hnone := ((@romajiToHiragana_correct_iff (lit "kyatto") 64 (by decide) (by decide)
    hkana.1).mp ⟨hkana.2.1, fun _ => hkana.2.2⟩).1
  exact ⟨hkana.2.1, fun ⟨rest, hrest, hdouble⟩ => hnone rest hrest hdouble⟩

-- Two digits one become a small tsu and a digit.
theorem romajiToHiragana_not_correct :
    ¬∀ (romaji : List UB) (maxLen : Nat), (∀ c ∈ romaji, c < 0x80) → romaji.length < 256 →
      (reference romaji).length < maxLen →
      romajiToHiragana romaji maxLen = reference romaji ∧
        (Spelled romaji → ∀ c ∈ romajiToHiragana romaji maxLen, ¬Latin c) := by
  intro h
  have hdigits : (reference (lit "11")).length < 64 ∧
      romajiToHiragana (lit "11") 64 ≠ reference (lit "11") := by decide +kernel
  exact hdigits.2 (h (lit "11") 64 (by decide) (by decide) hdigits.1).1

end Reference

end BTron.Mozc
