import BTron.Lib.Utf8
import BTron.Mozc

namespace BTron.Mozc

open Lib Lib.Relaxation

-- What the rest of a reading can start with, with its POS and word cost: a word of a dictionary,
-- or a single character, which costs less where no dictionary word starts.
inductive Piece (d : UserDictionary) (rest : List UB) : Edge MozcPos → Prop
  | user {e} : e ∈ d.entries → e.reading <+: rest →
      Piece d rest ⟨e.reading.length, e.pos, e.unigramCost⟩
  | system {e} : e ∈ systemDictionary → e.reading <+: rest →
      Piece d rest ⟨e.reading.length, e.pos, e.cost⟩
  | dear {c} : rest.head? = some c → charLen c ≤ rest.length →
      ((∃ e ∈ d.entries, e.reading <+: rest) ∨ ∃ e ∈ systemDictionary, e.reading <+: rest) →
      Piece d rest ⟨charLen c, .noun, 3500⟩
  | cheap {c} : rest.head? = some c → charLen c ≤ rest.length →
      ¬((∃ e ∈ d.entries, e.reading <+: rest) ∨ ∃ e ∈ systemDictionary, e.reading <+: rest) →
      Piece d rest ⟨charLen c, .noun, 2000⟩

-- The pieces cut the first `j` bytes of the reading.
inductive Cut (d : UserDictionary) (reading : List UB) : List (Edge MozcPos) → Nat → Prop
  | nil : Cut d reading [] 0
  | snoc {es i e} : Cut d reading es i → Piece d (reading.drop i) e → 0 < e.len →
      Cut d reading (es ++ [e]) (i + e.len)

-- The word costs and the transition costs from BOS on.
def pathCost (es : List (Edge MozcPos)) : Nat := cost getTransitionCost .bos es

-- The POS of the last piece.
def lastPos (es : List (Edge MozcPos)) : MozcPos := last .bos es

-- Some cheapest way to cut the reading is cheapest up to each of its cuts, and no way to cut up to
-- there as cheaply has a dearer transition to the next piece.
def OnePosSuffices (d : UserDictionary) (reading : List UB) : Prop :=
  ∃ es, Cut d reading es reading.length ∧
    (∀ es', Cut d reading es' reading.length → pathCost es ≤ pathCost es') ∧
    ∀ p e q, es = p ++ e :: q → ∀ j p', Cut d reading p j → Cut d reading p' j →
      pathCost p ≤ pathCost p' ∧
        (pathCost p' = pathCost p →
          getTransitionCost (lastPos p') e.label ≤ getTransitionCost (lastPos p) e.label)

theorem mem_userEdges {d : UserDictionary} {rest : List UB} {e : Edge MozcPos} :
    e ∈ userEdges d rest ↔
      ∃ w ∈ d.entries, w.reading <+: rest ∧ e = ⟨w.reading.length, w.pos, w.unigramCost⟩ := by
  simp only [userEdges, List.mem_map, List.mem_filter, List.isPrefixOf_iff_prefix]
  constructor
  · rintro ⟨w, ⟨hw, hpre⟩, rfl⟩
    exact ⟨w, hw, hpre, rfl⟩
  · rintro ⟨w, hw, hpre, rfl⟩
    exact ⟨w, ⟨hw, hpre⟩, rfl⟩

theorem mem_systemEdges {rest : List UB} {e : Edge MozcPos} :
    e ∈ systemEdges rest ↔
      ∃ w ∈ systemDictionary, w.reading <+: rest ∧ e = ⟨w.reading.length, w.pos, w.cost⟩ := by
  simp only [systemEdges, List.mem_map, List.mem_filter, List.isPrefixOf_iff_prefix]
  constructor
  · rintro ⟨w, ⟨hw, hpre⟩, rfl⟩
    exact ⟨w, hw, hpre, rfl⟩
  · rintro ⟨w, hw, hpre, rfl⟩
    exact ⟨w, ⟨hw, hpre⟩, rfl⟩

theorem mem_fallbackEdge {hasDictMatch : Bool} {rest : List UB} {e : Edge MozcPos} :
    e ∈ fallbackEdge hasDictMatch rest ↔ ∃ c, rest.head? = some c ∧ charLen c ≤ rest.length ∧
      e = ⟨charLen c, .noun, if hasDictMatch then 3500 else 2000⟩ := by
  cases rest with
  | nil => simp [fallbackEdge]
  | cons c rest =>
      unfold fallbackEdge
      split_ifs <;> simp_all

theorem words_nonempty_iff (d : UserDictionary) (rest : List UB) :
    (!(userEdges d rest ++ systemEdges rest).isEmpty) = true ↔
      (∃ e ∈ d.entries, e.reading <+: rest) ∨ ∃ e ∈ systemDictionary, e.reading <+: rest := by
  rw [Bool.not_eq_true', List.isEmpty_eq_false_iff_exists_mem]
  simp only [List.mem_append, mem_userEdges, mem_systemEdges]
  constructor
  · rintro ⟨_, ⟨w, hw, hpre, -⟩ | ⟨w, hw, hpre, -⟩⟩
    · exact .inl ⟨w, hw, hpre⟩
    · exact .inr ⟨w, hw, hpre⟩
  · rintro (⟨w, hw, hpre⟩ | ⟨w, hw, hpre⟩)
    · exact ⟨_, .inl ⟨w, hw, hpre, rfl⟩⟩
    · exact ⟨_, .inr ⟨w, hw, hpre, rfl⟩⟩

-- The words the search considers at a position are the pieces there.
theorem mem_edgesAt {d : UserDictionary} {reading : List UB} {i : Nat} {e : Edge MozcPos} :
    e ∈ edgesAt d reading i ↔ Piece d (reading.drop i) e := by
  simp only [edgesAt, List.mem_append, mem_userEdges, mem_systemEdges, mem_fallbackEdge]
  constructor
  · rintro ((⟨w, hw, hpre, rfl⟩ | ⟨w, hw, hpre, rfl⟩) | ⟨c, hc, hlen, rfl⟩)
    · exact .user hw hpre
    · exact .system hw hpre
    · split_ifs with hwords
      · exact .dear hc hlen ((words_nonempty_iff d _).mp hwords)
      · exact .cheap hc hlen fun h => hwords ((words_nonempty_iff d _).mpr h)
  · intro h
    cases h with
    | user hw hpre => exact .inl (.inl ⟨_, hw, hpre, rfl⟩)
    | system hw hpre => exact .inl (.inr ⟨_, hw, hpre, rfl⟩)
    | @dear c hc hlen hwords =>
        refine .inr ⟨c, hc, hlen, ?_⟩
        rw [if_pos ((words_nonempty_iff d _).mpr hwords)]
    | @cheap c hc hlen hwords =>
        refine .inr ⟨c, hc, hlen, ?_⟩
        rw [if_neg fun h => hwords ((words_nonempty_iff d _).mp h)]

theorem cut_iff_walk {d : UserDictionary} {reading : List UB} {es : List (Edge MozcPos)} {j : Nat} :
    Cut d reading es j ↔ Walk (edgesAt d reading) es j := by
  constructor
  · intro h
    induction h with
    | nil => exact .nil
    | snoc _ he hlen ih => exact .snoc ih (mem_edgesAt.mpr he) hlen
  · intro h
    induction h with
    | nil => exact .nil
    | snoc _ he hlen ih => exact .snoc ih (mem_edgesAt.mp he) hlen

theorem getTransitionCost_le (p1 p2 : MozcPos) : getTransitionCost p1 p2 ≤ 9999 := by
  cases p1 <;> cases p2 <;> decide

theorem systemDictionary_cost : ∀ e ∈ systemDictionary, e.cost ≤ 3500 :=
  fun e he => (systemDictionary_words e he).1

theorem piece_weight {d : UserDictionary} {rest : List UB} {e : Edge MozcPos}
    (h : Piece d rest e) : e.weight ≤ 3500 := by
  cases h with
  | user hw _ => exact Nat.le_trans (d.registered _ hw).cost_le (by decide)
  | system hw _ => exact systemDictionary_cost _ hw
  | dear => exact Nat.le_refl 3500
  | cheap => exact Nat.le_add_right 2000 1500

theorem edge_cost_le (d : UserDictionary) (reading : List UB) (i : Nat) :
    ∀ e ∈ edgesAt d reading i, ∀ l, e.weight + getTransitionCost l e.label ≤ 13499 := by
  intro e he l
  have hweight := piece_weight (mem_edgesAt.mp he)
  have htrans := getTransitionCost_le l e.label
  omega

theorem linked_latticeDp (d : UserDictionary) (reading : List UB) :
    Linked getTransitionCost 9999999 (edgesAt d reading) .bos reading.length
      (latticeDp d reading) :=
  linked_scan reading.length

theorem latticeDp_reached {d : UserDictionary} {reading : List UB} (hlen : reading.length ≤ 256)
    {es : List (Edge MozcPos)} {j : Nat} (hcut : Cut d reading es j) (hj : j ≤ reading.length) :
    (latticeDp d reading j).cost < 9999999 :=
  (linked_latticeDp d reading).reached_of_walk (edge_cost_le d reading) (by omega)
    (cut_iff_walk.mp hcut) hj

private theorem charLen_table : ∀ n : Fin 256, charLen (UInt8.ofNat n.val) =
    if 0xC0 ≤ n.val ∧ n.val < 0xE0 then 2
    else if 0xE0 ≤ n.val ∧ n.val < 0xF0 then 3
    else if 0xF0 ≤ n.val ∧ n.val < 0xF8 then 4 else 1 := by
  decide +kernel

theorem charLen_ofNat {n : Nat} (h : n < 256) : charLen (UInt8.ofNat n) =
    if 0xC0 ≤ n ∧ n < 0xE0 then 2
    else if 0xE0 ≤ n ∧ n < 0xF0 then 3
    else if 0xF0 ≤ n ∧ n < 0xF8 then 4 else 1 := charLen_table ⟨n, h⟩

theorem charLen_pos (c : UB) : 0 < charLen c := by
  unfold charLen
  split_ifs <;> decide

-- The first byte of a character says how long it is.
theorem charLen_encode (c : Char) : ∃ b bs, String.utf8EncodeChar c = b :: bs ∧
    charLen b = (b :: bs).length := by
  by_cases h1 : c.toNat < 0x80
  · refine ⟨_, _, Utf8.encode_one h1, ?_⟩
    rw [charLen_ofNat (by omega), if_neg (by omega), if_neg (by omega), if_neg (by omega)]
    rfl
  · by_cases h2 : c.toNat < 0x800
    · refine ⟨_, _, Utf8.encode_two (by omega) h2, ?_⟩
      rw [charLen_ofNat (by omega), if_pos (by omega)]
      rfl
    · by_cases h3 : c.toNat < 0x10000
      · refine ⟨_, _, Utf8.encode_three (by omega) h3, ?_⟩
        rw [charLen_ofNat (by omega), if_neg (by omega), if_pos (by omega)]
        rfl
      · refine ⟨_, _, Utf8.encode_four (by omega), ?_⟩
        rw [charLen_ofNat (by omega), if_neg (by omega), if_neg (by omega), if_pos (by omega)]
        rfl

-- A character can always be cut off on its own.
theorem exists_char_piece (d : UserDictionary) (c : Char) (rest : List UB) :
    ∃ e, Piece d (String.utf8EncodeChar c ++ rest) e ∧
      e.len = (String.utf8EncodeChar c).length ∧ 0 < e.len := by
  obtain ⟨b, bs, henc, hlen⟩ := charLen_encode c
  rw [henc, ← hlen]
  have hle : charLen b ≤ (b :: bs ++ rest).length := by
    rw [hlen, List.length_append]
    omega
  by_cases hwords : (∃ e ∈ d.entries, e.reading <+: b :: bs ++ rest) ∨
      ∃ e ∈ systemDictionary, e.reading <+: b :: bs ++ rest
  · exact ⟨_, .dear rfl hle hwords, rfl, charLen_pos b⟩
  · exact ⟨_, .cheap rfl hle hwords, rfl, charLen_pos b⟩

theorem exists_cut_of_valid (d : UserDictionary) (as : List UB) (cs : List Char) {es i}
    (hcut : Cut d (as ++ Utf8.bytes cs) es i) (hi : i = as.length) :
    ∃ es', Cut d (as ++ Utf8.bytes cs) es' (as ++ Utf8.bytes cs).length := by
  induction cs generalizing as es i with
  | nil => exact ⟨es, by rwa [Utf8.bytes_nil, List.append_nil, ← hi] at *⟩
  | cons c cs ih =>
      obtain ⟨e, hpiece, hlen, hpos⟩ := exists_char_piece d c (Utf8.bytes cs)
      rw [Utf8.bytes_cons] at hcut ⊢
      have hnext := hcut.snoc (e := e) (by rwa [hi, List.drop_left]) hpos
      rw [← List.append_assoc] at hnext ⊢
      exact ih _ hnext (by rw [hi, hlen, List.length_append])

-- The last piece of a way to cut.
theorem cut_last {d : UserDictionary} {reading : List UB} {es : List (Edge MozcPos)} {j : Nat}
    (h : Cut d reading es j) : es = [] ∧ j = 0 ∨ ∃ es' i e, es = es' ++ [e] ∧ j = i + e.len ∧
      Cut d reading es' i ∧ e ∈ edgesAt d reading i ∧ 0 < e.len := by
  cases h with
  | nil => exact .inl ⟨rfl, rfl⟩
  | snoc hcut hpiece hlen => exact .inr ⟨_, _, _, rfl, rfl, hcut, mem_edgesAt.mpr hpiece, hlen⟩

theorem cut_zero {d : UserDictionary} {reading : List UB} {es : List (Edge MozcPos)}
    (h : Cut d reading es 0) : es = [] := by
  obtain ⟨rfl, -⟩ | ⟨_, _, _, -, hj, -, -, hlen⟩ := cut_last h
  · rfl
  · omega

-- `だ` is the copula of the system dictionary and a registered noun; the copula is cheaper up to
-- there, but dearer before a noun.
def nounDictionary : UserDictionary :=
  (registerUserWord (registerUserWord .empty (some (lit "あ")) (some (lit "亜")) none).1
    (some (lit "だ")) (some (lit "打")) none).1

end BTron.Mozc
