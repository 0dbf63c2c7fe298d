import BTron.Mozc.Romaji
import BTron.Tip.Transliterate
import Mathlib.Data.List.Find

namespace BTron.Tibetan

open Lib
open Mozc (lit romajiToHiragana romajiTexts romajiTurn lowered romajiToHiragana_eq)

-- The bytes of a code point where there is room.
def utf8Text (cp : Nat) : List UB := writeUtf8 5 [] cp

-- What wylie_to_tibetan writes at the rest of the input on stack level `p`, the level after it and
-- how many bytes it takes besides the first one.
def wylieTurn (p : Nat) : List UB → List Nat × Nat × Nat
  | [] => ([], p, 0)
  | c :: rest =>
    match matchRule (c :: rest) with
    | none => ([c.toNat], 0, 0)
    | some r =>
      let (cps, next) := applyRule r (if p > 4 then 0 else p)
      (cps, next, r.key.length - 1)

def wylieStops (p : Nat) (wylie : List UB) : List (Nat × List UB) :=
  stops (fun p rest => (wylieTurn p rest).2) 0 p wylie

def wylieTexts (p : Nat) (wylie : List UB) : List (List UB) :=
  (wylieStops p wylie).flatMap fun (p, rest) => (wylieTurn p rest).1.map utf8Text

@[simp] theorem wylieTexts_nil (p : Nat) : wylieTexts p [] = [] := by
  simp [wylieTexts, wylieStops]

theorem wylieTexts_cons (p : Nat) (c : UB) (rest : List UB) :
    wylieTexts p (c :: rest) = (wylieTurn p (c :: rest)).1.map utf8Text ++
      wylieTexts (wylieTurn p (c :: rest)).2.1 (rest.drop (wylieTurn p (c :: rest)).2.2) := by
  rw [wylieTexts, wylieStops, stops_cons, List.flatMap_cons]
  rfl

theorem writeUtf8_eq (max : Nat) (out : List UB) (cp : Nat) :
    writeUtf8 max out cp =
      if out.length + (utf8Text cp).length < max then out ++ utf8Text cp else out := by
  unfold utf8Text writeUtf8
  split_ifs <;> simp_all <;> omega

theorem foldl_writeUtf8_eq {max : Nat} (cps : List Nat) {out : List UB} (h : out.length < max) :
    cps.foldl (writeUtf8 max) out = emit 0 max (cps.map utf8Text) out := by
  induction cps generalizing out with
  | nil => rfl
  | cons cp cps ih =>
      have hlt : (writeUtf8 max out cp).length < max := by
        rw [writeUtf8_eq]
        split
        · rwa [List.length_append]
        · exact h
      rw [List.foldl_cons, ih hlt, List.map_cons, emit, Nat.add_zero, if_pos h, writeUtf8_eq]

theorem matchRule_key {rest : List UB} {r : WylieRule} (h : matchRule rest = some r) :
    r ∈ wylieRules ∧ r.key ≠ [] ∧ r.key <+: rest := by
  obtain ⟨n, hn, hfind⟩ := List.exists_of_findSome?_eq_some h
  obtain ⟨hlen, hpre⟩ := of_decide_eq_true (List.find?_eq_some_iff_append.mp hfind).1
  refine ⟨List.mem_of_find?_eq_some hfind, ?_, List.isPrefixOf_iff_prefix.mp hpre⟩
  rintro hnil
  rw [hnil, List.length_nil] at hlen
  subst hlen
  exact absurd hn (by decide)

theorem wylieLoop_eq {max fuel p : Nat} {rest out : List UB} (hfuel : rest.length ≤ fuel)
    (hout : out.length < max) :
    wylieLoop max fuel rest p out = emit 0 max (wylieTexts p rest) out := by
  induction fuel generalizing rest p out with
  | zero =>
      obtain rfl := List.length_eq_zero_iff.mp (Nat.le_zero.mp hfuel)
      simp [wylieLoop, emit]
  | succ fuel ih =>
      cases rest with
      | nil => simp [wylieLoop, emit]
      | cons c rest =>
          rw [List.length_cons] at hfuel
          have hturn : ∀ cps next k, wylieTurn p (c :: rest) = (cps, next, k) →
              wylieLoop max fuel (rest.drop k) next (cps.foldl (writeUtf8 max) out) =
                emit 0 max (wylieTexts p (c :: rest)) out := by
            intro cps next k hturn
            have hlt : (cps.foldl (writeUtf8 max) out).length < max := by
              rw [foldl_writeUtf8_eq cps hout]
              exact emit_length_lt hout
            have hshort : (rest.drop k).length ≤ fuel := by
              rw [List.length_drop]
              omega
            rw [wylieTexts_cons, hturn, emit_append, ih hshort hlt, foldl_writeUtf8_eq cps hout]
          rw [wylieLoop]
          cases hmatch : matchRule (c :: rest) with
          | none => exact hturn [c.toNat] 0 0 (by rw [wylieTurn, hmatch])
          | some r =>
              obtain ⟨d, key, hkey⟩ := List.exists_cons_of_ne_nil (matchRule_key hmatch).2.1
              have hstep := hturn (applyRule r (if p > 4 then 0 else p)).1
                (applyRule r (if p > 4 then 0 else p)).2 (r.key.length - 1)
                (by rw [wylieTurn, hmatch])
              dsimp only
              rw [hkey] at hstep ⊢
              exact hstep

-- Nothing is written into an empty buffer.
theorem wylieToTibetan_zero (wylie : List UB) : wylieToTibetan wylie 0 = [] := by
  refine Tip.wylieLoop_preserves (P := fun out => out = []) ?_ rfl
  rintro out cp rfl
  rw [writeUtf8_eq, if_neg (Nat.not_lt_zero _)]

theorem wylieToTibetan_eq (wylie : List UB) (max : Nat) :
    wylieToTibetan wylie max = emit 0 max (wylieTexts 0 wylie) [] := by
  cases max with
  | zero => rw [wylieToTibetan_zero, emit_stuck (Nat.not_lt_zero _)]
  | succ max => exact wylieLoop_eq (Nat.le_refl _) (Nat.succ_pos max)

theorem wylieToTibetan_room {wylie : List UB} {max : Nat}
    (h : (wylieTexts 0 wylie).flatten.length < max) :
    wylieToTibetan wylie max = (wylieTexts 0 wylie).flatten := by
  rw [wylieToTibetan_eq, emit_fits]
  · rfl
  · exact fits_of_room (by rwa [List.length_nil, Nat.zero_add])

-- A text can be cut before `rest` without cutting a character.
def CharStart (rest : List UB) : Prop := ∀ c ∈ rest.head?, Utf8.isCont c = false

-- A conversion that writes `texts` one after another into a large enough buffer writes the first
-- ones of them into one of `max` bytes and none behind these, and cuts no character.
def TruncatedAt (convert : Nat → List UB) (texts : List (List UB)) (max : Nat) : Prop :=
  ∃ k, convert max = (texts.take k).flatten ∧ CharStart (texts.drop k).flatten

theorem lead_not_cont (x : UB) : Utf8.isCont (0xC0 ||| x) = false := by
  have htable : ∀ n : Fin 256, Utf8.isCont (0xC0 ||| UInt8.ofNat n.val) = false := by
    decide +kernel
  simpa using htable ⟨x.toNat, x.toNat_lt⟩

theorem utf8Text_charStart (cp : Nat) : CharStart (utf8Text cp) := by
  have hlead : ∀ k n, 0xC0 ||| k = k → Utf8.isCont (UInt8.ofNat (k ||| n)) = false := by
    intro k n hk
    rw [← hk, Nat.or_assoc, UInt8.ofNat_or]
    exact lead_not_cont _
  unfold CharStart utf8Text writeUtf8
  intro c hc
  split_ifs at hc with hzero h1 h1' h2 h2' h3 h3' h4
  · cases hc
  · cases hc
  · obtain rfl := Option.some.inj hc
    rw [Bool.eq_false_iff, Ne, Utf8.isCont_iff, UInt8.toNat_ofNat']
    omega
  · cases hc
  · obtain rfl := Option.some.inj hc
    exact hlead 0xC0 _ rfl
  · cases hc
  · obtain rfl := Option.some.inj hc
    exact hlead 0xE0 _ rfl
  · cases hc
  · obtain rfl := Option.some.inj hc
    exact hlead 0xF0 _ rfl

theorem CharStart.flatten {ps : List (List UB)} (h : ∀ p ∈ ps, CharStart p) :
    CharStart ps.flatten := by
  induction ps with
  | nil => exact fun c hc => absurd hc (by simp)
  | cons p ps ih =>
      rw [List.flatten_cons]
      cases p with
      | nil => exact ih fun q hq => h q (List.mem_cons_of_mem _ hq)
      | cons c p => exact h (c :: p) List.mem_cons_self

theorem wylieTexts_charStart (p k : Nat) (wylie : List UB) :
    CharStart ((wylieTexts p wylie).drop k).flatten := by
  apply CharStart.flatten
  intro text htext
  obtain ⟨x, -, hx⟩ := List.mem_flatMap.mp (List.mem_of_mem_drop htext)
  obtain ⟨cp, -, rfl⟩ := List.mem_map.mp hx
  exact utf8Text_charStart cp

-- The texts mozc_romaji_to_hiragana writes where there is room.
def hiraganaTexts (romaji : List UB) : List (List UB) :=
  romajiTexts romajiTurn (lowered (romaji.take 255))

section Truncation

variable (romaji wylie : List UB)

-- A cut is clean unless a text that fits follows one that does not, or a byte inside a character
-- that is passed through is the first one without room.
theorem truncation_iff (maxLen maxOut : Nat) :
    (∀ m, (hiraganaTexts romaji).flatten.length + 4 < m →
      romajiToHiragana romaji m = (hiraganaTexts romaji).flatten) ∧
    (TruncatedAt (romajiToHiragana romaji) (hiraganaTexts romaji) maxLen ↔
      NoGap 4 maxLen (hiraganaTexts romaji) 0 ∧
        CharStart
          ((hiraganaTexts romaji).drop (fitting 4 maxLen (hiraganaTexts romaji) 0)).flatten) ∧
    (∀ m, (wylieTexts 0 wylie).flatten.length < m →
      wylieToTibetan wylie m = (wylieTexts 0 wylie).flatten) ∧
    (TruncatedAt (wylieToTibetan wylie) (wylieTexts 0 wylie) maxOut ↔
      NoGap 0 maxOut (wylieTexts 0 wylie) 0) := by
  refine ⟨fun m hm => ?_, ?_, fun m hm => wylieToTibetan_room hm, ?_⟩
  · rw [romajiToHiragana_eq, emit_fits]
    · rfl
    · exact fits_of_room (by rw [List.length_nil, Nat.zero_add]; exact hm)
  · unfold TruncatedAt
    rw [romajiToHiragana_eq]
    exact emit_cut_iff
  · unfold TruncatedAt
    rw [wylieToTibetan_eq, emit_cut_iff]
    exact and_iff_left (wylieTexts_charStart 0 _ wylie)

-- "k_" in 3 bytes leaves out the letter and writes the space.
theorem truncation_gap :
    ¬∀ (wylie full : List UB) (maxOut : Nat),
      (∃ n, ∀ m, n ≤ m → wylieToTibetan wylie m = full) → wylieToTibetan wylie maxOut <+: full := by
  intro h
  have hfull : ∀ m, 5 ≤ m → wylieToTibetan (lit "k_") m = [0xE0, 0xBD, 0x80, 0x20] := by
    intro m hm
    have htexts : wylieTexts 0 (lit "k_") = [[0xE0, 0xBD, 0x80], [0x20]] := by decide
    rw [wylieToTibetan_room (by rw [htexts]; exact hm), htexts]
    rfl
  have hcut := h (lit "k_") _ 3 ⟨5, hfull⟩
  revert hcut
  decide

end Truncation

-- What a separator between syllables stands for.
def separatorText (s : UB) : Option (List UB) :=
  if s = 0x20 then some tsheg else if s = 0x5F then some [0x20] else if s = 0x2E then some []
  else none

def separators : List UB := lit " _."

theorem mem_separators {s : UB} {text : List UB} (h : separatorText s = some text) :
    s ∈ separators := by
  unfold separatorText at h
  split_ifs at h with hspace hline hdot
  · subst hspace
    decide
  · subst hline
    decide
  · subst hdot
    decide

-- No key goes across a separator.
theorem wylieRules_separator :
    ∀ r ∈ wylieRules, ∀ s ∈ separators, s ∈ r.key → r.key.length = 1 := by
  decide +kernel

theorem key_prefix_iff {r : WylieRule} (hr : r ∈ wylieRules) {s : UB} (hs : s ∈ separators)
    {a : List UB} (ha : a ≠ []) (b : List UB) : r.key <+: a ++ s :: b ↔ r.key <+: a := by
  refine ⟨fun h => ?_, fun h => h.trans (List.prefix_append a _)⟩
  by_cases hlen : r.key.length ≤ a.length
  · exact List.prefix_of_prefix_length_le h (List.prefix_append a _) hlen
  · have hlong : a ++ [s] <+: r.key := by
      refine List.prefix_of_prefix_length_le ?_ h (by simp; omega)
      exact ⟨b, by simp⟩
    have hmem : s ∈ r.key := hlong.subset (List.mem_append_right a List.mem_cons_self)
    have hone := wylieRules_separator r hr s hs hmem
    have hpos := List.length_pos_iff.mpr ha
    omega

theorem matchRule_congr {l l' : List UB}
    (h : ∀ r ∈ wylieRules, r.key <+: l ↔ r.key <+: l') : matchRule l = matchRule l' := by
  unfold matchRule
  congr 1
  funext n
  apply List.find?_congr
  intro r hr
  have hiff := h r hr
  rw [← List.isPrefixOf_iff_prefix, ← List.isPrefixOf_iff_prefix] at hiff
  simp only [hiff]

theorem key_prefix_head {r : WylieRule} (hr : r ∈ wylieRules) {s : UB} (hs : s ∈ separators)
    (b : List UB) : r.key <+: s :: b ↔ r.key <+: [s] := by
  refine ⟨fun h => ?_, fun h => h.trans (List.prefix_append [s] b)⟩
  cases hkey : r.key with
  | nil => exact List.nil_prefix
  | cons c key =>
      rw [hkey, List.cons_prefix_cons] at h
      obtain ⟨rfl, -⟩ := h
      have hone := wylieRules_separator r hr c hs (hkey ▸ List.mem_cons_self)
      rw [hkey, List.length_cons] at hone
      obtain rfl := List.length_eq_zero_iff.mp (Nat.succ.inj hone)
      exact List.prefix_refl [c]

-- A separator ends the stack.
theorem wylieTurn_separator {s : UB} {text : List UB} (h : separatorText s = some text) (p : Nat)
    (b : List UB) :
    ∃ cps, wylieTurn p (s :: b) = (cps, 0, 0) ∧ (cps.map utf8Text).flatten = text := by
  have hrule : ∃ r cps, matchRule [s] = some r ∧ r.key.length = 1 ∧
      (∀ q, applyRule r q = (cps, 0)) ∧ (cps.map utf8Text).flatten = text := by
    unfold separatorText at h
    split_ifs at h with hspace hline hdot
    · cases h
      subst hspace
      exact ⟨_, [0x0f0b], rfl, rfl, fun _ => rfl, by decide⟩
    · cases h
      subst hline
      exact ⟨_, [0x20], rfl, rfl, fun _ => rfl, by decide⟩
    · cases h
      subst hdot
      exact ⟨_, [], rfl, rfl, fun _ => rfl, rfl⟩
  obtain ⟨r, cps, hmatch, hone, happly, htext⟩ := hrule
  refine ⟨cps, ?_, htext⟩
  rw [wylieTurn, matchRule_congr fun r hr => key_prefix_head hr (mem_separators h) b, hmatch]
  simp [happly, hone]

-- In a syllable the lookahead stays before the separator.
theorem wylieTurn_append {s : UB} (hs : s ∈ separators) (p : Nat) {a : List UB} (ha : a ≠ [])
    (b : List UB) : wylieTurn p (a ++ s :: b) = wylieTurn p a ∧
      (wylieTurn p a).2.2 + 1 ≤ a.length := by
  obtain ⟨c, rest, rfl⟩ := List.exists_cons_of_ne_nil ha
  rw [List.cons_append, wylieTurn, wylieTurn, ← List.cons_append,
    matchRule_congr fun r hr => key_prefix_iff hr hs ha b]
  refine ⟨rfl, ?_⟩
  cases hmatch : matchRule (c :: rest) with
  | none => simp
  | some r =>
      have hlen := (matchRule_key hmatch).2.2.length_le
      have hpos := List.length_pos_iff.mpr (matchRule_key hmatch).2.1
      dsimp only
      omega

theorem wylieTexts_append {s : UB} {text : List UB} (h : separatorText s = some text) (p : Nat)
    (a b : List UB) : (wylieTexts p (a ++ s :: b)).flatten =
      (wylieTexts p a).flatten ++ text ++ (wylieTexts 0 b).flatten := by
  induction hn : a.length using Nat.strong_induction_on generalizing a p with
  | _ n ih =>
      cases a with
      | nil =>
          obtain ⟨cps, hturn, htext⟩ := wylieTurn_separator h p b
          rw [List.nil_append, wylieTexts_cons, hturn, List.flatten_append, htext]
          simp
      | cons c rest =>
          obtain ⟨hturn, hle⟩ :=
            wylieTurn_append (mem_separators h) p (List.cons_ne_nil c rest) b
          rw [List.length_cons] at hle hn
          rw [List.cons_append] at hturn ⊢
          rw [wylieTexts_cons, wylieTexts_cons, hturn,
            List.drop_append_of_le_length (by omega), List.flatten_append, List.flatten_append,
            ih _ (by rw [List.length_drop]; omega) _ _ rfl]
          simp only [List.append_assoc]

-- Words with a separator before each:
def wordsText (words : List (UB × List UB)) : List UB := words.flatMap fun w => w.1 :: w.2

theorem wylieToTibetan_words {first : List UB} {words : List (UB × List UB)} {max : Nat}
    (hsep : ∀ w ∈ words, (separatorText w.1).isSome)
    (hroom : (wylieTexts 0 (first ++ wordsText words)).flatten.length < max) :
    wylieToTibetan (first ++ wordsText words) max = wylieToTibetan first max ++
      words.flatMap fun w => (separatorText w.1).getD [] ++ wylieToTibetan w.2 max := by
  induction words generalizing first with
  | nil => simp [wordsText]
  | cons w words ih =>
      obtain ⟨text, htext⟩ := Option.isSome_iff_exists.mp (hsep w List.mem_cons_self)
      have hsplit : first ++ wordsText (w :: words) = first ++ w.1 :: (w.2 ++ wordsText words) :=
        rfl
      rw [hsplit] at hroom ⊢
      have happend := wylieTexts_append htext 0 first (w.2 ++ wordsText words)
      have hlen := congrArg List.length happend
      simp only [List.length_append] at hlen
      rw [wylieToTibetan_room hroom, happend, ← @wylieToTibetan_room _ max (by omega),
        ← @wylieToTibetan_room _ max (by omega),
        ih (fun w hw => hsep w (List.mem_cons_of_mem _ hw)) (by omega), List.flatMap_cons, htext,
        Option.getD_some]
      simp only [List.append_assoc]

-- What stands before a separator and what stands behind it are converted on their own, and so are
-- the words of a text.
theorem wylieToTibetan_separator {s : UB} {text : List UB} (h : separatorText s = some text)
    {a b : List UB} {words : List (UB × List UB)} (hsep : ∀ w ∈ words, (separatorText w.1).isSome)
    {max : Nat} (hroom : (wylieTexts 0 (a ++ s :: b)).flatten.length < max)
    (hroom' : (wylieTexts 0 (a ++ wordsText words)).flatten.length < max) :
    wylieToTibetan (a ++ s :: b) max = wylieToTibetan a max ++ text ++ wylieToTibetan b max ∧
      wylieToTibetan (a ++ wordsText words) max = wylieToTibetan a max ++
        words.flatMap fun w => (separatorText w.1).getD [] ++ wylieToTibetan w.2 max := by
  refine ⟨?_, wylieToTibetan_words hsep hroom'⟩
  have hword : ∀ w ∈ [(s, b)], (separatorText w.1).isSome := by
    intro w hw
    rw [List.mem_singleton.mp hw, h]
    rfl
  have hpair : wordsText [(s, b)] = s :: b := by simp [wordsText]
  rw [← hpair, wylieToTibetan_words hword (by rwa [hpair]), List.flatMap_singleton, h,
    Option.getD_some, ← List.append_assoc]

theorem wylieToTibetan_separator_bod :
    wylieToTibetan (lit "bod skad") 64 =
      wylieToTibetan (lit "bod") 64 ++ tsheg ++ wylieToTibetan (lit "skad") 64 :=
  (@wylieToTibetan_separator 0x20 tsheg rfl (lit "bod") (lit "skad") [(0x5F, lit "yin")] (by decide)
    64 (by decide) (by decide)).1

end BTron.Tibetan
