import BTron.TadBrowser.Document
import BTron.TadBrowser.ParseText

namespace BTron.TadBrowser

open Lib

-- The lines of a text that are not empty.
def textLines (text : List UB) : List (List UB) := (text.splitOnP isEol).filter (· ≠ [])

-- The spans of lines that follow `n` other spans.
def lineSpans (stale : Nat → Memory) : Nat → List (List UB) → List TadSpan
  | _, [] => []
  | n, line :: lines =>
    if n < tadMaxSpans then lineSpan (stale n) line :: lineSpans stale (n + 1) lines else []

theorem lineSpans_of_le {stale : Nat → Memory} {n : Nat} (hn : tadMaxSpans ≤ n)
    (lines : List (List UB)) : lineSpans stale n lines = [] := by
  cases lines with
  | nil => rfl
  | cons line lines => rw [lineSpans, if_neg (by omega)]

theorem textLines_nil : textLines [] = [] := rfl

theorem textLines_append (xs ys : List UB) {c : UB} (hc : isEol c = true) :
    textLines (xs ++ c :: ys) = textLines xs ++ textLines ys := by
  rw [textLines, List.splitOnP_append_cons xs ys hc, List.filter_append, textLines, textLines]

theorem textLines_cons {c : UB} (hc : isEol c = true) (ys : List UB) :
    textLines (c :: ys) = textLines ys := textLines_append [] ys hc

theorem textLines_line {line : List UB} (hline : ∀ c ∈ line, isEol c = false) :
    textLines line = if line = [] then [] else [line] := by
  rw [textLines, List.splitOnP_eq_singleton hline]
  by_cases hnil : line = [] <;> simp [hnil]

theorem textLines_dropWhile (text : List UB) :
    textLines (text.dropWhile isEol) = textLines text := by
  induction text with
  | nil => rfl
  | cons c text ih =>
      by_cases hc : isEol c = true
      · rw [List.dropWhile_cons_of_pos hc, ih, textLines_cons hc]
      · rw [List.dropWhile_cons_of_neg hc]

-- A line and the text behind it.
theorem textLines_line_append {line rest : List UB} (hne : line ≠ [])
    (hline : ∀ c ∈ line, isEol c = false) (hrest : ∀ c ∈ rest.head?, isEol c = true) :
    textLines (line ++ rest) = line :: textLines rest := by
  cases rest with
  | nil => rw [List.append_nil, textLines_line hline, if_neg hne, textLines_nil]
  | cons c rest =>
      have hc := hrest c rfl
      rw [textLines_append _ _ hc, textLines_line hline, if_neg hne, List.singleton_append,
        textLines_cons hc]

theorem head_dropWhile (p : UB → Bool) (bs : List UB) :
    ∀ c ∈ (bs.dropWhile p).head?, p c = false := by
  intro c hc
  have hnot := List.head?_dropWhile_not p bs
  rwa [hc] at hnot

-- A text that starts with a line is that line, the line ends behind it and the next lines.
theorem text_cases {text : List UB} (hne : text ≠ []) (hfirst : ∀ c ∈ text.head?, isEol c = false) :
    ∃ line eols rest, text = line ++ (eols ++ rest) ∧ line ≠ [] ∧ (∀ c ∈ line, isEol c = false) ∧
      (∀ c ∈ eols, isEol c = true) ∧ (∀ c ∈ rest.head?, isEol c = false) ∧
      (∀ c ∈ (eols ++ rest).head?, isEol c = true) ∧
      textLines text = line :: textLines rest := by
  have hsplit := List.takeWhile_append_dropWhile (p := fun c => !isEol c) (l := text)
  have hsplit' := List.takeWhile_append_dropWhile (p := isEol)
    (l := text.dropWhile fun c => !isEol c)
  have hline : text.takeWhile (fun c => !isEol c) ≠ [] := by
    cases text with
    | nil => exact absurd rfl hne
    | cons c text => simp [hfirst c rfl]
  have hnoeol : ∀ c ∈ text.takeWhile (fun c => !isEol c), isEol c = false := fun c hc => by
    simpa using List.mem_takeWhile_imp hc
  have hstop : ∀ c ∈ (text.dropWhile fun c => !isEol c).head?, isEol c = true := fun c hc => by
    simpa using head_dropWhile _ text c hc
  refine ⟨_, _, _, (by rw [hsplit', hsplit]), hline, hnoeol, fun c hc => List.mem_takeWhile_imp hc,
    head_dropWhile isEol _, (by rwa [hsplit']), ?_⟩
  rw [textLines_dropWhile]
  conv_lhs => rw [← hsplit]
  exact textLines_line_append hline hnoeol hstop

-- A scan over cells that are passed over and cells that start with one that is not.
theorem scan_stored {stop : UB → Bool} {p : Memory} {o n : Nat} {as bs : List UB}
    (hs : Stored p o (as ++ bs)) (has : ∀ c ∈ as, stop c = false)
    (hbs : ∀ c ∈ bs.head?, stop c = true) (hlo : as.length ≤ n) (hhi : n ≤ as.length + bs.length) :
    scan (fun i => stop (p i)) n o = o + as.length := by
  rw [stored_append] at hs
  refine scan_eq hlo (fun k hk => ?_) fun hlt => ?_
  · rw [hs.1 k hk]
    exact has _ (List.getElem_mem hk)
  · cases bs with
    | nil =>
        rw [List.length_nil] at hhi
        omega
    | cons c bs =>
        rw [((stored_cons ..).mp hs.2).1]
        exact hbs c rfl

theorem cutLine_line {p : Memory} {o : Nat} {line rest : List UB} (hs : Stored p o (line ++ rest))
    (hline : ∀ c ∈ line, isEol c = false) (hrest : ∀ c ∈ rest.head?, isEol c = true)
    (hlen : line.length < 512) :
    cutLine isEol p o (o + line.length + rest.length) = line.length := by
  have hl : lineLen isEol p o (o + line.length + rest.length) = line.length := by
    unfold lineLen
    rw [scan_stored hs hline hrest (by omega) (by omega), Nat.add_sub_cancel_left]
  unfold cutLine
  dsimp only
  rw [hl, if_neg]
  rintro ⟨hmore, hcut⟩
  cases rest with
  | nil =>
      rw [List.length_nil] at hmore
      omega
  | cons c rest =>
      rw [stored_append, stored_cons] at hs
      rw [hs.2.1, hrest c rfl] at hcut
      cases hcut

theorem skipEols_eq {p : Memory} {o : Nat} {eols rest : List UB} (hs : Stored p o (eols ++ rest))
    (heols : ∀ c ∈ eols, isEol c = true) (hrest : ∀ c ∈ rest.head?, isEol c = false) :
    skipEols p (o + eols.length + rest.length) o = o + eols.length :=
  @scan_stored (fun c => !isEol c) p o (o + eols.length + rest.length - o) eols rest hs
    (by simpa using heols) (by simpa using hrest) (by omega) (by omega)

-- The loop over a text that starts with a line decodes its lines, up to the limit.
theorem exits_lines (stale : Nat → Memory) {b : Buffer} (text : List UB) (o : Nat)
    (spans : List TadSpan) (hs : Stored b.bytes o text) (hlen : o + text.length = b.len)
    (hfirst : ∀ c ∈ text.head?, isEol c = false) (hshort : ∀ l ∈ textLines text, l.length < 512)
    (hspans : spans.length ≤ tadMaxSpans) :
    ∃ t, Exits (parseStep stale b) ⟨o, spans⟩ t ∧
      t.spans = spans ++ lineSpans stale spans.length (textLines text) := by
  induction hn : text.length using Nat.strong_induction_on generalizing text o spans with
  | _ n ih =>
      by_cases hnil : text = []
      · subst hnil
        refine ⟨_, .stop ?_, by rw [textLines_nil, lineSpans, List.append_nil]⟩
        rw [parseStep, if_neg fun h => ?_]
        have := h.1
        dsimp only at this
        rw [List.length_nil] at hlen
        omega
      · by_cases hfull : spans.length < tadMaxSpans
        · obtain ⟨line, eols, rest, rfl, hline, hnoeol, heols, hrest, hstop, hlines⟩ :=
            text_cases hnil hfirst
          rw [hlines] at hshort ⊢
          have hpos : 0 < line.length := List.length_pos_iff.mpr hline
          have hcut := cutLine_line hs hnoeol hstop (hshort line List.mem_cons_self)
          have hs' := (stored_append ..).mp hs
          have hskip := skipEols_eq hs'.2 heols hrest
          rw [List.length_append, List.length_append] at hlen hn
          rw [List.length_append, ← Nat.add_assoc] at hcut
          have hend : o + line.length + eols.length + rest.length = b.len := by omega
          have hstep : parseStep stale b ⟨o, spans⟩ =
              some ⟨o + line.length + eols.length,
                spans ++ [lineSpan (stale spans.length) line]⟩ := by
            rw [parseStep, if_pos ⟨by dsimp only; omega, hfull⟩]
            dsimp only
            rw [← hend, hcut, hskip, if_neg (by omega), slice_eq_take hs'.1 (Nat.le_refl _),
              List.take_length]
          obtain ⟨t, ht, hspans'⟩ := ih rest.length (by omega) rest (o + line.length + eols.length)
            (spans ++ [lineSpan (stale spans.length) line]) ((stored_append ..).mp hs'.2).2 hend
            hrest (fun l hl => hshort l (List.mem_cons_of_mem _ hl))
            (by rw [List.length_append]; exact hfull) rfl
          refine ⟨t, ht.next hstep, ?_⟩
          rw [hspans', List.length_append, List.append_assoc, lineSpans, if_pos hfull]
          rfl
        · refine ⟨_, .stop ?_, ?_⟩
          · rw [parseStep, if_neg fun h => hfull h.2]
          · rw [lineSpans_of_le (by omega), List.append_nil]

end BTron.TadBrowser
