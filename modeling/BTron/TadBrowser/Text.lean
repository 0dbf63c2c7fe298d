import BTron.TadBrowser.Document

namespace BTron.TadBrowser

open Lib Lib.Logged

def notLf (c : UB) : Bool := !isLf c

-- A span of the text branch, not a link, a figure or a separator.
def plainText (s : TadSpan) : Bool := !s.style.isHr && !s.style.isVobj && !s.style.isImage

def shownText (spans : List TadSpan) : List UB := (spans.filter plainText).flatMap TadSpan.text

def textOf : Item → List UB
  | .text run => run
  | .seg _ => []

-- The text of a document without its line separators.
def documentText (items : List Item) : List UB := (items.flatMap textOf).filter notLf

-- The text behind the last segment.
def lastRun (items : List Item) : List UB :=
  match (runs items).2.getLast? with
  | none => (runs items).1
  | some r => r.2

-- What is left of a run where a piece starts with fewer than six bytes of the document to come.
def leftover (after : Nat) : Nat → List UB → List UB
  | 0, run => run
  | fuel + 1, run =>
    if run.length + after < 6 then run else leftover after fuel (run.drop (advance run))

-- No text run has a NUL, and what is left of the last one is line separators.
def KeepsText (items : List Item) : Prop :=
  (∀ run, Item.text run ∈ items → 0 ∉ run) ∧
    ∀ c ∈ leftover 0 (lastRun items).length (lastRun items), isLf c = true

def PlainStyle (style : TadStyle) : Prop :=
  style.isHr = false ∧ style.isVobj = false ∧ style.isImage = false

theorem piece_no_lf {run : List UB} {k : Nat} (hk : k < piece run) (hk' : k < run.length) :
    isLf run[k] = false := by
  have hle : piece run ≤ lineLen isLf (ofList run) 0 run.length := by
    rcases cutLine_cases isLf (ofList run) 0 run.length with ⟨heq, -⟩ | ⟨hfull, -, hle, -⟩
    · exact Nat.le_of_eq heq
    · exact hfull ▸ hle
  have hcell := lineLen_before (Nat.lt_of_lt_of_le hk hle)
  rwa [stored_ofList run k hk'] at hcell

theorem filter_advance (run : List UB) :
    run.filter notLf = run.take (piece run) ++ (run.drop (advance run)).filter notLf := by
  have hle := (piece_le run).1
  have hhead : (run.take (piece run)).filter notLf = run.take (piece run) := by
    refine List.filter_eq_self.mpr fun c hc => ?_
    obtain ⟨k, hk, rfl⟩ := List.getElem_of_mem hc
    rw [List.length_take] at hk
    rw [List.getElem_take, notLf, piece_no_lf (by omega) (by omega)]
    rfl
  have htail : (run.drop (piece run)).filter notLf = (run.drop (advance run)).filter notLf := by
    unfold advance
    by_cases hlf : isLf (run.getD (piece run) 0) = true
    · have hlt : piece run < run.length := by
        by_contra hge
        rw [List.getD_eq_default _ _ (by omega)] at hlf
        exact absurd hlf (by decide)
      rw [List.getD_eq_getElem _ _ hlt] at hlf
      have hgetD : run.getD (piece run) 0 = run[piece run] := List.getD_eq_getElem _ _ hlt
      rw [List.drop_eq_getElem_cons hlt, List.filter_cons_of_neg (by simp [notLf, hlf]), hgetD,
        if_pos hlf]
    · rw [if_neg hlf, Nat.add_zero]
  calc run.filter notLf
      = (run.take (piece run)).filter notLf ++ (run.drop (piece run)).filter notLf := by
        rw [← List.filter_append, List.take_append_drop]
    _ = run.take (piece run) ++ (run.drop (advance run)).filter notLf := by rw [hhead, htail]

theorem shownText_append (xs ys : List TadSpan) :
    shownText (xs ++ ys) = shownText xs ++ shownText ys := by
  rw [shownText, List.filter_append, List.flatMap_append, shownText, shownText]

theorem shownText_textSpan {style : TadStyle} (hst : PlainStyle style) (line : List UB) :
    shownText [textSpan style line] = strncpy line 511 := by
  obtain ⟨hhr, hvobj, himage⟩ := hst
  simp [shownText, textSpan, plainText, hhr, hvobj, himage]

-- The spans of a run show the run up to what is left of it.
theorem shownText_runSpans (after : Nat) {style : TadStyle} (hst : PlainStyle style)
    (fuel : Nat) {run : List UB} (h0 : 0 ∉ run) :
    shownText (runSpans after style fuel run) ++ (leftover after fuel run).filter notLf =
      run.filter notLf := by
  induction fuel generalizing run with
  | zero => rfl
  | succ fuel ih =>
      unfold runSpans leftover
      by_cases hstop : run.length + after < 6
      · rw [if_pos hstop, if_pos hstop]
        rfl
      · rw [if_neg hstop, if_neg hstop, shownText_append, List.append_assoc,
          ih fun h => h0 (List.mem_of_mem_drop h), filter_advance run]
        congr 1
        have hcopy : strncpy (run.take (piece run)) 511 = run.take (piece run) :=
          strncpy_eq (fun h => h0 (List.mem_of_mem_take h))
            (Nat.le_trans (List.length_take_le _ _) (piece_le run).2)
        split
        · rw [shownText_textSpan hst, hcopy]
        · rename_i hp
          rw [Nat.eq_zero_of_not_pos hp]
          rfl

theorem zero_notMem_runSpans {after : Nat} {style : TadStyle} (hst : PlainStyle style)
    (fuel : Nat) (run : List UB) : 0 ∉ shownText (runSpans after style fuel run) := by
  induction fuel generalizing run with
  | zero => exact List.not_mem_nil
  | succ fuel ih =>
      unfold runSpans
      split
      · exact List.not_mem_nil
      · rw [shownText_append, List.mem_append]
        rintro (h | h)
        · split at h
          · rw [shownText_textSpan hst] at h
            exact zero_notMem_strncpy _ _ h
          · exact List.not_mem_nil h
        · exact ih _ h

-- Before a segment nothing is left over.
theorem leftover_eq_nil {after : Nat} (hafter : 6 ≤ after) (fuel : Nat) {run : List UB}
    (hfuel : run.length ≤ fuel) (hsp : Utf8.Sparse 3 run) : leftover after fuel run = [] := by
  induction fuel generalizing run with
  | zero =>
      obtain rfl : run = [] := List.eq_nil_of_length_eq_zero (by omega)
      rfl
  | succ fuel ih =>
      unfold leftover
      rw [if_neg (by omega)]
      by_cases hne : run = []
      · subst hne
        rw [List.drop_nil]
        exact ih (Nat.zero_le _) trivial
      · have hpos := advance_pos hne hsp
        exact ih (by rw [List.length_drop]; omega) (hsp.drop _)

-- A segment leaves the style plain and adds no plain text.
theorem plainText_decodeSegment {p : Memory} {len : Nat} {style : TadStyle}
    {tag offset segLen : Nat} {s : TadSpan}
    (hs : s ∈ (decodeSegment p len style tag offset segLen).val.2) :
    plainText s = false := by
  have hvobj : plainText (decodeVobj p len style offset segLen).val = false := by
    simp [decodeVobj, plainText]
  have hfprim : plainText (decodeFprim p style offset segLen).val = false := by
    unfold decodeFprim
    simp only [val_bind, val_ite, val_pure]
    split_ifs <;> simp [plainText]
  unfold decodeSegment at hs
  simp only [val_ite, val_bind, val_pure] at hs
  split_ifs at hs <;> simp_all

theorem decodeSegment_plain (p : Memory) (len : Nat) {style : TadStyle} (hst : PlainStyle style)
    (tag offset segLen : Nat) :
    PlainStyle (decodeSegment p len style tag offset segLen).val.1 ∧
      shownText (decodeSegment p len style tag offset segLen).val.2.toList = [] := by
  constructor
  · unfold decodeSegment
    simp only [val_ite, val_bind, val_pure]
    split_ifs <;> exact hst
  · cases hspan : (decodeSegment p len style tag offset segLen).val.2 with
    | none => rfl
    | some s => simp [shownText, plainText_decodeSegment hspan]

-- What a document from `o` on shows, up to what is left of its last run.
theorem shownText_docSpans (p : Memory) (len : Nat) (rest : List (Segment × List UB)) (o : Nat)
    {style : TadStyle} (hst : PlainStyle style) {run : List UB} (h0 : 0 ∉ run)
    (hrest0 : ∀ r ∈ rest, 0 ∉ r.2) (hrun : Utf8.Sparse 3 run)
    (hrest : ∀ r ∈ rest, Utf8.Sparse 3 r.2) :
    let last := match rest.getLast? with
      | none => run
      | some r => r.2
    shownText (docSpans p len o style run rest) ++ (leftover 0 last.length last).filter notLf =
      (run ++ rest.flatMap Prod.snd).filter notLf := by
  induction rest generalizing o style run with
  | nil => simpa [docSpans] using shownText_runSpans 0 hst run.length h0
  | cons r rest ih =>
      obtain ⟨s, run'⟩ := r
      have hafter : 6 ≤ (restBytes ((s, run') :: rest)).length :=
        (restBytes_cases ((s, run') :: rest)).resolve_left (by simp)
      have hseg := decodeSegment_plain p len hst s.tag.toNat (o + run.length + 6) s.payload.length
      have hshown := shownText_runSpans (restBytes ((s, run') :: rest)).length hst run.length h0
      rw [leftover_eq_nil hafter _ (Nat.le_refl _) hrun, List.filter_nil, List.append_nil] at hshown
      have htail := ih (o + run.length + 6 + s.payload.length) hseg.1
        (hrest0 (s, run') (by simp)) (fun r hr => hrest0 r (by simp [hr]))
        (hrest (s, run') (by simp)) fun r hr => hrest r (by simp [hr])
      have hlast : (match ((s, run') :: rest).getLast? with
          | none => run
          | some r => r.2) = match rest.getLast? with
          | none => run'
          | some r => r.2 := by
        cases rest with
        | nil => rfl
        | cons r rest =>
            rw [List.getLast?_cons_cons]
            obtain ⟨x, hx⟩ : ∃ x, (r :: rest).getLast? = some x :=
              Option.isSome_iff_exists.mp (by simp)
            rw [hx]
      dsimp only at htail ⊢
      rw [hlast, docSpans, shownText_append, shownText_append, hseg.2, hshown, List.append_nil,
        List.append_assoc, htail, List.flatMap_cons, ← List.filter_append]

theorem zero_notMem_docSpans (p : Memory) (len : Nat) (rest : List (Segment × List UB)) (o : Nat)
    {style : TadStyle} (hst : PlainStyle style) (run : List UB) :
    0 ∉ shownText (docSpans p len o style run rest) := by
  induction rest generalizing o style run with
  | nil => exact zero_notMem_runSpans hst run.length run
  | cons r rest ih =>
      obtain ⟨s, run'⟩ := r
      have hseg := decodeSegment_plain p len hst s.tag.toNat (o + run.length + 6) s.payload.length
      rw [docSpans, shownText_append, shownText_append, hseg.2, List.append_nil, List.mem_append]
      rintro (h | h)
      · exact zero_notMem_runSpans hst _ _ h
      · exact ih _ hseg.1 _ h

theorem textOf_runs (items : List Item) :
    items.flatMap textOf = (runs items).1 ++ (runs items).2.flatMap Prod.snd := by
  induction items with
  | nil => rfl
  | cons item items ih =>
      cases item with
      | text run => rw [List.flatMap_cons, ih, textOf, runs, List.append_assoc]
      | seg s => rw [List.flatMap_cons, ih, textOf, runs, List.nil_append, List.flatMap_cons,
          List.nil_append]

theorem zero_notMem_runs {items : List Item} (h : ∀ run, Item.text run ∈ items → 0 ∉ run) :
    0 ∉ (runs items).1 ∧ ∀ r ∈ (runs items).2, 0 ∉ r.2 := by
  have hall : 0 ∉ items.flatMap textOf := by
    intro hmem
    obtain ⟨item, hitem, h0⟩ := List.mem_flatMap.mp hmem
    cases item with
    | text run => exact h run hitem h0
    | seg s => simp [textOf] at h0
  rw [textOf_runs, List.mem_append, not_or] at hall
  exact ⟨hall.1, fun r hr h0 => hall.2 (List.mem_flatMap_of_mem hr h0)⟩

-- A document decoded into fewer spans than the limit shows exactly its text if and only if
-- no text has a NUL and the piece cut off by the guard is empty.
theorem shownText_iff {b : Buffer} {items : List Item} (h : Holds b items) :
    ∃ t, Exits (loadStep b) loadStart t ∧
      (t.spans.length < tadMaxSpans →
        (shownText t.spans = documentText items ↔ KeepsText items)) := by
  obtain ⟨t, ht, hspans⟩ := exits_holds h
  refine ⟨t, ht, fun hcount => ?_⟩
  obtain ⟨hrun, hrest⟩ := runs_valid h.valid
  have hplain : PlainStyle initStyle := ⟨rfl, rfl, rfl⟩
  have hall : t.spans = docSpans b.bytes b.len 6 initStyle (runs items).1 (runs items).2 := by
    rw [hspans, List.length_take] at hcount
    rw [hspans, List.take_of_length_le (by omega)]
  rw [hall, documentText]
  by_cases h0 : ∀ run, Item.text run ∈ items → 0 ∉ run
  · obtain ⟨hrun0, hrest0⟩ := zero_notMem_runs h0
    have hshown := shownText_docSpans b.bytes b.len (runs items).2 6 hplain hrun0 hrest0
      hrun.sparse fun r hr => (hrest r hr).sparse
    dsimp only at hshown
    rw [textOf_runs, ← hshown, List.self_eq_append_right, List.filter_eq_nil_iff]
    refine ⟨fun hleft => ⟨h0, fun c hc => ?_⟩, fun hkeep c hc => ?_⟩
    · simpa [notLf] using hleft c hc
    · simpa [notLf] using hkeep.2 c hc
  · refine iff_of_false (fun heq => ?_) fun hkeep => h0 hkeep.1
    push Not at h0
    obtain ⟨run, hitem, hzero⟩ := h0
    refine zero_notMem_docSpans b.bytes b.len (runs items).2 6 hplain (runs items).1 ?_
    rw [heq, List.mem_filter]
    exact ⟨List.mem_flatMap.mpr ⟨_, hitem, hzero⟩, by decide⟩

-- The line of text "Hi", alone and with an empty page segment behind it.
def hiTad : Buffer :=
  .ofBytes [0x00, 0x01, 0x00, 0x00, 0x00, 0x03, 0x48, 0x69, 0x0A] (by decide)

def hiPageTad : Buffer :=
  .ofBytes [0x00, 0x01, 0x00, 0x00, 0x00, 0x09, 0x48, 0x69, 0x0A, 0xFF, 0xA0, 0x00, 0x00, 0x00, 0x00]
    (by decide)

private theorem valid_hi {items : List Item} {run : List UB}
    (h : items = [.text [0x48, 0x69, 0x0A]] ∨
      items = [.text [0x48, 0x69, 0x0A], .seg ⟨0xA0, []⟩]) (hrun : Item.text run ∈ items) :
    Utf8.Valid run := by
  have hrun : run = [0x48, 0x69, 0x0A] := by
    rcases h with rfl | rfl <;> simpa using hrun
  exact ⟨['H', 'i', '\n'], hrun⟩

theorem holds_hiTad : Holds hiTad [.text [0x48, 0x69, 0x0A]] :=
  ⟨⟨[0x00, 0x00, 0x00, 0x03], rfl, stored_ofList _⟩, rfl, by decide, fun _ => valid_hi (.inl rfl)⟩

theorem holds_hiPageTad : Holds hiPageTad [.text [0x48, 0x69, 0x0A], .seg ⟨0xA0, []⟩] :=
  ⟨⟨[0x00, 0x00, 0x00, 0x09], rfl, stored_ofList _⟩, rfl, by decide, fun _ => valid_hi (.inr rfl)⟩

theorem shownText_iff_hiPageTad :
    ∃ t, Exits (loadStep hiPageTad) loadStart t ∧
      (t.spans.length < tadMaxSpans →
        (shownText t.spans = documentText [.text [0x48, 0x69, 0x0A], .seg ⟨0xA0, []⟩] ↔
          KeepsText [.text [0x48, 0x69, 0x0A], .seg ⟨0xA0, []⟩])) :=
  shownText_iff holds_hiPageTad

-- Three bytes are too short for the guard of the loop, and nothing is decoded.
theorem hiTad_loses_text :
    Holds hiTad [.text [0x48, 0x69, 0x0A]] ∧ Exits (loadStep hiTad) loadStart loadStart ∧
      shownText loadStart.spans = [] ∧
      documentText [.text [0x48, 0x69, 0x0A]] = [0x48, 0x69] :=
  ⟨holds_hiTad, .stop (by rfl), rfl, rfl⟩

end BTron.TadBrowser
