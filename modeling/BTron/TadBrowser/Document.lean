import BTron.TadBrowser.Progress
import BTron.TadBrowser.Reads

namespace BTron.TadBrowser

open Lib Lib.Logged Relation

-- A document is a record header and a sequence of segments and text runs.
structure Segment where
  tag : UB
  payload : List UB

inductive Item where
  | seg (segment : Segment)
  | text (run : List UB)

def be32 (n : Nat) : List UB :=
  [UInt8.ofNat (n / 16777216), UInt8.ofNat (n / 65536), UInt8.ofNat (n / 256), UInt8.ofNat n]

def segBytes (s : Segment) : List UB := 0xFF :: s.tag :: be32 s.payload.length ++ s.payload

def itemBytes : Item → List UB
  | .seg s => segBytes s
  | .text run => run

def itemsBytes (items : List Item) : List UB := items.flatMap itemBytes

-- The text up to the first segment, and each segment with the text up to the next one.
def runs : List Item → List UB × List (Segment × List UB)
  | [] => ([], [])
  | .text run :: items => (run ++ (runs items).1, (runs items).2)
  | .seg s :: items => ([], (s, (runs items).1) :: (runs items).2)

def restBytes (rest : List (Segment × List UB)) : List UB :=
  rest.flatMap fun r => segBytes r.1 ++ r.2

-- The length of the first piece a text run is decoded into, and where the next one starts.
def piece (run : List UB) : Nat := cutLine isLf (ofList run) 0 run.length

def advance (run : List UB) : Nat :=
  piece run + if isLf (run.getD (piece run) 0) then 1 else 0

-- The spans of a text run with `after` bytes of the document behind it.
def runSpans (after : Nat) (style : TadStyle) : Nat → List UB → List TadSpan
  | 0, _ => []
  | fuel + 1, run =>
    if run.length + after < 6 then []
    else
      (if 0 < piece run then [textSpan style (run.take (piece run))] else []) ++
        runSpans after style fuel (run.drop (advance run))

-- The spans of a document from `o` on, where a text run and then `rest` follow.
def docSpans (p : Memory) (len : Nat) :
    Nat → TadStyle → List UB → List (Segment × List UB) → List TadSpan
  | _, style, run, [] => runSpans 0 style run.length run
  | o, style, run, (s, run') :: rest =>
    let offset := o + run.length + 6
    let r := (decodeSegment p len style s.tag.toNat offset s.payload.length).val
    runSpans (restBytes ((s, run') :: rest)).length style run.length run ++ r.2.toList ++
      docSpans p len (offset + s.payload.length) r.1 run' rest

-- The buffer holds a record header and `items`, and is not so long that a header behind
-- its end wraps around.
structure Holds (b : Buffer) (items : List Item) : Prop where
  stored : ∃ size : List UB, size.length = 4 ∧
    Stored b.bytes 0 ([0x00, 0x01] ++ size ++ itemsBytes items)
  length : b.len = 6 + (itemsBytes items).length
  short : b.len + 6 < 4294967296
  valid : ∀ run, Item.text run ∈ items → Utf8.Valid run

@[simp] theorem itemsBytes_cons (item : Item) (items : List Item) :
    itemsBytes (item :: items) = itemBytes item ++ itemsBytes items := List.flatMap_cons ..

@[simp] theorem restBytes_cons (r : Segment × List UB) (rest : List (Segment × List UB)) :
    restBytes (r :: rest) = segBytes r.1 ++ r.2 ++ restBytes rest := List.flatMap_cons ..

theorem runs_bytes (items : List Item) :
    itemsBytes items = (runs items).1 ++ restBytes (runs items).2 := by
  induction items with
  | nil => rfl
  | cons item items ih =>
      cases item with
      | text run => rw [itemsBytes_cons, ih, itemBytes, runs, List.append_assoc]
      | seg s =>
          rw [itemsBytes_cons, ih, itemBytes, runs, restBytes_cons, List.nil_append,
            List.append_assoc]

-- All text runs are valid.
theorem runs_valid {items : List Item} (h : ∀ run, Item.text run ∈ items → Utf8.Valid run) :
    Utf8.Valid (runs items).1 ∧ ∀ r ∈ (runs items).2, Utf8.Valid r.2 := by
  induction items with
  | nil => exact ⟨Utf8.valid_nil, by simp [runs]⟩
  | cons item items ih =>
      obtain ⟨hrun, hrest⟩ := ih fun run hr => h run (List.mem_cons_of_mem _ hr)
      cases item with
      | text run => exact ⟨(h run List.mem_cons_self).append hrun, hrest⟩
      | seg s =>
          refine ⟨Utf8.valid_nil, fun r hr => ?_⟩
          rcases List.mem_cons.mp hr with rfl | hr
          · exact hrun
          · exact hrest r hr

theorem stored_drop {p : Memory} {o : Nat} {run : List UB} (h : Stored p o run) (k : Nat) :
    Stored p (o + k) (run.drop k) := by
  intro i hi
  rw [List.length_drop] at hi
  rw [List.getElem_drop, Nat.add_assoc]
  exact h (k + i) (by omega)

theorem slice_eq_take {p : Memory} {o l : Nat} {run : List UB} (h : Stored p o run)
    (hl : l ≤ run.length) : slice p o l = run.take l := by
  refine List.ext_getElem (by simp [slice, hl]) fun k hk hk' => ?_
  rw [List.length_take] at hk'
  simp only [slice, List.getElem_map, List.getElem_range, List.getElem_take]
  exact h k (by omega)

-- Cutting a line reads nothing but the text it is cut from.
theorem cutLine_stored (stop : UB → Bool) {p : Memory} {o : Nat} {run : List UB}
    (h : Stored p o run) :
    cutLine stop p o (o + run.length) = cutLine stop (ofList run) 0 run.length := by
  have hcell : ∀ k < run.length, p (o + k) = ofList run (0 + k) := fun k hk => by
    rw [h k hk, stored_ofList run k hk]
  have hlen : lineLen stop p o (o + run.length) = lineLen stop (ofList run) 0 run.length := by
    unfold lineLen
    rw [Nat.add_sub_cancel_left, Nat.sub_zero run.length]
    exact scan_shift fun k hk => by rw [hcell k (by omega)]
  have hle := lineLen_le stop (ofList run) 0 run.length
  unfold cutLine
  dsimp only
  rw [hlen]
  by_cases hmore : lineLen stop (ofList run) 0 run.length < run.length
  · have hspace : ∀ lo, backWhile (fun k => p (o + k) != 0x20) lo
          (lineLen stop (ofList run) 0 run.length) =
        backWhile (fun k => ofList run (0 + k) != 0x20) lo
          (lineLen stop (ofList run) 0 run.length) := fun lo =>
      backWhile_congr lo fun k hk => by rw [hcell k (by omega)]
    have hcont : backWhile (fun k => Utf8.isCont (p (o + k + 1))) 0
          (lineLen stop (ofList run) 0 run.length) =
        backWhile (fun k => Utf8.isCont (ofList run (0 + k + 1))) 0
          (lineLen stop (ofList run) 0 run.length) :=
      backWhile_congr 0 fun k hk => by rw [Nat.add_assoc, hcell (k + 1) (by omega), Nat.add_assoc]
    rw [hcell _ hmore, hspace, hcont]
    have hiff : o + lineLen stop (ofList run) 0 run.length < o + run.length ↔
        0 + lineLen stop (ofList run) 0 run.length < run.length := by omega
    simp only [hiff]
  · rw [if_neg (by omega), if_neg (by omega)]

theorem piece_le (run : List UB) : piece run ≤ run.length ∧ piece run ≤ 511 := by
  have hle := cutLine_le isLf (ofList run) 0 run.length
  unfold piece
  omega

theorem advance_le (run : List UB) : advance run ≤ run.length := by
  have hle := (piece_le run).1
  unfold advance
  by_cases heq : piece run = run.length
  · have hout : run.getD (piece run) 0 = 0 := by
      rw [heq, List.getD_eq_default _ _ (Nat.le_refl _)]
    rw [hout]
    exact Nat.le_of_eq heq
  · split <;> omega

-- Valid text is never taken back whole.
theorem advance_pos {run : List UB} (hne : run ≠ []) (hs : Utf8.Sparse 3 run) :
    0 < advance run := by
  by_contra hzero
  have hadv : advance run = 0 := by omega
  unfold advance at hadv
  have hp : piece run = 0 := by omega
  have hlen : 0 < run.length := List.length_pos_iff.mpr hne
  rw [hp, Nat.zero_add] at hadv
  rw [piece, cutLine_eq_zero_iff _ _ _ _ fun _ => isCont_not_lf] at hp
  rcases hp with he | hlf | ⟨h511, hcont⟩
  · omega
  · have hget : run.getD 0 0 = ofList run 0 := rfl
    rw [hget, hlf] at hadv
    exact absurd hadv (by decide)
  · obtain ⟨k, hk, hk3, hstart⟩ := (hs.drop 1).exists_start (by rw [List.length_drop]; omega)
    rw [List.length_drop] at hk
    have hcell := hcont (k + 1) (by omega) (by omega)
    rw [stored_ofList run (k + 1) (by omega)] at hcell
    rw [List.getElem_drop, ← Bool.not_eq_true] at hstart
    refine hstart ?_
    rw [← hcell]
    congr 2
    omega

@[simp] theorem length_segBytes (s : Segment) : (segBytes s).length = 6 + s.payload.length := by
  simp [segBytes, be32]
  omega

-- Behind a text run the document ends or a segment starts.
theorem restBytes_cases (rest : List (Segment × List UB)) :
    rest = [] ∨ 6 ≤ (restBytes rest).length := by
  cases rest with
  | nil => exact .inl rfl
  | cons r rest =>
      right
      rw [restBytes_cons, List.length_append, List.length_append, length_segBytes]
      omega

theorem runEnd_eq {p : Memory} {len o : Nat} {run : List UB} {rest : List (Segment × List UB)}
    (hs : Stored p o (run ++ restBytes rest))
    (hlen : o + run.length + (restBytes rest).length = len)
    (hff : ∀ b ∈ run, b ≠ 0xFF) : runEnd p len o = o + run.length := by
  rw [stored_append] at hs
  refine scan_eq (by omega) (fun k hk => ?_) fun hlt => ?_
  · rw [hs.1 k hk]
    exact beq_false_of_ne (hff _ (List.getElem_mem _))
  · cases rest with
    | nil =>
        simp only [restBytes, List.flatMap_nil, List.length_nil] at hlen
        omega
    | cons r rest =>
        rw [restBytes_cons, segBytes, List.append_assoc, List.cons_append, List.cons_append,
          stored_cons] at hs
        rw [hs.2.1]
        rfl

-- One turn of the loop over text.
theorem textStep_eq {p : Memory} {len o : Nat} {run : List UB} {rest : List (Segment × List UB)}
    (hs : Stored p o (run ++ restBytes rest))
    (hlen : o + run.length + (restBytes rest).length = len)
    (hff : ∀ b ∈ run, b ≠ 0xFF) (style : TadStyle) (spans : List TadSpan) :
    textStep p len ⟨o, style, spans⟩ =
      ⟨o + advance run, style,
        spans ++ if 0 < piece run then [textSpan style (run.take (piece run))] else []⟩ := by
  have hrun := (stored_append ..).mp hs
  have hend := runEnd_eq hs hlen hff
  have hcut : cutLine isLf p o (o + run.length) = piece run := cutLine_stored isLf hrun.1
  have hle := (piece_le run).1
  unfold textStep
  simp only [hend, hcut, slice_eq_take hrun.1 hle]
  have hoff : (if o + piece run < o + run.length ∧ isLf (p (o + piece run)) = true then
      o + piece run + 1 else o + piece run) = o + advance run := by
    unfold advance
    by_cases hmore : piece run < run.length
    · have hcell : p (o + piece run) = run.getD (piece run) 0 := by
        rw [hrun.1 _ hmore, List.getD_eq_getElem _ _ hmore]
      rw [hcell]
      by_cases hlf : isLf (run.getD (piece run) 0) = true
      · rw [if_pos ⟨by omega, hlf⟩, if_pos hlf, Nat.add_assoc]
      · rw [if_neg fun h => hlf h.2, if_neg hlf, Nat.add_zero]
    · have hout : run.getD (piece run) 0 = 0 := List.getD_eq_default _ _ (by omega)
      rw [if_neg fun h => hmore (by omega), hout]
      rfl
  rw [hoff]
  split <;> simp

theorem piece_nil : piece [] = 0 := Nat.le_zero.mp (piece_le []).1

theorem runSpans_nil (after : Nat) (style : TadStyle) (fuel : Nat) :
    runSpans after style fuel [] = [] := by
  induction fuel with
  | zero => rfl
  | succ fuel ih =>
      simp [runSpans, piece_nil, ih]

-- The loop from a text run on, given what it does behind the run or where the document gets
-- too short for its guard.
theorem exits_run {b : Buffer} {rest : List (Segment × List UB)} {style : TadStyle}
    {tail : List TadSpan} (hshort : b.len + 6 < 4294967296) (fuel : Nat) (run : List UB) (o : Nat)
    (spans : List TadSpan) (hfuel : run.length ≤ fuel)
    (hs : Stored b.bytes o (run ++ restBytes rest))
    (hlen : o + run.length + (restBytes rest).length = b.len) (hsp : Utf8.Sparse 3 run)
    (hnext : ∀ spans run' o', o' + run'.length = o + run.length →
      Stored b.bytes o' (run' ++ restBytes rest) →
      run'.length + (restBytes rest).length < 6 ∨ run' = [] → spans.length ≤ tadMaxSpans →
      ∃ t, Exits (loadStep b) ⟨o', style, spans⟩ t ∧ t.spans = (spans ++ tail).take tadMaxSpans)
    (hspans : spans.length ≤ tadMaxSpans) :
    ∃ t, Exits (loadStep b) ⟨o, style, spans⟩ t ∧
      t.spans = (spans ++ (runSpans (restBytes rest).length style fuel run ++ tail)).take
        tadMaxSpans := by
  induction fuel generalizing run o spans with
  | zero =>
      obtain rfl : run = [] := List.eq_nil_of_length_eq_zero (by omega)
      exact hnext spans [] o rfl hs (.inr rfl) hspans
  | succ fuel ih =>
      unfold runSpans
      by_cases hstop : run.length + (restBytes rest).length < 6
      · rw [if_pos hstop]
        exact hnext spans run o rfl hs (.inl hstop) hspans
      · rw [if_neg hstop]
        by_cases hfull : spans.length = tadMaxSpans
        · refine ⟨_, .stop ?_, ?_⟩
          · rw [loadStep, if_neg fun h => by have := h.2; dsimp only at this; omega]
          · rw [List.take_append_of_le_length (by omega), List.take_of_length_le (by omega)]
        · by_cases hne : run = []
          · subst hne
            rw [List.drop_nil, runSpans_nil, piece_nil, if_neg (Nat.lt_irrefl 0)]
            exact hnext spans [] o rfl hs (.inr rfl) hspans
          · have hff : ∀ c ∈ run, c ≠ 0xFF := fun c hc => hsp.ne_ff (Nat.le_refl 3) hc
            have hfirst : b.bytes o ≠ 0xFF := by
              have hpos := List.length_pos_iff.mpr hne
              have hcell := ((stored_append ..).mp hs).1 0 hpos
              rw [Nat.add_zero] at hcell
              rw [hcell]
              exact hff _ (List.getElem_mem _)
            have hguard : w32 (o + 6) ≤ b.len ∧ spans.length < tadMaxSpans := by
              rw [w32_of_lt (by omega)]
              omega
            have hstep : loadStep b ⟨o, style, spans⟩ =
                some ⟨o + advance run, style,
                  spans ++
                    if 0 < piece run then [textSpan style (run.take (piece run))] else []⟩ := by
              rw [loadStep, if_pos hguard, if_neg hfirst, textStep_eq hs hlen hff]
            have hadv := advance_le run
            have hpos := advance_pos hne hsp
            have hdrop : o + advance run + (run.drop (advance run)).length = o + run.length := by
              rw [List.length_drop]
              omega
            have hs' : Stored b.bytes (o + advance run)
                (run.drop (advance run) ++ restBytes rest) := by
              have := stored_drop hs (advance run)
              rwa [List.drop_append_of_le_length hadv] at this
            obtain ⟨t, ht, hspans'⟩ := ih (run.drop (advance run)) (o + advance run)
              (spans ++ if 0 < piece run then [textSpan style (run.take (piece run))] else [])
              (by rw [List.length_drop]; omega) hs' (by omega) (hsp.drop _)
              (fun spans run' o' ho' => hnext spans run' o' (ho'.trans hdrop))
              (by rw [List.length_append]; split <;> simp <;> omega)
            refine ⟨t, ht.next hstep, ?_⟩
            rw [hspans', List.append_assoc, List.append_assoc]

theorem segHeader_eq {p : Memory} {o : Nat} {s : Segment}
    (hs : Stored p o (segBytes s)) (ho : o + 6 < 4294967296)
    (hlen : s.payload.length < 4294967296) :
    p o = 0xFF ∧ (segHeader p o).val = (s.tag.toNat, s.payload.length) := by
  simp only [segBytes, be32, List.cons_append, stored_cons] at hs
  obtain ⟨hff, htag, h0, h1, h2, h3, -⟩ := hs
  refine ⟨hff, ?_⟩
  unfold segHeader
  simp only [val_bind, val_byteAt, val_pure, wordAt_val]
  rw [w32_of_lt (show o + 1 < 4294967296 by omega), w32_of_lt (show o + 2 < 4294967296 by omega),
    w32_of_lt (show o + 2 + 1 < 4294967296 by omega),
    w32_of_lt (show o + 2 + 2 < 4294967296 by omega),
    w32_of_lt (show o + 2 + 3 < 4294967296 by omega), htag, h0, h1, h2, h3]
  simp only [UInt8.toNat_ofNat']
  refine Prod.ext rfl ?_
  dsimp only
  omega

-- One turn of the loop over a segment.
theorem loadStep_segment {b : Buffer} {o : Nat} {s : Segment} (style : TadStyle)
    {spans : List TadSpan} (hs : Stored b.bytes o (segBytes s)) (hshort : b.len + 6 < 4294967296)
    (hend : o + 6 + s.payload.length ≤ b.len) (hcount : spans.length < tadMaxSpans) :
    let r := (decodeSegment b.bytes b.len style s.tag.toNat (o + 6) s.payload.length).val
    loadStep b ⟨o, style, spans⟩ =
      some ⟨o + 6 + s.payload.length, r.1, spans ++ r.2.toList⟩ := by
  obtain ⟨hff, hheader⟩ := segHeader_eq hs (by omega) (by omega)
  have hw : w32 (o + 6) = o + 6 := w32_of_lt (by omega)
  have hw' : w32 (o + 6 + s.payload.length) = o + 6 + s.payload.length := w32_of_lt (by omega)
  have hguard : w32 (o + 6) ≤ b.len ∧ spans.length < tadMaxSpans := by omega
  dsimp only
  rw [loadStep, if_pos hguard, if_pos hff, segStep_val]
  dsimp only
  rw [hheader, hw]
  dsimp only
  rw [hw', if_neg (by omega)]

-- The loop decodes a document into its spans, up to the limit.
theorem exits_document {b : Buffer} (hshort : b.len + 6 < 4294967296)
    (rest : List (Segment × List UB)) (o : Nat) (style : TadStyle) (run : List UB)
    (spans : List TadSpan) (hs : Stored b.bytes o (run ++ restBytes rest))
    (hlen : o + run.length + (restBytes rest).length = b.len)
    (hrun : Utf8.Sparse 3 run) (hrest : ∀ r ∈ rest, Utf8.Sparse 3 r.2)
    (hspans : spans.length ≤ tadMaxSpans) :
    ∃ t, Exits (loadStep b) ⟨o, style, spans⟩ t ∧
      t.spans = (spans ++ docSpans b.bytes b.len o style run rest).take tadMaxSpans := by
  induction rest generalizing o style run spans with
  | nil =>
      have hrestlen : (restBytes []).length = 0 := rfl
      have hfinal : ∀ spans run' o', o' + run'.length = o + run.length →
          Stored b.bytes o' (run' ++ restBytes []) →
          run'.length + (restBytes []).length < 6 ∨ run' = [] → spans.length ≤ tadMaxSpans →
          ∃ t, Exits (loadStep b) ⟨o', style, spans⟩ t ∧
            t.spans = (spans ++ []).take tadMaxSpans := by
        intro spans run' o' ho' _ hstop hcount
        have hshort' : run'.length < 6 := by
          rcases hstop with hlt | rfl
          · omega
          · decide
        refine ⟨_, .stop ?_, ?_⟩
        · rw [loadStep, if_neg fun h => by
            have := h.1
            rw [w32_of_lt (by dsimp only; omega)] at this
            dsimp only at this
            omega]
        · rw [List.append_nil, List.take_of_length_le hcount]
      have hex := exits_run hshort run.length run o spans (Nat.le_refl _) hs hlen hrun hfinal hspans
      rwa [List.append_nil] at hex
  | cons r rest ih =>
      obtain ⟨s, run'⟩ := r
      rw [docSpans, List.append_assoc]
      refine exits_run hshort run.length run o spans (Nat.le_refl _) hs hlen hrun ?_ hspans
      intro spans' run'' o' ho' hs' hstop hcount
      have h6 : 6 ≤ (restBytes ((s, run') :: rest)).length :=
        (restBytes_cases ((s, run') :: rest)).resolve_left (by simp)
      obtain rfl : run'' = [] := hstop.resolve_left (by omega)
      obtain rfl : o' = o + run.length := ho'
      rw [List.nil_append, restBytes_cons, List.append_assoc, stored_append,
        length_segBytes] at hs'
      rw [restBytes_cons, List.length_append, List.length_append, length_segBytes] at hlen
      dsimp only at hs' hlen
      by_cases hfull : spans'.length = tadMaxSpans
      · refine ⟨_, .stop ?_, ?_⟩
        · rw [loadStep, if_neg fun h => by have := h.2; dsimp only at this; omega]
        · rw [List.take_append_of_le_length (by omega), List.take_of_length_le (by omega)]
      · have hstep := loadStep_segment style hs'.1 hshort (by omega)
          (Nat.lt_of_le_of_ne hcount hfull)
        have hroom : ∀ x : Option TadSpan, (spans' ++ x.toList).length ≤ tadMaxSpans := by
          intro x
          rw [List.length_append]
          cases x <;> simp <;> omega
        obtain ⟨t, ht, hspans'⟩ := ih (o + run.length + 6 + s.payload.length) _ run' _
          (by rw [Nat.add_assoc]; exact hs'.2) (by omega) (hrest (s, run') (by simp))
          (fun r hr => hrest r (by simp [hr])) (hroom _)
        refine ⟨t, ht.next hstep, ?_⟩
        rw [hspans', List.append_assoc]

-- The binary loop over a document ends with its spans, up to the limit.
theorem exits_holds {b : Buffer} {items : List Item} (h : Holds b items) :
    ∃ t, Exits (loadStep b) loadStart t ∧
      t.spans = (docSpans b.bytes b.len 6 initStyle (runs items).1 (runs items).2).take
        tadMaxSpans := by
  obtain ⟨size, hsize, hs⟩ := h.stored
  obtain ⟨hrun, hrest⟩ := runs_valid h.valid
  have hlen := h.length
  rw [stored_append, runs_bytes] at hs
  rw [runs_bytes, List.length_append] at hlen
  have h6 : 0 + ([0x00, 0x01] ++ size).length = 6 := by simp [hsize]
  rw [h6] at hs
  exact exits_document h.short (runs items).2 6 initStyle (runs items).1 [] hs.2 (by omega)
    hrun.sparse (fun r hr => (hrest r hr).sparse) (Nat.zero_le _)

end BTron.TadBrowser
