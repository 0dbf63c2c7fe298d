import BTron.Html2tad.Segments
import BTron.TadBrowser.Text

namespace BTron.Html2tad

open Lib Lib.Logged TadBrowser

-- The attributes the last builder calls have asked for.
structure Attrs where
  fontId : Nat
  sizePt : Nat
  weight : Nat
  color : Nat
  linePitch : Nat
  indent : Nat

def Call.attrs (a : Attrs) : Call → Attrs
  | .font fontId _ => { a with fontId := fontId }
  | .char sizePt weight colorRgb =>
    { a with sizePt := sizePt, weight := weight, color := 0xFF000000 ||| colorRgb }
  | .ruler linePitch indent => { a with linePitch := linePitch, indent := indent }
  | _ => a

def Bears (a : Attrs) (s : TadStyle) : Prop :=
  s.fontId = a.fontId ∧ s.fontSize = a.sizePt ∧ s.weight = a.weight ∧ s.color = a.color ∧
    s.linePitch = a.linePitch ∧ s.indent = a.indent

-- The spans carry, in order, what the builders were passed.
inductive Carried : Attrs → List Call → List TadSpan → Prop
  | nil {a : Attrs} : Carried a [] []
  | attr {a : Attrs} {c : Call} {cs : List Call} {spans : List TadSpan} (hc : c.isAttr = true)
      (h : Carried (c.attrs a) cs spans) : Carried a (c :: cs) spans
  | text {a : Attrs} {s : String} {cs : List Call} {lines spans : List TadSpan}
      (hlines : ∀ l ∈ lines, plainText l = true ∧ Bears a l.style) (h : Carried a cs spans) :
      Carried a (.text s :: cs) (lines ++ spans)
  | figure {a : Attrs} {c : Call} {cs : List Call} {s : TadSpan} {spans : List TadSpan}
      (hs : Shows c s) (h : Carried a cs spans) : Carried a (c :: cs) (s :: spans)

-- The attributes a document starts with.
def initAttrs : Attrs :=
  { fontId := 0, sizePt := 12, weight := 400, color := colorBlack, linePitch := 20, indent := 10 }

-- No text has a character, apart from line feeds and the last five bytes of the document.
def Silent : List UB → List (Segment × List UB) → Prop
  | run, [] => (run.dropWhile isLf).length < 6
  | run, r :: rest => (∀ c ∈ run, isLf c = true) ∧ Silent r.2 rest

-- The buffer holds the document compiled from `elements`, and is not so long that a header
-- behind its end wraps around.
structure Encodes (env : Env) (baseDir : String) (elements : List Element) (b : Buffer) : Prop where
  stored : Stored b.bytes 0 (compileToBinaryTad env baseDir elements)
  length : b.len = (compileToBinaryTad env baseDir elements).length
  short : b.len + 6 < 4294967296

theorem fontSize_decodeSegment (p : Memory) (len : Nat) (style : TadStyle) (tag o segLen : Nat) :
    (decodeSegment p len style tag o segLen).val.1.fontSize =
      if tag = 0xA3 ∧ 6 ≤ segLen then (p (w32 o)).toNat else style.fontSize := by
  unfold decodeSegment
  simp only [val_ite, val_bind, val_pure]
  split_ifs <;> simp_all

-- The run is decoded into no span if and only if all is over before its first character.
theorem runSpans_eq_nil_iff (after : Nat) (style : TadStyle) (fuel : Nat) {run : List UB}
    (hfuel : run.length ≤ fuel) (hsp : Utf8.Sparse 3 run) :
    runSpans after style fuel run = [] ↔
      run.dropWhile isLf = [] ∨ (run.dropWhile isLf).length + after < 6 := by
  induction fuel generalizing run with
  | zero =>
      obtain rfl : run = [] := List.eq_nil_of_length_eq_zero (by omega)
      simp [runSpans]
  | succ fuel ih =>
      cases run with
      | nil => simp [runSpans_nil]
      | cons c run =>
          unfold runSpans
          by_cases hstop : (c :: run).length + after < 6
          · have hle := (List.dropWhile_sublist (l := c :: run) isLf).length_le
            rw [if_pos hstop]
            exact iff_of_true rfl (.inr (by omega))
          · rw [if_neg hstop]
            by_cases hlf : isLf c = true
            · have hpiece : piece (c :: run) = 0 :=
                (cutLine_eq_zero_iff _ _ _ _ fun _ => isCont_not_lf).mpr (.inr (.inl hlf))
              have hadv : advance (c :: run) = 1 := by
                unfold advance
                rw [hpiece, List.getD_cons_zero, if_pos hlf]
              rw [hpiece, hadv, if_neg (Nat.lt_irrefl 0), List.nil_append, List.drop_one,
                List.tail_cons, List.dropWhile_cons_of_pos hlf]
              exact ih (by simpa using hfuel) (hsp.drop 1)
            · have hpiece : 0 < piece (c :: run) := by
                have hadv := advance_pos (List.cons_ne_nil c run) hsp
                unfold advance at hadv
                by_contra h0
                rw [Nat.eq_zero_of_not_pos h0, List.getD_cons_zero, if_neg hlf] at hadv
                omega
              rw [if_pos hpiece, List.dropWhile_cons_of_neg hlf]
              exact iff_of_false (by simp) (by simp_all)

theorem plainText_runSpans (after : Nat) {style : TadStyle} (hst : PlainStyle style) (fuel : Nat)
    {run : List UB} {s : TadSpan} (hs : s ∈ runSpans after style fuel run) :
    plainText s = true ∧ s.style = style := by
  induction fuel generalizing run with
  | zero => cases hs
  | succ fuel ih =>
      unfold runSpans at hs
      split at hs
      · cases hs
      · rcases List.mem_append.mp hs with hline | hrest
        · split at hline
          · obtain rfl := List.mem_singleton.mp hline
            simp [plainText, textSpan, hst.1, hst.2.1, hst.2.2]
          · cases hline
        · exact ih hrest

theorem no_plainText_run_iff (after : Nat) {style : TadStyle} (hst : PlainStyle style)
    {run : List UB} (hrun : Utf8.Sparse 3 run) :
    (∀ s ∈ runSpans after style run.length run, plainText s = false) ↔
      run.dropWhile isLf = [] ∨ (run.dropWhile isLf).length + after < 6 := by
  rw [← runSpans_eq_nil_iff after style _ (Nat.le_refl _) hrun]
  constructor
  · intro h
    refine List.eq_nil_iff_forall_not_mem.mpr fun s hs => ?_
    have htrue := (plainText_runSpans after hst run.length hs).1
    rw [h s hs] at htrue
    cases htrue
  · intro h s hs
    rw [h] at hs
    cases hs

-- All plain text of a document is in its text runs, so it has none if and only if these are
-- silent.
theorem no_plainText_iff (p : Memory) (len : Nat) (rest : List (Segment × List UB)) (o : Nat)
    {style : TadStyle} (hst : PlainStyle style) {run : List UB} (hrun : Utf8.Sparse 3 run)
    (hrest : ∀ r ∈ rest, Utf8.Sparse 3 r.2) :
    (∀ s ∈ docSpans p len o style run rest, plainText s = false) ↔ Silent run rest := by
  induction rest generalizing o style run with
  | nil =>
      rw [docSpans, no_plainText_run_iff 0 hst hrun, Silent]
      refine ⟨fun h => ?_, .inr⟩
      rcases h with hnil | hlt
      · rw [hnil]
        decide
      · exact hlt
  | cons r rest ih =>
      obtain ⟨s, run'⟩ := r
      have h6 : 6 ≤ (restBytes ((s, run') :: rest)).length :=
        (restBytes_cases ((s, run') :: rest)).resolve_left (by simp)
      have hseg := decodeSegment_plain p len hst s.tag.toNat (o + run.length + 6) s.payload.length
      have hrun' := no_plainText_run_iff (restBytes ((s, run') :: rest)).length hst hrun
      rw [or_iff_left (by omega), List.dropWhile_eq_nil_iff] at hrun'
      rw [docSpans, Silent, ← hrun', ← ih (o + run.length + 6 + s.payload.length) hseg.1
        (hrest (s, run') (by simp)) fun r hr => hrest r (by simp [hr])]
      simp only [List.mem_append, or_imp, forall_and]
      exact and_congr_left fun _ => and_iff_left fun x hx =>
        plainText_decodeSegment (Option.mem_toList.mp hx)

theorem stored_payload {p : Memory} {o : Nat} {s : Segment} (hs : Stored p o (segBytes s)) :
    Stored p (o + 6) s.payload := by
  rw [segBytes, List.cons_append, stored_cons, List.cons_append, stored_cons, stored_append,
    length_be32] at hs
  exact hs.2.2.2

-- No text comes before the first character segment.
def Bare : List UB → List (Segment × List UB) → Prop
  | run, [] => run = []
  | run, (s, run') :: rest => run = [] ∧ (s.tag = 0xA3 ∧ 6 ≤ s.payload.length ∨ Bare run' rest)

theorem fontSize_runSpans {rest : List (Segment × List UB)} {after : Nat} {style : TadStyle}
    (hst : PlainStyle style) {run : List UB} (hsize : style.fontSize = 0 ∨ Bare run rest)
    {s : TadSpan} (hs : s ∈ runSpans after style run.length run) : s.style.fontSize = 0 := by
  rcases hsize with hsize | hbare
  · rw [(plainText_runSpans after hst run.length hs).2, hsize]
  · obtain rfl : run = [] := by
      cases rest with
      | nil => exact hbare
      | cons r rest => exact hbare.1
    cases hs

-- A document whose character segments start with a zero byte has text of size zero only.
theorem fontSize_docSpans {p : Memory} (len : Nat) (rest : List (Segment × List UB)) (o : Nat)
    {style : TadStyle} (hst : PlainStyle style) {run : List UB}
    (hsize : style.fontSize = 0 ∨ Bare run rest) (hs : Stored p (o + run.length) (restBytes rest))
    (hshort : o + run.length + (restBytes rest).length < 4294967296)
    (hchar : ∀ r ∈ rest, r.1.tag = 0xA3 → r.1.payload.head? = some 0) :
    ∀ s ∈ docSpans p len o style run rest, plainText s = true → s.style.fontSize = 0 := by
  induction rest generalizing o style run with
  | nil => exact fun s hs _ => fontSize_runSpans hst hsize hs
  | cons r rest ih =>
      obtain ⟨seg, run'⟩ := r
      have hseg := decodeSegment_plain p len hst seg.tag.toNat (o + run.length + 6)
        seg.payload.length
      intro s hmem hplain
      rw [docSpans] at hmem
      rcases List.mem_append.mp hmem with hmem | hmem
      · rcases List.mem_append.mp hmem with hmem | hmem
        · exact fontSize_runSpans hst hsize hmem
        · rw [plainText_decodeSegment (Option.mem_toList.mp hmem)] at hplain
          cases hplain
      · rw [restBytes_cons, List.append_assoc, stored_append, length_segBytes] at hs
        rw [restBytes_cons, List.length_append, List.length_append, length_segBytes] at hshort
        dsimp only at hs hshort
        refine ih (o + run.length + 6 + seg.payload.length) hseg.1 ?_ ?_ (by omega)
          (fun r hr => hchar r (by simp [hr])) s hmem hplain
        · rw [fontSize_decodeSegment]
          by_cases htag : seg.tag.toNat = 0xA3 ∧ 6 ≤ seg.payload.length
          · have htag' : seg.tag = 0xA3 := UInt8.toNat_inj.mp htag.1
            obtain ⟨payload, hpayload⟩ : ∃ payload, seg.payload = 0 :: payload :=
              List.head?_eq_some_iff.mp (hchar (seg, run') (by simp) htag')
            have hfirst := stored_payload hs.1
            rw [hpayload, stored_cons] at hfirst
            rw [if_pos htag, w32_of_lt (by omega), hfirst.1]
            exact .inl rfl
          · rw [if_neg htag]
            refine hsize.imp id fun hbare => hbare.2.resolve_left ?_
            rintro ⟨htag', h6⟩
            exact htag ⟨by rw [htag']; rfl, h6⟩
        · rw [← Nat.add_assoc] at hs
          exact ((stored_append ..).mp hs.2).2

theorem not_plainText_of_shows {c : Call} {s : TadSpan} (h : Shows c s) : plainText s = false := by
  cases c with
  | vobj targetId label path => simp [plainText, h.2.1]
  | hr width => simp [plainText, show s.style.isHr = true from h]
  | image src caption width height type => simp [plainText, h.1]
  | _ => cases h

-- Text that bears its attributes has a size.
theorem Carried.fontSize_pos {a : Attrs} {cs : List Call} {spans : List TadSpan}
    (h : Carried a cs spans) (ha : 0 < a.sizePt) (hmade : ∀ c ∈ cs, c.Made) :
    ∀ s ∈ spans, plainText s = true → 0 < s.style.fontSize := by
  induction h with
  | nil => simp
  | @attr a c cs spans hc h ih =>
      refine ih ?_ fun c hc => hmade c (List.mem_cons_of_mem _ hc)
      have hfirst := hmade c List.mem_cons_self
      cases c <;> first | exact ha | exact hfirst
  | @text a t cs lines spans hlines h ih =>
      intro s hs hplain
      rcases List.mem_append.mp hs with hline | hrest
      · rw [(hlines s hline).2.2.1]
        exact ha
      · exact ih ha (fun c hc => hmade c (List.mem_cons_of_mem _ hc)) s hrest hplain
  | @figure a c cs x spans hx h ih =>
      intro s hs hplain
      rcases List.mem_cons.mp hs with rfl | hrest
      · rw [not_plainText_of_shows hx] at hplain
        cases hplain
      · exact ih ha (fun c hc => hmade c (List.mem_cons_of_mem _ hc)) s hrest hplain

theorem carried_nil_iff {a : Attrs} {spans : List TadSpan} : Carried a [] spans ↔ spans = [] := by
  constructor
  · rintro ⟨⟩
    rfl
  · rintro rfl
    exact .nil

theorem carried_attr_iff {a : Attrs} {c : Call} {cs : List Call} {spans : List TadSpan}
    (hc : c.isAttr = true) : Carried a (c :: cs) spans ↔ Carried (c.attrs a) cs spans := by
  refine ⟨fun h => ?_, .attr hc⟩
  cases h with
  | attr _ h => exact h
  | text _ _ => cases hc
  | figure hs _ => cases c <;> first | exact False.elim hs | cases hc

theorem carried_figure_iff {a : Attrs} {c : Call} {cs : List Call} {s : TadSpan}
    {spans : List TadSpan} {seg : Segment} (hitem : c.item = .seg seg) (hc : c.isAttr = false) :
    Carried a (c :: cs) (s :: spans) ↔ Shows c s ∧ Carried a cs spans := by
  refine ⟨fun h => ?_, fun h => .figure h.1 h.2⟩
  generalize hall : s :: spans = all at h
  cases h with
  | attr hc' _ =>
      rw [hc] at hc'
      cases hc'
  | text _ _ => cases hitem
  | figure hs h =>
      cases hall
      exact ⟨hs, h⟩

theorem carried_text_iff {a : Attrs} {t : String} {cs : List Call} {spans : List TadSpan}
    (hnone : ∀ s ∈ spans, plainText s = false) :
    Carried a (.text t :: cs) spans ↔ Carried a cs spans := by
  refine ⟨fun h => ?_, @Carried.text a t cs [] spans (by simp)⟩
  cases h with
  | attr hc _ => cases hc
  | figure hs _ => cases hs
  | @text _ _ _ lines spans hlines h =>
      cases lines with
      | nil => exact h
      | cons l lines =>
          have htrue := (hlines l (by simp)).1
          rw [hnone l (by simp)] at htrue
          cases htrue

theorem valid_segText (text : String) : Utf8.Valid (segText text) := ⟨(text ++ "\n").toList, rfl⟩

theorem valid_items (cs : List Call) :
    ∀ run, Item.text run ∈ cs.map Call.item → Utf8.Valid run := by
  intro run hrun
  obtain ⟨c, -, hc⟩ := List.mem_map.mp hrun
  cases c with
  | text t =>
      cases hc
      exact valid_segText t
  | _ => cases hc

-- Behind silent text the spans of a document are those of its links, figures and separators.
theorem carried_iff_sized {p : Memory} {len : Nat} (hlen : len < 4294967296) (cs : List Call)
    (hmade : ∀ c ∈ cs, c.Made) (hfits : ∀ c ∈ cs, c.Fits) (o : Nat) {style : TadStyle}
    (hst : PlainStyle style) (a : Attrs) {pre : List UB} (hpre : Utf8.Valid pre)
    (hs : Stored p o (pre ++ itemsBytes (cs.map Call.item)))
    (hend : o + (pre ++ itemsBytes (cs.map Call.item)).length ≤ len)
    (hsilent : Silent (pre ++ (runs (cs.map Call.item)).1) (runs (cs.map Call.item)).2) :
    Carried a cs (docSpans p len o style (pre ++ (runs (cs.map Call.item)).1)
        (runs (cs.map Call.item)).2) ↔ ∀ c ∈ cs, c.Sized := by
  obtain ⟨hrun, hrest⟩ := runs_valid (valid_items cs)
  have hnone := (no_plainText_iff p len _ o hst (hpre.append hrun).sparse
    fun r hr => (hrest r hr).sparse).mpr hsilent
  induction cs generalizing o style a pre with
  | nil =>
      have hnil := (runSpans_eq_nil_iff 0 style _ (Nat.le_refl _) (hpre.append hrun).sparse).mpr
        (.inr hsilent)
      exact iff_of_true (carried_nil_iff.mpr hnil) (by simp)
  | cons c cs ih =>
      rw [List.forall_mem_cons] at hmade hfits ⊢
      have hrun' := runs_valid (valid_items cs)
      cases hc : c.item with
      | text run =>
          obtain ⟨t, rfl⟩ : ∃ t, c = .text t := by
            cases c with
            | text t => exact ⟨t, rfl⟩
            | _ => cases hc
          obtain rfl : segText t = run := by simpa [Call.item] using hc
          simp only [List.map_cons, Call.item, itemsBytes_cons, itemBytes, runs,
            ← List.append_assoc] at hs hend hsilent hnone ⊢
          have htail := ih hmade.2 hfits.2 o hst a (hpre.append (valid_segText t)) hs hend hsilent
            hrun'.1 hrun'.2 hnone
          exact (carried_text_iff hnone).trans (htail.trans (and_iff_right trivial).symm)
      | seg s =>
          simp only [List.map_cons, hc, itemsBytes_cons, itemBytes, runs, List.append_nil]
            at hs hend hsilent hnone ⊢
          rw [List.length_append, List.length_append, length_segBytes] at hend
          rw [stored_append, stored_append, length_segBytes, ← Nat.add_assoc] at hs
          have hrunSpans := fun after => (runSpans_eq_nil_iff after style _ (Nat.le_refl _)
            hpre.sparse).mpr (.inl (List.dropWhile_eq_nil_iff.mpr hsilent.1))
          have hstyle := (decodeSegment_plain p len hst s.tag.toNat (o + pre.length + 6)
            s.payload.length).1
          rw [docSpans, hrunSpans, List.nil_append] at hnone ⊢
          have htail := fun a => ih hmade.2 hfits.2 (o + pre.length + 6 + s.payload.length) hstyle a
            Utf8.valid_nil (by simpa [Nat.add_assoc] using hs.2.2) (by simp; omega) hsilent.2
            hrun'.1 hrun'.2 fun x hx => hnone x (List.mem_append_right _ hx)
          rcases decodeSegment_call style hc (stored_payload hs.2.1) hmade.1 hfits.1 (by omega) hlen
            with ⟨hattr, hspan⟩ | ⟨hattr, x, hspan, hshows⟩
          · rw [hspan, carried_attr_iff hattr]
            refine (htail _).trans (and_iff_right ?_).symm
            cases c <;> first | exact trivial | cases hattr
          · simp only [hspan] at htail ⊢
            exact (carried_figure_iff hc hattr).trans (and_congr hshows (htail a))

-- The first byte of a character segment is the attribute byte, which is zero.
theorem head_segChar {c : Call} {s : Segment} (hc : c.item = .seg s) (htag : s.tag = 0xA3) :
    s.payload.head? = some 0 := by
  cases c with
  | text t => cases hc
  | char sizePt weight colorRgb =>
      cases hc
      rfl
  | _ =>
      cases hc
      simp [segPage, segFont, segRuler, segVobj, segHr, segImage, makeSegment] at htag

theorem seg_mem_runs {items : List Item} {r : Segment × List UB} (hr : r ∈ (runs items).2) :
    Item.seg r.1 ∈ items := by
  induction items with
  | nil => cases hr
  | cons item items ih =>
      cases item with
      | text run => exact List.mem_cons_of_mem _ (ih hr)
      | seg s =>
          rcases List.mem_cons.mp hr with rfl | hr
          · exact List.mem_cons_self
          · exact List.mem_cons_of_mem _ (ih hr)

-- The spans of a compiled document carry what the builders were passed if and only if no text
-- is decoded and every image has a size that an H holds.
theorem carried_iff {env : Env} {baseDir : String} {elements : List Element} {b : Buffer}
    (h : Encodes env baseDir elements b) (hfits : ∀ c ∈ calls env baseDir elements, c.Fits)
    (hcount : (docSpans b.bytes b.len 6 initStyle (runs (items env baseDir elements)).1
      (runs (items env baseDir elements)).2).length ≤ tadMaxSpans) :
    isBinaryTad b ∧ ∃ t, Exits (loadStep b) loadStart t ∧
      (Carried initAttrs (calls env baseDir elements) t.spans ↔
        Silent (runs (items env baseDir elements)).1 (runs (items env baseDir elements)).2 ∧
          ∀ c ∈ calls env baseDir elements, c.Sized) := by
  obtain ⟨hs, hlen, hshort⟩ := h
  unfold compileToBinaryTad at hs hlen
  dsimp only at hs hlen
  simp only [List.length_append, length_be16, length_be32] at hlen
  have hbinary : isBinaryTad b := by
    refine ⟨by omega, ?_⟩
    simp only [recordTypeMain, be16, List.cons_append, stored_cons] at hs
    exact ⟨hs.1, hs.2.1⟩
  have hholds : Holds b (items env baseDir elements) := by
    refine ⟨⟨be32 (itemsBytes (items env baseDir elements)).length, rfl, hs⟩, hlen, hshort,
      valid_items _⟩
  obtain ⟨t, ht, hspans⟩ := exits_holds hholds
  rw [List.take_of_length_le hcount] at hspans
  obtain ⟨hrun, hrest⟩ := runs_valid (valid_items (calls env baseDir elements))
  have hplain : PlainStyle initStyle := ⟨rfl, rfl, rfl⟩
  have hsilent := no_plainText_iff b.bytes b.len (runs (items env baseDir elements)).2 6 hplain
    hrun.sparse fun r hr => (hrest r hr).sparse
  refine ⟨hbinary, t, ht, ?_⟩
  rw [hspans]
  have hsized := carried_iff_sized b.len_lt (calls env baseDir elements)
    (calls_made env baseDir elements) hfits 6 hplain initAttrs Utf8.valid_nil
    ((stored_append ..).mp hs).2 (by
      rw [List.nil_append, hlen]
      exact Nat.le_refl _)
  have hrest' : itemsBytes (items env baseDir elements) =
      restBytes (runs (items env baseDir elements)).2 := runs_bytes _
  have hchar : ∀ r ∈ (runs (items env baseDir elements)).2,
      r.1.tag = 0xA3 → r.1.payload.head? = some 0 := by
    intro r hr htag
    obtain ⟨c, -, hc⟩ := List.mem_map.mp (seg_mem_runs hr)
    exact head_segChar hc htag
  have hzero := fontSize_docSpans b.len (runs (items env baseDir elements)).2 6 hplain
    (.inr ⟨rfl, .inr ⟨rfl, .inr ⟨rfl, .inl ⟨rfl, by decide⟩⟩⟩⟩)
    (by rw [← hrest']; exact ((stored_append ..).mp hs).2)
    (by rw [← hrest', List.length_nil]; omega) hchar
  constructor
  · intro hcarried
    have hpos := hcarried.fontSize_pos (by decide) (calls_made env baseDir elements)
    have hsil := hsilent.mp fun s hs => by
      by_contra htext
      rw [Bool.not_eq_false] at htext
      have hlt := hpos s hs htext
      rw [hzero s hs htext] at hlt
      exact absurd hlt (Nat.lt_irrefl 0)
    exact ⟨hsil, (hsized hsil).mp hcarried⟩
  · rintro ⟨hsil, hall⟩
    exact (hsized hsil).mpr hall

-- A runtime without files.
def bareEnv : Env :=
  { phash2 := fun _ _ => 0, phash2_lt := fun _ _ h => h, fileExists := fun _ => false,
    readFile := fun _ => none, pathJoin := fun base path => base ++ "/" ++ path }

def ruleTad : Buffer := .ofBytes (compileToBinaryTad bareEnv "" [.hr]) (by decide)

def helloTad : Buffer := .ofBytes (compileToBinaryTad bareEnv "" [.p "Hello"]) (by decide)

theorem encodes_ruleTad : Encodes bareEnv "" [.hr] ruleTad :=
  ⟨stored_ofList _, rfl, by decide⟩

theorem encodes_helloTad : Encodes bareEnv "" [.p "Hello"] helloTad :=
  ⟨stored_ofList _, rfl, by decide⟩

theorem carried_iff_ruleTad :
    isBinaryTad ruleTad ∧ ∃ t, Exits (loadStep ruleTad) loadStart t ∧
      (Carried initAttrs (calls bareEnv "" [.hr]) t.spans ↔
        Silent (runs (items bareEnv "" [.hr])).1 (runs (items bareEnv "" [.hr])).2 ∧
          ∀ c ∈ calls bareEnv "" [.hr], c.Sized) :=
  carried_iff encodes_ruleTad (by simp [calls, initSegments, bodySegments, Call.Fits]) (by decide)

-- The character segment asks for size 12 and weight 400, and is read from its attribute byte on.
theorem helloTad_loses_style :
    Encodes bareEnv "" [.p "Hello"] helloTad ∧
      ∃ t, Exits (loadStep helloTad) loadStart t ∧
        t.spans.map (fun s => (s.text, s.style.fontSize, s.style.weight)) =
          [(utf8 "Hello", 0, 12)] ∧
        ¬Carried initAttrs (calls bareEnv "" [.p "Hello"]) t.spans := by
  have hrun : (runFor (loadStep helloTad) 6 loadStart).map (fun t => t.spans.map
      fun s => (plainText s, s.text, s.style.fontSize, s.style.weight)) =
        some [(true, utf8 "Hello", 0, 12)] := by decide
  obtain ⟨t, ht, hmap⟩ := Option.map_eq_some_iff.mp hrun
  obtain ⟨s, hspans⟩ : ∃ s, t.spans = [s] :=
    List.length_eq_one_iff.mp (by simpa using congrArg List.length hmap)
  rw [hspans, List.map_singleton, List.cons.injEq, Prod.mk.injEq] at hmap
  refine ⟨encodes_helloTad, t, exits_of_runFor ht, ?_, fun hcarried => ?_⟩
  · rw [hspans, List.map_singleton, hmap.1.2]
  · have hpos := hcarried.fontSize_pos (by decide) (calls_made bareEnv "" _) s (by simp [hspans])
      hmap.1.1
    have hsize : s.style.fontSize = 0 := congrArg (fun r => r.2.1) hmap.1.2
    rw [hsize] at hpos
    exact absurd hpos (Nat.lt_irrefl 0)

end BTron.Html2tad
