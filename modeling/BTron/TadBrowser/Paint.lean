import BTron.TadBrowser.Layout
import Mathlib.Data.Nat.Prime.Basic
import Mathlib.Tactic.IntervalCases

namespace BTron.TadBrowser

open Lib Lib.Logged
open Graphics (asH Rect)

-- TAD_PAINT_WRAP_CTX without the device
structure PaintWrapCtx where
  x : Int
  y : Int
  pitch : Int
  textCol : Nat

def MemSpan.isLink (d : MemSpan) : Bool := d.span.style.isVobj || d.span.isLink

-- A text or a link: the painter wraps the text of the span.
def MemSpan.wrapped (d : MemSpan) : Bool :=
  !d.span.style.isImage && !d.span.style.isHr && (d.isLink || d.mem 0 != 0)

def paintPitch (d : MemSpan) : Int :=
  orDefault d.span.style.linePitch (if d.isLink then 22 else 20)

-- What tad_browser_paint wraps the text of a span with, for the callback and for the width.
def paintCtx (docWidth scrollY : Int) (bounds : Rect) (d : MemSpan) : PaintWrapCtx × Int :=
  let vy := bounds.top - scrollY
  let availW := availW docWidth bounds.left
  if d.isLink then
    (⟨asH (bounds.left + 4), asH vy, asH (paintPitch d), colorBlue⟩, availW - 8)
  else
    let textCol := if d.span.style.color ≠ 0 then d.span.style.color else colorBlack
    (⟨asH bounds.left, asH vy, asH (paintPitch d), textCol⟩, availW)

-- The lines of the text of a span: the pitch they are drawn with, and the lines.
def paintLines (fuel : Nat) (docWidth scrollY : Int) (bounds : Rect) (d : MemSpan) :
    Option (PaintWrapCtx × Nat × List WrapLine) := do
  let ctx := paintCtx docWidth scrollY bounds d
  let lines ← (tadBrowserWrapText fuel d.mem ctx.2 true).val
  some (ctx.1, lines)

-- The lines of a text or of a link fill its box.
def Fills (docWidth : Int) (bounds : Rect) (d : MemSpan) : Prop :=
  d.wrapped → ∀ scrollY fuel ctx r, paintLines fuel docWidth scrollY bounds d = some (ctx, r) →
    r.1 * ctx.pitch = bounds.bottom - bounds.top

-- A link has as many lines in 8 dots less, and the pitch of a text does not depend on its font.
def SameLines (docWidth : Int) (d : MemSpan) : Prop :=
  if d.isLink then
    ∃ r r', Gives (fun fuel => tadBrowserWrapText fuel d.mem
        (availW docWidth (layoutIndent d.span.style)) false) r ∧
      Gives (fun fuel => tadBrowserWrapText fuel d.mem
        (availW docWidth (layoutIndent d.span.style) - 8) false) r' ∧ r.1 = r'.1
  else d.span.style.linePitch ≠ 0 ∨ d.span.style.fontSize = 0 ∨ d.span.style.fontSize = 14

-- From `curY` on, every text and link has the same lines when it is painted, and its box does not
-- go over 32767.
def SamePlaces (docWidth : Int) : Int → List MemSpan → List Int → Prop
  | curY, d :: doc, h :: heights =>
    (d.wrapped → SameLines docWidth d ∧ asH curY + h ≤ 32767) ∧
      SamePlaces docWidth (curY + h + gapOf d) doc heights
  | _, _, _ => True

theorem product_ne {n k : Nat} (hn : n ≤ 511) (hk : k ≤ 241) : n * k ≠ 65536 := by
  intro h
  have hdvd : k ∣ 2 ^ 16 := Dvd.intro_left n h
  obtain ⟨j, -, rfl⟩ := (Nat.dvd_prime_pow Nat.prime_two).mp hdvd
  have hj : j < 8 := by
    by_contra hge
    have hpow : 2 ^ 8 ≤ 2 ^ j := Nat.pow_le_pow_right (by decide) (Nat.le_of_not_lt hge)
    omega
  interval_cases j <;> omega

-- Lines of two different pitches never come out at the same height, even modulo 2^16.
theorem lines_ne {n f : Nat} {y : Int} (hpos : 1 ≤ n) (hn : n ≤ 511) (hf : f ≤ 255)
    (hne : f ≠ 14) : (n : Int) * 20 ≠ asH (y + n * (f + 6)) - asH y := by
  intro h
  rw [Int.mul_add, Graphics.asH_eq, Graphics.asH_eq] at h
  rcases Nat.lt_or_gt_of_ne hne with hlt | hlt
  · obtain ⟨k, hk⟩ : ∃ k, f + k = 14 := ⟨14 - f, by omega⟩
    have hsum : n * f + n * k = n * 14 := by rw [← Nat.mul_add, hk]
    have hprod : n * k ≤ 511 * 14 := Nat.mul_le_mul hn (by omega)
    have hnk : 1 ≤ n * k := Nat.mul_pos hpos (by omega)
    have hcast : (n : Int) * f + (n * k : Nat) = n * 14 := by
      rw [Int.natCast_mul]
      exact_mod_cast hsum
    omega
  · obtain ⟨k, hk⟩ : ∃ k, f = 14 + k := ⟨f - 14, by omega⟩
    have hsum : n * f = n * 14 + n * k := by rw [hk, Nat.mul_add]
    have hprod : n * k ≤ 511 * 241 := Nat.mul_le_mul hn (by omega)
    have hnk : 1 ≤ n * k := Nat.mul_pos hpos (by omega)
    have hcast : (n : Int) * f = n * 14 + (n * k : Nat) := by
      rw [Int.natCast_mul]
      exact_mod_cast hsum
    have hdvd := product_ne hn (show k ≤ 241 by omega)
    omega

-- The lines do not depend on whether they go to a callback.
theorem count_uncalled {text : Memory} {maxW : Int} {r : Nat × List WrapLine}
    (h : Gives (fun fuel => tadBrowserWrapText fuel text maxW true) r) :
    Gives (fun fuel => tadBrowserWrapText fuel text maxW false) (r.1, []) := by
  obtain ⟨fuel, h⟩ := h
  by_cases h0 : text 0 = 0
  · refine ⟨0, ?_⟩
    simp only [tadBrowserWrapText, val_read_bind, if_pos h0] at h ⊢
    cases h
    rfl
  · simp only [tadBrowserWrapText, val_read_bind, if_neg h0] at h
    obtain ⟨y, hy, hval⟩ := ends_uncalled (ends_of_fuel h)
    exact hval ▸ gives_of_ends h0 hy

variable {d : MemSpan} {docWidth curY h : Int} {bounds : Rect}

theorem indent_eq (hd : Decoded d.span) :
    asH (layoutIndent d.span.style) = layoutIndent d.span.style := by
  have hindent := hd.indent
  unfold layoutIndent orDefault
  exact Graphics.asH_of_range (by split <;> omega)

theorem mem_ne_zero (hd : Decoded d.span) (hw : d.wrapped = true) : d.mem 0 ≠ 0 := by
  unfold MemSpan.wrapped MemSpan.isLink at hw
  rw [hd.link, Bool.or_self, Bool.and_eq_true, Bool.or_eq_true] at hw
  rcases hw.2 with hvobj | hne
  · exact mem_text hd.text (List.length_pos_iff.mpr (hd.vobj hvobj).2)
  · simpa using hne

theorem wrapped_plain (hw : d.wrapped = true) :
    d.span.style.isImage = false ∧ d.span.style.isHr = false := by
  unfold MemSpan.wrapped at hw
  simp only [Bool.and_eq_true, Bool.not_eq_true'] at hw
  exact hw.1

theorem paintCtx_pitch (docWidth scrollY : Int) (bounds : Rect) (d : MemSpan) :
    (paintCtx docWidth scrollY bounds d).1.pitch = asH (paintPitch d) := by
  unfold paintCtx
  dsimp only
  split <;> rfl

theorem paintCtx_width (docWidth scrollY : Int) (bounds : Rect) (d : MemSpan) :
    (paintCtx docWidth scrollY bounds d).2 =
      if d.isLink then availW docWidth bounds.left - 8 else availW docWidth bounds.left := by
  unfold paintCtx
  dsimp only
  split <;> rfl

-- The box is filled by the lines that the text has in the width of the painter.
theorem fills_of_lines {r : Nat × List WrapLine} {maxW pitch : Int} (hw : d.wrapped)
    (hmaxW : (if d.isLink then availW docWidth bounds.left - 8
      else availW docWidth bounds.left) = maxW)
    (hpitch : asH (paintPitch d) = pitch)
    (hr : Gives (fun fuel => tadBrowserWrapText fuel d.mem maxW true) r) :
    Fills docWidth bounds d ↔ r.1 * pitch = bounds.bottom - bounds.top := by
  subst hmaxW hpitch
  constructor
  · intro h
    obtain ⟨fuel, hfuel⟩ := hr
    rw [← paintCtx_pitch docWidth 0 bounds d]
    refine h hw 0 fuel _ r ?_
    unfold paintLines
    dsimp only
    rw [paintCtx_width, hfuel]
    rfl
  · intro h _ scrollY fuel ctx r' hpaint
    obtain ⟨lines, hlines, hpaint⟩ := Option.bind_eq_some_iff.mp hpaint
    cases hpaint
    rw [paintCtx_width] at hlines
    rw [paintCtx_pitch, wrap_unique ⟨fuel, hlines⟩ hr]
    exact h

-- A link is 22 high a line.
theorem link_pitch (hd : Decoded d.span) (hlink : d.isLink = true) :
    layoutPitch d.span.style = 22 ∧ asH (paintPitch d) = 22 := by
  unfold MemSpan.isLink at hlink
  rw [hd.link, Bool.or_self] at hlink
  unfold layoutPitch paintPitch orDefault
  rw [(hd.vobj hlink).1]
  exact ⟨rfl, rfl⟩

theorem fills_link_iff (hd : Decoded d.span) (hw : d.wrapped) (hlink : d.isLink = true)
    {r : Nat × List WrapLine} (hr : Gives (fun fuel => tadBrowserWrapText fuel d.mem
      (availW docWidth (layoutIndent d.span.style)) false) r)
    (hleft : bounds.left = layoutIndent d.span.style) (htop : bounds.top = asH curY)
    (hbottom : bounds.bottom = asH (curY + r.1 * 22)) :
    Fills docWidth bounds d ↔ SameLines docWidth d ∧ asH curY + r.1 * 22 ≤ 32767 := by
  have hne := mem_ne_zero hd hw
  obtain ⟨r', hr', hpos', hle'⟩ := lines_of_decoded hd hne
    (availW docWidth (layoutIndent d.span.style) - 8) true
  obtain ⟨r'', hr'', hpos, hle⟩ := lines_of_decoded hd hne
    (availW docWidth (layoutIndent d.span.style)) false
  obtain rfl := wrap_unique hr hr''
  have hplaces : places d.span ≤ 513 := by
    unfold places
    split <;> decide
  have hsame : SameLines docWidth d ↔ r.1 = r'.1 := by
    unfold SameLines
    rw [if_pos hlink]
    constructor
    · rintro ⟨q, q', hq, hq', heq⟩
      rw [wrap_unique hr hq, heq, wrap_unique hq' (count_uncalled hr')]
    · exact fun heq => ⟨r, _, hr, count_uncalled hr', heq⟩
  rw [hsame, fills_of_lines hw (by rw [if_pos hlink, hleft]) (link_pitch hd hlink).2 hr', htop,
    hbottom]
  simp only [Graphics.asH_eq]
  omega

-- The pitch of a text with a pitch of its own, or with a font as high as the painter takes it.
theorem text_pitch (docWidth : Int) (hstyle : TextStyle d.span.style) (hlink : d.isLink = false) :
    asH (paintPitch d) = paintPitch d ∧
      (layoutPitch d.span.style = paintPitch d ↔ SameLines docWidth d) ∧
      (layoutPitch d.span.style ≠ paintPitch d →
        layoutPitch d.span.style = d.span.style.fontSize + 6 ∧ paintPitch d = 20) := by
  have hpitch := hstyle.linePitch
  unfold SameLines layoutPitch paintPitch orDefault
  simp only [hlink, Bool.false_eq_true, if_false]
  refine ⟨Graphics.asH_of_range (by split <;> omega), ?_, ?_⟩
  · split_ifs <;> omega
  · split_ifs <;> omega

theorem fills_text_iff (hd : Decoded d.span) (hw : d.wrapped) (hlink : d.isLink = false)
    {r : Nat × List WrapLine} (hr : Gives (fun fuel => tadBrowserWrapText fuel d.mem
      (availW docWidth (layoutIndent d.span.style)) false) r)
    (hleft : bounds.left = layoutIndent d.span.style) (htop : bounds.top = asH curY)
    (hbottom : bounds.bottom = asH (curY + r.1 * layoutPitch d.span.style)) :
    Fills docWidth bounds d ↔
      SameLines docWidth d ∧ asH curY + r.1 * layoutPitch d.span.style ≤ 32767 := by
  have hne := mem_ne_zero hd hw
  have himage := (wrapped_plain hw).1
  obtain ⟨r', hr', hpos, hle⟩ := lines_of_decoded hd hne
    (availW docWidth (layoutIndent d.span.style)) true
  have hcount := wrap_unique hr (count_uncalled hr')
  have hplaces : places d.span = 511 := by
    unfold MemSpan.isLink at hlink
    rw [Bool.or_eq_false_iff] at hlink
    unfold places
    rw [hlink.2, if_neg (by decide)]
  have hbounds := pitch_bounds hd himage
  obtain ⟨hpitch, hsame, hother⟩ := text_pitch docWidth (hd.style himage) hlink
  rw [fills_of_lines hw (by rw [hlink, if_neg (by decide), hleft]) hpitch hr', htop, hbottom,
    hcount, ← hsame]
  dsimp only
  by_cases heq : layoutPitch d.span.style = paintPitch d
  · have hnonneg : 0 ≤ (r'.1 : Int) * paintPitch d :=
      Int.mul_nonneg (Int.natCast_nonneg _) (by omega)
    rw [and_iff_right heq, heq]
    simp only [Graphics.asH_eq]
    omega
  · obtain ⟨hfont, hpaint⟩ := hother heq
    refine iff_of_false (fun hfill => ?_) (fun h => heq h.1)
    rw [hfont, hpaint] at hfill
    refine lines_ne hpos (hplaces ▸ hle) (hd.style himage).fontSize (fun h14 => heq ?_) hfill
    rw [hfont, hpaint, h14]
    rfl

-- The text of a span fills its box where the lines are the same and the box does not wrap around.
theorem fills_iff (hd : Decoded d.span) (hh : HasHeight docWidth d h)
    (hleft : bounds.left = layoutIndent d.span.style) (htop : bounds.top = asH curY)
    (hbottom : bounds.bottom = asH (curY + h)) :
    Fills docWidth bounds d ↔ (d.wrapped → SameLines docWidth d ∧ asH curY + h ≤ 32767) := by
  by_cases hw : d.wrapped = true
  · rw [forall_prop_of_true hw]
    have hplain := wrapped_plain hw
    cases hh with
    | image himage => cases himage.symm.trans hplain.1
    | line _ hline =>
        rcases hline with hhr | h0
        · cases hhr.symm.trans hplain.2
        · exact absurd h0 (mem_ne_zero hd hw)
    | @text r _ _ _ hr =>
        cases hlink : d.isLink with
        | true =>
            rw [(link_pitch hd hlink).1] at hbottom ⊢
            exact fills_link_iff hd hw hlink hr hleft htop hbottom
        | false => exact fills_text_iff hd hw hlink hr hleft htop hbottom
  · exact ⟨fun _ h => absurd h hw, fun _ h => absurd h hw⟩

theorem fills_layoutSpans {fuel : Nat} {doc : List MemSpan} {heights : List Int}
    (hdoc : ∀ d ∈ doc, Decoded d.span) (hheights : List.Forall₂ (HasHeight docWidth) doc heights)
    {placed : List Rect × Int} (hplaced : layoutSpans fuel docWidth curY doc = some placed) :
    (∀ p ∈ doc.zip placed.1, Fills docWidth p.2 p.1) ↔ SamePlaces docWidth curY doc heights := by
  induction hheights generalizing curY placed with
  | nil => simp [SamePlaces]
  | @cons d h doc heights hh hheights ih =>
      obtain ⟨hd, hrest⟩ := List.forall_mem_cons.mp hdoc
      rw [layoutSpans] at hplaced
      obtain ⟨first, hfirst, hplaced⟩ := Option.bind_eq_some_iff.mp hplaced
      obtain ⟨rest, hrest', hplaced⟩ := Option.bind_eq_some_iff.mp hplaced
      cases hplaced
      obtain ⟨htop, hbottom, hnext, hleft⟩ := layoutSpan_eq hd hh hfirst
      rw [hnext] at hrest'
      rw [List.zip_cons_cons, List.forall_mem_cons, ih hrest hrest', SamePlaces]
      refine and_congr_left fun _ => ?_
      by_cases hw : d.wrapped = true
      · exact fills_iff hd hh ((hleft (wrapped_plain hw).1).trans (indent_eq hd)) htop hbottom
      · exact ⟨fun _ h => absurd h hw, fun _ h => absurd h hw⟩

-- The lines that are painted fill the boxes of the layout if and only if each text and link has
-- the same lines and pitch when it is painted, and its box does not wrap around.
theorem painted_lines_iff {b : Buffer} {doc : List MemSpan} (hdoc : InMemory b doc)
    (viewWidth : Int) :
    ∃ heights, List.Forall₂ (HasHeight (layoutWidth viewWidth)) doc heights ∧
      (∃ fuel l, tadBrowserLayout fuel doc viewWidth = some l) ∧
      ∀ fuel l, tadBrowserLayout fuel doc viewWidth = some l →
        ((∀ p ∈ doc.zip l.bounds, Fills l.docWidth p.2 p.1) ↔
          SamePlaces (layoutWidth viewWidth) 36 doc heights) := by
  have hdecoded := decoded_inMemory hdoc
  obtain ⟨heights, hheights⟩ := exists_heights (layoutWidth viewWidth) hdecoded
  refine ⟨heights, hheights, exists_layout viewWidth hdecoded, fun fuel l hl => ?_⟩
  obtain ⟨placed, hplaced, hl⟩ := Option.bind_eq_some_iff.mp hl
  cases hl
  exact fills_layoutSpans hdecoded hheights hplaced

-- A link whose text is 150 dots wide.
def linkLine : List UB := utf8 "[仮身] aaaaaaaaaaaa"

def linkTad : Buffer := .ofBytes linkLine (by decide)

def linkSpan : TadSpan := lineSpan (fun _ => 0) linkLine

theorem inMemory_link : InMemory linkTad [.of linkSpan] := by
  have hstep : parseStep (fun _ _ => 0) linkTad parseStart = some ⟨21, [linkSpan]⟩ := by
    have hpos : (parseStep (fun _ _ => 0) linkTad parseStart).map (fun s => (s.pos, s.spans)) =
        some (21, [linkSpan]) := by decide
    obtain ⟨s, hs, hval⟩ := Option.map_eq_some_iff.mp hpos
    obtain ⟨pos, spans⟩ := s
    cases hval
    exact hs
  exact .inr ⟨by decide, fun _ _ => 0, _, .next hstep (.stop (by decide)), rfl⟩

theorem painted_lines_iff_link :
    ∃ heights, List.Forall₂ (HasHeight (layoutWidth 640)) [.of linkSpan] heights ∧
      (∃ fuel l, tadBrowserLayout fuel [.of linkSpan] 640 = some l) ∧
      ∀ fuel l, tadBrowserLayout fuel [.of linkSpan] 640 = some l →
        ((∀ p ∈ [MemSpan.of linkSpan].zip l.bounds, Fills l.docWidth p.2 p.1) ↔
          SamePlaces (layoutWidth 640) 36 [.of linkSpan] heights) :=
  painted_lines_iff inMemory_link 640

-- In a view 201 wide the layout has 152 dots for the link and the painter 144.
theorem painted_link_overflows : ¬∀ (b : Buffer) (doc : List MemSpan), InMemory b doc →
    ∀ viewWidth fuel l, tadBrowserLayout fuel doc viewWidth = some l →
      ∀ p ∈ doc.zip l.bounds, Fills l.docWidth p.2 p.1 := by
  intro h
  have hlayout : (tadBrowserLayout 30 [.of linkSpan] 201).map (fun l =>
      (l.bounds, l.docWidth, l.docHeight)) = some ([⟨25, 36, 177, 58⟩], 201, 88) := by
    decide
  obtain ⟨l, hl, hval⟩ := Option.map_eq_some_iff.mp hlayout
  obtain ⟨bounds, docWidth, docHeight⟩ := l
  cases hval
  have hfills := h linkTad [.of linkSpan] inMemory_link 201 30 _ hl _ (List.mem_singleton_self _)
    (by decide)
  have hpaint : ((paintLines 60 201 0 ⟨25, 36, 177, 58⟩ (.of linkSpan)).map fun p =>
      (p.2.1, p.1.pitch)) = some (2, 22) := by decide
  obtain ⟨⟨ctx, r⟩, hr, hval⟩ := Option.map_eq_some_iff.mp hpaint
  have heq := hfills 0 60 ctx r hr
  obtain ⟨hlines, hpitch⟩ := Prod.mk.inj hval
  dsimp only at hlines hpitch
  rw [hlines, hpitch] at heq
  exact absurd heq (by decide)

end BTron.TadBrowser
