import BTron.Graphics
import BTron.Lib.Loop
import BTron.TadBrowser.Spans
import BTron.TadBrowser.WrapLines
import Mathlib.Data.List.Chain
import Mathlib.Data.List.Forall2

namespace BTron.TadBrowser

open Lib Lib.Logged TronCode
open Graphics (asH Rect)

-- The array `text` of a span and is_link behind it.
def TadSpan.cells (s : TadSpan) : List UB :=
  s.text ++ List.replicate (512 - s.text.length) 0 ++ [if s.isLink then 1 else 0, 0, 0, 0]

-- A span of the document with the memory from its text on.
structure MemSpan where
  span : TadSpan
  mem : Memory
  holds : Stored mem 0 span.cells

-- `strlen(s->text)`, within the array
def textLen (mem : Memory) : Nat := scan (fun i => mem i == 0) 512 0

def imageH (style : TadStyle) : Int :=
  let figH := if style.imgH ≠ 0 then style.imgH else 180
  if figH < 40 then 40 else figH

def imageBoxW (style : TadStyle) (docWidth : Int) : Int :=
  let figW := if style.imgW ≠ 0 then style.imgW else 576
  let figW := if figW < 200 then 200 else figW
  if figW + 16 < docWidth - 40 then docWidth - 40 else figW + 16

def layoutPitch (style : TadStyle) : Int :=
  orDefault style.linePitch (if 0 < style.fontSize then style.fontSize + 6 else 20)

def layoutIndent (style : TadStyle) : Int := orDefault style.indent 10

-- The width for the lines of a text behind `left`.
def availW (docWidth left : Int) : Int :=
  if docWidth - left - 24 < 80 then 80 else docWidth - left - 24

def textW (d : MemSpan) (availW : Int) (numLines : Nat) : Int :=
  let calcW : Int := textLen d.mem * if 16 ≤ d.span.style.fontSize then 10 else 8
  let calcW := if calcW > availW ∨ numLines > 1 then availW else calcW
  let calcW := if calcW < 50 ∧ d.span.style.isVobj then 260 else calcW
  if calcW > availW then availW else calcW

-- The bounds of a span at `curY`, and where the next one starts.
def layoutSpan (fuel : Nat) (docWidth curY : Int) (d : MemSpan) : Option (Rect × Int) :=
  let style := d.span.style
  if style.isImage then
    some (⟨16, asH curY, asH (16 + imageBoxW style docWidth), asH (curY + imageH style + 46)⟩,
      curY + (imageH style + 52))
  else
    let pitch := layoutPitch style
    let indent := layoutIndent style
    if style.isHr then
      some (⟨asH indent, asH curY, asH (docWidth - 24), asH (curY + pitch)⟩, curY + pitch)
    else if d.mem 0 = 0 then
      some (⟨asH indent, asH curY, asH indent, asH (curY + pitch)⟩, curY + pitch)
    else do
      let availW := availW docWidth indent
      let wrapped ← (tadBrowserWrapText fuel d.mem availW false).val
      let numLines := if wrapped.1 < 1 then 1 else wrapped.1
      let spanH := numLines * pitch
      some (⟨asH indent, asH curY, asH (indent + textW d availW numLines), asH (curY + spanH)⟩,
        curY + spanH)

def layoutSpans (fuel : Nat) (docWidth : Int) : Int → List MemSpan → Option (List Rect × Int)
  | curY, [] => some ([], curY)
  | curY, d :: doc => do
    let placed ← layoutSpan fuel docWidth curY d
    let rest ← layoutSpans fuel docWidth placed.2 doc
    some (placed.1 :: rest.1, rest.2)

-- The bounds of the spans, doc_width and doc_height.
structure Layout where
  bounds : List Rect
  docWidth : Int
  docHeight : Int

def layoutWidth (viewWidth : Int) : Int := if viewWidth > 200 then viewWidth else 640

def tadBrowserLayout (fuel : Nat) (doc : List MemSpan) (viewWidth : Int) : Option Layout := do
  let placed ← layoutSpans fuel (layoutWidth viewWidth) 36 doc
  some ⟨placed.1, layoutWidth viewWidth, placed.2 + 30⟩

-- A decoded document in memory.
def InMemory (b : Buffer) (doc : List MemSpan) : Prop := Parses b (doc.map (·.span))

-- The spans are below each other, from the toolbar to the end of the document.
structure Layout.Ordered (l : Layout) : Prop where
  upright : ∀ r ∈ l.bounds, r.top ≤ r.bottom
  apart : l.bounds.IsChain fun r r' => r.bottom ≤ r'.top
  first : ∀ r ∈ l.bounds.head?, 36 ≤ r.top
  last : ∀ r ∈ l.bounds.getLast?, r.bottom + 30 ≤ l.docHeight

-- The height of a span: that of its figure, one line, or the lines of its text.
inductive HasHeight (docWidth : Int) (d : MemSpan) : Int → Prop
  | image : d.span.style.isImage = true → HasHeight docWidth d (imageH d.span.style + 46)
  | line : d.span.style.isImage = false → d.span.style.isHr = true ∨ d.mem 0 = 0 →
      HasHeight docWidth d (layoutPitch d.span.style)
  | text {r : Nat × List WrapLine} : d.span.style.isImage = false → d.span.style.isHr = false →
      d.mem 0 ≠ 0 → Gives (fun fuel => tadBrowserWrapText fuel d.mem
        (availW docWidth (layoutIndent d.span.style)) false) r →
      HasHeight docWidth d (r.1 * layoutPitch d.span.style)

-- The room behind a span.
def gapOf (d : MemSpan) : Int := if d.span.style.isImage then 6 else 0

-- How far down the spans go, their heights being taken modulo 2^16. What is behind the last of
-- them does not count.
def depth : Int → List MemSpan → List Int → Int
  | gap, d :: doc, h :: heights => gap + h % 65536 + depth (gapOf d) doc heights
  | _, _, _ => 0

section Array

variable {d : MemSpan}

theorem mem_text (htext : TextArray d.span.text) {k : Nat} (hk : k < d.span.text.length) :
    d.mem k ≠ 0 := by
  have hcells := d.holds
  unfold TadSpan.cells at hcells
  rw [stored_append, stored_append] at hcells
  have hcell := hcells.1.1 k hk
  rw [Nat.zero_add] at hcell
  rw [hcell]
  intro h0
  exact htext.zero (h0 ▸ List.getElem_mem hk)

theorem mem_zero {k : Nat} (hlo : d.span.text.length ≤ k)
    (hhi : k < 512) : d.mem k = 0 := by
  have hcells := d.holds
  unfold TadSpan.cells at hcells
  rw [stored_append, stored_append] at hcells
  have hcell := hcells.1.2 (k - d.span.text.length) (by simp; omega)
  rw [List.getElem_replicate] at hcell
  rw [← hcell]
  congr 1
  omega

theorem mem_link (htext : TextArray d.span.text) :
    (d.mem 512 = if d.span.isLink then 1 else 0) ∧ d.mem 513 = 0 ∧ d.mem 514 = 0 := by
  have hlen := htext.length
  have hcells := d.holds
  unfold TadSpan.cells at hcells
  rw [stored_append] at hcells
  have hsize : (d.span.text ++ List.replicate (512 - d.span.text.length) 0).length = 512 := by
    rw [List.length_append, List.length_replicate]
    omega
  have hbehind := hcells.2
  rw [hsize] at hbehind
  simp only [stored_cons] at hbehind
  exact ⟨hbehind.1, hbehind.2.1, hbehind.2.2.1⟩

-- How many places of the array and of is_link can have a byte.
def places (s : TadSpan) : Nat := if s.isLink then 513 else 511

-- A text is read up to a zero, which is behind the array where its last character is cut.
theorem exists_end (htext : TextArray d.span.text) :
    ∃ n, d.mem n = 0 ∧ Whole d.mem n 0 ∧
      ∀ i, Whole d.mem n i → d.mem i ≠ 0 → i < places d.span := by
  have hlen := htext.length
  obtain ⟨hlink, h513, h514⟩ := mem_link htext
  have hplaces : ∀ i, d.mem i ≠ 0 → i ≤ 514 → i < places d.span := by
    intro i hne hi
    unfold places
    by_cases hin : i < 512
    · have hlt : i < d.span.text.length := by
        by_contra hge
        exact hne (mem_zero (Nat.le_of_not_lt hge) hin)
      split <;> omega
    · have h512 : i = 512 := by
        by_contra hne'
        rcases (by omega : i = 513 ∨ i = 514) with rfl | rfl
        · exact hne h513
        · exact hne h514
      subst h512
      rw [hlink] at hne
      split
      · decide
      · rename_i hno
        rw [if_neg hno] at hne
        exact absurd rfl hne
  obtain ⟨n, hlo, hhi, hwhole⟩ := @exists_whole d.mem _ 0
    (fun k hk => mem_text htext hk) (Nat.zero_le _)
  by_cases h0 : d.mem n = 0
  · exact ⟨n, h0, hwhole, fun i hi hne => hplaces i hne (by have := hi.le; omega)⟩
  · -- the character that is cut ends in front of is_link, which holds 1
    have hn : n = 512 := by
      by_contra hne
      rcases (by omega : n < 512 ∨ n = 513 ∨ n = 514) with hlt | rfl | rfl
      · exact h0 (mem_zero hlo hlt)
      · exact h0 h513
      · exact h0 h514
    subst hn
    have hone : d.mem 512 = 1 := by
      rw [hlink] at h0 ⊢
      split
      · rfl
      · rename_i hno
        rw [if_neg hno] at h0
        exact absurd rfl h0
    have hstep : leadStep (d.mem 512) = 1 := by rw [hone]; rfl
    have hnext : Whole d.mem 513 512 := .char h0 (by rw [hstep]; exact .nil)
    exact ⟨513, h513, whole_trans hwhole hnext, fun i hi hne => hplaces i hne (by
      have := hi.le
      omega)⟩

-- The lines of a text that is not empty.
theorem lines_of_decoded (hd : Decoded d.span) (hne : d.mem 0 ≠ 0) (maxW : Int) (cb : Bool) :
    ∃ r, Gives (fun fuel => tadBrowserWrapText fuel d.mem maxW cb) r ∧ 1 ≤ r.1 ∧
      r.1 ≤ places d.span := by
  obtain ⟨n, hend, hwhole, hplaces⟩ := exists_end hd.text
  exact lines_bounds hend hwhole hplaces hne maxW cb

end Array

theorem imageH_bounds {style : TadStyle} (h : 0 < style.imgH ∧ style.imgH ≤ 32767) :
    40 ≤ imageH style ∧ imageH style ≤ 32767 := by
  unfold imageH
  dsimp only
  split_ifs <;> omega

theorem layoutPitch_bounds {style : TadStyle} (h : TextStyle style) :
    1 ≤ layoutPitch style ∧ layoutPitch style ≤ 261 := by
  have hsize := h.fontSize
  have hpitch := h.linePitch
  unfold layoutPitch orDefault
  split_ifs <;> omega

theorem pitch_bounds {d : MemSpan} (hd : Decoded d.span) (himage : d.span.style.isImage = false) :
    1 ≤ layoutPitch d.span.style ∧ layoutPitch d.span.style ≤ 261 :=
  layoutPitch_bounds (hd.style himage)

-- Every span of a decoded document has a height.
theorem exists_height {d : MemSpan} (hd : Decoded d.span) (docWidth : Int) :
    ∃ h, HasHeight docWidth d h := by
  cases himage : d.span.style.isImage with
  | true => exact ⟨_, .image himage⟩
  | false =>
      by_cases hline : d.span.style.isHr = true ∨ d.mem 0 = 0
      · exact ⟨_, .line himage hline⟩
      · rw [not_or, Bool.not_eq_true] at hline
        obtain ⟨r, hr, -⟩ := lines_of_decoded hd hline.2
          (availW docWidth (layoutIndent d.span.style)) false
        exact ⟨_, .text himage hline.1 hline.2 hr⟩

theorem height_nonneg {docWidth h : Int} {d : MemSpan} (hd : Decoded d.span)
    (hh : HasHeight docWidth d h) : 0 ≤ h := by
  cases hh with
  | image himage =>
      have := imageH_bounds (hd.image himage).2
      omega
  | line himage _ =>
      have := pitch_bounds hd himage
      omega
  | @text r himage _ _ _ =>
      have := pitch_bounds hd himage
      exact Int.mul_nonneg (Int.natCast_nonneg r.1) (by omega)

-- What the layout of one span is.
theorem layoutSpan_eq {fuel : Nat} {docWidth curY h : Int} {d : MemSpan} {placed : Rect × Int}
    (hd : Decoded d.span) (hh : HasHeight docWidth d h)
    (hplaced : layoutSpan fuel docWidth curY d = some placed) :
    placed.1.top = asH curY ∧ placed.1.bottom = asH (curY + h) ∧
      placed.2 = curY + h + gapOf d ∧
      (d.span.style.isImage = false → placed.1.left = asH (layoutIndent d.span.style)) := by
  unfold layoutSpan at hplaced
  dsimp only at hplaced
  unfold gapOf
  cases hh with
  | image himage =>
      rw [if_pos himage] at hplaced ⊢
      cases hplaced
      refine ⟨rfl, by rw [Int.add_assoc], by dsimp only; omega, fun hno => ?_⟩
      cases himage.symm.trans hno
  | line himage hline =>
      rw [himage, if_neg (by decide)] at hplaced ⊢
      rw [Int.add_zero]
      split at hplaced
      · cases hplaced
        exact ⟨rfl, rfl, rfl, fun _ => rfl⟩
      · rename_i hno
        rw [if_pos (hline.resolve_left hno)] at hplaced
        cases hplaced
        exact ⟨rfl, rfl, rfl, fun _ => rfl⟩
  | @text r himage hhr hne hr =>
      obtain ⟨r', hr', hpos, -⟩ := lines_of_decoded hd hne
        (availW docWidth (layoutIndent d.span.style)) false
      obtain rfl := wrap_unique hr hr'
      rw [himage, if_neg (by decide)] at hplaced ⊢
      rw [hhr, if_neg (by decide), if_neg hne] at hplaced
      obtain ⟨wrapped, hwrapped, hplaced⟩ := Option.bind_eq_some_iff.mp hplaced
      obtain rfl := wrap_unique ⟨fuel, hwrapped⟩ hr
      rw [if_neg (by omega)] at hplaced
      cases hplaced
      exact ⟨rfl, rfl, (Int.add_zero _).symm, fun _ => rfl⟩

theorem exists_layoutSpan (docWidth : Int) {d : MemSpan} (hd : Decoded d.span) :
    ∃ fuel, ∀ fuel' ≥ fuel, ∀ curY, ∃ placed, layoutSpan fuel' docWidth curY d = some placed := by
  obtain ⟨h, hh⟩ := exists_height hd docWidth
  cases hh with
  | image himage =>
      refine ⟨0, fun fuel _ curY => ?_⟩
      unfold layoutSpan
      dsimp only
      rw [if_pos himage]
      exact ⟨_, rfl⟩
  | line himage hline =>
      refine ⟨0, fun fuel _ curY => ?_⟩
      unfold layoutSpan
      dsimp only
      rw [himage, if_neg (by decide)]
      split
      · exact ⟨_, rfl⟩
      · rename_i hno
        rw [if_pos (hline.resolve_left hno)]
        exact ⟨_, rfl⟩
  | text himage hhr hne hr =>
      obtain ⟨fuel, hfuel⟩ := hr
      refine ⟨fuel, fun fuel' hle curY => ?_⟩
      unfold layoutSpan
      dsimp only
      rw [himage, if_neg (by decide), hhr, if_neg (by decide), if_neg hne,
        wrap_mono hfuel hle]
      exact ⟨_, rfl⟩

-- The layout of a decoded document is done.
theorem exists_layoutSpans (docWidth : Int) {doc : List MemSpan}
    (hdoc : ∀ d ∈ doc, Decoded d.span) :
    ∃ fuel, ∀ fuel' ≥ fuel, ∀ curY, ∃ placed,
      layoutSpans fuel' docWidth curY doc = some placed := by
  induction doc with
  | nil => exact ⟨0, fun _ _ curY => ⟨_, rfl⟩⟩
  | cons d doc ih =>
      obtain ⟨hd, hrest⟩ := List.forall_mem_cons.mp hdoc
      obtain ⟨fuel, hfuel⟩ := exists_layoutSpan docWidth hd
      obtain ⟨fuel', hfuel'⟩ := ih hrest
      refine ⟨max fuel fuel', fun more hmore curY => ?_⟩
      obtain ⟨placed, hplaced⟩ := hfuel more (by omega) curY
      obtain ⟨rest, hrest⟩ := hfuel' more (by omega) placed.2
      refine ⟨(placed.1 :: rest.1, rest.2), ?_⟩
      rw [layoutSpans, hplaced, Option.bind_eq_bind, Option.bind_some, hrest]
      rfl

-- Each rectangle is upright and not above the one before it, from the edge `w` on.
def Below : Int → List Rect → Prop
  | _, [] => True
  | w, r :: rest => w ≤ r.top ∧ r.top ≤ r.bottom ∧ Below r.bottom rest

theorem below_iff {w : Int} {bounds : List Rect} :
    Below w bounds ↔ (∀ r ∈ bounds, r.top ≤ r.bottom) ∧
      (bounds.IsChain fun r r' => r.bottom ≤ r'.top) ∧ ∀ r ∈ bounds.head?, w ≤ r.top := by
  induction bounds generalizing w with
  | nil => simp [Below]
  | cons r rest ih =>
      rw [Below, ih, List.forall_mem_cons, List.isChain_cons]
      simp only [List.head?_cons, Option.mem_some_iff, forall_eq']
      constructor
      · rintro ⟨hw, hr, hup, hchain, hhead⟩
        exact ⟨⟨hr, hup⟩, ⟨hhead, hchain⟩, hw⟩
      · rintro ⟨⟨hr, hup⟩, ⟨hhead, hchain⟩, hw⟩
        exact ⟨hw, hr, hup, hchain, hhead⟩

theorem depth_nonneg {gap : Int} (hgap : 0 ≤ gap) (doc : List MemSpan) (heights : List Int) :
    0 ≤ depth gap doc heights := by
  induction doc generalizing gap heights with
  | nil => exact Int.le_refl 0
  | cons d doc ih =>
      cases heights with
      | nil => exact Int.le_refl 0
      | cons h heights =>
          have hgap' : 0 ≤ gapOf d := by
            unfold gapOf
            split <;> decide
          have hrest := ih hgap' heights
          rw [depth]
          omega

-- The edges stay in order as long as they do not go over 32767.
theorem below_layoutSpans {fuel : Nat} {docWidth : Int} {doc : List MemSpan} {heights : List Int}
    (hdoc : ∀ d ∈ doc, Decoded d.span) (hheights : List.Forall₂ (HasHeight docWidth) doc heights)
    {edge gap : Int} {placed : List Rect × Int} (hgap : 0 ≤ gap ∧ gap ≤ 6)
    (hplaced : layoutSpans fuel docWidth (edge + gap) doc = some placed) :
    Below (asH edge) placed.1 ↔ asH edge + depth gap doc heights ≤ 32767 := by
  induction hheights generalizing edge gap placed with
  | nil =>
      cases hplaced
      have hnil : depth gap [] [] = 0 := rfl
      refine iff_of_true trivial ?_
      rw [hnil, Graphics.asH_eq]
      omega
  | @cons d h doc heights hh hheights ih =>
      obtain ⟨hd, hrest⟩ := List.forall_mem_cons.mp hdoc
      rw [layoutSpans] at hplaced
      obtain ⟨first, hfirst, hplaced⟩ := Option.bind_eq_some_iff.mp hplaced
      obtain ⟨rest, hrest', hplaced⟩ := Option.bind_eq_some_iff.mp hplaced
      cases hplaced
      obtain ⟨htop, hbottom, hnext, -⟩ := layoutSpan_eq hd hh hfirst
      have hgap' : 0 ≤ gapOf d ∧ gapOf d ≤ 6 := by
        unfold gapOf
        split <;> decide
      rw [hnext] at hrest'
      have hih := ih hrest hgap' hrest'
      have hnonneg := height_nonneg hd hh
      have hdepth := depth_nonneg hgap'.1 doc heights
      rw [Below, htop, hbottom, hih, depth]
      simp only [Graphics.asH_eq]
      omega

-- The document goes on to where the layout ends.
theorem last_le {fuel : Nat} {docWidth curY : Int} {doc : List MemSpan} {heights : List Int}
    (hdoc : ∀ d ∈ doc, Decoded d.span) (hheights : List.Forall₂ (HasHeight docWidth) doc heights)
    (hcurY : 0 ≤ curY) {placed : List Rect × Int}
    (hplaced : layoutSpans fuel docWidth curY doc = some placed) :
    curY ≤ placed.2 ∧ ∀ r ∈ placed.1, r.bottom ≤ placed.2 := by
  induction hheights generalizing curY placed with
  | nil =>
      cases hplaced
      simp
  | @cons d h doc heights hh hheights ih =>
      obtain ⟨hd, hrest⟩ := List.forall_mem_cons.mp hdoc
      rw [layoutSpans] at hplaced
      obtain ⟨first, hfirst, hplaced⟩ := Option.bind_eq_some_iff.mp hplaced
      obtain ⟨rest, hrest', hplaced⟩ := Option.bind_eq_some_iff.mp hplaced
      cases hplaced
      obtain ⟨-, hbottom, hnext, -⟩ := layoutSpan_eq hd hh hfirst
      have hgap : 0 ≤ gapOf d := by
        unfold gapOf
        split <;> decide
      have hnonneg := height_nonneg hd hh
      obtain ⟨hle, hall⟩ := ih hrest (by omega) hrest'
      refine ⟨by dsimp only; omega, List.forall_mem_cons.mpr ⟨?_, hall⟩⟩
      rw [hbottom, Graphics.asH_eq]
      dsimp only
      omega

theorem exists_heights (docWidth : Int) {doc : List MemSpan} (hdoc : ∀ d ∈ doc, Decoded d.span) :
    ∃ heights, List.Forall₂ (HasHeight docWidth) doc heights := by
  induction doc with
  | nil => exact ⟨[], .nil⟩
  | cons d doc ih =>
      obtain ⟨hd, hrest⟩ := List.forall_mem_cons.mp hdoc
      obtain ⟨h, hh⟩ := exists_height hd docWidth
      obtain ⟨heights, hheights⟩ := ih hrest
      exact ⟨h :: heights, .cons hh hheights⟩

theorem decoded_inMemory {b : Buffer} {doc : List MemSpan} (h : InMemory b doc) :
    ∀ d ∈ doc, Decoded d.span := fun _ hd =>
  decoded_of_parses h _ (List.mem_map_of_mem hd)

theorem exists_layout (viewWidth : Int) {doc : List MemSpan} (hdoc : ∀ d ∈ doc, Decoded d.span) :
    ∃ fuel l, tadBrowserLayout fuel doc viewWidth = some l := by
  obtain ⟨fuel, hfuel⟩ := exists_layoutSpans (layoutWidth viewWidth) hdoc
  obtain ⟨placed, hplaced⟩ := hfuel fuel (Nat.le_refl fuel) 36
  refine ⟨fuel, ⟨placed.1, layoutWidth viewWidth, placed.2 + 30⟩, ?_⟩
  rw [tadBrowserLayout, hplaced]
  rfl

-- Every decoded document is laid out, and its spans are in order if and only if their heights,
-- each modulo 2^16, with the room between them do not go below 32767.
theorem layout_ordered_iff {b : Buffer} {doc : List MemSpan} (hdoc : InMemory b doc)
    (viewWidth : Int) :
    ∃ heights, List.Forall₂ (HasHeight (layoutWidth viewWidth)) doc heights ∧
      (∃ fuel l, tadBrowserLayout fuel doc viewWidth = some l) ∧
      ∀ fuel l, tadBrowserLayout fuel doc viewWidth = some l →
        (l.Ordered ↔ 36 + depth 0 doc heights ≤ 32767) := by
  have hdecoded := decoded_inMemory hdoc
  obtain ⟨heights, hheights⟩ := exists_heights (layoutWidth viewWidth) hdecoded
  refine ⟨heights, hheights, exists_layout viewWidth hdecoded, fun fuel l hl => ?_⟩
  obtain ⟨placed, hplaced, hl⟩ := Option.bind_eq_some_iff.mp hl
  cases hl
  rw [← Int.add_zero 36] at hplaced
  have hbelow := below_layoutSpans hdecoded hheights (by decide) hplaced
  have hlast := (last_le hdecoded hheights (by decide) hplaced).2
  have h36 : asH 36 = 36 := by decide
  rw [h36, below_iff] at hbelow
  rw [← hbelow]
  constructor
  · intro h
    exact ⟨h.upright, h.apart, h.first⟩
  · rintro ⟨hup, hchain, hhead⟩
    refine ⟨hup, hchain, hhead, fun r hr => ?_⟩
    have hbottom := hlast r (List.mem_of_getLast? hr)
    dsimp only
    omega

def MemSpan.of (s : TadSpan) : MemSpan := ⟨s, ofList s.cells, stored_ofList _⟩

-- A figure 64 dots wide and 32767 high, and nothing else.
def figureTad : Buffer :=
  .ofBytes [0x00, 0x01, 0, 0, 0, 0, 0xFF, 0xB0, 0, 0, 0, 5, 10, 0x00, 0x40, 0x7F, 0xFF] (by decide)

def figureSpan : TadSpan where
  style := { initStyle with
    isImage := true, imgW := 64, imgH := 32767, linePitch := 32793, indent := 20 }
  text := utf8 "[図形] Figure"
  isLink := false

theorem inMemory_figure : InMemory figureTad [.of figureSpan] := by
  have hstep : (loadStep figureTad loadStart).map (fun s => (s.offset, s.style, s.spans)) =
      some (17, initStyle, [figureSpan]) := by decide +kernel
  obtain ⟨s, hs, hval⟩ := Option.map_eq_some_iff.mp hstep
  obtain ⟨offset, style, spans⟩ := s
  cases hval
  exact .inl ⟨by decide, _, .next hs (.stop (by decide +kernel)), rfl⟩

theorem layout_ordered_iff_figure :
    ∃ heights, List.Forall₂ (HasHeight (layoutWidth 640)) [.of figureSpan] heights ∧
      (∃ fuel l, tadBrowserLayout fuel [.of figureSpan] 640 = some l) ∧
      ∀ fuel l, tadBrowserLayout fuel [.of figureSpan] 640 = some l →
        (l.Ordered ↔ 36 + depth 0 [.of figureSpan] heights ≤ 32767) :=
  layout_ordered_iff inMemory_figure 640

-- The bottom of the figure is at 32849, which is stored as -32687.
theorem layout_figure_wraps : ¬∀ (b : Buffer) (doc : List MemSpan), InMemory b doc →
    ∀ viewWidth fuel l, tadBrowserLayout fuel doc viewWidth = some l → l.Ordered := by
  intro h
  have hup := (h figureTad [.of figureSpan] inMemory_figure 640 0 _ rfl).upright _
    (List.mem_singleton_self _)
  exact absurd hup (by decide)

end BTron.TadBrowser
