import BTron.TadBrowser.Paint

namespace BTron.TadBrowser

open Lib
open Graphics (asH Rect)

-- The content is between the toolbar and the status bar.
def InView (viewH y : Int) : Prop := 48 ≤ y ∧ y < viewH - 22

def maxScroll (tb : Browser) : Int :=
  if tb.docHeight - tb.pageHeight < 0 then 0 else tb.docHeight - tb.pageHeight

-- `tad_browser_paint` before it draws, in a window of the height `viewH` for whose width `l` is
-- the layout.
def paintScroll (l : Layout) (viewH : Int) (tb : Browser) : Browser :=
  let tb := { tb with docWidth := l.docWidth, docHeight := l.docHeight, pageHeight := viewH - 72 }
  let scrollY := if tb.scrollY > maxScroll tb then maxScroll tb else tb.scrollY
  { tb with scrollY := if scrollY < 0 then 0 else scrollY }

inductive ViewEvt
  | scroll (deltaY : Int)
  | paint

def viewStep (l : Layout) (viewH : Int) (tb : Browser) : ViewEvt → Browser
  | .scroll deltaY => tadBrowserScroll tb deltaY
  | .paint => paintScroll l viewH tb

-- Some calls bring the row `y` of the document into the content that is painted then.
def Seen (l : Layout) (viewH : Int) (tb : Browser) (y : Int) : Prop :=
  ∃ evts : List ViewEvt,
    let tb' := paintScroll l viewH (evts.foldl (viewStep l viewH) tb)
    0 ≤ tb'.scrollY ∧ tb'.scrollY ≤ maxScroll tb' ∧ InView viewH (y - tb'.scrollY)

-- A row of the document, from the top of the first span to the bottom of the last one
def Layout.Row (l : Layout) (y : Int) : Prop :=
  (∃ r ∈ l.bounds.head?, r.top ≤ y) ∧ ∃ r ∈ l.bounds.getLast?, y < r.bottom

variable {l : Layout} {viewH y : Int} {tb : Browser} {doc : List MemSpan} {b : Buffer}

theorem paintScroll_scrollY (l : Layout) (viewH : Int) (tb : Browser) :
    (paintScroll l viewH tb).scrollY =
      max 0 (min tb.scrollY (maxScroll (paintScroll l viewH tb))) := by
  simp only [paintScroll, maxScroll]
  split_ifs <;> omega

theorem maxScroll_paint (l : Layout) (viewH : Int) (tb : Browser) :
    maxScroll (paintScroll l viewH tb) = max 0 (l.docHeight - (viewH - 72)) := by
  simp only [paintScroll, maxScroll]
  split_ifs <;> omega

theorem tadBrowserScroll_scrollY (tb : Browser) (deltaY : Int) :
    (tadBrowserScroll tb deltaY).scrollY = min (max 0 (tb.scrollY + deltaY)) (maxScroll tb) := by
  simp only [tadBrowserScroll, maxScroll]
  split_ifs <;> omega

-- A painting, a call of `tad_browser_scroll` and another painting bring about any position.
theorem seen_iff (hview : 70 < viewH) (hy : y + 31 ≤ l.docHeight) :
    Seen l viewH tb y ↔ 48 ≤ y := by
  constructor
  · rintro ⟨evts, hpos, -, htop, -⟩
    omega
  · intro h48
    have hturn : ∀ tb' : Browser, paintScroll l viewH tb = tb' → ∀ tb'' : Browser,
        paintScroll l viewH (tadBrowserScroll tb' (y - 48 - tb'.scrollY)) = tb'' →
        tb''.scrollY = max 0 (min (y - 48) (maxScroll tb'')) ∧
          maxScroll tb'' = max 0 (l.docHeight - (viewH - 72)) := by
      rintro _ rfl _ rfl
      rw [paintScroll_scrollY, maxScroll_paint, tadBrowserScroll_scrollY, maxScroll_paint]
      omega
    obtain ⟨hscroll, hmax⟩ := hturn _ rfl _ rfl
    refine ⟨[.paint, .scroll (y - 48 - (paintScroll l viewH tb).scrollY)], ?_⟩
    dsimp only [List.foldl, viewStep]
    rw [hmax] at hscroll ⊢
    rw [hscroll, InView]
    omega

theorem height_pos {docWidth h : Int} {d : MemSpan} (hd : Decoded d.span)
    (hh : HasHeight docWidth d h) : 1 ≤ h := by
  cases hh with
  | image himage =>
      have hbounds := imageH_bounds (hd.image himage).2
      omega
  | line himage _ => exact (pitch_bounds hd himage).1
  | @text r himage _ hne hr =>
      obtain ⟨r', hr', hpos, -⟩ := lines_of_decoded hd hne
        (availW docWidth (layoutIndent d.span.style)) false
      obtain rfl := wrap_unique hr hr'
      have hpitch := (pitch_bounds hd himage).1
      exact Int.mul_pos (by omega : (0 : Int) < r.1) (by omega)

-- A layout that does not go over 32767 gives every span a row or more, above its end.
theorem rows_layoutSpans {fuel : Nat} {docWidth curY : Int} {placed : List Rect × Int}
    (hdoc : ∀ d ∈ doc, Decoded d.span) (hcurY : 0 ≤ curY)
    (hplaced : layoutSpans fuel docWidth curY doc = some placed) (hlow : placed.2 ≤ 32767) :
    curY ≤ placed.2 ∧ (∀ r ∈ placed.1.head?, r.top = curY) ∧
      ∀ r ∈ placed.1, curY < r.bottom ∧ r.bottom ≤ placed.2 := by
  induction doc generalizing curY placed with
  | nil =>
      cases hplaced
      simp
  | cons d doc ih =>
      obtain ⟨hd, hrest⟩ := List.forall_mem_cons.mp hdoc
      rw [layoutSpans] at hplaced
      obtain ⟨first, hfirst, hplaced⟩ := Option.bind_eq_some_iff.mp hplaced
      obtain ⟨rest, hrest', hplaced⟩ := Option.bind_eq_some_iff.mp hplaced
      cases hplaced
      obtain ⟨h, hh⟩ := exists_height hd docWidth
      obtain ⟨htop, hbottom, hnext, -⟩ := layoutSpan_eq hd hh hfirst
      have hpos := height_pos hd hh
      have hgap : 0 ≤ gapOf d := by
        unfold gapOf
        split <;> decide
      obtain ⟨hle, -, hall⟩ := ih hrest (by omega) hrest' hlow
      dsimp only at hlow ⊢
      refine ⟨by omega, ?_, List.forall_mem_cons.mpr ⟨?_, fun r hr => ?_⟩⟩
      · rintro r ⟨⟩
        rw [htop, Graphics.asH_eq]
        omega
      · rw [hbottom, Graphics.asH_eq]
        omega
      · have hr' := hall r hr
        omega

theorem length_layoutSpans {fuel : Nat} {docWidth curY : Int} {placed : List Rect × Int}
    (hplaced : layoutSpans fuel docWidth curY doc = some placed) :
    placed.1.length = doc.length := by
  induction doc generalizing curY placed with
  | nil =>
      cases hplaced
      rfl
  | cons d doc ih =>
      rw [layoutSpans] at hplaced
      obtain ⟨first, -, hplaced⟩ := Option.bind_eq_some_iff.mp hplaced
      obtain ⟨rest, hrest, hplaced⟩ := Option.bind_eq_some_iff.mp hplaced
      cases hplaced
      rw [List.length_cons, List.length_cons, ih hrest]

-- Of the rows laid out exactly those from 48 on can be seen: the first span starts at 36, so the
-- first twelve never are.
theorem rows_seen_iff (hdoc : InMemory b doc) {viewWidth : Int} {fuel : Nat}
    (hl : tadBrowserLayout fuel doc viewWidth = some l) (hlow : l.docHeight < 32768)
    (hview : 70 < viewH) (tb : Browser) :
    (∀ y, l.Row y → (Seen l viewH tb y ↔ 48 ≤ y)) ∧
      ((∀ y, l.Row y → Seen l viewH tb y) ↔ doc = []) := by
  obtain ⟨placed, hplaced, hl⟩ := Option.bind_eq_some_iff.mp hl
  cases hl
  dsimp only at hlow
  obtain ⟨-, htop, hbottom⟩ := rows_layoutSpans (decoded_inMemory hdoc) (by decide) hplaced
    (by omega)
  have hseen : ∀ y, Layout.Row ⟨placed.1, layoutWidth viewWidth, placed.2 + 30⟩ y →
      (Seen ⟨placed.1, layoutWidth viewWidth, placed.2 + 30⟩ viewH tb y ↔ 48 ≤ y) := by
    rintro y ⟨-, r, hr, hlt⟩
    have hle := (hbottom r (List.mem_of_getLast? hr)).2
    exact seen_iff hview (by dsimp only; omega)
  refine ⟨hseen, fun hall => ?_, ?_⟩
  · by_contra hne
    have hbounds : placed.1 ≠ [] := by
      rw [← List.length_pos_iff, length_layoutSpans hplaced]
      exact List.length_pos_iff.mpr hne
    have hrow : Layout.Row ⟨placed.1, layoutWidth viewWidth, placed.2 + 30⟩ 36 := by
      refine ⟨⟨_, List.head?_eq_some_head hbounds, ?_⟩,
        ⟨_, List.getLast?_eq_some_getLast hbounds, ?_⟩⟩
      · exact (htop _ (List.head?_eq_some_head hbounds)).le
      · exact (hbottom _ (List.getLast_mem hbounds)).1
    exact absurd ((hseen 36 hrow).mp (hall 36 hrow)) (by decide)
  · rintro rfl y ⟨⟨r, hr, -⟩, -⟩
    cases hplaced
    cases hr

theorem layout_link :
    tadBrowserLayout 30 [.of linkSpan] 201 = some ⟨[⟨25, 36, 177, 58⟩], 201, 88⟩ := by
  have hlayout : (tadBrowserLayout 30 [.of linkSpan] 201).map (fun l =>
      (l.bounds, l.docWidth, l.docHeight)) = some ([⟨25, 36, 177, 58⟩], 201, 88) := by
    decide
  obtain ⟨l, hl, hval⟩ := Option.map_eq_some_iff.mp hlayout
  obtain ⟨bounds, docWidth, docHeight⟩ := l
  cases hval
  exact hl

theorem rows_seen_iff_link :
    (∀ y, Layout.Row ⟨[⟨25, 36, 177, 58⟩], 201, 88⟩ y →
      (Seen ⟨[⟨25, 36, 177, 58⟩], 201, 88⟩ 320 tadBrowserInit y ↔ 48 ≤ y)) ∧
      ((∀ y, Layout.Row ⟨[⟨25, 36, 177, 58⟩], 201, 88⟩ y →
        Seen ⟨[⟨25, 36, 177, 58⟩], 201, 88⟩ 320 tadBrowserInit y) ↔ [MemSpan.of linkSpan] = []) :=
  rows_seen_iff inMemory_link layout_link (by decide) (by decide) tadBrowserInit

-- The top row of the link stays behind the toolbar.
theorem link_top_unseen : ¬∀ (b : Buffer) (doc : List MemSpan), InMemory b doc →
    ∀ viewWidth fuel l, tadBrowserLayout fuel doc viewWidth = some l → l.docHeight < 32768 →
      ∀ viewH > 70, ∀ tb y, l.Row y → Seen l viewH tb y := by
  intro h
  obtain ⟨evts, hpos, -, hview, -⟩ := h linkTad [.of linkSpan] inMemory_link 201 30 _ layout_link
    (by decide) 320 (by decide) tadBrowserInit 36 ⟨⟨_, rfl, by decide⟩, ⟨_, rfl, by decide⟩⟩
  omega

-- The box that is painted behind a link
def linkBox (scrollY : Int) (r : Rect) : Rect :=
  let vy := r.top - scrollY
  ⟨asH (r.left - 2), asH (vy - 1), asH (r.right + 4), asH (vy + (r.bottom - r.top) - 2)⟩

-- The pixel (x, y) shows the box of a link: it is painted as one, the paint does not skip it and
-- the clip lets the pixel through.
def ShowsLink (viewH scrollY : Int) (p : MemSpan × Rect) (x y : Int) : Prop :=
  let vy := p.2.top - scrollY
  p.1.span.isLink = true ∧ p.1.span.style.isImage = false ∧ p.1.span.style.isHr = false ∧
    ¬(vy + (p.2.bottom - p.2.top) < 48 ∨ vy ≥ viewH - 22) ∧ InView viewH y ∧
    (linkBox scrollY p.2).contains x y

def hits (x docY : Int) (p : MemSpan × Rect) : Bool :=
  p.1.span.isLink ∧ x ≥ p.2.left ∧ x ≤ p.2.right ∧ docY ≥ p.2.top ∧ docY ≤ p.2.bottom

-- The link that `tad_browser_handle_mouse` reports below the toolbar.
def linkUnder (places : List (MemSpan × Rect)) (scrollY x y : Int) : Option Nat :=
  places.findIdx? (hits x (y + scrollY))

-- A link is reported only where it is to be seen, and wherever it is to be seen in its bounds.
def PointsAt (places : List (MemSpan × Rect)) (viewH scrollY x y : Int) : Prop :=
  (∀ i, linkUnder places scrollY x y = some i →
    ∃ p ∈ places[i]?, ShowsLink viewH scrollY p x y) ∧
  ∀ i, ∀ p ∈ places[i]?, ShowsLink viewH scrollY p x y → p.2.contains x (y + scrollY) →
    linkUnder places scrollY x y = some i

theorem asH_range (n : Int) : -32768 ≤ asH n ∧ asH n ≤ 32767 := by
  rw [Graphics.asH_eq]
  omega

theorem textW_bounds (d : MemSpan) {availW : Int} (h : 0 ≤ availW) (numLines : Nat) :
    0 ≤ textW d availW numLines ∧ textW d availW numLines ≤ availW := by
  unfold textW
  dsimp only
  split_ifs <;> omega

-- The bounds of a text stay clear of the ends of their numbers.
structure Inner (r : Rect) : Prop where
  left : 1 ≤ r.left ∧ r.left ≤ 255
  right : r.right ≤ 32743
  top : -32768 ≤ r.top
  bottom : r.bottom ≤ 32767

theorem inner_layoutSpan {fuel : Nat} {docWidth curY : Int} {d : MemSpan} {placed : Rect × Int}
    (hd : Decoded d.span) (himage : d.span.style.isImage = false)
    (hwidth : 200 < docWidth ∧ docWidth ≤ 32767)
    (hplaced : layoutSpan fuel docWidth curY d = some placed) : Inner placed.1 := by
  have hindent : 1 ≤ layoutIndent d.span.style ∧ layoutIndent d.span.style ≤ 255 := by
    have hle := hd.indent
    unfold layoutIndent orDefault
    split <;> omega
  have hleft : asH (layoutIndent d.span.style) = layoutIndent d.span.style := by
    rw [Graphics.asH_eq]
    omega
  unfold layoutSpan at hplaced
  dsimp only at hplaced
  rw [himage, if_neg (by decide), hleft] at hplaced
  split at hplaced
  · cases hplaced
    refine ⟨hindent, ?_, (asH_range _).1, (asH_range _).2⟩
    dsimp only
    rw [Graphics.asH_eq]
    omega
  · split at hplaced
    · cases hplaced
      exact ⟨hindent, hindent.2.trans (by decide), (asH_range _).1, (asH_range _).2⟩
    · obtain ⟨wrapped, -, hplaced⟩ := Option.bind_eq_some_iff.mp hplaced
      cases hplaced
      refine ⟨hindent, ?_, (asH_range _).1, (asH_range _).2⟩
      have havail : 0 ≤ availW docWidth (layoutIndent d.span.style) ∧
          availW docWidth (layoutIndent d.span.style) ≤ 32743 - layoutIndent d.span.style := by
        unfold availW
        split <;> omega
      have hw := textW_bounds d havail.1 (if wrapped.1 < 1 then 1 else wrapped.1)
      dsimp only
      rw [Graphics.asH_eq]
      omega

theorem inner_layoutSpans {fuel : Nat} {docWidth curY : Int} {placed : List Rect × Int}
    (hdoc : ∀ d ∈ doc, Decoded d.span) (hwidth : 200 < docWidth ∧ docWidth ≤ 32767)
    (hplaced : layoutSpans fuel docWidth curY doc = some placed) :
    ∀ p ∈ doc.zip placed.1, p.1.span.style.isImage = false → Inner p.2 := by
  induction doc generalizing curY placed with
  | nil => simp
  | cons d doc ih =>
      obtain ⟨hd, hrest⟩ := List.forall_mem_cons.mp hdoc
      rw [layoutSpans] at hplaced
      obtain ⟨first, hfirst, hplaced⟩ := Option.bind_eq_some_iff.mp hplaced
      obtain ⟨rest, hrest', hplaced⟩ := Option.bind_eq_some_iff.mp hplaced
      cases hplaced
      rw [List.zip_cons_cons, List.forall_mem_cons]
      exact ⟨fun himage => inner_layoutSpan hd himage hwidth hfirst, ih hrest hrest'⟩

theorem below_pairwise {w : Int} {bounds : List Rect} (h : Below w bounds) :
    (∀ r ∈ bounds, w ≤ r.top) ∧ bounds.Pairwise fun r r' => r.bottom ≤ r'.top := by
  induction bounds generalizing w with
  | nil => simp
  | cons r rest ih =>
      obtain ⟨hw, hup, hrest⟩ := h
      obtain ⟨hall, hpairs⟩ := ih hrest
      refine ⟨List.forall_mem_cons.mpr ⟨hw, fun r' hr' => ?_⟩,
        List.pairwise_cons.mpr ⟨hall, hpairs⟩⟩
      have hle := hall r' hr'
      omega

-- What the pixel has to be like where `p` is the link reported.
def Upon (viewH scrollY y : Int) (p : MemSpan × Rect) : Prop :=
  p.1.span.style.isHr = false ∧ InView viewH y ∧ y + scrollY + 2 < p.2.bottom

variable {p : MemSpan × Rect} {scrollY x : Int}

theorem hits_iff {docY : Int} : hits x docY p = true ↔ p.1.span.isLink = true ∧
    p.2.left ≤ x ∧ x ≤ p.2.right ∧ p.2.top ≤ docY ∧ docY ≤ p.2.bottom := by
  rw [hits, decide_eq_true_iff]

-- The box of a link under the pointer is not cut off at the ends of its numbers.
theorem linkBox_contains_iff (hin : Inner p.2) (htop : 36 ≤ p.2.top) (hscroll : 0 ≤ scrollY)
    (h48 : 48 ≤ y) (hhit : hits x (y + scrollY) p = true) :
    (linkBox scrollY p.2).contains x y ↔ y + scrollY + 2 < p.2.bottom := by
  obtain ⟨-, hleft, hright, hrow, hrow'⟩ := hits_iff.mp hhit
  obtain ⟨⟨hleft1, hleft255⟩, hright', -, hbottom⟩ := hin
  rw [Graphics.Rect.contains_iff, linkBox]
  simp only [Graphics.asH_eq]
  omega

theorem showsLink_iff (hlink : p.1.span.isLink = true → p.1.span.style.isImage = false)
    (hin : Inner p.2) (htop : 36 ≤ p.2.top) (hscroll : 0 ≤ scrollY)
    (hhit : hits x (y + scrollY) p = true) :
    ShowsLink viewH scrollY p x y ↔ Upon viewH scrollY y p := by
  obtain ⟨hisLink, -, -, hrow, hrow'⟩ := hits_iff.mp hhit
  rw [ShowsLink, Upon, InView]
  constructor
  · rintro ⟨-, -, hhr, -, hview, hbox⟩
    exact ⟨hhr, hview, (linkBox_contains_iff hin htop hscroll hview.1 hhit).mp hbox⟩
  · rintro ⟨hhr, hview, hlow⟩
    refine ⟨hisLink, hlink hisLink, hhr, ?_, hview,
      (linkBox_contains_iff hin htop hscroll hview.1 hhit).mpr hlow⟩
    omega

-- What holds of a span in its place in an ordered layout
theorem placed_inner (hdoc : InMemory b doc) {viewWidth : Int} (hwidth : viewWidth ≤ 32767)
    {fuel : Nat} (hl : tadBrowserLayout fuel doc viewWidth = some l) (hordered : l.Ordered) :
    (∀ p ∈ doc.zip l.bounds, 36 ≤ p.2.top ∧ (p.1.span.isLink = true →
        p.1.span.style.isImage = false ∧ Inner p.2)) ∧
      l.bounds.Pairwise fun r r' => r.bottom ≤ r'.top := by
  have hdecoded := decoded_inMemory hdoc
  have hbelow : Below 36 l.bounds :=
    below_iff.mpr ⟨hordered.upright, hordered.apart, hordered.first⟩
  obtain ⟨htop, hpairs⟩ := below_pairwise hbelow
  obtain ⟨placed, hplaced, hl⟩ := Option.bind_eq_some_iff.mp hl
  cases hl
  have hlayout : 200 < layoutWidth viewWidth ∧ layoutWidth viewWidth ≤ 32767 := by
    unfold layoutWidth
    split <;> omega
  refine ⟨fun p hp => ?_, hpairs⟩
  have hd := hdecoded p.1 (List.of_mem_zip hp).1
  refine ⟨htop p.2 (List.of_mem_zip hp).2, fun hlink => ?_⟩
  have himage : p.1.span.style.isImage = false := by
    cases himage : p.1.span.style.isImage with
    | true => exact absurd ((hd.link.symm.trans hlink).symm.trans (hd.image himage).1) (by decide)
    | false => rfl
  exact ⟨himage, inner_layoutSpans hdecoded hlayout hplaced p hp himage⟩

theorem linkUnder_eq_some {places : List (MemSpan × Rect)} {i : Nat} :
    linkUnder places scrollY x y = some i ↔
      ∃ p, places[i]? = some p ∧ hits x (y + scrollY) p = true ∧
        ∀ j < i, ∀ q, places[j]? = some q → hits x (y + scrollY) q = false := by
  rw [linkUnder, List.findIdx?_eq_some_iff_getElem]
  constructor
  · rintro ⟨hi, hhit, hfirst⟩
    refine ⟨_, List.getElem?_eq_getElem hi, hhit, fun j hj q hq => ?_⟩
    obtain ⟨hlen, rfl⟩ := List.getElem?_eq_some_iff.mp hq
    exact Bool.eq_false_of_not_eq_true (hfirst j hj)
  · rintro ⟨p, hp, hhit, hfirst⟩
    obtain ⟨hi, rfl⟩ := List.getElem?_eq_some_iff.mp hp
    refine ⟨hi, hhit, fun j hj => ?_⟩
    rw [hfirst j hj _ (List.getElem?_eq_getElem (hj.trans hi))]
    decide

theorem link_ordered : Layout.Ordered ⟨[⟨25, 36, 177, 58⟩], 201, 88⟩ :=
  ⟨by decide, by decide, by decide, by decide⟩

end BTron.TadBrowser
