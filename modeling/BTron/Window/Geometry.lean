import BTron.Window.Arrange
import BTron.Window.Interactions

namespace BTron.Window

open Lib Graphics

-- What the handler of a window, or the window manager for it, changes of its place.
inductive Change
  | mov (x y : Int)
  | rsz (w h : Int) (mem : Bool)
  | wrsz (r : Rect) (mem : Bool)
  | offset (offsetX : Int)

def Change.apply : Change → Wnd → Wnd
  | .mov x y, v => movWnd v x y
  | .rsz w h mem, v => rszWnd v w h mem
  | .wrsz r mem, v => wrszWnd v r mem
  | .offset offsetX, v => wsetTabOffset v offsetX

def IsH (n : Int) : Prop := -32768 ≤ n ∧ n < 32768

instance : DecidablePred IsH := fun n => inferInstanceAs (Decidable (-32768 ≤ n ∧ n < 32768))

theorem asH_of_isH {n : Int} (h : IsH n) : asH n = n := asH_of_range h

-- A corner and a size, with no overflow on the other side.
structure SpanFits (x w : Int) : Prop where
  start : IsH x
  size : IsH w
  stop : IsH (x + w)

instance (x w : Int) : Decidable (SpanFits x w) :=
  decidable_of_iff (IsH x ∧ IsH w ∧ IsH (x + w)) ⟨fun h => ⟨h.1, h.2.1, h.2.2⟩,
    fun h => ⟨h.start, h.size, h.stop⟩⟩

def Wnd.width (v : Wnd) : Int := v.bounds.right - v.bounds.left

def Wnd.height (v : Wnd) : Int := v.bounds.bottom - v.bounds.top

-- The place that the change gives the window is one of 16-bit coordinates.
def Change.Fits (v : Wnd) : Change → Prop
  | .mov x y => SpanFits x v.width ∧ SpanFits y v.height
  | .rsz w h _ => SpanFits v.bounds.left (max w 160) ∧ SpanFits v.bounds.top (max h 100)
  | .wrsz r _ =>
    IsH (r.right - r.left) ∧ IsH (r.bottom - r.top) ∧
      SpanFits r.left (max (r.right - r.left) 160) ∧ SpanFits r.top (max (r.bottom - r.top) 100)
  | .offset _ => True

-- The client area is the bounds without the frame and the title.
def clientOf (v : Wnd) : Rect :=
  ⟨v.bounds.left + 4, v.bounds.top + v.titleH + 4, v.bounds.right - 4, v.bounds.bottom - 4⟩

-- What is stored of a window's place fits together.
structure Placed (v : Wnd) : Prop where
  compact : v.has WND_ATTR_COMPACT_TAB = true
  across : SpanFits v.bounds.left v.width
  down : SpanFits v.bounds.top v.height
  width : 160 ≤ v.width
  height : 100 ≤ v.height
  client : v.client = clientOf v
  tab : 100 ≤ v.tabWidth ∧ v.tabWidth ≤ v.width
  offset : 0 ≤ v.tabOffsetX ∧ v.tabOffsetX ≤ v.width - v.tabWidth
  dev : ∀ d ∈ v.dev, d.width = v.width - 8 ∧ d.height = v.height - v.titleH - 8

theorem titleH_cases (v : Wnd) : v.titleH = 0 ∨ v.titleH = 28 := by
  unfold Wnd.titleH WND_TITLE_HEIGHT
  split
  · exact .inr rfl
  · exact .inl rfl

-- The width of the tab that the three tab functions read is the one stored.
theorem tabW_eq {v : Wnd} (hcompact : v.has WND_ATTR_COMPACT_TAB = true) (hwidth : IsH v.width)
    (htab : 0 < v.tabWidth ∧ v.tabWidth ≤ v.width) : v.tabW = v.tabWidth := by
  have hw : asH (v.bounds.right - v.bounds.left) = v.width := asH_of_isH hwidth
  rw [Wnd.tabW]
  simp only [hw, hcompact, Bool.not_true, Bool.false_eq_true, or_false]
  rw [if_neg (by omega)]

-- The tab is shifted as far as the window lets it.
theorem wsetTabOffset_eq {v : Wnd} (hcompact : v.has WND_ATTR_COMPACT_TAB = true)
    (hwidth : IsH v.width) (htab : 0 < v.tabWidth ∧ v.tabWidth ≤ v.width) (offsetX : Int) :
    wsetTabOffset v offsetX =
      { v with tabOffsetX := min (max offsetX 0) (v.width - v.tabWidth) } := by
  have hw : asH (v.bounds.right - v.bounds.left) = v.width := asH_of_isH hwidth
  have hmax : (if v.width > v.tabWidth then asH (v.width - v.tabWidth) else 0) =
      v.width - v.tabWidth := by
    split
    · have hrange : IsH (v.width - v.tabWidth) := by
        unfold IsH at hwidth ⊢
        omega
      exact asH_of_isH hrange
    · omega
  have hlow : (if offsetX < 0 then 0 else offsetX) = max offsetX 0 := by
    split <;> omega
  rw [wsetTabOffset]
  simp only [hw, tabW_eq hcompact hwidth htab, hmax, hlow]
  congr 1
  split <;> omega

namespace Placed

variable {v w : Wnd}

theorem positive (h : Placed v) : 0 < v.tabWidth ∧ v.tabWidth ≤ v.width :=
  ⟨by have := h.tab; omega, h.tab.2⟩

theorem offset_spec (h : Placed v) (offsetX : Int) : Placed (wsetTabOffset v offsetX) := by
  rw [wsetTabOffset_eq h.compact h.across.size h.positive]
  refine ⟨h.compact, h.across, h.down, h.width, h.height, h.client, h.tab, ?_, h.dev⟩
  have hle := h.tab.2
  change 0 ≤ min (max offsetX 0) (v.width - v.tabWidth) ∧
    min (max offsetX 0) (v.width - v.tabWidth) ≤ v.width - v.tabWidth
  omega

theorem mov_spec (h : Placed v) {x y : Int} (hx : SpanFits x v.width) (hy : SpanFits y v.height) :
    Placed (movWnd v x y) := by
  have hw : asH (v.bounds.right - v.bounds.left) = v.width := asH_of_isH h.across.size
  have hh : asH (v.bounds.bottom - v.bounds.top) = v.height := asH_of_isH h.down.size
  have htitle := titleH_cases v
  have hwidth := h.width
  have hheight := h.height
  have hbounds : (movWnd v x y).bounds = ⟨x, y, x + v.width, y + v.height⟩ := by
    simp only [movWnd, hw, hh, asH_of_isH hx.stop, asH_of_isH hy.stop]
  have hmw : (movWnd v x y).width = v.width := by
    simp only [Wnd.width, hbounds]
    omega
  have hmh : (movWnd v x y).height = v.height := by
    simp only [Wnd.height, hbounds]
    omega
  refine ⟨h.compact, ?_, ?_, hmw ▸ hwidth, hmh ▸ hheight, ?_, hmw ▸ h.tab, hmw ▸ h.offset,
    hmw ▸ hmh ▸ h.dev⟩
  · rw [hmw]
    exact hx
  · rw [hmh]
    exact hy
  · have hx' := hx.stop
    have hy' := hy.stop
    have hx₀ := hx.start
    have hy₀ := hy.start
    unfold IsH at hx' hy' hx₀ hy₀
    rw [clientOf, hbounds]
    simp only [movWnd, hw, hh]
    rw [asH_of_range (by omega), asH_of_range (by omega), asH_of_range (by omega),
      asH_of_range (by omega)]
    rfl

end Placed

-- A window with a new size, before its tab is shifted.
def sized (v : Wnd) (w h : Int) : Wnd :=
  { v with
      bounds := ⟨v.bounds.left, v.bounds.top, v.bounds.left + w, v.bounds.top + h⟩
      client := ⟨v.bounds.left + 4, v.bounds.top + v.titleH + 4, v.bounds.left + w - 4,
        v.bounds.top + h - 4⟩
      tabWidth := min v.tabWidth w }

theorem sized_width (v : Wnd) (w h : Int) : (sized v w h).width = w := by
  show v.bounds.left + w - v.bounds.left = w
  omega

theorem sized_height (v : Wnd) (w h : Int) : (sized v w h).height = h := by
  show v.bounds.top + h - v.bounds.top = h
  omega

theorem opnDev_size {w h : Int} {d : Gdev Color} (hd : opnDev w h 0 = some d) :
    d.width = w ∧ d.height = h := by
  rw [opnDev] at hd
  split at hd
  · cases hd
  · obtain rfl := Option.some.inj hd
    exact ⟨rfl, rfl⟩

-- `rsz_wnd` takes no size below its minimum, and gives the window a device of that size.
theorem rszWnd_eq {v : Wnd} {w h : Int} (hx : SpanFits v.bounds.left (max w 160))
    (hy : SpanFits v.bounds.top (max h 100)) (mem : Bool) :
    ∃ dev : Option (Gdev Color),
      (∀ d ∈ dev, d.width = max w 160 - 8 ∧ d.height = max h 100 - v.titleH - 8) ∧
      rszWnd v w h mem =
        { wsetTabOffset (sized v (max w 160) (max h 100)) v.tabOffsetX with dev := dev } := by
  have hw : (if w < 160 then 160 else w) = max w 160 := by split <;> omega
  have hh : (if h < 100 then 100 else h) = max h 100 := by split <;> omega
  have hmin : (if v.tabWidth > max w 160 then max w 160 else v.tabWidth) =
      min v.tabWidth (max w 160) := by split <;> omega
  have htitle := titleH_cases v
  obtain ⟨hx₀, hsize, hx'⟩ := hx
  obtain ⟨hy₀, hsize', hy'⟩ := hy
  unfold IsH at *
  have hclient : (⟨asH (v.bounds.left + 4), asH (v.bounds.top + v.titleH + 4),
      asH (v.bounds.left + max w 160 - 4), asH (v.bounds.top + max h 100 - 4)⟩ : Rect) =
      (sized v (max w 160) (max h 100)).client := by
    rw [asH_of_range (by omega), asH_of_range (by omega), asH_of_range (by omega),
      asH_of_range (by omega)]
    rfl
  have hdevW : (if asH (max w 160 - 8) < 10 then 10 else asH (max w 160 - 8)) = max w 160 - 8 := by
    rw [asH_of_range (by omega), if_neg (by omega)]
  have hdevH : (if asH (max h 100 - v.titleH - 8) < 10 then 10
      else asH (max h 100 - v.titleH - 8)) = max h 100 - v.titleH - 8 := by
    rw [asH_of_range (by omega), if_neg (by omega)]
  have hfresh : ∀ d ∈ (if mem then opnDev (max w 160 - 8) (max h 100 - v.titleH - 8) (0 : Color)
      else none), d.width = max w 160 - 8 ∧ d.height = max h 100 - v.titleH - 8 := by
    intro d hd
    rw [Option.mem_def] at hd
    split at hd
    · exact opnDev_size hd
    · cases hd
  rw [rszWnd]
  simp only [hw, hh, hmin, hclient, hdevW, hdevH, asH_of_range hx', asH_of_range hy']
  split
  · rename_i dev hdev
    split
    · exact ⟨_, hfresh, rfl⟩
    · rename_i hsame
      refine ⟨some dev, fun d hd => ?_, ?_⟩
      · obtain rfl := Option.some.inj hd
        simpa using hsame
      · have heta := congrArg (fun o => { wsetTabOffset (sized v (max w 160) (max h 100))
          v.tabOffsetX with dev := o }) hdev
        exact heta
  · exact ⟨_, hfresh, rfl⟩

theorem sized_placed {v : Wnd} {w h : Int} (hcompact : v.has WND_ATTR_COMPACT_TAB = true)
    (htab : 100 ≤ v.tabWidth) (hw : 160 ≤ w) (hh : 100 ≤ h) (hx : SpanFits v.bounds.left w)
    (hy : SpanFits v.bounds.top h) (offsetX : Int) {dev : Option (Gdev Color)}
    (hdev : ∀ d ∈ dev, d.width = w - 8 ∧ d.height = h - v.titleH - 8) :
    Placed { wsetTabOffset (sized v w h) offsetX with dev := dev } := by
  have hwidth := sized_width v w h
  have hheight := sized_height v w h
  have htab' : 100 ≤ (sized v w h).tabWidth ∧ (sized v w h).tabWidth ≤ (sized v w h).width := by
    rw [hwidth]
    show 100 ≤ min v.tabWidth w ∧ min v.tabWidth w ≤ w
    omega
  have hpos : 0 < (sized v w h).tabWidth ∧ (sized v w h).tabWidth ≤ (sized v w h).width :=
    ⟨by omega, htab'.2⟩
  have hsize : IsH (sized v w h).width := by
    rw [hwidth]
    exact hx.size
  rw [wsetTabOffset_eq (v := sized v w h) hcompact hsize hpos]
  have hoffset : 0 ≤ min (max offsetX 0) ((sized v w h).width - (sized v w h).tabWidth) ∧
      min (max offsetX 0) ((sized v w h).width - (sized v w h).tabWidth) ≤
        (sized v w h).width - (sized v w h).tabWidth := by
    omega
  refine ⟨hcompact, ?_, ?_, ?_, ?_, rfl, htab', hoffset, ?_⟩
  · show SpanFits v.bounds.left (sized v w h).width
    rwa [hwidth]
  · show SpanFits v.bounds.top (sized v w h).height
    rwa [hheight]
  · show 160 ≤ (sized v w h).width
    rwa [hwidth]
  · show 100 ≤ (sized v w h).height
    rwa [hheight]
  · show ∀ d ∈ dev, d.width = (sized v w h).width - 8 ∧
      d.height = (sized v w h).height - v.titleH - 8
    rwa [hwidth, hheight]

theorem rszWnd_placed {v : Wnd} {w h : Int} (hcompact : v.has WND_ATTR_COMPACT_TAB = true)
    (htab : 100 ≤ v.tabWidth) (hx : SpanFits v.bounds.left (max w 160))
    (hy : SpanFits v.bounds.top (max h 100)) (mem : Bool) : Placed (rszWnd v w h mem) := by
  obtain ⟨dev, hdev, heq⟩ := rszWnd_eq hx hy mem
  rw [heq]
  exact sized_placed hcompact htab (Int.le_max_right w 160) (Int.le_max_right h 100) hx hy _ hdev

-- A change that fits keeps what is stored together.
theorem Placed.change {v : Wnd} (h : Placed v) {c : Change} (hfits : c.Fits v) :
    Placed (c.apply v) := by
  cases c with
  | mov x y => exact h.mov_spec hfits.1 hfits.2
  | rsz w ht mem => exact rszWnd_placed h.compact h.tab.1 hfits.1 hfits.2 mem
  | wrsz r mem =>
      obtain ⟨hw, hh, hx, hy⟩ := hfits
      rw [Change.apply, wrszWnd, asH_of_isH hw, asH_of_isH hh]
      exact rszWnd_placed (v := movWnd v r.left r.top) h.compact h.tab.1 hx hy mem
  | offset offsetX => exact h.offset_spec offsetX

-- `opn_wnd` adds attributes, but not that of a title.
theorem newWnd_attr (id : Int) (title : Option (Nat → UB)) (x y w h : Int) (attr : Nat)
    (mem : Bool) :
    (newWnd id title x y w h attr mem).has WND_ATTR_COMPACT_TAB = true ∧
      (newWnd id title x y w h attr mem).titleH =
        if attr &&& WND_ATTR_TITLE ≠ 0 then WND_TITLE_HEIGHT else 0 := by
  have hadded : WND_ATTR_RESIZE ||| WND_ATTR_COMPACT_TAB ||| WND_ATTR_SLIDING_TAB = 104 := by decide
  constructor
  · rw [Wnd.has, newWnd]
    simp only [WND_ATTR_COMPACT_TAB, Nat.and_or_distrib_right, bne_iff_ne, ne_eq,
      Nat.or_eq_zero_iff, not_and]
    exact fun _ => by decide
  · rw [Wnd.titleH, Wnd.has, newWnd]
    simp only [hadded, WND_ATTR_TITLE, Nat.and_or_distrib_right, bne_iff_ne, ne_eq]
    have hextra : 104 &&& 1 = 0 := by decide
    rw [hextra, Nat.or_zero]
    exact if_congr Iff.rfl rfl rfl

-- The window that `opn_wnd` makes.
theorem newWnd_placed (id : Int) (title : Option (Nat → UB)) {x y w h : Int} (attr : Nat)
    (mem : Bool) (hw : 160 ≤ w) (hh : 100 ≤ h) (hx : SpanFits x w) (hy : SpanFits y h) :
    Placed (newWnd id title x y w h attr mem) := by
  obtain ⟨hcompact, htitle⟩ := newWnd_attr id title x y w h attr mem
  have hcases := titleH_cases (newWnd id title x y w h attr mem)
  have hbounds : (newWnd id title x y w h attr mem).bounds = ⟨x, y, x + w, y + h⟩ := by
    simp only [newWnd, asH_of_isH hx.stop, asH_of_isH hy.stop]
  have hwidth : (newWnd id title x y w h attr mem).width = w := by
    rw [Wnd.width, hbounds]
    show x + w - x = w
    omega
  have hheight : (newWnd id title x y w h attr mem).height = h := by
    rw [Wnd.height, hbounds]
    show y + h - y = h
    omega
  have hx₀ := hx.start
  have hx' := hx.stop
  have hy₀ := hy.start
  have hy' := hy.stop
  have hsize := hx.size
  have hsize' := hy.size
  unfold IsH at hx₀ hx' hy₀ hy' hsize hsize'
  have htab : (newWnd id title x y w h attr mem).tabWidth =
      min (max (asH (calculateTitleDisplayWidth
        (copyTitle (title.getD fun k => defaultTitle.getD k 0)) + 48)) 100) w := by
    simp only [newWnd]
    generalize asH _ = tw
    have hlow : (if tw < 100 then 100 else tw) = max tw 100 := by split <;> omega
    rw [hlow]
    split <;> omega
  refine ⟨hcompact, ?_, ?_, ?_, ?_, ?_, ?_, ?_, ?_⟩
  · rwa [hwidth, hbounds]
  · rwa [hheight, hbounds]
  · rwa [hwidth]
  · rwa [hheight]
  · rw [clientOf, hbounds]
    rw [htitle] at hcases
    simp only [htitle]
    simp only [newWnd]
    generalize (if attr &&& WND_ATTR_TITLE ≠ 0 then WND_TITLE_HEIGHT else 0) = t at hcases
    rw [asH_of_range (by omega), asH_of_range (by omega), asH_of_range (by omega),
      asH_of_range (by omega)]
  · rw [hwidth, htab]
    omega
  · rw [hwidth, htab]
    show 0 ≤ (0 : Int) ∧ 0 ≤ w - _
    omega
  · intro d hd
    rw [hwidth, hheight, htitle]
    rw [htitle] at hcases
    simp only [newWnd] at hd
    generalize (if attr &&& WND_ATTR_TITLE ≠ 0 then WND_TITLE_HEIGHT else 0) = t at hcases hd ⊢
    rw [Option.mem_def] at hd
    split at hd
    · rw [asH_of_range (by omega), asH_of_range (by omega)] at hd
      exact opnDev_size hd
    · cases hd

-- What is drawn of a window and answers to the pointer fits together.
structure Consistent (v : Wnd) : Prop where
  client : v.client = clientOf v
  tab : ∀ x y, (wgetTabRect v).contains x y →
    v.bounds.contains x y ∧ y < v.bounds.top + WND_TITLE_HEIGHT
  edge : v.has WND_ATTR_TITLE = true → (wgetTabRect v).top = v.bounds.top ∧
    v.bounds.left ≤ (wgetTabRect v).left ∧ (wgetTabRect v).left ≤ (wgetTabRect v).right ∧
    (wgetTabRect v).right ≤ v.bounds.right ∧ (wgetTabRect v).bottom ≤ v.bounds.bottom
  offset : 0 ≤ v.tabOffsetX ∧ v.tabOffsetX ≤ v.width - v.tabWidth
  closeBtn : ∀ x y, whitTestCloseBtn v x y → whitTestTab v x y ∧ v.bounds.contains x y

namespace Placed

variable {v w : Wnd}

theorem tabRect (h : Placed v) (htitle : v.has WND_ATTR_TITLE = true) :
    wgetTabRect v = ⟨v.bounds.left + v.tabOffsetX, v.bounds.top,
      v.bounds.left + v.tabOffsetX + v.tabWidth, v.bounds.top + WND_TITLE_HEIGHT⟩ := by
  have hw : asH (v.bounds.right - v.bounds.left) = v.width := asH_of_isH h.across.size
  have hoff := h.offset
  have htab := h.tab
  have hx := h.across.start
  have hx' := h.across.stop
  have hy := h.down.start
  have hy' := h.down.stop
  have hheight := h.height
  unfold IsH at hx hx' hy hy'
  rw [wgetTabRect, htitle]
  simp only [Bool.not_true, Bool.false_eq_true, if_false, hw,
    tabW_eq h.compact h.across.size h.positive, if_neg (Int.not_lt.mpr hoff.1),
    if_neg (show ¬v.tabOffsetX + v.tabWidth > v.width by omega), WND_TITLE_HEIGHT]
  rw [asH_of_range (n := v.bounds.left + v.tabOffsetX) (by omega), asH_of_range (by omega),
    asH_of_range (by omega)]

theorem consistent (h : Placed v) : Consistent v := by
  have hoff := h.offset
  have htab := h.tab
  have hheight := h.height
  have hwidth : v.bounds.right - v.bounds.left = v.width := rfl
  have hheight' : v.bounds.bottom - v.bounds.top = v.height := rfl
  have hinside : ∀ x y, (wgetTabRect v).contains x y →
      v.bounds.contains x y ∧ y < v.bounds.top + WND_TITLE_HEIGHT := by
    intro x y hin
    rw [Rect.contains_iff] at hin ⊢
    by_cases htitle : v.has WND_ATTR_TITLE = true
    · rw [h.tabRect htitle] at hin
      simp only [WND_TITLE_HEIGHT] at hin ⊢
      omega
    · rw [wgetTabRect, Bool.not_eq_true _ |>.mp htitle] at hin
      simp only [Bool.not_false, if_true] at hin
      omega
  refine ⟨h.client, hinside, fun htitle => ?_, hoff, fun x y hbtn => ?_⟩
  · rw [h.tabRect htitle]
    refine ⟨rfl, ?_, ?_, ?_, ?_⟩
    · show v.bounds.left ≤ v.bounds.left + v.tabOffsetX
      omega
    · show v.bounds.left + v.tabOffsetX ≤ v.bounds.left + v.tabOffsetX + v.tabWidth
      omega
    · show v.bounds.left + v.tabOffsetX + v.tabWidth ≤ v.bounds.right
      omega
    · show v.bounds.top + 28 ≤ v.bounds.bottom
      omega
  · have hin : whitTestTab v x y := by
      simp only [whitTestCloseBtn, Bool.and_eq_true, decide_eq_true_eq] at hbtn
      obtain ⟨⟨⟨⟨⟨htitle, -⟩, hl⟩, hr⟩, ht⟩, hb⟩ := hbtn
      have hx := h.across.start
      have hx' := h.across.stop
      have hy := h.down.start
      have hy' := h.down.stop
      unfold IsH at hx hx' hy hy'
      rw [h.tabRect htitle] at hl hr ht hb
      dsimp only at hl hr ht hb
      rw [asH_of_range (by omega)] at hl hr ht hb
      simp only [whitTestTab, htitle, h.tabRect htitle, WND_TITLE_HEIGHT, Bool.true_and,
        Bool.and_eq_true, decide_eq_true_eq]
      omega
    refine ⟨hin, ?_⟩
    simp only [whitTestTab, Bool.and_eq_true, decide_eq_true_eq] at hin
    obtain ⟨⟨⟨⟨-, hl⟩, hr⟩, ht⟩, hb⟩ := hin
    exact (hinside x y (Rect.contains_iff.mpr ⟨hl, hr, ht, hb⟩)).1

end Placed

-- What of a window says where it is.
def Wnd.place (v : Wnd) :=
  (v.bounds, v.client, v.attr, v.tabOffsetX, v.tabWidth, v.dev.map fun d => (d.width, d.height))

def SamePlaces (mem mem' : Nat → Option Wnd) : Prop :=
  ∀ z, (mem' z).map Wnd.place = (mem z).map Wnd.place

theorem Placed.of_place {v w : Wnd} (h : Placed v) (hplace : w.place = v.place) : Placed w := by
  simp only [Wnd.place, Prod.mk.injEq] at hplace
  obtain ⟨hbounds, hclient, hattr, hoffset, htab, hdev⟩ := hplace
  have hwidth : w.width = v.width := by rw [Wnd.width, hbounds, Wnd.width]
  have hheight : w.height = v.height := by rw [Wnd.height, hbounds, Wnd.height]
  have hhas : w.has = v.has := by
    funext attr
    rw [Wnd.has, hattr, Wnd.has]
  have htitle : w.titleH = v.titleH := by rw [Wnd.titleH, hhas, Wnd.titleH]
  refine ⟨?_, ?_, ?_, ?_, ?_, ?_, ?_, ?_, fun d hd => ?_⟩
  · rw [hhas]
    exact h.compact
  · rw [hwidth, hbounds]
    exact h.across
  · rw [hheight, hbounds]
    exact h.down
  · rw [hwidth]
    exact h.width
  · rw [hheight]
    exact h.height
  · rw [hclient, h.client, clientOf, clientOf, hbounds, htitle]
  · rw [hwidth, htab]
    exact h.tab
  · rw [hwidth, htab, hoffset]
    exact h.offset
  · rw [Option.mem_def] at hd
    rw [hd, Option.map_some] at hdev
    obtain ⟨d', hd', hsize⟩ := Option.map_eq_some_iff.mp hdev.symm
    obtain ⟨hw, hh⟩ := Prod.mk.inj hsize
    rw [hwidth, hheight, htitle, ← hw, ← hh]
    exact h.dev d' hd'

def AllPlaced (s : WndMgr) : Prop := ∀ z v, s.mem z = some v → Placed v

namespace AllPlaced

variable {s s' : WndMgr} {p : Nat}

theorem congr (h : AllPlaced s) (hsame : SamePlaces s.mem s'.mem) : AllPlaced s' := by
  intro z v hv
  have hz := hsame z
  rw [hv, Option.map_some] at hz
  obtain ⟨w, hw, hplace⟩ := Option.map_eq_some_iff.mp hz.symm
  exact (h z w hw).of_place hplace.symm

theorem bare (h : AllPlaced s) (hsame : SameBare s s') : AllPlaced s' := by
  have hplace : ∀ m : Option Wnd, m.map Wnd.place = (m.map Wnd.bare).map Wnd.place := fun m => by
    rw [Option.map_map]
    rfl
  refine h.congr fun z => ?_
  rw [hplace, hsame z, ← hplace]

theorem write (h : AllPlaced s) {f : Wnd → Wnd} (hw : s.write p f = some s')
    (hf : ∀ v, s.mem p = some v → Placed v → Placed (f v)) : AllPlaced s' := by
  rw [WndMgr.write, Option.map_eq_some_iff] at hw
  obtain ⟨-, -, rfl⟩ := hw
  intro z v hv
  rw [WndMgr.put_mem] at hv
  split at hv
  · rename_i hz
    obtain rfl := Option.some.inj hz
    obtain ⟨w, hw, rfl⟩ := Option.map_eq_some_iff.mp hv
    exact hf w hw (h z w hw)
  · exact h z v hv

theorem opn (h : AllPlaced s) {title : Option (Nat → UB)} {x y w ht : Int} {attr : Nat}
    {mem : Bool} {q : Option Nat} (hw : 160 ≤ w) (hh : 100 ≤ ht) (hx : SpanFits x w)
    (hy : SpanFits y ht) (hopn : opnWnd s (some p) title x y w ht attr mem = some (s', q)) :
    AllPlaced s' := by
  rw [opnWnd] at hopn
  split at hopn
  · cases hopn
  · simp only [Option.bind_eq_bind, Option.bind_eq_some_iff] at hopn
    obtain ⟨s₁, h₁, s₂, h₂, heq⟩ := hopn
    obtain ⟨rfl, -⟩ := Prod.mk.inj (Option.some.inj heq)
    have hsame := (sameBare_write h₁ fun _ => rfl).trans (sameBare_writeIf h₂ fun _ => rfl)
    refine bare (s := { s.alloc p (newWnd s.nextId title x y w ht attr mem) with
      nextId := s.nextId + 1 }) (fun z v hv => ?_) hsame
    simp only [WndMgr.alloc] at hv
    split at hv
    · obtain rfl := Option.some.inj hv
      exact newWnd_placed s.nextId title attr mem hw hh hx hy
    · exact h z v hv

theorem cls (h : AllPlaced s) {hook : (Nat → Option Wnd) → Nat → Option Wnd} {er : ER}
    (hkeep : SamePlaces s.mem (hook s.mem)) (hcls : clsWnd s (some p) hook = some (s', er)) :
    AllPlaced s' := by
  simp only [clsWnd, Option.bind_eq_bind, Option.bind_eq_some_iff] at hcls
  obtain ⟨v, -, s₁, h₁, w, -, s₂, h₂, heq⟩ := hcls
  obtain ⟨rfl, -⟩ := Prod.mk.inj (Option.some.inj heq)
  have hhook : ∀ b : Prop, [Decidable b] →
      AllPlaced (if b then { s with mem := hook s.mem } else s) := by
    intro b _
    split
    · exact h.congr hkeep
    · exact h
  have hhead : AllPlaced (if s₁.head = some p then { s₁ with head := w.next } else s₁) := by
    have hunlinked := (hhook _).bare (sameBare_unlink h₁)
    split
    · exact hunlinked
    · exact hunlinked
  intro z u hu
  rw [WndMgr.free] at hu
  simp only at hu
  split at hu
  · cases hu
  · exact hhead.bare (sameBare_writeIf h₂ fun _ => rfl) z u hu

theorem cycle (h : AllPlaced s) (hcycle : wndCycleFocus s = some s') : AllPlaced s' := by
  rw [wndCycleFocus] at hcycle
  split at hcycle
  · obtain rfl := Option.some.inj hcycle
    exact h
  · simp only [Option.bind_eq_bind, Option.bind_eq_some_iff] at hcycle
    obtain ⟨v, -, hcycle⟩ := hcycle
    split at hcycle
    · obtain rfl := Option.some.inj hcycle
      exact h
    · simp only [Option.bind_eq_some_iff] at hcycle
      obtain ⟨curr, -, hcycle⟩ := hcycle
      split at hcycle
      · simp only [Option.bind_eq_some_iff] at hcycle
        obtain ⟨s₁, h₁, ⟨s₂, er⟩, htop, heq⟩ := hcycle
        obtain rfl := Option.some.inj heq
        exact (h.write h₁ fun v _ hv => hv.of_place rfl).bare (sameBare_topWnd htop)
      · obtain rfl := Option.some.inj hcycle
        exact h

end AllPlaced

-- What a move of the pointer does to a window that is slid, resized or dragged.
def State.gesture (s : State) (x y : Int) (mem : Bool) : Option (Nat × Change) :=
  match s.slidingTab, s.slideTarget with
  | true, some p => some (p, .offset (asH (s.slideOrigOff + (x - s.slideStartX))))
  | _, _ =>
    match s.resizing, s.resizeTarget with
    | true, some p =>
      some (p, .rsz (asH (s.resizeOrigW + (x - s.resizeStartX)))
        (asH (s.resizeOrigH + (y - s.resizeStartY))) mem)
    | _, _ =>
      match s.dragging, s.dragTarget with
      | true, some p => some (p, .mov (asH (x - s.dragOffX)) (asH (y - s.dragOffY)))
      | _, _ => none

-- An event, a call, or a change of one window's place.
inductive Placing
  | event (ev : Option Evt) (mem : Bool) (hook : (Nat → Option Wnd) → Nat → Option Wnd)
  | call (a : Act)
  | change (p : Nat) (c : Change)

def place (s : State) : Placing → Option State
  | .event ev mem hook => (wndMgrHandleEvent s ev mem hook).map Prod.fst
  | .call a => (exec s.wm a).map fun wm => { s with wm := wm }
  | .change p c => (s.wm.write p c.apply).map fun wm => { s with wm := wm }

-- A window is opened with the least size at least, no coordinate overflows, and a destroy hook
-- leaves the windows where they are.
def Placing.Fits (s : State) : Placing → Prop
  | .event ev mem hook =>
    (∀ e ∈ ev, e.type = .EV_MOUSE_MOVE → ∀ t ∈ s.gesture e.x e.y mem,
      ∀ v, s.wm.mem t.1 = some v → t.2.Fits v) ∧ ∀ m, SamePlaces m (hook m)
  | .call (.opn (some _) _ x y w h _ _) => 160 ≤ w ∧ 100 ≤ h ∧ SpanFits x w ∧ SpanFits y h
  | .call (.cls _ hook) => ∀ m, SamePlaces m (hook m)
  | .call _ => True
  | .change p c => ∀ v, s.wm.mem p = some v → c.Fits v

def Places (s : State) (t : Placing) (s' : State) : Prop := t.Fits s ∧ place s t = some s'

section Events

variable {s s' : State}

theorem mouseMove_gesture {x y : Int} {mem b : Bool} {c : Option Nat}
    (hmove : mouseMove s x y mem = some (s', b, c)) :
    s'.wm = s.wm ∨ ∃ t ∈ s.gesture x y mem, s.wm.write t.1 t.2.apply = some s'.wm := by
  unfold mouseMove at hmove
  split at hmove
  · rename_i p hsliding htarget
    simp only [Option.bind_eq_bind, Option.bind_eq_some_iff] at hmove
    obtain ⟨wm, hwm, hmove⟩ := hmove
    cases hmove
    refine .inr ⟨(p, .offset (asH (s.slideOrigOff + (x - s.slideStartX)))), ?_, hwm⟩
    rw [Option.mem_def, State.gesture, hsliding, htarget]
  rename_i hslide
  split at hmove
  · rename_i p hresizing htarget
    simp only [Option.bind_eq_bind, Option.bind_eq_some_iff] at hmove
    obtain ⟨wm, hwm, hmove⟩ := hmove
    cases hmove
    refine .inr ⟨(p, .rsz (asH (s.resizeOrigW + (x - s.resizeStartX)))
      (asH (s.resizeOrigH + (y - s.resizeStartY))) mem), ?_, hwm⟩
    rw [Option.mem_def, State.gesture]
    split
    · rename_i q hsliding htarget'
      exact (hslide q hsliding htarget').elim
    · rw [hresizing, htarget]
  rename_i hresize
  split at hmove
  · rename_i p hdragging htarget
    simp only [Option.bind_eq_bind, Option.bind_eq_some_iff] at hmove
    obtain ⟨wm, hwm, hmove⟩ := hmove
    cases hmove
    refine .inr ⟨(p, .mov (asH (x - s.dragOffX)) (asH (y - s.dragOffY))), ?_, hwm⟩
    rw [Option.mem_def, State.gesture]
    split
    · rename_i q hsliding htarget'
      exact (hslide q hsliding htarget').elim
    split
    · rename_i q hresizing htarget'
      exact (hresize q hresizing htarget').elim
    · rw [hdragging, htarget]
  · simp only [Option.bind_eq_bind, Option.bind_eq_some_iff] at hmove
    obtain ⟨client, -, hmove⟩ := hmove
    cases hmove
    exact .inl rfl

theorem AllPlaced.butDown (h : AllPlaced s.wm) {x y : Int} {b : Bool} {c : Option Nat}
    {hook : (Nat → Option Wnd) → Nat → Option Wnd} (hkeep : ∀ m, SamePlaces m (hook m))
    (hdown : butDown s x y hook = some (s', b, c)) : AllPlaced s'.wm := by
  simp only [Window.butDown, Option.bind_eq_bind, Option.bind_eq_some_iff] at hdown
  obtain ⟨found, -, hdown⟩ := hdown
  cases found with
  | none =>
      cases hdown
      exact h
  | some p =>
      simp only [Option.bind_eq_some_iff] at hdown
      obtain ⟨wm, hwm, clicked, -, hdown⟩ := hdown
      have hraised : AllPlaced wm := by
        rw [raise] at hwm
        split at hwm
        · obtain ⟨⟨wm', er⟩, htop, rfl⟩ := Option.map_eq_some_iff.mp hwm
          exact h.bare (sameBare_topWnd htop)
        · obtain rfl := Option.some.inj hwm
          exact h
      cases hkind : clicked.press x y with
      | start k =>
          rw [hkind] at hdown
          cases hdown
          rwa [start_wm]
      | close =>
          rw [hkind] at hdown
          simp only [Option.bind_eq_some_iff] at hdown
          obtain ⟨⟨wm', er⟩, hcls, hdown⟩ := hdown
          cases hdown
          exact hraised.cls (hkeep wm.mem) hcls
      | client =>
          rw [hkind] at hdown
          cases hdown
          exact hraised

theorem AllPlaced.event (h : AllPlaced s.wm) {ev : Option Evt} {mem : Bool}
    {hook : (Nat → Option Wnd) → Nat → Option Wnd} (hfits : (Placing.event ev mem hook).Fits s)
    {b : Bool} {c : Option Nat} (hevent : wndMgrHandleEvent s ev mem hook = some (s', b, c)) :
    AllPlaced s'.wm := by
  cases ev with
  | none =>
      cases hevent
      exact h
  | some ev =>
      obtain ⟨htype, hkeep⟩ := hfits
      rw [wndMgrHandleEvent] at hevent
      cases hev : ev.type with
      | EV_BUT_DOWN =>
          rw [hev] at hevent
          exact h.butDown hkeep hevent
      | EV_MOUSE_MOVE =>
          rw [hev] at hevent
          obtain hsame | ⟨t, ht, hwrite⟩ := mouseMove_gesture hevent
          · rwa [hsame]
          · exact h.write hwrite fun v hv hplaced => hplaced.change (htype ev rfl hev t ht v hv)
      | EV_BUT_UP =>
          rw [hev] at hevent
          simp only [butUp, Option.bind_eq_bind, Option.bind_eq_some_iff] at hevent
          obtain ⟨client, -, hevent⟩ := hevent
          cases hevent
          exact h
      | EV_KEY_DOWN =>
          rw [hev] at hevent
          simp only [Option.bind_eq_bind, Option.bind_eq_some_iff] at hevent
          obtain ⟨client, -, hevent⟩ := hevent
          cases hevent
          exact h
      | EV_NONE | EV_KEY_UP | EV_WND_CLOSE | EV_WND_MOVE | EV_WND_FOCUS | EV_MENU_SELECT
      | EV_TIMER =>
          rw [hev] at hevent
          cases hevent
          exact h

-- A step that fits leaves every window consistent.
theorem AllPlaced.step (h : AllPlaced s.wm) {t : Placing} (hstep : Places s t s') :
    AllPlaced s'.wm := by
  obtain ⟨hfits, hplace⟩ := hstep
  cases t with
  | event ev mem hook =>
      obtain ⟨⟨s₁, b, c⟩, hevent, rfl⟩ := Option.map_eq_some_iff.mp hplace
      exact h.event hfits hevent
  | change p c =>
      obtain ⟨wm, hwrite, rfl⟩ := Option.map_eq_some_iff.mp hplace
      exact h.write hwrite fun v hv hplaced => hplaced.change (hfits v hv)
  | call a =>
      obtain ⟨wm, hexec, rfl⟩ := Option.map_eq_some_iff.mp hplace
      cases a with
      | opn p title x y w ht attr mem =>
          obtain ⟨⟨wm', q⟩, hopn, rfl⟩ := Option.map_eq_some_iff.mp hexec
          cases p with
          | none =>
              cases hopn
              exact h
          | some p =>
              obtain ⟨hw, hh, hx, hy⟩ := hfits
              exact h.opn hw hh hx hy hopn
      | cls wnd hook =>
          obtain ⟨⟨wm', er⟩, hcls, rfl⟩ := Option.map_eq_some_iff.mp hexec
          cases wnd with
          | none =>
              cases hcls
              exact h
          | some p => exact h.cls (hfits s.wm.mem) hcls
      | top wnd =>
          obtain ⟨⟨wm', er⟩, htop, rfl⟩ := Option.map_eq_some_iff.mp hexec
          exact h.bare (sameBare_topWnd htop)
      | cycle => exact h.cycle hexec

end Events

-- In every run of calls and events that fit, what is stored of each window stays consistent.
theorem windows_consistent {n : Int} {tr : List (State × Placing)} {s : State}
    (htr : Trace Places (.init n) tr s) {p : Nat} {v : Wnd} (hv : s.wm.mem p = some v) :
    Consistent v := by
  have hinit : AllPlaced (State.init n).wm := fun z v hv => by cases hv
  have hplaced := (htr.always (I := fun s => AllPlaced s.wm) hinit fun _ _ _ h => h.step).1
  exact (hplaced p v hv).consistent

-- A window is opened and moved, and its tab is slid with the pointer past the edge.
theorem windows_consistent_slid : ∃ tr s v, Trace Places (.init 1) tr s ∧
    s.wm.mem 0 = some v ∧ v.bounds = ⟨50, 60, 350, 210⟩ ∧ v.tabOffsetX = 156 ∧ Consistent v := by
  have hbutton : ∀ e ∈ some (⟨.EV_BUT_DOWN, 55, 65⟩ : Evt), e.type ≠ .EV_MOUSE_MOVE := by decide
  have hopn : Trace Places (.init 1) _ _ := .next .start
    (show Places _ (.call (.opn (some 0) none 10 20 300 150 WND_ATTR_TITLE true)) _ from
      ⟨⟨by decide, by decide, by decide, by decide⟩, rfl⟩)
  have hmov : Trace Places (.init 1) _ _ := .next hopn
    (show Places _ (.change 0 (.mov 50 60)) _ from ⟨fun v hv => by
      obtain rfl := Option.some.inj hv
      exact ⟨by decide, by decide⟩, rfl⟩)
  have hdown : Trace Places (.init 1) _ _ := .next hmov
    (show Places _ (.event (some ⟨.EV_BUT_DOWN, 55, 65⟩) true id) _ from
      ⟨⟨fun e he htype => absurd htype (hbutton e he), fun _ _ => rfl⟩, rfl⟩)
  have hmove : Trace Places (.init 1) _ _ := .next hdown
    (show Places _ (.event (some ⟨.EV_MOUSE_MOVE, 900, 65⟩) true id) _ from
      ⟨⟨fun e he _ t ht v _ => (by
        obtain rfl := Option.some.inj he
        obtain rfl := Option.some.inj ht
        trivial), fun _ _ => rfl⟩, rfl⟩)
  exact ⟨_, _, _, hmove, rfl, rfl, rfl, windows_consistent hmove (p := 0) rfl⟩

end BTron.Window
