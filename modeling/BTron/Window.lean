import BTron.Graphics

namespace BTron.Window

open Graphics

def WND_ATTR_TITLE : Nat := 1
def WND_ATTR_CLOSE : Nat := 2
def WND_ATTR_RESIZE : Nat := 8
def WND_ATTR_COMPACT_TAB : Nat := 32
def WND_ATTR_SLIDING_TAB : Nat := 64

def WND_TITLE_HEIGHT : Int := 28

abbrev Color := Nat

-- WND. A window is the address of its record, and a hook a number; NULL is `none` or 0.
structure Wnd where
  id : Int
  title : Nat → UB
  bounds : Rect
  client : Rect
  attr : Nat
  visible : Bool
  focused : Bool
  tabOffsetX : Int
  tabWidth : Int
  dev : Option (Gdev Color)
  paint : Nat
  eventHandler : Nat
  destroy : Nat
  userData : Nat
  next : Option Nat
  prev : Option Nat

def Wnd.has (wnd : Wnd) (attr : Nat) : Bool := wnd.attr &&& attr != 0

-- `(wnd->attr & WND_ATTR_TITLE) ? WND_TITLE_HEIGHT : 0`
def Wnd.titleH (wnd : Wnd) : Int := if wnd.has WND_ATTR_TITLE then WND_TITLE_HEIGHT else 0

-- The display width of the 64 bytes of a title.
def calculateTitleDisplayWidth (s : Nat → UB) : Int := go 64 0 0
where
  go : Nat → Nat → Int → Int
    | 0, _, w => w
    | fuel + 1, i, w =>
      if s i = 0 then w
      else if s i < 0x80 then go fuel (i + 1) (w + 8)
      else if s i &&& 0xE0 = 0xC0 then go fuel (i + 2) (w + 8)
      else if s i &&& 0xF0 = 0xE0 then go fuel (i + 3) (w + 16)
      else go fuel (i + 1) (w + 8)

-- The width of the tab, as the three tab functions read it.
def Wnd.tabW (wnd : Wnd) : Int :=
  let w := asH (wnd.bounds.right - wnd.bounds.left)
  if wnd.tabWidth ≤ 0 ∨ wnd.tabWidth > w ∨ !wnd.has WND_ATTR_COMPACT_TAB then w
  else wnd.tabWidth

def wgetTabRect (wnd : Wnd) : Rect :=
  if !wnd.has WND_ATTR_TITLE then ⟨0, 0, 0, 0⟩
  else
    let w := asH (wnd.bounds.right - wnd.bounds.left)
    let tw := wnd.tabW
    let offX := if wnd.tabOffsetX < 0 then 0 else wnd.tabOffsetX
    let offX :=
      if offX + tw > w then (if asH (w - tw) < 0 then 0 else asH (w - tw)) else offX
    let left := asH (wnd.bounds.left + offX)
    ⟨left, wnd.bounds.top, asH (left + tw), asH (wnd.bounds.top + WND_TITLE_HEIGHT)⟩

def whitTestTab (wnd : Wnd) (x y : Int) : Bool :=
  let tr := wgetTabRect wnd
  wnd.has WND_ATTR_TITLE && x ≥ tr.left && x < tr.right && y ≥ tr.top && y < tr.bottom

def whitTestCloseBtn (wnd : Wnd) (x y : Int) : Bool :=
  let tr := wgetTabRect wnd
  wnd.has WND_ATTR_TITLE && wnd.has WND_ATTR_CLOSE && x ≥ asH (tr.right - 24) &&
    x < asH (tr.right - 6) && y ≥ asH (tr.top + 6) && y < asH (tr.top + 22)

def wsetTabOffset (wnd : Wnd) (offsetX : Int) : Wnd :=
  let w := asH (wnd.bounds.right - wnd.bounds.left)
  let tw := wnd.tabW
  let maxOff := if w > tw then asH (w - tw) else 0
  let offsetX := if offsetX < 0 then 0 else offsetX
  { wnd with tabOffsetX := if offsetX > maxOff then maxOff else offsetX }

def movWnd (wnd : Wnd) (x y : Int) : Wnd :=
  let w := asH (wnd.bounds.right - wnd.bounds.left)
  let h := asH (wnd.bounds.bottom - wnd.bounds.top)
  { wnd with
      bounds := ⟨x, y, asH (x + w), asH (y + h)⟩
      client := ⟨asH (x + 4), asH (y + wnd.titleH + 4), asH (x + w - 4), asH (y + h - 4)⟩ }

-- `mem` says that there is memory for a new device.
def rszWnd (wnd : Wnd) (w h : Int) (mem : Bool) : Wnd :=
  let w := if w < 160 then 160 else w
  let h := if h < 100 then 100 else h
  let b := wnd.bounds
  let titleH := wnd.titleH
  let wnd :=
    { wnd with
        bounds := { b with right := asH (b.left + w), bottom := asH (b.top + h) }
        client := ⟨asH (b.left + 4), asH (b.top + titleH + 4), asH (b.left + w - 4),
          asH (b.top + h - 4)⟩
        tabWidth := if wnd.tabWidth > w then w else wnd.tabWidth }
  let wnd := wsetTabOffset wnd wnd.tabOffsetX
  let devW := if asH (w - 8) < 10 then 10 else asH (w - 8)
  let devH := if asH (h - titleH - 8) < 10 then 10 else asH (h - titleH - 8)
  let fresh := if mem then opnDev devW devH 0 else none
  match wnd.dev with
  | some dev =>
    if dev.width ≠ devW ∨ dev.height ≠ devH then { wnd with dev := fresh } else wnd
  | none => { wnd with dev := fresh }

-- The loop of `opn_wnd` that copies whole characters of the title while they fit.
def copyTitle (src : Nat → UB) : Nat → UB := go 64 0 fun _ => 0
where
  go : Nat → Nat → (Nat → UB) → Nat → UB
    | 0, _, title => title
    | fuel + 1, ti, title =>
      if src ti = 0 then title
      else
        let c := src ti
        let step :=
          if c &&& 0x80 = 0 then 1
          else if c &&& 0xE0 = 0xC0 then 2
          else if c &&& 0xF0 = 0xE0 then 3
          else if c &&& 0xF8 = 0xF0 then 4
          else 1
        if ti + step ≥ 64 then title
        else
          go fuel (ti + step) fun k => if ti ≤ k ∧ k < ti + step then src k else title k

-- `BTRON Window`
def defaultTitle : List UB :=
  [0x42, 0x54, 0x52, 0x4f, 0x4e, 0x20, 0x57, 0x69, 0x6e, 0x64, 0x6f, 0x77]

-- The record `opn_wnd` fills in. `mem` says that there is memory for the device.
def newWnd (id : Int) (title : Option (Nat → UB)) (x y w h : Int) (attr : Nat) (mem : Bool) :
    Wnd :=
  let title := copyTitle (title.getD fun k => defaultTitle.getD k 0)
  let titleH := if attr &&& WND_ATTR_TITLE ≠ 0 then WND_TITLE_HEIGHT else 0
  let tw := asH (calculateTitleDisplayWidth title + 48)
  let tw := if tw < 100 then 100 else tw
  { id := id
    title := title
    bounds := ⟨x, y, asH (x + w), asH (y + h)⟩
    client := ⟨asH (x + 4), asH (y + titleH + 4), asH (x + w - 4), asH (y + h - 4)⟩
    attr := attr ||| (WND_ATTR_RESIZE ||| WND_ATTR_COMPACT_TAB ||| WND_ATTR_SLIDING_TAB)
    visible := true
    focused := true
    tabOffsetX := 0
    tabWidth := if tw > w then w else tw
    dev := if mem then opnDev (asH (w - 8)) (asH (h - titleH - 8)) 0 else none
    paint := 0
    eventHandler := 0
    destroy := 0
    userData := 0
    next := none
    prev := none }

end BTron.Window
