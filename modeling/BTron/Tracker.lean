import BTron.Graphics

namespace BTron

open Graphics

namespace Tracker

def TRACKER_MAX_ITEMS : Nat := 24
def TRACKER_BTN_WIDTH : Int := 80
def TRACKER_BTN_HEIGHT : Int := 20
def TRACKER_MENU_MIN_WIDTH : Int := 190
def TRACKER_ITEM_HEIGHT : Int := 20

-- Left accent bar and text offset (10 px), right padding (18 px)
def PADDING : Int := 28

-- TRACKER_STATE
inductive State
  | normal | hover | pressed | open
deriving DecidableEq

-- TRACKER_CMD_TYPE
inductive Cmd
  | none | about | cabinet | settings | teditor | matrix | terminal | audiodeck | orchestra | chat
  | wndFocus | restart | shutdown | separator
deriving DecidableEq

-- A C string is the list of its bytes without the NUL, a window the address of its record.
structure Item where
  type : Cmd
  label : List UB
  targetWnd : Option Nat
  enabled : Bool
deriving DecidableEq

def Item.zero : Item := ⟨.none, [], none, false⟩

end Tracker

-- `items` is the array, of which the first itemCount are in the menu.
structure Tracker where
  state : Tracker.State
  btnRect : Rect
  menuRect : Rect
  hoverIndex : Int
  itemCount : Nat
  items : Nat → Tracker.Item
  launchCount : Nat

namespace Tracker

-- What the static g_tracker is before `tracker_init`.
def zero : Tracker := ⟨.normal, ⟨0, 0, 0, 0⟩, ⟨0, 0, 0, 0⟩, 0, 0, fun _ => .zero, 0⟩

-- What the tracker reads of a window in the list of the window manager.
structure Listed where
  wnd : Nat
  focused : Bool
  title : Memory

def utf8 (s : String) : List UB := s.toUTF8.data.toList

-- The bytes from place i on up to the NUL, at most `room` of them.
def copyBytes (src : Memory) (i : Nat) : Nat → List UB
  | 0 => []
  | room + 1 => if src i = 0 then [] else src i :: copyBytes src (i + 1) room

-- The label of a constant item is shorter than its 48 bytes.
def trackerSafeCopy (src : List UB) (maxLen : Nat) : List UB := src.take (maxLen - 1)

def trackerFormatWndTitle (maxLen : Nat) (focused : Bool) (title : Memory) : List UB :=
  let mark := (if focused then utf8 "[*] " else utf8 "[ ] ").take (maxLen - 1)
  let room := maxLen - 1 - mark.length
  if title 0 ≠ 0 then mark ++ copyBytes title 0 room
  else mark ++ (utf8 "Window").take room

def trackerVerifyInvariants (s : Tracker) : Bool :=
  !(s.itemCount > TRACKER_MAX_ITEMS) &&
    !(s.hoverIndex < -1 || s.hoverIndex ≥ s.itemCount) &&
    !(s.btnRect.right ≤ s.btnRect.left || s.btnRect.bottom ≤ s.btnRect.top) &&
    !(s.menuRect.right ≤ s.menuRect.left || s.menuRect.bottom ≤ s.menuRect.top)

def trackerAddItem (s : Tracker) (type : Cmd) (label : List UB) (targetWnd : Option Nat) :
    Tracker :=
  if s.itemCount ≥ TRACKER_MAX_ITEMS then s
  else
    let item : Item := ⟨type, trackerSafeCopy label 48, targetWnd, type ≠ .separator⟩
    { s with
        items := Function.update s.items s.itemCount item
        itemCount := s.itemCount + 1 }

-- `total_w`, the bytes of a character after its first still to pass, and the text.
def calcTextWidth : Int → Nat → List UB → Int
  | w, _, [] => w
  | w, skip + 1, _ :: p => calcTextWidth w skip p
  | w, 0, c :: p =>
    if c = 0x0A then calcTextWidth w 0 p
    else if c < 0x80 then calcTextWidth (asH (w + 8)) 0 p
    else if c &&& 0xE0 = 0xC0 then
      calcTextWidth (asH (w + 16)) (if p.length ≥ 1 then 1 else 0) p
    else if c &&& 0xF0 = 0xE0 then
      calcTextWidth (asH (w + 16)) (if p.length ≥ 2 then 2 else 0) p
    else if c &&& 0xF8 = 0xF0 then
      calcTextWidth (asH (w + 16)) (if p.length ≥ 3 then 3 else 0) p
    else calcTextWidth (asH (w + 8)) 0 p

def trackerCalcTextWidth (text : List UB) : Int := calcTextWidth 0 0 text

-- The loop of `tracker_calc_widest_item_width` over the first n items.
def widest (s : Tracker) : Nat → Int
  | 0 => TRACKER_MENU_MIN_WIDTH
  | i + 1 =>
    let maxW := widest s i
    if (s.items i).type = .separator then maxW
    else
      let itemTotalW := asH (trackerCalcTextWidth (s.items i).label + PADDING)
      if itemTotalW > maxW then itemTotalW else maxW

def trackerCalcWidestItemWidth (s : Tracker) : Int := widest s s.itemCount

def separatorLabel : List UB := utf8 "------------------------"

-- Core knowledge and system applications
def coreItems : List (Cmd × List UB) :=
  [(.cabinet, utf8 "実身・仮身 (Cabinet)"), (.settings, utf8 "環境設定 (Control Panel)"),
    (.teditor, utf8 "Editor (文書編集)"), (.matrix, utf8 "Matrix (表計算・APL)"),
    (.terminal, utf8 "Terminal (gterm 端末)"), (.audiodeck, utf8 "Cassette (カセットデッキ)"),
    (.orchestra, utf8 "管弦楽・MIDI (Orchestra)"), (.chat, utf8 "Mail & Chat (対話通信)"),
    (.separator, separatorLabel)]

-- System management
def systemItems : List (Cmd × List UB) :=
  [(.about, utf8 "システム情報 (About BTRON)"), (.restart, utf8 "デスクトップ再起動")]

def addItems (s : Tracker) (l : List (Cmd × List UB)) : Tracker :=
  l.foldl (fun s it => trackerAddItem s it.1 it.2 none) s

-- The loop over the window list, after `trackedWnds` windows.
def addWindows (s : Tracker) (trackedWnds : Nat) : List Listed → Tracker × Nat
  | [] => (s, trackedWnds)
  | w :: ws =>
    if trackedWnds < 8 ∧ s.itemCount < TRACKER_MAX_ITEMS - 3 then
      let itemBuf := trackerFormatWndTitle 48 w.focused w.title
      addWindows (trackerAddItem s .wndFocus itemBuf (some w.wnd)) (trackedWnds + 1) ws
    else (s, trackedWnds)

-- The items of `tracker_refresh_windows`. `wnds` is the window list at the call.
def buildItems (s : Tracker) (wnds : List Listed) : Tracker :=
  let s := addItems { s with itemCount := 0 } coreItems
  let (s, trackedWnds) := addWindows s 0 wnds
  let s := if trackedWnds > 0 then trackerAddItem s .separator separatorLabel none else s
  addItems s systemItems

def trackerRefreshWindows (s : Tracker) (wnds : List Listed) : Tracker :=
  let s := buildItems s wnds
  let menuW := trackerCalcWidestItemWidth s
  { s with
      menuRect :=
        ⟨s.btnRect.left, 26, asH (s.btnRect.left + menuW),
          asH (26 + s.itemCount * TRACKER_ITEM_HEIGHT + 6)⟩ }

def trackerInit (s : Tracker) (wnds : List Listed) : Tracker :=
  trackerRefreshWindows
    { s with
        state := .normal
        btnRect := ⟨4, 3, 4 + TRACKER_BTN_WIDTH, 3 + TRACKER_BTN_HEIGHT⟩
        hoverIndex := -1
        launchCount := 0 } wnds

def inside (r : Rect) (x y : Int) : Bool :=
  x ≥ r.left && x ≤ r.right && y ≥ r.top && y ≤ r.bottom

def trackerHitButton (s : Tracker) (x y : Int) : Bool := inside s.btnRect x y

def trackerHitMenu (s : Tracker) (x y : Int) : Bool :=
  if s.state ≠ .open then false else inside s.menuRect x y

def trackerIsMenuOpen (s : Tracker) : Bool := s.state = .open

def trackerOpenMenu (s : Tracker) (wnds : List Listed) : Tracker :=
  { trackerRefreshWindows s wnds with state := .open, hoverIndex := 0 }

def trackerCloseMenu (s : Tracker) : Tracker := { s with state := .normal, hoverIndex := -1 }

def trackerToggleMenu (s : Tracker) (wnds : List Listed) : Tracker :=
  if trackerIsMenuOpen s then trackerCloseMenu s else trackerOpenMenu s wnds

-- What the execution of an item calls.
inductive Action
  | openVobjManagerWindow | openControlPanelWindow | openTEditorWindow | openGtermWindow
  | openAudioPlayerWindow | openOrchestraWindow | launchBeosChat | openAboutWindow
  | topWnd (wnd : Nat)
  | nothing
deriving DecidableEq

def Item.action (item : Item) : Action :=
  match item.type with
  | .cabinet => .openVobjManagerWindow
  | .settings => .openControlPanelWindow
  | .teditor => .openTEditorWindow
  | .terminal => .openGtermWindow
  | .audiodeck => .openAudioPlayerWindow
  | .orchestra => .openOrchestraWindow
  | .chat => .launchBeosChat
  | .wndFocus =>
    match item.targetWnd with
    | some wnd => .topWnd wnd
    | none => .nothing
  | .about => .openAboutWindow
  | _ => .nothing

-- The item executed, if any: its row and what is called for it.
abbrev Executed := Option (Int × Action)

def trackerExecuteItem (s : Tracker) (index : Int) : Tracker × Executed :=
  if index < 0 ∨ index ≥ s.itemCount then (s, none)
  else
    let item := s.items index.toNat
    if !item.enabled then (s, none)
    else ({ s with launchCount := w32 (s.launchCount + 1) }, some (index, item.action))

-- `rel_y / TRACKER_ITEM_HEIGHT` where the row is in the menu.
def rowAt (s : Tracker) (y : Int) : Option Int :=
  let relY := asH (y - (s.menuRect.top + 3))
  if relY ≥ 0 then
    let idx := relY.tdiv TRACKER_ITEM_HEIGHT
    if idx ≥ 0 ∧ idx < s.itemCount then some idx else none
  else none

def trackerHandleMouseDown (s : Tracker) (wnds : List Listed) (x y : Int) :
    Tracker × Bool × Executed :=
  if trackerHitButton s x y then (trackerToggleMenu s wnds, true, none)
  else if trackerIsMenuOpen s then
    match if trackerHitMenu s x y then rowAt s y else none with
    | some idx =>
      let (s, executed) := trackerExecuteItem s idx
      (trackerCloseMenu s, true, executed)
    | none => (trackerCloseMenu s, true, none)
  else (s, false, none)

def trackerHandleMouseMove (s : Tracker) (x y : Int) : Tracker × Bool :=
  if trackerIsMenuOpen s then
    match if trackerHitMenu s x y then rowAt s y else none with
    | some idx =>
      if (s.items idx.toNat).type ≠ .separator then ({ s with hoverIndex := idx }, true)
      else (s, true)
    | none => (s, true)
  else if trackerHitButton s x y then
    if s.state = .normal then ({ s with state := .hover }, true) else (s, false)
  else if s.state = .hover then ({ s with state := .normal }, true)
  else (s, false)

-- The loops of the arrow keys over separators: down the rows next .. next + n - 1, the last of
-- the menu, and up from the row below `prev`.
def skipDown (s : Tracker) (next : Int) : Nat → Int
  | 0 => next
  | n + 1 => if (s.items next.toNat).type = .separator then skipDown s (next + 1) n else next

def skipUp (s : Tracker) : Nat → Int
  | 0 => -1
  | prev + 1 => if (s.items prev).type = .separator then skipUp s prev else prev

def trackerHandleKey (s : Tracker) (wnds : List Listed) (keyCode : Int) :
    Tracker × Bool × Executed :=
  if keyCode = 0x101 ∨ keyCode = 0x120 then (trackerToggleMenu s wnds, true, none)
  else if !trackerIsMenuOpen s then (s, false, none)
  else if keyCode = 0x1B then (trackerCloseMenu s, true, none)
  else if keyCode = 0x112 ∨ keyCode = 0x73 then
    let next := skipDown s (s.hoverIndex + 1) (s.itemCount - (s.hoverIndex + 1)).toNat
    (if next < s.itemCount then { s with hoverIndex := next } else s, true, none)
  else if keyCode = 0x111 ∨ keyCode = 0x77 then
    let prev := skipUp s s.hoverIndex.toNat
    (if prev ≥ 0 then { s with hoverIndex := prev } else s, true, none)
  else if keyCode = 0x0D ∨ keyCode = 0x20 then
    if s.hoverIndex ≥ 0 ∧ s.hoverIndex < s.itemCount then
      let (s, executed) := trackerExecuteItem s s.hoverIndex
      (trackerCloseMenu s, true, executed)
    else (s, true, none)
  else (s, true, none)

-- The loop of `tracker_render_menu`: the rows from item i on, the first of them at y.
def renderRows (s : Tracker) (y : Int) : Nat → List Rect
  | 0 => []
  | n + 1 =>
    ⟨asH (s.menuRect.left + 5), y, asH (s.menuRect.right - 2), asH (y + TRACKER_ITEM_HEIGHT)⟩ ::
      renderRows s (asH (y + TRACKER_ITEM_HEIGHT)) n

def trackerRenderMenu (s : Tracker) : List Rect :=
  if s.state ≠ .open then [] else renderRows s (asH (s.menuRect.top + 3)) s.itemCount

inductive Call
  | mouseDown (x y : Int)
  | mouseMove (x y : Int)
  | key (code : Int)
  | openMenu
  | closeMenu
  | toggleMenu
  | refreshWindows

def exec (s : Tracker) (wnds : List Listed) : Call → Tracker
  | .mouseDown x y => (trackerHandleMouseDown s wnds x y).1
  | .mouseMove x y => (trackerHandleMouseMove s x y).1
  | .key code => (trackerHandleKey s wnds code).1
  | .openMenu => trackerOpenMenu s wnds
  | .closeMenu => trackerCloseMenu s
  | .toggleMenu => trackerToggleMenu s wnds
  | .refreshWindows => trackerRefreshWindows s wnds

-- A call, with the window list that it finds.
def Step (s : Tracker) (c : List Listed × Call) (s' : Tracker) : Prop := s' = exec s c.1 c.2

end Tracker

end BTron
