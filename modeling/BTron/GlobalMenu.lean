import BTron.Tracker

namespace BTron

open Graphics

namespace GlobalMenu

def GMENU_MAX_ITEMS : Nat := 20
def GMENU_HEADER_COUNT : Nat := 5
def GMENU_HDR_BTRON : Nat := 0
def GMENU_HDR_WINDOWS : Nat := 3
def GMENU_DROPDOWN_WIDTH : Int := 280
def GMENU_ROW_HEIGHT : Int := 22
def BTRON_KEY_ESCAPE : UInt32 := 27

-- The GMENU_CMD constants, the selected window with its index.
inductive Cmd
  | none
  | sysAbout | sysSettings | sysAudio | sysOrchestra | sysDisplay | sysRestart | sysShutdown
  | objCabinet | objSearch | objNew | objStorage
  | wndCascade | wndTile | wndHideAll | wndCycle
  | wndSelect (idx : Nat)
  | toolPalette | toolTroncode | toolMozcDict | toolTeditor | toolMatrix | toolTerminal
deriving DecidableEq

-- GMenuItem without the texts, which are for the painter.
structure Item where
  cmd : Cmd
  isSeparator : Bool
  enabled : Bool
deriving DecidableEq

def item (cmd : Cmd) : Item := ⟨cmd, false, true⟩

def separator : Item := ⟨.none, true, false⟩

end GlobalMenu

-- g_gmenu, the width of the screen and the items of g_headers that come and go with the windows.
structure GlobalMenu where
  activeMenu : Int
  hoverHeader : Int
  hoverItem : Int
  tipHover : Bool
  scrW : Int
  windowItems : List GlobalMenu.Item

-- The menu bar with the tracker, which has the first of its headers.
structure MenuBar where
  menu : GlobalMenu
  tracker : Tracker

namespace GlobalMenu

-- What the statics are before `global_menu_init`.
def zero : GlobalMenu := ⟨0, 0, 0, false, 1280, []⟩

def globalMenuInit (s : GlobalMenu) : GlobalMenu :=
  { s with activeMenu := -1, hoverHeader := -1, hoverItem := -1, tipHover := false }

def globalMenuSetScreenWidth (s : GlobalMenu) (w : Int) : GlobalMenu :=
  if w > 0 then { s with scrW := w } else s

def headerRect : Nat → Rect
  | 0 => ⟨4, 2, 84, 23⟩
  | 1 => ⟨92, 2, 196, 23⟩
  | 2 => ⟨202, 2, 322, 23⟩
  | 3 => ⟨328, 2, 448, 23⟩
  | _ => ⟨454, 2, 574, 23⟩

-- The items of header h.
def items (s : GlobalMenu) : Nat → List Item
  | 0 => []
  | 1 =>
    [item .sysAbout, item .sysSettings, separator, item .sysAudio, item .sysOrchestra,
      item .sysDisplay, separator, item .sysRestart, item .sysShutdown]
  | 2 => [item .objCabinet, item .objSearch, item .objNew, item .objStorage]
  | 3 =>
    [item .wndCascade, item .wndTile, item .wndHideAll, item .wndCycle, separator] ++
      s.windowItems
  | _ =>
    [item .toolPalette, item .toolTroncode, item .toolMozcDict, separator, item .toolTeditor,
      item .toolMatrix, item .toolTerminal]

-- A window in the list as the two menus read it.
structure Shown where
  listed : Tracker.Listed
  visible : Bool

def refreshWindowMenu (s : GlobalMenu) (wnds : List Shown) : GlobalMenu :=
  { s with
      windowItems :=
        (List.range ((wnds.filter Shown.visible).take (GMENU_MAX_ITEMS - 5)).length).map fun i =>
          item (.wndSelect i) }

-- The header whose rectangle has x between its sides.
def headerAt (x : Int) : Option Nat :=
  (List.range GMENU_HEADER_COUNT).find? fun h =>
    x ≥ (headerRect h).left && x ≤ (headerRect h).right

def inBar (y : Int) : Bool := y ≥ 0 && y ≤ 25

def tipBtn (s : GlobalMenu) : Rect :=
  let sw := if s.scrW > 0 then s.scrW else 1280
  ⟨asH (sw - 214 - 134 - 4), 3, asH (sw - 214 - 4 - 6), 23⟩

def onTip (s : GlobalMenu) (x y : Int) : Bool := Tracker.inside s.tipBtn x y

-- Whether the point is on the dropdown menu of header h.
def inDropdown (s : GlobalMenu) (h : Nat) (x y : Int) : Bool :=
  let menuX := (headerRect h).left
  let menuH := asH ((s.items h).length * GMENU_ROW_HEIGHT + 6)
  x ≥ menuX && x ≤ menuX + GMENU_DROPDOWN_WIDTH && y ≥ 25 && y ≤ 25 + menuH

-- `(y - (menu_y + 3)) / GMENU_ROW_HEIGHT` where it is a row of header h.
def itemAt (s : GlobalMenu) (h : Nat) (y : Int) : Option (Nat × Item) :=
  let idx := (y - 28).tdiv GMENU_ROW_HEIGHT
  if 0 ≤ idx then ((s.items h)[idx.toNat]?).map fun it => (idx.toNat, it) else none

-- The dropdown menu that is open.
def dropdown (s : GlobalMenu) : Option Nat :=
  if s.activeMenu > 0 ∧ s.activeMenu < GMENU_HEADER_COUNT then some s.activeMenu.toNat else none

end GlobalMenu

namespace MenuBar

open GlobalMenu
open Tracker (trackerIsMenuOpen trackerOpenMenu trackerCloseMenu trackerHandleMouseMove
  trackerHandleMouseDown trackerHandleKey)

-- What an event sets going: the command of a row, an item of the tracker, or the badge.
inductive Effect
  | command (row : Nat) (cmd : Cmd)
  | executed (row : Int) (action : Tracker.Action)
  | tipToggleMode
deriving DecidableEq

def closeTracker (s : MenuBar) : MenuBar :=
  if trackerIsMenuOpen s.tracker then { s with tracker := trackerCloseMenu s.tracker } else s

def globalMenuClose (s : MenuBar) : MenuBar :=
  closeTracker { s with menu := { s.menu with activeMenu := -1, hoverItem := -1 } }

def globalMenuIsOpen (s : MenuBar) : Bool := s.menu.activeMenu ≥ 0 || trackerIsMenuOpen s.tracker

-- Another header becomes the active one.
def openHeader (s : MenuBar) (wnds : List Shown) (h : Nat) : MenuBar :=
  let s := { s with menu := { s.menu with activeMenu := h, hoverHeader := h, hoverItem := -1 } }
  if h = GMENU_HDR_BTRON then
    { s with tracker := trackerOpenMenu s.tracker (wnds.map Shown.listed) }
  else
    let s := closeTracker s
    if h = GMENU_HDR_WINDOWS then { s with menu := refreshWindowMenu s.menu wnds } else s

def trackerMove (s : MenuBar) (x y : Int) : MenuBar × Bool :=
  let (tracker, handled) := trackerHandleMouseMove s.tracker x y
  ({ s with tracker := tracker }, handled)

-- Tracker menu hover tracking
def moveTracker (s : MenuBar) (x y : Int) : MenuBar × Bool :=
  if s.menu.activeMenu = GMENU_HDR_BTRON ∧ trackerIsMenuOpen s.tracker then trackerMove s x y
  else (s, false)

-- The part of a move behind the headers, where a menu is open.
def moveBelow (s : MenuBar) (x y : Int) : MenuBar × Bool :=
  match s.menu.dropdown with
  | none => moveTracker s x y
  | some h =>
    if inDropdown s.menu h x y then
      match itemAt s.menu h y with
      | none => (s, true)
      | some (i, it) =>
        ({ s with menu := { s.menu with
            hoverItem := if !it.isSeparator && it.enabled then i else -1 } }, true)
    else moveTracker { s with menu := { s.menu with hoverItem := -1 } } x y

def globalMenuHandleMouseMove (s : MenuBar) (wnds : List Shown) (x y : Int) : MenuBar × Bool :=
  let s := { s with menu := { s.menu with tipHover := onTip s.menu x y } }
  let header := if inBar y then headerAt x else none
  if s.menu.activeMenu ≥ 0 then
    match header with
    | some h => (if s.menu.activeMenu ≠ (h : Int) then openHeader s wnds h else s, true)
    | none => moveBelow s x y
  else
    match header with
    | some h => ({ s with menu := { s.menu with hoverHeader := h } }, true)
    | none => ({ s with menu := { s.menu with hoverHeader := -1 } }, false)

-- What a press or a key leaves: the state, what is returned and what is set going.
abbrev Handled := MenuBar × Bool × Option Effect

def globalMenuExecuteCmd (s : MenuBar) (row : Nat) (cmd : Cmd) : Handled :=
  (globalMenuClose s, true, some (.command row cmd))

def effectOf (e : Tracker.Executed) : Option Effect := e.map fun p => .executed p.1 p.2

-- 4. Click on Tracker root menu, 5. Click outside closes any active global menu
def pressTracker (s : MenuBar) (wnds : List Shown) (x y : Int) : Handled :=
  if s.menu.activeMenu = GMENU_HDR_BTRON ∧ trackerIsMenuOpen s.tracker then
    let (tracker, handled, e) := trackerHandleMouseDown s.tracker (wnds.map Shown.listed) x y
    let t := { s with tracker := tracker }
    if handled then
      (if !trackerIsMenuOpen tracker then { t with menu := { t.menu with activeMenu := -1 } }
        else t, true, effectOf e)
    else (globalMenuClose t, true, effectOf e)
  else if s.menu.activeMenu ≥ 0 then (globalMenuClose s, true, none)
  else (s, false, none)

-- The part of a press behind the headers.
def pressBelow (s : MenuBar) (wnds : List Shown) (x y : Int) : Handled :=
  match s.menu.dropdown with
  | none => pressTracker s wnds x y
  | some h =>
    -- 3. Check clicks inside active dropdown menu
    if inDropdown s.menu h x y then
      match itemAt s.menu h y with
      | some (i, it) =>
        if !it.isSeparator && it.enabled then globalMenuExecuteCmd s i it.cmd else (s, true, none)
      | none => (s, true, none)
    else pressTracker s wnds x y

def globalMenuHandleMouseDown (s : MenuBar) (wnds : List Shown) (x y : Int) : Handled :=
  -- 1. Check Global TIP Mode Badge Click
  if onTip s.menu x y then (s, true, some .tipToggleMode)
  else
    -- 2. Check Top Header Clicks
    match if inBar y then headerAt x else none with
    | some h =>
      (if s.menu.activeMenu = (h : Int) then globalMenuClose s else openHeader s wnds h, true, none)
    | none => pressBelow s wnds x y

-- The hovered row of the open dropdown menu.
def hovered (s : MenuBar) : Option (Nat × Item) := do
  let h ← s.menu.dropdown
  if s.menu.hoverItem ≥ 0 then
    ((s.menu.items h)[s.menu.hoverItem.toNat]?).map fun it => (s.menu.hoverItem.toNat, it)
  else none

def globalMenuHandleKey (s : MenuBar) (key : UInt32) : Handled :=
  if !globalMenuIsOpen s then (s, false, none)
  else if key = BTRON_KEY_ESCAPE then (globalMenuClose s, true, none)
  -- Enter or Space triggers active item
  else if key = 0x0D ∨ key = 0x0A ∨ key = 0x20 then
    match hovered s with
    | some (i, it) => globalMenuExecuteCmd s i it.cmd
    | none => (s, false, none)
  else (s, false, none)

inductive Event
  | move (x y : Int)
  | press (x y : Int)
  | key (code : UInt32)

-- The main loop: what it does with a move, a press and a key. The flag says that a press or a key
-- is not taken by the menus.
def moveEvent (s : MenuBar) (wnds : List Shown) (x y : Int) : MenuBar :=
  (trackerMove (globalMenuHandleMouseMove s wnds x y).1 x y).1

def pressEvent (s : MenuBar) (wnds : List Shown) (x y : Int) : Handled :=
  let (s, handled, e) := globalMenuHandleMouseDown s wnds x y
  if handled then (s, true, e)
  else (if globalMenuIsOpen s then globalMenuClose s else s, false, e)

def keyEvent (s : MenuBar) (wnds : List Shown) (key : UInt32) : Handled :=
  let (s, handled, e) := globalMenuHandleKey s key
  if handled then (s, true, e)
  else
    let (tracker, taken, executed) :=
      trackerHandleKey s.tracker (wnds.map Shown.listed) (toID key.toNat)
    ({ s with tracker := tracker }, taken, effectOf executed)

def handle (s : MenuBar) (wnds : List Shown) : Event → MenuBar
  | .move x y => moveEvent s wnds x y
  | .press x y => (pressEvent s wnds x y).1
  | .key code => (keyEvent s wnds code).1

-- An event, with the window list that it finds.
def Step (s : MenuBar) (e : List Shown × Event) (s' : MenuBar) : Prop := s' = handle s e.1 e.2

-- The loop of `global_menu_render_overlay`: the rows from item i on.
def renderRows (h : Nat) (i : Nat) : Nat → List Rect
  | 0 => []
  | n + 1 =>
    let menuX := (headerRect h).left
    ⟨asH (menuX + 3), asH (28 + i * GMENU_ROW_HEIGHT), asH (menuX + GMENU_DROPDOWN_WIDTH - 3),
      asH (28 + (i + 1) * GMENU_ROW_HEIGHT)⟩ :: renderRows h (i + 1) n

-- The rows of the menu that is displayed, each with what it is for if it is enabled.
def globalMenuRenderOverlay (s : MenuBar) : List (Rect × Option Effect) :=
  if s.menu.activeMenu = GMENU_HDR_BTRON ∨ trackerIsMenuOpen s.tracker then
    (Tracker.trackerRenderMenu s.tracker).zipIdx.map fun r =>
      let it := s.tracker.items r.2
      (r.1, if it.enabled then some (.executed r.2 it.action) else none)
  else
    match s.menu.dropdown with
    | none => []
    | some h =>
      ((renderRows h 0 (s.menu.items h).length).zip (s.menu.items h).zipIdx).map fun r =>
        (r.1, if r.2.1.enabled then some (.command r.2.2 r.2.1.cmd) else none)

-- The state before the first event.
def start (wnds : List Shown) : MenuBar :=
  ⟨globalMenuInit .zero, Tracker.trackerInit .zero (wnds.map Shown.listed)⟩

end MenuBar

end BTron
