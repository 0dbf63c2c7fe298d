import BTron.Apps

namespace BTron.Cabinet

open Lib Graphics AppMenu Window Apps

def CCMD_FILE_OPEN : Int := 10
def CCMD_FILE_VIEW_TAD : Int := 11
def CCMD_FILE_NEW : Int := 12
def CCMD_FILE_CLOSE : Int := 15
def CCMD_EDIT_SELECT_ALL : Int := 20
def CCMD_EDIT_DESELECT : Int := 21
def CCMD_VIEW_LIST : Int := 30
def CCMD_VIEW_GRID : Int := 31
def CCMD_VIEW_SORT_NAME : Int := 32
def CCMD_VIEW_SORT_DATE : Int := 33
def CCMD_VIEW_SORT_SIZE : Int := 34
def CCMD_VIEW_SORT_TYPE : Int := 35
def CCMD_VIEW_REFRESH : Int := 36
def CCMD_HELP_ABOUT : Int := 50

-- CABINET_EXPLORER, of its items only their number, with the two variables of a double click. It
-- is a static variable, which no window frees.
structure Explorer where
  itemCount : Int
  selectedIdx : Int
  hoveredIdx : Int
  scrollOffset : Int
  grid : Bool
  sortMode : Int
  menuBar : Bar
  lastClickIdx : Int
  lastClickTime : Int

-- What the handler finds outside: the number of files in tad_bin, and the size of the icons.
structure Env where
  found : Int
  smallIcons : Bool

-- `found` files, or else the four of the list that is built in
def cabinetInitDefaults (cab : Explorer) (found : Int) : Explorer :=
  { cab with
      itemCount := if found > 0 then found else 4
      selectedIdx := 0
      hoveredIdx := -1
      scrollOffset := 0
      grid := false
      sortMode := 0
      menuBar := .zero }

def devWidth (wnd : Wnd) : Int := (wnd.dev.map Gdev.width).getD 560

-- The item at a point, or -1.
def Explorer.itemAt (cab : Explorer) (wnd : Wnd) (env : Env) (relX relY : Int) : Int :=
  let startY := 26
  if cab.grid then
    let colW := if env.smallIcons then 96 else 110
    let rowH := if env.smallIcons then 72 else 104
    let cols := (devWidth wnd - 16).tdiv colW
    let cols := if cols < 1 then 1 else cols
    let c := (relX - 12).tdiv colW
    let r := (relY - startY).tdiv rowH
    let idx := r * cols + c
    if c ≥ 0 ∧ c < cols ∧ r ≥ 0 ∧ relX ≥ 12 ∧ relY ≥ startY ∧ idx < cab.itemCount then idx
    else -1
  else
    let idx := cab.scrollOffset + (relY - startY).tdiv 22
    if idx ≥ 0 ∧ idx < cab.itemCount then idx else -1

def Explorer.selects (cab : Explorer) : Bool :=
  cab.selectedIdx ≥ 0 && cab.selectedIdx < cab.itemCount

-- `open_tad_browser_window` on the item that is selected
def openSelected (cab : Explorer) : Run Explorer := do
  if cab.selects then openWindow else pure ()
  pure cab

-- The commands that only change the explorer.
def Explorer.command (cab : Explorer) (env : Env) (cmd : Int) : Explorer :=
  if cmd = CCMD_EDIT_SELECT_ALL then { cab with selectedIdx := 0 }
  else if cmd = CCMD_EDIT_DESELECT then { cab with selectedIdx := -1 }
  else if cmd = CCMD_VIEW_LIST then { cab with grid := false }
  else if cmd = CCMD_VIEW_GRID then { cab with grid := true }
  else if cmd = CCMD_VIEW_SORT_NAME then { cab with sortMode := 0 }
  else if cmd = CCMD_VIEW_SORT_DATE then { cab with sortMode := 1 }
  else if cmd = CCMD_VIEW_SORT_SIZE then { cab with sortMode := 2 }
  else if cmd = CCMD_VIEW_SORT_TYPE then { cab with sortMode := 3 }
  else if cmd = CCMD_VIEW_REFRESH then cabinetInitDefaults cab env.found
  else cab

def menuCmd (cab : Explorer) (env : Env) (cmd : Int) : Run Explorer :=
  if cmd = CCMD_FILE_OPEN ∨ cmd = CCMD_FILE_VIEW_TAD then openSelected cab
  else if cmd = CCMD_FILE_NEW ∨ cmd = CCMD_HELP_ABOUT then do
    openWindow
    pure cab
  else if cmd = CCMD_FILE_CLOSE then do
    -- the window has no destroy hook
    Apps.clsWnd (pure ())
    pure cab
  else pure (cab.command env cmd)

-- `(UW)(uintptr_t)evt->data`, the time of a click
def clickTime (evt : DeskEvt) : Int := evt.data % 4294967296

def clickItem (cab : Explorer) (idx curTime : Int) : Run Explorer :=
  if idx ≥ 0 ∧ idx < cab.itemCount then do
    let isDouble : Bool := cab.lastClickIdx == idx &&
      ((curTime - cab.lastClickTime) % 4294967296 < 400 || cab.lastClickTime == 0)
    if isDouble then openWindow else pure ()
    pure { cab with selectedIdx := idx, lastClickIdx := idx, lastClickTime := curTime }
  else pure cab

def butDown (wnd : Wnd) (cab : Explorer) (env : Env) (relX relY curTime : Int) : Run Explorer := do
  touchWnd
  if devWidth wnd ≥ 560 ∧ relY ≥ 0 ∧ relY ≤ 21 ∧ relX ≥ 440 ∧ relX ≤ 542 then
    pure { cab with grid := !cab.grid }
  else
    let click := appMenuHandleMouseDown cab.menuBar relX relY
    let cab : Explorer := { cab with menuBar := click.bar }
    if click.handled then
      if click.cmd ≠ 0 then menuCmd cab env click.cmd else pure cab
    else do
      touchWnd
      clickItem cab (cab.itemAt wnd env relX relY) curTime

def BTRON_KEY_PAGE_UP : Nat := 0x4000004B
def BTRON_KEY_PAGE_DOWN : Nat := 0x4000004E

-- How many rows of the list there are to see.
def visibleRows (wnd : Wnd) : Int :=
  ((wnd.dev.map fun dev : Gdev Color => dev.height - 52).getD 240).tdiv 22

def selectNext (wnd : Wnd) (cab : Explorer) : Explorer :=
  if cab.selectedIdx < cab.itemCount - 1 then
    let selected := cab.selectedIdx + 1
    { cab with
        selectedIdx := selected
        scrollOffset :=
          if selected ≥ cab.scrollOffset + visibleRows wnd then selected - visibleRows wnd + 1
          else cab.scrollOffset }
  else cab

def selectPrev (cab : Explorer) : Explorer :=
  if cab.selectedIdx > 0 then
    let selected := cab.selectedIdx - 1
    { cab with
        selectedIdx := selected
        scrollOffset := if selected < cab.scrollOffset then selected else cab.scrollOffset }
  else cab

def Explorer.scrollTo (cab : Explorer) (offset : Int) : Explorer :=
  { cab with scrollOffset := offset, selectedIdx := offset }

def scrollKey (cab : Explorer) (key : Nat) : Explorer :=
  if key = Editor.BTRON_KEY_UP ∨ key = 0x6B then selectPrev cab
  else if key = BTRON_KEY_PAGE_UP then
    let offset := cab.scrollOffset - 8
    cab.scrollTo (if offset < 0 then 0 else offset)
  else if key = BTRON_KEY_PAGE_DOWN then
    let offset := cab.scrollOffset + 8
    cab.scrollTo (if offset > cab.itemCount - 1 then cab.itemCount - 1 else offset)
  else cab

def keyDown (wnd : Wnd) (cab : Explorer) (key : Nat) : Run Explorer :=
  let (bar, handled, _) := appMenuHandleKey cab.menuBar key
  let cab : Explorer := { cab with menuBar := bar }
  if handled then pure cab
  else if key = Editor.BTRON_KEY_DOWN ∨ key = 0x6A then do
    touchWnd
    pure (selectNext wnd cab)
  else if key = 10 ∨ key = 13 ∨ key = 0x20 then openSelected cab
  else pure (scrollKey cab key)

def mouseMove (wnd : Wnd) (cab : Explorer) (env : Env) (relX relY : Int) : Run Explorer :=
  let (bar, handled) := appMenuHandleMouseMove cab.menuBar relX relY
  let cab : Explorer := { cab with menuBar := bar }
  if handled then pure cab
  else do
    touchWnd
    pure { cab with hoveredIdx := cab.itemAt wnd env relX relY }

def handleVobjManagerEvent (wnd : Wnd) (cab : Explorer) (evt : DeskEvt) (env : Env) :
    Run Explorer := do
  touchWnd
  let (relX, relY) := relPos wnd evt
  match evt.type with
  | .EV_MOUSE_MOVE => mouseMove wnd cab env relX relY
  | .EV_BUT_DOWN => butDown wnd cab env relX relY (clickTime evt)
  | .EV_KEY_DOWN => keyDown wnd cab evt.key
  | _ => pure cab

end BTron.Cabinet
