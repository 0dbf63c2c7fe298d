import BTron.Apps
import BTron.TadBrowser.Browser

namespace BTron.TadBrowser

open Lib AppMenu Window Apps

def TCMD_FILE_OPEN_CASCADE : Int := 10
def TCMD_FILE_CLOSE : Int := 12
def TCMD_VIEW_BACK : Int := 20
def TCMD_VIEW_FORWARD : Int := 21
def TCMD_VIEW_HOME : Int := 22
def TCMD_VIEW_RELOAD : Int := 23
def TCMD_VIEW_ZOOM_IN : Int := 24
def TCMD_VIEW_ZOOM_OUT : Int := 25
def TCMD_VIEW_ZOOM_100 : Int := 26
def TCMD_VIEW_WRAP_TOGGLE : Int := 27
def TCMD_VOBJ_CABINET : Int := 32
def TCMD_HELP_ABOUT : Int := 40

-- TAD_BROWSER with its menus, whose state is also copied to fields that are only painted.
structure Viewer where
  tb : Browser
  menuBar : Bar
  zoomPercent : Int
  wrapText : Bool

-- What the handler finds outside: the files, the one that a load gets, those of the menu, the
-- height of a new layout, and the link under the pointer with its number and path.
structure Env where
  fileExists : List UB → Bool
  file : File
  tadFiles : List (List UB)
  docHeight : Int
  link : Option (Int × List UB)

def tadBrowserGoHome (tb : Browser) (env : Env) : Browser :=
  (tadBrowserNavigate tb env.fileExists (some (utf8 "tad_bin/01_btron3_spec.tad")) env.file).1

def tadBrowserReload (tb : Browser) (env : Env) : Browser :=
  if tb.filePath = [] then tb
  else { (tadBrowserLoadFile tb (some tb.filePath) env.file).1 with scrollY := tb.scrollY }

-- The pointer in the document, and in the strip above it on a click. The path of a link that is
-- clicked is returned.
def tadBrowserHandleMouse (tb : Browser) (env : Env) (mouseX mouseY : Int) (isClick : Bool) :
    Browser × List UB :=
  if mouseY ≥ 0 ∧ mouseY ≤ 30 then
    if !isClick then (tb, [])
    else if mouseX ≥ 6 ∧ mouseX ≤ 70 then ((tadBrowserGoBack tb env.file).1, [])
    else if mouseX ≥ 76 ∧ mouseX ≤ 144 then ((tadBrowserGoForward tb env.file).1, [])
    else if mouseX ≥ 150 ∧ mouseX ≤ 210 then (tadBrowserGoHome tb env, [])
    else if mouseX ≥ 216 ∧ mouseX ≤ 286 then (tadBrowserReload tb env, [])
    else (tb, [])
  else
    match env.link with
    | none => ({ tb with hoveredLinkIdx := -1 }, [])
    | some (i, path) =>
      if isClick then ({ tb with hoveredLinkIdx := i, activeLinkIdx := i }, path)
      else ({ tb with hoveredLinkIdx := i }, [])

def Viewer.zoomIn (v : Viewer) : Viewer :=
  let zoom := v.zoomPercent + 10
  { v with zoomPercent := if zoom > 200 then 200 else zoom }

def Viewer.zoomOut (v : Viewer) : Viewer :=
  let zoom := v.zoomPercent - 10
  { v with zoomPercent := if zoom < 50 then 50 else zoom }

def Viewer.withTb (v : Viewer) (tb : Browser) : Viewer := { v with tb := tb }

-- The commands that only change the browser.
def Viewer.command (v : Viewer) (env : Env) (cmd : Int) : Viewer :=
  if cmd = TCMD_VIEW_BACK then v.withTb (tadBrowserGoBack v.tb env.file).1
  else if cmd = TCMD_VIEW_FORWARD then v.withTb (tadBrowserGoForward v.tb env.file).1
  else if cmd = TCMD_VIEW_HOME then v.withTb (tadBrowserGoHome v.tb env)
  else if cmd = TCMD_VIEW_RELOAD then v.withTb (tadBrowserReload v.tb env)
  else if cmd = TCMD_VIEW_ZOOM_IN then v.zoomIn
  else if cmd = TCMD_VIEW_ZOOM_OUT then v.zoomOut
  else if cmd = TCMD_VIEW_ZOOM_100 then { v with zoomPercent := 100 }
  else if cmd = TCMD_VIEW_WRAP_TOGGLE then
    { v with wrapText := !v.wrapText, tb := { v.tb with docHeight := env.docHeight } }
  else v

def Viewer.openListed (v : Viewer) (env : Env) (subIdx : Int) : Viewer :=
  match env.tadFiles[subIdx.toNat]? with
  | some name => v.withTb (tadBrowserNavigate v.tb env.fileExists (some name) env.file).1
  | none => v

def menuCmd (wnd : Wnd) (v : Viewer) (env : Env) (cmd subIdx : Int) : Run Viewer :=
  if cmd = TCMD_FILE_OPEN_CASCADE ∧ subIdx ≥ 0 then do
    touchState
    pure (v.openListed env subIdx)
  else if cmd = TCMD_FILE_CLOSE then do
    Apps.clsWnd (destroyState wnd)
    pure v
  else if cmd = TCMD_VOBJ_CABINET ∨ cmd = TCMD_HELP_ABOUT then do
    openWindow
    pure v
  else do
    touchState
    pure (v.command env cmd)

-- A click below the menu: the buttons of the tool bar, and the document.
def clickBrowser (v : Viewer) (env : Env) (relX relY : Int) : Viewer :=
  if relY ≥ 22 ∧ relY ≤ 46 then
    if relX ≥ 6 ∧ relX ≤ 68 then v.withTb (tadBrowserGoBack v.tb env.file).1
    else if relX ≥ 72 ∧ relX ≤ 134 then v.withTb (tadBrowserGoForward v.tb env.file).1
    else if relX ≥ 138 ∧ relX ≤ 200 then v.withTb (tadBrowserGoHome v.tb env)
    else if relX ≥ 204 ∧ relX ≤ 266 then v.withTb (tadBrowserReload v.tb env)
    else v
  else
    let (tb, path) := tadBrowserHandleMouse v.tb env relX relY true
    if path ≠ [] then v.withTb (tadBrowserNavigate tb env.fileExists (some path) env.file).1
    else v.withTb tb

def butDown (wnd : Wnd) (v : Viewer) (env : Env) (relX relY : Int) : Run Viewer := do
  touchState
  let click := appMenuHandleMouseDown v.menuBar relX relY
  let v : Viewer := { v with menuBar := click.bar }
  if click.handled then
    if click.cmd ≠ 0 then menuCmd wnd v env click.cmd click.subitem else pure v
  else do
    touchState
    pure (clickBrowser v env relX relY)

def mouseMove (v : Viewer) (env : Env) (relX relY : Int) : Viewer :=
  let (bar, handled) := appMenuHandleMouseMove v.menuBar relX relY
  let v : Viewer := { v with menuBar := bar }
  if handled then v
  else if relY ≥ 48 then v.withTb (tadBrowserHandleMouse v.tb env relX relY false).1
  else v

def BTRON_KEY_PAGE_UP : Nat := 0x4000004B
def BTRON_KEY_PAGE_DOWN : Nat := 0x4000004E

def keyDown (v : Viewer) (env : Env) (key : Nat) : Viewer :=
  let (bar, handled, _) := appMenuHandleKey v.menuBar key
  let v : Viewer := { v with menuBar := bar }
  if handled then v
  else if key = Editor.BTRON_KEY_BACKSPACE ∨ key = 0x62 ∨ key = 0x42 then
    v.withTb (tadBrowserGoBack v.tb env.file).1
  else if key = 0x66 ∨ key = 0x46 then v.withTb (tadBrowserGoForward v.tb env.file).1
  else if key = 0x68 ∨ key = 0x48 then v.withTb (tadBrowserGoHome v.tb env)
  else if key = 0x72 ∨ key = 0x52 then v.withTb (tadBrowserReload v.tb env)
  else if key = 0x2B ∨ key = 0x3D then v.zoomIn
  else if key = 0x2D then v.zoomOut
  else if key = 0x30 then { v with zoomPercent := 100 }
  else if key = Editor.BTRON_KEY_UP ∨ key = 0x6B then v.withTb (tadBrowserScroll v.tb (-24))
  else if key = Editor.BTRON_KEY_DOWN ∨ key = 0x6A then v.withTb (tadBrowserScroll v.tb 24)
  else if key = BTRON_KEY_PAGE_UP then
    v.withTb (tadBrowserScroll v.tb (-v.tb.pageHeight + 40))
  else if key = BTRON_KEY_PAGE_DOWN ∨ key = 0x20 then
    v.withTb (tadBrowserScroll v.tb (v.tb.pageHeight - 40))
  else v

def handleTadBrowserEvent (wnd : Wnd) (v : Viewer) (evt : DeskEvt) (env : Env) : Run Viewer := do
  touchWnd
  let (relX, relY) := relPos wnd evt
  match evt.type with
  | .EV_MOUSE_MOVE => do
    touchState
    pure (mouseMove v env relX relY)
  | .EV_BUT_DOWN => butDown wnd v env relX relY
  | .EV_KEY_DOWN => do
    touchState
    pure (keyDown v env evt.key)
  | _ => pure v

end BTron.TadBrowser
