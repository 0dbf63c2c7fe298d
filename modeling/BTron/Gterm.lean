import BTron.Apps
import BTron.Lib.Search

namespace BTron.Gterm

open Lib AppMenu Window Apps

def GTERM_MAX_COLS : Int := 256
def GTERM_CMD_HIST_MAX : Nat := 32

-- The menu commands.
def TCMD_FILE_NEW_TERM : Int := 1
def TCMD_FILE_SAVE_LOG : Int := 2
def TCMD_FILE_CLOSE : Int := 3
def TCMD_EDIT_COPY : Int := 10
def TCMD_EDIT_PASTE : Int := 11
def TCMD_EDIT_CLEAR : Int := 12
def TCMD_EDIT_CANCEL : Int := 13
def TCMD_EDIT_SELECT_ALL : Int := 14
def TCMD_VIEW_FONT_12 : Int := 20
def TCMD_VIEW_FONT_16 : Int := 21
def TCMD_VIEW_FONT_20 : Int := 22
def TCMD_VIEW_COL_GREEN : Int := 25
def TCMD_VIEW_COL_AMBER : Int := 26
def TCMD_VIEW_COL_WHITE : Int := 27
def TCMD_VIEW_COL_CYAN : Int := 28
def TCMD_VIEW_COL_LIGHT : Int := 29
def TCMD_VIEW_TRANS_100 : Int := 31
def TCMD_VIEW_TRANS_80 : Int := 32
def TCMD_VIEW_TRANS_60 : Int := 33
def TCMD_TERM_RESET : Int := 40
def TCMD_TERM_HIST_100 : Int := 41
def TCMD_TERM_HIST_300 : Int := 42
def TCMD_TERM_HIST_1000 : Int := 43
def TCMD_TERM_CUR_LINE : Int := 44
def TCMD_TERM_CUR_BLOCK : Int := 45
def TCMD_TERM_CUR_BAR : Int := 46
def TCMD_TERM_SETTINGS : Int := 47
def TCMD_HELP_CMDS : Int := 50
def TCMD_HELP_ABOUT : Int := 51

-- GTermState without the lines above the prompt and the settings they are shown with, which are
-- only painted. The buffers are strings, and `input_len` is the length of one.
structure GTermState where
  inputBuf : List UB
  prompt : List UB
  cmdHistory : List (List UB)
  cmdHistIdx : Int
  menuBar : Bar

def GTermState.inputLen (st : GTermState) : Int := st.inputBuf.length

-- How long the input may become.
def GTermState.room (st : GTermState) : Int := GTERM_MAX_COLS - st.prompt.length - 2

def GTermState.input (st : GTermState) (buf : List UB) : GTermState := { st with inputBuf := buf }

def word (s : String) : List UB := Utf8.bytes s.toList

-- What `gterm_init_banner` leaves: the menu bar, too, is zeroed.
def gtermInitBanner : GTermState := ⟨[], word "btron:/> ", [], 0, .zero⟩

-- The menu bar that `gterm_init_menu_bar` builds: File, Edit, View, Terminal and Help.
def gtermMenuBar : Bar :=
  let item (h : Nat) (bar : Bar) (cmd : Int) : Bar := appMenuAddItem bar h cmd true
  let bar := appMenuAddHeader appMenuInit 104
  let bar := [TCMD_FILE_NEW_TERM, TCMD_FILE_SAVE_LOG].foldl (item 0) bar
  let bar := item 0 (appMenuAddSeparator bar 0) TCMD_FILE_CLOSE
  let bar := appMenuAddHeader bar 72
  let bar := [TCMD_EDIT_COPY, TCMD_EDIT_PASTE].foldl (item 1) bar
  let bar := [TCMD_EDIT_CLEAR, TCMD_EDIT_CANCEL, TCMD_EDIT_SELECT_ALL].foldl (item 1)
    (appMenuAddSeparator bar 1)
  let bar := appMenuAddHeader bar 72
  let bar := [TCMD_VIEW_FONT_12, TCMD_VIEW_FONT_16, TCMD_VIEW_FONT_20].foldl (item 2) bar
  let bar := [TCMD_VIEW_COL_GREEN, TCMD_VIEW_COL_AMBER, TCMD_VIEW_COL_WHITE, TCMD_VIEW_COL_CYAN,
    TCMD_VIEW_COL_LIGHT].foldl (item 2) (appMenuAddSeparator bar 2)
  let bar := [TCMD_VIEW_TRANS_100, TCMD_VIEW_TRANS_80, TCMD_VIEW_TRANS_60].foldl (item 2)
    (appMenuAddSeparator bar 2)
  let bar := item 3 (appMenuAddHeader bar 72) TCMD_TERM_RESET
  let bar := [TCMD_TERM_HIST_100, TCMD_TERM_HIST_300, TCMD_TERM_HIST_1000].foldl (item 3)
    (appMenuAddSeparator bar 3)
  let bar := [TCMD_TERM_CUR_LINE, TCMD_TERM_CUR_BLOCK, TCMD_TERM_CUR_BAR].foldl (item 3)
    (appMenuAddSeparator bar 3)
  let bar := item 3 (appMenuAddSeparator bar 3) TCMD_TERM_SETTINGS
  [TCMD_HELP_CMDS, TCMD_HELP_ABOUT].foldl (item 4) (appMenuAddHeader bar 88)

-- The lines of a text go to the state, whatever they are.
def gtermAppendLine : Run Unit := touchState

def gtermShellOut : Run Unit := gtermAppendLine

def isspace (c : UB) : Bool :=
  c == 0x20 || c == 0x09 || c == 0x0A || c == 0x0D || c == 0x0C || c == 0x0B

-- The first word of a command line, as it is copied into 64 bytes.
def shellWord (cmdLine : List UB) : List UB :=
  ((cmdLine.dropWhile isspace).takeWhile fun c => !isspace c).take 63

-- The commands that only print, and those that print after they have opened a window.
def printing : List String :=
  ["help", "?", "ski", "bootman", "boot", "ver", "uname", "devconf", "mem", "mouse", "pwd", "cd",
    "ls", "dir", "cat", "echo", "desktop", "startx", "gui", "vobj", "date"]

def opening : List String :=
  ["editor", "edit", "tad", "browser", "chat", "audio", "player", "cassette", "cabinet",
    "vobjmgr", "gterm", "term"]

def closing : List String := ["exit", "quit"]

def shellExecuteCmd (cmdLine : List UB) (wnd : Wnd) : Run Unit :=
  let cmd := shellWord cmdLine
  if cmdLine.dropWhile isspace = [] then pure ()
  else if cmd ∈ printing.map word then gtermShellOut
  else if cmd = word "ps" then do
    -- the table of all windows
    touchWnd
    gtermShellOut
  else if cmd ∈ opening.map word then do
    openWindow
    gtermShellOut
  else if cmd ∈ ["clear", "cls"].map word then pure ()
  else if cmd ∈ closing.map word then Apps.clsWnd (destroyState wnd)
  else gtermShellOut

-- A command line is recorded in the history.
def GTermState.record (st : GTermState) (cmdLine : List UB) : GTermState :=
  let hist := st.cmdHistory
  let hist := if hist.length < GTERM_CMD_HIST_MAX then hist else hist.drop 1
  let hist := if cmdLine ≠ [] then hist ++ [cmdLine.take 255] else st.cmdHistory
  { st with cmdHistory := hist, cmdHistIdx := hist.length }

def gtermExecuteCmd (wnd : Wnd) (st : GTermState) (cmdLine : List UB) : Run GTermState := do
  gtermAppendLine
  touchState
  if cmdLine ∈ ["history", "clear", "cls"].map word then do
    touchState
    pure (st.record cmdLine)
  else do
    shellExecuteCmd cmdLine wnd
    pure (st.record cmdLine)

-- The commands that only change a setting of the display.
def display : List Int :=
  [TCMD_EDIT_CLEAR, TCMD_VIEW_FONT_12, TCMD_VIEW_FONT_16, TCMD_VIEW_FONT_20, TCMD_VIEW_COL_GREEN,
    TCMD_VIEW_COL_AMBER, TCMD_VIEW_COL_WHITE, TCMD_VIEW_COL_CYAN, TCMD_VIEW_COL_LIGHT,
    TCMD_VIEW_TRANS_100, TCMD_VIEW_TRANS_80, TCMD_VIEW_TRANS_60, TCMD_TERM_HIST_100,
    TCMD_TERM_HIST_300, TCMD_TERM_HIST_1000, TCMD_TERM_CUR_LINE, TCMD_TERM_CUR_BLOCK,
    TCMD_TERM_CUR_BAR]

def gtermDispatchCmd (wnd : Wnd) (st : GTermState) (cmd : Int) : Run GTermState :=
  if cmd ∈ [TCMD_FILE_NEW_TERM, TCMD_TERM_SETTINGS, TCMD_HELP_ABOUT] then do
    openWindow
    pure st
  else if cmd = TCMD_FILE_SAVE_LOG then do
    gtermAppendLine
    pure st
  else if cmd = TCMD_FILE_CLOSE then do
    Apps.clsWnd (destroyState wnd)
    pure st
  else if cmd = TCMD_EDIT_CANCEL then do
    touchState
    pure (st.input [])
  else if cmd ∈ display then do
    touchState
    pure st
  else if cmd = TCMD_TERM_RESET then do
    touchState
    gtermExecuteCmd wnd gtermInitBanner (word "ver")
  else if cmd = TCMD_HELP_CMDS then do
    shellExecuteCmd (word "help") wnd
    pure st
  else pure st

-- Where the last character of a text starts.
def lastStart (buf : List UB) : Nat :=
  backWhile (fun k => Utf8.isCont (buf.getD (k + 1) 0)) 0 (buf.length - 1)

-- The line of the history that the arrow keys go to.
def GTermState.recall (st : GTermState) (idx : Int) : GTermState :=
  { st with cmdHistIdx := idx, inputBuf := st.cmdHistory.getD idx.toNat [] }

def isReturn (key : Nat) : Bool :=
  key == Editor.BTRON_KEY_RETURN || key == Editor.BTRON_KEY_KP_ENTER || key == 10

-- The keys that edit the input.
def editKey (st : GTermState) (key mod : Nat) : GTermState :=
  let ctrl : Bool := mod &&& Editor.BTRON_KMOD_CTRL != 0
  if key = Editor.BTRON_KEY_BACKSPACE then
    if st.inputLen > 0 then st.input (st.inputBuf.take (lastStart st.inputBuf)) else st
  else if key = Editor.BTRON_KEY_UP then
    if st.cmdHistory.length > 0 ∧ st.cmdHistIdx > 0 then st.recall (st.cmdHistIdx - 1) else st
  else if key = Editor.BTRON_KEY_DOWN then
    if st.cmdHistIdx < st.cmdHistory.length - 1 then st.recall (st.cmdHistIdx + 1)
    else { st with cmdHistIdx := st.cmdHistory.length, inputBuf := [] }
  else if key = Editor.BTRON_KEY_TAB then
    if st.inputLen + 4 < st.room then st.input (st.inputBuf ++ word "    ") else st
  else if !ctrl ∧ key ≥ 32 ∧ key ≤ 126 then
    if st.inputLen < st.room then
      st.input (st.inputBuf ++ [Editor.getAsciiCharWithShift key mod])
    else st
  else st

-- The keys with Ctrl that TIP is not asked about: C, L and U.
def ctrlKey (st : GTermState) (key : Nat) : Option (Run GTermState) :=
  if key = 0x63 ∨ key = 0x43 then
    some do
      gtermAppendLine
      touchState
      pure (st.input [])
  else if key = 0x6C ∨ key = 0x4C then
    some do
      touchState
      pure st
  else if key = 0x75 ∨ key = 0x55 then
    some do
      touchState
      pure (st.input [])
  else none

-- `tip` is the text TIP commits when it takes the key.
def keyDown (wnd : Wnd) (st : GTermState) (key mod : Nat) (tip : Option (List UB)) :
    Run GTermState :=
  match (if mod &&& Editor.BTRON_KMOD_CTRL ≠ 0 then ctrlKey st key else none) with
  | some run => run
  | none =>
    match tip with
    | some commit => do
      touchState
      pure (if commit ≠ [] ∧ st.inputLen + commit.length < st.room then
        st.input (st.inputBuf ++ commit) else st)
    | none =>
      if isReturn key then do
        let st ← gtermExecuteCmd wnd st st.inputBuf
        touchState
        pure (st.input [])
      else do
        touchState
        pure (editKey st key mod)

def butDown (wnd : Wnd) (st : GTermState) (relX relY : Int) : Run GTermState := do
  touchState
  let click : Click :=
    if st.menuBar.headers.length > 0 then appMenuHandleMouseDown st.menuBar relX relY
    else ⟨st.menuBar, false, 0, -1⟩
  let st : GTermState := { st with menuBar := click.bar }
  if click.handled then
    if click.cmd ≠ 0 then gtermDispatchCmd wnd st click.cmd else pure st
  else do
    touchState
    pure { st with
      menuBar := if st.menuBar.activeMenu ≥ 0 then appMenuClose st.menuBar else st.menuBar }

def handleGtermEvent (wnd : Wnd) (st : GTermState) (evt : DeskEvt) (tip : Option (List UB)) :
    Run GTermState := do
  touchWnd
  if wnd.userData = 0 then pure st
  else
    let (relX, relY) := relPos wnd evt
    match evt.type with
    | .EV_MOUSE_MOVE => do
      touchState
      pure { st with
        menuBar := if st.menuBar.headers.length > 0 then
          (appMenuHandleMouseMove st.menuBar relX relY).1 else st.menuBar }
    | .EV_BUT_DOWN => butDown wnd st relX relY
    | .EV_KEY_DOWN => keyDown wnd st evt.key (modOf evt) tip
    | _ => pure st

-- What `paint_gterm` changes: a menu bar without headers is built.
def paintMenuBar (st : GTermState) : GTermState :=
  if st.menuBar.headers.length = 0 then { st with menuBar := gtermMenuBar } else st

end BTron.Gterm
