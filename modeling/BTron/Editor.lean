import BTron.AppMenu
import BTron.Lib.CArray
import BTron.Lib.CString
import BTron.Lib.Utf8
import BTron.TronCode
import BTron.Window
import Mathlib.Data.List.DropRight

namespace BTron.Editor

open AppMenu Graphics Lib Lib.CArray TronCode Window

def TEDITOR_MAX_ROWS : Int := 1000
def TEDITOR_MAX_LINES : Int := 1000
def TEDITOR_MAX_COLS : Int := 512
def TEDITOR_VIEW_ROWS : Int := 14
def TEDITOR_VIEW_COLS : Int := 80

-- `sizeof(g_clipboard)`
def CLIPBOARD_SIZE : Int := 2048

-- TEditor, without the virtual body that is only painted.
structure TEditor where
  lines : Int → Bytes
  totalLines : Int
  cursorRow : Int
  cursorCol : Int
  selActive : Bool
  selStartR : Int
  selStartC : Int
  selEndR : Int
  selEndC : Int
  scrollRow : Int
  scrollCol : Int
  filename : List UB
  isModified : Bool
  activeMenu : Int
  hoverMenu : Int
  hoverItem : Int
  activeSubmenu : Int
  hoverSubitem : Int
  showLineNums : Bool
  menuBar : Bar

-- What `calloc` and `memset` leave.
def TEditor.zero : TEditor :=
  { lines := fun _ _ => 0, totalLines := 0, cursorRow := 0, cursorCol := 0, selActive := false,
    selStartR := 0, selStartC := 0, selEndR := 0, selEndC := 0, scrollRow := 0, scrollCol := 0,
    filename := [], isModified := false, activeMenu := 0, hoverMenu := 0, hoverItem := 0,
    activeSubmenu := 0, hoverSubitem := 0, showLineNums := false, menuBar := .zero }

-- The editor with g_clipboard.
structure State where
  ed : TEditor
  clipboard : Bytes

-- `ed->lines[r]`, which fails outside the line array.
def TEditor.line (ed : TEditor) (r : Int) : Option Bytes :=
  if 0 ≤ r ∧ r < TEDITOR_MAX_ROWS then some (ed.lines r) else none

def TEditor.setLine (ed : TEditor) (r : Int) (a : Bytes) : TEditor :=
  { ed with lines := Function.update ed.lines r a }

def strlenLine (a : Bytes) : Option Int := strlen TEDITOR_MAX_COLS a

-- `strncpy(ed->lines[dst], ed->lines[src], TEDITOR_MAX_COLS - 1)`
def copyLine (ed : TEditor) (dst src : Int) : Option TEditor := do
  let a ← ed.line dst
  let b ← ed.line src
  let a ← strncpy TEDITOR_MAX_COLS a 0 TEDITOR_MAX_COLS b 0 (TEDITOR_MAX_COLS - 1)
  some (ed.setLine dst a)

-- `n` turns of `lines[i] = lines[i + off]` with growing `i`.
def shiftUp (ed : TEditor) (off : Int) : Nat → Int → Option TEditor
  | 0, _ => some ed
  | n + 1, i => do
    let ed ← copyLine ed i (i + off)
    shiftUp ed off n (i + 1)

-- `n` turns of `lines[i] = lines[i - 1]` with falling `i`.
def shiftDown (ed : TEditor) : Nat → Int → Option TEditor
  | 0, _ => some ed
  | n + 1, i => do
    let ed ← copyLine ed i (i - 1)
    shiftDown ed n (i - 1)

def teditorEnsureCursorVisible (ed : TEditor) : TEditor :=
  let row := if ed.cursorRow < ed.scrollRow then ed.cursorRow else ed.scrollRow
  let row :=
    if ed.cursorRow ≥ row + TEDITOR_VIEW_ROWS then ed.cursorRow - TEDITOR_VIEW_ROWS + 1 else row
  let row := if row < 0 then 0 else row
  let col := if ed.cursorCol < ed.scrollCol then ed.cursorCol else ed.scrollCol
  let col :=
    if ed.cursorCol ≥ col + TEDITOR_VIEW_COLS then ed.cursorCol - TEDITOR_VIEW_COLS + 1 else col
  let col := if col < 0 then 0 else col
  { ed with scrollRow := row, scrollCol := col }

-- The two endpoints of the selection in their order: (r1, c1, r2, c2).
def TEditor.selection (ed : TEditor) : Int × Int × Int × Int :=
  let r1 := ed.selStartR
  let c1 := ed.selStartC
  let r2 := ed.selEndR
  let c2 := ed.selEndC
  if r1 > r2 ∨ (r1 = r2 ∧ c1 > c2) then (r2, c2, r1, c1) else (r1, c1, r2, c2)

-- The deletion within one line.
def deleteWithin (ed : TEditor) (r1 c1 c2 : Int) : Option TEditor := do
  let a ← ed.line r1
  let len ← strlenLine a
  if c1 < len then
    let removeLen := (if c2 > len then len else c2) - c1
    let a ← memmove TEDITOR_MAX_COLS a c1 (c1 + removeLen) (len - (c1 + removeLen) + 1)
    some (ed.setLine r1 a)
  else some ed

-- The deletion from one line into a later one.
def deleteAcross (ed : TEditor) (r1 c1 r2 c2 : Int) : Option TEditor := do
  let b ← ed.line r2
  let tailLen ← strlenLine b
  let keepC2 := if c2 < tailLen then c2 else tailLen
  let a ← ed.line r1
  let a ← strncpy TEDITOR_MAX_COLS a c1 TEDITOR_MAX_COLS b keepC2 (TEDITOR_MAX_COLS - c1 - 1)
  let ed := ed.setLine r1 a
  let removeLines := r2 - r1
  let ed ← shiftUp ed removeLines (ed.totalLines - removeLines - (r1 + 1)).toNat (r1 + 1)
  let total := ed.totalLines - removeLines
  some { ed with totalLines := if total < 1 then 1 else total }

def teditorDeleteSelection (ed : TEditor) : Option TEditor :=
  if !ed.selActive then some ed
  else do
    let (r1, c1, r2, c2) := ed.selection
    let ed ← if r1 = r2 then deleteWithin ed r1 c1 c2 else deleteAcross ed r1 c1 r2 c2
    some { ed with cursorRow := r1, cursorCol := c1, selActive := false, isModified := true }

-- `g_clipboard[pos]` and so on get `n` bytes of the line from `start` on.
def copyOut (clip : Bytes) (pos : Int) (a : Bytes) (start n : Int) : Option Bytes :=
  strncpy CLIPBOARD_SIZE clip pos TEDITOR_MAX_COLS a start n

-- What is selected of a line, when the clipboard has room for it.
def copyPart (clip : Bytes) (pos : Int) (str : Bytes) (start stop : Int) : Option (Bytes × Int) :=
  if start < stop ∧ pos + (stop - start) < CLIPBOARD_SIZE - 2 then
    (copyOut clip pos str start (stop - start)).map fun clip => (clip, pos + (stop - start))
  else some (clip, pos)

def copyBreak (clip : Bytes) (pos : Int) : Option (Bytes × Int) :=
  if pos < CLIPBOARD_SIZE - 2 then do
    let clip ← set CLIPBOARD_SIZE clip pos 10
    let clip ← set CLIPBOARD_SIZE clip (pos + 1) 0
    some (clip, pos + 1)
  else some (clip, pos)

-- The loop over the lines of a selection of several.
def copyLines (ed : TEditor) (r1 c1 r2 c2 : Int) : Nat → Int → Int → Bytes → Option Bytes
  | 0, _, _, clip => some clip
  | n + 1, r, pos, clip => do
    let str ← ed.line r
    let len ← strlenLine str
    let start := if r = r1 then c1 else 0
    let stop := if r = r2 then (if c2 < len then c2 else len) else len
    let (clip, pos) ← copyPart clip pos str start stop
    let (clip, pos) ← if r < r2 then copyBreak clip pos else some (clip, pos)
    copyLines ed r1 c1 r2 c2 n (r + 1) pos clip

def teditorCopySelection (s : State) : Option State :=
  let ed := s.ed
  if !ed.selActive then do
    -- the line of the cursor
    let a ← ed.line ed.cursorRow
    let clip ← copyOut s.clipboard 0 a 0 (CLIPBOARD_SIZE - 1)
    some { s with clipboard := clip }
  else do
    let (r1, c1, r2, c2) := ed.selection
    let clip ← set CLIPBOARD_SIZE s.clipboard 0 0
    if r1 = r2 then do
      let a ← ed.line r1
      let len ← strlenLine a
      let endC := if c2 < len then c2 else len
      if c1 < endC then do
        -- `snprintf(g_clipboard, ..., "%.*s", end_c - c1, ...)`
        let stop ← strnlen TEDITOR_MAX_COLS a (endC - c1).toNat c1
        let clip ← copyOut clip 0 a c1 (stop - c1)
        let clip ← set CLIPBOARD_SIZE clip (stop - c1) 0
        some { s with clipboard := clip }
      else some { s with clipboard := clip }
    else do
      let last := if r2 < ed.totalLines then r2 + 1 else ed.totalLines
      let clip ← copyLines ed r1 c1 r2 c2 (last - r1).toNat r1 0 clip
      some { s with clipboard := clip }

-- The line at the cursor is split there, and what follows becomes a line of its own.
def splitLine (ed : TEditor) : Option TEditor := do
  let r := ed.cursorRow
  let c := ed.cursorCol
  let ed ← shiftDown ed (ed.totalLines - (r + 1)).toNat ed.totalLines
  let a ← ed.line r
  let b ← ed.line (r + 1)
  let b ← strncpy TEDITOR_MAX_COLS b 0 TEDITOR_MAX_COLS a c (TEDITOR_MAX_COLS - 1)
  let a ← set TEDITOR_MAX_COLS a c 0
  let ed := (ed.setLine (r + 1) b).setLine r a
  some { ed with totalLines := ed.totalLines + 1, cursorRow := r + 1, cursorCol := 0 }

-- A text goes in at the cursor when the line has room for it.
def insertAt (ed : TEditor) (text : List UB) : Option (TEditor × Bool) := do
  let r := ed.cursorRow
  let c := ed.cursorCol
  let a ← ed.line r
  let curLen ← strlenLine a
  let insLen : Int := text.length
  if curLen + insLen < TEDITOR_MAX_COLS - 1 then do
    let a ← memmove TEDITOR_MAX_COLS a (c + insLen) c (curLen - c + 1)
    let a ← memcpy TEDITOR_MAX_COLS a c text
    some ({ ed.setLine r a with cursorCol := c + insLen }, true)
  else some (ed, false)

-- One turn of the paste loop, with the bytes of the clipboard up to the next line end.
def pasteLine (ed : TEditor) (first : Bool) (line : List UB) : Option TEditor := do
  let ed ← if !first ∧ ed.totalLines < TEDITOR_MAX_LINES - 1 then splitLine ed else some ed
  (insertAt ed line).map Prod.fst

def pasteLoop (ed : TEditor) (first : Bool) : Nat → List UB → Option TEditor
  | 0, _ => some ed
  | fuel + 1, p =>
    if p = [] then some ed
    else do
      let line := (p.takeWhile (· != 10)).take (TEDITOR_MAX_COLS - 1).toNat
      let p := p.drop line.length
      let p := if p.head? = some 10 then p.tail else p
      let ed ← pasteLine ed first line
      pasteLoop ed false fuel p

-- The bytes of the clipboard up to its NUL.
def clipText (clip : Bytes) : Option (List UB) :=
  (strlen CLIPBOARD_SIZE clip).map fun n => (List.range n.toNat).map fun (k : Nat) => clip k

def teditorPasteClipboard (s : State) : Option State := do
  let p ← clipText s.clipboard
  if p = [] then some s
  else do
    let ed ← teditorDeleteSelection s.ed
    let ed ← pasteLoop ed true p.length p
    some { s with ed := teditorEnsureCursorVisible { ed with isModified := true } }

def teditorInsertChar (ed : TEditor) (ch : UB) : Option TEditor := do
  let ed ← teditorDeleteSelection ed
  let r := ed.cursorRow
  let c := ed.cursorCol
  let a ← ed.line r
  let len ← strlenLine a
  let ed ←
    if len < TEDITOR_MAX_COLS - 1 then do
      let a ← memmove TEDITOR_MAX_COLS a (c + 1) c (len - c + 1)
      let a ← set TEDITOR_MAX_COLS a c ch
      some { ed.setLine r a with cursorCol := c + 1, isModified := true }
    else some ed
  some (teditorEnsureCursorVisible ed)

def teditorInsertText (ed : TEditor) (text : List UB) : Option TEditor :=
  if text = [] then some ed
  else do
    let ed ← teditorDeleteSelection ed
    let (ed, inserted) ← insertAt ed text
    let ed := if inserted then { ed with isModified := true } else ed
    some (teditorEnsureCursorVisible ed)

-- The length of a character, by its first byte.
def utf8Len (b : UB) : Int :=
  if b &&& 0x80 = 0 then 1
  else if b &&& 0xE0 = 0xC0 then 2
  else if b &&& 0xF0 = 0xE0 then 3
  else if b &&& 0xF8 = 0xF0 then 4
  else 1

def utf8NextOffset (s : Bytes) (curOffset : Int) : Option Int := do
  let len ← strlenLine s
  if curOffset ≥ len then some curOffset
  else some (curOffset + utf8Len (s curOffset))

-- Back from `pos` to the first byte that is no continuation byte.
def prevFrom (s : Bytes) : Nat → Int
  | 0 => 0
  | pos + 1 => if s (pos + 1 : Nat) &&& 0xC0 = 0x80 then prevFrom s pos else (pos + 1 : Nat)

def utf8PrevOffset (s : Bytes) (curOffset : Int) : Option Int :=
  if curOffset ≤ 0 then some 0
  else if curOffset ≤ TEDITOR_MAX_COLS then some (prevFrom s (curOffset - 1).toNat)
  else none

def tcGetCharAdvance (code prevCode : TC) : Int :=
  if code >>> 8 = 0x6F then
    let cp := 0x0F00 + (code &&& 0xFF)
    if (cp ≥ 0x0F71 ∧ cp ≤ 0x0F84) ∨ (cp ≥ 0x0F90 ∧ cp ≤ 0x0FBC) then 0
    else if cp = 0x0F0B ∨ cp = 0x0F0C ∨ cp = 0x0F0D ∨ cp = 0x0F0E then 3
    else 8
  else if code = 0x20 then (if prevCode = 0x6F0B then 0 else 6)
  else if code < 128 ∨ code >>> 8 = 0x27 then 8
  else 16

-- The line array from the line `r` on, and how many bytes there are to its end.
def TEditor.bytesFrom (ed : TEditor) (r : Int) : Memory := fun k =>
  ed.lines (r + k / TEDITOR_MAX_COLS) (k % TEDITOR_MAX_COLS)

def bytesLeft (r : Int) : Nat := ((TEDITOR_MAX_ROWS - r) * TEDITOR_MAX_COLS).toNat

-- The walk over the characters of a line, of which `left` bytes may be read.
def findOffset (line : Memory) (left : Nat) (targetX : Int) :
    Nat → Nat → Int → TC → Option Int
  | 0, _, _, _ => none
  | fuel + 1, i, curX, prevCode =>
    let char := utf8ToTc line i
    if ∃ k ∈ char.log, left ≤ k then none
    else if line i = 0 then some i
    else
      let code := char.val.1
      let step := if char.val.2 > 0 then char.val.2 else 1
      let gw := tcGetCharAdvance code prevCode
      if gw > 0 ∧ targetX < curX + gw / 2 then some i
      else
        findOffset line left targetX fuel (i + step) (curX + gw)
          (if gw > 0 ∨ code >>> 8 ≠ 0x6F then code else prevCode)

def teditorFindByteOffsetFromX (line : Memory) (left : Nat) (targetX : Int) : Option Int :=
  if targetX ≤ 36 then some 0 else findOffset line left targetX (left + 1) 0 36 0

def teditorInsertNewline (ed : TEditor) : Option TEditor := do
  let ed ← teditorDeleteSelection ed
  if ed.totalLines ≥ TEDITOR_MAX_LINES - 1 then some ed
  else do
    let ed ← splitLine ed
    some (teditorEnsureCursorVisible { ed with isModified := true })

-- A line is appended to the one before it, when that has room.
def joinLines (ed : TEditor) (r : Int) (len : Int) (a b : Bytes) : Option TEditor := do
  let a ← strncat TEDITOR_MAX_COLS a TEDITOR_MAX_COLS b (TEDITOR_MAX_COLS - len - 1)
  let ed := ed.setLine r a
  let ed ← shiftUp ed 1 (ed.totalLines - 1 - (r + 1)).toNat (r + 1)
  some { ed with totalLines := ed.totalLines - 1 }

def teditorBackspace (ed : TEditor) : Option TEditor :=
  if ed.selActive then teditorDeleteSelection ed
  else do
    let r := ed.cursorRow
    let c := ed.cursorCol
    if c > 0 then do
      let a ← ed.line r
      let prevC ← utf8PrevOffset a c
      let len ← strlenLine a
      let a ← memmove TEDITOR_MAX_COLS a prevC c (len - c + 1)
      let ed := { ed.setLine r a with cursorCol := prevC, isModified := true }
      some (teditorEnsureCursorVisible ed)
    else if r > 0 then do
      let a ← ed.line (r - 1)
      let prevLen ← strlenLine a
      let b ← ed.line r
      let curLen ← strlenLine b
      if prevLen + curLen < TEDITOR_MAX_COLS - 1 then do
        let ed ← joinLines ed (r - 1) prevLen a b
        let ed := { ed with cursorRow := r - 1, cursorCol := prevLen, isModified := true }
        some (teditorEnsureCursorVisible ed)
      else some (teditorEnsureCursorVisible ed)
    else some (teditorEnsureCursorVisible ed)

def teditorDeleteCharForward (ed : TEditor) : Option TEditor :=
  if ed.selActive then teditorDeleteSelection ed
  else do
    let r := ed.cursorRow
    let c := ed.cursorCol
    let a ← ed.line r
    let len ← strlenLine a
    if c < len then do
      let nextC ← utf8NextOffset a c
      let a ← memmove TEDITOR_MAX_COLS a c nextC (len - nextC + 1)
      some (teditorEnsureCursorVisible { ed.setLine r a with isModified := true })
    else if r < ed.totalLines - 1 then do
      let b ← ed.line (r + 1)
      let nextLen ← strlenLine b
      if len + nextLen < TEDITOR_MAX_COLS - 1 then do
        let ed ← joinLines ed r len a b
        some (teditorEnsureCursorVisible { ed with isModified := true })
      else some (teditorEnsureCursorVisible ed)
    else some (teditorEnsureCursorVisible ed)

-- ASCII keys with Shift and CapsLock.
def shiftedChar (key : Nat) : Nat :=
  match key with
  | 0x31 => 0x21
  | 0x32 => 0x40
  | 0x33 => 0x23
  | 0x34 => 0x24
  | 0x35 => 0x25
  | 0x36 => 0x5E
  | 0x37 => 0x26
  | 0x38 => 0x2A
  | 0x39 => 0x28
  | 0x30 => 0x29
  | 0x2D => 0x5F
  | 0x3D => 0x2B
  | 0x5B => 0x7B
  | 0x5D => 0x7D
  | 0x5C => 0x7C
  | 0x3B => 0x3A
  | 0x27 => 0x22
  | 0x2C => 0x3C
  | 0x2E => 0x3E
  | 0x2F => 0x3F
  | 0x60 => 0x7E
  | key => key

def BTRON_KMOD_SHIFT : Nat := 0x0003
def BTRON_KMOD_CTRL : Nat := 0x00C0
def BTRON_KMOD_CAPS : Nat := 0x2000

def getAsciiCharWithShift (key mod : Nat) : UB :=
  let shift := mod &&& BTRON_KMOD_SHIFT ≠ 0
  let caps := mod &&& BTRON_KMOD_CAPS ≠ 0
  let upper := xor (decide shift) (decide caps)
  if 0x41 ≤ key ∧ key ≤ 0x5A then .ofNat (if upper then key else key - 0x41 + 0x61)
  else if 0x61 ≤ key ∧ key ≤ 0x7A then .ofNat (if upper then key - 0x61 + 0x41 else key)
  else .ofNat (if shift then shiftedChar key else key)

def TCMD_FILE_NEW : Int := 1
def TCMD_FILE_OPEN_ASSET : Int := 3
def TCMD_FILE_SAVE : Int := 4
def TCMD_FILE_CLOSE : Int := 5
def TCMD_EDIT_UNDO : Int := 6
def TCMD_EDIT_CUT : Int := 7
def TCMD_EDIT_COPY : Int := 8
def TCMD_EDIT_PASTE : Int := 9
def TCMD_EDIT_SELECT_ALL : Int := 10
def TCMD_VIEW_ZOOM_IN : Int := 11
def TCMD_VIEW_ZOOM_OUT : Int := 12
def TCMD_VIEW_TOGGLE_LINES : Int := 13
def TCMD_VOBJ_INSERT : Int := 14
def TCMD_VOBJ_CABINET : Int := 15
def TCMD_HELP_ABOUT : Int := 16

def TMENU_FILE : Int := 0
def TMENU_COUNT : Int := 5

def teditorSyncMenuState (ed : TEditor) : TEditor :=
  { ed with
      activeMenu := ed.menuBar.activeMenu
      hoverMenu := ed.menuBar.hoverMenu
      hoverItem := ed.menuBar.hoverItem
      activeSubmenu := ed.menuBar.activeSubmenu
      hoverSubitem := ed.menuBar.hoverSubitem }

-- The menu bar `teditor_init_menu_bar` builds: File, Edit, View, Objects and Help.
def teditorMenuBar : Bar :=
  let bar := appMenuAddHeader appMenuInit 104
  let bar := appMenuAddItem bar 0 TCMD_FILE_NEW true
  let bar := appMenuAddSubmenuItem bar 0 TCMD_FILE_OPEN_ASSET 1
  let bar := appMenuAddSeparator bar 0
  let bar := appMenuAddItem bar 0 TCMD_FILE_SAVE true
  let bar := appMenuAddItem bar 0 TCMD_FILE_CLOSE true
  let bar := appMenuAddHeader bar 72
  let bar := appMenuAddItem bar 1 TCMD_EDIT_UNDO false
  let bar := appMenuAddSeparator bar 1
  let bar := appMenuAddItem bar 1 TCMD_EDIT_CUT true
  let bar := appMenuAddItem bar 1 TCMD_EDIT_COPY true
  let bar := appMenuAddItem bar 1 TCMD_EDIT_PASTE true
  let bar := appMenuAddItem bar 1 TCMD_EDIT_SELECT_ALL true
  let bar := appMenuAddHeader bar 72
  let bar := appMenuAddItem bar 2 TCMD_VIEW_ZOOM_IN true
  let bar := appMenuAddItem bar 2 TCMD_VIEW_ZOOM_OUT true
  let bar := appMenuAddSeparator bar 2
  let bar := appMenuAddItem bar 2 TCMD_VIEW_TOGGLE_LINES true
  let bar := appMenuAddHeader bar 72
  let bar := appMenuAddItem bar 3 TCMD_VOBJ_INSERT true
  let bar := appMenuAddItem bar 3 TCMD_VOBJ_CABINET true
  let bar := appMenuAddHeader bar 88
  appMenuAddItem bar 4 TCMD_HELP_ABOUT true

def teditorInitMenuBar (ed : TEditor) : TEditor :=
  teditorSyncMenuState { ed with menuBar := teditorMenuBar }

def teditorOpenMenu (ed : TEditor) (menuIdx : Int) : TEditor :=
  if menuIdx < 0 ∨ menuIdx ≥ TMENU_COUNT then ed
  else
    let ed := if ed.menuBar.headers.length = 0 then teditorInitMenuBar ed else ed
    teditorSyncMenuState { ed with menuBar := appMenuOpen ed.menuBar menuIdx }

def teditorCloseMenu (ed : TEditor) : TEditor :=
  teditorSyncMenuState { ed with menuBar := appMenuClose ed.menuBar }

def initialDoc : List String :=
  ["件名：【BTRON3仕様の新実装】におけるBTRON環境開発のご報告と情報共有のお願い",
   "宛先：ノルティアオーダー／TADワーキンググループ 小島秀樹様",
   "",
   "突然のご連絡失礼いたします。私は「bitedits」というオープンソース・プロジェクトで開発を行っている者です。",
   "現在、私たちはモダンな仮想化環境（seL4 / VirtIO / SDL2）の上で動作する、",
   "BTRON3（Business TRON）仕様のクリーンルーム実装「BTRON System Plane for OS.1」を開発しております。",
   "",
   "貴団体が長年にわたり超機能分散環境（HFDS）の基盤整備やTAD仕様の策定・維持にご尽力されていることを知り、",
   "私たちの成果をご報告するとともに、BTRONの技術的エコシステムの方々にぜひ共有させていただきたくご連絡いたしました。",
   "プロジェクトのリポジトリ・ドキュメント https://bitedits.github.io/btron/",
   "",
   "私たちの実装では、以下のようなBTRONの特徴的なアーキテクチャをモダンなC99ベースで再現することを目指しています：",
   "・μITRONリアルタイムタスク生成およびカーネルプリミティブのシミュレーション",
   "・Sakamuraグラフィックエンジン（DP.H）に基づく2Dベクトル/ラスタ描画",
   "・実オブジェクト／仮想オブジェクト（Real/Virt Body）のハイパーデータエンジンの再現",
   "・TRONコードによる多言語文字システムとTADセグメントのサポート",
   "",
   "私たちは、BTRONが持つ「直感的で先進的なハイパーデータ構造」という思想を、現代のセキュアなマイクロカーネル環境で復活させたいと考えております。",
   "もしよろしければ、仕様の解釈やTADデータの互換性などについて、貴団体の知見を拝見させていただけますと幸いです。",
   "また、日本のBTRONコミュニティや開発者の方々にご紹介いただけますと大変光栄に思います。",
   "お忙しいところ恐縮ですが、ご一読いただけますと幸いです。何卒よろしくお願い申し上げます。",
   "",
   "プロジェクト開発チーム（Namdak Tonpa Norbu）https://bitedits.github.io/btron/"]

-- A line in a zeroed slot.
def slotOf (bs : List UB) : Bytes := ofList (Lib.strncpy bs (TEDITOR_MAX_COLS - 1).toNat)

def docLines (rows : List (List UB)) (rest : Int → Bytes) : Int → Bytes := fun r =>
  if 0 ≤ r then (rows[r.toNat]?.map slotOf).getD (rest r) else rest r

def teditorInitDefault : TEditor :=
  let doc := initialDoc.map fun s => Utf8.bytes s.toList
  { TEditor.zero with
      lines := docLines doc fun _ _ => 0
      totalLines := doc.length
      filename := Utf8.bytes "BTRON3_Report.txt".toList
      showLineNums := true }

-- `line[c] = '\0'`
def cutAt (a : Bytes) (c : Int) : Bytes := fun k => if k = c then 0 else a k

-- The document that New starts.
def newDocument : TEditor :=
  { teditorInitDefault.setLine 0 (cutAt (teditorInitDefault.lines 0) 0) with totalLines := 1 }

-- One line of a file as `fgets` reads it into 1024 bytes, and what follows.
def fgets (file : List UB) : List UB × List UB :=
  let n := min ((file.takeWhile (· != 10)).length + 1) 1023
  (file.take n, file.drop n)

-- The lines read, without what ends them.
def readRows : Nat → List UB → List (List UB)
  | 0, _ => []
  | n + 1, file =>
    if file = [] then []
    else
      let (buf, rest) := fgets file
      (cstr buf).rdropWhile (fun c => c == 10 || c == 13) :: readRows n rest

-- `strrchr(filepath, '/')` and what is copied of the name behind it.
def baseName (filepath : List UB) : List UB :=
  Lib.strncpy (filepath.rtakeWhile (· != 0x2F)) 127

-- `file` is what `fopen(filepath, "r")` opens, if it does.
def teditorLoadFile (ed : TEditor) (filepath : List UB) (file : Option (List UB)) :
    TEditor × Int :=
  let ed :=
    { ed with activeMenu := -1, hoverMenu := -1, hoverItem := -1, activeSubmenu := -1,
              hoverSubitem := -1 }
  match file with
  | none => (ed, -1)
  | some bytes =>
    let rows := readRows TEDITOR_MAX_ROWS.toNat bytes
    let lines := docLines rows ed.lines
    ({ ed with
        lines := if rows = [] then Function.update lines 0 (cutAt (lines 0) 0) else lines
        totalLines := if rows = [] then 1 else rows.length
        cursorRow := 0
        cursorCol := 0
        scrollRow := 0
        scrollCol := 0
        selActive := false
        isModified := false
        filename := baseName filepath }, 0)

-- `opened` says that `fopen(target, "w")` succeeds. What writing and closing the file return is
-- not looked at.
def teditorSaveFile (ed : TEditor) (opened : Bool) : TEditor × Int :=
  if !opened then (ed, -1) else ({ ed with isModified := false }, 0)

def teditorCloseFile (ed : TEditor) : TEditor :=
  { ed with
      lines := fun _ _ => 0
      totalLines := 1
      cursorRow := 0
      cursorCol := 0
      scrollRow := 0
      scrollCol := 0
      selActive := false
      isModified := false
      filename := Utf8.bytes "Untitled.txt".toList }

-- What a command or a key finds outside the editor: the text TIP commits when it takes the key,
-- the asset files, the files that can be read, whether the document's file opens for writing and
-- whether all that is written to it arrives.
structure Env where
  tip : Option (List UB)
  assets : List (List UB)
  fs : List UB → Option (List UB)
  writable : Bool
  written : Bool

-- The window is open, or `cls_wnd` has freed the editor.
inductive Session
  | live (s : State)
  | closed

def selectAll (ed : TEditor) : Option TEditor := do
  let a ← ed.line (ed.totalLines - 1)
  let len ← strlenLine a
  some
    { ed with
        selActive := true
        selStartR := 0
        selStartC := 0
        selEndR := ed.totalLines - 1
        selEndC := len
        cursorRow := ed.totalLines - 1
        cursorCol := len }

def cutSelection (s : State) : Option State := do
  let s ← teditorCopySelection s
  let ed ← teditorDeleteSelection s.ed
  some { s with ed := ed }

-- An asset is in assets/texts, or else in assets.
def assetPath (env : Env) (name : List UB) : List UB :=
  let path := (Utf8.bytes "assets/texts/".toList ++ name).take 127
  if (env.fs path).isSome then path else (Utf8.bytes "assets/".toList ++ name).take 127

def openAsset (ed : TEditor) (env : Env) (name : List UB) : TEditor :=
  (teditorLoadFile ed (assetPath env name) (env.fs (assetPath env name))).1

-- `[仮身: #101 図形 (Diagram.draw)]` and a line feed
def vobjText : List UB :=
  Utf8.bytes ['[', '仮', '身', ':', ' ', '#', '1', '0', '1', ' ', '図', '形', ' ', '(', 'D', 'i', 'a',
    'g', 'r', 'a', 'm', '.', 'd', 'r', 'a', 'w', ')', ']', '\n']

-- The commands but for what they do to the window: its title, its size, other windows.
def teditorExecuteMenuCmd (s : State) (env : Env) (cmd subIdx : Int) : Option Session :=
  let live (ed : TEditor) : Session := .live { s with ed := ed }
  if cmd = TCMD_FILE_NEW then some (live newDocument)
  else if cmd = TCMD_FILE_OPEN_ASSET then
    match (if subIdx ≥ 0 then env.assets[subIdx.toNat]? else none) with
    | some name => some (live (openAsset s.ed env name))
    | none => some (live s.ed)
  else if cmd = TCMD_FILE_SAVE then
    some (live { (teditorSaveFile s.ed env.writable).1 with isModified := false })
  else if cmd = TCMD_FILE_CLOSE then some .closed
  else if cmd = TCMD_EDIT_CUT then (cutSelection s).map .live
  else if cmd = TCMD_EDIT_COPY then (teditorCopySelection s).map .live
  else if cmd = TCMD_EDIT_PASTE then (teditorPasteClipboard s).map .live
  else if cmd = TCMD_EDIT_SELECT_ALL then (selectAll s.ed).map live
  else if cmd = TCMD_VIEW_TOGGLE_LINES then
    some (live { s.ed with showLineNums := !s.ed.showLineNums })
  else if cmd = TCMD_VOBJ_INSERT then (teditorInsertText s.ed vobjText).map live
  else some (live s.ed)

-- Where the editor takes a click on the screen to be in its client area.
def clientPos (wnd : Wnd) (x y : Int) : Int × Int :=
  (asH (x - (wnd.bounds.left + 4)), asH (y - (wnd.bounds.top + 26)))

def clientHeight (wnd : Wnd) : Int :=
  match wnd.dev with
  | some dev => dev.height
  | none => asH (wnd.bounds.bottom - wnd.bounds.top - 26)

-- A click that the menu does not take.
def clickText (ed : TEditor) (wnd : Wnd) (relX relY : Int) : Option TEditor :=
  -- the status bar switches the input mode of TIP
  if relY ≥ clientHeight wnd - 22 then some ed
  else if relY ≥ 24 then
    let clickR := (relY - 24).tdiv 18 + ed.scrollRow
    if clickR ≥ 0 ∧ clickR < ed.totalLines then do
      let textXOffset := if ed.showLineNums then 36 else 10
      let _ ← ed.line clickR
      let col ← teditorFindByteOffsetFromX (ed.bytesFrom clickR) (bytesLeft clickR)
        (relX - (textXOffset - 36))
      some (teditorEnsureCursorVisible
        { ed with cursorRow := clickR, cursorCol := col, selActive := false })
    else some ed
  else some ed

def butDown (s : State) (wnd : Wnd) (x y : Int) (env : Env) : Option Session :=
  let (relX, relY) := clientPos wnd x y
  let click := appMenuHandleMouseDown s.ed.menuBar relX relY
  let ed := teditorSyncMenuState { s.ed with menuBar := click.bar }
  if click.handled then
    if click.cmd ≠ 0 then teditorExecuteMenuCmd { s with ed := ed } env click.cmd click.subitem
    else some (.live { s with ed := ed })
  else (clickText ed wnd relX relY).map fun ed => .live { s with ed := ed }

def mouseMove (ed : TEditor) (wnd : Wnd) (x y : Int) : TEditor :=
  let (relX, relY) := clientPos wnd x y
  teditorSyncMenuState { ed with menuBar := (appMenuHandleMouseMove ed.menuBar relX relY).1 }

def BTRON_KEY_BACKSPACE : Nat := 8
def BTRON_KEY_TAB : Nat := 9
def BTRON_KEY_RETURN : Nat := 13
def BTRON_KEY_ESCAPE : Nat := 27
def BTRON_KEY_DELETE : Nat := 127
def BTRON_KEY_RIGHT : Nat := 0x4000004F
def BTRON_KEY_LEFT : Nat := 0x40000050
def BTRON_KEY_DOWN : Nat := 0x40000051
def BTRON_KEY_UP : Nat := 0x40000052
def BTRON_KEY_HOME : Nat := 0x4000004A
def BTRON_KEY_END : Nat := 0x4000004D
def BTRON_KEY_KP_ENTER : Nat := 0x40000058

-- Shift with an arrow key starts a selection at the cursor, and its end follows the cursor.
def startSelection (ed : TEditor) (shift : Bool) : TEditor :=
  if shift ∧ !ed.selActive then
    { ed with selActive := true, selStartR := ed.cursorRow, selStartC := ed.cursorCol }
  else ed

def endSelection (ed : TEditor) (shift : Bool) : TEditor :=
  if shift then { ed with selEndR := ed.cursorRow, selEndC := ed.cursorCol }
  else { ed with selActive := false }

def cursorLeft (ed : TEditor) : Option TEditor :=
  if ed.cursorCol > 0 then do
    let a ← ed.line ed.cursorRow
    let col ← utf8PrevOffset a ed.cursorCol
    some { ed with cursorCol := col }
  else if ed.cursorRow > 0 then do
    let a ← ed.line (ed.cursorRow - 1)
    let len ← strlenLine a
    some { ed with cursorRow := ed.cursorRow - 1, cursorCol := len }
  else some ed

def cursorRight (ed : TEditor) : Option TEditor := do
  let a ← ed.line ed.cursorRow
  let len ← strlenLine a
  if ed.cursorCol < len then do
    let col ← utf8NextOffset a ed.cursorCol
    some { ed with cursorCol := col }
  else if ed.cursorRow < ed.totalLines - 1 then
    some { ed with cursorRow := ed.cursorRow + 1, cursorCol := 0 }
  else some ed

-- To another line, and back to its end when the cursor is behind it.
def cursorToRow (ed : TEditor) (r : Int) : Option TEditor := do
  let a ← ed.line r
  let len ← strlenLine a
  some { ed with cursorRow := r, cursorCol := if ed.cursorCol > len then len else ed.cursorCol }

def arrowKey (ed : TEditor) (shift : Bool) (move : TEditor → Option TEditor) : Option TEditor := do
  let ed ← move (startSelection ed shift)
  some (teditorEnsureCursorVisible (endSelection ed shift))

def unselect (ed : TEditor) : TEditor :=
  teditorEnsureCursorVisible { ed with selActive := false }

-- The keys with Ctrl: C, X, V, A, S, N, O and W.
def ctrlKey (s : State) (sym : Nat) : Option (Option Session) :=
  let live (ed : TEditor) : Session := .live { s with ed := ed }
  if sym = 0x63 ∨ sym = 0x43 then some ((teditorCopySelection s).map .live)
  else if sym = 0x78 ∨ sym = 0x58 then some ((cutSelection s).map .live)
  else if sym = 0x76 ∨ sym = 0x56 then some ((teditorPasteClipboard s).map .live)
  else if sym = 0x61 ∨ sym = 0x41 then some ((selectAll s.ed).map live)
  else if sym = 0x73 ∨ sym = 0x53 then some (some (live { s.ed with isModified := false }))
  else if sym = 0x6E ∨ sym = 0x4E then some (some (live newDocument))
  else if sym = 0x6F ∨ sym = 0x4F then
    some (some (live { teditorOpenMenu s.ed TMENU_FILE with activeSubmenu := 1 }))
  else if sym = 0x77 ∨ sym = 0x57 then some (some .closed)
  else none

-- The other keys.
def plainKey (ed : TEditor) (sym mod : Nat) : Option TEditor :=
  let shift : Bool := mod &&& BTRON_KMOD_SHIFT != 0
  let ctrl : Bool := mod &&& BTRON_KMOD_CTRL != 0
  if sym = BTRON_KEY_RETURN ∨ sym = BTRON_KEY_KP_ENTER ∨ sym = 10 then teditorInsertNewline ed
  else if sym = BTRON_KEY_BACKSPACE then teditorBackspace ed
  else if sym = BTRON_KEY_DELETE then teditorDeleteCharForward ed
  else if sym = BTRON_KEY_LEFT then arrowKey ed shift cursorLeft
  else if sym = BTRON_KEY_RIGHT then arrowKey ed shift cursorRight
  else if sym = BTRON_KEY_UP then
    if ed.cursorRow > 0 then (cursorToRow ed (ed.cursorRow - 1)).map unselect
    else some (unselect ed)
  else if sym = BTRON_KEY_DOWN then
    if ed.cursorRow < ed.totalLines - 1 then (cursorToRow ed (ed.cursorRow + 1)).map unselect
    else some (unselect ed)
  else if sym = BTRON_KEY_HOME then some (unselect { ed with cursorCol := 0 })
  else if sym = BTRON_KEY_END then do
    let a ← ed.line ed.cursorRow
    let len ← strlenLine a
    some (unselect { ed with cursorCol := len })
  else if sym = BTRON_KEY_TAB then teditorInsertText ed [0x20, 0x20, 0x20, 0x20]
  else if !ctrl ∧ sym ≥ 32 ∧ sym ≤ 126 then teditorInsertChar ed (getAsciiCharWithShift sym mod)
  else some ed

def keyDown (s : State) (key mod : Nat) (env : Env) : Option Session :=
  let live (ed : TEditor) : Session := .live { s with ed := ed }
  match env.tip with
  | some commit => (teditorInsertText s.ed (cstr commit)).map live
  | none =>
    if key = BTRON_KEY_ESCAPE ∧ s.ed.activeMenu ≥ 0 then some (live (teditorCloseMenu s.ed))
    else
      let ctrl := mod &&& BTRON_KMOD_CTRL ≠ 0
      match (if ctrl then ctrlKey s key else none) with
      | some result => result
      | none => (plainKey s.ed key mod).map live

-- What `paint_t_editor` changes: a menu bar without headers is built again.
def paintMenuBar (ed : TEditor) : TEditor :=
  if ed.menuBar.headers.length = 0 then teditorInitMenuBar ed else ed

-- What `open_t_editor_window_with_file` starts with.
def openEditor (file : Option (List UB × List UB)) : TEditor :=
  let ed :=
    { TEditor.zero with activeMenu := -1, hoverMenu := -1, hoverItem := -1, activeSubmenu := -1,
                        hoverSubitem := -1, showLineNums := true }
  match file with
  | some (path, bytes) => teditorInitMenuBar (teditorLoadFile ed path (some bytes)).1
  | none => teditorInitMenuBar teditorInitDefault

-- The events of the window, the calls of the editor's interface, and a clipboard that another
-- editor has filled.
inductive Input
  | keyDown (key mod : Nat) (env : Env)
  | butDown (wnd : Wnd) (x y : Int) (env : Env)
  | mouseMove (wnd : Wnd) (x y : Int)
  | paint
  | loadFile (path : List UB) (file : Option (List UB))
  | saveFile (opened written : Bool)
  | closeFile
  | openMenu (menuIdx : Int)
  | closeMenu
  | clipboard (clip : Bytes)

def handle (s : State) (i : Input) : Option Session :=
  let live (ed : TEditor) : Option Session := some (.live { s with ed := ed })
  match i with
  | .keyDown key mod env => keyDown s key mod env
  | .butDown wnd x y env => butDown s wnd x y env
  | .mouseMove wnd x y => live (mouseMove s.ed wnd x y)
  | .paint => live (paintMenuBar s.ed)
  | .loadFile path file => live (teditorLoadFile s.ed path file).1
  | .saveFile opened _ => live (teditorSaveFile s.ed opened).1
  | .closeFile => live (teditorCloseFile s.ed)
  | .openMenu menuIdx => live (teditorOpenMenu s.ed menuIdx)
  | .closeMenu => live (teditorCloseMenu s.ed)
  | .clipboard clip => some (.live { s with clipboard := clip })

end BTron.Editor
