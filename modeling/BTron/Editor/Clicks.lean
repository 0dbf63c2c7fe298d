import BTron.Editor
import BTron.Window.Painting

namespace BTron.Editor

open AppMenu Graphics Window

-- The screen pixel that `redraw_all_windows` composites the client pixel (cx, cy) to.
def pixelX (wnd : Wnd) (cx : Int) : Int := asH (wnd.destX + cx)

def pixelY (wnd : Wnd) (cy : Int) : Int := asH (wnd.destY + cy)

theorem composite_pixel {screen dev : Gdev Color} {wnd : Wnd} {cx cy : Nat}
    (hsize : dev.width ≤ 32767 ∧ dev.height ≤ 32767)
    (hcx : (cx : Int) < dev.width) (hcy : (cy : Int) < dev.height)
    (hx : 0 ≤ pixelX wnd cx ∧ pixelX wnd cx < screen.width)
    (hy : 0 ≤ pixelY wnd cy ∧ pixelY wnd cy < screen.height) (hcol : dev.at cx cy ≠ 0) :
    (wnd.composite screen dev).at (pixelX wnd cx) (pixelY wnd cy) = dev.at cx cy := by
  apply compositeRows_at _ _ _ _ hx hy hcol <;> omega

-- The editor takes a click on a titled window six pixels below the one that shows there.
theorem clientPos_pixel {wnd : Wnd} (htitle : wnd.has WND_ATTR_TITLE) (cx cy : Int) :
    clientPos wnd (pixelX wnd cx) (pixelY wnd cy) = (asH cx, asH (cy + 6)) := by
  have htop : wnd.titleH = 28 := if_pos htitle
  rw [clientPos, pixelX, pixelY, Wnd.destX, Wnd.destY, htop, Prod.mk.injEq]
  simp only [asH_eq]
  omega

-- A click on the pixel that shows (cx, cy) is taken there, by the menu for the row painted there.
structure Lands (bar : Bar) (wnd : Wnd) (cx cy : Int) : Prop where
  pos : clientPos wnd (pixelX wnd cx) (pixelY wnd cy) = (cx, cy)
  row : ∀ (i : Nat) item, bar.activeMenu ≥ 0 → (bar.header bar.activeMenu).items[i]? = some item →
    ((bar.header bar.activeMenu).rowRect i).contains cx cy →
      bar.dropdownItem (clientPos wnd (pixelX wnd cx) (pixelY wnd cy)).1
        (clientPos wnd (pixelX wnd cx) (pixelY wnd cy)).2 = some ((i : Int), item)

-- No click on a titled window lands where it shows.
theorem clicks_miss (bar : Bar) (wnd : Wnd) (htitle : wnd.has WND_ATTR_TITLE) (cx cy : Int) :
    ¬Lands bar wnd cx cy := by
  intro h
  have hpos := h.pos
  rw [clientPos_pixel htitle, Prod.mk.injEq, asH_eq, asH_eq] at hpos
  omega

-- The window of the editor, and its File menu when it is open.
def editorWnd : Wnd := newWnd 1 none 220 50 760 480 (WND_ATTR_TITLE ||| WND_ATTR_CLOSE) true

def fileMenu : Bar := appMenuOpen teditorMenuBar TMENU_FILE

theorem clicks_miss_file : ¬Lands fileMenu editorWnd 20 40 :=
  clicks_miss fileMenu editorWnd (by decide) 20 40

-- A click on the lower part of the row that saves the document closes it.
theorem save_click_closes :
    ((fileMenu.header 0).rowRect 3).contains 20 108 ∧
      (fileMenu.header 0).items[3]?.map Item.cmdId = some TCMD_FILE_SAVE ∧
      (appMenuHandleMouseDown fileMenu (clientPos editorWnd 244 190).1
        (clientPos editorWnd 244 190).2).cmd = TCMD_FILE_CLOSE ∧
      pixelX editorWnd 20 = 244 ∧ pixelY editorWnd 108 = 190 ∧
      ¬Lands fileMenu editorWnd 20 108 := by
  have hmiss : clientPos editorWnd (pixelX editorWnd 20) (pixelY editorWnd 108) ≠ (20, 108) := by
    decide
  have hcmd : (appMenuHandleMouseDown fileMenu (clientPos editorWnd 244 190).1
      (clientPos editorWnd 244 190).2).cmd = TCMD_FILE_CLOSE := by
    decide
  exact ⟨by decide, by decide, hcmd, by decide, by decide,
    fun h => hmiss h.pos⟩

theorem tdiv_row {i cy : Int} (hi : 0 ≤ i) (hlow : 22 * i ≤ cy - 24)
    (hhigh : cy - 24 < 22 * i + 22) :
    (cy + 6 - 24).tdiv 22 = if (cy - 24) % 22 < 16 then i else i + 1 := by
  rw [Int.tdiv_eq_ediv_of_nonneg (by omega)]
  split <;> omega

-- Of the rows of a dropdown the upper 16 pixel rows of 22 still reach their own item.
theorem row_taken_iff {bar : Bar} {wnd : Wnd} {i : Nat} {item : Item} {cx cy : Int}
    (htitle : wnd.has WND_ATTR_TITLE)
    (hleft : 0 ≤ (bar.header bar.activeMenu).rect.left ∧
      (bar.header bar.activeMenu).rect.left ≤ 32000)
    (hitems : (bar.header bar.activeMenu).items.length ≤ APP_MENU_MAX_ITEMS)
    (hitem : (bar.header bar.activeMenu).items[i]? = some item)
    (hrow : ((bar.header bar.activeMenu).rowRect i).contains cx cy) :
    bar.dropdownItem (clientPos wnd (pixelX wnd cx) (pixelY wnd cy)).1
        (clientPos wnd (pixelX wnd cx) (pixelY wnd cy)).2 = some ((i : Int), item) ↔
      (cy - 24) % 22 < 16 := by
  have hlt := (List.getElem?_eq_some_iff.mp hitem).1
  rw [APP_MENU_MAX_ITEMS] at hitems
  -- the row as it is painted
  rw [Rect.contains_iff] at hrow
  simp only [Header.rowRect, APP_MENU_BAR_HEIGHT, APP_MENU_ROW_HEIGHT,
    APP_MENU_DROPDOWN_WIDTH] at hrow
  rw [asH_of_range (by omega), asH_of_range (by omega), asH_of_range (by omega),
    asH_of_range (by omega)] at hrow
  -- and the item that the click reaches
  have hidx := @tdiv_row i cy (by omega) (by omega) (by omega)
  rw [clientPos_pixel htitle, asH_of_range (by omega), asH_of_range (by omega), Bar.dropdownItem]
  simp only [Header.dropdown, inside_iff, rowAt, APP_MENU_BAR_HEIGHT, APP_MENU_ROW_HEIGHT,
    APP_MENU_DROPDOWN_WIDTH]
  rw [asH_of_range (by omega), show cy + 6 - (21 + 3) = cy + 6 - 24 by omega, hidx]
  split
  · rename_i hupper
    rw [if_pos (by omega), Int.toNat_natCast, hitem]
    simp [hupper]
  · rename_i hlower
    rw [iff_false_right hlower]
    intro heq
    split at heq
    · rw [Option.map_eq_some_iff] at heq
      obtain ⟨other, -, hother⟩ := heq
      rw [Prod.mk.injEq] at hother
      omega
    · cases heq

end BTron.Editor
