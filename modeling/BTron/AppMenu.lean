import BTron.Graphics

namespace BTron.AppMenu

open Graphics

def APP_MENU_MAX_HEADERS : Nat := 8
def APP_MENU_MAX_ITEMS : Nat := 16
def APP_MENU_BAR_HEIGHT : Int := 21
def APP_MENU_ROW_HEIGHT : Int := 22
def APP_MENU_DROPDOWN_WIDTH : Int := 250
def APP_MENU_SUBMENU_WIDTH : Int := 260

-- APP_MENU_ITEM, APP_MENU_HEADER and APP_MENU_BAR without their texts, which are only painted.
structure Item where
  cmdId : Int
  isSeparator : Bool
  hasSubmenu : Bool
  submenuId : Int
  enabled : Bool

structure Header where
  rect : Rect
  items : List Item

structure Bar where
  headers : List Header
  activeMenu : Int
  hoverMenu : Int
  hoverItem : Int
  activeSubmenu : Int
  hoverSubitem : Int

-- What `memset(bar, 0, ...)` leaves.
def Header.zero : Header := ⟨⟨0, 0, 0, 0⟩, []⟩

def Bar.zero : Bar := ⟨[], 0, 0, 0, 0, 0⟩

-- `bar->headers[i]`, zeroed behind the last header.
def Bar.header (bar : Bar) (i : Int) : Header := bar.headers.getD i.toNat .zero

def appMenuInit : Bar := ⟨[], -1, -1, -1, -1, -1⟩

def appMenuAddHeader (bar : Bar) (width : Int) : Bar :=
  if bar.headers.length ≥ APP_MENU_MAX_HEADERS then bar
  else
    let left :=
      match bar.headers.getLast? with
      | some hdr => asH (hdr.rect.right + 6)
      | none => 4
    let rect : Rect := ⟨left, 0, asH (left + width), APP_MENU_BAR_HEIGHT⟩
    { bar with headers := bar.headers ++ [⟨rect, []⟩] }

-- The three `app_menu_add_…item` functions append an item to a header.
def addItem (bar : Bar) (headerIdx : Nat) (item : Item) : Bar :=
  if headerIdx ≥ bar.headers.length then bar
  else
    { bar with
        headers := bar.headers.modify headerIdx fun hdr =>
          if hdr.items.length ≥ APP_MENU_MAX_ITEMS then hdr
          else { hdr with items := hdr.items ++ [item] } }

def appMenuAddItem (bar : Bar) (headerIdx : Nat) (cmdId : Int) (enabled : Bool) : Bar :=
  addItem bar headerIdx ⟨cmdId, false, false, -1, enabled⟩

def appMenuAddSeparator (bar : Bar) (headerIdx : Nat) : Bar :=
  addItem bar headerIdx ⟨0, true, false, 0, false⟩

def appMenuAddSubmenuItem (bar : Bar) (headerIdx : Nat) (cmdId submenuId : Int) : Bar :=
  addItem bar headerIdx ⟨cmdId, false, true, submenuId, true⟩

def appMenuClose (bar : Bar) : Bar :=
  { bar with activeMenu := -1, hoverItem := -1, activeSubmenu := -1, hoverSubitem := -1 }

def appMenuOpen (bar : Bar) (headerIdx : Int) : Bar :=
  if headerIdx < 0 ∨ headerIdx ≥ bar.headers.length then bar
  else
    { bar with
        activeMenu := headerIdx
        hoverMenu := headerIdx
        hoverItem := -1
        activeSubmenu := -1
        hoverSubitem := -1 }

def Header.holds (hdr : Header) (relX : Int) : Bool :=
  relX ≥ hdr.rect.left && relX ≤ hdr.rect.right

def onBar (relY : Int) : Bool := relY ≥ 0 && relY ≤ APP_MENU_BAR_HEIGHT

-- The areas that the dropdown of a header and the submenu of its item are tested for.
def Header.dropdown (hdr : Header) : Rect :=
  let menuX := hdr.rect.left
  let menuY := APP_MENU_BAR_HEIGHT
  let menuH := asH (hdr.items.length * APP_MENU_ROW_HEIGHT + 6)
  ⟨menuX, menuY, menuX + APP_MENU_DROPDOWN_WIDTH, menuY + menuH⟩

def Header.submenu (hdr : Header) (activeSubmenu : Int) : Rect :=
  let subX := asH (hdr.rect.left + APP_MENU_DROPDOWN_WIDTH - 2)
  let subY := asH (APP_MENU_BAR_HEIGHT + 3 + activeSubmenu * APP_MENU_ROW_HEIGHT)
  ⟨subX, subY, subX + APP_MENU_SUBMENU_WIDTH, subY + (32 * APP_MENU_ROW_HEIGHT + 6)⟩

def inside (r : Rect) (x y : Int) : Bool :=
  x ≥ r.left && x ≤ r.right && y ≥ r.top && y ≤ r.bottom

theorem inside_iff {r : Rect} {x y : Int} :
    inside r x y ↔ r.left ≤ x ∧ x ≤ r.right ∧ r.top ≤ y ∧ y ≤ r.bottom := by
  simp only [inside, Bool.and_eq_true, decide_eq_true_eq, ge_iff_le, and_assoc]

-- `(rel_y - (top + 3)) / APP_MENU_ROW_HEIGHT`
def rowAt (top relY : Int) : Int := (relY - (top + 3)).tdiv APP_MENU_ROW_HEIGHT

-- The row of the open submenu at a point.
def Bar.submenuRow (bar : Bar) (relX relY : Int) : Option Int :=
  let hdr := bar.header bar.activeMenu
  let sub := hdr.submenu bar.activeSubmenu
  if bar.activeSubmenu ≥ 0 ∧ bar.activeSubmenu < hdr.items.length ∧ inside sub relX relY ∧
      rowAt sub.top relY ≥ 0 then some (rowAt sub.top relY)
  else none

-- The item of the open dropdown at a point.
def Bar.dropdownItem (bar : Bar) (relX relY : Int) : Option (Int × Item) :=
  let hdr := bar.header bar.activeMenu
  let idx := rowAt hdr.dropdown.top relY
  if inside hdr.dropdown relX relY ∧ idx ≥ 0 then
    hdr.items[idx.toNat]?.map fun item => (idx, item)
  else none

def appMenuHandleMouseMove (bar : Bar) (relX relY : Int) : Bar × Bool :=
  if bar.activeMenu ≥ 0 then
    -- gliding on to another header
    match bar.headers.zipIdx.find? fun (hdr, h) =>
        onBar relY && hdr.holds relX && bar.activeMenu != h with
    | some (_, h) =>
      ({ bar with
          activeMenu := h
          hoverMenu := h
          hoverItem := -1
          activeSubmenu := -1
          hoverSubitem := -1 }, true)
    | none =>
      match bar.submenuRow relX relY with
      | some subIdx => ({ bar with hoverSubitem := subIdx }, true)
      | none =>
        match bar.dropdownItem relX relY with
        | some (idx, item) =>
          if !item.isSeparator ∧ item.enabled then
            if item.hasSubmenu then ({ bar with hoverItem := idx, activeSubmenu := idx }, true)
            else ({ bar with hoverItem := idx, activeSubmenu := -1, hoverSubitem := -1 }, true)
          else ({ bar with hoverItem := -1 }, false)
        | none => (bar, false)
  else if onBar relY then
    let hover :=
      match bar.headers.findIdx? (Header.holds · relX) with
      | some h => (h : Int)
      | none => -1
    ({ bar with hoverMenu := hover }, hover != bar.hoverMenu)
  else if bar.hoverMenu ≠ -1 then ({ bar with hoverMenu := -1 }, true)
  else (bar, false)

-- What a click leaves and returns: whether the menu took it, the command and the submenu row.
structure Click where
  bar : Bar
  handled : Bool
  cmd : Int
  subitem : Int

def appMenuHandleMouseDown (bar : Bar) (relX relY : Int) : Click :=
  let header := if onBar relY then bar.headers.findIdx? (Header.holds · relX) else none
  if bar.activeMenu ≥ 0 then
    -- a separator or a disabled item dismisses the menu, as a click elsewhere does
    let outside : Click :=
      match header with
      | some h =>
        if bar.activeMenu = h then ⟨appMenuClose bar, true, 0, -1⟩
        else ⟨appMenuOpen bar h, true, 0, -1⟩
      | none => ⟨appMenuClose bar, true, 0, -1⟩
    match bar.submenuRow relX relY with
    | some subIdx =>
      let items := (bar.header bar.activeMenu).items
      let cmd := (items[bar.activeSubmenu.toNat]?.map Item.cmdId).getD 0
      ⟨appMenuClose bar, true, cmd, subIdx⟩
    | none =>
      match bar.dropdownItem relX relY with
      | some (idx, item) =>
        if item.hasSubmenu then ⟨{ bar with activeSubmenu := idx }, true, 0, -1⟩
        else if item.enabled ∧ !item.isSeparator then ⟨appMenuClose bar, true, item.cmdId, -1⟩
        else outside
      | none => outside
  else
    match header with
    | some h => ⟨appMenuOpen bar h, true, 0, -1⟩
    | none => ⟨bar, false, 0, -1⟩

def BTRON_KEY_ESCAPE : Nat := 27

-- The command it returns is always 0.
def appMenuHandleKey (bar : Bar) (key : Nat) : Bar × Bool × Int :=
  if (key = BTRON_KEY_ESCAPE ∨ key = 27) ∧ bar.activeMenu ≥ 0 then (appMenuClose bar, true, 0)
  else (bar, false, 0)

-- The area `app_menu_paint_dropdown` paints the row of an item in.
def Header.rowRect (hdr : Header) (i : Int) : Rect :=
  let menuX := hdr.rect.left
  let menuY := APP_MENU_BAR_HEIGHT
  ⟨asH (menuX + 3), asH (menuY + 3 + i * APP_MENU_ROW_HEIGHT),
    asH (menuX + APP_MENU_DROPDOWN_WIDTH - 3), asH (menuY + 3 + (i + 1) * APP_MENU_ROW_HEIGHT)⟩

-- The same of `app_menu_paint_cascading_strings` for row f of the submenu of an item.
def Header.subRowRect (hdr : Header) (activeSubmenu f : Int) : Rect :=
  let subX := asH (hdr.rect.left + APP_MENU_DROPDOWN_WIDTH - 2)
  let subY := asH (APP_MENU_BAR_HEIGHT + 3 + activeSubmenu * APP_MENU_ROW_HEIGHT)
  ⟨asH (subX + 3), asH (subY + 3 + f * APP_MENU_ROW_HEIGHT),
    asH (subX + APP_MENU_SUBMENU_WIDTH - 3), asH (subY + 3 + (f + 1) * APP_MENU_ROW_HEIGHT)⟩

-- The calls of an application. A press comes with the number of rows that the application shows
-- in the open submenu.
inductive Call
  | addHeader (width : Int)
  | addItem (headerIdx cmdId : Int) (enabled : Bool)
  | addSeparator (headerIdx : Int)
  | addSubmenuItem (headerIdx cmdId submenuId : Int)
  | openMenu (headerIdx : Int)
  | closeMenu
  | mouseMove (relX relY : Int)
  | mouseDown (relX relY : Int) (shown : Nat)
  | key (key : Nat)

def exec (bar : Bar) : Call → Bar
  | .addHeader width => appMenuAddHeader bar width
  | .addItem headerIdx cmdId enabled =>
    if headerIdx < 0 then bar else appMenuAddItem bar headerIdx.toNat cmdId enabled
  | .addSeparator headerIdx =>
    if headerIdx < 0 then bar else appMenuAddSeparator bar headerIdx.toNat
  | .addSubmenuItem headerIdx cmdId submenuId =>
    if headerIdx < 0 then bar else appMenuAddSubmenuItem bar headerIdx.toNat cmdId submenuId
  | .openMenu headerIdx => appMenuOpen bar headerIdx
  | .closeMenu => appMenuClose bar
  | .mouseMove relX relY => (appMenuHandleMouseMove bar relX relY).1
  | .mouseDown relX relY _ => (appMenuHandleMouseDown bar relX relY).bar
  | .key key => (appMenuHandleKey bar key).1

def Step (bar : Bar) (c : Call) (bar' : Bar) : Prop := bar' = exec bar c

end BTron.AppMenu
