import BTron.AppMenu
import BTron.Lib.Run

namespace BTron.AppMenu

open Graphics Lib

-- The items of the open menu.
def Bar.items (bar : Bar) : List Item := (bar.header bar.activeMenu).items

-- The indices are -1 or in range, the open submenu belongs to its item, and a closed menu has
-- neither a hovered item nor a submenu.
structure Bar.Sound (bar : Bar) : Prop where
  menu : bar.activeMenu = -1 ∨ 0 ≤ bar.activeMenu ∧ bar.activeMenu < bar.headers.length
  item : bar.hoverItem = -1 ∨ 0 ≤ bar.hoverItem ∧ bar.hoverItem < bar.items.length
  submenu : bar.activeSubmenu = -1 ∨
    0 ≤ bar.activeSubmenu ∧ ∃ item, bar.items[bar.activeSubmenu.toNat]? = some item ∧
      item.hasSubmenu
  closed : bar.activeMenu = -1 → bar.hoverItem = -1 ∧ bar.activeSubmenu = -1

def Bar.Bounded (bar : Bar) : Prop := ∀ hdr ∈ bar.headers, hdr.items.length ≤ 16

-- Headers and items are only added, each behind the others.
structure Grows (bar bar' : Bar) : Prop where
  headers : bar.headers.length ≤ bar'.headers.length
  items : ∀ (i k : Nat) (item : Item), i < bar.headers.length →
    (bar.headers.getD i .zero).items[k]? = some item →
      (bar'.headers.getD i .zero).items[k]? = some item
  activeMenu_eq : bar'.activeMenu = bar.activeMenu
  hoverItem_eq : bar'.hoverItem = bar.hoverItem
  activeSubmenu_eq : bar'.activeSubmenu = bar.activeSubmenu

theorem Grows.refl (bar : Bar) : Grows bar bar := ⟨le_rfl, fun _ _ _ _ h => h, rfl, rfl, rfl⟩

theorem addHeader_grows (bar : Bar) (width : Int) : Grows bar (appMenuAddHeader bar width) := by
  rw [appMenuAddHeader]
  split
  · exact .refl bar
  · refine ⟨by simp, ?_, rfl, rfl, rfl⟩
    intro i k item hi hitem
    rwa [List.getD_append _ _ _ _ hi]

theorem addItem_grows (bar : Bar) (headerIdx : Nat) (item : Item) :
    Grows bar (addItem bar headerIdx item) := by
  rw [addItem]
  split
  · exact .refl bar
  · refine ⟨by simp, ?_, rfl, rfl, rfl⟩
    intro i k it hi hitem
    rw [List.getD_eq_getElem?_getD, List.getElem?_eq_getElem hi] at hitem
    rw [List.getD_eq_getElem?_getD, List.getElem?_modify, List.getElem?_eq_getElem hi]
    simp only [Option.getD_some, Option.map_eq_map, Option.map_some] at hitem ⊢
    split
    · split
      · exact hitem
      · exact (List.getElem?_append_left (List.getElem?_eq_some_iff.mp hitem).1).trans hitem
    · exact hitem

theorem Grows.sound {bar bar' : Bar} (hg : Grows bar bar') (h : bar.Sound) : bar'.Sound := by
  have hitems : ∀ (k : Nat) (item : Item), bar.activeMenu ≠ -1 → bar.items[k]? = some item →
      bar'.items[k]? = some item := by
    intro k item hmenu hitem
    have hrange := h.menu.resolve_left hmenu
    rw [Bar.items, Bar.header, hg.activeMenu_eq]
    exact hg.items _ k item (by omega) hitem
  have hheaders := hg.headers
  refine ⟨?_, ?_, ?_, ?_⟩
  · rw [hg.activeMenu_eq]
    have hmenu := h.menu
    omega
  · rw [hg.hoverItem_eq]
    by_cases hmenu : bar.activeMenu = -1
    · exact .inl (h.closed hmenu).1
    · rcases h.item with hnone | ⟨h0, hlt⟩
      · exact .inl hnone
      · obtain ⟨i, hi⟩ := Int.eq_ofNat_of_zero_le h0
        have hget := hitems i _ hmenu (List.getElem?_eq_getElem (by omega))
        have hlt' := (List.getElem?_eq_some_iff.mp hget).1
        exact .inr (by omega)
  · rw [hg.activeSubmenu_eq]
    by_cases hmenu : bar.activeMenu = -1
    · exact .inl (h.closed hmenu).2
    · rcases h.submenu with hnone | ⟨h0, item, hitem, hsub⟩
      · exact .inl hnone
      · exact .inr ⟨h0, item, hitems _ _ hmenu hitem, hsub⟩
  · rw [hg.activeMenu_eq, hg.hoverItem_eq, hg.activeSubmenu_eq]
    exact h.closed

-- All that opening, closing, moves, presses and keys can do.
inductive Outcome (bar : Bar) : Bar → Prop
  | keeps : Outcome bar bar
  | closes : Outcome bar (appMenuClose bar)
  | opens (h : Nat) : h < bar.headers.length →
      Outcome bar
        { bar with
            activeMenu := h, hoverMenu := h, hoverItem := -1, activeSubmenu := -1
            hoverSubitem := -1 }
  | hoversHeader (h : Int) : Outcome bar { bar with hoverMenu := h }
  | hoversSubitem (f : Int) : Outcome bar { bar with hoverSubitem := f }
  | leavesItem : Outcome bar { bar with hoverItem := -1 }
  | hoversItem (idx : Nat) (item : Item) : 0 ≤ bar.activeMenu → bar.items[idx]? = some item →
      Outcome bar { bar with hoverItem := idx, activeSubmenu := -1, hoverSubitem := -1 }
  | hoversParent (idx : Nat) (item : Item) : 0 ≤ bar.activeMenu → bar.items[idx]? = some item →
      item.hasSubmenu → Outcome bar { bar with hoverItem := idx, activeSubmenu := idx }
  | opensSubmenu (idx : Nat) (item : Item) : 0 ≤ bar.activeMenu → bar.items[idx]? = some item →
      item.hasSubmenu → Outcome bar { bar with activeSubmenu := idx }

theorem Outcome.sound {bar bar' : Bar} (hout : Outcome bar bar') (h : bar.Sound) :
    bar'.Sound := by
  cases hout with
  | keeps => exact h
  | closes => exact ⟨.inl rfl, .inl rfl, .inl rfl, fun _ => ⟨rfl, rfl⟩⟩
  | opens i hi =>
      refine ⟨.inr ⟨by simp, by simpa using hi⟩, .inl rfl, .inl rfl, fun _ => ⟨rfl, rfl⟩⟩
  | hoversHeader i => exact ⟨h.menu, h.item, h.submenu, h.closed⟩
  | hoversSubitem f => exact ⟨h.menu, h.item, h.submenu, h.closed⟩
  | leavesItem => exact ⟨h.menu, .inl rfl, h.submenu, fun hmenu => ⟨rfl, (h.closed hmenu).2⟩⟩
  | hoversItem idx item h0 hitem =>
      have hlt := (List.getElem?_eq_some_iff.mp hitem).1
      refine ⟨h.menu, .inr ⟨by simp, Int.ofNat_lt.mpr hlt⟩, .inl rfl, fun hmenu => ?_⟩
      simp only at hmenu
      omega
  | hoversParent idx item h0 hitem hsub =>
      have hlt := (List.getElem?_eq_some_iff.mp hitem).1
      refine ⟨h.menu, .inr ⟨by simp, Int.ofNat_lt.mpr hlt⟩, .inr ⟨by simp, item, hitem, hsub⟩,
        fun hmenu => ?_⟩
      simp only at hmenu
      omega
  | opensSubmenu idx item h0 hitem hsub =>
      refine ⟨h.menu, h.item, .inr ⟨by simp, item, hitem, hsub⟩, fun hmenu => ?_⟩
      simp only at hmenu
      omega

theorem dropdownItem_some {bar : Bar} {relX relY idx : Int} {item : Item}
    (h : bar.dropdownItem relX relY = some (idx, item)) :
    ∃ i : Nat, idx = i ∧ bar.items[i]? = some item ∧
      inside (bar.header bar.activeMenu).dropdown relX relY ∧
      rowAt APP_MENU_BAR_HEIGHT relY = i := by
  rw [Bar.dropdownItem] at h
  split at h
  · rename_i hin
    rw [Option.map_eq_some_iff] at h
    obtain ⟨it, hit, heq⟩ := h
    cases heq
    obtain ⟨i, hi⟩ := Int.eq_ofNat_of_zero_le hin.2
    rw [hi, Int.toNat_natCast] at hit
    exact ⟨i, hi, hit, hin.1, hi⟩
  · cases h

theorem findIdx?_lt {bar : Bar} {p : Header → Bool} {i : Nat}
    (h : bar.headers.findIdx? p = some i) : i < bar.headers.length :=
  (List.findIdx?_eq_some_iff_findIdx_eq.mp h).1

theorem mouseMove_outcome (bar : Bar) (relX relY : Int) :
    Outcome bar (appMenuHandleMouseMove bar relX relY).1 := by
  rw [appMenuHandleMouseMove]
  split
  · rename_i hopen
    split
    · rename_i hdr i hfind
      have hmem := List.mem_of_find?_eq_some hfind
      exact .opens i (List.mem_zipIdx' hmem).1
    · split
      · exact .hoversSubitem _
      · split
        · rename_i idx item hitem
          obtain ⟨i, rfl, hget, -⟩ := dropdownItem_some hitem
          split
          · split
            · rename_i hsub
              exact .hoversParent i item hopen hget hsub
            · exact .hoversItem i item hopen hget
          · exact .leavesItem
        · exact .keeps
  · split
    · exact .hoversHeader _
    · split
      · exact .hoversHeader _
      · exact .keeps

theorem openMenu_outcome (bar : Bar) (headerIdx : Int) :
    Outcome bar (appMenuOpen bar headerIdx) := by
  rw [appMenuOpen]
  split
  · exact .keeps
  · rename_i hrange
    obtain ⟨i, rfl⟩ := Int.eq_ofNat_of_zero_le (a := headerIdx) (by omega)
    exact .opens i (by omega)

-- A click on a header of the bar or outside of the open menu.
def Bar.outside (bar : Bar) (relX relY : Int) : Click :=
  match if onBar relY then bar.headers.findIdx? (Header.holds · relX) else none with
  | some h =>
    if bar.activeMenu = h then ⟨appMenuClose bar, true, 0, -1⟩
    else ⟨appMenuOpen bar h, true, 0, -1⟩
  | none => ⟨appMenuClose bar, true, 0, -1⟩

theorem mouseDown_open {bar : Bar} (hopen : 0 ≤ bar.activeMenu) (relX relY : Int) :
    appMenuHandleMouseDown bar relX relY =
      match bar.submenuRow relX relY with
      | some subIdx =>
        ⟨appMenuClose bar, true, (bar.items[bar.activeSubmenu.toNat]?.map Item.cmdId).getD 0,
          subIdx⟩
      | none =>
        match bar.dropdownItem relX relY with
        | some (idx, item) =>
          if item.hasSubmenu then ⟨{ bar with activeSubmenu := idx }, true, 0, -1⟩
          else if item.enabled ∧ !item.isSeparator then ⟨appMenuClose bar, true, item.cmdId, -1⟩
          else bar.outside relX relY
        | none => bar.outside relX relY := by
  rw [appMenuHandleMouseDown, if_pos hopen]
  rfl

theorem outside_outcome (bar : Bar) (relX relY : Int) :
    Outcome bar (bar.outside relX relY).bar := by
  rw [Bar.outside]
  split
  · split
    · exact .closes
    · exact openMenu_outcome bar _
  · exact .closes

theorem mouseDown_outcome (bar : Bar) (relX relY : Int) :
    Outcome bar (appMenuHandleMouseDown bar relX relY).bar := by
  by_cases hopen : 0 ≤ bar.activeMenu
  · rw [mouseDown_open hopen]
    split
    · exact .closes
    · split
      · rename_i idx item hitem
        obtain ⟨i, rfl, hget, -⟩ := dropdownItem_some hitem
        split
        · rename_i hsub
          exact .opensSubmenu i item hopen hget hsub
        · split
          · exact .closes
          · exact outside_outcome bar relX relY
      · exact outside_outcome bar relX relY
  · rw [appMenuHandleMouseDown, if_neg hopen]
    split
    · exact openMenu_outcome bar _
    · exact .keeps

theorem key_outcome (bar : Bar) (key : Nat) : Outcome bar (appMenuHandleKey bar key).1 := by
  rw [appMenuHandleKey]
  split
  · exact .closes
  · exact .keeps

theorem exec_grows_or_outcome (bar : Bar) (c : Call) :
    Grows bar (exec bar c) ∨ Outcome bar (exec bar c) := by
  cases c with
  | addHeader width => exact .inl (addHeader_grows bar width)
  | addItem headerIdx cmdId enabled =>
      rw [exec]
      split
      · exact .inr .keeps
      · exact .inl (addItem_grows bar _ _)
  | addSeparator headerIdx =>
      rw [exec]
      split
      · exact .inr .keeps
      · exact .inl (addItem_grows bar _ _)
  | addSubmenuItem headerIdx cmdId submenuId =>
      rw [exec]
      split
      · exact .inr .keeps
      · exact .inl (addItem_grows bar _ _)
  | openMenu headerIdx => exact .inr (openMenu_outcome bar headerIdx)
  | closeMenu => exact .inr .closes
  | mouseMove relX relY => exact .inr (mouseMove_outcome bar relX relY)
  | mouseDown relX relY shown => exact .inr (mouseDown_outcome bar relX relY)
  | key key => exact .inr (key_outcome bar key)

theorem sound_step {bar bar' : Bar} {c : Call} (h : bar.Sound) (hstep : Step bar c bar') :
    bar'.Sound := by
  rw [Step] at hstep
  subst hstep
  rcases exec_grows_or_outcome bar c with hgrows | hout
  · exact hgrows.sound h
  · exact hout.sound h

theorem addHeader_bounded {bar : Bar} (h : bar.Bounded) (width : Int) :
    (appMenuAddHeader bar width).Bounded := by
  rw [appMenuAddHeader]
  split
  · exact h
  · intro hdr hmem
    rcases List.mem_append.mp hmem with hold | hnew
    · exact h hdr hold
    · rw [List.mem_singleton.mp hnew]
      exact Nat.zero_le 16

theorem addItem_bounded {bar : Bar} (h : bar.Bounded) (headerIdx : Nat) (item : Item) :
    (addItem bar headerIdx item).Bounded := by
  rw [addItem]
  split
  · exact h
  · intro hdr hmem
    obtain ⟨k, hk⟩ := List.mem_iff_getElem?.mp hmem
    rw [List.getElem?_modify, Option.map_eq_map, Option.map_eq_some_iff] at hk
    obtain ⟨old, hold, rfl⟩ := hk
    have hlen := h old (List.mem_of_getElem? hold)
    split
    · split
      · exact hlen
      · rename_i hfull
        rw [APP_MENU_MAX_ITEMS] at hfull
        rw [List.length_append, List.length_singleton]
        omega
    · exact hlen

theorem Outcome.headers_eq {bar bar' : Bar} (hout : Outcome bar bar') :
    bar'.headers = bar.headers := by
  cases hout <;> rfl

theorem bounded_step {bar bar' : Bar} {c : Call} (h : bar.Bounded) (hstep : Step bar c bar') :
    bar'.Bounded := by
  have hsame : ∀ bar'', Outcome bar bar'' → bar''.Bounded := by
    intro bar'' hout
    rw [Bar.Bounded, hout.headers_eq]
    exact h
  rw [Step] at hstep
  subst hstep
  cases c with
  | addHeader width => exact addHeader_bounded h width
  | addItem headerIdx cmdId enabled =>
      rw [exec]
      split
      · exact h
      · exact addItem_bounded h _ _
  | addSeparator headerIdx =>
      rw [exec]
      split
      · exact h
      · exact addItem_bounded h _ _
  | addSubmenuItem headerIdx cmdId submenuId =>
      rw [exec]
      split
      · exact h
      · exact addItem_bounded h _ _
  | openMenu headerIdx => exact hsame _ (openMenu_outcome bar headerIdx)
  | closeMenu => exact hsame _ .closes
  | mouseMove relX relY => exact hsame _ (mouseMove_outcome bar relX relY)
  | mouseDown relX relY shown => exact hsame _ (mouseDown_outcome bar relX relY)
  | key key => exact hsame _ (key_outcome bar key)

theorem Bar.Bounded.items_length {bar : Bar} (h : bar.Bounded) : bar.items.length ≤ 16 := by
  rw [Bar.items, Bar.header, List.getD_eq_getElem?_getD]
  cases hget : bar.headers[bar.activeMenu.toNat]? with
  | none => exact Nat.zero_le 16
  | some hdr => exact h hdr (List.mem_of_getElem? hget)

section Press

variable (bar : Bar) (relX relY : Int)

-- The lines of the screen that a painted row takes.
def OnRow (r : Rect) (y : Int) : Prop := r.top ≤ y ∧ y < r.bottom

-- The press on the painted row of an enabled item of the open menu that is neither a separator
-- nor has a submenu.
def Bar.LeafPressed (click : Click) : Prop :=
  ∃ (i : Nat) (item : Item), bar.items[i]? = some item ∧
    (item.enabled = true ∧ item.isSeparator = false ∧ item.hasSubmenu = false) ∧
    inside (bar.header bar.activeMenu).dropdown relX relY ∧
    OnRow ((bar.header bar.activeMenu).rowRect i) relY ∧
    click.cmd = item.cmdId ∧ click.subitem = -1

-- The press on a painted row of the open submenu.
def Bar.SubitemPressed (shown : Nat) (click : Click) : Prop :=
  ∃ (f : Nat) (item : Item), f < shown ∧ 0 ≤ bar.activeSubmenu ∧
    bar.items[bar.activeSubmenu.toNat]? = some item ∧
    inside ((bar.header bar.activeMenu).submenu bar.activeSubmenu) relX relY ∧
    OnRow ((bar.header bar.activeMenu).subRowRect bar.activeSubmenu f) relY ∧
    click.cmd = item.cmdId ∧ click.subitem = f

def Bar.PressLaw (shown : Nat) : Prop :=
  let click := appMenuHandleMouseDown bar relX relY
  click.cmd ≠ 0 →
    0 ≤ bar.activeMenu ∧
      (bar.LeafPressed relX relY click ∨ bar.SubitemPressed relX relY shown click) ∧
      click.bar.activeMenu = -1

def Bar.OverSubmenu : Prop :=
  0 ≤ bar.activeSubmenu ∧ bar.activeSubmenu < bar.items.length ∧
    inside ((bar.header bar.activeMenu).submenu bar.activeSubmenu) relX relY

-- The press is not in the three lines over the first row of a menu, and not behind the last row
-- of the submenu, where a command is to be had there.
def Bar.Aimed (shown : Nat) : Prop :=
  0 ≤ bar.activeMenu →
    (bar.OverSubmenu relX relY →
      ∀ item, bar.items[bar.activeSubmenu.toNat]? = some item → item.cmdId ≠ 0 →
        ((bar.header bar.activeMenu).submenu bar.activeSubmenu).top + 3 ≤ relY ∧
          relY < ((bar.header bar.activeMenu).submenu bar.activeSubmenu).top + 3 +
            shown * APP_MENU_ROW_HEIGHT) ∧
    (¬bar.OverSubmenu relX relY → inside (bar.header bar.activeMenu).dropdown relX relY →
      relY < APP_MENU_BAR_HEIGHT + 3 →
        ∀ item, bar.items[0]? = some item → item.enabled = true → item.isSeparator = false →
          item.hasSubmenu = false → item.cmdId = 0)

end Press

theorem rowAt_strip {top relY : Int} (h : top ≤ relY) (h3 : relY < top + 3) :
    rowAt top relY = 0 := by
  rw [rowAt, APP_MENU_ROW_HEIGHT]
  have hneg : (relY - (top + 3)) = -(top + 3 - relY) := by omega
  rw [hneg, Int.neg_tdiv, Int.tdiv_eq_ediv_of_nonneg (by omega)]
  omega

theorem rowAt_below {top relY : Int} (h : top + 3 ≤ relY) :
    0 ≤ rowAt top relY ∧ top + 3 + rowAt top relY * 22 ≤ relY ∧
      relY < top + 3 + (rowAt top relY + 1) * 22 := by
  rw [rowAt, APP_MENU_ROW_HEIGHT, Int.tdiv_eq_ediv_of_nonneg (by omega)]
  omega

theorem outside_cmd (bar : Bar) (relX relY : Int) : (bar.outside relX relY).cmd = 0 := by
  rw [Bar.outside]
  split
  · split <;> rfl
  · rfl

theorem submenu_top {bar : Bar} (hb : bar.Bounded) {relX relY : Int}
    (hover : bar.OverSubmenu relX relY) :
    ((bar.header bar.activeMenu).submenu bar.activeSubmenu).top = 24 + bar.activeSubmenu * 22 := by
  have hlen := hb.items_length
  have h0 := hover.1
  have hlt := hover.2.1
  rw [Header.submenu, APP_MENU_BAR_HEIGHT, APP_MENU_ROW_HEIGHT]
  simp only
  rw [asH_of_range (by omega)]
  omega

theorem submenu_bottom (hdr : Header) (a : Int) :
    (hdr.submenu a).bottom = (hdr.submenu a).top + 710 := rfl

-- A press in the area of the submenu has a row of it.
theorem submenuRow_over {bar : Bar} {relX relY : Int} (hover : bar.OverSubmenu relX relY) :
    bar.submenuRow relX relY =
        some (rowAt ((bar.header bar.activeMenu).submenu bar.activeSubmenu).top relY) ∧
      0 ≤ rowAt ((bar.header bar.activeMenu).submenu bar.activeSubmenu).top relY := by
  obtain ⟨h0, hlt, hin⟩ := hover
  have htop := (inside_iff.mp hin).2.2.1
  have hrow : 0 ≤ rowAt ((bar.header bar.activeMenu).submenu bar.activeSubmenu).top relY := by
    by_cases hstrip : relY < ((bar.header bar.activeMenu).submenu bar.activeSubmenu).top + 3
    · rw [rowAt_strip htop hstrip]
    · exact (rowAt_below (by omega)).1
  refine ⟨?_, hrow⟩
  rw [Bar.submenuRow]
  exact if_pos ⟨h0, hlt, hin, hrow⟩

theorem submenuRow_not_over {bar : Bar} {relX relY : Int}
    (hover : ¬bar.OverSubmenu relX relY) : bar.submenuRow relX relY = none := by
  rw [Bar.submenuRow]
  refine if_neg ?_
  rintro ⟨h0, hlt, hin, -⟩
  exact hover ⟨h0, hlt, hin⟩

theorem subRowRect_lines {bar : Bar} (hb : bar.Bounded) {relX relY : Int}
    (hover : bar.OverSubmenu relX relY) {f : Nat} (hf : f ≤ 32) :
    ((bar.header bar.activeMenu).subRowRect bar.activeSubmenu f).top =
        ((bar.header bar.activeMenu).submenu bar.activeSubmenu).top + 3 + f * 22 ∧
      ((bar.header bar.activeMenu).subRowRect bar.activeSubmenu f).bottom =
        ((bar.header bar.activeMenu).submenu bar.activeSubmenu).top + 3 + (f + 1) * 22 := by
  have hlen := hb.items_length
  have h0 := hover.1
  have hlt := hover.2.1
  rw [submenu_top hb hover, Header.subRowRect, APP_MENU_BAR_HEIGHT, APP_MENU_ROW_HEIGHT]
  simp only
  rw [asH_of_range (n := 21 + 3 + bar.activeSubmenu * 22) (by omega), asH_of_range (by omega),
    asH_of_range (by omega)]
  omega

theorem law_over_submenu {bar : Bar} (hb : bar.Bounded) (hopen : 0 ≤ bar.activeMenu)
    {relX relY : Int} (hover : bar.OverSubmenu relX relY) (shown : Nat) :
    bar.PressLaw relX relY shown ↔
      ∀ item, bar.items[bar.activeSubmenu.toNat]? = some item → item.cmdId ≠ 0 →
        ((bar.header bar.activeMenu).submenu bar.activeSubmenu).top + 3 ≤ relY ∧
          relY < ((bar.header bar.activeMenu).submenu bar.activeSubmenu).top + 3 +
            shown * APP_MENU_ROW_HEIGHT := by
  obtain ⟨hrow, hrow0⟩ := submenuRow_over hover
  have hin := inside_iff.mp hover.2.2
  rw [submenu_bottom] at hin
  obtain ⟨item, hitem⟩ : ∃ item, bar.items[bar.activeSubmenu.toNat]? = some item :=
    ⟨_, List.getElem?_eq_getElem (by have := hover.1; have := hover.2.1; omega)⟩
  have hlines := fun f (hf : f ≤ 32) => subRowRect_lines hb hover hf
  rw [Bar.PressLaw, mouseDown_open hopen, hrow, hitem, APP_MENU_ROW_HEIGHT]
  generalize ((bar.header bar.activeMenu).submenu bar.activeSubmenu).top = top at *
  obtain ⟨f, hf⟩ := Int.eq_ofNat_of_zero_le hrow0
  rw [hf]
  constructor
  · intro hlaw item' hitem' hcmd
    obtain rfl := Option.some.inj hitem'
    obtain ⟨-, hleaf | hsub, -⟩ := hlaw hcmd
    · obtain ⟨i, it, -, -, -, -, -, hsubitem⟩ := hleaf
      simp only at hsubitem
      omega
    · obtain ⟨f', it, hshown, -, -, -, hon, -, hsubitem⟩ := hsub
      obtain rfl := Int.ofNat.inj hsubitem
      have hf32 : f ≤ 32 := by
        by_cases hstrip : relY < top + 3
        · have := rowAt_strip (by omega) hstrip
          omega
        · have := rowAt_below (show top + 3 ≤ relY by omega)
          omega
      have hrect := hlines f hf32
      rw [OnRow] at hon
      omega
  · intro hband hcmd
    have hband := hband item rfl hcmd
    have hbelow := rowAt_below hband.1
    have hrect := hlines f (by omega)
    refine ⟨hopen, .inr ⟨f, item, by omega, hover.1, hitem, hover.2.2, ?_, rfl, rfl⟩, rfl⟩
    rw [OnRow]
    omega

theorem rowRect_lines (hdr : Header) {i : Nat} (hi : i < 16) :
    (hdr.rowRect i).top = 24 + (i : Int) * 22 ∧
      (hdr.rowRect i).bottom = 24 + ((i : Int) + 1) * 22 := by
  rw [Header.rowRect, APP_MENU_BAR_HEIGHT, APP_MENU_ROW_HEIGHT]
  simp only
  rw [asH_of_range (by omega), asH_of_range (by omega)]
  omega

-- A press in the three lines over the first row of the dropdown has the first row.
theorem dropdownItem_strip {bar : Bar} {relX relY : Int}
    (hin : inside (bar.header bar.activeMenu).dropdown relX relY)
    (hstrip : relY < APP_MENU_BAR_HEIGHT + 3) :
    bar.dropdownItem relX relY = bar.items[0]?.map fun item => (0, item) := by
  have htop : APP_MENU_BAR_HEIGHT ≤ relY := (inside_iff.mp hin).2.2.1
  have hrow : rowAt (bar.header bar.activeMenu).dropdown.top relY = 0 := rowAt_strip htop hstrip
  rw [Bar.dropdownItem]
  simp only [hrow]
  exact if_pos ⟨hin, le_rfl⟩

theorem law_over_dropdown {bar : Bar} (hb : bar.Bounded) (hopen : 0 ≤ bar.activeMenu)
    {relX relY : Int} (hover : ¬bar.OverSubmenu relX relY) (shown : Nat) :
    bar.PressLaw relX relY shown ↔
      (inside (bar.header bar.activeMenu).dropdown relX relY →
        relY < APP_MENU_BAR_HEIGHT + 3 →
          ∀ item, bar.items[0]? = some item → item.enabled = true → item.isSeparator = false →
            item.hasSubmenu = false → item.cmdId = 0) := by
  have hheight : APP_MENU_BAR_HEIGHT = 21 := rfl
  have hlen := hb.items_length
  rw [Bar.PressLaw, mouseDown_open hopen, submenuRow_not_over hover]
  cases hrow : bar.dropdownItem relX relY with
  | none =>
      refine iff_of_true (fun hcmd => absurd (outside_cmd bar relX relY) hcmd) ?_
      intro hin hstrip item hitem
      rw [dropdownItem_strip hin hstrip, hitem] at hrow
      cases hrow
  | some row =>
      obtain ⟨idx, item⟩ := row
      obtain ⟨i, rfl, hget, hin, hat⟩ := dropdownItem_some hrow
      have hi := (List.getElem?_eq_some_iff.mp hget).1
      have htop : APP_MENU_BAR_HEIGHT ≤ relY := (inside_iff.mp hin).2.2.1
      have hlines := rowRect_lines (bar.header bar.activeMenu) (i := i) (by omega)
      -- the first row is the one taken over the rows
      have hfirst : relY < APP_MENU_BAR_HEIGHT + 3 → bar.items[0]? = some item := by
        intro hstrip
        have hzero := rowAt_strip htop hstrip
        rw [hat] at hzero
        rwa [Int.natCast_eq_zero.mp hzero] at hget
      by_cases hleaf : item.hasSubmenu = false ∧ item.enabled = true ∧ item.isSeparator = false
      · obtain ⟨hsub, henabled, hsep⟩ := hleaf
        simp only [hsub, henabled, hsep]
        constructor
        · intro hlaw _ hstrip item' hitem' _ _ _
          by_contra hcmd
          obtain rfl := Option.some.inj ((hfirst hstrip).symm.trans hitem')
          obtain ⟨-, ⟨j, it, hj, -, -, hon, -⟩ | ⟨f, it, -, -, -, -, -, -, hsubitem⟩, -⟩ :=
            hlaw hcmd
          · have hj' := (List.getElem?_eq_some_iff.mp hj).1
            have hlines' := rowRect_lines (bar.header bar.activeMenu) (i := j) (by omega)
            rw [OnRow] at hon
            omega
          · have hneg : (-1 : Int) = f := hsubitem
            omega
        · intro hstrip hcmd
          have hbelow : APP_MENU_BAR_HEIGHT + 3 ≤ relY := by
            by_contra hlt
            exact hcmd (hstrip hin (by omega) item (hfirst (by omega)) henabled hsep hsub)
          have hband := rowAt_below hbelow
          rw [hat] at hband
          refine ⟨hopen, .inl ⟨i, item, hget, ⟨henabled, hsep, hsub⟩, hin, ?_, rfl, rfl⟩, rfl⟩
          rw [OnRow]
          omega
      · refine iff_of_true (fun hcmd => absurd ?_ hcmd) ?_
        · dsimp only
          by_cases hsub : item.hasSubmenu = true
          · rw [if_pos hsub]
          · rw [if_neg hsub, if_neg]
            · exact outside_cmd bar relX relY
            · rintro ⟨henabled, hsep⟩
              rw [Bool.not_eq_true'] at hsep
              rw [Bool.not_eq_true] at hsub
              exact hleaf ⟨hsub, henabled, hsep⟩
        · intro _ hstrip item' hitem' henabled hsep hsub
          obtain rfl := Option.some.inj ((hfirst hstrip).symm.trans hitem')
          exact absurd ⟨hsub, henabled, hsep⟩ hleaf

theorem press_law_iff {bar : Bar} (hb : bar.Bounded) (relX relY : Int) (shown : Nat) :
    bar.PressLaw relX relY shown ↔ bar.Aimed relX relY shown := by
  by_cases hopen : 0 ≤ bar.activeMenu
  · rw [Bar.Aimed]
    by_cases hover : bar.OverSubmenu relX relY
    · rw [law_over_submenu hb hopen hover]
      exact ⟨fun h _ => ⟨fun _ => h, fun hnot => absurd hover hnot⟩, fun h => (h hopen).1 hover⟩
    · rw [law_over_dropdown hb hopen hover]
      exact ⟨fun h _ => ⟨fun hover' => absurd hover' hover, fun _ => h⟩,
        fun h => (h hopen).2 hover⟩
  · refine iff_of_true (fun hcmd => absurd ?_ hcmd) fun hopen' => absurd hopen' hopen
    rw [appMenuHandleMouseDown, if_neg hopen]
    split <;> rfl

def Lawful (bar : Bar) : Call → Prop
  | .mouseDown relX relY shown => bar.PressLaw relX relY shown
  | _ => True

def AimedCall (bar : Bar) : Call → Prop
  | .mouseDown relX relY shown => bar.Aimed relX relY shown
  | _ => True

theorem sound_init : appMenuInit.Sound :=
  ⟨.inl rfl, .inl rfl, .inl rfl, fun _ => ⟨rfl, rfl⟩⟩

theorem bounded_init : appMenuInit.Bounded := by
  intro hdr hmem
  cases hmem

-- The indices are right in every state of a run, and a press keeps the law exactly if it is aimed
-- at the rows.
theorem menu_presses_lawful_iff (tr : List (Bar × Call)) (bar : Bar)
    (hrun : Trace Step appMenuInit tr bar) :
    (bar.Sound ∧ ∀ t ∈ tr, t.1.Sound) ∧ ∀ t ∈ tr, Lawful t.1 t.2 ↔ AimedCall t.1 t.2 := by
  obtain ⟨-, hbounded⟩ := hrun.always bounded_init fun _ _ _ => bounded_step
  refine ⟨hrun.always sound_init fun _ _ _ => sound_step, ?_⟩
  rintro ⟨bar, c⟩ ht
  cases c with
  | mouseDown relX relY shown => exact press_law_iff (hbounded _ ht) relX relY shown
  | _ => exact Iff.rfl

-- One menu with one item, opened.
def saveMenu : Bar :=
  exec (exec (exec appMenuInit (.addHeader 104)) (.addItem 0 201 true)) (.openMenu 0)

theorem saveMenu_press (relX relY : Int) :
    ∃ tr, Trace Step appMenuInit ((saveMenu, .mouseDown relX relY 0) :: tr)
      (exec saveMenu (.mouseDown relX relY 0)) :=
  ⟨_, .next (.next (.next (.next .start rfl) rfl) rfl) rfl⟩

theorem press_on_save :
    saveMenu.PressLaw 50 30 0 ∧ (appMenuHandleMouseDown saveMenu 50 30).cmd = 201 := by
  obtain ⟨tr, hrun⟩ := saveMenu_press 50 30
  refine ⟨((menu_presses_lawful_iff _ _ hrun).2 _ List.mem_cons_self).mpr ?_, by decide⟩
  intro _
  refine ⟨fun hover => absurd hover.1 (by decide), fun _ _ hstrip => ?_⟩
  exact absurd hstrip (by decide)

-- A press on the lowest line of the header has the command of the first item.
theorem presses_not_always_lawful :
    ¬∀ tr bar, Trace Step appMenuInit tr bar →
      (bar.Sound ∧ ∀ t ∈ tr, t.1.Sound) ∧ ∀ t ∈ tr, Lawful t.1 t.2 := by
  intro hall
  obtain ⟨tr, hrun⟩ := saveMenu_press 50 21
  have hbounded := (hrun.always bounded_init fun _ _ _ => bounded_step).2 _ List.mem_cons_self
  have haimed := (press_law_iff hbounded 50 21 0).mp ((hall _ _ hrun).2 _ List.mem_cons_self)
  have hcmd := (haimed (by decide)).2 (fun hover => absurd hover.1 (by decide)) (by decide)
    (by decide) ⟨201, false, false, -1, true⟩ (by rfl) rfl rfl rfl
  cases hcmd

end BTron.AppMenu
