import BTron.GlobalMenu
import BTron.Tracker.Hover

namespace BTron.MenuBar

open Lib Graphics
open GlobalMenu
open Tracker (trackerIsMenuOpen trackerOpenMenu trackerCloseMenu trackerHandleMouseMove
  trackerHandleMouseDown trackerHandleKey Menu Hovers)

-- The two menus agree: which is open, what is hovered, and what a press on a row does.
structure InStep (s : MenuBar) : Prop where
  active : s.menu.activeMenu = -1 ∨ 0 ≤ s.menu.activeMenu ∧ s.menu.activeMenu < GMENU_HEADER_COUNT
  hover : s.menu.hoverItem = -1 ∨ ∃ i it, s.menu.hoverItem = (i : Nat) ∧
    (s.menu.items s.menu.activeMenu.toNat)[i]? = some it ∧ it.enabled ∧ !it.isSeparator
  open_iff : s.tracker.state = .open ↔ s.menu.activeMenu = GMENU_HDR_BTRON
  presses : ∀ wnds x y r e, (r, e) ∈ globalMenuRenderOverlay s → r.contains x y →
    (pressEvent s wnds x y).2 = (true, e)

-- No key opens or closes the tracker behind the menu bar's back.
def Calm (s : MenuBar) : Event → Prop
  | .key code =>
    code ≠ 0x101 ∧ code ≠ 0x120 ∧ (s.tracker.state = .open → code ≠ 0x0D ∧ code ≠ 0x20)
  | _ => True

-- What holds of the tracker at all times: a row is hovered whenever the menu is open.
structure Hovering (t : Tracker) : Prop where
  menu : Menu t
  hovers : Hovers t
  opened : t.state = .open → 0 ≤ t.hoverIndex

-- What holds of the two at all times.
structure Inv (s : MenuBar) : Prop where
  tracker : Hovering s.tracker
  windows : s.menu.windowItems.length ≤ 15 ∧ ∀ it ∈ s.menu.windowItems, it.isSeparator = false

-- What of the agreement is about the state alone.
structure Core (s : MenuBar) : Prop where
  active : s.menu.activeMenu = -1 ∨ 0 ≤ s.menu.activeMenu ∧ s.menu.activeMenu < GMENU_HEADER_COUNT
  hover : s.menu.hoverItem = -1 ∨ ∃ i it, s.menu.hoverItem = (i : Nat) ∧
    (s.menu.items s.menu.activeMenu.toNat)[i]? = some it ∧ it.enabled ∧ !it.isSeparator
  open_iff : s.tracker.state = .open ↔ s.menu.activeMenu = GMENU_HDR_BTRON

section Tracker

variable {t : Tracker} {wnds : List Tracker.Listed}

theorem isMenuOpen_iff : trackerIsMenuOpen t = true ↔ t.state = .open := by
  rw [trackerIsMenuOpen, decide_eq_true_eq]

theorem mouseMove_state (t : Tracker) (x y : Int) :
    (trackerHandleMouseMove t x y).1.state = .open ↔ t.state = .open := by
  unfold trackerHandleMouseMove
  split
  · split
    · split <;> rfl
    · rfl
  · rename_i hshut
    rw [isMenuOpen_iff] at hshut
    split
    · split
      · simp [hshut]
      · rfl
    · split
      · simp [hshut]
      · rfl

-- A press while the menu is open is taken, and closes the menu.
theorem mouseDown_open (hopen : t.state = .open) (x y : Int) :
    (trackerHandleMouseDown t wnds x y).2.1 = true ∧
      (trackerHandleMouseDown t wnds x y).1.state = .normal := by
  have hisOpen := isMenuOpen_iff.mpr hopen
  unfold trackerHandleMouseDown
  split
  · refine ⟨rfl, ?_⟩
    dsimp only
    rw [Tracker.trackerToggleMenu, if_pos hisOpen]
    rfl
  · split
    · exact ⟨rfl, rfl⟩
    · exact ⟨rfl, rfl⟩

theorem toggleMenu_state (t : Tracker) (wnds : List Tracker.Listed) :
    (Tracker.trackerToggleMenu t wnds).state = .open ↔ t.state ≠ .open := by
  rw [Tracker.trackerToggleMenu]
  split
  · rename_i hopen
    simp [trackerCloseMenu, isMenuOpen_iff.mp hopen]
  · rename_i hshut
    simpa [trackerOpenMenu] using isMenuOpen_iff.not.mp hshut

-- What a key does to the menu, where the hovered row is one of it.
theorem key_state (hopened : t.state = .open → 0 ≤ t.hoverIndex ∧ t.hoverIndex < t.itemCount)
    (code : Int) :
    ((trackerHandleKey t wnds code).1.state = .open ↔ t.state = .open) ↔
      code ≠ 0x101 ∧ code ≠ 0x120 ∧
        (t.state = .open → code ≠ 0x1B ∧ code ≠ 0x0D ∧ code ≠ 0x20) := by
  unfold trackerHandleKey
  split
  · rename_i htoggle
    rw [toggleMenu_state]
    constructor
    · intro h
      by_cases hopen : t.state = .open
      · exact absurd hopen (h.mpr hopen)
      · exact absurd (h.mp hopen) hopen
    · rintro ⟨h₁, h₂, -⟩
      exact absurd htoggle (by omega)
  rename_i htoggle
  have htoggle' : code ≠ 0x101 ∧ code ≠ 0x120 := by omega
  split
  · rename_i hshut
    have hshut' : t.state ≠ .open := by
      rw [← isMenuOpen_iff.ne]
      simpa using hshut
    simp [hshut', htoggle']
  rename_i hopen
  have hopen' : t.state = .open := by
    rw [← isMenuOpen_iff]
    simpa using hopen
  obtain ⟨hge, hlt⟩ := hopened hopen'
  simp only [hopen', true_imp_iff, iff_true]
  split
  · rename_i hesc
    simp [trackerCloseMenu, hesc]
  rename_i hesc
  split
  · rename_i hdown
    dsimp only
    split
    · simp only [true_iff]
      omega
    · simp only [hopen', true_iff]
      omega
  split
  · rename_i hup
    dsimp only
    split
    · simp only [true_iff]
      omega
    · simp only [hopen', true_iff]
      omega
  split
  · rename_i henter
    rw [if_pos ⟨hge, hlt⟩]
    simp only [trackerCloseMenu, reduceCtorEq, false_iff]
    omega
  · simp only [hopen', true_iff]
    omega

theorem Hovering.outcome {t' : Tracker} (h : Hovering t) (hout : Tracker.Outcome t wnds t') :
    Hovering t' := by
  refine ⟨hout.menu h.menu, hout.hovers_after h.menu h.hovers, fun hopen => ?_⟩
  cases hout with
  | keeps => exact h.opened hopen
  | glides st _ hst => exact absurd hopen hst
  | hovers i => exact Int.natCast_nonneg i
  | closes => cases hopen
  | opens => exact le_refl 0

end Tracker

section Parts

variable {s : MenuBar} {wnds : List Shown}

theorem Core.congr {s' : MenuBar} (h : Core s) (hactive : s'.menu.activeMenu = s.menu.activeMenu)
    (hhover : s'.menu.hoverItem = s.menu.hoverItem)
    (hwindows : s'.menu.windowItems = s.menu.windowItems)
    (hstate : s'.tracker.state = .open ↔ s.tracker.state = .open) : Core s' := by
  have hitems : s'.menu.items = s.menu.items := by
    funext i
    unfold GlobalMenu.items
    rw [hwindows]
  refine ⟨hactive ▸ h.active, ?_, by rw [hstate, hactive, h.open_iff]⟩
  rw [hhover, hitems, hactive]
  exact h.hover

theorem closeTracker_menu (s : MenuBar) : (closeTracker s).menu = s.menu := by
  rw [closeTracker]
  split <;> rfl

theorem closeTracker_state (s : MenuBar) : (closeTracker s).tracker.state ≠ .open := by
  rw [closeTracker]
  split
  · exact fun hopen => by cases hopen
  · rename_i hshut
    exact isMenuOpen_iff.not.mp hshut

theorem closeTracker_hovering (h : Hovering s.tracker) : Hovering (closeTracker s).tracker := by
  rw [closeTracker]
  split
  · exact @Hovering.outcome _ [] _ h (.closes _)
  · exact h

theorem close_core (s : MenuBar) : Core (globalMenuClose s) := by
  have hmenu :=
    closeTracker_menu { s with menu := { s.menu with activeMenu := -1, hoverItem := -1 } }
  refine ⟨.inl ?_, .inl ?_, ?_⟩
  · rw [globalMenuClose, hmenu]
  · rw [globalMenuClose, hmenu]
  · rw [globalMenuClose, hmenu]
    exact iff_of_false (closeTracker_state _) (by simp [GMENU_HDR_BTRON])

theorem close_inv (h : Inv s) : Inv (globalMenuClose s) := by
  refine ⟨closeTracker_hovering h.tracker, ?_⟩
  rw [globalMenuClose, closeTracker_menu]
  exact h.windows

theorem openHeader_core {h : Nat} (hlt : h < GMENU_HEADER_COUNT) : Core (openHeader s wnds h) := by
  have hrange : (0 : Int) ≤ h ∧ (h : Int) < GMENU_HEADER_COUNT := by omega
  rw [openHeader]
  dsimp only
  split
  · rename_i hzero
    subst hzero
    exact ⟨.inr hrange, .inl rfl, iff_of_true rfl rfl⟩
  · rename_i hzero
    have hne : ¬(h : Int) = GMENU_HDR_BTRON := by omega
    split
    · refine ⟨.inr ?_, .inl ?_, ?_⟩
      all_goals simp only [refreshWindowMenu, closeTracker_menu]
      · exact hrange
      · exact iff_of_false (closeTracker_state _) hne
    · refine ⟨.inr ?_, .inl ?_, ?_⟩
      all_goals simp only [closeTracker_menu]
      · exact hrange
      · exact iff_of_false (closeTracker_state _) hne

theorem refresh_windows (m : GlobalMenu) (wnds : List Shown) :
    (refreshWindowMenu m wnds).windowItems.length ≤ 15 ∧
      ∀ it ∈ (refreshWindowMenu m wnds).windowItems, it.isSeparator = false := by
  rw [refreshWindowMenu]
  constructor
  · rw [List.length_map, List.length_range, List.length_take]
    exact Nat.min_le_left _ _
  · intro it hit
    obtain ⟨i, -, rfl⟩ := List.mem_map.mp hit
    rfl

theorem openHeader_inv (hi : Inv s) (h : Nat) : Inv (openHeader s wnds h) := by
  rw [openHeader]
  dsimp only
  split
  · exact ⟨hi.tracker.outcome .opens, hi.windows⟩
  · split
    · exact ⟨closeTracker_hovering hi.tracker, refresh_windows _ _⟩
    · refine ⟨closeTracker_hovering hi.tracker, ?_⟩
      rw [closeTracker_menu]
      exact hi.windows

theorem headerAt_lt {x : Int} {h : Nat} (hx : headerAt x = some h) : h < GMENU_HEADER_COUNT :=
  List.mem_range.mp (List.mem_of_find?_eq_some hx)

theorem trackerMove_core (h : Core s) (x y : Int) : Core (trackerMove s x y).1 :=
  h.congr rfl rfl rfl (mouseMove_state s.tracker x y)

theorem trackerMove_inv (h : Inv s) (x y : Int) : Inv (trackerMove s x y).1 :=
  ⟨h.tracker.outcome (Tracker.mouseMove_outcome s.tracker [] x y), h.windows⟩

theorem dropdown_eq {m : GlobalMenu} {h : Nat} (hd : m.dropdown = some h) :
    m.activeMenu = h ∧ 0 < h ∧ h < GMENU_HEADER_COUNT := by
  rw [dropdown] at hd
  split at hd
  · have heq := Option.some.inj hd
    omega
  · cases hd

theorem itemAt_some {m : GlobalMenu} {h i : Nat} {y : Int} {it : Item}
    (hi : itemAt m h y = some (i, it)) : (m.items h)[i]? = some it := by
  rw [itemAt] at hi
  split at hi
  · obtain ⟨it', hit, heq⟩ := Option.map_eq_some_iff.mp hi
    rw [Prod.mk.injEq] at heq
    rw [← heq.1, hit, heq.2]
  · cases hi

-- The pointer on a row hovers it, and no other row.
theorem hoverItem_core (h : Core s) {d i : Nat} {it : Item} (hd : s.menu.dropdown = some d)
    (hit : (s.menu.items d)[i]? = some it) :
    Core { s with menu := { s.menu with
      hoverItem := if !it.isSeparator && it.enabled then i else -1 } } := by
  refine ⟨h.active, ?_, h.open_iff⟩
  dsimp only
  split
  · rename_i hable
    rw [Bool.and_eq_true] at hable
    refine .inr ⟨i, it, rfl, ?_, hable.2, hable.1⟩
    rw [(dropdown_eq hd).1]
    exact hit
  · exact .inl rfl

theorem moveTracker_keeps (hc : Core s) (hi : Inv s) (x y : Int) :
    Core (moveTracker s x y).1 ∧ Inv (moveTracker s x y).1 := by
  rw [moveTracker]
  split
  · exact ⟨trackerMove_core hc x y, trackerMove_inv hi x y⟩
  · exact ⟨hc, hi⟩

theorem moveBelow_keeps (hc : Core s) (hi : Inv s) (x y : Int) :
    Core (moveBelow s x y).1 ∧ Inv (moveBelow s x y).1 := by
  unfold moveBelow
  split
  · exact moveTracker_keeps hc hi x y
  · rename_i h hd
    split
    · split
      · exact ⟨hc, hi⟩
      · rename_i i it hit
        exact ⟨hoverItem_core hc hd (itemAt_some hit), hi.tracker, hi.windows⟩
    · apply moveTracker_keeps
      · exact ⟨hc.active, .inl rfl, hc.open_iff⟩
      · exact ⟨hi.tracker, hi.windows⟩

theorem moveEvent_keeps (hc : Core s) (hi : Inv s) (x y : Int) :
    Core (moveEvent s wnds x y) ∧ Inv (moveEvent s wnds x y) := by
  have hbar : Core (globalMenuHandleMouseMove s wnds x y).1 ∧
      Inv (globalMenuHandleMouseMove s wnds x y).1 := by
    have hcore : ∀ t : MenuBar, t.menu.activeMenu = s.menu.activeMenu →
        t.menu.hoverItem = s.menu.hoverItem → t.menu.windowItems = s.menu.windowItems →
        t.tracker = s.tracker → Core t ∧ Inv t := by
      intro t hactive hhover hwindows htracker
      exact ⟨hc.congr hactive hhover hwindows (by rw [htracker]),
        ⟨htracker ▸ hi.tracker, hwindows ▸ hi.windows⟩⟩
    have htip :=
      hcore { s with menu := { s.menu with tipHover := onTip s.menu x y } } rfl rfl rfl rfl
    unfold globalMenuHandleMouseMove
    dsimp only
    split
    · split
      · rename_i h hheader
        have hlt : h < GMENU_HEADER_COUNT := by
          split at hheader
          · exact headerAt_lt hheader
          · cases hheader
        dsimp only
        split
        · exact ⟨openHeader_core hlt, openHeader_inv htip.2 h⟩
        · exact htip
      · exact moveBelow_keeps htip.1 htip.2 x y
    · split
      · exact hcore _ rfl rfl rfl rfl
      · exact hcore _ rfl rfl rfl rfl
  exact ⟨trackerMove_core hbar.1 x y, trackerMove_inv hbar.2 x y⟩

theorem Core.no_hover (h : Core s) (hactive : s.menu.activeMenu = GMENU_HDR_BTRON) :
    s.menu.hoverItem = -1 := by
  obtain hnone | ⟨i, it, -, hit, -⟩ := h.hover
  · exact hnone
  · rw [hactive] at hit
    cases hit

theorem pressTracker_open (hactive : s.menu.activeMenu = GMENU_HDR_BTRON)
    (hopen : s.tracker.state = .open) (x y : Int) :
    pressTracker s wnds x y =
      ({ menu := { s.menu with activeMenu := -1 },
         tracker := (trackerHandleMouseDown s.tracker (wnds.map Shown.listed) x y).1 }, true,
        effectOf (trackerHandleMouseDown s.tracker (wnds.map Shown.listed) x y).2.2) := by
  obtain ⟨hhandled, hstate⟩ := @mouseDown_open s.tracker (wnds.map Shown.listed) hopen x y
  have hshut : trackerIsMenuOpen (trackerHandleMouseDown s.tracker (wnds.map Shown.listed) x y).1
      = false := by
    rw [trackerIsMenuOpen, hstate]
    rfl
  rw [pressTracker, if_pos ⟨hactive, isMenuOpen_iff.mpr hopen⟩]
  dsimp only
  rw [if_pos hhandled, hshut]
  rfl

theorem pressTracker_keeps (hc : Core s) (hi : Inv s) (x y : Int) :
    Core (pressTracker s wnds x y).1 ∧ Inv (pressTracker s wnds x y).1 := by
  by_cases hopen : s.tracker.state = .open
  · have hactive := hc.open_iff.mp hopen
    rw [pressTracker_open hactive hopen]
    obtain ⟨-, hstate⟩ := @mouseDown_open s.tracker (wnds.map Shown.listed) hopen x y
    refine ⟨⟨.inl rfl, .inl (hc.no_hover hactive), ?_⟩,
      hi.tracker.outcome (Tracker.mouseDown_outcome s.tracker _ x y), hi.windows⟩
    exact iff_of_false (by simp [hstate]) (by simp [GMENU_HDR_BTRON])
  · rw [pressTracker, if_neg fun h => hopen (isMenuOpen_iff.mp h.2)]
    split
    · exact ⟨close_core s, close_inv hi⟩
    · exact ⟨hc, hi⟩

theorem pressBelow_keeps (hc : Core s) (hi : Inv s) (x y : Int) :
    Core (pressBelow s wnds x y).1 ∧ Inv (pressBelow s wnds x y).1 := by
  unfold pressBelow
  split
  · exact pressTracker_keeps hc hi x y
  · split
    · split
      · split
        · exact ⟨close_core s, close_inv hi⟩
        · exact ⟨hc, hi⟩
      · exact ⟨hc, hi⟩
    · exact pressTracker_keeps hc hi x y

theorem pressEvent_keeps (hc : Core s) (hi : Inv s) (x y : Int) :
    Core (pressEvent s wnds x y).1 ∧ Inv (pressEvent s wnds x y).1 := by
  have hbar : Core (globalMenuHandleMouseDown s wnds x y).1 ∧
      Inv (globalMenuHandleMouseDown s wnds x y).1 := by
    unfold globalMenuHandleMouseDown
    split
    · exact ⟨hc, hi⟩
    · split
      · rename_i h hheader
        have hlt : h < GMENU_HEADER_COUNT := by
          split at hheader
          · exact headerAt_lt hheader
          · cases hheader
        dsimp only
        split
        · exact ⟨close_core s, close_inv hi⟩
        · exact ⟨openHeader_core hlt, openHeader_inv hi h⟩
      · exact pressBelow_keeps hc hi x y
  unfold pressEvent
  dsimp only
  split
  · exact hbar
  · dsimp only
    split
    · exact ⟨close_core _, close_inv hbar.2⟩
    · exact hbar

-- Enter and Space execute the hovered row, and the keys of the tracker are its own.
theorem toID_eq_iff (code : UInt32) {k : Nat} (hk : k < 2147483648) :
    toID code.toNat = (k : Int) ↔ code.toNat = k := by
  have hlt : code.toNat < 4294967296 := code.toNat_lt
  rw [toID, w32_of_lt hlt]
  split <;> omega

theorem trackerKey_iff (hc : Core s) (hi : Inv s) {code : UInt32}
    (hesc : s.tracker.state = .open → code ≠ 0x1B) {tracker : Tracker}
    (ht : tracker = (trackerHandleKey s.tracker (wnds.map Shown.listed) (toID code.toNat)).1) :
    Core { s with tracker := tracker } ↔ Calm s (.key code) := by
  have hstate : Core { s with tracker := tracker } ↔
      (tracker.state = .open ↔ s.tracker.state = .open) := by
    rw [hc.open_iff]
    exact ⟨fun h => h.open_iff, fun h => ⟨hc.active, hc.hover, h⟩⟩
  have hcode : ∀ k : UInt32, k.toNat < 2147483648 →
      (toID code.toNat = (k.toNat : Int) ↔ code = k) := by
    intro k hk
    rw [toID_eq_iff code hk, UInt32.toNat_inj]
  have hF1 := hcode 0x101 (by decide)
  have hSuper := hcode 0x120 (by decide)
  have hEsc := hcode 0x1B (by decide)
  have hEnter := hcode 0x0D (by decide)
  have hSpace := hcode 0x20 (by decide)
  rw [hstate, ht, key_state fun hopen => ⟨hi.tracker.opened hopen, hi.tracker.hovers.1⟩, Calm]
  simp only [ne_eq, ← hF1, ← hSuper, ← hEnter, ← hSpace]
  rw [← hEsc.ne] at hesc
  exact ⟨fun h => ⟨h.1, h.2.1, fun hopen => (h.2.2 hopen).2⟩,
    fun h => ⟨h.1, h.2.1, fun hopen => ⟨hesc hopen, h.2.2 hopen⟩⟩⟩

end Parts

end BTron.MenuBar
