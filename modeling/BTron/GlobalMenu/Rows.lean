import BTron.GlobalMenu.InStep

namespace BTron.MenuBar

open Lib Graphics
open GlobalMenu
open Tracker (trackerIsMenuOpen trackerHandleMouseDown trackerHandleKey)

section Keys

variable {s : MenuBar} {wnds : List Shown}

-- A row is hovered in a dropdown menu, and then the tracker is not open.
theorem hovered_shut (hc : Core s) {p : Nat × Item} (hp : hovered s = some p) :
    s.tracker.state ≠ .open := by
  rw [hovered] at hp
  obtain ⟨h, hd, -⟩ := Option.bind_eq_some_iff.mp hp
  obtain ⟨hactive, hpos, -⟩ := dropdown_eq hd
  intro hopen
  rw [hc.open_iff.mp hopen, GMENU_HDR_BTRON] at hactive
  omega

-- The menu bar takes a key by closing both menus, or leaves it to the tracker.
theorem handleKey_cases (hc : Core s) (code : UInt32) :
    (globalMenuHandleKey s code = (s, false, none) ∧ (s.tracker.state = .open → code ≠ 0x1B)) ∨
      (globalMenuHandleKey s code).1 = globalMenuClose s ∧
        (globalMenuHandleKey s code).2.1 = true ∧ Calm s (.key code) := by
  unfold globalMenuHandleKey
  split
  · rename_i hshut
    refine .inl ⟨rfl, fun hopen => ?_⟩
    simp [globalMenuIsOpen, isMenuOpen_iff.mpr hopen] at hshut
  split
  · rename_i hesc
    refine .inr ⟨rfl, rfl, ?_⟩
    rw [Calm, hesc]
    exact ⟨by decide, by decide, fun _ => ⟨by decide, by decide⟩⟩
  rename_i hesc
  split
  · rename_i hreturn
    split
    · rename_i p hp
      refine .inr ⟨rfl, rfl, ?_, ?_, fun hopen => absurd hopen (hovered_shut hc hp)⟩
      · rintro rfl
        simp at hreturn
      · rintro rfl
        simp at hreturn
    · exact .inl ⟨rfl, fun _ => hesc⟩
  · exact .inl ⟨rfl, fun _ => hesc⟩

theorem keyEvent_keeps (hc : Core s) (hi : Inv s) (code : UInt32) :
    (Core (keyEvent s wnds code).1 ↔ Calm s (.key code)) ∧ Inv (keyEvent s wnds code).1 := by
  unfold keyEvent
  obtain ⟨hleft, hesc⟩ | ⟨hclose, htaken, hcalm⟩ := handleKey_cases hc code
  · rw [hleft]
    exact ⟨trackerKey_iff hc hi hesc rfl,
      hi.tracker.outcome (Tracker.key_outcome hi.tracker.menu _ _), hi.windows⟩
  · dsimp only
    rw [if_pos htaken]
    dsimp only
    rw [hclose]
    exact ⟨iff_of_true (close_core s) hcalm, close_inv hi⟩

theorem handle_keeps (hc : Core s) (hi : Inv s) (ev : Event) :
    (Core (handle s wnds ev) ↔ Calm s ev) ∧ Inv (handle s wnds ev) := by
  cases ev with
  | move x y =>
      obtain ⟨hcore, hinv⟩ := @moveEvent_keeps _ wnds hc hi x y
      exact ⟨iff_of_true hcore trivial, hinv⟩
  | press x y =>
      obtain ⟨hcore, hinv⟩ := @pressEvent_keeps _ wnds hc hi x y
      exact ⟨iff_of_true hcore trivial, hinv⟩
  | key code => exact keyEvent_keeps hc hi code

end Keys

section Presses

variable {s : MenuBar} {wnds : List Shown}

-- A press that is not on the badge or a header is for the menus below them.
theorem pressEvent_below {x y : Int} (hy : 25 < y) {e : Option Effect}
    (h : (pressBelow s wnds x y).2 = (true, e)) : (pressEvent s wnds x y).2 = (true, e) := by
  have htip : onTip s.menu x y = false := by
    rw [onTip, Bool.eq_false_iff, ne_eq, Tracker.inside_iff]
    simp only [tipBtn]
    omega
  have hbar : inBar y = false := by
    rw [inBar, Bool.and_eq_false_iff]
    exact .inr (decide_eq_false (by omega))
  have htaken : (pressBelow s wnds x y).2.1 = true := by rw [h]
  rw [pressEvent, globalMenuHandleMouseDown, htip, hbar]
  simp only [Bool.false_eq_true, if_false]
  rw [if_pos htaken]
  exact congrArg (Prod.mk true) (congrArg Prod.snd h)

theorem tracker_press (hc : Core s) (hi : Inv s) (hopen : s.tracker.state = .open) {i : Nat}
    {r : Rect} (hr : (Tracker.trackerRenderMenu s.tracker)[i]? = some r) {x y : Int}
    (hin : r.contains x y) :
    (pressEvent s wnds x y).2 =
      (true, if (s.tracker.items i).enabled then
        some (.executed i (s.tracker.items i).action) else none) := by
  have hactive := hc.open_iff.mp hopen
  have hpress := hi.tracker.menu.presses (wnds.map Shown.listed) x y i r hr hin
  have hy : 25 < y := by
    obtain ⟨wnds', hlaid⟩ := hi.tracker.menu.laidOut
    have hcount := hlaid.itemCount_bounds
    have hwidest := hlaid.widest_bounds
    rw [Tracker.trackerRenderMenu, if_neg (by simp [hopen]), hlaid.menuRect_eq,
      asH_of_range (by simp only; omega)] at hr
    have hleft : s.tracker.menuRect.left = 4 := by rw [hlaid.menuRect_eq]
    have hright : s.tracker.menuRect.right = 4 + Tracker.widest s.tracker s.tracker.itemCount := by
      rw [hlaid.menuRect_eq]
    obtain ⟨-, rfl⟩ := Tracker.renderRows_getElem? (by omega) (by omega) (by simp only; omega) hr
    rw [Rect.contains_iff] at hin
    simp only at hin
    omega
  apply pressEvent_below hy
  have hdropdown : s.menu.dropdown = none := by
    rw [dropdown, if_neg (by rw [hactive]; simp [GMENU_HDR_BTRON])]
  rw [pressBelow, hdropdown]
  dsimp only
  rw [pressTracker_open hactive hopen, hpress, effectOf]
  split
  · rfl
  · rfl

theorem headerRect_left (h : Nat) :
    4 ≤ (headerRect h).left ∧ (headerRect h).left ≤ 454 := by
  unfold headerRect
  split <;> exact ⟨by decide, by decide⟩

theorem renderRows_getElem? {h i n k : Nat} {r : Rect} (hn : i + n ≤ 1000)
    (hr : (renderRows h i n)[k]? = some r) :
    k < n ∧ r = ⟨(headerRect h).left + 3, 28 + (i + k) * 22, (headerRect h).left + 277,
      28 + (i + k + 1) * 22⟩ := by
  have hleft := headerRect_left h
  induction n generalizing i k with
  | zero => cases hr
  | succ n ih =>
      simp only [renderRows, GMENU_ROW_HEIGHT, GMENU_DROPDOWN_WIDTH] at hr
      rw [asH_of_range (by omega), asH_of_range (by omega), asH_of_range (by omega),
        asH_of_range (by omega)] at hr
      cases k with
      | zero =>
          obtain rfl := Option.some.inj hr
          refine ⟨by omega, ?_⟩
          rw [Rect.mk.injEq]
          omega
      | succ k =>
          obtain ⟨hk, rfl⟩ := ih (by omega) hr
          refine ⟨by omega, ?_⟩
          rw [Rect.mk.injEq]
          omega

theorem items_length (hi : Inv s) (h : Nat) : (s.menu.items h).length ≤ 20 := by
  have hwindows := hi.windows.1
  unfold GlobalMenu.items
  split
  all_goals simp
  omega

-- The separators are not enabled.
theorem fixed_enabled {l : List Item} (h : l.all fun it => !it.enabled || !it.isSeparator)
    {it : Item} (hit : it ∈ l) (hon : it.enabled) : it.isSeparator = false := by
  have hitem := List.all_eq_true.mp h it hit
  rw [hon] at hitem
  simpa using hitem

theorem items_enabled (hi : Inv s) {h : Nat} {it : Item} (hit : it ∈ s.menu.items h)
    (hon : it.enabled) : it.isSeparator = false := by
  unfold GlobalMenu.items at hit
  split at hit
  · cases hit
  · exact fixed_enabled (by decide) hit hon
  · exact fixed_enabled (by decide) hit hon
  · rcases List.mem_append.mp hit with hfixed | hlisted
    · exact fixed_enabled (by decide) hfixed hon
    · exact hi.windows.2 it hlisted
  · exact fixed_enabled (by decide) hit hon

theorem dropdown_press (hi : Inv s) {h : Nat} (hd : s.menu.dropdown = some h) {i : Nat} {r : Rect}
    (hr : (renderRows h 0 (s.menu.items h).length)[i]? = some r) {it : Item}
    (hit : (s.menu.items h)[i]? = some it) {x y : Int} (hin : r.contains x y) :
    (pressEvent s wnds x y).2 = (true, if it.enabled then some (.command i it.cmd) else none) := by
  have hlength := items_length hi h
  have hleft := headerRect_left h
  obtain ⟨hlt, rfl⟩ := renderRows_getElem? (by omega) hr
  rw [Rect.contains_iff] at hin
  simp only at hin
  have hinside : inDropdown s.menu h x y = true := by
    rw [inDropdown, GMENU_ROW_HEIGHT, GMENU_DROPDOWN_WIDTH, asH_of_range (by omega)]
    simp only [Bool.and_eq_true, decide_eq_true_eq]
    omega
  have hrow : itemAt s.menu h y = some (i, it) := by
    have hdiv : (y - 28).tdiv GMENU_ROW_HEIGHT = i := by
      rw [Int.tdiv_eq_ediv_of_nonneg (by omega), GMENU_ROW_HEIGHT]
      omega
    rw [itemAt, hdiv, if_pos (by omega), Int.toNat_natCast, hit]
    rfl
  apply pressEvent_below (by omega)
  rw [pressBelow, hd]
  dsimp only
  rw [if_pos hinside, hrow]
  dsimp only
  cases hon : it.enabled with
  | true =>
      rw [items_enabled hi (List.mem_of_getElem? hit) hon]
      rfl
  | false =>
      rw [Bool.and_false]
      rfl

theorem inStep_iff (hi : Inv s) : InStep s ↔ Core s := by
  refine ⟨fun h => ⟨h.active, h.hover, h.open_iff⟩, fun h => ⟨h.active, h.hover, h.open_iff, ?_⟩⟩
  intro wnds x y r e hr hin
  rw [globalMenuRenderOverlay] at hr
  split at hr
  · rename_i hshown
    have hopen : s.tracker.state = .open := by
      rw [h.open_iff]
      rcases hshown with hactive | hopen
      · exact hactive
      · exact h.open_iff.mp (isMenuOpen_iff.mp hopen)
    obtain ⟨⟨r', i⟩, hmem, heq⟩ := List.mem_map.mp hr
    obtain ⟨rfl, rfl⟩ := Prod.mk.inj heq
    exact tracker_press h hi hopen (List.mem_zipIdx_iff_getElem?.mp hmem) hin
  · split at hr
    · cases hr
    · rename_i d hd
      obtain ⟨⟨r', it, i⟩, hmem, heq⟩ := List.mem_map.mp hr
      obtain ⟨rfl, rfl⟩ := Prod.mk.inj heq
      obtain ⟨k, hk⟩ := List.mem_iff_getElem?.mp hmem
      obtain ⟨hrow, hitem⟩ := List.getElem?_zip_eq_some.mp hk
      rw [List.getElem?_zipIdx] at hitem
      obtain ⟨it', hit, heq⟩ := Option.map_eq_some_iff.mp hitem
      rw [Prod.mk.injEq] at heq
      obtain ⟨rfl, rfl⟩ := heq
      rw [Nat.zero_add]
      exact dropdown_press hi hd hrow hit hin

end Presses

theorem start_agrees (wnds : List Shown) : Core (start wnds) ∧ Inv (start wnds) := by
  obtain ⟨hmenu, hhover⟩ := Tracker.menu_init .zero (wnds.map Shown.listed)
  have hshut : (start wnds).tracker.state ≠ .open := by
    rw [start, Tracker.trackerInit]
    dsimp only
    rw [(Tracker.refresh_laidOut rfl (wnds.map Shown.listed)).2.1]
    decide
  have hnone : (start wnds).menu.windowItems = [] := rfl
  refine ⟨⟨.inl rfl, .inl rfl, iff_of_false hshut ?_⟩, ⟨hmenu, ?_, ?_⟩, ?_, ?_⟩
  · exact fun hactive => absurd hactive (by decide : (-1 : Int) ≠ GMENU_HDR_BTRON)
  · exact Tracker.hovers_of_closed hhover
  · exact fun hopen => absurd hopen hshut
  · rw [hnone]
    exact Nat.zero_le _
  · rw [hnone]
    exact fun it hit => by cases hit

-- The menus stay in step all along a run if and only if no key opens the tracker, or closes it
-- with one of its rows.
theorem menus_in_step_iff_calm (wnds : List Shown) (tr : List (MenuBar × (List Shown × Event)))
    (s : MenuBar) (hrun : Trace Step (start wnds) tr s) :
    (InStep s ∧ ∀ t ∈ tr, InStep t.1) ↔ ∀ t ∈ tr, Calm t.1 t.2.2 := by
  refine Trace.forall_iff_while (I := fun s => Core s ∧ Inv s) (P := InStep)
    (C := fun s e => Calm s e.2) hrun (start_agrees wnds) ?_ ?_ ?_
  · exact fun s h => (inStep_iff h.2).mpr h.1
  · rintro s e s' ⟨hc, hi⟩ hcalm rfl
    obtain ⟨hcore, hinv⟩ := @handle_keeps s e.1 hc hi e.2
    exact ⟨hcore.mpr hcalm, hinv⟩
  · rintro s e s' ⟨hc, hi⟩ rfl hstep
    obtain ⟨hcore, hinv⟩ := @handle_keeps s e.1 hc hi e.2
    exact hcore.mp ((inStep_iff hinv).mp hstep)

theorem trace_handle {s₀ s : MenuBar} {tr : List (MenuBar × (List Shown × Event))}
    (h : Trace Step s₀ tr s) (wnds : List Shown) (ev : Event) :
    Trace Step s₀ ((s, wnds, ev) :: tr) (handle s wnds ev) := h.next rfl

-- The menu of the windows is opened, and its third row is pressed.
theorem menus_in_step_hide_all :
    InStep (handle (handle (start []) [] (.press 340 10)) [] (.press 340 80)) ∧
      (pressEvent (handle (start []) [] (.press 340 10)) [] 340 80).2 =
        (true, some (.command 2 .wndHideAll)) := by
  have hopened := trace_handle (@Trace.start _ _ Step (start [])) [] (.press 340 10)
  have hrun := trace_handle hopened [] (.press 340 80)
  refine ⟨((menus_in_step_iff_calm [] _ _ hrun).mpr ?_).1, by decide⟩
  rw [List.forall_mem_cons, List.forall_mem_singleton]
  exact ⟨trivial, trivial⟩

-- F1 opens the tracker, and the menu bar does not know: a press on its first row is passed on.
theorem menus_not_always_in_step :
    (¬∀ wnds tr s, Trace Step (start wnds) tr s → InStep s) ∧
      (pressEvent (handle (start []) [] (.key 0x101)) [] 50 35).2 = (false, none) := by
  refine ⟨fun hall => ?_, by decide⟩
  have hstep := hall [] _ _ (trace_handle .start [] (.key 0x101))
  have hopen : (handle (start []) [] (.key 0x101)).tracker.state = .open := by decide
  have hactive : (handle (start []) [] (.key 0x101)).menu.activeMenu = -1 := by decide
  rw [hstep.open_iff, hactive] at hopen
  cases hopen

end BTron.MenuBar
