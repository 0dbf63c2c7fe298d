import BTron.Tracker.Menu

namespace BTron.Tracker

open Graphics Lib

theorem inside_iff {r : Rect} {x y : Int} :
    inside r x y ↔ r.left ≤ x ∧ x ≤ r.right ∧ r.top ≤ y ∧ y ≤ r.bottom := by
  simp only [inside, Bool.and_eq_true, decide_eq_true_eq, ge_iff_le, and_assoc]

-- What holds of the tracker at all times.
structure Menu (s : Tracker) : Prop where
  laidOut : ∃ wnds, LaidOut s wnds
  hover_ge : -1 ≤ s.hoverIndex
  closed : s.state ≠ .open → s.hoverIndex = -1

-- The hovered row is a row of the menu that can be hovered.
def Hovers (s : Tracker) : Prop :=
  s.hoverIndex < s.itemCount ∧
    ∀ i : Nat, s.hoverIndex = i → i < s.itemCount → (s.items i).type ≠ .separator

-- An open menu that is built anew still has the hovered row, and not as its second separator.
def Stays (s : Tracker) (c : List Listed × Call) : Prop :=
  match c.2 with
  | .refreshWindows =>
    s.state = .open →
      s.hoverIndex ≤ lastRow c.1 ∧ (tracked c.1 ≠ 0 → s.hoverIndex ≠ 9 + tracked c.1)
  | _ => True

-- All that a call can do but for building the menu anew.
inductive Outcome (s : Tracker) (wnds : List Listed) : Tracker → Prop
  | keeps : Outcome s wnds s
  | glides (st : State) : s.state ≠ .open → st ≠ .open → Outcome s wnds { s with state := st }
  | hovers (i : Nat) : s.state = .open → i < s.itemCount ∨ i < s.hoverIndex →
      (s.items i).type ≠ .separator → Outcome s wnds { s with hoverIndex := i }
  | closes (n : Nat) : Outcome s wnds (trackerCloseMenu { s with launchCount := n })
  | opens : Outcome s wnds (trackerOpenMenu s wnds)

theorem toggleMenu_outcome (s : Tracker) (wnds : List Listed) :
    Outcome s wnds (trackerToggleMenu s wnds) := by
  rw [trackerToggleMenu]
  split
  · exact .closes s.launchCount
  · exact .opens

theorem executeItem_closes (s : Tracker) (wnds : List Listed) (index : Int) :
    Outcome s wnds (trackerCloseMenu (trackerExecuteItem s index).1) := by
  rw [trackerExecuteItem]
  split
  · exact .closes s.launchCount
  · dsimp only
    split
    · exact .closes s.launchCount
    · exact .closes _

theorem mouseDown_outcome (s : Tracker) (wnds : List Listed) (x y : Int) :
    Outcome s wnds (trackerHandleMouseDown s wnds x y).1 := by
  rw [trackerHandleMouseDown]
  split
  · exact toggleMenu_outcome s wnds
  · split
    · split
      · exact executeItem_closes s wnds _
      · exact .closes s.launchCount
    · exact .keeps

theorem rowAt_some {s : Tracker} {y idx : Int} (h : rowAt s y = some idx) :
    0 ≤ idx ∧ idx < s.itemCount := by
  rw [rowAt] at h
  dsimp only at h
  split at h
  · split at h
    · cases h
      assumption
    · cases h
  · cases h

theorem mouseMove_outcome (s : Tracker) (wnds : List Listed) (x y : Int) :
    Outcome s wnds (trackerHandleMouseMove s x y).1 := by
  rw [trackerHandleMouseMove]
  split
  · rename_i hopen
    rw [trackerIsMenuOpen, decide_eq_true_eq] at hopen
    split
    · rename_i idx hrow
      split at hrow
      · obtain ⟨h0, hlt⟩ := rowAt_some hrow
        split
        · rename_i htype
          obtain ⟨i, rfl⟩ := Int.eq_ofNat_of_zero_le h0
          exact .hovers i hopen (.inl (by omega)) htype
        · exact .keeps
      · cases hrow
    · exact .keeps
  · rename_i hopen
    rw [trackerIsMenuOpen, decide_eq_true_eq] at hopen
    split
    · split
      · exact .glides _ hopen (by decide)
      · exact .keeps
    · split
      · exact .glides _ hopen (by decide)
      · exact .keeps

theorem skipDown_spec {s : Tracker} {next : Int} {n : Nat} (h0 : 0 ≤ next)
    (hn : s.itemCount ≤ next + n) (hlt : skipDown s next n < s.itemCount) :
    0 ≤ skipDown s next n ∧ (s.items (skipDown s next n).toNat).type ≠ .separator := by
  induction n generalizing next with
  | zero =>
      rw [skipDown] at hlt
      omega
  | succ n ih =>
      rw [skipDown] at hlt ⊢
      by_cases hsep : (s.items next.toNat).type = .separator
      · rw [if_pos hsep] at hlt ⊢
        exact ih (by omega) (by omega) hlt
      · rw [if_neg hsep]
        exact ⟨h0, hsep⟩

theorem skipUp_spec {s : Tracker} {prev : Nat} (h0 : 0 ≤ skipUp s prev) :
    skipUp s prev < prev ∧ (s.items (skipUp s prev).toNat).type ≠ .separator := by
  induction prev with
  | zero =>
      rw [skipUp] at h0
      omega
  | succ prev ih =>
      rw [skipUp] at h0 ⊢
      by_cases hsep : (s.items prev).type = .separator
      · rw [if_pos hsep] at h0 ⊢
        obtain ⟨hlt, htype⟩ := ih h0
        exact ⟨by omega, htype⟩
      · rw [if_neg hsep]
        exact ⟨by omega, hsep⟩

theorem key_outcome {s : Tracker} (h : Menu s) (wnds : List Listed) (code : Int) :
    Outcome s wnds (trackerHandleKey s wnds code).1 := by
  rw [trackerHandleKey]
  split
  · exact toggleMenu_outcome s wnds
  split
  · exact .keeps
  rename_i hopen
  rw [Bool.not_eq_true', Bool.not_eq_false, trackerIsMenuOpen, decide_eq_true_eq] at hopen
  split
  · exact .closes s.launchCount
  have hge := h.hover_ge
  split
  · dsimp only
    split
    · rename_i hlt
      obtain ⟨h0, htype⟩ := skipDown_spec (by omega) (by omega) hlt
      obtain ⟨i, hi⟩ := Int.eq_ofNat_of_zero_le h0
      rw [hi] at hlt htype ⊢
      exact .hovers i hopen (.inl (by omega)) htype
    · exact .keeps
  split
  · dsimp only
    split
    · rename_i h0
      obtain ⟨hlt, htype⟩ := skipUp_spec h0
      obtain ⟨i, hi⟩ := Int.eq_ofNat_of_zero_le h0
      rw [hi] at hlt htype ⊢
      exact .hovers i hopen (.inr (by omega)) htype
    · exact .keeps
  split
  · split
    · exact executeItem_closes s wnds _
    · exact .keeps
  · exact .keeps

theorem exec_outcome {s : Tracker} (h : Menu s) (wnds : List Listed) {c : Call}
    (hc : c ≠ .refreshWindows) : Outcome s wnds (exec s wnds c) := by
  cases c with
  | mouseDown x y => exact mouseDown_outcome s wnds x y
  | mouseMove x y => exact mouseMove_outcome s wnds x y
  | key code => exact key_outcome h wnds code
  | openMenu => exact .opens
  | closeMenu => exact .closes s.launchCount
  | toggleMenu => exact toggleMenu_outcome s wnds
  | refreshWindows => exact absurd rfl hc

theorem LaidOut.of_eq {s s' : Tracker} {wnds : List Listed} (h : LaidOut s wnds)
    (hitems : s'.items = s.items) (hcount : s'.itemCount = s.itemCount)
    (hbtn : s'.btnRect = s.btnRect) (hmenu : s'.menuRect = s.menuRect) : LaidOut s' wnds where
  rows_eq := by rw [rows, hitems, hcount, ← rows, h.rows_eq]
  btnRect_eq := by rw [hbtn, h.btnRect_eq]
  menuRect_eq := by rw [hmenu, h.menuRect_eq, hcount, widest_congr hitems]

theorem menu_openMenu {s : Tracker} (h : Menu s) (wnds : List Listed) :
    LaidOut (trackerOpenMenu s wnds) wnds ∧ Menu (trackerOpenMenu s wnds) := by
  obtain ⟨old, hold⟩ := h.laidOut
  obtain ⟨hlaid, -, -⟩ := refresh_laidOut hold.btnRect_eq wnds
  have hopen : LaidOut (trackerOpenMenu s wnds) wnds := hlaid.of_eq rfl rfl rfl rfl
  exact ⟨hopen, ⟨wnds, hopen⟩, by simp [trackerOpenMenu], by simp [trackerOpenMenu]⟩

theorem menu_refresh {s : Tracker} (h : Menu s) (wnds : List Listed) :
    LaidOut (trackerRefreshWindows s wnds) wnds ∧ Menu (trackerRefreshWindows s wnds) := by
  obtain ⟨old, hold⟩ := h.laidOut
  obtain ⟨hlaid, hstate, hhover⟩ := refresh_laidOut hold.btnRect_eq wnds
  refine ⟨hlaid, ⟨wnds, hlaid⟩, ?_, ?_⟩
  · rw [hhover]
    exact h.hover_ge
  · rw [hstate, hhover]
    exact h.closed

theorem Outcome.menu {s s' : Tracker} {wnds : List Listed} (h : Menu s)
    (hout : Outcome s wnds s') : Menu s' := by
  obtain ⟨old, hold⟩ := h.laidOut
  cases hout with
  | keeps => exact h
  | glides st hopen _ =>
      exact ⟨⟨old, hold.of_eq rfl rfl rfl rfl⟩, h.hover_ge, fun _ => h.closed hopen⟩
  | hovers i hopen _ _ =>
      refine ⟨⟨old, hold.of_eq rfl rfl rfl rfl⟩, ?_, fun hne => absurd hopen hne⟩
      simp only
      omega
  | closes n => exact ⟨⟨old, hold.of_eq rfl rfl rfl rfl⟩, le_rfl, fun _ => rfl⟩
  | opens => exact (menu_openMenu h wnds).2

theorem menu_step (s : Tracker) (c : List Listed × Call) (s' : Tracker) (h : Menu s)
    (hstep : Step s c s') : Menu s' := by
  obtain ⟨wnds, c⟩ := c
  rw [Step] at hstep
  subst hstep
  by_cases hc : c = .refreshWindows
  · subst hc
    exact (menu_refresh h wnds).2
  · exact (exec_outcome h wnds hc).menu h

theorem hovers_of_closed {s : Tracker} (h : s.hoverIndex = -1) : Hovers s := by
  constructor
  · omega
  · intro i hi
    omega

theorem Outcome.hovers_after {s s' : Tracker} {wnds : List Listed} (h : Menu s) (hP : Hovers s)
    (hout : Outcome s wnds s') : Hovers s' := by
  cases hout with
  | keeps => exact hP
  | glides st hopen _ => exact hovers_of_closed (h.closed hopen)
  | hovers i _ hi htype =>
      have hlt := hP.1
      refine ⟨by simp only; omega, ?_⟩
      intro j hj _
      obtain rfl := Int.ofNat.inj hj
      exact htype
  | closes n => exact hovers_of_closed rfl
  | opens =>
      obtain ⟨hlaid, -⟩ := menu_openMenu h wnds
      have hcount := hlaid.itemCount_bounds
      constructor
      · change (0 : Int) < (trackerOpenMenu s wnds).itemCount
        omega
      · intro i hi hlt hsep
        change (0 : Int) = i at hi
        have := (hlaid.separator_iff hlt).mp hsep
        omega

theorem hovers_refresh {s : Tracker} (h : Menu s) (hP : Hovers s) (wnds : List Listed) :
    Hovers (trackerRefreshWindows s wnds) ↔ Stays s (wnds, .refreshWindows) := by
  obtain ⟨old, hold⟩ := h.laidOut
  obtain ⟨hlaid, hstate, hhover⟩ := refresh_laidOut hold.btnRect_eq wnds
  by_cases hopen : s.state = .open
  · have hcount := hlaid.itemCount_eq
    rw [Hovers, hhover]
    constructor
    · rintro ⟨hlt, hrow⟩ -
      refine ⟨by simp only; omega, fun htracked heq => ?_⟩
      simp only at htracked heq
      refine hrow (9 + tracked wnds) (by omega) (by omega) ?_
      exact (hlaid.separator_iff (by omega)).mpr (.inr ⟨htracked, rfl⟩)
    · intro hstays
      obtain ⟨hle, hne⟩ := hstays hopen
      simp only at hle hne
      refine ⟨by omega, fun i hi hlt hsep => ?_⟩
      rcases (hlaid.separator_iff hlt).mp hsep with rfl | ⟨htracked, rfl⟩
      · have hold8 := (hold.separator_iff (i := 8) (by have := hP.1; omega)).mpr (.inl rfl)
        exact hP.2 8 hi (by have := hP.1; omega) hold8
      · exact hne htracked (by omega)
  · have hclosed := h.closed hopen
    exact iff_of_true (hovers_of_closed (hhover.trans hclosed)) fun hopen' => absurd hopen' hopen

theorem hovers_step (s : Tracker) (c : List Listed × Call) (s' : Tracker) (h : Menu s)
    (hP : Hovers s) (hstep : Step s c s') : Hovers s' ↔ Stays s c := by
  obtain ⟨wnds, c⟩ := c
  rw [Step] at hstep
  subst hstep
  by_cases hc : c = .refreshWindows
  · subst hc
    exact hovers_refresh h hP wnds
  · refine iff_of_true ((exec_outcome h wnds hc).hovers_after h hP) ?_
    cases c with
    | refreshWindows => exact absurd rfl hc
    | _ => trivial

-- The menu is wide enough for every label.
def Wide (s : Tracker) : Prop :=
  ∀ i, i < s.itemCount →
    trackerCalcTextWidth (s.items i).label + PADDING ≤ s.menuRect.right - s.menuRect.left

-- A press on the painted row i executes item i if it is enabled, and else nothing.
def Presses (s : Tracker) : Prop :=
  ∀ wnds x y i r, (trackerRenderMenu s)[i]? = some r → r.contains x y →
    (trackerHandleMouseDown s wnds x y).2.2 =
      if (s.items i).enabled then some ((i : Int), (s.items i).action) else none

def separatorItem : Item := newItem .separator separatorLabel none

def cassetteItem : Item := ofText (.audiodeck, utf8 "Cassette (カセットデッキ)")

theorem separator_narrow :
    trackerCalcTextWidth separatorItem.label ≤ trackerCalcTextWidth cassetteItem.label := by
  decide +kernel

theorem coreItems_separator_eq : ∀ x ∈ coreItems, x.1 = .separator → ofText x = separatorItem := by
  decide

theorem menuOf_separator_eq {wnds : List Listed} {it : Item} (hit : it ∈ menuOf wnds)
    (hsep : it.type = .separator) : it = separatorItem := by
  simp only [menuOf, List.mem_append, List.mem_map] at hit
  rcases hit with ⟨x, hx, rfl⟩ | ⟨w, -, rfl⟩ | hmid | ⟨x, hx, rfl⟩
  · exact coreItems_separator_eq x hx hsep
  · cases hsep
  · split at hmid
    · cases hmid
    · exact List.mem_singleton.mp hmid
  · simp only [systemItems, List.mem_cons, List.not_mem_nil, or_false] at hx
    rcases hx with rfl | rfl <;> cases hsep

theorem menuOf_cassette (wnds : List Listed) : (menuOf wnds)[5]? = some cassetteItem := by
  rw [menuOf, List.getElem?_append_left (by decide)]
  rfl

-- The separators are narrower than the label of the cassette deck.
theorem Menu.wide {s : Tracker} (h : Menu s) : Wide s := by
  obtain ⟨wnds, hlaid⟩ := h.laidOut
  obtain ⟨-, -, hrows⟩ := widest_spec fun i hi => hlaid.label_length (i := i) hi
  have hcount := hlaid.itemCount_eq
  have hlast : 10 ≤ lastRow wnds := by
    rw [lastRow]
    split <;> omega
  intro i hi
  rw [hlaid.menuRect_eq]
  simp only
  by_cases hsep : (s.items i).type = .separator
  · have hget := hlaid.getElem? (i := 5) (by omega)
    have hcassette := Option.some.inj (hget.symm.trans (menuOf_cassette wnds))
    have hrow := hrows 5 (by omega) (by rw [hcassette]; decide)
    rw [hcassette] at hrow
    rw [menuOf_separator_eq (List.mem_of_getElem? (hlaid.getElem? hi)) hsep]
    have := separator_narrow
    omega
  · have := hrows i hi hsep
    omega

theorem renderRows_getElem? {s : Tracker} {y : Int} {n i : Nat} {r : Rect}
    (hleft : 0 ≤ s.menuRect.left ∧ s.menuRect.left < 32000)
    (hright : 0 ≤ s.menuRect.right ∧ s.menuRect.right < 32000)
    (hy : 0 ≤ y ∧ y + 20 * n < 32000) (hr : (renderRows s y n)[i]? = some r) :
    i < n ∧ r = ⟨s.menuRect.left + 5, y + 20 * i, s.menuRect.right - 2, y + 20 * i + 20⟩ := by
  induction n generalizing y i with
  | zero => cases hr
  | succ n ih =>
      simp only [renderRows, TRACKER_ITEM_HEIGHT] at hr
      rw [asH_of_range (by omega), asH_of_range (by omega), asH_of_range (by omega)] at hr
      cases i with
      | zero =>
          obtain rfl := Option.some.inj hr
          exact ⟨by omega, by simp⟩
      | succ i =>
          obtain ⟨hi, rfl⟩ := ih (by omega) hr
          refine ⟨by omega, ?_⟩
          congr 1
          · push_cast
            omega
          · push_cast
            omega

theorem Menu.presses {s : Tracker} (h : Menu s) : Presses s := by
  obtain ⟨wnds, hlaid⟩ := h.laidOut
  have hcount := hlaid.itemCount_bounds
  have hwidest := hlaid.widest_bounds
  intro wnds' x y i r hr hin
  rw [trackerRenderMenu] at hr
  split at hr
  · cases hr
  rename_i hopen
  rw [not_not] at hopen
  rw [hlaid.menuRect_eq, asH_of_range (by simp only; omega)] at hr
  have hleft : s.menuRect.left = 4 := by rw [hlaid.menuRect_eq]
  have hright : s.menuRect.right = 4 + widest s s.itemCount := by rw [hlaid.menuRect_eq]
  obtain ⟨hi, rfl⟩ := renderRows_getElem? (by omega) (by omega) (by simp only; omega) hr
  rw [Rect.contains_iff] at hin
  simp only [hleft, hright] at hin
  have hbutton : trackerHitButton s x y = false := by
    rw [trackerHitButton, hlaid.btnRect_eq, Bool.eq_false_iff, ne_eq, inside_iff]
    simp only
    omega
  have hmenu : trackerHitMenu s x y = true := by
    rw [trackerHitMenu, if_neg (by simp [hopen]), hlaid.menuRect_eq, inside_iff]
    simp only
    omega
  have hrow : rowAt s y = some (i : Int) := by
    have hdiv : (y - (26 + 3)).tdiv TRACKER_ITEM_HEIGHT = i := by
      rw [Int.tdiv_eq_ediv_of_nonneg (by omega), TRACKER_ITEM_HEIGHT]
      omega
    rw [rowAt, hlaid.menuRect_eq]
    simp only
    rw [asH_of_range (by omega), if_pos (by omega), if_pos (by omega), hdiv]
  have hisOpen : trackerIsMenuOpen s = true := by rw [trackerIsMenuOpen, hopen]; rfl
  rw [trackerHandleMouseDown, hbutton, hmenu, hisOpen, hrow]
  simp only [Bool.false_eq_true, if_false, if_true, trackerExecuteItem]
  rw [if_neg (by omega), Int.toNat_natCast]
  cases (s.items i).enabled
  · rfl
  · rfl

theorem Menu.verified {s : Tracker} (h : Menu s) :
    trackerVerifyInvariants s = true ↔ s.hoverIndex < s.itemCount := by
  obtain ⟨wnds, hlaid⟩ := h.laidOut
  have hcount := hlaid.itemCount_bounds
  have hwidest := hlaid.widest_bounds
  have hge := h.hover_ge
  rw [trackerVerifyInvariants, hlaid.btnRect_eq, hlaid.menuRect_eq]
  have hmax : TRACKER_MAX_ITEMS = 24 := rfl
  simp only [Bool.and_eq_true, Bool.not_eq_true', Bool.or_eq_false_iff,
    decide_eq_false_iff_not]
  omega

-- What is promised of the tracker.
def Sound (s : Tracker) : Prop :=
  trackerVerifyInvariants s = true ∧
    (∀ i : Nat, s.hoverIndex = i → i < s.itemCount → (s.items i).type ≠ .separator) ∧
    Wide s ∧ Presses s

theorem Menu.sound_iff {s : Tracker} (h : Menu s) : Sound s ↔ Hovers s := by
  rw [Sound, h.verified, Hovers]
  exact ⟨fun hs => ⟨hs.1, hs.2.1⟩, fun hs => ⟨hs.1, hs.2, h.wide, h.presses⟩⟩

theorem menu_init (s : Tracker) (wnds : List Listed) :
    Menu (trackerInit s wnds) ∧ (trackerInit s wnds).hoverIndex = -1 := by
  rw [trackerInit]
  generalize hs : Tracker.mk .normal ⟨4, 3, 4 + TRACKER_BTN_WIDTH, 3 + TRACKER_BTN_HEIGHT⟩
    s.menuRect (-1) s.itemCount s.items 0 = s'
  obtain ⟨hlaid, -, hhover⟩ := refresh_laidOut (s := s') (by rw [← hs]; rfl) wnds
  have hminus : s'.hoverIndex = -1 := by rw [← hs]
  exact ⟨⟨⟨wnds, hlaid⟩, (hhover.trans hminus).ge, fun _ => hhover.trans hminus⟩,
    hhover.trans hminus⟩

-- The promise holds all along a run if and only if the menu is never built anew under a hovered
-- row that is lost by it.
theorem tracker_sound_iff_stays (start : Tracker) (wnds : List Listed)
    (tr : List (Tracker × (List Listed × Call))) (s : Tracker)
    (hrun : Trace Step (trackerInit start wnds) tr s) :
    (Sound s ∧ ∀ t ∈ tr, Sound t.1) ↔ ∀ t ∈ tr, Stays t.1 t.2 := by
  obtain ⟨hinit, hhover⟩ := menu_init start wnds
  refine hrun.forall_iff_within hinit menu_step
    (hinit.sound_iff.mpr (hovers_of_closed hhover)) ?_
  intro s c s' h hP hstep
  rw [(menu_step s c s' h hstep).sound_iff]
  exact hovers_step s c s' h (h.sound_iff.mp hP) hstep

theorem trace_exec {s₀ s : Tracker} {tr : List (Tracker × (List Listed × Call))}
    (h : Trace Step s₀ tr s) (wnds : List Listed) (c : Call) :
    Trace Step s₀ ((s, wnds, c) :: tr) (exec s wnds c) := h.next rfl

def oneWindow : List Listed := [⟨1, true, fun _ => 0⟩]

-- The menu of one window is open with its last row hovered.
def hovering : Tracker :=
  exec (exec (trackerInit .zero oneWindow) oneWindow .openMenu) oneWindow (.mouseMove 50 275)

theorem hovering_trace :
    Trace Step (trackerInit .zero oneWindow)
      [(exec (trackerInit .zero oneWindow) oneWindow .openMenu, oneWindow, .mouseMove 50 275),
        (trackerInit .zero oneWindow, oneWindow, .openMenu)] hovering :=
  trace_exec (trace_exec .start oneWindow .openMenu) oneWindow (.mouseMove 50 275)

-- The menu is built anew with the window in it.
theorem tracker_sound_refresh_open : Sound (exec hovering oneWindow .refreshWindows) := by
  have hrun := trace_exec hovering_trace oneWindow .refreshWindows
  have hhover : hovering.hoverIndex = 12 := by decide +kernel
  refine ((tracker_sound_iff_stays .zero oneWindow _ _ hrun).mpr ?_).1
  rw [List.forall_mem_cons, List.forall_mem_cons, List.forall_mem_singleton]
  refine ⟨fun _ => ?_, trivial, trivial⟩
  rw [hhover]
  decide

-- The menu is built anew after the window is closed: there are 11 rows, and row 12 is hovered.
theorem tracker_not_always_sound :
    ¬∀ start wnds tr s, Trace Step (trackerInit start wnds) tr s → Sound s := by
  intro hall
  have hsound := hall _ _ _ _ (trace_exec hovering_trace [] .refreshWindows)
  have hfails : trackerVerifyInvariants (exec hovering [] .refreshWindows) = false := by
    decide +kernel
  rw [Sound, hfails] at hsound
  cases hsound.1

end BTron.Tracker
