import BTron.Tracker
import BTron.Lib.Run

namespace BTron.Tracker

open Graphics Lib

def rows (s : Tracker) : List Item := (List.range s.itemCount).map s.items

theorem rows_length (s : Tracker) : s.rows.length = s.itemCount := by
  rw [rows, List.length_map, List.length_range]

theorem rows_getElem? {s : Tracker} {i : Nat} (hi : i < s.itemCount) :
    s.rows[i]? = some (s.items i) := by
  simp [rows, hi]

-- What `tracker_add_item` puts in the menu.
def newItem (type : Cmd) (label : List UB) (targetWnd : Option Nat) : Item :=
  ⟨type, trackerSafeCopy label 48, targetWnd, type ≠ .separator⟩

def ofText (it : Cmd × List UB) : Item := newItem it.1 it.2 none

def ofWindow (w : Listed) : Item :=
  newItem .wndFocus (trackerFormatWndTitle 48 w.focused w.title) (some w.wnd)

-- The menu for a window list.
def menuOf (wnds : List Listed) : List Item :=
  coreItems.map ofText ++
    ((wnds.take 8).map ofWindow ++
      ((if wnds = [] then [] else [newItem .separator separatorLabel none]) ++
        systemItems.map ofText))

-- s' is s with the items l behind its own.
structure Adds (s s' : Tracker) (l : List Item) : Prop where
  rows_eq : s'.rows = s.rows ++ l
  state_eq : s'.state = s.state
  btnRect_eq : s'.btnRect = s.btnRect
  hoverIndex_eq : s'.hoverIndex = s.hoverIndex

theorem Adds.refl (s : Tracker) : Adds s s [] := ⟨by simp, rfl, rfl, rfl⟩

theorem Adds.trans {s s' s'' : Tracker} {l l' : List Item} (h : Adds s s' l)
    (h' : Adds s' s'' l') : Adds s s'' (l ++ l') where
  rows_eq := by rw [h'.rows_eq, h.rows_eq, List.append_assoc]
  state_eq := h'.state_eq.trans h.state_eq
  btnRect_eq := h'.btnRect_eq.trans h.btnRect_eq
  hoverIndex_eq := h'.hoverIndex_eq.trans h.hoverIndex_eq

theorem Adds.itemCount_eq {s s' : Tracker} {l : List Item} (h : Adds s s' l) :
    s'.itemCount = s.itemCount + l.length := by
  rw [← rows_length, h.rows_eq, List.length_append, rows_length]

theorem addItem_adds {s : Tracker} (h : s.itemCount < 24) (type : Cmd) (label : List UB)
    (targetWnd : Option Nat) :
    Adds s (trackerAddItem s type label targetWnd) [newItem type label targetWnd] := by
  rw [trackerAddItem, if_neg (by rw [TRACKER_MAX_ITEMS]; omega)]
  refine ⟨?_, rfl, rfl, rfl⟩
  simp only [rows, List.range_succ, List.map_append, List.map_cons, List.map_nil,
    Function.update_self, newItem]
  congr 1
  apply List.map_congr_left
  intro i hi
  rw [List.mem_range] at hi
  rw [Function.update_of_ne (by omega)]

theorem addItems_adds {s : Tracker} (l : List (Cmd × List UB)) (h : s.itemCount + l.length ≤ 24) :
    Adds s (addItems s l) (l.map ofText) := by
  induction l generalizing s with
  | nil => exact .refl s
  | cons it l ih =>
      rw [List.length_cons] at h
      have hfirst := addItem_adds (s := s) (by omega) it.1 it.2 none
      have hrest := ih (s := trackerAddItem s it.1 it.2 none) (by
        rw [hfirst.itemCount_eq, List.length_singleton]
        omega)
      exact hfirst.trans hrest

theorem addWindows_adds {s : Tracker} (n : Nat) (wnds : List Listed) (hn : n ≤ 8)
    (h : s.itemCount + (8 - n) ≤ 21) :
    Adds s (addWindows s n wnds).1 ((wnds.take (8 - n)).map ofWindow) ∧
      (addWindows s n wnds).2 = n + (wnds.take (8 - n)).length := by
  induction wnds generalizing s n with
  | nil => exact ⟨by simpa [addWindows] using .refl s, by simp [addWindows]⟩
  | cons w wnds ih =>
      rw [addWindows]
      by_cases hfull : n = 8
      · subst hfull
        rw [if_neg (by omega)]
        exact ⟨by simpa using .refl s, by simp⟩
      · rw [if_pos (by rw [TRACKER_MAX_ITEMS]; omega)]
        have hfirst := addItem_adds (s := s) (by omega) .wndFocus
          (trackerFormatWndTitle 48 w.focused w.title) (some w.wnd)
        obtain ⟨hrest, hcount⟩ := ih (s := trackerAddItem s .wndFocus
          (trackerFormatWndTitle 48 w.focused w.title) (some w.wnd)) (n + 1) (by omega) (by
            rw [hfirst.itemCount_eq, List.length_singleton]
            omega)
        obtain ⟨m, hm⟩ : ∃ m, 8 - n = m + 1 := ⟨7 - n, by omega⟩
        have hm' : 8 - (n + 1) = m := by omega
        rw [hm'] at hrest hcount
        rw [hm, List.take_succ_cons, List.map_cons, List.length_cons]
        exact ⟨hfirst.trans hrest, by simp only [hcount]; omega⟩

theorem addSeparator_adds {s : Tracker} (h : s.itemCount < 24) (n : Nat) :
    Adds s (if n > 0 then trackerAddItem s .separator separatorLabel none else s)
      (if n = 0 then [] else [newItem .separator separatorLabel none]) := by
  by_cases hn : n = 0
  · rw [if_neg (by omega), if_pos hn]
    exact .refl s
  · rw [if_pos (by omega), if_neg hn]
    exact addItem_adds h _ _ _

theorem buildItems_adds (s : Tracker) (wnds : List Listed) :
    Adds { s with itemCount := 0 } (buildItems s wnds) (menuOf wnds) := by
  have hcoreLength : coreItems.length = 9 := rfl
  have hsystemLength : systemItems.length = 2 := rfl
  unfold buildItems
  dsimp only
  have hcore := addItems_adds (s := { s with itemCount := 0 }) coreItems (by
    simp only [hcoreLength]
    omega)
  generalize addItems { s with itemCount := 0 } coreItems = s₁ at hcore ⊢
  have hcount₁ := hcore.itemCount_eq
  simp only [List.length_map, hcoreLength] at hcount₁
  obtain ⟨hwindows, htracked⟩ := addWindows_adds (s := s₁) 0 wnds (by omega) (by omega)
  generalize addWindows s₁ 0 wnds = r at hwindows htracked ⊢
  obtain ⟨s₂, n⟩ := r
  simp only [Nat.zero_add, Nat.sub_zero] at hwindows htracked ⊢
  have hcount₂ := hwindows.itemCount_eq
  have hn : n ≤ 8 := by
    rw [htracked, List.length_take]
    omega
  simp only [List.length_map, ← htracked] at hcount₂
  have hsep := addSeparator_adds (s := s₂) (by omega) n
  generalize (if n > 0 then trackerAddItem s₂ .separator separatorLabel none else s₂) = s₃
    at hsep ⊢
  have hcount₃ := hsep.itemCount_eq
  have hempty : n = 0 ↔ wnds = [] := by
    rw [htracked, List.length_eq_zero_iff, List.take_eq_nil_iff]
    simp
  have hsystem := addItems_adds (s := s₃) systemItems (by
    split at hcount₃ <;> simp only [List.length_nil, List.length_singleton] at hcount₃ <;> omega)
  simp only [hempty] at hsep
  exact hcore.trans (hwindows.trans (hsep.trans hsystem))

-- The number of windows that a menu has rows for.
def tracked (wnds : List Listed) : Nat := (wnds.take 8).length

theorem tracked_le (wnds : List Listed) : tracked wnds ≤ 8 := by
  rw [tracked, List.length_take]
  omega

theorem tracked_eq_zero_iff {wnds : List Listed} : tracked wnds = 0 ↔ wnds = [] := by
  rw [tracked, List.length_eq_zero_iff, List.take_eq_nil_iff]
  simp

def lastRow (wnds : List Listed) : Nat := if tracked wnds = 0 then 10 else 11 + tracked wnds

theorem menuOf_types (wnds : List Listed) :
    (menuOf wnds).map Item.type = coreItems.map Prod.fst ++
      (List.replicate (tracked wnds) .wndFocus ++
        ((if tracked wnds = 0 then [] else [.separator]) ++ [.about, .restart])) := by
  have hwindows : ((wnds.take 8).map ofWindow).map Item.type =
      List.replicate (tracked wnds) Cmd.wndFocus := by
    rw [List.map_map, tracked]
    exact List.map_const
  simp only [menuOf, List.map_append, hwindows, List.map_map, tracked_eq_zero_iff]
  split
  · rfl
  · rfl

theorem menuOf_length (wnds : List Listed) : (menuOf wnds).length = lastRow wnds + 1 := by
  have hlength := congrArg List.length (menuOf_types wnds)
  rw [List.length_map] at hlength
  rw [hlength, lastRow]
  split
  · rename_i h
    simp [h, coreItems]
  · simp [coreItems]
    omega

theorem lastRow_lt (wnds : List Listed) : lastRow wnds < 20 := by
  have h := tracked_le wnds
  rw [lastRow]
  split <;> omega

theorem coreItems_separator : ∀ k < 9, (coreItems.map Prod.fst)[k]? = some .separator ↔ k = 8 := by
  decide

theorem system_ne_separator {k : Nat} {c : Cmd} (hc : [Cmd.about, .restart][k]? = some c) :
    c ≠ .separator := by
  rintro rfl
  simpa using List.mem_of_getElem? hc

theorem menuOf_separator {wnds : List Listed} {i : Nat} {it : Item}
    (hit : (menuOf wnds)[i]? = some it) :
    it.type = .separator ↔ i = 8 ∨ tracked wnds ≠ 0 ∧ i = 9 + tracked wnds := by
  have hcore : (coreItems.map Prod.fst).length = 9 := rfl
  have htype : ((menuOf wnds).map Item.type)[i]? = some it.type := by
    rw [List.getElem?_map, hit, Option.map_some]
  rw [menuOf_types, List.getElem?_append, hcore] at htype
  by_cases hi : i < 9
  · rw [if_pos hi] at htype
    have hrow := coreItems_separator i hi
    rw [htype, Option.some_inj] at hrow
    rw [hrow]
    omega
  · rw [if_neg hi, List.getElem?_append, List.length_replicate] at htype
    by_cases hw : i - 9 < tracked wnds
    · rw [if_pos hw, List.getElem?_replicate, if_pos hw] at htype
      rw [← Option.some.inj htype]
      simp only [reduceCtorEq, false_iff]
      omega
    · rw [if_neg hw] at htype
      obtain ⟨j, hj⟩ : ∃ j, i = 9 + tracked wnds + j := ⟨i - 9 - tracked wnds, by omega⟩
      have hj' : i - 9 - tracked wnds = j := by omega
      rw [hj'] at htype
      by_cases hzero : tracked wnds = 0
      · rw [if_pos hzero, List.nil_append] at htype
        exact iff_of_false (system_ne_separator htype) (by omega)
      · rw [if_neg hzero] at htype
        cases j with
        | zero =>
            obtain heq := Option.some.inj htype
            exact iff_of_true heq.symm (by omega)
        | succ j => exact iff_of_false (system_ne_separator htype) (by omega)

theorem newItem_label_length (type : Cmd) (label : List UB) (targetWnd : Option Nat) :
    (newItem type label targetWnd).label.length ≤ 47 := by
  rw [newItem, trackerSafeCopy, List.length_take]
  omega

theorem menuOf_label_length {wnds : List Listed} {it : Item} (h : it ∈ menuOf wnds) :
    it.label.length ≤ 47 := by
  simp only [menuOf, List.mem_append, List.mem_map] at h
  rcases h with ⟨x, -, rfl⟩ | ⟨w, -, rfl⟩ | hsep | ⟨x, -, rfl⟩
  · exact newItem_label_length _ _ _
  · exact newItem_label_length _ _ _
  · split at hsep
    · cases hsep
    · rw [List.mem_singleton.mp hsep]
      exact newItem_label_length _ _ _
  · exact newItem_label_length _ _ _

-- No byte of a label is wider than 16 pixels.
theorem calcTextWidth_bounds {w : Int} (skip : Nat) {p : List UB} (h0 : 0 ≤ w)
    (h : w + 16 * p.length < 32768) :
    w ≤ calcTextWidth w skip p ∧ calcTextWidth w skip p ≤ w + 16 * p.length := by
  fun_induction calcTextWidth w skip p with
  | case1 => simp
  | case2 w skip c p ih =>
      rw [List.length_cons] at h ⊢
      have := ih h0 (by omega)
      omega
  | case3 w p ih =>
      rw [List.length_cons] at h ⊢
      have := ih h0 (by omega)
      omega
  | case4 w c p _ _ ih | case8 w c p _ _ _ _ _ ih =>
      rw [List.length_cons] at h ⊢
      rw [asH_of_range (by omega)] at ih ⊢
      have := ih (by omega) (by omega)
      omega
  | case5 w c p _ _ _ ih | case6 w c p _ _ _ _ ih | case7 w c p _ _ _ _ _ ih =>
      rw [List.length_cons] at h ⊢
      rw [asH_of_range (by omega)] at ih ⊢
      have := ih (by omega) (by omega)
      omega

theorem textWidth_bounds {label : List UB} (h : label.length ≤ 47) :
    0 ≤ trackerCalcTextWidth label ∧ trackerCalcTextWidth label ≤ 752 := by
  have hbounds := calcTextWidth_bounds (w := 0) 0 (p := label) (by omega) (by omega)
  rw [trackerCalcTextWidth]
  omega

-- The width is that of the widest row, with room for every label that is not a separator's.
theorem widest_spec {s : Tracker} {n : Nat}
    (h : ∀ i, i < n → (s.items i).label.length ≤ 47) :
    190 ≤ widest s n ∧ widest s n ≤ 780 ∧ ∀ i, i < n → (s.items i).type ≠ .separator →
      trackerCalcTextWidth (s.items i).label + PADDING ≤ widest s n := by
  induction n with
  | zero =>
      exact ⟨le_rfl, show (190 : Int) ≤ 780 by omega, fun i hi => absurd hi (Nat.not_lt_zero i)⟩
  | succ n ih =>
      obtain ⟨hmin, hmax, hrows⟩ := ih fun i hi => h i (by omega)
      have htext := textWidth_bounds (h n (by omega))
      have hpad : PADDING = 28 := rfl
      have hrow : ∀ m, widest s n ≤ m →
          ((s.items n).type ≠ .separator → trackerCalcTextWidth (s.items n).label + PADDING ≤ m) →
          ∀ i, i < n + 1 → (s.items i).type ≠ .separator →
            trackerCalcTextWidth (s.items i).label + PADDING ≤ m := by
        intro m hm hlast i hi htype
        by_cases hin : i = n
        · subst hin
          exact hlast htype
        · exact (hrows i (by omega) htype).trans hm
      rw [widest, asH_of_range (by omega)]
      by_cases hsep : (s.items n).type = .separator
      · rw [if_pos hsep]
        exact ⟨hmin, hmax, hrow _ le_rfl fun hne => absurd hsep hne⟩
      · rw [if_neg hsep]
        dsimp only
        split
        · exact ⟨by omega, by omega, hrow _ (by omega) fun _ => le_rfl⟩
        · exact ⟨hmin, hmax, hrow _ le_rfl fun _ => by omega⟩

theorem widest_congr {s s' : Tracker} (h : s.items = s'.items) (n : Nat) :
    widest s n = widest s' n := by
  induction n with
  | zero => rfl
  | succ n ih => simp only [widest, ih, h]

-- The button where `tracker_init` puts it, the items of a window list and a menu of their size.
structure LaidOut (s : Tracker) (wnds : List Listed) : Prop where
  rows_eq : s.rows = menuOf wnds
  btnRect_eq : s.btnRect = ⟨4, 3, 84, 23⟩
  menuRect_eq : s.menuRect = ⟨4, 26, 4 + widest s s.itemCount, 32 + 20 * s.itemCount⟩

section LaidOut

variable {s : Tracker} {wnds : List Listed} (h : LaidOut s wnds)
include h

theorem LaidOut.itemCount_eq : s.itemCount = lastRow wnds + 1 := by
  rw [← rows_length, h.rows_eq, menuOf_length]

theorem LaidOut.itemCount_bounds : 0 < s.itemCount ∧ s.itemCount ≤ 20 := by
  have hlast := lastRow_lt wnds
  rw [h.itemCount_eq]
  omega

theorem LaidOut.getElem? {i : Nat} (hi : i < s.itemCount) :
    (menuOf wnds)[i]? = some (s.items i) := by
  rw [← h.rows_eq, rows_getElem? hi]

theorem LaidOut.separator_iff {i : Nat} (hi : i < s.itemCount) :
    (s.items i).type = .separator ↔ i = 8 ∨ tracked wnds ≠ 0 ∧ i = 9 + tracked wnds :=
  menuOf_separator (h.getElem? hi)

theorem LaidOut.label_length {i : Nat} (hi : i < s.itemCount) :
    (s.items i).label.length ≤ 47 :=
  menuOf_label_length (List.mem_of_getElem? (h.getElem? hi))

theorem LaidOut.widest_bounds : 190 ≤ widest s s.itemCount ∧ widest s s.itemCount ≤ 780 := by
  obtain ⟨hmin, hmax, -⟩ := widest_spec fun i hi => h.label_length (i := i) hi
  exact ⟨hmin, hmax⟩

end LaidOut

theorem refresh_laidOut {s : Tracker} (hbtn : s.btnRect = ⟨4, 3, 84, 23⟩) (wnds : List Listed) :
    LaidOut (trackerRefreshWindows s wnds) wnds ∧
      (trackerRefreshWindows s wnds).state = s.state ∧
      (trackerRefreshWindows s wnds).hoverIndex = s.hoverIndex := by
  have hadds := buildItems_adds s wnds
  unfold trackerRefreshWindows
  generalize buildItems s wnds = s' at hadds ⊢
  have hrows : s'.rows = menuOf wnds := hadds.rows_eq
  have hbtn' : s'.btnRect = ⟨4, 3, 84, 23⟩ := hadds.btnRect_eq.trans hbtn
  have hlabels : ∀ i, i < s'.itemCount → (s'.items i).label.length ≤ 47 := by
    intro i hi
    have hget := rows_getElem? hi
    rw [hrows] at hget
    exact menuOf_label_length (List.mem_of_getElem? hget)
  have hcount : s'.itemCount ≤ 20 := by
    have hlast := lastRow_lt wnds
    rw [← rows_length, hrows, menuOf_length]
    omega
  obtain ⟨hmin, hmax, -⟩ := widest_spec hlabels
  refine ⟨⟨hrows, hbtn', ?_⟩, hadds.state_eq, hadds.hoverIndex_eq⟩
  have hitems : 26 + (s'.itemCount : Int) * 20 + 6 = 32 + 20 * s'.itemCount := by omega
  simp only [hbtn', trackerCalcWidestItemWidth, TRACKER_ITEM_HEIGHT, hitems]
  rw [asH_of_range (by omega), asH_of_range (by omega)]
  congr 2
  exact widest_congr (by rfl) _

end BTron.Tracker
