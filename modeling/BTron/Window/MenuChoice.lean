import BTron.GlobalMenu
import BTron.Window.Tiling

namespace BTron.Window

open Lib

def WndMgr.shows (s : WndMgr) (p : Nat) : Bool := (s.mem p).any Wnd.visible

-- The loop of `refresh_window_menu`, which gives the items of the menu one window each.
def menuRows (s : WndMgr) : Nat → Nat → Option Nat → Option (List Nat)
  | 0, _, _ => none
  | _ + 1, _, none => some []
  | fuel + 1, itemCount, some w =>
    if itemCount < GlobalMenu.GMENU_MAX_ITEMS then
      (s.mem w).bind fun v =>
        if v.visible then (menuRows s fuel (itemCount + 1) v.next).map (w :: ·)
        else menuRows s fuel itemCount v.next
    else some []

-- The windows that the menu displays, behind its five own items.
def windowMenuRows (s : WndMgr) : Option (List Nat) := menuRows s (s.count + 1) 5 s.head

-- The item that displays the window with this id is chosen.
def Chosen (s : WndMgr) (targetWIdx : Nat) (id : Int) : Prop :=
  ∃ s', menuSelect s targetWIdx = some s' ∧ (∀ p, s.ids p = some id → s'.head = some p) ∧
    ((∀ p, s.ids p ≠ some id) → s' = s)

-- As many visible windows stand before it as when the menu was opened. It may also be in front,
-- or be closed, with nothing in its place.
structure StillAt (s : WndMgr) (ps : List Nat) (targetWIdx : Nat) (id : Int) : Prop where
  isOpen : ∀ p, s.ids p = some id → (s.shows p ∧ numberOf s ps p = targetWIdx) ∨
    (s.head = some p ∧ shown s ps ≤ targetWIdx)
  isClosed : (∀ p, s.ids p ≠ some id) → shown s ps ≤ targetWIdx ∨
    (targetWIdx = 0 ∧ ∃ p, s.head = some p ∧ s.shows p)

section Walk

variable {s s' : WndMgr} {ps : List Nat} {p i : Nat}

theorem menuRows_from {before : Option Nat} {fuel : Nat} (itemCount : Nat)
    (hlinks : Linked s.next s.prev before ps none) (hlive : ∀ p ∈ ps, s.mem p ≠ none)
    (hfuel : ps.length < fuel) : menuRows s fuel itemCount ps.head? =
      some ((ps.filter s.shows).take (GlobalMenu.GMENU_MAX_ITEMS - itemCount)) := by
  induction ps generalizing before fuel itemCount with
  | nil =>
      obtain ⟨n, rfl⟩ := Nat.exists_eq_add_of_lt hfuel
      simp [menuRows]
  | cons c rest ih =>
      obtain ⟨n, rfl⟩ : ∃ n, fuel = n + 1 := ⟨fuel - 1, by omega⟩
      obtain ⟨-, hnext, hrest⟩ := hlinks
      obtain ⟨v, hv⟩ := Option.ne_none_iff_exists'.mp (hlive c List.mem_cons_self)
      have hvnext : v.next = rest.head? := by
        rw [← Option.or_none (o := rest.head?), ← hnext, WndMgr.next, hv]
        rfl
      have hshows : s.shows c = v.visible := by rw [WndMgr.shows, hv, Option.any_some]
      have hlive' : ∀ p ∈ rest, s.mem p ≠ none := fun p hp => hlive p (List.mem_cons_of_mem c hp)
      have hfuel' : rest.length < n := by
        rw [List.length_cons] at hfuel
        omega
      have hrows := fun itemCount => ih itemCount hrest hlive' hfuel'
      rw [List.head?_cons, menuRows, hv, Option.bind_some, hvnext, hrows, hrows, List.filter_cons,
        hshows]
      by_cases hroom : itemCount < GlobalMenu.GMENU_MAX_ITEMS
      · have hleft : GlobalMenu.GMENU_MAX_ITEMS - itemCount =
            GlobalMenu.GMENU_MAX_ITEMS - (itemCount + 1) + 1 := by omega
        rw [if_pos hroom]
        split
        · rw [hleft, List.take_succ_cons, Option.map_some]
        · rfl
      · have hfull : GlobalMenu.GMENU_MAX_ITEMS - itemCount = 0 := by omega
        rw [if_neg hroom, hfull, List.take_zero]

theorem visibleAt_from {before : Option Nat} {fuel idx : Nat} (hidx : idx ≤ i)
    (hlinks : Linked s.next s.prev before ps none) (hlive : ∀ p ∈ ps, s.mem p ≠ none)
    (hfuel : ps.length < fuel) :
    visibleAt s i fuel idx ps.head? = some ((ps.filter s.shows)[i - idx]?) := by
  induction ps generalizing before fuel idx with
  | nil =>
      obtain ⟨n, rfl⟩ := Nat.exists_eq_add_of_lt hfuel
      simp [visibleAt]
  | cons c rest ih =>
      obtain ⟨n, rfl⟩ : ∃ n, fuel = n + 1 := ⟨fuel - 1, by omega⟩
      obtain ⟨-, hnext, hrest⟩ := hlinks
      obtain ⟨v, hv⟩ := Option.ne_none_iff_exists'.mp (hlive c List.mem_cons_self)
      have hvnext : v.next = rest.head? := by
        rw [← Option.or_none (o := rest.head?), ← hnext, WndMgr.next, hv]
        rfl
      have hshows : s.shows c = v.visible := by rw [WndMgr.shows, hv, Option.any_some]
      have hlive' : ∀ p ∈ rest, s.mem p ≠ none := fun p hp => hlive p (List.mem_cons_of_mem c hp)
      rw [List.length_cons] at hfuel
      rw [List.head?_cons, visibleAt, hv, Option.bind_some, hvnext, List.filter_cons, hshows]
      split
      · by_cases hhere : idx = i
        · rw [if_pos hhere, hhere, Nat.sub_self, List.getElem?_cons_zero]
        · have hlater : i - idx = i - (idx + 1) + 1 := by omega
          rw [if_neg hhere, ih (by omega) hrest hlive' (by omega), hlater, List.getElem?_cons_succ]
      · exact ih hidx hrest hlive' (by omega)

-- The place of a window among the visible ones
theorem getElem?_filter_iff (hp : p ∈ ps) (hnd : ps.Nodup) :
    (ps.filter s.shows)[i]? = some p ↔ s.shows p ∧ numberOf s ps p = i := by
  have hmem : p ∈ ps.filter s.shows ↔ s.shows p := by
    rw [List.mem_filter, and_iff_right hp]
  by_cases hshows : s.shows p
  · obtain ⟨pre, post, rfl⟩ := List.append_of_mem hp
    have hlen : (pre.filter s.shows).length = shown s pre := List.countP_eq_length_filter.symm
    have hat : ((pre ++ p :: post).filter s.shows)[shown s pre]? = some p := by
      rw [List.filter_append, List.filter_cons_of_pos hshows, ← hlen,
        List.getElem?_append_right (Nat.le_refl _), Nat.sub_self, List.getElem?_cons_zero]
    rw [and_iff_right hshows, numberOf_append (not_mem_before hnd)]
    constructor
    · intro hi
      have hlt := (List.getElem?_eq_some_iff.mp hat).1
      exact (List.getElem?_inj hlt (hnd.filter _)).mp (hat.trans hi.symm)
    · rintro rfl
      exact hat
  · refine iff_of_false (fun hi => hshows (hmem.mp (List.mem_of_getElem? hi))) ?_
    exact fun hand => hshows hand.1

end Walk

section Choice

variable {s : WndMgr} {ps : List Nat} {i : Nat}

theorem windowMenuRows_spec (h : Represents s ps) :
    windowMenuRows s = some ((ps.filter s.shows).take 15) := by
  rw [windowMenuRows, h.head]
  exact menuRows_from 5 h.links h.all_live (by rw [h.count]; exact Nat.lt_succ_self _)

-- The items carry the places of these windows.
theorem refreshWindowMenu_items (h : Represents s ps) {wnds : List GlobalMenu.Shown}
    (hwnds : wnds.map GlobalMenu.Shown.visible = ps.map s.shows) (m : GlobalMenu) :
    ∃ rows, windowMenuRows s = some rows ∧ (GlobalMenu.refreshWindowMenu m wnds).windowItems =
      (List.range rows.length).map fun i => GlobalMenu.item (.wndSelect i) := by
  refine ⟨_, windowMenuRows_spec h, ?_⟩
  have hcount : wnds.countP GlobalMenu.Shown.visible = ps.countP s.shows := by
    have hmap := congrArg (List.countP id) hwnds
    rwa [List.countP_map, List.countP_map] at hmap
  rw [List.countP_eq_length_filter, List.countP_eq_length_filter] at hcount
  rw [GlobalMenu.refreshWindowMenu, List.length_take, List.length_take, hcount]
  rfl

theorem menuTarget_spec (h : Represents s ps) (i : Nat) :
    menuTarget s i = some ((ps.filter s.shows)[i]?) := by
  rw [menuTarget, h.head]
  apply visibleAt_from (Nat.zero_le i) h.links h.all_live
  rw [h.count]
  exact Nat.lt_succ_self _

theorem length_filter_shows (s : WndMgr) (ps : List Nat) :
    (ps.filter s.shows).length = shown s ps := List.countP_eq_length_filter.symm

-- Where there is no such window, nothing is done.
theorem menuSelect_absent (h : Represents s ps) (hi : (ps.filter s.shows)[i]? = none) :
    menuSelect s i = some s := by
  rw [menuSelect, menuTarget_spec h, hi]
  rfl

theorem menuSelect_present (h : Represents s ps) {t : Nat}
    (hi : (ps.filter s.shows)[i]? = some t) :
    ∃ s', menuSelect s i = some s' ∧ s'.head = some t ∧ (s' = s ↔ s.head = some t) := by
  have ht : t ∈ ps := (List.mem_filter.mp (List.mem_of_getElem? hi)).1
  obtain ⟨s', er, htop, h'⟩ := h.topWnd_spec (some t)
  rw [Act.apply, if_pos ht] at h'
  have hsel : menuSelect s i = some s' := by
    rw [menuSelect, menuTarget_spec h, hi, Option.bind_eq_bind, Option.bind_some]
    dsimp only
    rw [htop, Option.map_some]
  refine ⟨s', hsel, h'.head, fun heq => ?_, fun hhead => ?_⟩
  · rw [← heq]
    exact h'.head
  · rw [topWnd, if_pos hhead, Option.some.injEq, Prod.mk.injEq] at htop
    exact htop.1.symm

theorem mem_of_ids (h : Represents s ps) {p : Nat} {id : Int} (hid : s.ids p = some id) :
    p ∈ ps := by
  rw [← h.live p]
  intro hnone
  rw [WndMgr.ids, hnone] at hid
  cases hid

-- The front window is the first one when it is visible.
theorem head_first (h : Represents s ps) {t : Nat} (hhead : s.head = some t) :
    t ∈ ps ∧ numberOf s ps t = 0 := by
  rw [h.head] at hhead
  obtain ⟨rest, rfl⟩ := List.head?_eq_some_iff.mp hhead
  have hnone : numberOf s ([] ++ t :: rest) t = shown s [] := numberOf_append List.not_mem_nil
  exact ⟨List.mem_cons_self, hnone⟩

theorem chosen_iff (h : Represents s ps) (i : Nat) (id : Int) :
    Chosen s i id ↔ StillAt s ps i id := by
  have hlen := length_filter_shows s ps
  cases hi : (ps.filter s.shows)[i]? with
  | none =>
      have hle : shown s ps ≤ i := by
        rw [← hlen]
        exact List.getElem?_eq_none_iff.mp hi
      have hsel := menuSelect_absent h hi
      constructor
      · rintro ⟨s', hs', hopen, -⟩
        obtain rfl := Option.some.inj (hsel.symm.trans hs')
        exact ⟨fun p hp => .inr ⟨hopen p hp, hle⟩, fun _ => .inl hle⟩
      · intro hstill
        refine ⟨s, hsel, fun p hp => ?_, fun _ => rfl⟩
        obtain hat | hfront := hstill.isOpen p hp
        · rw [(getElem?_filter_iff (mem_of_ids h hp) h.nodup).mpr hat] at hi
          cases hi
        · exact hfront.1
  | some t =>
      have hlt : i < shown s ps := by
        rw [← hlen]
        exact (List.getElem?_eq_some_iff.mp hi).1
      have ht : t ∈ ps := (List.mem_filter.mp (List.mem_of_getElem? hi)).1
      obtain ⟨s', hsel, hfront, hsame⟩ := menuSelect_present h hi
      constructor
      · rintro ⟨s'', hs'', hopen, hclosed⟩
        obtain rfl := Option.some.inj (hsel.symm.trans hs'')
        refine ⟨fun p hp => .inl ?_, fun hno => .inr ?_⟩
        · obtain rfl := Option.some.inj (hfront.symm.trans (hopen p hp))
          exact (getElem?_filter_iff ht h.nodup).mp hi
        · have hhead := hsame.mp (hclosed hno)
          obtain ⟨hshows, hnumber⟩ := (getElem?_filter_iff ht h.nodup).mp hi
          rw [(head_first h hhead).2] at hnumber
          exact ⟨hnumber.symm, t, hhead, hshows⟩
      · intro hstill
        refine ⟨s', hsel, fun p hp => ?_, fun hno => ?_⟩
        · obtain hat | ⟨-, hle⟩ := hstill.isOpen p hp
          · rw [(getElem?_filter_iff (mem_of_ids h hp) h.nodup).mpr hat] at hi
            rw [hfront, hi]
          · omega
        · obtain hle | ⟨rfl, q, hq, hshows⟩ := hstill.isClosed hno
          · omega
          · obtain ⟨hmem, hnumber⟩ := head_first h hq
            rw [(getElem?_filter_iff hmem h.nodup).mpr ⟨hshows, hnumber⟩] at hi
            obtain rfl := Option.some.inj hi
            exact hsame.mpr hq

end Choice

-- The menu is opened, then the windows come and go, and then an item is chosen.
theorem menu_choice_iff (n : Int) (tr : List (State × Op)) (s₀ : State)
    (htr : Trace Performs (.init n) tr s₀) (rows : List Nat)
    (hrows : windowMenuRows s₀.wm = some rows) (i w : Nat) (hrow : rows[i]? = some w) (id : Int)
    (hid : s₀.wm.ids w = some id) (tr' : List (State × Op)) (s : State)
    (htr' : Trace Performs s₀ tr' s) :
    (∃ ps₀, Represents s₀.wm ps₀ ∧ s₀.wm.shows w ∧ numberOf s₀.wm ps₀ w = i ∧
      StillAt s₀.wm ps₀ i id) ∧
    ∃ ps, Represents s.wm ps ∧ (Chosen s.wm i id ↔ StillAt s.wm ps i id) := by
  have hinit : Represents (State.init n).wm [] := represents_init n
  obtain ⟨⟨ps₀, h₀⟩, -⟩ := htr.always (I := fun s => ∃ ps, Represents s.wm ps) ⟨[], hinit⟩
    fun _ _ _ ⟨_, h⟩ hp => performs_represents h hp
  obtain ⟨⟨ps, h⟩, -⟩ := htr'.always (I := fun s => ∃ ps, Represents s.wm ps) ⟨ps₀, h₀⟩
    fun _ _ _ ⟨_, h⟩ hp => performs_represents h hp
  -- it is the window of the item, visible and with that number
  rw [windowMenuRows_spec h₀, Option.some.injEq] at hrows
  have hat : (ps₀.filter s₀.wm.shows)[i]? = some w := by
    rw [← hrows, List.getElem?_take] at hrow
    exact (Option.ite_none_right_eq_some.mp hrow).2
  have hmem : w ∈ ps₀ := (List.mem_filter.mp (List.mem_of_getElem? hat)).1
  obtain ⟨hshows, hnumber⟩ := (getElem?_filter_iff hmem h₀.nodup).mp hat
  refine ⟨⟨ps₀, h₀, hshows, hnumber, fun p hp => ?_, fun hno => absurd hid (hno w)⟩, ps, h,
    chosen_iff h i id⟩
  obtain rfl := h₀.distinct p w id hp hid
  exact .inl ⟨hshows, hnumber⟩

-- A window for each of the addresses, opened one after the other
def openAt (p : Nat) : Op :=
  .call (.opn (some p) none 100 100 300 200 (WND_ATTR_TITLE ||| WND_ATTR_CLOSE) true)

theorem performs_openAt {s s' : State} {ps : List Nat} {p : Nat} (h : Represents s.wm ps)
    (hp : p ∉ ps) (hopn : perform s (openAt p) = some s') :
    Performs s (openAt p) s' ∧ Represents s'.wm (p :: ps) := by
  have hlegal : (openAt p).Legal s := by
    refine ⟨fun q hq => ?_, fun q hook hcls => ?_⟩
    · obtain rfl := Option.some.inj hq
      by_contra hlive
      exact hp ((h.live p).mp hlive)
    · cases hcls
  refine ⟨⟨hlegal, hopn⟩, ?_⟩
  obtain ⟨wm, hexec, rfl⟩ := Option.map_eq_some_iff.mp hopn
  exact step_spec h ⟨hlegal.1, hexec⟩

theorem openAt_trace {s₀ s s' : State} {tr : List (State × Op)} {ps qs : List Nat}
    (htr : Trace Performs s₀ tr s) (h : Represents s.wm qs) (hnd : (ps ++ qs).Nodup)
    (hrun : (ps.map openAt).foldlM perform s = some s') :
    ∃ tr', Trace Performs s₀ tr' s' ∧ Represents s'.wm (ps.reverse ++ qs) := by
  induction ps generalizing s tr qs with
  | nil =>
      cases hrun
      exact ⟨tr, htr, h⟩
  | cons p ps ih =>
      rw [List.map_cons, List.foldlM_cons, Option.bind_eq_bind, Option.bind_eq_some_iff] at hrun
      obtain ⟨s₁, hopn, hrest⟩ := hrun
      rw [List.cons_append, List.nodup_cons, List.mem_append, not_or] at hnd
      obtain ⟨hstep, h₁⟩ := performs_openAt h hnd.1.2 hopn
      have hnd₁ : (ps ++ p :: qs).Nodup := by
        rw [List.nodup_middle, List.nodup_cons, List.mem_append, not_or]
        exact hnd
      rw [List.reverse_cons, List.append_assoc, List.singleton_append]
      exact ih (htr.next hstep) h₁ hnd₁ hrest

-- What is read of the windows in the two runs
def glance (s : State) : Option (List Nat) × Option Int × Option (Option Nat) :=
  (windowMenuRows s.wm, s.wm.ids 200, (menuSelect s.wm 0).map WndMgr.head)

theorem openTwo_glance : (([100, 200].map openAt).foldlM perform (.init 1)).map glance =
    some (some [200, 100], some 2, some (some 200)) := by
  decide +kernel

theorem openThree_glance :
    ((([100, 200].map openAt).foldlM perform (.init 1)).bind fun s => perform s (openAt 300)).map
      glance = some (some [300, 200, 100], some 2, some (some 300)) := by
  decide +kernel

theorem openTwo_trace : ∃ tr s, Trace Performs (.init 1) tr s ∧ Represents s.wm [200, 100] ∧
    ([100, 200].map openAt).foldlM perform (.init 1) = some s ∧
    glance s = (some [200, 100], some 2, some (some 200)) := by
  obtain ⟨s, hrun, hview⟩ := Option.map_eq_some_iff.mp openTwo_glance
  have hinit : Represents (State.init 1).wm [] := represents_init 1
  obtain ⟨tr, htr, h⟩ := openAt_trace .start hinit (by decide) hrun
  exact ⟨tr, s, htr, h, hrun, hview⟩

-- Another window is opened behind the menu, and the item of the front window selects that one.
theorem menu_choice_misses : ∃ tr s₀ tr' s, Trace Performs (.init 1) tr s₀ ∧
    windowMenuRows s₀.wm = some [200, 100] ∧ s₀.wm.ids 200 = some 2 ∧
    Trace Performs s₀ tr' s ∧ s.wm.ids 200 = some 2 ∧ ¬Chosen s.wm 0 2 := by
  obtain ⟨tr, s₀, htr, h, hrun, hview⟩ := openTwo_trace
  have hthree := openThree_glance
  rw [hrun, Option.bind_some] at hthree
  obtain ⟨s, hopn, hview'⟩ := Option.map_eq_some_iff.mp hthree
  rw [glance, Prod.mk.injEq, Prod.mk.injEq] at hview hview'
  obtain ⟨hrows, hid, -⟩ := hview
  obtain ⟨-, hid', hsel⟩ := hview'
  obtain ⟨hstep, -⟩ := performs_openAt h (by decide) hopn
  refine ⟨tr, s₀, _, s, htr, hrows, hid, .next .start hstep, hid', ?_⟩
  rintro ⟨s', hs', hopen, -⟩
  rw [hs', Option.map_some, hopen 200 hid'] at hsel
  cases hsel

-- The menu is opened, and its first item is chosen at once.
theorem menu_choice_at_once : ∃ s, Chosen s 0 2 := by
  obtain ⟨tr, s, htr, -, -, hview⟩ := openTwo_trace
  rw [glance, Prod.mk.injEq, Prod.mk.injEq] at hview
  obtain ⟨⟨ps₀, h₀, -, -, hstill⟩, ps, h, hiff⟩ := menu_choice_iff 1 tr s htr [200, 100] hview.1 0
    200 rfl 2 hview.2.1 [] s .start
  have hsame : ps = ps₀ := h.links.unique h₀.links (by rw [← h.head, ← h₀.head])
  rw [hsame] at hiff
  exact ⟨s.wm, hiff.mpr hstill⟩

end BTron.Window
