import BTron.Window.Interactions

namespace BTron.Window

open Lib Graphics

-- EVT with the shift key and whether there is memory for a device.
structure DeskEvt extends Evt where
  wndid : Int
  key : Nat
  button : Nat
  data : Int
  shift : Bool
  mem : Bool

-- What the programs do, which keep what they know in an α. The input method is one of them.
structure Programs (α : Type) where
  -- the handler of the window at an address
  handler : α → WndMgr → Nat → DeskEvt → Option (α × WndMgr)
  -- the destroy hook of a window that is closed
  hook : α → (Nat → Option Wnd) → Nat → Option Wnd
  closed : α → α
  tipCancel : α → α

section Desktops

variable {α : Type} (P : Programs α)

-- The branch of `main` for a button that goes down on a window.
def Wnd.mainPress (clicked : Wnd) (e : DeskEvt) : Press :=
  let b := clicked.bounds
  if clicked.has WND_ATTR_RESIZE ∧ e.x ≥ b.right - 16 ∧ e.x ≤ b.right ∧ e.y ≥ b.bottom - 16 ∧
      e.y ≤ b.bottom then .start .resize
  else if clicked.has WND_ATTR_TITLE then
    let tabR := wgetTabRect clicked
    if e.y ≥ b.top ∧ e.y < tabR.bottom then
      if whitTestCloseBtn clicked e.x e.y then .close
      else if whitTestTab clicked e.x e.y then
        let isSlideGesture :=
          e.shift || e.button == 3 || (e.x ≥ tabR.left && e.x < tabR.left + 12)
        if isSlideGesture && clicked.has WND_ATTR_SLIDING_TAB then .start .slide
        else .start .drag
      else .start .drag
    else .client
  else .client

-- What an event leaves, and the window that it is delivered to next.
abbrev Left (α : Type) := (α × State) × Option Nat

def mainButDown (a : α) (s : State) (e : DeskEvt) : Option (Left α) := do
  match ← findWndAt s.wm e.x e.y with
  | none => some ((a, s), none)
  | some p =>
    let a := if s.wm.head ≠ some p then P.tipCancel a else a
    let wm ← raise s.wm p
    let s := { s with wm := wm }
    let clicked ← wm.mem p
    match clicked.mainPress e with
    | .start k => some ((a, s.start k p clicked e.x e.y), none)
    | .close =>
      let (wm, _) ← clsWnd wm (some p) (P.hook a)
      some ((P.tipCancel (P.closed a), { s with wm := wm }), none)
    | .client => some ((a, s), if clicked.eventHandler ≠ 0 then some p else none)

def mainButUp (a : α) (s : State) : Option (Left α) := do
  let s :=
    { s with
        dragging := false
        dragTarget := none
        slidingTab := false
        slideTarget := none
        resizing := false
        resizeTarget := none }
  let client ← topClient s.wm
  some ((a, s), client)

def mainMouseMove (a : α) (s : State) (e : DeskEvt) : Option (Left α) :=
  match s.slidingTab, s.slideTarget with
  | true, some slideWnd => do
    let newOff := asH (s.slideOrigOff + (e.x - s.slideStartX))
    let wm ← s.wm.write slideWnd fun v => wsetTabOffset v newOff
    some ((a, { s with wm := wm }), none)
  | _, _ =>
    match s.resizing, s.resizeTarget with
    | true, some resizeWnd => do
      let newW := asH (s.resizeOrigW + (e.x - s.resizeStartX))
      let newH := asH (s.resizeOrigH + (e.y - s.resizeStartY))
      let wm ← s.wm.write resizeWnd fun v => rszWnd v newW newH e.mem
      some ((a, { s with wm := wm }), none)
    | _, _ =>
      match s.dragging, s.dragTarget with
      | true, some dragWnd => do
        let wm ← s.wm.write dragWnd fun v =>
          movWnd v (asH (e.x - s.dragOffX)) (asH (e.y - s.dragOffY))
        some ((a, { s with wm := wm }), none)
      | _, _ => do
        let client ← topClient s.wm
        some ((a, s), client)

-- The loop of `main` on an event that no menu, no tracker and no icon takes.
def mainEvent (a : α) (s : State) (e : DeskEvt) : Option (Left α) :=
  match e.type with
  | .EV_BUT_DOWN => mainButDown P a s e
  | .EV_BUT_UP => mainButUp a s
  | .EV_MOUSE_MOVE => mainMouseMove a s e
  | .EV_KEY_DOWN => do
    let client ← topClient s.wm
    some ((a, s), client)
  | _ => some ((a, s), none)

-- `wnd_mgr_handle_event` with what the hook of a closed window does for its program.
def bareEvent (a : α) (s : State) (e : DeskEvt) : Option (Left α) := do
  let (s', _, client) ← wndMgrHandleEvent s (some e.toEvt) e.mem (P.hook a)
  match (Input.event (some e.toEvt) e.mem (P.hook a)).effect s with
  | .close _ => some ((P.closed a, s'), client)
  | _ => some ((a, s'), client)

-- The handler of the window runs last.
def deliver (e : DeskEvt) (l : Left α) : Option (Left α) :=
  match l.2 with
  | none => some l
  | some p => do
    let (a, wm) ← P.handler l.1.1 l.1.2.wm p e
    some ((a, { l.1.2 with wm := wm }), some p)

def mainStep (s : α × State) (e : DeskEvt) : Option (Left α) :=
  (mainEvent P s.1 s.2 e).bind (deliver P e)

def bareStep (s : α × State) (e : DeskEvt) : Option (Left α) :=
  (bareEvent P s.1 s.2 e).bind (deliver P e)

-- A step of a run: the event, and the window whose handler got it.
def Steps (step : α × State → DeskEvt → Option (Left α)) (s : α × State) (l : DeskEvt × Option Nat)
    (s' : α × State) : Prop := step s l.1 = some (s', l.2)

end Desktops

-- A left button without modifiers, a move, a release or a key.
def DeskEvt.Plain (e : DeskEvt) : Prop :=
  (e.type = .EV_BUT_DOWN ∧ e.button = 1 ∧ e.shift = false) ∨ e.type = .EV_MOUSE_MOVE ∨
    e.type = .EV_BUT_UP ∨ e.type = .EV_KEY_DOWN

-- The corner that is the grip of one desktop and not of the other.
def Wnd.OnGripEdge (v : Wnd) (x y : Int) : Prop :=
  v.has WND_ATTR_RESIZE ∧ v.bounds.right - 18 ≤ x ∧ x ≤ v.bounds.right ∧
    v.bounds.bottom - 18 ≤ y ∧ y ≤ v.bounds.bottom ∧
    (x < v.bounds.right - 16 ∨ y < v.bounds.bottom - 16)

-- The same for the part of the tab that slides it.
def Wnd.OnSlideEdge (v : Wnd) (x y : Int) : Prop :=
  v.has WND_ATTR_TITLE ∧ v.has WND_ATTR_SLIDING_TAB ∧
    ¬(v.has WND_ATTR_RESIZE ∧ v.bounds.right - 18 ≤ x ∧ x ≤ v.bounds.right ∧
      v.bounds.bottom - 18 ≤ y ∧ y ≤ v.bounds.bottom) ∧
    v.bounds.top ≤ y ∧ y < (wgetTabRect v).bottom ∧ whitTestCloseBtn v x y = false ∧
    whitTestTab v x y ∧ (wgetTabRect v).left + 12 ≤ x ∧ x < (wgetTabRect v).left + 14

-- A press that is not on the grip, where `slides` says that it is on the part that slides the tab.
def Wnd.railPress (v : Wnd) (x y : Int) (slides : Bool) : Press :=
  if v.has WND_ATTR_TITLE ∧ y ≥ v.bounds.top ∧ y < (wgetTabRect v).bottom then
    if whitTestCloseBtn v x y then .close
    else if whitTestTab v x y then
      if slides && v.has WND_ATTR_SLIDING_TAB then .start .slide else .start .drag
    else .start .drag
  else .client

theorem press_eq (v : Wnd) (x y : Int) :
    v.press x y =
      if v.has WND_ATTR_RESIZE ∧ x ≥ v.bounds.right - 18 ∧ x ≤ v.bounds.right ∧
          y ≥ v.bounds.bottom - 18 ∧ y ≤ v.bounds.bottom then .start .resize
      else v.railPress x y (x ≥ (wgetTabRect v).left && x < (wgetTabRect v).left + 14) := by
  simp only [Wnd.press, Wnd.railPress, Bool.and_eq_true, decide_eq_true_eq]

theorem mainPress_eq (v : Wnd) {e : DeskEvt} (hbutton : e.button = 1) (hshift : e.shift = false) :
    v.mainPress e =
      if v.has WND_ATTR_RESIZE ∧ e.x ≥ v.bounds.right - 16 ∧ e.x ≤ v.bounds.right ∧
          e.y ≥ v.bounds.bottom - 16 ∧ e.y ≤ v.bounds.bottom then .start .resize
      else v.railPress e.x e.y
        (e.x ≥ (wgetTabRect v).left && e.x < (wgetTabRect v).left + 12) := by
  have hright : (e.button == 3) = false := by
    rw [hbutton]
    rfl
  rw [Wnd.mainPress, Wnd.railPress, hright, hshift]
  simp only [Bool.false_or, ite_and]

theorem railPress_ne_resize (v : Wnd) (x y : Int) (slides : Bool) :
    v.railPress x y slides ≠ .start .resize := by
  rw [Wnd.railPress]
  split
  · split
    · simp
    · split
      · split <;> simp
      · simp
  · simp

-- A press in the rail depends on the part of the tab only where the tab can slide.
theorem railPress_eq_iff (v : Wnd) (x y : Int) (b c : Bool) :
    v.railPress x y b = v.railPress x y c ↔
      ((v.has WND_ATTR_TITLE ∧ y ≥ v.bounds.top ∧ y < (wgetTabRect v).bottom) ∧
          whitTestCloseBtn v x y = false ∧ whitTestTab v x y ∧ v.has WND_ATTR_SLIDING_TAB →
        b = c) := by
  rw [Wnd.railPress, Wnd.railPress]
  by_cases hrail : v.has WND_ATTR_TITLE ∧ y ≥ v.bounds.top ∧ y < (wgetTabRect v).bottom
  · rw [if_pos hrail, if_pos hrail]
    cases hclose : whitTestCloseBtn v x y with
    | true => simp
    | false =>
        cases htab : whitTestTab v x y with
        | false => simp
        | true =>
            cases v.has WND_ATTR_SLIDING_TAB with
            | false => simp
            | true => cases b <;> cases c <;> simp [hrail]
  · rw [if_neg hrail, if_neg hrail]
    simp [hrail]

-- The two desktops tell apart what a plain press is for in the same way, but on the edges.
theorem press_eq_iff (v : Wnd) {e : DeskEvt} (hbutton : e.button = 1) (hshift : e.shift = false) :
    v.mainPress e = v.press e.x e.y ↔ ¬v.OnGripEdge e.x e.y ∧ ¬v.OnSlideEdge e.x e.y := by
  rw [mainPress_eq v hbutton hshift, press_eq]
  by_cases hgrip : v.has WND_ATTR_RESIZE ∧ e.x ≥ v.bounds.right - 18 ∧ e.x ≤ v.bounds.right ∧
      e.y ≥ v.bounds.bottom - 18 ∧ e.y ≤ v.bounds.bottom
  · have hslide : ¬v.OnSlideEdge e.x e.y := fun hedge => hedge.2.2.1 hgrip
    rw [if_pos hgrip]
    split
    · rename_i hinner
      refine iff_of_true rfl ⟨fun hedge => ?_, hslide⟩
      obtain ⟨-, -, -, -, -, hout⟩ := hedge
      omega
    · rename_i hinner
      refine iff_of_false (railPress_ne_resize v _ _ _) fun hoff => hoff.1 ?_
      obtain ⟨hresize, hx, hx', hy, hy'⟩ := hgrip
      refine ⟨hresize, hx, hx', hy, hy', ?_⟩
      by_contra hin
      exact hinner ⟨hresize, by omega, hx', by omega, hy'⟩
  · have hout : ¬v.OnGripEdge e.x e.y :=
      fun hedge => hgrip ⟨hedge.1, hedge.2.1, hedge.2.2.1, hedge.2.2.2.1, hedge.2.2.2.2.1⟩
    have hinner : ¬(v.has WND_ATTR_RESIZE ∧ e.x ≥ v.bounds.right - 16 ∧ e.x ≤ v.bounds.right ∧
        e.y ≥ v.bounds.bottom - 16 ∧ e.y ≤ v.bounds.bottom) := by
      rintro ⟨hresize, hx, hx', hy, hy'⟩
      exact hgrip ⟨hresize, by omega, hx', by omega, hy'⟩
    rw [if_neg hgrip, if_neg hinner, railPress_eq_iff]
    constructor
    · intro hsame
      refine ⟨hout, ?_⟩
      rintro ⟨htitle, hsliding, -, htop, hbottom, hclose, htab, hleft, hright⟩
      have heq := hsame ⟨⟨htitle, htop, hbottom⟩, hclose, htab, hsliding⟩
      rw [decide_eq_false (by omega : ¬e.x < (wgetTabRect v).left + 12), Bool.and_false,
        decide_eq_true hright, decide_eq_true (by omega : e.x ≥ (wgetTabRect v).left)] at heq
      cases heq
    · rintro ⟨-, hslide⟩ ⟨⟨htitle, htop, hbottom⟩, hclose, htab, hsliding⟩
      have hoff : ¬((wgetTabRect v).left + 12 ≤ e.x ∧ e.x < (wgetTabRect v).left + 14) :=
        fun hband => hslide ⟨htitle, hsliding, hgrip, htop, hbottom, hclose, htab, hband.1, hband.2⟩
      congr 1
      rw [decide_eq_decide]
      omega

-- Nothing that the one desktop does and the other does not: a press is on no edge, and the input
-- method has nothing to cancel where the focus changes or a window is closed.
def Alike {α : Type} (P : Programs α) (s : α × State) (e : DeskEvt) : Prop :=
  e.type = .EV_BUT_DOWN → ∀ p v, findWndAt s.2.wm e.x e.y = some (some p) →
    s.2.wm.mem p = some v →
    (¬v.OnGripEdge e.x e.y ∧ ¬v.OnSlideEdge e.x e.y) ∧
      (s.2.wm.head ≠ some p → P.tipCancel s.1 = s.1) ∧
      (v.press e.x e.y = .close → P.tipCancel (P.closed s.1) = P.closed s.1)

section Steps

variable {α : Type} {P : Programs α} {a : α} {s : State} {e : DeskEvt}

theorem mainPress_of_bare {v w : Wnd} (h : v.bare = w.bare) (e : DeskEvt) :
    v.mainPress e = w.mainPress e := by
  have hbare : v.bare.mainPress e = w.bare.mainPress e := by rw [h]
  exact hbare

theorem raise_bare {s wm : WndMgr} {p : Nat} (h : raise s p = some wm) : SameBare s wm := by
  rw [raise] at h
  split at h
  · obtain ⟨⟨s', er⟩, htop, rfl⟩ := Option.map_eq_some_iff.mp h
    exact sameBare_topWnd htop
  · obtain rfl := Option.some.inj h
    exact fun _ => rfl

theorem butDown_alike (hbutton : e.button = 1) (hshift : e.shift = false)
    (halike : ∀ p v, findWndAt s.wm e.x e.y = some (some p) → s.wm.mem p = some v →
      (¬v.OnGripEdge e.x e.y ∧ ¬v.OnSlideEdge e.x e.y) ∧
        (s.wm.head ≠ some p → P.tipCancel a = a) ∧
        (v.press e.x e.y = .close → P.tipCancel (P.closed a) = P.closed a)) :
    mainButDown P a s e = (butDown s e.x e.y (P.hook a)).bind fun r =>
      match pressEffect s.wm e.x e.y with
      | .close _ => some ((P.closed a, r.1), r.2.2)
      | _ => some ((a, r.1), r.2.2) := by
  rw [mainButDown, butDown, pressEffect]
  simp only [Option.bind_eq_bind]
  cases hfound : findWndAt s.wm e.x e.y with
  | none => rfl
  | some found =>
      cases found with
      | none => rfl
      | some p =>
          obtain ⟨v, hv⟩ := Option.ne_none_iff_exists'.mp (findFrom_live hfound)
          obtain ⟨hedges, hfocus, hclosed⟩ := halike p v hfound hv
          have hkeep : (if s.wm.head ≠ some p then P.tipCancel a else a) = a := by
            split
            · rename_i hne
              exact hfocus hne
            · rfl
          simp only [Option.bind_some, hkeep, hv, Option.map_some]
          cases hraise : raise s.wm p with
          | none => rfl
          | some wm =>
              simp only [Option.bind_some]
              cases hclicked : wm.mem p with
              | none => rfl
              | some clicked =>
                  have hbare : clicked.bare = v.bare := by
                    have hsame := raise_bare hraise p
                    rw [hclicked, hv] at hsame
                    exact Option.some.inj hsame
                  have hmain : clicked.mainPress e = v.press e.x e.y := by
                    rw [mainPress_of_bare hbare, (press_eq_iff v hbutton hshift).mpr hedges]
                  simp only [Option.bind_some, hmain, press_of_bare hbare e.x e.y]
                  cases hkind : v.press e.x e.y with
                  | start k => rfl
                  | client => rfl
                  | close =>
                      simp only [hclosed hkind]
                      cases clsWnd wm (some p) (P.hook a) with
                      | none => rfl
                      | some r => rfl

theorem mainMouseMove_eq (a : α) (s : State) (e : DeskEvt) :
    mainMouseMove a s e = (mouseMove s e.x e.y e.mem).map fun r => ((a, r.1), r.2.2) := by
  unfold mainMouseMove mouseMove
  simp only [Option.bind_eq_bind]
  -- each of the three flags only counts with its target
  cases s.slidingTab <;> cases s.slideTarget <;> cases s.resizing <;> cases s.resizeTarget <;>
    cases s.dragging <;> cases s.dragTarget <;> simp only [Option.map_bind] <;> rfl

theorem event_alike (hplain : e.Plain) (halike : Alike P (a, s) e) :
    mainEvent P a s e = bareEvent P a s e := by
  obtain ⟨hdown, hbutton, hshift⟩ | hmove | hup | hkey := hplain
  · rw [mainEvent, hdown]
    dsimp only
    rw [butDown_alike hbutton hshift (halike hdown), bareEvent]
    simp only [wndMgrHandleEvent, hdown, Input.effect, Option.bind_eq_bind]
  · rw [mainEvent, hmove]
    dsimp only
    rw [mainMouseMove_eq, bareEvent]
    simp only [wndMgrHandleEvent, hmove, Input.effect, Option.bind_eq_bind]
    cases mouseMove s e.x e.y e.mem with
    | none => rfl
    | some r => rfl
  · rw [mainEvent, hup]
    dsimp only
    rw [mainButUp, bareEvent]
    simp only [wndMgrHandleEvent, hup, Input.effect, Option.bind_eq_bind, butUp]
    cases topClient s.wm with
    | none => rfl
    | some client => rfl
  · rw [mainEvent, hkey, bareEvent]
    simp only [wndMgrHandleEvent, hkey, Input.effect, Option.bind_eq_bind]
    cases topClient s.wm with
    | none => rfl
    | some client => rfl

theorem step_alike {s : α × State} (hplain : e.Plain) (halike : Alike P s e) :
    mainStep P s e = bareStep P s e := by
  rw [mainStep, bareStep, event_alike hplain halike]

end Steps

-- A run of plain events whose presses are on no edge, and find the input method idle where it
-- matters, is the same on both desktops: every state of it, and every handler that gets an event.
theorem desktops_alike {α : Type} (P : Programs α) (s₀ : α × State)
    (tr : List ((α × State) × (DeskEvt × Option Nat))) (s : α × State)
    (hplain : ∀ t ∈ tr, t.2.1.Plain) (halike : ∀ t ∈ tr, Alike P t.1 t.2.1) :
    Trace (Steps (mainStep P)) s₀ tr s ↔ Trace (Steps (bareStep P)) s₀ tr s := by
  constructor
  · intro htr
    induction htr with
    | start => exact .start
    | next _ hstep ih =>
        rw [List.forall_mem_cons] at hplain halike
        refine (ih hplain.2 halike.2).next ?_
        rw [Steps, ← step_alike hplain.1 halike.1]
        exact hstep
  · intro htr
    induction htr with
    | start => exact .start
    | next _ hstep ih =>
        rw [List.forall_mem_cons] at hplain halike
        refine (ih hplain.2 halike.2).next ?_
        rw [Steps, step_alike hplain.1 halike.1]
        exact hstep

-- Programs that do nothing, and one window with a title and a close box.
def idlePrograms : Programs Unit := ⟨fun a wm _ _ => some (a, wm), fun _ mem => mem, id, id⟩

def oneWindow : State :=
  match exec (.init 1) (.opn (some 100) none 100 100 300 200 (WND_ATTR_TITLE ||| WND_ATTR_CLOSE)
    true) with
  | some wm => { State.init 1 with wm := wm }
  | none => .init 1

def plainEvt (type : EvType) (x y : Int) : DeskEvt := ⟨⟨type, x, y⟩, 0, 0, 1, 0, false, true⟩

instance (v : Wnd) (x y : Int) : Decidable (v.OnGripEdge x y) := by
  unfold Wnd.OnGripEdge
  infer_instance

instance (v : Wnd) (x y : Int) : Decidable (v.OnSlideEdge x y) := by
  unfold Wnd.OnSlideEdge
  infer_instance

theorem oneWindow_corner :
    findWndAt oneWindow.wm 395 295 = some (some 100) ∧
      (oneWindow.wm.mem 100).all (fun v => !v.OnGripEdge 395 295 && !v.OnSlideEdge 395 295) ∧
      (mainStep idlePrograms ((), oneWindow) (plainEvt .EV_BUT_DOWN 395 295)).map
        (fun l => (l.1.2.resizing, l.2)) = some (true, none) := by
  decide

-- The button goes down on the grip of the window.
theorem desktops_alike_corner :
    ∃ tr s, Trace (Steps (mainStep idlePrograms)) ((), oneWindow) tr s ∧
      Trace (Steps (bareStep idlePrograms)) ((), oneWindow) tr s ∧ s.2.resizing = true := by
  obtain ⟨hfind, hedges, hstep⟩ := oneWindow_corner
  obtain ⟨⟨s, c⟩, hmain, hview⟩ := Option.map_eq_some_iff.mp hstep
  have htr : Trace (Steps (mainStep idlePrograms)) ((), oneWindow)
      [(((), oneWindow), (plainEvt .EV_BUT_DOWN 395 295, c))] s := .next .start hmain
  refine ⟨_, s, htr, (desktops_alike idlePrograms _ _ s ?_ ?_).mp htr, (Prod.mk.inj hview).1⟩
  · rw [List.forall_mem_singleton]
    exact .inl ⟨rfl, rfl, rfl⟩
  · rw [List.forall_mem_singleton]
    intro _ p v hp hv
    obtain rfl : p = 100 := Option.some.inj (Option.some.inj (hp.symm.trans hfind))
    have hv' : oneWindow.wm.mem 100 = some v := hv
    rw [hv', Option.all_some, Bool.and_eq_true] at hedges
    simp only [Bool.not_eq_true', decide_eq_false_iff_not] at hedges
    exact ⟨hedges, fun _ => rfl, fun _ => rfl⟩

-- The bounds of the window after two events.
def boundsAfter (step : Unit × State → DeskEvt → Option (Left Unit)) (e e' : DeskEvt) :
    Option Rect :=
  (step ((), oneWindow) e).bind fun l =>
    (step l.1 e').bind fun l => (l.1.2.wm.mem 100).map Wnd.bounds

theorem gripEdge_main :
    (mainStep idlePrograms ((), oneWindow) (plainEvt .EV_BUT_DOWN 383 283)).map
      (fun l => l.1.2.resizing) = some false := by
  decide

theorem gripEdge_bare :
    (bareStep idlePrograms ((), oneWindow) (plainEvt .EV_BUT_DOWN 383 283)).map
      (fun l => l.1.2.resizing) = some true := by
  decide

-- The button goes down seventeen pixels from the corner, and the pointer moves: the window keeps
-- its size on one desktop and grows on the other.
theorem desktops_not_always_alike :
    (¬∀ (P : Programs Unit) (s₀ : Unit × State)
        (tr : List ((Unit × State) × (DeskEvt × Option Nat))) (s : Unit × State),
        (∀ t ∈ tr, t.2.1.Plain) →
          (Trace (Steps (mainStep P)) s₀ tr s ↔ Trace (Steps (bareStep P)) s₀ tr s)) ∧
      boundsAfter (mainStep idlePrograms) (plainEvt .EV_BUT_DOWN 383 283)
        (plainEvt .EV_MOUSE_MOVE 393 293) = some ⟨100, 100, 400, 300⟩ ∧
      boundsAfter (bareStep idlePrograms) (plainEvt .EV_BUT_DOWN 383 283)
        (plainEvt .EV_MOUSE_MOVE 393 293) = some ⟨100, 100, 410, 310⟩ := by
  refine ⟨fun hall => ?_, by decide, by decide⟩
  obtain ⟨⟨s, c⟩, hmain, hview⟩ := Option.map_eq_some_iff.mp gripEdge_main
  have htr : Trace (Steps (mainStep idlePrograms)) ((), oneWindow)
      [(((), oneWindow), (plainEvt .EV_BUT_DOWN 383 283, c))] s := .next .start hmain
  have hplain : ∀ t ∈ [(((), oneWindow), (plainEvt .EV_BUT_DOWN 383 283, c))], t.2.1.Plain := by
    rw [List.forall_mem_singleton]
    exact .inl ⟨rfl, rfl, rfl⟩
  cases (hall idlePrograms _ _ s hplain).mp htr with
  | next _ hbare =>
      have hresizing := gripEdge_bare
      rw [show bareStep idlePrograms ((), oneWindow) (plainEvt .EV_BUT_DOWN 383 283) = some (s, c)
        from hbare, Option.map_some, hview] at hresizing
      cases hresizing

end BTron.Window
