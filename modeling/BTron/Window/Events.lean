import BTron.Window.Manager

namespace BTron.Window

open Graphics

-- The test of `find_wnd_at` on one window: its body, then its tab.
def Wnd.hit (wnd : Wnd) (x y : Int) : Bool :=
  wnd.visible &&
    (x ≥ wnd.bounds.left && x ≤ wnd.bounds.right && y ≥ wnd.bounds.top + wnd.titleH &&
      y ≤ wnd.bounds.bottom || wnd.has WND_ATTR_TITLE && whitTestTab wnd x y)

-- The walk of `find_wnd_at` down the list.
def findFrom (s : WndMgr) (x y : Int) : Nat → Option Nat → Option (Option Nat)
  | 0, _ => none
  | _ + 1, none => some none
  | fuel + 1, some c =>
    (s.mem c).bind fun v => if v.hit x y then some (some c) else findFrom s x y fuel v.next

def findWndAt (s : WndMgr) (x y : Int) : Option (Option Nat) :=
  findFrom s x y (s.count + 1) s.head

inductive EvType
  | EV_NONE
  | EV_BUT_DOWN
  | EV_BUT_UP
  | EV_MOUSE_MOVE
  | EV_KEY_DOWN
  | EV_KEY_UP
  | EV_WND_CLOSE
  | EV_WND_MOVE
  | EV_WND_FOCUS
  | EV_MENU_SELECT
  | EV_TIMER
deriving DecidableEq

-- EVT, as far as the window manager reads it.
structure Evt where
  type : EvType
  x : Int
  y : Int

-- The windows with the variables of the three interactions.
structure State where
  wm : WndMgr
  dragging : Bool
  dragTarget : Option Nat
  dragOffX : Int
  dragOffY : Int
  slidingTab : Bool
  slideTarget : Option Nat
  slideStartX : Int
  slideOrigOff : Int
  resizing : Bool
  resizeTarget : Option Nat
  resizeOrigW : Int
  resizeOrigH : Int
  resizeStartX : Int
  resizeStartY : Int

def State.init (nextId : Int) : State :=
  ⟨.init nextId, false, none, 0, 0, false, none, 0, 0, false, none, 0, 0, 0, 0⟩

inductive Interaction
  | drag
  | slide
  | resize
deriving DecidableEq

-- What a button that goes down on a window is for.
inductive Press
  | start (k : Interaction)
  | close
  | client
deriving DecidableEq

def Wnd.press (clicked : Wnd) (x y : Int) : Press :=
  let b := clicked.bounds
  -- the resize grip in the corner
  if clicked.has WND_ATTR_RESIZE ∧ x ≥ b.right - 18 ∧ x ≤ b.right ∧ y ≥ b.bottom - 18 ∧
      y ≤ b.bottom then .start .resize
  else
    -- the title bar and the tab on it
    let tabR := wgetTabRect clicked
    if clicked.has WND_ATTR_TITLE ∧ y ≥ b.top ∧ y < tabR.bottom then
      if whitTestCloseBtn clicked x y then .close
      else if whitTestTab clicked x y then
        if (x ≥ tabR.left ∧ x < tabR.left + 14) ∧ clicked.has WND_ATTR_SLIDING_TAB then
          .start .slide
        else .start .drag
      else .start .drag
    else .client

def State.start (s : State) (k : Interaction) (p : Nat) (clicked : Wnd) (x y : Int) : State :=
  match k with
  | .resize =>
    { s with
        resizing := true
        resizeTarget := some p
        resizeOrigW := asH (clicked.bounds.right - clicked.bounds.left)
        resizeOrigH := asH (clicked.bounds.bottom - clicked.bounds.top)
        resizeStartX := x
        resizeStartY := y }
  | .slide =>
    { s with
        slidingTab := true
        slideTarget := some p
        slideStartX := x
        slideOrigOff := clicked.tabOffsetX }
  | .drag =>
    { s with
        dragging := true
        dragTarget := some p
        dragOffX := asH (x - clicked.bounds.left)
        dragOffY := asH (y - clicked.bounds.top) }

-- What the handler of an event leaves: the state, what it returns, and the window whose own
-- handler it calls last.
abbrev Handled := State × Bool × Option Nat

-- `if (get_top_wnd() != clicked) top_wnd(clicked)`
def raise (s : WndMgr) (p : Nat) : Option WndMgr :=
  if s.head ≠ some p then (topWnd s (some p)).map Prod.fst else some s

def butDown (s : State) (x y : Int) (hook : (Nat → Option Wnd) → Nat → Option Wnd) :
    Option Handled := do
  match ← findWndAt s.wm x y with
  | none => some (s, false, none)
  | some p =>
    let wm ← raise s.wm p
    let s := { s with wm := wm }
    let clicked ← wm.mem p
    match clicked.press x y with
    | .start k => some (s.start k p clicked x y, true, none)
    | .close =>
      let (wm, _) ← clsWnd wm (some p) hook
      some ({ s with wm := wm }, true, none)
    | .client => some (s, true, if clicked.eventHandler ≠ 0 then some p else none)

-- The window in front, when it has the focus and a handler.
def topClient (s : WndMgr) : Option (Option Nat) :=
  match s.head with
  | none => some none
  | some p => (s.mem p).map fun top => if top.focused && top.eventHandler != 0 then some p else none

def mouseMove (s : State) (x y : Int) (mem : Bool) : Option Handled :=
  match s.slidingTab, s.slideTarget with
  | true, some p => do
    let newOff := asH (s.slideOrigOff + (x - s.slideStartX))
    let wm ← s.wm.write p fun v => wsetTabOffset v newOff
    some ({ s with wm := wm }, true, none)
  | _, _ =>
    match s.resizing, s.resizeTarget with
    | true, some p => do
      let newW := asH (s.resizeOrigW + (x - s.resizeStartX))
      let newH := asH (s.resizeOrigH + (y - s.resizeStartY))
      let wm ← s.wm.write p fun v => rszWnd v newW newH mem
      some ({ s with wm := wm }, true, none)
    | _, _ =>
      match s.dragging, s.dragTarget with
      | true, some p => do
        let wm ← s.wm.write p fun v => movWnd v (asH (x - s.dragOffX)) (asH (y - s.dragOffY))
        some ({ s with wm := wm }, true, none)
      | _, _ => do
        let client ← topClient s.wm
        some (s, false, client)

def butUp (s : State) : Option Handled := do
  let wasInteracting := s.dragging || s.slidingTab || s.resizing
  let s :=
    { s with
        dragging := false
        dragTarget := none
        slidingTab := false
        slideTarget := none
        resizing := false
        resizeTarget := none }
  let client ← topClient s.wm
  some (s, wasInteracting, client)

def wndMgrHandleEvent (s : State) (ev : Option Evt) (mem : Bool)
    (hook : (Nat → Option Wnd) → Nat → Option Wnd) : Option Handled :=
  match ev with
  | none => some (s, false, none)
  | some ev =>
    match ev.type with
    | .EV_BUT_DOWN => butDown s ev.x ev.y hook
    | .EV_MOUSE_MOVE => mouseMove s ev.x ev.y mem
    | .EV_BUT_UP => butUp s
    | .EV_KEY_DOWN => do
      let client ← topClient s.wm
      some (s, client.isSome, client)
    | _ => some (s, false, none)

-- An event, a call of the shell or of a handler, or whatever else these do to the windows.
inductive Input
  | event (ev : Option Evt) (mem : Bool) (hook : (Nat → Option Wnd) → Nat → Option Wnd)
  | call (a : Act)
  | change (f : (Nat → Option Wnd) → Nat → Option Wnd)

def Input.Legal (s : State) : Input → Prop
  | .event _ _ hook => ∀ mem, KeepsList mem (hook mem)
  | .call a => a.Legal s.wm
  | .change f => KeepsList s.wm.mem (f s.wm.mem)

def handle (s : State) : Input → Option State
  | .event ev mem hook => (wndMgrHandleEvent s ev mem hook).map Prod.fst
  | .call a => (exec s.wm a).map fun wm => { s with wm := wm }
  | .change f => some { s with wm := { s.wm with mem := f s.wm.mem } }

def Moves (s : State) (i : Input) (s' : State) : Prop := i.Legal s ∧ handle s i = some s'

end BTron.Window
