import BTron.Apps.Handlers
import BTron.Window.Painting

namespace BTron.Apps

open Lib Window

-- The windows, and what the programs keep for those of theirs.
structure Desk where
  mgr : State
  apps : Nat → Option App

def Desk.init (nextId : Int) : Desk := ⟨.init nextId, fun _ => none⟩

-- Nothing is kept for a window that is closed.
def Desk.settle (d : Desk) : Desk :=
  { d with apps := fun p => if (d.mgr.wm.mem p).isSome then d.apps p else none }

def Desk.withWm (d : Desk) (wm : WndMgr) : Desk := { d with mgr := { d.mgr with wm := wm } }

-- What the destroy hooks do to the windows.
def destroyHook (p : Nat) (mem : Nat → Option Wnd) (z : Nat) : Option Wnd :=
  if z = p then (mem z).map fun v => { v with userData := 0 } else mem z

-- What an event leaves, and what its handler did.
abbrev Left := Desk × List (Use Part)

-- The handler of a window. The other programs, and the windows that a handler opens or moves,
-- have inputs of their own.
def Desk.deliver (d : Desk) (p : Nat) (evt : DeskEvt) (env : Outside) : Option Left :=
  match d.apps p, d.mgr.wm.mem p with
  | some app, some wnd =>
    let run := app.handle wnd evt env
    if .free .wnd ∈ run.log then do
      let (wm, _) ← Window.clsWnd d.mgr.wm (some p) (destroyHook p)
      some ((d.withWm wm).settle, run.log)
    else some ({ d with apps := Function.update d.apps p (some run.val) }, run.log)
  | _, _ => some (d, [])

-- `none` stands for a use of a window that is closed. Nothing follows the handler.
def Desk.event (d : Desk) (evt : DeskEvt) (env : Outside)
    (hook : (Nat → Option Wnd) → Nat → Option Wnd) : Option Left := do
  let (mgr, _, client) ← wndMgrHandleEvent d.mgr (some evt.toEvt) evt.mem hook
  let d := Desk.settle { d with mgr := mgr }
  match client with
  | none => some (d, [])
  | some p => d.deliver p evt env

-- Neither the window manager nor a handler uses a window that is closed or a state that is freed.
def Desk.Safe (d : Desk) (evt : DeskEvt) (env : Outside)
    (hook : (Nat → Option Wnd) → Nat → Option Wnd) : Prop :=
  ∃ l, d.event evt env hook = some l ∧ Tidy l.2

-- A call of the shell or of another program, a change to the windows, and a program that opens or
-- paints its window or changes its state.
inductive Input
  | event (evt : DeskEvt) (env : Outside) (hook : (Nat → Option Wnd) → Nat → Option Wnd)
  | call (a : Act)
  | change (f : (Nat → Option Wnd) → Nat → Option Wnd)
  | program (p : Nat) (app : App)

def Input.Legal (d : Desk) : Input → Prop
  | .event _ _ hook => ∀ mem, KeepsList mem (hook mem)
  | .call a => a.Legal d.mgr.wm
  | .change f => KeepsList d.mgr.wm.mem (f d.mgr.wm.mem)
  | .program _ _ => True

def Desk.exec (d : Desk) : Input → Option Desk
  | .event evt env hook => (d.event evt env hook).map Prod.fst
  | .call a => (Window.exec d.mgr.wm a).map fun wm => (d.withWm wm).settle
  | .change f => some (d.withWm { d.mgr.wm with mem := f d.mgr.wm.mem }).settle
  | .program p app => some { d with apps := Function.update d.apps p (some app) }.settle

def Moves (d : Desk) (i : Input) (d' : Desk) : Prop := i.Legal d ∧ d.exec i = some d'

-- The window that a move of the pointer drags, slides or resizes.
def grabbed (s : State) : Option Nat :=
  match s.slidingTab, s.slideTarget with
  | true, some p => some p
  | _, _ =>
    match s.resizing, s.resizeTarget with
    | true, some p => some p
    | _, _ =>
      match s.dragging, s.dragTarget with
      | true, some p => some p
      | _, _ => none

-- The pointer moves a window that is closed.
def Desk.MovesClosed (d : Desk) (evt : DeskEvt) : Prop :=
  evt.type = .EV_MOUSE_MOVE ∧ ∃ p, grabbed d.mgr = some p ∧ d.mgr.wm.mem p = none

-- The key goes to a terminal that runs a line that closes it.
def Desk.RunsQuit (d : Desk) (evt : DeskEvt) (env : Outside) : Prop :=
  ∃ p app wnd, topClient d.mgr.wm = some (some p) ∧ d.apps p = some app ∧
    d.mgr.wm.mem p = some wnd ∧ app.RunsQuit wnd evt env

variable {s : State} {d d' : Desk} {ps : List Nat} {evt : DeskEvt} {env : Outside}
  {hook : (Nat → Option Wnd) → Nat → Option Wnd}

theorem keepsList_destroyHook (p : Nat) (mem : Nat → Option Wnd) :
    KeepsList mem (destroyHook p mem) := by
  intro z
  rw [destroyHook]
  split
  · rw [Option.map_map]
    rfl
  · rfl

theorem topClient_live (h : Represents s.wm ps) : ∃ c, topClient s.wm = some c := by
  rw [topClient]
  cases hhead : s.wm.head with
  | none => exact ⟨none, rfl⟩
  | some p =>
      have hp : p ∈ ps := mem_of_head? (h.head ▸ hhead)
      obtain ⟨v, hv⟩ := Option.ne_none_iff_exists'.mp ((h.live p).mpr hp)
      exact ⟨_, by simp only [hv, Option.map_some]; rfl⟩

theorem clsWnd_live {wm : WndMgr} {p : Nat} (h : Represents wm ps) (hp : p ∈ ps)
    (hkeep : KeepsList wm.mem (hook wm.mem)) :
    ∃ s' er, Window.clsWnd wm (some p) hook = some (s', er) := by
  obtain ⟨pre, post, rfl⟩ := List.append_of_mem hp
  obtain ⟨s', hs', -⟩ := h.cls hkeep
  exact ⟨s', _, hs'⟩

-- A button that goes down finds every window it looks at.
theorem butDown_live (h : Represents s.wm ps) (hkeep : ∀ mem, KeepsList mem (hook mem))
    (x y : Int) : ∃ l, Window.butDown s x y hook = some l := by
  simp only [Window.butDown, find_spec h, Option.bind_eq_bind, Option.bind_some]
  cases hfind : ps.find? (s.wm.hits x y) with
  | none => exact ⟨_, rfl⟩
  | some p =>
      have hp := List.mem_of_find?_eq_some hfind
      have hraise : ∃ wm, raise s.wm p = some wm := by
        rw [raise]
        split
        · obtain ⟨s', er, hs', -⟩ := h.topWnd_spec (some p)
          exact ⟨s', by rw [hs', Option.map_some]⟩
        · exact ⟨s.wm, rfl⟩
      obtain ⟨wm, hwm⟩ := hraise
      obtain ⟨ps', h', -, hmem⟩ := raise_spec h hp hwm
      obtain ⟨clicked, hclicked⟩ := Option.ne_none_iff_exists'.mp
        ((h'.live p).mpr ((hmem p).mpr hp))
      simp only [hwm, hclicked, Option.bind_some]
      cases hpress : clicked.press x y with
      | start k => exact ⟨_, rfl⟩
      | client => exact ⟨_, rfl⟩
      | close =>
          obtain ⟨s', er, hs'⟩ := clsWnd_live h' ((hmem p).mpr hp) (hkeep wm.mem)
          exact ⟨_, by simp only [hs', Option.bind_some]; rfl⟩

theorem write_live_iff {wm : WndMgr} {p : Nat} {f : Wnd → Wnd} {g : WndMgr → Handled} :
    (∃ l, (wm.write p f).bind (fun wm => some (g wm)) = some l) ↔
      ∀ q, some p = some q → wm.mem q ≠ none := by
  cases hp : wm.mem p <;> simp [WndMgr.write, hp]

-- What is moved must be open.
theorem mouseMove_live_iff (h : Represents s.wm ps) (x y : Int) (mem : Bool) :
    (∃ l, Window.mouseMove s x y mem = some l) ↔
      ∀ p, grabbed s = some p → s.wm.mem p ≠ none := by
  obtain ⟨c, hc⟩ := topClient_live h
  have hidle : ∃ l, ((topClient s.wm).bind fun client =>
      some ((s, false, client) : Handled)) = some l := ⟨_, by rw [hc, Option.bind_some]⟩
  have hnone : ∀ q, (none : Option Nat) = some q → s.wm.mem q ≠ none := fun q hq => by cases hq
  unfold Window.mouseMove grabbed
  simp only [Option.bind_eq_bind]
  -- each of the three flags only counts with its target
  cases s.slidingTab <;> cases s.slideTarget <;> cases s.resizing <;> cases s.resizeTarget <;>
    cases s.dragging <;> cases s.dragTarget <;>
    first
    | exact write_live_iff
    | exact iff_of_true hidle hnone

-- The window manager handles every event, but for a move of a window that is closed.
theorem manager_live_iff (h : Represents d.mgr.wm ps) (hkeep : ∀ mem, KeepsList mem (hook mem)) :
    (∃ l, wndMgrHandleEvent d.mgr (some evt.toEvt) evt.mem hook = some l) ↔
      ¬d.MovesClosed evt := by
  have hother : evt.type ≠ .EV_MOUSE_MOVE → ¬d.MovesClosed evt := fun hne hmoves => hne hmoves.1
  obtain ⟨c, hc⟩ := topClient_live h
  rw [wndMgrHandleEvent]
  cases htype : evt.type with
  | EV_MOUSE_MOVE =>
      refine (mouseMove_live_iff h evt.x evt.y evt.mem).trans ?_
      simp only [Desk.MovesClosed, htype, true_and, not_exists, not_and]
  | EV_BUT_DOWN =>
      exact iff_of_true (butDown_live h hkeep evt.x evt.y) (hother (by simp [htype]))
  | EV_BUT_UP =>
      refine iff_of_true ?_ (hother (by simp [htype]))
      obtain ⟨c, hc⟩ := topClient_live h
      exact ⟨_, by simp only [butUp, hc, Option.bind_eq_bind, Option.bind_some]; rfl⟩
  | EV_KEY_DOWN =>
      refine iff_of_true ?_ (hother (by simp [htype]))
      exact ⟨_, by simp only [hc, Option.bind_eq_bind, Option.bind_some]; rfl⟩
  | EV_NONE | EV_KEY_UP | EV_WND_CLOSE | EV_WND_MOVE | EV_WND_FOCUS | EV_MENU_SELECT | EV_TIMER =>
      exact iff_of_true ⟨_, rfl⟩ (hother (by simp [htype]))

theorem settle_app {p : Nat} (hp : d.mgr.wm.mem p ≠ none) : d.settle.apps p = d.apps p := by
  rw [Desk.settle]
  exact if_pos (Option.isSome_iff_ne_none.mpr hp)

-- A handler runs to its end, and what it does is tidy unless its line closes the terminal.
theorem deliver_spec (h : Represents d.mgr.wm ps) (p : Nat) :
    ∃ l, d.deliver p evt env = some l ∧
      (Tidy l.2 ↔ ¬∃ app wnd, d.apps p = some app ∧ d.mgr.wm.mem p = some wnd ∧
        app.RunsQuit wnd evt env) := by
  rw [Desk.deliver]
  cases happ : d.apps p with
  | none => exact ⟨_, rfl, iff_of_true (Kept.tidy (by simp [Kept])) (by simp)⟩
  | some app =>
      cases hwnd : d.mgr.wm.mem p with
      | none => exact ⟨_, rfl, iff_of_true (Kept.tidy (by simp [Kept])) (by simp)⟩
      | some wnd =>
          have htidy : Tidy (app.handle wnd evt env).log ↔ ¬∃ app' wnd', some app = some app' ∧
              some wnd = some wnd' ∧ app'.RunsQuit wnd' evt env := by
            refine (app.handle_tidy_iff wnd evt env).trans (not_congr ?_)
            simp
          dsimp only
          split
          · have hp : p ∈ ps := (h.live p).mp (by simp [hwnd])
            obtain ⟨wm, er, hcls⟩ := clsWnd_live h hp (keepsList_destroyHook p d.mgr.wm.mem)
            rw [hcls]
            exact ⟨_, rfl, htidy⟩
          · exact ⟨_, rfl, htidy⟩

theorem deliver_represents {l : Left} {p : Nat} (h : Represents d.mgr.wm ps)
    (hl : d.deliver p evt env = some l) : ∃ ps', Represents l.1.mgr.wm ps' := by
  rw [Desk.deliver] at hl
  split at hl
  · rename_i app wnd _ hwnd
    dsimp only at hl
    split at hl
    · simp only [Option.bind_eq_bind, Option.bind_eq_some_iff] at hl
      obtain ⟨⟨wm, er⟩, hcls, heq⟩ := hl
      obtain rfl := Option.some.inj heq
      have hlive : d.mgr.wm.mem p ≠ none := by simp [hwnd]
      obtain ⟨ps', h', -⟩ := cls_mem h hlive (keepsList_destroyHook p _) hcls
      exact ⟨ps', h'⟩
    · obtain rfl := Option.some.inj hl
      exact ⟨ps, h⟩
  · obtain rfl := Option.some.inj hl
    exact ⟨ps, h⟩

-- The windows stay a list all along.
theorem moves_represents {i : Input} (h : Represents d.mgr.wm ps) (hmoves : Moves d i d') :
    ∃ ps', Represents d'.mgr.wm ps' := by
  obtain ⟨hlegal, hexec⟩ := hmoves
  cases i with
  | event evt env hook =>
      simp only [Desk.exec, Desk.event, Option.bind_eq_bind, Option.map_eq_some_iff,
        Option.bind_eq_some_iff] at hexec
      obtain ⟨l, ⟨⟨mgr, b, client⟩, hmgr, hl⟩, rfl⟩ := hexec
      obtain ⟨ps', h', -⟩ := event_spec h hlegal hmgr
      cases client with
      | none =>
          obtain rfl := Option.some.inj hl
          exact ⟨ps', h'⟩
      | some p => exact deliver_represents (d := Desk.settle { d with mgr := mgr }) h' hl
  | call a =>
      simp only [Desk.exec, Option.map_eq_some_iff] at hexec
      obtain ⟨wm, hwm, rfl⟩ := hexec
      obtain ⟨ps', h', -⟩ := call_spec h hlegal hwm
      exact ⟨ps', h'⟩
  | change f =>
      obtain rfl := Option.some.inj hexec
      exact ⟨ps, h.hook hlegal⟩
  | program p app =>
      obtain rfl := Option.some.inj hexec
      exact ⟨ps, h⟩

-- The window that an event is delivered to.
theorem key_client {l : Handled} (htype : evt.type = .EV_KEY_DOWN)
    (hl : wndMgrHandleEvent d.mgr (some evt.toEvt) evt.mem hook = some l) :
    l.1 = d.mgr ∧ topClient d.mgr.wm = some l.2.2 := by
  rw [wndMgrHandleEvent, htype] at hl
  simp only [Option.bind_eq_bind, Option.bind_eq_some_iff] at hl
  obtain ⟨c, hc, heq⟩ := hl
  obtain rfl := Option.some.inj heq
  exact ⟨rfl, hc⟩

theorem App.RunsQuit.key {app : App} {wnd : Wnd} (h : app.RunsQuit wnd evt env) :
    evt.type = .EV_KEY_DOWN := by
  cases app with
  | gterm st => exact h.2.down
  | tEditor | cabinet | tadBrowser | orchestra => exact h.elim

theorem event_safe_iff (h : Represents d.mgr.wm ps) (hkeep : ∀ mem, KeepsList mem (hook mem)) :
    d.Safe evt env hook ↔ ¬d.MovesClosed evt ∧ ¬d.RunsQuit evt env := by
  rw [← manager_live_iff h hkeep, Desk.Safe]
  cases hmgr : wndMgrHandleEvent d.mgr (some evt.toEvt) evt.mem hook with
  | none => simp [Desk.event, hmgr]
  | some r =>
      obtain ⟨mgr, b, client⟩ := r
      obtain ⟨ps', h', -⟩ := event_spec h hkeep hmgr
      have hquit : d.RunsQuit evt env ↔ ∃ p app wnd, client = some p ∧
          (Desk.settle { d with mgr := mgr }).apps p = some app ∧ mgr.wm.mem p = some wnd ∧
          app.RunsQuit wnd evt env := by
        constructor
        · rintro ⟨p, app, wnd, hclient, happ, hwnd, hquits⟩
          obtain ⟨hsame, htop⟩ := key_client hquits.key hmgr
          dsimp only at hsame htop
          subst hsame
          rw [htop] at hclient
          refine ⟨p, app, wnd, Option.some.inj hclient, ?_, hwnd, hquits⟩
          rwa [settle_app (d := d) (by simp [hwnd])]
        · rintro ⟨p, app, wnd, hclient, happ, hwnd, hquits⟩
          obtain ⟨hsame, htop⟩ := key_client hquits.key hmgr
          dsimp only at hsame htop
          subst hsame
          rw [settle_app (d := d) (by simp [hwnd])] at happ
          exact ⟨p, app, wnd, by rw [htop, hclient], happ, hwnd, hquits⟩
      rw [hquit, and_iff_right ⟨_, rfl⟩]
      simp only [Desk.event, hmgr, Option.bind_eq_bind, Option.bind_some]
      cases client with
      | none =>
          exact iff_of_true ⟨_, rfl, Kept.tidy (by simp [Kept])⟩ (by simp)
      | some p =>
          obtain ⟨l, hl, htidy⟩ :=
            @deliver_spec (Desk.settle { d with mgr := mgr }) ps' evt env h' p
          simp only [hl, Option.some.injEq, exists_eq_left']
          refine htidy.trans (not_congr ?_)
          simp only [exists_eq_left', exists_and_left]
          rfl

-- In every state that a run reaches, an event is handled without a use of what is closed if and
-- only if it neither moves a window that is closed nor makes a terminal run a line that closes it.
theorem events_safe_iff (n : Int) (tr : List (Desk × Input)) (d : Desk)
    (htr : Trace Moves (.init n) tr d) (evt : DeskEvt) (env : Outside)
    (hook : (Nat → Option Wnd) → Nat → Option Wnd) (hkeep : ∀ mem, KeepsList mem (hook mem)) :
    d.Safe evt env hook ↔ ¬d.MovesClosed evt ∧ ¬d.RunsQuit evt env := by
  have hlist : ∃ ps, Represents d.mgr.wm ps :=
    (htr.always (I := fun d => ∃ ps, Represents d.mgr.wm ps) ⟨[], represents_init n⟩
      fun _ _ _ ⟨_, h⟩ hmoves => moves_represents h hmoves).1
  obtain ⟨ps, h⟩ := hlist
  exact event_safe_iff h hkeep

-- Nothing is found outside, and TIP takes no key.
def quiet : Outside :=
  ⟨⟨none, [], fun _ => none, false, false⟩, ⟨0, false⟩, ⟨fun _ => false, .missing, [], 0, none⟩⟩

def keyEvt (key : Nat) : DeskEvt := ⟨⟨.EV_KEY_DOWN, 0, 0⟩, 1, key, 0, 0, false, true⟩

-- `open_gterm_window` gives its window a state, a handler and a destroy hook.
def asTerminal (mem : Nat → Option Wnd) (p : Nat) : Option Wnd :=
  (mem p).map fun v => { v with userData := 1, eventHandler := 1, destroy := 1 }

def openTerminal : Input :=
  .call (.opn (some 100) none 220 160 560 360 (WND_ATTR_TITLE ||| WND_ATTR_CLOSE) true)

def typeKeys (keys : List Nat) : List Input :=
  .change asTerminal :: .program 100 (.gterm Gterm.gtermInitBanner) ::
    keys.map fun key => .event (keyEvt key) quiet id

theorem typeKeys_legal {keys : List Nat} : ∀ i ∈ typeKeys keys, ∀ d, i.Legal d := by
  intro i hi d
  simp only [typeKeys, List.mem_cons, List.mem_map] at hi
  obtain rfl | rfl | ⟨key, -, rfl⟩ := hi
  · intro p
    rw [asTerminal, Option.map_map]
    rfl
  · trivial
  · exact fun _ _ => rfl

-- A terminal is opened and keys are typed in it.
theorem trace_of_typed {keys : List Nat}
    (hrun : (openTerminal :: typeKeys keys).foldlM Desk.exec (.init 1) = some d) :
    ∃ tr, Trace Moves (.init 1) tr d := by
  rw [List.foldlM_cons, Option.bind_eq_bind, Option.bind_eq_some_iff] at hrun
  obtain ⟨d₁, hopen, hrest⟩ := hrun
  have hfresh : openTerminal.Legal (.init 1) := fun _ _ => rfl
  have htr : Trace Moves (.init 1) _ d₁ := .next .start ⟨hfresh, hopen⟩
  obtain ⟨tr, htr', -⟩ := htr.foldlM (fun i hi d d' hd => ⟨typeKeys_legal i hi d, hd⟩) hrest
  exact ⟨tr, htr'⟩

theorem typed_defined :
    ((openTerminal :: typeKeys [0x65, 0x78, 0x69, 0x74]).foldlM Desk.exec (.init 1)).isSome := by
  decide +kernel

-- `exit` is typed, and one more letter.
theorem events_safe_typing :
    ∃ tr d, Trace Moves (.init 1) tr d ∧ d.Safe (keyEvt 0x61) quiet id := by
  obtain ⟨d, hd⟩ := Option.isSome_iff_exists.mp typed_defined
  obtain ⟨tr, htr⟩ := trace_of_typed hd
  refine ⟨tr, d, htr, (events_safe_iff 1 tr d htr _ quiet id fun _ _ => rfl).mpr ⟨?_, ?_⟩⟩
  · rintro ⟨htype, -⟩
    cases htype
  · rintro ⟨p, app, wnd, -, -, -, hquits⟩
    cases app with
    | gterm st => exact absurd hquits.2.line (by decide)
    | tEditor | cabinet | tadBrowser | orchestra => exact hquits

theorem exit_untidy :
    ((((openTerminal :: typeKeys [0x65, 0x78, 0x69, 0x74]).foldlM Desk.exec (.init 1)).bind
      fun d => d.event (keyEvt 13) quiet id).map fun l => decide (Tidy l.2)) = some false := by
  decide +kernel

-- The return key behind `exit`: the state is written to when it has been freed.
theorem exit_writes_freed_state :
    ∃ tr d, Trace Moves (.init 1) tr d ∧ ¬d.Safe (keyEvt 13) quiet id := by
  obtain ⟨d, hd⟩ := Option.isSome_iff_exists.mp typed_defined
  obtain ⟨tr, htr⟩ := trace_of_typed hd
  refine ⟨tr, d, htr, ?_⟩
  rintro ⟨l, hl, htidy⟩
  have hview := exit_untidy
  rw [hd, Option.bind_some, hl, Option.map_some, decide_eq_true htidy] at hview
  cases hview

end BTron.Apps
