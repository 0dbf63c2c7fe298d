import BTron.Chat.Windows
import BTron.Tracker.Menu
import BTron.Window.Interactions

namespace BTron

open Window

-- The chat with the windows of the desktop, and the tracker.
structure Desktop where
  chat : Chat
  tracker : Tracker

namespace Desktop

open Chat (Alloc MAIN_WINDOW CONVERSATION_WINDOW DIALOG_WINDOW)
open Tracker (Listed Executed)

-- The walk of `tracker_refresh_windows` from `get_wnd_list` on.
def listFrom (s : WndMgr) : Nat → Option Nat → Option (List Listed)
  | 0, _ => none
  | _ + 1, none => some []
  | fuel + 1, some p => do
    let wnd ← s.mem p
    let rest ← listFrom s fuel wnd.next
    some (⟨p, wnd.focused, wnd.title⟩ :: rest)

def getWndList (s : WndMgr) : Option (List Listed) := listFrom s (s.count + 1) s.head

-- What the allocations of `launch_beos_chat` return, and the time of day.
structure Launch where
  client : Option Nat
  roster : Alloc
  muc : Alloc
  time : Nat

def executed (s : Tracker) (wnds : List Listed) : Tracker.Call → Executed
  | .mouseDown x y => (Tracker.trackerHandleMouseDown s wnds x y).2.2
  | .key code => (Tracker.trackerHandleKey s wnds code).2.2
  | _ => none

-- What the execution of an item does. The other applications open windows by calls of their own.
def runAction (s : Chat) (l : Launch) : Executed → Option Chat
  | some (_, .topWnd w) => do
    let (wnds, _) ← topWnd s.wnds (some w)
    let wnds ← wnds.write w fun v => { v with focused := true }
    some { s with wnds := wnds }
  | some (_, .launchBeosChat) =>
    (Chat.launchBeosChat s l.client l.time l.roster l.muc).map Prod.fst
  | _ => some s

def trackerCall (d : Desktop) (c : Tracker.Call) (l : Launch) : Option Desktop := do
  let wnds ← getWndList d.chat.wnds
  let chat ← runAction d.chat l (executed d.tracker wnds c)
  some ⟨chat, Tracker.exec d.tracker wnds c⟩

-- A button goes down on a window: the menus are closed, and the window comes to the front.
def press (d : Desktop) (w : Nat) : Option Desktop := do
  let wnds ← raise d.chat.wnds w
  some
    { chat := { d.chat with wnds := wnds }
      tracker :=
        if Tracker.trackerIsMenuOpen d.tracker then Tracker.trackerCloseMenu d.tracker
        else d.tracker }

-- Where the event is a button that goes down.
def pressed (d : Desktop) (w : Nat) (ev : Evt) : Option Desktop :=
  if ev.type = .EV_BUT_DOWN then d.press w else some d

abbrev Hook := (Nat → Option Wnd) → Nat → Option Wnd

def close (d : Desktop) (w : Nat) (hook : Hook) : Option Desktop := do
  let (wnds, _) ← clsWnd d.chat.wnds (some w) hook
  some { d with chat := { d.chat with wnds := wnds } }

-- The handler of a window gets an event. Another application's handler acts by its own calls.
def handler (s : Chat) (w : Nat) (ev : Evt) (key : Nat) (a : Alloc) : Option Chat := do
  let wnd ← s.wnds.mem w
  if wnd.eventHandler = MAIN_WINDOW then Chat.handleChatMainEvent s w ev a
  else if wnd.eventHandler = CONVERSATION_WINDOW then
    Chat.handleChatConversationEvent s w ev key a
  else if wnd.eventHandler = DIALOG_WINDOW then Chat.handleChatDialogEvent s w ev
  else some s

inductive Call
  | register (p : Option Nat) (preferredNick : Option (List UB)) (time : Nat)
  | unregister (client : Option Nat)
  | openMain (client : Option Nat) (a : Alloc)
  | openMuc (client : Option Nat) (roomName : Option (List UB)) (a : Alloc)
  | openPrivate (client : Option Nat) (targetNick : Option (List UB)) (a : Alloc)
  | openAddBuddy (client : Option Nat) (a : Alloc)
  | sendMuc (sender : Option Nat) (text : Option (List UB))
  | sendPrivate (sender : Option Nat) (targetNick text : Option (List UB)) (a : Alloc)
  | event (w : Nat) (ev : Evt) (key : Nat) (a : Alloc)
  | tracker (c : Tracker.Call) (l : Launch)
  -- the close button of a window, and `cls_wnd` called for a command
  | closeButton (w : Nat) (hook : Hook)
  | closeCommand (w : Nat) (hook : Hook)
  -- the calls of the other applications, and what these and the shell write to the windows
  | other (a : Window.Act)
  | change (f : Hook)

-- A window of the chat, with the address of its context.
def isChat (wnd : Wnd) : Bool :=
  wnd.eventHandler ∈ [MAIN_WINDOW, CONVERSATION_WINDOW, DIALOG_WINDOW]

def contextOf (s : WndMgr) (w : Nat) : Option Nat :=
  (s.mem w).bind fun v => if isChat v then some v.userData else none

-- What the others do to the windows leaves the list and the windows of the chat as they are.
def KeepsChat (s : WndMgr) (f : Hook) : Prop :=
  KeepsList s.mem (f s.mem) ∧ ∀ w, contextOf { s with mem := f s.mem } w = contextOf s w

-- `calloc` returns fresh memory.
structure FreshAlloc (s : Chat) (a : Alloc) : Prop where
  wnd : ∀ w, a.wnd = some w → s.wnds.mem w = none
  ctx : ∀ c, a.ctx = some c → s.ctxs c = none

def FreshClient (s : Chat) (p : Option Nat) : Prop := ∀ c ∈ s.clients, p ≠ some c.1

structure Launch.Legal (s : Chat) (l : Launch) : Prop where
  client : FreshClient s l.client
  roster : FreshAlloc s l.roster
  muc : FreshAlloc s l.muc
  wnds : ∀ w, l.roster.wnd = some w → l.muc.wnd ≠ some w
  ctxs : ∀ c, l.roster.ctx = some c → l.muc.ctx ≠ some c

def Call.Legal (d : Desktop) : Call → Prop
  | .register p _ _ => FreshClient d.chat p
  | .openMain _ a | .openMuc _ _ a | .openPrivate _ _ a | .sendPrivate _ _ _ a | .event _ _ _ a =>
    FreshAlloc d.chat a
  | .openAddBuddy client a =>
    FreshAlloc d.chat a ∧ ∀ p, client = some p → (d.chat.client p).isSome
  | .tracker _ l => l.Legal d.chat
  | .closeButton _ hook | .closeCommand _ hook => ∀ s, KeepsChat s hook
  | .other a => a.Legal d.chat.wnds ∧ ∀ w hook, a ≠ .cls w hook
  | .change f => KeepsChat d.chat.wnds f
  | .unregister _ | .sendMuc .. => True

def withChat (d : Desktop) (chat : Option Chat) : Option Desktop :=
  chat.map fun chat => { d with chat := chat }

def exec (d : Desktop) : Call → Option Desktop
  | .register p preferredNick time =>
    d.withChat ((d.chat.chatIpcRegisterClient p preferredNick time).map Prod.fst)
  | .unregister client => d.withChat (d.chat.chatIpcUnregisterClient client)
  | .openMain client a => d.withChat ((d.chat.openChatMainWindow client a).map Prod.fst)
  | .openMuc client roomName a =>
    d.withChat ((d.chat.openChatMucWindow client roomName a).map Prod.fst)
  | .openPrivate client targetNick a =>
    d.withChat ((d.chat.openChatPrivateWindow client targetNick a).map Prod.fst)
  | .openAddBuddy client a => d.withChat ((d.chat.openChatAddBuddyDialog client a).map Prod.fst)
  | .sendMuc sender text => d.withChat (d.chat.chatIpcSendMucMessage sender text)
  | .sendPrivate sender targetNick text a =>
    d.withChat (d.chat.chatIpcSendPrivateMessage sender targetNick text a)
  | .event w ev key a => do
    let d ← d.pressed w ev
    d.withChat (handler d.chat w ev key a)
  | .tracker c l => d.trackerCall c l
  | .closeButton w hook => do
    let d ← d.press w
    d.close w hook
  | .closeCommand w hook => d.close w hook
  | .other a =>
    d.withChat ((Window.exec d.chat.wnds a).map fun wnds => { d.chat with wnds := wnds })
  | .change f =>
    some { d with chat := { d.chat with wnds := { d.chat.wnds with mem := f d.chat.wnds.mem } } }

def Step (d : Desktop) (c : Call) (d' : Desktop) : Prop := c.Legal d ∧ exec d c = some d'

-- The desktop before the first window is opened.
def start : Desktop := ⟨.zero, Tracker.trackerInit .zero []⟩

end Desktop

namespace Chat

-- The windows a client keeps.
def Client.wnds (c : Client) : List Nat :=
  c.rosterWnd.toList ++ c.mucWnd.toList ++ c.privateWnds

end Chat

namespace Desktop

open Chat (DIALOG_WINDOW)

-- The windows that the enabled items of the open menu are for.
def Targets (s : Tracker) (w : Nat) : Prop :=
  s.state = .open ∧ ∃ item ∈ s.rows, item.enabled ∧ item.targetWnd = some w

-- The references the clients and the open menu keep are to windows in the list, and those of the
-- chat windows to clients that are registered.
structure Valid (d : Desktop) : Prop where
  kept : ∀ c ∈ d.chat.clients, ∀ w ∈ c.2.wnds, d.chat.wnds.Listed w
  items : ∀ w, Targets d.tracker w → d.chat.wnds.Listed w
  contexts : ∀ w a, d.chat.wnds.Listed w → contextOf d.chat.wnds w = some a →
    ∃ ctx, d.chat.ctxs a = some ctx ∧ (d.chat.client ctx.client).isSome

-- Whether the event of a window is a press of the Add or the Cancel button that closes it.
def dialogCloses (s : Chat) (w : Nat) (ev : Evt) : Prop :=
  ∃ wnd ctx, s.wnds.mem w = some wnd ∧ wnd.eventHandler = DIALOG_WINDOW ∧ wnd.userData ≠ 0 ∧
    s.ctxs wnd.userData = some ctx ∧ ctx.client ≠ 0 ∧ ev.type = .EV_BUT_DOWN ∧
    (Chat.DialogAdd wnd.client ev.x ev.y ∨ Chat.DialogCancel wnd.client ev.x ev.y)

-- No client keeps the window.
def Unkept (s : Chat) (w : Nat) : Prop := ∀ c ∈ s.clients, w ∉ c.2.wnds

-- No call closes a window that a client or, if it stays open, the menu refers to, and no client
-- leaves that a window refers to.
def Call.Spares (d : Desktop) : Call → Prop
  | .closeButton w _ => Unkept d.chat w
  | .closeCommand w _ => Unkept d.chat w ∧ ¬Targets d.tracker w
  | .event w ev _ _ => dialogCloses d.chat w ev → Unkept d.chat w
  | .unregister (some p) =>
    ∀ w a ctx, contextOf d.chat.wnds w = some a → d.chat.ctxs a = some ctx → ctx.client ≠ p
  | _ => True

end Desktop

end BTron
