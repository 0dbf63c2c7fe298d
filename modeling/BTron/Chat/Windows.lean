import BTron.Chat
import BTron.Window.Events

namespace BTron.Chat

open Lib Window
open ChatXml (ascii CHAT_MAX_LINE_LEN CHAT_MAX_JID_LEN CHAT_MAX_ROOM_LEN)

def WND_ATTR_BORDER : Nat := 16

-- The handlers and the painters of the chat windows, as the numbers of the hooks.
def MAIN_WINDOW : Nat := 1
def CONVERSATION_WINDOW : Nat := 2
def DIALOG_WINDOW : Nat := 3

-- What the allocations of a new window return: the window, its device and its context.
structure Alloc where
  wnd : Option Nat
  dev : Bool
  ctx : Option Nat

-- A context as `calloc` returns it, with the type and the client written.
def newContext (wndType : WndType) (client : Nat) : WndContext :=
  ⟨wndType, client, [], [], 0, [], [], [], []⟩

-- The part the openers share. The context is written to even if there is no memory for it.
def openWindow (s : Chat) (title : List UB) (x y w h : Int) (attr : Nat) (ctx : WndContext)
    (hook : Nat) (a : Alloc) : Option (Chat × Option Nat) := do
  let (wnds, wnd) ← opnWnd s.wnds a.wnd (some fun k => title.getD k 0) x y w h attr a.dev
  let s := { s with wnds := wnds }
  match wnd with
  | none => some (s, none)
  | some wnd =>
    let c ← a.ctx
    let wnds ← s.wnds.write wnd fun v =>
      { v with userData := c, paint := hook, eventHandler := hook }
    some ({ s with wnds := wnds, ctxs := Function.update s.ctxs c (some ctx) }, some wnd)

-- A window that is open already comes to the front.
def raiseWindow (s : Chat) (wnd : Nat) : Option (Chat × Option Nat) := do
  let (wnds, _) ← topWnd s.wnds (some wnd)
  some ({ s with wnds := wnds }, some wnd)

def WND_ATTRS : Nat := WND_ATTR_TITLE ||| WND_ATTR_CLOSE ||| WND_ATTR_RESIZE ||| WND_ATTR_BORDER

def openChatMainWindow (s : Chat) (client : Option Nat) (a : Alloc) :
    Option (Chat × Option Nat) :=
  match client with
  | none => some (s, none)
  | some p => do
    let client ← s.client p
    match client.rosterWnd with
    | some wnd => raiseWindow s wnd
    | none =>
      let (s, wnd) ← openWindow s ((ascii "Blabber Roster: " ++ client.nick).take 63) 60 40 260 440
        WND_ATTRS (newContext .roster p) MAIN_WINDOW a
      match wnd with
      | none => some (s, none)
      | some wnd => some (s.modify p fun c => { c with rosterWnd := some wnd }, some wnd)

def openChatMucWindow (s : Chat) (client : Option Nat) (roomName : Option (List UB)) (a : Alloc) :
    Option (Chat × Option Nat) :=
  match client with
  | none => some (s, none)
  | some p => do
    let client ← s.client p
    match client.mucWnd with
    | some wnd => raiseWindow s wnd
    | none =>
      let rname := roomName.getD CHAT_DEFAULT_ROOM
      let (s, wnd) ← openWindow s ((cstr rname ++ ascii " (MUC)").take 63) 330 40 520 360 WND_ATTRS
        { newContext .muc p with targetRoomOrNick := strncpy rname (CHAT_MAX_ROOM_LEN - 1) }
        CONVERSATION_WINDOW a
      match wnd with
      | none => some (s, none)
      | some wnd =>
        let s := s.modify p fun c => { c with mucWnd := some wnd }
        -- the initial greeting
        let s ← appendMessageToWnd s wnd ⟨ascii "System",
          ascii "Welcome to B-System 3.20 BeOS Chatroom (#btron-hall)!", .system, COLOR_DKGRAY⟩
        some (s, some wnd)

def openChatPrivateWindow (s : Chat) (client : Option Nat) (targetNick : Option (List UB))
    (a : Alloc) : Option (Chat × Option Nat) :=
  match client, targetNick with
  | some p, some targetNick => do
    let client ← s.client p
    let (s, wnd) ← openWindow s ((ascii "Chat: " ++ cstr targetNick).take 63) 180 120 440 320
      WND_ATTRS
      { newContext .priv p with targetRoomOrNick := strncpy targetNick (CHAT_MAX_ROOM_LEN - 1) }
      CONVERSATION_WINDOW a
    match wnd with
    | none => some (s, none)
    | some wnd =>
      if client.privateWnds.length < 8 then
        some (s.modify p fun c => { c with privateWnds := c.privateWnds ++ [wnd] }, some wnd)
      else some (s, some wnd)
  | _, _ => some (s, none)

-- `client` is only stored in the context, it need not be registered.
def openChatAddBuddyDialog (s : Chat) (client : Option Nat) (a : Alloc) :
    Option (Chat × Option Nat) :=
  match client with
  | none => some (s, none)
  | some p =>
    openWindow s (ascii "Add Buddy (JID)") 140 100 320 220
      (WND_ATTR_TITLE ||| WND_ATTR_CLOSE ||| WND_ATTR_BORDER)
      { newContext .buddy p with fieldGroup := ascii "General" } DIALOG_WINDOW a

def openChatPreferencesDialog (s : Chat) (client : Option Nat) (a : Alloc) :
    Option (Chat × Option Nat) :=
  openChatAddBuddyDialog s client a

-- `strstr(text, needle)` as a truth value
def contains (text needle : List UB) : Bool := (text.dropInfix? needle).isSome

-- Interactive Virtual Bot Replies
def botReply (nick text : List UB) : Option (List UB) :=
  if ["hello", "Hello", "hi", "Hi", "spec"].any fun word => contains text (ascii word) then
    some <| List.take 127 <|
      if contains text (ascii "spec") then
        ascii "Conforming strictly to BTRON3 SPEC 3.20 & TRON HMI guidelines!"
      else
        ascii "Greetings @" ++ nick ++ ascii "! Welcome to the B-System Chat Network."
  else none

-- The XML the two senders build is not sent anywhere.
def chatIpcSendMucMessage (s : Chat) (sender : Option Nat) (text : Option (List UB)) :
    Option Chat :=
  match sender, text with
  | some p, some text =>
    if (cstr text).length = 0 then some s
    else do
      let client ← s.client p
      let s ← appendToRooms
        (fun q => ⟨client.nick, text, .groupchat, if q = p then COLOR_BLUE else COLOR_BLACK⟩)
        s.clients s
      match botReply client.nick (cstr text) with
      | none => some s
      | some reply =>
        appendToRooms (fun _ => ⟨ascii "Sakamura-Sensei", reply, .groupchat, COLOR_NAVY⟩)
          s.clients s
  | _, _ => some s

-- The search in the private windows of a client for the one that is about a nick.
def findPrivate (s : Chat) (nick : List UB) : List Nat → Option (Option Nat)
  | [] => some none
  | w :: ws => do
    let wnd ← s.wnds.mem w
    if wnd.userData = 0 then findPrivate s nick ws
    else
      let ctx ← s.ctxs wnd.userData
      if ctx.targetRoomOrNick = nick then some (some w) else findPrivate s nick ws

-- The private window of the recipient that is about the sender, opened if there is none.
def recipientWindow (s : Chat) (recip : Nat × Client) (nick : List UB) (a : Alloc) :
    Option (Chat × Option Nat) := do
  match ← findPrivate s nick recip.2.privateWnds with
  | some wnd => some (s, some wnd)
  | none => openChatPrivateWindow s (some recip.1) (some nick) a

-- 1. Append to sender's private chat window
def appendOwn (s : Chat) (client : Client) (targetNick text : List UB) : Option Chat := do
  match ← findPrivate s (cstr targetNick) client.privateWnds with
  | none => some s
  | some wnd => appendMessageToWnd s wnd ⟨client.nick, text, .chat, COLOR_BLUE⟩

-- 2. Dispatch to recipient client if active
def dispatchPrivate (s : Chat) (client : Client) (targetNick text : List UB) (a : Alloc) :
    Option Chat :=
  match s.clients.find? fun c => c.2.nick = cstr targetNick with
  | none => some s
  | some recip => do
    let (s, wnd) ← recipientWindow s recip client.nick a
    match wnd with
    | none => some s
    | some wnd => appendMessageToWnd s wnd ⟨client.nick, text, .chat, COLOR_BLACK⟩

def chatIpcSendPrivateMessage (s : Chat) (sender : Option Nat) (targetNick : Option (List UB))
    (text : Option (List UB)) (a : Alloc) : Option Chat :=
  match sender, targetNick, text with
  | some p, some targetNick, some text => do
    let client ← s.client p
    let s ← appendOwn s client targetNick text
    dispatchPrivate s client targetNick text a
  | _, _, _ => some s

-- A handler finds the window, its context and the address of the client, unless there are none.
def withContext (s : Chat) (w : Nat) (f : Wnd → WndContext → Option Chat) : Option Chat := do
  let wnd ← s.wnds.mem w
  if wnd.userData = 0 then some s
  else
    let ctx ← s.ctxs wnd.userData
    if ctx.client = 0 then some s else f wnd ctx

def handleChatMainEvent (s : Chat) (w : Nat) (ev : Evt) (a : Alloc) : Option Chat :=
  withContext s w fun wnd ctx =>
    let r := wnd.client
    if ev.type ≠ .EV_BUT_DOWN then some s
    -- Bottom Action Buttons
    else if ev.y ≥ r.bottom - 28 ∧ ev.y ≤ r.bottom - 4 then
      if ev.x ≥ r.left + 4 ∧ ev.x ≤ r.left + 80 then
        (openChatAddBuddyDialog s (some ctx.client) a).map Prod.fst
      else if ev.x ≥ r.left + 86 ∧ ev.x ≤ r.left + 160 then
        (openChatMucWindow s (some ctx.client) (some CHAT_DEFAULT_ROOM) a).map Prod.fst
      else if ev.x ≥ r.left + 166 ∧ ev.x ≤ r.right - 4 then toggleConnected s ctx.client
      else some s
    -- Status Picker Toggle
    else if ev.y ≥ r.top + 46 ∧ ev.y ≤ r.top + 64 ∧ ev.x ≥ r.left + 8 ∧ ev.x ≤ r.left + 120 then
      pickStatus s ctx.client
    else if ev.y ≥ r.top + 72 ∧ ev.y ≤ r.bottom - 34 then
      (openChatMucWindow s (some ctx.client) (some CHAT_DEFAULT_ROOM) a).map Prod.fst
    else some s

-- A write through the pointer to a context.
def writeContext (s : Chat) (c : Nat) (f : WndContext → WndContext) : Option Chat := do
  let ctx ← s.ctxs c
  some { s with ctxs := Function.update s.ctxs c (some (f ctx)) }

def sendText (s : Chat) (ctx : WndContext) (a : Alloc) : Option Chat :=
  if ctx.wndType = .muc then chatIpcSendMucMessage s (some ctx.client) (some ctx.inputBuf)
  else
    chatIpcSendPrivateMessage s (some ctx.client) (some ctx.targetRoomOrNick) (some ctx.inputBuf) a

-- What Enter and the Send button do.
def sendInput (s : Chat) (c : Nat) (ctx : WndContext) (a : Alloc) : Option Chat :=
  if ctx.inputBuf.length > 0 then do
    let s ← sendText s ctx a
    writeContext s c fun ctx => { ctx with inputBuf := [] }
  else some s

def handleChatConversationEvent (s : Chat) (w : Nat) (ev : Evt) (key : Nat) (a : Alloc) :
    Option Chat :=
  withContext s w fun wnd ctx =>
    let r := wnd.client
    if ev.type = .EV_KEY_DOWN then
      if key = 0x0D ∨ key = 0x0A then sendInput s wnd.userData ctx a
      else if key = 0x08 ∨ key = 0x7F then
        writeContext s wnd.userData fun ctx => { ctx with inputBuf := ctx.inputBuf.dropLast }
      else if key ≥ 32 ∧ key ≤ 126 ∧ ctx.inputBuf.length < CHAT_MAX_LINE_LEN - 1 then
        writeContext s wnd.userData fun ctx =>
          { ctx with inputBuf := ctx.inputBuf ++ [UInt8.ofNat key] }
      else some s
    else if ev.type = .EV_BUT_DOWN then
      -- Send Button Click
      if ev.x ≥ r.right - 64 ∧ ev.x ≤ r.right - 4 ∧ ev.y ≥ r.bottom - 32 ∧ ev.y ≤ r.bottom - 4 then
        sendInput s wnd.userData ctx a
      else some s
    else some s

def DialogAdd (r : Graphics.Rect) (x y : Int) : Prop :=
  x ≥ r.right - 160 ∧ x ≤ r.right - 86 ∧ y ≥ r.bottom - 32 ∧ y ≤ r.bottom - 6

def DialogCancel (r : Graphics.Rect) (x y : Int) : Prop :=
  x ≥ r.right - 80 ∧ x ≤ r.right - 12 ∧ y ≥ r.bottom - 32 ∧ y ≤ r.bottom - 6

instance (r : Graphics.Rect) (x y : Int) : Decidable (DialogAdd r x y) :=
  inferInstanceAs (Decidable (_ ∧ _))

instance (r : Graphics.Rect) (x y : Int) : Decidable (DialogCancel r x y) :=
  inferInstanceAs (Decidable (_ ∧ _))

def orDefault (field default : List UB) : List UB := if field = [] then default else field

def addBuddy (ctx : WndContext) (c : Client) : Client :=
  if c.roster.length < CHAT_MAX_ROSTER then
    { c with
        roster := c.roster ++ [rosterItem (orDefault ctx.fieldJid (ascii "newuser@btron.org"))
          (orDefault ctx.fieldNick (ascii "NewBuddy")) (orDefault ctx.fieldGroup (ascii "General"))
          .online (ascii "Added to Roster")] }
  else c

-- No chat window has a destroy hook.
def closeWindow (s : Chat) (w : Nat) : Option Chat := do
  let (wnds, _) ← clsWnd s.wnds (some w) id
  some { s with wnds := wnds }

def handleChatDialogEvent (s : Chat) (w : Nat) (ev : Evt) : Option Chat :=
  withContext s w fun wnd ctx =>
    if ev.type ≠ .EV_BUT_DOWN then some s
    else if DialogAdd wnd.client ev.x ev.y then do
      let _ ← s.client ctx.client
      closeWindow (s.modify ctx.client (addBuddy ctx)) w
    else if DialogCancel wnd.client ev.x ev.y then closeWindow s w
    else some s

-- `p` is what `calloc` returns for the client, `a` and `b` are the allocations of its windows.
def launchBeosChat (s : Chat) (p : Option Nat) (time : Nat) (a b : Alloc) :
    Option (Chat × Option Nat) := do
  let (s, client) ← chatIpcRegisterClient s p none time
  match client with
  | none => some (s, none)
  | some client =>
    let (s, roster) ← openChatMainWindow s (some client) a
    let (s, _) ← openChatMucWindow s (some client) (some CHAT_DEFAULT_ROOM) b
    some (s, roster)

end BTron.Chat
