import BTron.ChatXml
import BTron.Lib.CString
import BTron.Window.Manager

namespace BTron

open Lib Window
open ChatXml (ascii CHAT_MAX_LINE_LEN CHAT_MAX_JID_LEN CHAT_MAX_ROOM_LEN)

namespace Chat

def CHAT_MAX_ROSTER : Nat := 32
def CHAT_MAX_MSG_HISTORY : Nat := 64
def CHAT_MAX_NICK_LEN : Nat := 32
def CHAT_DEFAULT_ROOM : List UB := ascii "#btron-hall"
def CHAT_DEFAULT_SERVER : List UB := ascii "btron.org"

def COLOR_BLACK : Nat := 0xFF000000
def COLOR_DKGRAY : Nat := 0xFF404040
def COLOR_NAVY : Nat := 0xFF000080
def COLOR_BLUE : Nat := 0xFF0000FF

-- ChatStatus
inductive Status
  | offline | online | away | dnd
deriving DecidableEq

-- `(client->status + 1) % 4`
def Status.next : Status → Status
  | .offline => .online
  | .online => .away
  | .away => .dnd
  | .dnd => .offline

-- ChatMsgType
inductive MsgType
  | chat | groupchat | system | topic
deriving DecidableEq

-- ChatMessage, the strings without their NUL, the time of day left out.
structure Message where
  senderNick : List UB
  text : List UB
  type : MsgType
  color : Nat
deriving DecidableEq

-- ChatRosterItem
structure RosterItem where
  jid : List UB
  nick : List UB
  group : List UB
  status : Status
  statusText : List UB
deriving DecidableEq

-- ChatWndType
inductive WndType
  | roster | muc | priv | buddy | prefs
deriving DecidableEq

-- ChatClient. A window is the address of its record, an array the list of its used cells.
structure Client where
  clientId : Int
  nick : List UB
  jid : List UB
  server : List UB
  status : Status
  statusMsg : List UB
  connected : Bool
  roster : List RosterItem
  rosterWnd : Option Nat
  mucWnd : Option Nat
  privateWnds : List Nat

-- ChatWndContext. `client` is an address, 0 the NULL of the calloc'ed record.
structure WndContext where
  wndType : WndType
  client : Nat
  targetRoomOrNick : List UB
  history : List Message
  scrollY : Int
  inputBuf : List UB
  fieldJid : List UB
  fieldNick : List UB
  fieldGroup : List UB

end Chat

-- g_chat_clients from its head on, each client with its address, the counters, the windows and
-- the contexts allocated.
structure Chat where
  clients : List (Nat × Chat.Client)
  nextClientId : Int
  nickCounter : Nat
  wnds : WndMgr
  ctxs : Nat → Option Chat.WndContext

namespace Chat

-- What the statics are before the first call.
def zero : Chat := ⟨[], 1, 0, .init 1, fun _ => none⟩

def kNickPrefixes : List (List UB) :=
  ["Cyber", "Retro", "Neon", "Matrix", "Tron", "Bit", "Quantum", "Pixel", "Solar", "Hyper",
    "Silicon", "Vector", "Micro", "B-Free", "T-Kernel", "Alpha", "Voxel", "Shadow", "Data"].map
      ascii

def kNickRoles : List (List UB) :=
  ["Samurai", "Hacker", "Pilot", "Monk", "Ninja", "Walker", "Ronin", "Knight", "Wizard",
    "Courier", "Guru", "Sensei", "Daemon", "Crafter", "Operator", "Agent", "Runner",
    "Voyager"].map ascii

-- The nick and g_nick_counter afterwards. `time` is the time of day.
def chatGenerateRandomNick (counter time maxLen : Nat) : List UB × Nat :=
  let counter := if counter = 0 then w32 time ^^^ 0x5A5A else counter
  let pIdx := w32 (counter + 7) % kNickPrefixes.length
  let rIdx := w32 (counter + 13) % kNickRoles.length
  ((kNickPrefixes.getD pIdx [] ++ ascii "-" ++ kNickRoles.getD rIdx []).take (maxLen - 1),
    w32 (counter + 19))

def rosterItem (jid nick group : List UB) (status : Status) (statusText : List UB) :
    RosterItem :=
  ⟨strncpy jid (CHAT_MAX_JID_LEN - 1), strncpy nick (CHAT_MAX_NICK_LEN - 1), strncpy group 31,
    status, strncpy statusText 63⟩

def chatClientInitDefaults (client : Client) : Client :=
  { client with
      roster :=
        [rosterItem (ascii "Sakamura-Sensei@btron.org") (ascii "Sakamura-Sensei")
            (ascii "Developers") .online (ascii "Designing TRON 3.20 HMI"),
          rosterItem (ascii "Tron-Daemon@btron.org") (ascii "Tron-Daemon") (ascii "General")
            .online (ascii "TRON IPC Kernel Service"),
          rosterItem (ascii "#btron-hall@conference.btron.org") (ascii "#btron-hall")
            (ascii "MUC Rooms") .online (ascii "B-System Public Townhall")] }

-- A client read or written through a pointer to it, which must be registered.
def client (s : Chat) (p : Nat) : Option Client := s.clients.lookup p

def modify (s : Chat) (p : Nat) (f : Client → Client) : Chat :=
  { s with clients := s.clients.map fun c => if c.1 = p then (c.1, f c.2) else c }

def WndContext.append (ctx : WndContext) (msg : Message) : WndContext :=
  let history :=
    if ctx.history.length ≥ CHAT_MAX_MSG_HISTORY then ctx.history.drop 1 else ctx.history
  let history := history ++ [{ msg with
    senderNick := strncpy msg.senderNick (CHAT_MAX_NICK_LEN - 1)
    text := strncpy msg.text (CHAT_MAX_LINE_LEN - 1) }]
  { ctx with
      history := history
      scrollY := if history.length > 12 then (history.length - 12) * 18 else 0 }

-- A window or a context that is freed is not to be read.
def appendMessageToWnd (s : Chat) (w : Nat) (msg : Message) : Option Chat := do
  let wnd ← s.wnds.mem w
  if wnd.userData = 0 then some s
  else
    let ctx ← s.ctxs wnd.userData
    some { s with ctxs := Function.update s.ctxs wnd.userData (some (ctx.append msg)) }

-- The loops over the clients that send each room window a message.
def appendToRooms (msg : Nat → Message) : List (Nat × Client) → Chat → Option Chat
  | [], s => some s
  | (p, c) :: cs, s =>
    match c.mucWnd with
    | none => appendToRooms msg cs s
    | some w => do
      let s ← appendMessageToWnd s w (msg p)
      appendToRooms msg cs s

def chatIpcBroadcastSystem (s : Chat) (text : List UB) : Option Chat :=
  appendToRooms (fun _ => ⟨ascii "System", text, .system, COLOR_DKGRAY⟩) s.clients s

-- The search in a roster for the client, whose entry is updated if there is one.
def updateEntry (client : Client) : List RosterItem → Option (List RosterItem)
  | [] => none
  | item :: items =>
    if item.nick = client.nick then
      some ({ item with
        status := client.status, statusText := strncpy client.statusMsg 63 } :: items)
    else (updateEntry client items).map (item :: ·)

-- Find or add client to c's roster
def updateRoster (client c : Client) : Client :=
  match updateEntry client c.roster with
  | some roster => { c with roster := roster }
  | none =>
    if c.roster.length < CHAT_MAX_ROSTER then
      { c with
          roster := c.roster ++
            [rosterItem client.jid client.nick (ascii "General") client.status client.statusMsg] }
    else c

def chatIpcBroadcastPresence (s : Chat) (p : Nat) : Option Chat := do
  let client ← s.client p
  some { s with
    clients := s.clients.map fun c => if c.1 ≠ p then (c.1, updateRoster client c.2) else c }

-- The nick of a new client and g_nick_counter afterwards.
def newNick (s : Chat) (preferredNick : Option (List UB)) (time : Nat) : List UB × Nat :=
  match preferredNick with
  | some nick =>
    if (cstr nick).length > 0 then (strncpy nick (CHAT_MAX_NICK_LEN - 1), s.nickCounter)
    else chatGenerateRandomNick s.nickCounter time CHAT_MAX_NICK_LEN
  | none => chatGenerateRandomNick s.nickCounter time CHAT_MAX_NICK_LEN

def newClient (clientId : Int) (nick : List UB) : Client :=
  chatClientInitDefaults
    { clientId := clientId
      nick := nick
      jid := (nick ++ ascii "@" ++ CHAT_DEFAULT_SERVER).take (CHAT_MAX_JID_LEN - 1)
      server := CHAT_DEFAULT_SERVER
      status := .online
      statusMsg := ascii "Online in B-System 3.20"
      connected := true
      roster := []
      rosterWnd := none
      mucWnd := none
      privateWnds := [] }

-- `p` is what `calloc` returns for the client. The counter overflows past the largest ID, which
-- C leaves undefined.
def chatIpcRegisterClient (s : Chat) (p : Option Nat) (preferredNick : Option (List UB))
    (time : Nat) : Option (Chat × Option Nat) :=
  match p with
  | none => some (s, none)
  | some p =>
    if s.nextClientId ≥ 2147483647 then none
    else do
      let (nick, nickCounter) := newNick s preferredNick time
      let s := { s with
        clients := (p, newClient s.nextClientId nick) :: s.clients
        nextClientId := s.nextClientId + 1
        nickCounter := nickCounter }
      let s ← chatIpcBroadcastPresence s p
      let s ← chatIpcBroadcastSystem s
        ((ascii "--> " ++ nick ++ ascii " has entered the room.").take 127)
      some (s, some p)

def chatIpcUnregisterClient (s : Chat) (client : Option Nat) : Option Chat :=
  match client with
  | none => some s
  | some p => do
    let client ← s.client p
    let s ← chatIpcBroadcastSystem s
      ((ascii "<-- " ++ client.nick ++ ascii " has left the room.").take 127)
    let s := s.modify p fun c => { c with status := .offline }
    let s ← chatIpcBroadcastPresence s p
    some { s with clients := s.clients.filter fun c => c.1 ≠ p }

-- The connect button and the status picker of the roster window
def Client.toggleConnected (c : Client) : Client :=
  { c with connected := !c.connected, status := if !c.connected then .online else .offline }

def Client.pickStatus (c : Client) : Client := { c with status := c.status.next }

def toggleConnected (s : Chat) (p : Nat) : Option Chat :=
  chatIpcBroadcastPresence (s.modify p Client.toggleConnected) p

def pickStatus (s : Chat) (p : Nat) : Option Chat :=
  chatIpcBroadcastPresence (s.modify p Client.pickStatus) p

end Chat

end BTron
