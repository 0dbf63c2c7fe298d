import BTron.Lib.Ring
import BTron.Types
import Mathlib.Data.Nat.Bitwise

namespace BTron.IpcMsg

open Lib

def maxQueuedMsgs : Nat := 64
def maxIpcPids : Int := 32

structure Message where
  msgType : Int
  msgSize : Int
  -- the 32 bytes of the MSGBODY union
  msgBody : Vector UB 32
deriving DecidableEq

def Message.zero : Message := ⟨0, 0, Vector.replicate 32 0⟩

-- The lock and the condition variable belong to the steps, see `monitor`.
structure Mailbox where
  messages : Nat → Message
  head : Nat
  tail : Nat
  count : Nat

def Mailbox.zero : Mailbox := ⟨fun _ => .zero, 0, 0, 0⟩

-- `MSGMASK(t)`
def msgmask (t : Int) : Nat := 1 <<< (t - 1).toNat

-- `(mask == 0) || (mask & MSGMASK(mtype))`
def matchesMask (mask : Nat) (msg : Message) : Bool :=
  mask == 0 || mask &&& msgmask msg.msgType != 0

-- What `snd_msg` does under the lock.
def Mailbox.put (mb : Mailbox) (msg : Message) : Mailbox × ER :=
  if mb.count ≥ maxQueuedMsgs then (mb, ER_NOSPC)
  else
    ({ mb with
        messages := Function.update mb.messages mb.tail msg
        tail := (mb.tail + 1) % maxQueuedMsgs
        count := mb.count + 1 }, E_OK)

-- The search loop of `rcv_msg`, and the removal of what it finds.
def Mailbox.take (mb : Mailbox) (mask : Nat) : Option (Message × Mailbox) :=
  match (List.range mb.count).find? fun i =>
      matchesMask mask (mb.messages ((mb.head + i) % maxQueuedMsgs)) with
  | none => none
  | some i =>
    some (mb.messages ((mb.head + i) % maxQueuedMsgs),
      { mb with
          messages := ringShift maxQueuedMsgs mb.head mb.messages i (mb.count - 1 - i)
          count := mb.count - 1
          tail := (mb.head + (mb.count - 1)) % maxQueuedMsgs })

structure Ipc where
  initialized : Bool
  mailboxes : Int → Mailbox

def Ipc.start : Ipc := ⟨false, fun _ => .zero⟩

def ipcEnsureInit (s : Ipc) : Ipc :=
  if s.initialized then s
  else ⟨true, fun pid => if 0 ≤ pid ∧ pid < maxIpcPids then .zero else s.mailboxes pid⟩

def Ipc.set (s : Ipc) (pid : Int) (mb : Mailbox) : Ipc :=
  { s with mailboxes := Function.update s.mailboxes pid mb }

-- A NULL message is `none`.
def sndMsg (s : Ipc) (pid : Int) (msg : Option Message) : Ipc × ER :=
  match msg with
  | none => (s, E_PAR)
  | some msg =>
    if pid < 0 ∨ pid ≥ maxIpcPids then (s, ER_ID)
    else if msg.msgType < 1 ∨ msg.msgType > 31 then (s, E_PAR)
    else
      let s := ipcEnsureInit s
      let (mb, er) := (s.mailboxes pid).put msg
      (s.set pid mb, er)

-- `rcv_msg` with tmo = 0. `out` says that msg is not NULL; the message is what is stored there.
def rcvMsg (s : Ipc) (pid : Int) (out : Bool) (mask : Nat) : Ipc × ER × Option Message :=
  if !out then (s, E_PAR, none)
  else if pid < 0 ∨ pid ≥ maxIpcPids then (s, ER_ID, none)
  else
    let s := ipcEnsureInit s
    match (s.mailboxes pid).take mask with
    | some (msg, mb) => (s.set pid mb, E_OK, some msg)
    | none => (s, E_TMOUT, none)

def chkMsg (s : Ipc) (pid : Int) (out : Bool) (mask : Nat) : Ipc × ER × Option Message :=
  rcvMsg s pid out mask

inductive Call
  | snd (pid : Int) (msg : Option Message)
  | rcv (pid : Int) (out : Bool) (mask : Nat)
  | chk (pid : Int) (out : Bool) (mask : Nat)

def Call.pid : Call → Int
  | snd pid _ | rcv pid _ _ | chk pid _ _ => pid

-- The return value of a call and the message it delivers.
abbrev Result := ER × Option Message

def exec (s : Ipc) : Call → Ipc × Result
  | .snd pid msg =>
    let (s, er) := sndMsg s pid msg
    (s, er, none)
  | .rcv pid out mask => rcvMsg s pid out mask
  | .chk pid out mask => chkMsg s pid out mask

def run (s : Ipc) : List Call → Ipc × List Result
  | [] => (s, [])
  | c :: cs =>
    let (s', r) := exec s c
    let (s'', rs) := run s' cs
    (s'', r :: rs)

end BTron.IpcMsg
