import BTron.Types
import Mathlib.Logic.Function.Basic

namespace BTron.Event

def EVENT_QUEUE_SIZE : Nat := 256

inductive EvType
  | EV_NONE
  | EV_BUT_DOWN
  | EV_BUT_UP
  | EV_MOUSE_MOVE
  | EV_KEY_DOWN
  | EV_KEY_UP
  | EV_WND_CLOSE
  | EV_WND_MOVE
  | EV_WND_FOCUS
  | EV_MENU_SELECT
  | EV_TIMER
deriving DecidableEq

def EvType.val : EvType → Nat
  | EV_NONE => 0
  | EV_BUT_DOWN => 1
  | EV_BUT_UP => 2
  | EV_MOUSE_MOVE => 3
  | EV_KEY_DOWN => 4
  | EV_KEY_UP => 5
  | EV_WND_CLOSE => 6
  | EV_WND_MOVE => 7
  | EV_WND_FOCUS => 8
  | EV_MENU_SELECT => 9
  | EV_TIMER => 10

structure Evt where
  type : EvType
  wndid : Int
  posX : Int
  posY : Int
  key : Nat
  button : Nat
  data : Nat
deriving DecidableEq

def Evt.zero : Evt := ⟨.EV_NONE, 0, 0, 0, 0, 0, 0⟩

-- g_queue, g_q_head, g_q_tail and g_q_count
structure Queue where
  queue : Nat → Evt
  head : Nat
  tail : Nat
  count : Nat

def Queue.start : Queue := ⟨fun _ => .zero, 0, 0, 0⟩

-- `EV_MASK(type)`
def evMask (type : EvType) : Nat := 1 <<< type.val

-- A NULL event is `none`.
def sndEvt (s : Queue) (pEvt : Option Evt) : Queue × ER :=
  match pEvt with
  | none => (s, E_PAR)
  | some evt =>
    if s.count ≥ EVENT_QUEUE_SIZE then (s, E_BUSY)
    else
      ({ s with
          queue := Function.update s.queue s.tail evt
          tail := (s.tail + 1) % EVENT_QUEUE_SIZE
          count := s.count + 1 }, E_OK)

-- The event that is passed is the one the caller's pointer refers to.
def getEvt (s : Queue) (pEvt : Option Evt) : Queue × ER × Option Evt :=
  match pEvt with
  | none => (s, E_PAR, none)
  | some evt =>
    if s.count > 0 then
      ({ s with head := (s.head + 1) % EVENT_QUEUE_SIZE, count := s.count - 1 }, E_OK,
        some (s.queue s.head))
    else (s, E_TMOUT, some { evt with type := .EV_NONE })

def clrEvt (s : Queue) (mask : Nat) : Queue × ER :=
  if mask = 0 then (s, E_OK)
  else
    let temp := (List.range s.count).foldl (fun temp i =>
      let evt := s.queue ((s.head + i) % EVENT_QUEUE_SIZE)
      if mask &&& evMask evt.type = 0 then temp ++ [evt] else temp) []
    ({ queue := fun i => (temp[i]?).getD (s.queue i)
       head := 0
       tail := temp.length % EVENT_QUEUE_SIZE
       count := temp.length }, E_OK)

-- `(mask == 0) || (mask & EV_MASK(type))`
def matchesMask (mask : Nat) (evt : Evt) : Bool := mask == 0 || mask &&& evMask evt.type != 0

def pkeEvt (s : Queue) (pEvt : Option Evt) (mask : Nat) : ER × Option Evt :=
  match pEvt with
  | none => (E_PAR, none)
  | some evt =>
    match (List.range s.count).find? fun i =>
        matchesMask mask (s.queue ((s.head + i) % EVENT_QUEUE_SIZE)) with
    | some i => (E_OK, some (s.queue ((s.head + i) % EVENT_QUEUE_SIZE)))
    | none => (E_NOEXS, some evt)

inductive Call
  | snd (pEvt : Option Evt)
  | get (pEvt : Option Evt)
  | clr (mask : Nat)
  | pke (pEvt : Option Evt) (mask : Nat)

-- The return value of a call, and what the caller's pointer refers to afterwards.
abbrev Result := ER × Option Evt

def exec (s : Queue) : Call → Queue × Result
  | .snd pEvt =>
    let (s, er) := sndEvt s pEvt
    (s, er, pEvt)
  | .get pEvt => getEvt s pEvt
  | .clr mask =>
    let (s, er) := clrEvt s mask
    (s, er, none)
  | .pke pEvt mask => (s, pkeEvt s pEvt mask)

def run (s : Queue) : List Call → Queue × List Result
  | [] => (s, [])
  | c :: cs =>
    let (s', r) := exec s c
    let (s'', rs) := run s' cs
    (s'', r :: rs)

end BTron.Event
