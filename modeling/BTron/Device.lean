import BTron.Lib.CArray
import BTron.Lib.CString
import BTron.Types
import Mathlib.Data.Fin.Tuple.Basic
import Mathlib.Logic.Function.Basic

namespace BTron.Device

open Lib

-- MAX_DEVICES
abbrev maxDevices : Nat := 16

def DEV_CMD_RESET : Int := 1
def DEV_CMD_FLUSH : Int := 2

-- BTRON_DEV. The name is without its NUL.
structure Dev where
  devId : Int
  name : List UB
  mode : Nat
  isOpen : Bool
  buffer : CArray.Bytes
  bufLen : Int

def Dev.zero : Dev := ⟨0, [], 0, false, fun _ => 0, 0⟩

-- g_devs, g_next_dev_id and g_dev_init
structure Devs where
  devs : Fin maxDevices → Dev
  nextDevId : Int
  init : Bool

def Devs.start : Devs := ⟨fun _ => .zero, 1, false⟩

def Devs.set (s : Devs) (i : Fin maxDevices) (d : Dev) : Devs :=
  { s with devs := Function.update s.devs i d }

def devInitOnce (s : Devs) : Devs :=
  if s.init then s else { s with devs := fun _ => .zero, init := true }

def findFree (s : Devs) : Option (Fin maxDevices) := Fin.find? fun i => !(s.devs i).isOpen

def findDev (s : Devs) (devId : Int) : Option (Fin maxDevices) :=
  Fin.find? fun i => (s.devs i).isOpen && (s.devs i).devId == devId

-- A NULL pointer is `none`. The counter overflows past the largest ID, which C leaves undefined.
def opnDevMgr (s : Devs) (devName : Option (List UB)) (mode : Nat) : Option (Devs × Int) :=
  match devName with
  | none => some (s, ER_PAR)
  | some devName =>
    let s := devInitOnce s
    match findFree s with
    | none => some (s, ER_NOSPC)
    | some i =>
      if s.nextDevId ≥ 2147483647 then none
      else
        let did := s.nextDevId
        some ({ s.set i
            { s.devs i with
              devId := did
              name := strncpy devName 31
              mode := mode
              isOpen := true
              bufLen := 0 } with nextDevId := did + 1 }, did)

def clsDevMgr (s : Devs) (devId : Int) : Devs × ER :=
  if devId ≤ 0 then (s, ER_DID)
  else
    let s := devInitOnce s
    match findDev s devId with
    | none => (s, ER_DID)
    | some i => (s.set i { s.devs i with isOpen := false }, E_OK)

-- The device, the bytes copied to the caller and their number.
def Dev.read (d : Dev) (sz : Int) : Option (Dev × List UB × Int) :=
  let toRead := if sz < d.bufLen then sz else d.bufLen
  if toRead > 0 then do
    let bytes := (List.range toRead.toNat).map fun (i : Nat) => d.buffer i
    let buffer ← CArray.memmove 1024 d.buffer 0 toRead (d.bufLen - toRead)
    some ({ d with buffer := buffer, bufLen := d.bufLen - toRead }, bytes, toRead)
  else some (d, [], toRead)

def Dev.write (d : Dev) (buf : Memory) (sz : Int) : Option (Dev × Int) :=
  let space := 1024 - d.bufLen
  let toWrite := if sz < space then sz else space
  if toWrite > 0 then do
    let bytes := (List.range toWrite.toNat).map buf
    let buffer ← CArray.memcpy 1024 d.buffer d.bufLen bytes
    some ({ d with buffer := buffer, bufLen := d.bufLen + toWrite }, toWrite)
  else some (d, toWrite)

-- What a call returns, the bytes it stores at `buf`, and what it stores at the size pointer.
structure Result where
  er : Int
  bytes : List UB
  size : Option Int
deriving DecidableEq

def Result.ofER (er : Int) : Result := ⟨er, [], none⟩

-- `out` says that buf is not NULL.
def reaDev (s : Devs) (devId : Int) (out : Bool) (sz : Int) : Option (Devs × Result) :=
  if !out ∨ sz < 0 then some (s, .ofER ER_PAR)
  else if devId ≤ 0 then some (s, .ofER ER_DID)
  else
    let s := devInitOnce s
    match findDev s devId with
    | none => some (s, .ofER ER_DID)
    | some i => do
      let (d, bytes, toRead) ← (s.devs i).read sz
      some (s.set i d, ⟨E_OK, bytes, some toRead⟩)

def wriDev (s : Devs) (devId : Int) (buf : Option Memory) (sz : Int) : Option (Devs × Result) :=
  match buf with
  | none => some (s, .ofER ER_PAR)
  | some buf =>
    if sz < 0 then some (s, .ofER ER_PAR)
    else if devId ≤ 0 then some (s, .ofER ER_DID)
    else
      let s := devInitOnce s
      match findDev s devId with
      | none => some (s, .ofER ER_DID)
      | some i => do
        let (d, toWrite) ← (s.devs i).write buf sz
        some (s.set i d, ⟨E_OK, [], some toWrite⟩)

def ctlDev (s : Devs) (devId cmd : Int) : Devs × ER :=
  if devId ≤ 0 then (s, ER_DID)
  else
    let s := devInitOnce s
    match findDev s devId with
    | none => (s, ER_DID)
    | some i =>
      (if cmd = DEV_CMD_FLUSH ∨ cmd = DEV_CMD_RESET then s.set i { s.devs i with bufLen := 0 }
        else s, E_OK)

inductive Call
  | opn (devName : Option (List UB)) (mode : Nat)
  | cls (devId : Int)
  | rea (devId : Int) (out : Bool) (sz : Int)
  | wri (devId : Int) (buf : Option Memory) (sz : Int)
  | ctl (devId cmd : Int)

def exec (s : Devs) : Call → Option (Devs × Result)
  | .opn devName mode => (opnDevMgr s devName mode).map fun r => (r.1, .ofER r.2)
  | .cls devId =>
    let (s, er) := clsDevMgr s devId
    some (s, .ofER er)
  | .rea devId out sz => reaDev s devId out sz
  | .wri devId buf sz => wriDev s devId buf sz
  | .ctl devId cmd =>
    let (s, er) := ctlDev s devId cmd
    some (s, .ofER er)

def run (s : Devs) : List Call → Option (Devs × List Result)
  | [] => some (s, [])
  | c :: cs => do
    let (s', r) ← exec s c
    let (s'', rs) ← run s' cs
    some (s'', r :: rs)

end BTron.Device
