import BTron.Types
import Mathlib.Data.Fin.Tuple.Basic
import Mathlib.Logic.Function.Basic

namespace BTron.MemMgr

def BTRON_BLOCK_SIZE : Int := 4096

-- MAX_MEM_ALLOCS
abbrev maxMemAllocs : Nat := 128

-- MEM_TRACK. NULL is the address 0.
structure MemTrack where
  basePtr : Nat
  nblk : Int
  atr : Nat
  inUse : Bool
deriving DecidableEq

def MemTrack.zero : MemTrack := ⟨0, 0, 0, false⟩

-- g_mem_table and g_mem_init, with the sizes of the regions that malloc gave and free has not
-- taken back.
structure Mem where
  table : Fin maxMemAllocs → MemTrack
  init : Bool
  heap : Nat → Option Int

def Mem.start : Mem := ⟨fun _ => .zero, false, fun _ => none⟩

def Mem.set (s : Mem) (i : Fin maxMemAllocs) (e : MemTrack) : Mem :=
  { s with table := Function.update s.table i e }

def memInitOnce (s : Mem) : Mem :=
  if s.init then s else { s with table := fun _ => .zero, init := true }

def findFree (s : Mem) : Option (Fin maxMemAllocs) := Fin.find? fun i => !(s.table i).inUse

def findBlock (s : Mem) (adr : Nat) : Option (Fin maxMemAllocs) :=
  Fin.find? fun i => (s.table i).inUse && (s.table i).basePtr == adr

-- The product in 64 bits.
def sizeOf (nblk : Int) : Int := nblk * BTRON_BLOCK_SIZE % 18446744073709551616

-- `out` says that adr is not NULL, `ptr` is what malloc returns. The address is what is stored.
def getMbk (s : Mem) (out : Bool) (nblk : Int) (atr : Nat) (ptr : Nat) : Mem × ER × Option Nat :=
  if !out then (s, ER_ADR, none)
  else if nblk ≤ 0 then (s, ER_PAR, none)
  else
    let s := memInitOnce s
    match findFree s with
    | none => (s, ER_NOSPC, none)
    | some slot =>
      if ptr = 0 then (s, ER_NOSPC, none)
      else
        ({ s.set slot ⟨ptr, nblk, atr, true⟩ with
            heap := Function.update s.heap ptr (some (sizeOf nblk)) }, E_OK, some ptr)

def relMbk (s : Mem) (adr : Nat) : Mem × ER :=
  if adr = 0 then (s, ER_ADR)
  else
    let s := memInitOnce s
    match findBlock s adr with
    | none => (s, ER_PAR)
    | some i =>
      ({ s.set i { s.table i with basePtr := 0, inUse := false } with
          heap := Function.update s.heap adr none }, E_OK)

def chgMbk (s : Mem) (adr : Nat) (nblk : Int) : Mem × ER :=
  if adr = 0 then (s, ER_ADR)
  else if nblk ≤ 0 then (s, ER_PAR)
  else
    let s := memInitOnce s
    match findBlock s adr with
    | none => (s, ER_PAR)
    | some i => (s.set i { s.table i with nblk := nblk }, E_OK)

inductive Call
  | get (out : Bool) (nblk : Int) (atr : Nat) (ptr : Nat)
  | rel (adr : Nat)
  | chg (adr : Nat) (nblk : Int)

def exec (s : Mem) : Call → Mem × ER
  | .get out nblk atr ptr =>
    let (s, er, _) := getMbk s out nblk atr ptr
    (s, er)
  | .rel adr => relMbk s adr
  | .chg adr nblk => chgMbk s adr nblk

-- What malloc may return: NULL, or a region of the size that is disjoint from all others.
def Fresh (heap : Nat → Option Int) (ptr : Nat) (size : Int) : Prop :=
  ptr ≠ 0 → ∀ a n, heap a = some n → a + n ≤ ptr ∨ ptr + size ≤ (a : Int)

def Call.Possible (s : Mem) : Call → Prop
  | .get _ nblk _ ptr => Fresh s.heap ptr (sizeOf nblk)
  | .rel _ | .chg .. => True

-- W arguments are in 32 bits.
def Call.InRange : Call → Prop
  | .get _ nblk _ _ | .chg _ nblk => -2147483648 ≤ nblk ∧ nblk ≤ 2147483647
  | .rel _ => True

def Step (s : Mem) (c : Call) (s' : Mem) : Prop := c.InRange ∧ c.Possible s ∧ s' = (exec s c).1

end BTron.MemMgr
