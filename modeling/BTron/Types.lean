import BTron.Lib.Logged
import Mathlib.Data.Nat.Bitwise

namespace BTron

-- types.h: UB and TC keep their C names; UH, UW and H values are naturals and
-- integers, reduced where the code converts to the type.
abbrev UB := UInt8
abbrev TC := Nat

-- A statement about the elements of a list or an option is decided on these alone, also where
-- the type is finite.
instance (priority := 2000) decidableForallMem {α : Type} (p : α → Prop) [DecidablePred p]
    (l : List α) : Decidable (∀ c ∈ l, p c) :=
  List.decidableBAll p l

instance (priority := 2000) decidableForallMemOption {α : Type} (p : α → Prop) [DecidablePred p]
    (o : Option α) : Decidable (∀ c ∈ o, p c) :=
  Option.decidableForallMem o

instance : LawfulBEq (List UB) := inferInstance

-- The memory a C pointer refers to, by offset from the pointer.
abbrev Memory := Nat → UB

-- error.h
abbrev ER := Int

def E_OK : ER := 0
def E_SYS : ER := -5
def E_NOMEM : ER := -10
def E_NOSPT : ER := -17
def E_PAR : ER := -33
def E_LIMIT : ER := -34
def E_ID : ER := -35
def E_OBJ : ER := -41
def E_NOEXS : ER := -52
def E_BUSY : ER := -65
def E_TMOUT : ER := -69
def ER_ADR : ER := -1
def ER_NOSPC : ER := -11
def ER_DID : ER := -14
def ER_FD : ER := -19
def ER_PAR : ER := E_PAR
def ER_ID : ER := E_ID
def ER_NOEXS : ER := E_NOEXS

-- Conversion to UW.
def w32 (n : Nat) : Nat := n % 4294967296

-- Conversion of an unsigned value to H and to ID.
def toH (n : Nat) : Int :=
  if n % 65536 < 32768 then (n % 65536 : Nat) else (n % 65536 : Nat) - 65536

def toID (n : Nat) : Int := if w32 n < 2147483648 then (w32 n : Nat) else (w32 n : Nat) - 4294967296

theorem w32_of_lt {n : Nat} (h : n < 4294967296) : w32 n = n := Nat.mod_eq_of_lt h

theorem w32_lt (n : Nat) : w32 n < 4294967296 := Nat.mod_lt _ (by decide)

theorem or_eq_add {b : Nat} (i a : Nat) (h : b < 2 ^ i) : a <<< i ||| b = a * 2 ^ i + b := by
  rw [Nat.shiftLeft_eq, Nat.mul_comm, ← Nat.two_pow_add_eq_or_of_lt h]

end BTron
