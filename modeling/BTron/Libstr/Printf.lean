import BTron.Types
import Mathlib.Data.Nat.Digits.Lemmas

namespace BTron.Printf

-- The values of a variable argument list. A string is the bytes before its NUL.
inductive Arg
  | int (v : Int)
  | uint (v : Nat)
  | long (v : Int)
  | str (s : Option (List UB))
deriving DecidableEq

-- Conversion to int.
def asInt (n : Int) : Int := n.bmod 4294967296

def asUint (n : Int) : Nat := (n % 4294967296).toNat

-- `va_arg(ap, int)`, `va_arg(ap, unsigned int)` and `va_arg(ap, const char *)` of an argument of
-- another size or kind are undefined.
def vaInt : List Arg → Option (Int × List Arg)
  | .int v :: ap => some (asInt v, ap)
  | .uint v :: ap => some (asInt v, ap)
  | _ => none

def vaUint : List Arg → Option (Nat × List Arg)
  | .int v :: ap => some (asUint v, ap)
  | .uint v :: ap => some (asUint v, ap)
  | _ => none

def vaStr : List Arg → Option (Option (List UB) × List Arg)
  | .str s :: ap => some (s, ap)
  | _ => none

-- The width after `%`, and where its digits end.
def widthDigits : List UB → Nat → Nat × List UB
  | [], width => (width, [])
  | c :: format, width =>
    if 0x30 ≤ c ∧ c ≤ 0x39 then widthDigits format (width * 10 + (c.toNat - 0x30))
    else (width, c :: format)

-- The digits of a number in `tmp`, the last one first.
def tmpDigits (base : Nat) (digit : Nat → UB) : Nat → Nat → List UB
  | 0, _ => []
  | size + 1, val =>
    if val > 0 then digit (val % base) :: tmpDigits base digit size (val / base) else []

def decimalDigit (k : Nat) : UB := UInt8.ofNat (0x30 + k)

def hexDigit (k : Nat) : UB := UInt8.ofNat (if k < 10 then 0x30 + k else 0x61 + k - 10)

-- `(null)`
def nullText : List UB := [0x28, 0x6E, 0x75, 0x6C, 0x6C, 0x29]

def strText (leftAlign : Bool) (width : Nat) (s : List UB) : List UB :=
  let slen := asInt s.length
  s ++ if leftAlign ∧ (width : Int) > slen then List.replicate (width - slen).toNat 0x20 else []

def intText (unsigned : Bool) (val : Int) : List UB :=
  if val = 0 then [0x30]
  else
    let neg := !unsigned && val < 0
    (if neg then [0x2D] else []) ++
      (tmpDigits 10 decimalDigit 32 (asUint (if neg then -val else val))).reverse

def hexText (val : Nat) : List UB :=
  if val = 0 then [0x30] else (tmpDigits 16 hexDigit 32 val).reverse

-- What the conversion `k` is to write, what is left of the arguments, and the ones it took.
def convert (k : UB) (leftAlign : Bool) (width : Nat) (ap : List Arg) :
    Option (List UB × List Arg × List (UB × Arg)) :=
  let took := ap.head?.toList.map fun a => (k, a)
  -- `s`
  if k = 0x73 then
    (vaStr ap).map fun (s, ap') => (strText leftAlign width (s.getD nullText), ap', took)
  -- `d`, `i`, `u`
  else if k = 0x64 ∨ k = 0x69 ∨ k = 0x75 then
    (vaInt ap).map fun (val, ap') => (intText (k = 0x75) val, ap', took)
  -- `x`, `X`, `p`
  else if k = 0x78 ∨ k = 0x58 ∨ k = 0x70 then
    (vaUint ap).map fun (val, ap') => (hexText val, ap', took)
  -- `c`
  else if k = 0x63 then (vaInt ap).map fun (val, ap') => ([UInt8.ofNat (asUint val)], ap', took)
  -- `%`
  else if k = 0x25 then some ([0x25], ap, [])
  else some ([], ap, [])

-- The bytes written, and each conversion with the argument that it took.
structure Out where
  bytes : List UB
  taken : List (UB × Arg)
deriving DecidableEq

def Out.push (bytes : List UB) (taken : List (UB × Arg)) (o : Out) : Out :=
  ⟨bytes ++ o.bytes, taken ++ o.taken⟩

-- The loop over the format, with room for so many bytes: every byte is written while there is
-- room. `none` is an undefined step.
def formatLoop : Nat → List UB → List Arg → Nat → Option Out
  | 0, _, _, _ => none
  | _ + 1, [], _, _ => some ⟨[], []⟩
  | fuel + 1, c :: format, ap, room =>
    if room = 0 then some ⟨[], []⟩
    else if c ≠ 0x25 then (formatLoop fuel format ap (room - 1)).map (Out.push [c] [])
    else if format = [] then some ⟨[], []⟩
    else
      let leftAlign := format.head? = some 0x2D
      let (width, format) := widthDigits (if leftAlign then format.tail else format) 0
      match format with
      -- the format is left behind its NUL
      | [] => none
      | k :: format =>
        (convert k leftAlign width ap).bind fun (text, ap, took) =>
          (formatLoop fuel format ap (room - (text.take room).length)).map
            (Out.push (text.take room) took)

-- The bytes stored in `str` with the NUL, and the conversions made.
def tklVsnprintf (size : Nat) (format : List UB) (ap : List Arg) : Option Out :=
  if size = 0 then some ⟨[], []⟩
  else (formatLoop (format.length + 1) format ap (size - 1)).map fun o =>
    { o with bytes := o.bytes ++ [0] }

end BTron.Printf
