import BTron.Libstr.Printf

namespace BTron.Printf

-- The conversions of numbers
inductive Conv
  | d
  | u
  | x
  | X
deriving DecidableEq

-- A piece of a format together with its argument.
inductive Piece
  | lit (c : UB)
  | percent
  | chr (minus : Bool) (width : Nat) (v : Int)
  | str (minus : Bool) (width : Nat) (s : List UB)
  | num (minus zero : Bool) (width : Nat) (long : Bool) (conv : Conv) (v : Int)

def Conv.letter : Conv → UB
  | .d => 0x64
  | .u => 0x75
  | .x => 0x78
  | .X => 0x58

def decimal (n : Nat) : List UB := ((Nat.digits 10 n).map decimalDigit).reverse

-- The flags, the width, where there is one, and the conversion.
def spec (minus zero : Bool) (width : Nat) (conv : List UB) : List UB :=
  0x25 :: ((if minus then [0x2D] else []) ++ ((if zero then [0x30] else []) ++
    (decimal width ++ conv)))

def Piece.format : Piece → List UB
  | .lit c => [c]
  | .percent => [0x25, 0x25]
  | .chr minus width _ => spec minus false width [0x63]
  | .str minus width _ => spec minus false width [0x73]
  | .num minus zero width long conv _ =>
    spec minus zero width (if long then [0x6C, conv.letter] else [conv.letter])

def Piece.args : Piece → List Arg
  | .chr _ _ v => [.int v]
  | .str _ _ s => [.str (some s)]
  | .num _ _ _ true _ v => [.long v]
  | .num _ _ _ false .d v => [.int v]
  | .num _ _ _ false _ v => [.uint v.toNat]
  | _ => []

-- A format of the language, and arguments of the types it asks for.
def Piece.Valid : Piece → Prop
  | .lit c => c ≠ 0x25 ∧ c ≠ 0
  | .percent => True
  | .chr _ width v => width < 2147483648 ∧ -2147483648 ≤ v ∧ v < 2147483648
  | .str _ width s => width < 2147483648 ∧ 0 ∉ s
  | .num _ _ width long conv v => width < 2147483648 ∧ (conv ≠ .d → 0 ≤ v) ∧
    (long = false → if conv = .d then -2147483648 ≤ v ∧ v < 2147483648 else v < 4294967296)

def upperDigit (k : Nat) : UB := UInt8.ofNat (if k < 10 then 0x30 + k else 0x41 + k - 10)

-- The C99 standard's text of the number without padding, its sign and its digits.
def Conv.sign (conv : Conv) (v : Int) : List UB := if conv = .d ∧ v < 0 then [0x2D] else []

def Conv.digits (conv : Conv) (v : Int) : List UB :=
  if v = 0 then [0x30]
  else match conv with
    | .d | .u => ((Nat.digits 10 v.natAbs).map decimalDigit).reverse
    | .x => ((Nat.digits 16 v.natAbs).map hexDigit).reverse
    | .X => ((Nat.digits 16 v.natAbs).map upperDigit).reverse

-- The text in a field of the width, on its left or on its right.
def padded (minus : Bool) (width : Nat) (text : List UB) : List UB :=
  let pad := List.replicate (width - text.length) 0x20
  if minus then text ++ pad else pad ++ text

-- What the standard writes for a piece.
def Piece.text : Piece → List UB
  | .lit c => [c]
  | .percent => [0x25]
  | .chr minus width v => padded minus width [UInt8.ofNat (v % 256).toNat]
  | .str minus width s => padded minus width s
  | .num minus zero width _ conv v =>
    let sign := conv.sign v
    let digits := conv.digits v
    if zero ∧ ¬minus then
      sign ++ (List.replicate (width - (sign ++ digits).length) 0x30 ++ digits)
    else padded minus width (sign ++ digits)

def Piece.meant (p : Piece) : List (UB × Arg) :=
  p.args.map fun a =>
    (match p with
      | .chr .. => 0x63
      | .str .. => 0x73
      | .num _ _ _ _ conv _ => conv.letter
      | _ => 0, a)

def c99 (ps : List Piece) : List UB := ps.flatMap Piece.text

def formatOf (ps : List Piece) : List UB := ps.flatMap Piece.format

def argsOf (ps : List Piece) : List Arg := ps.flatMap Piece.args

def meantOf (ps : List Piece) : List (UB × Arg) := ps.flatMap Piece.meant

-- For every size the first bytes of the standard's text are written with a NUL, and the
-- conversions made are the first ones with their arguments.
def Agrees (ps : List Piece) : Prop :=
  ∀ size, ∃ o, tklVsnprintf size (formatOf ps) (argsOf ps) = some o ∧
    o.bytes = (if size = 0 then [] else (c99 ps).take (size - 1) ++ [0]) ∧ o.taken <+: meantOf ps

-- A piece whose modifiers `tkl_vsnprintf` need not know.
def Piece.Kept : Piece → Prop
  | .lit _ | .percent => True
  | .chr _ width _ => width ≤ 1
  | .str minus width s => minus = true ∨ width ≤ s.length
  | .num _ _ width long conv v => long = false ∧ width ≤ (conv.sign v ++ conv.digits v).length ∧
    (conv = .X → ∀ k ∈ Nat.digits 16 v.natAbs, k < 10)

end BTron.Printf
