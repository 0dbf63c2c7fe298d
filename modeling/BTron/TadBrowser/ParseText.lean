import BTron.TadBrowser

namespace BTron.TadBrowser

open Lib

def colorNavy : Nat := 0xFF000080

def colorBlue : Nat := 0xFF0000FF

def colorDkgray : Nat := 0xFF404040

def isEol (b : UB) : Bool := b == 0x0A || b == 0x0D

-- strncmp(line, marker, n) == 0, for a marker of at least n bytes.
def startsWith (line : List UB) (marker : String) (n : Nat) : Bool :=
  ((utf8 marker).take n).isPrefixOf line

-- The position of the first occurrence.
def strstr (needle : List UB) : List UB → Option Nat
  | [] => none
  | c :: cs => if needle.isPrefixOf (c :: cs) then some 0 else (strstr needle cs).map (· + 1)

def isSpace (b : UB) : Bool := b == 0x20 || (0x09 ≤ b && b ≤ 0x0D)

def isDigit (b : UB) : Bool := 0x30 ≤ b && b ≤ 0x39

def decimal (bs : List UB) : Nat :=
  (bs.takeWhile isDigit).foldl (fun n b => 10 * n + (b.toNat - 48)) 0

-- The value is only defined where an int holds it.
def atoi (bs : List UB) : Int :=
  let digits := bs.dropWhile isSpace
  if digits.head? = some 0x2D then -(decimal digits.tail : Int)
  else if digits.head? = some 0x2B then decimal digits.tail
  else decimal digits

-- The branches of the chain of strncmp tests.
inductive LineKind where
  | heading
  | chapter
  | vobj
  | image
  | hr
  | mono
  | plain
  deriving DecidableEq, Repr

def lineKind (line : List UB) : LineKind :=
  if startsWith line "■ " 4 || startsWith line "【" 3 then .heading
  else if startsWith line "▶ " 4 || startsWith line "第" 3 then .chapter
  else if startsWith line "[仮身]" 8 then .vobj
  else if startsWith line "[付箋: FIGURE" 13 || startsWith line "[画像:" 7 ||
      startsWith line "[図形:" 7 then .image
  else if startsWith line "───" 6 || startsWith line "━━━" 6 || startsWith line "===" 3 then .hr
  else if startsWith line "|" 1 || startsWith line "```" 3 || startsWith line "  " 2 then .mono
  else .plain

-- The array `line`, with what is left in it behind its end.
def lineArray (stale : Memory) (line : List UB) : Memory := fun i => (line ++ [0]).getD i (stale i)

def lineTarget (line : List UB) : Int :=
  match strstr (utf8 "#") (cstr line) with
  | some i => atoi ((cstr line).drop (i + 1))
  | none => 100

def linePath (line : List UB) : List UB :=
  match strstr (utf8 "-> ") (cstr line) with
  | some i => strncpy ((cstr line).drop (i + 3)) 127
  | none => []

-- Without a closing quote 60 bytes of the array are taken.
def lineCaption (stale : Memory) (line : List UB) : List UB :=
  match strstr (utf8 "caption=\"") (cstr line) with
  | some i =>
    let endCap := ((cstr line).drop (i + 9)).findIdx? (· == 0x22)
    slice (lineArray stale line) (i + 9) (min (endCap.getD 60) 120)
  | none => strncpy line 127

-- The span of a line that is not empty.
def lineSpan (stale : Memory) (line : List UB) : TadSpan :=
  match lineKind line with
  | .heading =>
    { style :=
        { initStyle with
          fontId := 1, fontSize := 16, weight := 700, color := colorNavy, linePitch := 28,
          indent := 10 },
      text := strncpy line 511, isLink := false }
  | .chapter =>
    { style :=
        { initStyle with
          fontId := 1, fontSize := 14, weight := 700, color := colorBlue, linePitch := 24,
          indent := 15 },
      text := strncpy line 511, isLink := false }
  | .vobj =>
    { style :=
        { initStyle with
          fontId := 1, fontSize := 12, weight := 700, color := colorBlue, linePitch := 22,
          indent := 25, isVobj := true, targetRobj := lineTarget line, vobjPath := linePath line,
          vobjLabel := strncpy line 63 },
      text := strncpy line 511, isLink := true }
  | .image =>
    { style :=
        { initStyle with
          isImage := true, imgW := 480, imgH := 130, linePitch := 146, indent := 20,
          imgCaption := lineCaption stale line },
      text := strncpy line 511, isLink := false }
  | .hr =>
    { style := { initStyle with isHr := true, linePitch := 12 }, text := [], isLink := false }
  | .mono =>
    { style :=
        { initStyle with
          fontId := 2, fontSize := 10, color := colorDkgray, linePitch := 18, indent := 20 },
      text := strncpy line 511, isLink := false }
  | .plain => { style := initStyle, text := strncpy line 511, isLink := false }

def emptyLineSpan : TadSpan :=
  { style := { initStyle with linePitch := 10 }, text := [], isLink := false }

structure ParseState where
  pos : Nat
  spans : List TadSpan

def skipEols (p : Memory) (len pos : Nat) : Nat := scan (fun i => !isEol (p i)) (len - pos) pos

-- One turn of the loop over the lines of a text document; `none` leaves the loop. The array
-- holds `stale n` behind the line of the n-th span.
def parseStep (stale : Nat → Memory) (b : Buffer) (s : ParseState) : Option ParseState :=
  if s.pos < b.len ∧ s.spans.length < tadMaxSpans then
    let l := cutLine isEol b.bytes s.pos b.len
    let span :=
      if l = 0 then emptyLineSpan
      else lineSpan (stale s.spans.length) (slice b.bytes s.pos l)
    some ⟨skipEols b.bytes b.len (s.pos + l), s.spans ++ [span]⟩
  else none

def parseStart : ParseState := ⟨0, []⟩

end BTron.TadBrowser
