import BTron.Types
import BTron.Lib.CString
import BTron.Lib.Memory
import BTron.Lib.Run
import BTron.Lib.Search
import BTron.Lib.Utf8

namespace BTron.TadBrowser

open Lib Lib.Logged

def tadMaxSpans : Nat := 1024

def colorBlack : Nat := 0xFF000000

-- A char array is the list of the bytes written to it, the rest being zero.
structure TadStyle where
  fontId : Nat
  fontSize : Nat
  weight : Nat
  color : Nat
  indent : Nat
  linePitch : Nat
  isHr : Bool
  isVobj : Bool
  isImage : Bool
  imgW : Int
  imgH : Int
  imgType : Nat
  imgSrc : List UB
  imgCaption : List UB
  targetRobj : Int
  vobjLabel : List UB
  vobjPath : List UB
  deriving DecidableEq, Repr

structure TadSpan where
  style : TadStyle
  text : List UB
  isLink : Bool
  deriving DecidableEq, Repr

-- The style both parsers start with, on top of the zeroed record.
def initStyle : TadStyle :=
  { fontId := 0, fontSize := 12, weight := 400, color := colorBlack, indent := 10, linePitch := 20,
    isHr := false, isVobj := false, isImage := false, imgW := 0, imgH := 0, imgType := 0,
    imgSrc := [], imgCaption := [], targetRobj := 0, vobjLabel := [], vobjPath := [] }

-- The argument of tad_browser_load_buffer: what `buf` points to and `len`.
structure Buffer where
  bytes : Memory
  len : Nat
  len_lt : len < 4294967296

def Buffer.ofBytes (bs : List UB) (h : bs.length < 4294967296) : Buffer := ⟨ofList bs, bs.length, h⟩

@[simp] theorem Buffer.ofBytes_bytes (bs : List UB) (h : bs.length < 4294967296) :
    (Buffer.ofBytes bs h).bytes = ofList bs := rfl

@[simp] theorem Buffer.ofBytes_len (bs : List UB) (h : bs.length < 4294967296) :
    (Buffer.ofBytes bs h).len = bs.length := rfl

def utf8 (s : String) : List UB := Utf8.bytes s.toList

-- `p[i]`, the index being a UW.
def byteAt (p : Memory) (i : Nat) : Logged Nat := do
  let b ← read p (w32 i)
  pure b.toNat

def halfAt (p : Memory) (i : Nat) : Logged Nat := do
  let hi ← byteAt p i
  let lo ← byteAt p (i + 1)
  pure (hi <<< 8 ||| lo)

def wordAt (p : Memory) (i : Nat) : Logged Nat := do
  let b0 ← byteAt p i
  let b1 ← byteAt p (i + 1)
  let b2 ← byteAt p (i + 2)
  let b3 ← byteAt p (i + 3)
  pure (b0 <<< 24 ||| b1 <<< 16 ||| b2 <<< 8 ||| b3)

-- A text with its length in two bytes before it, kept up to `room` bytes where it ends
-- within `limit`, with the length.
def prefixed (p : Memory) (i limit room : Nat) : Logged (Nat × List UB) := do
  let n ← halfAt p i
  if 0 < n ∧ w32 (i + 2 + n) ≤ limit then do
    let bs ← readBlock p (w32 (i + 2)) (min n room)
    pure (n, bs)
  else pure (n, [])

-- A leading zero byte is skipped.
def vobjDataOff (p : Memory) (offset segLen : Nat) : Logged Nat := do
  let first ← if 7 ≤ segLen then byteAt p offset else pure 1
  pure (if first = 0 then w32 (offset + 1) else offset)

-- The label and the offset behind it, or behind its length when it is not taken.
def vobjLabel (p : Memory) (len dataOff : Nat) : Logged (List UB × Nat) := do
  let declared ← halfAt p (dataOff + 4)
  let nextOff := w32 (dataOff + 6)
  let again ← if declared = 0 ∧ w32 (dataOff + 5) < len then byteAt p (dataOff + 5) else pure 0
  let labelLen := if 0 < again then again else declared
  if 0 < labelLen ∧ w32 (nextOff + labelLen) ≤ len then do
    let label ← readBlock p nextOff (min labelLen 63)
    pure (label, w32 (nextOff + labelLen))
  else pure ([], nextOff)

def vobjPath (p : Memory) (len nextOff : Nat) : Logged (List UB) :=
  if w32 (nextOff + 2) ≤ len then do
    let path ← prefixed p nextOff len 127
    pure path.2
  else pure []

-- case 0xA8, a segment of at least five bytes
def decodeVobj (p : Memory) (len : Nat) (style : TadStyle) (offset segLen : Nat) :
    Logged TadSpan := do
  let dataOff ← vobjDataOff p offset segLen
  let target ← wordAt p dataOff
  let label ← vobjLabel p len dataOff
  let path ← vobjPath p len label.2
  pure
    { style :=
        { style with
          isVobj := true, targetRobj := toID target, vobjLabel := label.1, vobjPath := path,
          linePitch := 22, indent := 20 },
      text := utf8 "[仮身] " ++ (if cstr label.1 = [] then utf8 "Link" else cstr label.1),
      isLink := true }

-- The caption and the source of a figure segment of at least eight bytes.
def figureTexts (p : Memory) (offset segLen : Nat) : Logged (List UB × List UB) := do
  let segEnd := w32 (offset + segLen)
  let caption ← prefixed p (offset + 6) segEnd 127
  let nextOff := w32 (offset + 8 + caption.1)
  if w32 (nextOff + 2) ≤ segEnd then do
    let src ← prefixed p nextOff segEnd 127
    pure (caption.2, src.2)
  else pure (caption.2, [])

-- The width, the height and the type of a figure segment, zero where it is too short.
def figureShape (p : Memory) (offset segLen : Nat) : Logged (Nat × Nat × Nat) :=
  if 5 ≤ segLen then do
    let w ← halfAt p (offset + 1)
    let h ← halfAt p (offset + 3)
    let type ← if 6 ≤ segLen then byteAt p (offset + 5) else pure 0
    pure (w, h, type)
  else pure (0, 0, 0)

-- `if (v <= 0) v = dflt`
def orDefault (v dflt : Int) : Int := if v ≤ 0 then dflt else v

-- case 0xB0
def decodeFprim (p : Memory) (style : TadStyle) (offset segLen : Nat) : Logged TadSpan := do
  let subid ← byteAt p offset
  if subid = 10 then do
    let shape ← figureShape p offset segLen
    let imgW := orDefault (toH shape.1) 480
    let imgH := orDefault (toH shape.2.1) 130
    let texts ← if 8 ≤ segLen then figureTexts p offset segLen else pure ([], [])
    pure
      { style :=
          { style with
            isImage := true, imgW := imgW, imgH := imgH, imgType := shape.2.2,
            linePitch := (imgH + 26).toNat, indent := 20, imgCaption := texts.1,
            imgSrc := texts.2 },
        text := utf8 "[図形] " ++ (if cstr texts.1 = [] then utf8 "Figure" else cstr texts.1),
        isLink := false }
  else pure { style := { style with isHr := true, linePitch := 12 }, text := [], isLink := false }

-- The switch over the tag: the style in force from here on and the span added, if any.
def decodeSegment (p : Memory) (len : Nat) (style : TadStyle) (tag offset segLen : Nat) :
    Logged (TadStyle × Option TadSpan) :=
  if tag = 0xA1 then
    if 2 ≤ segLen then do
      let linePitch ← byteAt p offset
      let indent ← byteAt p (offset + 1)
      pure ({ style with linePitch := linePitch, indent := indent }, none)
    else pure (style, none)
  else if tag = 0xA2 then
    if 1 ≤ segLen then do
      let fontId ← byteAt p offset
      pure ({ style with fontId := fontId }, none)
    else pure (style, none)
  else if tag = 0xA3 then
    if 6 ≤ segLen then do
      let fontSize ← byteAt p offset
      let weight ← halfAt p (offset + 1)
      let r ← byteAt p (offset + 3)
      let g ← byteAt p (offset + 4)
      let b ← byteAt p (offset + 5)
      pure ({ style with fontSize := fontSize, weight := weight,
                         color := r <<< 16 ||| g <<< 8 ||| b ||| 0xFF000000 }, none)
    else pure (style, none)
  else if tag = 0xA8 then
    if 5 ≤ segLen then do
      let span ← decodeVobj p len style offset segLen
      pure (style, some span)
    else pure (style, none)
  else if tag = 0xB0 then do
    let span ← decodeFprim p style offset segLen
    pure (style, some span)
  else pure (style, none)

-- The variables of the binary loop; span_count is the number of spans.
structure LoadState where
  offset : Nat
  style : TadStyle
  spans : List TadSpan

-- The tag and the length of the segment at `offset`, whose first byte has been tested.
def segHeader (p : Memory) (offset : Nat) : Logged (Nat × Nat) := do
  let _ ← byteAt p offset
  let tag ← byteAt p (offset + 1)
  let segLen ← wordAt p (offset + 2)
  pure (tag, segLen)

-- The body of a segment whose header has been read; `none` is the `break`.
def segBody (p : Memory) (len : Nat) (s : LoadState) (tag segLen : Nat) :
    Logged (Option LoadState) :=
  let offset := w32 (s.offset + 6)
  if len < w32 (offset + segLen) then pure none
  else do
    let r ← decodeSegment p len s.style tag offset segLen
    pure (some ⟨w32 (offset + segLen), r.1, s.spans ++ r.2.toList⟩)

def segStep (p : Memory) (len : Nat) (s : LoadState) : Logged (Option LoadState) := do
  let header ← segHeader p s.offset
  segBody p len s header.1 header.2

-- The bytes read into `line` from `o` on, `e` being the end of the text.
def lineLen (stop : UB → Bool) (p : Memory) (o e : Nat) : Nat :=
  scan (fun i => stop (p i)) (min (e - o) 511) o - o

-- The bytes kept of them: a line that was not read to its end is cut behind a space of its
-- second half or else before the first byte of a character.
def cutLine (stop : UB → Bool) (p : Memory) (o e : Nat) : Nat :=
  let l := lineLen stop p o e
  if o + l < e ∧ stop (p (o + l)) = false then
    let safe := backWhile (fun k => p (o + k) != 0x20) (l / 2) l
    if l / 2 < safe then safe else backWhile (fun k => Utf8.isCont (p (o + k + 1))) 0 l
  else l

def isLf (b : UB) : Bool := b == 0x0A

-- The end of the text run that starts at `offset`.
def runEnd (p : Memory) (len offset : Nat) : Nat :=
  scan (fun i => p i == 0xFF) (len - offset) offset

def slice (p : Memory) (o l : Nat) : List UB := (List.range l).map fun k => p (o + k)

def textSpan (style : TadStyle) (line : List UB) : TadSpan :=
  { style := style, text := strncpy line 511, isLink := false }

def textStep (p : Memory) (len : Nat) (s : LoadState) : LoadState :=
  let maxOff := runEnd p len s.offset
  let l := cutLine isLf p s.offset maxOff
  let offset := s.offset + l
  { offset := if offset < maxOff ∧ isLf (p offset) then offset + 1 else offset,
    style := s.style,
    spans := if 0 < l then s.spans ++ [textSpan s.style (slice p s.offset l)] else s.spans }

-- One turn of the loop over a binary document; `none` leaves the loop.
def loadStep (b : Buffer) (s : LoadState) : Option LoadState :=
  if w32 (s.offset + 6) ≤ b.len ∧ s.spans.length < tadMaxSpans then
    if b.bytes s.offset = 0xFF then (segStep b.bytes b.len s).val
    else some (textStep b.bytes b.len s)
  else none

def loadStart : LoadState := ⟨6, initStyle, []⟩

def isBinaryTad (b : Buffer) : Prop := 6 ≤ b.len ∧ b.bytes 0 = 0x00 ∧ b.bytes 1 = 0x01

instance (b : Buffer) : Decidable (isBinaryTad b) := inferInstanceAs (Decidable (_ ∧ _))

end BTron.TadBrowser
