import BTron.ImageView
import BTron.Lib.Run

namespace BTron.Gif

open Lib

-- MAX_GIF_PIXELS, ABOUT_ICON_MAX_PIXELS, and MAX_LZW_DICT, which is ABOUT_ICON_LZW_DICT as well
def maxGifPixels : Nat := 2048 * 3000
def aboutIconMaxPixels : Nat := 64 * 64
def maxLzwDict : Nat := 4096

-- The data of an image: the file behind the sub-block, the bytes of the sub-block that have not
-- been taken, and the bits of those that have.
structure BitSource where
  file : List UB
  subBuf : List UB
  bitBuf : Nat
  bitCount : Nat
deriving DecidableEq

-- `sub_buf[sub_pos++]`, and the next sub-block where this one is used up.
def BitSource.nextByte (s : BitSource) : Option (UB × BitSource) :=
  match s.subBuf, s.file with
  | b :: subBuf, _ => some (b, { s with subBuf := subBuf })
  | [], [] => none
  | [], subLen :: file =>
    -- a length of zero ends the data, and so does a sub-block that is cut
    if file.length < subLen.toNat then none
    else
      match file.take subLen.toNat with
      | [] => none
      | b :: subBuf => some (b, { s with file := file.drop subLen.toNat, subBuf := subBuf })

-- `while (bit_count < code_size)`, of at most `n` turns
def BitSource.fill (codeSize : Nat) : Nat → BitSource → BitSource
  | 0, s => s
  | n + 1, s =>
    if s.bitCount < codeSize then
      match s.nextByte with
      | none => s
      | some (b, t) =>
        fill codeSize n
          { t with bitBuf := s.bitBuf ||| b.toNat <<< s.bitCount, bitCount := s.bitCount + 8 }
    else s

-- The next code. A turn of the loop above adds 8 bits.
def BitSource.getCode (codeSize : Nat) (s : BitSource) : Option (Nat × BitSource) :=
  let t := s.fill codeSize codeSize
  if t.bitCount < codeSize then none
  else
    some (t.bitBuf &&& (1 <<< codeSize - 1),
      { t with bitBuf := t.bitBuf >>> codeSize, bitCount := t.bitCount - codeSize })

-- What the loop is told of the image, and the size of the array of its pixels.
structure Params where
  minCodeSize : Nat
  totalPixels : Int
  maxPixels : Nat
  accepted : 2 ≤ minCodeSize ∧ minCodeSize ≤ 8
  fits : totalPixels ≤ maxPixels

def Params.clearCode (p : Params) : Nat := 1 <<< p.minCodeSize

def Params.eoiCode (p : Params) : Nat := p.clearCode + 1

-- The state of the loop over the codes. The head of the stack is its top, old_code is none where
-- it is -1, and the pixels are those that have been stored.
structure Decoder where
  source : BitSource
  gifPrefix : Nat → Nat
  gifSuffix : Nat → UB
  gifStack : List UB
  gifRaw : List UB
  nextCode : Nat
  codeSize : Nat
  oldCode : Option Nat
  firstChar : UB

-- `s_gif_stack[stack_top++]`, within the array
def push (stack : List UB) (b : UB) : Option (List UB) :=
  if stack.length < maxLzwDict + 1 then some (b :: stack) else none

-- The loop over the prefixes of a code, with `room` places left on the stack.
def chain (clear : Nat) (gifPrefix : Nat → Nat) (gifSuffix : Nat → UB) :
    Nat → List UB → Nat → Option (List UB × Nat)
  | 0, stack, cur => if clear ≤ cur ∧ cur < maxLzwDict then none else some (stack, cur)
  | room + 1, stack, cur =>
    if clear ≤ cur ∧ cur < maxLzwDict then
      chain clear gifPrefix gifSuffix room (gifSuffix cur :: stack) (gifPrefix cur)
    else some (stack, cur)

-- The characters of a code and of its prefixes, and the last one as the first of the string.
-- There is none where an index is outside its table.
def Decoder.spell (p : Params) (g : Decoder) (stack : List UB) (cur : Nat) :
    Option (UB × List UB) := do
  let (stack, cur) ← chain p.clearCode g.gifPrefix g.gifSuffix (maxLzwDict + 1 - stack.length)
    stack cur
  if cur < maxLzwDict then
    let firstChar := g.gifSuffix cur
    let stack ← push stack firstChar
    some (firstChar, stack)
  else none

-- The string of a code on the stack. That of a code in no entry yet is the previous one and the
-- first character of it again.
def Decoder.unwind (p : Params) (g : Decoder) (code : Nat) : Option (UB × List UB) :=
  if code ≥ g.nextCode then do
    let stack ← push g.gifStack g.firstChar
    let cur ← g.oldCode
    g.spell p stack cur
  else g.spell p g.gifStack code

-- The stack is written to the pixels.
def Decoder.flush (p : Params) (g : Decoder) (stack : List UB) : Option Decoder :=
  let n := min stack.length (p.totalPixels - g.gifRaw.length).toNat
  if g.gifRaw.length + n ≤ p.maxPixels then
    some { g with gifStack := stack.drop n, gifRaw := g.gifRaw ++ stack.take n }
  else none

-- A new entry of the table, unless there is no previous code or no room for it.
def Decoder.enter (g : Decoder) (firstChar : UB) : Decoder :=
  match g.oldCode with
  | none => g
  | some old =>
    if g.nextCode < maxLzwDict then
      { g with
        gifPrefix := fun i => if i = g.nextCode then old else g.gifPrefix i
        gifSuffix := fun i => if i = g.nextCode then firstChar else g.gifSuffix i
        nextCode := g.nextCode + 1
        codeSize :=
          if g.nextCode + 1 > 1 <<< g.codeSize - 1 ∧ g.codeSize < 12 then g.codeSize + 1
          else g.codeSize }
    else g

def Decoder.clear (p : Params) (g : Decoder) : Decoder :=
  { g with codeSize := p.minCodeSize + 1, nextCode := p.eoiCode + 1, oldCode := none }

def Decoder.decode (p : Params) (g : Decoder) (code : Nat) : Option Decoder := do
  let (firstChar, stack) ← g.unwind p code
  let g ← g.flush p stack
  some { g.enter firstChar with oldCode := some code, firstChar := firstChar }

def gifTurn (p : Params) (g : Decoder) : Outcome Decoder :=
  if g.gifRaw.length < p.totalPixels then
    match g.source.getCode g.codeSize with
    | none => .leave
    | some (code, source) =>
      let g := { g with source := source }
      if code = p.clearCode then .go (g.clear p)
      else if code = p.eoiCode then .leave
      else .ofOption (g.decode p code)
  else .leave

def gifStep (p : Params) (g : Decoder) : Option Decoder := (gifTurn p g).next

-- The state in front of the data. What the tables hold behind the palette is left from before.
def gifStart (p : Params) (stalePrefix : Nat → Nat) (staleSuffix : Nat → UB) (file : List UB) :
    Decoder where
  source := ⟨file, [], 0, 0⟩
  gifPrefix := fun i => if i < p.clearCode then 0 else stalePrefix i
  gifSuffix := fun i => if i < p.clearCode then UInt8.ofNat i else staleSuffix i
  gifStack := []
  gifRaw := []
  nextCode := p.eoiCode + 1
  codeSize := p.minCodeSize + 1
  oldCode := none
  firstChar := 0

-- `int total_pixels = img_w * img_h`, not more than the array has room for
def totalPixels (imgW imgH maxPixels : Nat) : Int :=
  let totalPixels := toID (imgW * imgH)
  if totalPixels > maxPixels then maxPixels else totalPixels

theorem totalPixels_le (imgW imgH maxPixels : Nat) :
    totalPixels imgW imgH maxPixels ≤ maxPixels := by
  unfold totalPixels
  dsimp only
  split <;> omega

-- decode_and_draw_gif: another size than 2 to 8 is taken for 8.
def gifParams (minCodeSize : Int) (imgW imgH : Nat) : Params where
  minCodeSize := if minCodeSize < 2 ∨ minCodeSize > 8 then 8 else minCodeSize.toNat
  totalPixels := totalPixels imgW imgH maxGifPixels
  maxPixels := maxGifPixels
  accepted := by split <;> omega
  fits := totalPixels_le ..

-- decode_and_draw_about_gif: with another size it does not come to the loop.
def aboutGifParams (minCodeSize : Nat) (accepted : 2 ≤ minCodeSize ∧ minCodeSize ≤ 8)
    (imgW imgH : Nat) : Params where
  minCodeSize := minCodeSize
  totalPixels := totalPixels imgW imgH aboutIconMaxPixels
  maxPixels := aboutIconMaxPixels
  accepted := accepted
  fits := totalPixels_le ..

-- `s_gif_raw[y * img_w + x]`, in int arithmetic
def rawIndex (imgW x y : Nat) : Int := toID (y * imgW + x)

-- The device, its clip and the arguments of decode_and_draw_about_gif.
structure AboutGifView where
  devWidth : Int
  devHeight : Int
  clipLeft : Int
  clipTop : Int
  clipRight : Int
  clipBottom : Int
  dstX : Int
  dstY : Int

def AboutGifView.Reads (v : AboutGifView) (imgW imgH x y : Nat) : Prop :=
  let outX := v.dstX + x
  let outY := v.dstY + y
  x < imgW ∧ x < 32 ∧ y < imgH ∧ y < 32 ∧ ¬(outY < v.clipTop ∨ outY ≥ v.clipBottom) ∧
    ¬(outY < 0 ∨ outY ≥ v.devHeight) ∧ ¬(outX < v.clipLeft ∨ outX ≥ v.clipRight) ∧
    ¬(outX < 0 ∨ outX ≥ v.devWidth)

end BTron.Gif
