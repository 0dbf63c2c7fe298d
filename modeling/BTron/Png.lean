import BTron.Graphics
import BTron.ImageView
import BTron.Lib.Run

namespace BTron.Png

open Lib Graphics

-- MAX_PNG_IDAT and MAX_PNG_RAW
def maxPngIdat : Nat := 1024 * 1024 * 4
def maxPngRaw : Nat := 2048 * 2048 * 4

-- The uncompress of zlib: the output for a whole stream that needs at most so many bytes.
structure Zlib where
  uncompress : List UB → Nat → Option (List UB)
  fits : ∀ src destLen out, uncompress src destLen = some out → out.length ≤ destLen

-- What has been read of the file: the rest of it, what IHDR has said and the bytes that the
-- IDAT chunks have added to s_png_idat_buf.
structure Chunks where
  file : List UB
  imgW : Int
  imgH : Int
  colorType : UB
  idat : List UB

-- `(b[i] << 24) | (b[i + 1] << 16) | (b[i + 2] << 8) | b[i + 3]`
def word (b : List UB) (i : Nat) : Nat :=
  (b.getD i 0).toNat <<< 24 ||| (b.getD (i + 1) 0).toNat <<< 16 |||
    (b.getD (i + 2) 0).toNat <<< 8 ||| (b.getD (i + 3) 0).toNat

def ihdrType : List UB := [73, 72, 68, 82]
def idatType : List UB := [73, 68, 65, 84]
def iendType : List UB := [73, 69, 78, 68]

-- IHDR: nothing is looked at but the dimensions and the colour type.
def Chunks.readIhdr (s : Chunks) (file : List UB) : Outcome Chunks :=
  let ihdr := file.take 13
  if ihdr.length ≠ 13 then .leave
  else
    .go { s with
      file := (file.drop 13).drop 4
      imgW := toID (word ihdr 0)
      imgH := toID (word ihdr 4)
      colorType := ihdr.getD 9 0 }

-- IDAT: the sum that is compared is an unsigned one. The data are kept if they are all there.
def Chunks.readIdat (s : Chunks) (file : List UB) (clen : Nat) : Outcome Chunks :=
  if w32 (s.idat.length + clen) ≤ maxPngIdat then
    let data := file.take clen
    if s.idat.length + data.length ≤ maxPngIdat then
      .go { s with
        file := (file.drop clen).drop 4
        idat := if data.length = clen then s.idat ++ data else s.idat }
    else .fault
  else .go { s with file := (file.drop clen).drop 4 }

-- The loop over the chunks. A seek past the end of the file leaves nothing to read.
def pngTurn (s : Chunks) : Outcome Chunks :=
  let chdr := s.file.take 8
  if chdr.length ≠ 8 then .leave
  else
    let file := s.file.drop 8
    let clen := word chdr 0
    let ctype := chdr.drop 4
    if ctype = ihdrType then s.readIhdr file
    else if ctype = idatType then s.readIdat file clen
    else if ctype = iendType then .leave
    else .go { s with file := file.drop (w32 (clen + 4)) }

def pngStep (s : Chunks) : Option Chunks := (pngTurn s).next

-- The state behind the signature, of which four bytes are compared.
def pngStart (file : List UB) : Option Chunks :=
  let sig := file.take 8
  if sig.length ≠ 8 ∨ sig.take 4 ≠ [0x89, 80, 78, 71] then none
  else some ⟨file.drop 8, 0, 0, 0, []⟩

-- A byte of one of the two buffers of MAX_PNG_RAW bytes, which has none outside.
def load (buf : Nat → UB) (i : Int) : Option UB :=
  if 0 ≤ i ∧ i < maxPngRaw then some (buf i.toNat) else none

def store (buf : Nat → UB) (i : Int) (b : UB) : Option (Nat → UB) :=
  if 0 ≤ i ∧ i < maxPngRaw then some (Function.update buf i.toNat b) else none

-- The int of a product or a sum
def i32 (n : Int) : Int := n.bmod 4294967296

def paethPredictor (a b c : UB) : UB :=
  let p : Int := a.toNat + b.toNat - c.toNat
  let pa := (p - a.toNat).natAbs
  let pb := (p - b.toNat).natAbs
  let pc := (p - c.toNat).natAbs
  if pa ≤ pb ∧ pa ≤ pc then a
  else if pb ≤ pc then b
  else c

def bytesPerPixel (colorType : UB) : Nat :=
  if colorType = 6 then 4
  else if colorType = 0 then 1
  else 3

-- The offsets of a row in the buffers. There is no row before the first.
structure Row where
  raw : Int
  dst : Int
  prev : Option Int

-- The byte that is stored, from those to the left, above and to the left above that its filter
-- reads. The two filters that copy, and all that are unknown, take the byte as it is.
def unfiltered (filter raw : UB) (left up upLeft : Option UB) : Option UB :=
  if filter = 1 then left.map (raw + ·)
  else if filter = 2 then up.map (raw + ·)
  else if filter = 3 then
    left.bind fun a => up.map fun b => raw + UInt8.ofNat ((a.toNat + b.toNat) >>> 1)
  else if filter = 4 then
    left.bind fun a => up.bind fun b => upLeft.map fun c => raw + paethPredictor a b c
  else some raw

-- The turn `x` of the loop over the bytes of a row.
def unfilterByte (bpp : Nat) (filter : UB) (row : Row) (decomp scan : Nat → UB) (x : Nat) :
    Option (Nat → UB) := do
  let left := if x ≥ bpp then load scan (row.dst + (x - bpp : Nat)) else some 0
  let up := match row.prev with
    | some prev => load scan (prev + x)
    | none => some 0
  let upLeft := match row.prev with
    | some prev => if x ≥ bpp then load scan (prev + (x - bpp : Nat)) else some 0
    | none => some 0
  let raw ← load decomp (row.raw + x)
  let b ← unfiltered filter raw left up upLeft
  store scan (row.dst + x) b

-- A row. `memcpy` takes a negative length for a huge one.
def unfilterRow (bpp : Nat) (rowBytes stride : Int) (decomp scan : Nat → UB) (y : Nat) :
    Option (Nat → UB) := do
  let src := i32 (y * stride)
  let filter ← load decomp src
  let row : Row := ⟨src + 1, i32 (y * rowBytes),
    if y > 0 then some (i32 ((y - 1) * rowBytes)) else none⟩
  if rowBytes < 0 ∧ (filter = 0 ∨ filter > 4) then none
  else (List.range rowBytes.toNat).foldlM (unfilterByte bpp filter row decomp) scan

-- Unfilter scanlines
def unfilter (imgW imgH : Int) (bpp : Nat) (decomp scan : Nat → UB) : Option (Nat → UB) :=
  let rowBytes := i32 (imgW * bpp)
  let stride := i32 (rowBytes + 1)
  (List.range imgH.toNat).foldlM (unfilterRow bpp rowBytes stride decomp) scan

-- `dev->pixels[i] = col`
def plot (dev : Gdev Nat) (i : Int) (col : Nat) : Option (Gdev Nat) :=
  if 0 ≤ i ∧ i < dev.width * dev.height then some (dev.set i col) else none

def rgb (r g b : UB) : Nat := 0xFF000000 ||| r.toNat <<< 16 ||| g.toNat <<< 8 ||| b.toNat

-- A pixel of a row, drawn unless it is nearly transparent.
def drawPixel (v : ImageView) (imgW imgH : Int) (bpp : Nat) (scan : Nat → UB) (y : Nat)
    (dev : Gdev Nat) (x : Nat) : Option (Gdev Nat) :=
  if v.Draws imgW imgH x y then
    let pix := i32 (y * i32 (imgW * bpp)) + i32 (x * bpp)
    let out := v.outY y * dev.width + v.outX imgW x
    if bpp = 4 then do
      let r ← load scan pix
      let g ← load scan (pix + 1)
      let b ← load scan (pix + 2)
      let a ← load scan (pix + 3)
      if a < 16 then some dev else plot dev out (rgb r g b)
    else if bpp = 3 then do
      let r ← load scan pix
      let g ← load scan (pix + 1)
      let b ← load scan (pix + 2)
      plot dev out (rgb r g b)
    else do
      let v ← load scan pix
      plot dev out (rgb v v v)
  else some dev

def drawImage (v : ImageView) (imgW imgH : Int) (bpp : Nat) (scan : Nat → UB) (dev : Gdev Nat) :
    Option (Gdev Nat) :=
  (List.range imgH.toNat).foldlM (fun dev y =>
    (List.range imgW.toNat).foldlM (drawPixel v imgW imgH bpp scan y) dev) dev

-- s_png_decomp_buf with the output in front of what is there from before
def overlay (out : List UB) (stale : Nat → UB) (i : Nat) : UB := out.getD i (stale i)

-- What decode_and_draw_png does behind the loop over the chunks: the device and the result,
-- nothing where an index is outside its array.
def decodeAndDrawPng (z : Zlib) (dev : Gdev Nat) (dstX dstY maxW maxH : Int)
    (decomp scan : Nat → UB) (s : Chunks) : Option (Gdev Nat × ER) :=
  if s.imgW ≤ 0 ∨ s.imgH ≤ 0 ∨ s.idat.length = 0 then some (dev, -1)
  else
    match z.uncompress s.idat maxPngRaw with
    | none => some (dev, -2)
    | some out => do
      let bpp := bytesPerPixel s.colorType
      let v : ImageView := ⟨dev.width, dev.height, dstX, dstY, maxW, maxH⟩
      let scan ← unfilter s.imgW s.imgH bpp (overlay out decomp) scan
      let dev ← drawImage v s.imgW s.imgH bpp scan dev
      some (dev, 0)

end BTron.Png
