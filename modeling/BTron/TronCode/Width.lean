import BTron.Editor.Cursor
import BTron.Lib.Loop

namespace BTron.TronCode

open Lib Lib.Logged
open Editor (tcGetCharAdvance charStep utf8ToTc_log)
open Graphics (asH)

-- The code point of a code of the Tibetan block
def tibetanCp (code : TC) : Nat := 0x0F00 + (code &&& 0xFF)

-- A vowel sign or a subjoined consonant, drawn onto the consonant before it.
def IsCombining (cp : Nat) : Prop := (0x0F71 ≤ cp ∧ cp ≤ 0x0F84) ∨ (0x0F90 ≤ cp ∧ cp ≤ 0x0FBC)

instance (cp : Nat) : Decidable (IsCombining cp) := inferInstanceAs (Decidable (_ ∨ _))

-- The previous character as tc_calc_string_width and the line breaking keep track of it.
def prevAfter (code prevCode : TC) (adv : Int) : TC :=
  if adv > 0 ∨ code >>> 8 ≠ 0x6F then code else prevCode

-- The bytes utf8_to_tc consumed, and one byte where it consumed none.
def stepOf (consumed : Nat) : Nat := if 0 < consumed then consumed else 1

structure Measure where
  bi : Nat
  prevCode : TC
  totalW : Int
deriving DecidableEq

-- A turn of the loop of tc_calc_string_width. The byte is read before `bi` is compared.
def calcTurn (utf8Text : Memory) (maxBytes : Nat) (s : Measure) :
    Logged (Measure ⊕ Int) := do
  let b ← read utf8Text s.bi
  if b = 0 ∨ maxBytes ≤ s.bi ∨ b = 0x0A ∨ b = 0x0D then
    pure (.inr s.totalW)
  else do
    let code ← utf8ToTc utf8Text s.bi
    let adv := tcGetCharAdvance code.1 s.prevCode
    pure (.inl ⟨s.bi + stepOf code.2, prevAfter code.1 s.prevCode adv, asH (s.totalW + adv)⟩)

def tcCalcStringWidth (fuel : Nat) (utf8Text : Memory) (maxBytes : Nat) : Logged (Option Int) :=
  if maxBytes = 0 then pure (some 0) else loop (calcTurn utf8Text maxBytes) fuel ⟨0, 0, 0⟩

-- The offsets whose row of font_cyrillic_8x16 has a dot in one of its first eleven lines.
def HasCyrillicGlyph (off : Nat) : Prop :=
  off = 0x01 ∨ off = 0x04 ∨ off = 0x06 ∨ off = 0x07 ∨ (0x10 ≤ off ∧ off ≤ 0x4F) ∨ off = 0x51 ∨
  off = 0x54 ∨ off = 0x56 ∨ off = 0x57 ∨ off = 0x90 ∨ off = 0x91

instance (off : Nat) : Decidable (HasCyrillicGlyph off) := inferInstanceAs (Decidable (_ ∨ _))

-- The code points of g_tibetan_16x16; none of them is in g_tibetan_8x16.
def IsWideTibetan (cp : Nat) : Prop :=
  cp = 0x0F02 ∨ cp = 0x0F03 ∨ (0x0F16 ≤ cp ∧ cp ≤ 0x0F18) ∨ cp = 0x0F3A ∨ cp = 0x0F3B ∨
  cp = 0x0F48 ∨ (0x0F6D ≤ cp ∧ cp ≤ 0x0F70) ∨ cp = 0x0F88 ∨ cp = 0x0F98 ∨ cp = 0x0FBD ∨
  (0x0FC5 ≤ cp ∧ cp ≤ 0x0FCD) ∨ cp = 0x0FD0 ∨ (0x0FD5 ≤ cp ∧ cp ≤ 0x0FFF)

instance (cp : Nat) : Decidable (IsWideTibetan cp) := inferInstanceAs (Decidable (_ ∨ _))

-- The width get_glyph_bitmap gives back; the bitmap is never NULL.
def glyphWidth (code : TC) : Int :=
  if code < 128 then 8
  else if code >>> 8 = 0x6F then
    if IsWideTibetan (tibetanCp code) then 16 else 8
  else if code >>> 8 = 0x27 ∧ HasCyrillicGlyph (code &&& 0xFF) then 8
  else 16

-- What the loops over the rows and columns of a glyph are given.
structure Drawn where
  code : TC
  renderX : Int
  curY : Int
  gw : Int
  advance : Int
  isCombining : Bool
deriving DecidableEq

structure Pen where
  p : Nat
  curX : Int
  curY : Int
  prevAdv : Int
  prevCode : TC
  drawn : List Drawn
deriving DecidableEq

-- How far a character moves the pen.
def drawAdvance (code : TC) : Int :=
  if code >>> 8 = 0x6F then
    let cp := tibetanCp code
    if IsCombining cp then 0
    else if cp = 0x0F0B ∨ cp = 0x0F0C then 3
    else if cp = 0x0F0D ∨ cp = 0x0F0E then 3
    else 8
  else if code = 0x20 then 6
  else glyphWidth code

def isCombining (code : TC) : Bool := code >>> 8 = 0x6F ∧ IsCombining (tibetanCp code)

-- The pen behind one character, whose last byte is before `p`.
def Pen.draw (s : Pen) (code : TC) (p : Nat) : Pen :=
  let advance := drawAdvance code
  let renderX :=
    if isCombining code ∧ s.prevAdv > 0 then asH (s.curX - s.prevAdv) else s.curX
  { p := p
    curX := asH (s.curX + advance)
    curY := s.curY
    prevAdv := if isCombining code then s.prevAdv else advance
    prevCode := if isCombining code then s.prevCode else code
    drawn := s.drawn ++
      [⟨code, renderX, s.curY, glyphWidth code, advance, isCombining code⟩] }

-- A turn of the loop of render_tc_string.
def renderTurn (text : Memory) (x : Int) (s : Pen) : Logged (Pen ⊕ Pen) := do
  let b ← read text s.p
  if b = 0 then
    pure (.inr s)
  else if b = 0x0A then
    pure (.inl { s with
      p := s.p + 1, curX := x, curY := asH (s.curY + 18), prevAdv := 0, prevCode := 0 })
  else do
    let code ← utf8ToTc text s.p
    let p := s.p + stepOf code.2
    if code.1 = 0x20 ∧ s.prevCode = 0x6F0B then pure (.inl { s with p := p })
    else pure (.inl (s.draw code.1 p))

-- The pen behind the last character.
def renderTcString (fuel : Nat) (x y : Int) (text : Memory) : Logged (Option Pen) :=
  loop (renderTurn text x) fuel ⟨0, x, y, 0, 0, []⟩

-- The bytes a character takes by its first byte.
def leadStep (b : UB) : Nat :=
  if b < 0x80 then 1
  else if b &&& 0xE0 = 0xC0 then 2
  else if b &&& 0xF0 = 0xE0 then 3
  else if b &&& 0xF8 = 0xF0 then 4
  else 1

theorem leadStep_pos (b : UB) : 0 < leadStep b := by
  unfold leadStep
  split_ifs <;> decide

theorem leadStep_ascii {b : UB} (h : b < 0x80) : leadStep b = 1 := if_pos h

theorem charStep_eq {text : Memory} {i : Nat} (h : text i ≠ 0) :
    charStep text i = leadStep (text i) := by
  by_cases h1 : text i < 0x80
  · simp [charStep, leadStep, utf8ToTc, h, h1]
  by_cases h2 : text i &&& 0xE0 = 0xC0
  · simp [charStep, leadStep, utf8ToTc, h, h1, h2]
  by_cases h3 : text i &&& 0xF0 = 0xE0
  · simp [charStep, leadStep, utf8ToTc, h, h1, h2, h3]
  by_cases h4 : text i &&& 0xF8 = 0xF0
  · simp [charStep, leadStep, utf8ToTc, h, h1, h2, h3, h4]
  · simp [charStep, leadStep, utf8ToTc, h, h1, h2, h3, h4]

end BTron.TronCode
