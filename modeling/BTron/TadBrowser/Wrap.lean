import BTron.TronCode.Width

namespace BTron.TadBrowser

open Lib Lib.Logged TronCode
open Editor (tcGetCharAdvance)
open Graphics (asH)

-- The characters that do not begin a line.
def isCjkNoBreakBefore (code : TC) : Bool :=
  if [0x2E, 0x2C, 0x21, 0x3F, 0x3A, 0x3B, 0x29, 0x5D, 0x7D].contains code then true
  else if code >>> 8 = 0x21 then
    let low := code &&& 0xFF
    if 0x22 ≤ low ∧ low ≤ 0x2A then true
    else if low = 0x3C then true
    else [0x4B, 0x4D, 0x4F, 0x51, 0x53, 0x55, 0x57, 0x59, 0x5B].contains low
  else false

-- What the callback is given: the bytes of the buffer before its terminator, the width and the
-- index of the line.
structure WrapLine where
  buf : List UB
  w : Int
  lineIdx : Nat
deriving DecidableEq

-- The heads of the two loops: the one over the characters, and the one inside it that skips the
-- spaces at the front of a wrapped line.
inductive WrapPoint
  | character
  | spaces
deriving DecidableEq

structure Wrap where
  point : WrapPoint
  p : Nat
  lineStart : Nat
  lastBreak : Option Nat
  lastBreakW : Int
  curLineW : Int
  prevCode : TC
  lineIdx : Nat
  calls : List WrapLine
deriving DecidableEq

def Wrap.start : Wrap := ⟨.character, 0, 0, none, 0, 0, 0, 0, []⟩

-- The line up to `breakPt` goes to the callback, at most 511 bytes of it.
def Wrap.emit (s : Wrap) (utf8Text : Memory) (cb : Bool) (breakPt : Nat) (w : Int) :
    Logged Wrap :=
  if cb then do
    let buf ← readBlock utf8Text s.lineStart (min (breakPt - s.lineStart) 511)
    pure { s with lineIdx := s.lineIdx + 1, calls := s.calls ++ [⟨buf, w, s.lineIdx⟩] }
  else
    pure { s with lineIdx := s.lineIdx + 1 }

-- The next line starts at `p`.
def Wrap.newLine (s : Wrap) (p : Nat) : Wrap :=
  { s with
    point := .character, p := p, lineStart := p, lastBreak := none, lastBreakW := 0
    curLineW := 0, prevCode := 0 }

-- `last_break` and `last_break_w` behind the character at `p`.
def Wrap.candidate (s : Wrap) (b : UB) (code : TC) (step : Nat) (adv : Int) : Option Nat × Int :=
  if b = 0x20 then (some s.p, s.curLineW)
  else if b = 0x2D ∨ b = 0x2F then (some (s.p + 1), asH (s.curLineW + adv))
  else if code >>> 8 = 0x6F ∧ code &&& 0xFF = 0x0B then
    (some (s.p + step), asH (s.curLineW + adv))
  else if adv = 16 ∧ s.prevCode ≠ 0 ∧ ¬isCjkNoBreakBefore code then (some s.p, s.curLineW)
  else (s.lastBreak, s.lastBreakW)

-- `break_pt` and `break_w`
def Wrap.breakAt (s : Wrap) (lastBreak : Option Nat × Int) : Nat × Int :=
  match lastBreak.1 with
  | none => (s.p, s.curLineW)
  | some pt => if pt ≤ s.lineStart then (s.p, s.curLineW) else (pt, lastBreak.2)

-- The end of tad_browser_wrap_text: the rest of the text is the last line.
def Wrap.finish (s : Wrap) (utf8Text : Memory) (cb : Bool) : Logged (Nat × List WrapLine) := do
  if s.p > s.lineStart ∨ s.lineIdx = 0 then
    let s ← s.emit utf8Text cb s.p s.curLineW
    pure (s.lineIdx, s.calls)
  else
    pure (s.lineIdx, s.calls)

-- A turn at a newline character `b`. The second byte of "\r\n" goes with the first.
def Wrap.newlineTurn (s : Wrap) (utf8Text : Memory) (cb : Bool) (b : UB) : Logged Wrap := do
  let s ← s.emit utf8Text cb s.p s.curLineW
  let next ← read utf8Text (s.p + 1)
  pure (s.newLine (if next = 0x0A ∧ b = 0x0D then s.p + 2 else s.p + 1))

-- A turn at any other character, which starts with the byte `b`.
def Wrap.charTurn (s : Wrap) (utf8Text : Memory) (maxW : Int) (cb : Bool) (b : UB) :
    Logged Wrap := do
  let code ← utf8ToTc utf8Text s.p
  let step := stepOf code.2
  let adv := tcGetCharAdvance code.1 s.prevCode
  let lastBreak := s.candidate b code.1 step adv
  if s.curLineW + adv > maxW ∧ s.curLineW > 0 then do
    let (breakPt, breakW) := s.breakAt lastBreak
    let s ← s.emit utf8Text cb breakPt breakW
    pure { s with point := .spaces, p := breakPt }
  else
    pure { s with
      p := s.p + step, lastBreak := lastBreak.1, lastBreakW := lastBreak.2
      curLineW := asH (s.curLineW + adv), prevCode := prevAfter code.1 s.prevCode adv }

def wrapTurn (utf8Text : Memory) (maxW : Int) (cb : Bool) (s : Wrap) :
    Logged (Wrap ⊕ Nat × List WrapLine) := do
  let b ← read utf8Text s.p
  match s.point with
  | .spaces => pure (.inl (if b = 0x20 then { s with p := s.p + 1 } else s.newLine s.p))
  | .character =>
    if b = 0 then do
      let r ← s.finish utf8Text cb
      pure (.inr r)
    else if b = 0x0A ∨ b = 0x0D then do
      let s ← s.newlineTurn utf8Text cb b
      pure (.inl s)
    else do
      let s ← s.charTurn utf8Text maxW cb b
      pure (.inl s)

-- The number of lines and the calls of the callback, which are none where it is NULL.
def tadBrowserWrapText (fuel : Nat) (utf8Text : Memory) (maxW : Int) (cb : Bool) :
    Logged (Option (Nat × List WrapLine)) := do
  let b ← read utf8Text 0
  if b = 0 then pure (some (1, if cb then [⟨[], 0, 0⟩] else []))
  else loop (wrapTurn utf8Text (if maxW < 40 then 40 else maxW) cb) fuel Wrap.start

-- The state behind the call of the callback.
def Wrap.emitted (s : Wrap) (text : Memory) (cb : Bool) (breakPt : Nat) (w : Int) : Wrap :=
  { s with
    lineIdx := s.lineIdx + 1
    calls := if cb then
        s.calls ++ [⟨(readBlock text s.lineStart (min (breakPt - s.lineStart) 511)).val, w,
          s.lineIdx⟩]
      else s.calls }

theorem Wrap.emit_val (s : Wrap) (text : Memory) (cb : Bool) (breakPt : Nat) (w : Int) :
    (s.emit text cb breakPt w).val = s.emitted text cb breakPt w := by
  unfold Wrap.emit Wrap.emitted
  cases cb <;> rfl

-- The character at `p`.
def Wrap.code (s : Wrap) (text : Memory) : TC := (utf8ToTc text s.p).val.1

def Wrap.step (s : Wrap) (text : Memory) : Nat := stepOf (utf8ToTc text s.p).val.2

def Wrap.adv (s : Wrap) (text : Memory) : Int := tcGetCharAdvance (s.code text) s.prevCode

def Wrap.last (s : Wrap) (text : Memory) : Option Nat × Int :=
  s.candidate (text s.p) (s.code text) (s.step text) (s.adv text)

-- The character would go over the width of the line.
def Wrap.Overflows (s : Wrap) (text : Memory) (maxW : Int) : Prop :=
  s.curLineW + s.adv text > maxW ∧ s.curLineW > 0

instance (s : Wrap) (text : Memory) (maxW : Int) : Decidable (s.Overflows text maxW) :=
  inferInstanceAs (Decidable (_ ∧ _))

-- The place and the width at which the line is broken before or behind the character at `p`.
def Wrap.break (s : Wrap) (text : Memory) : Nat × Int := s.breakAt (s.last text)

def Wrap.afterNewline (s : Wrap) (text : Memory) : Nat :=
  if text (s.p + 1) = 0x0A ∧ text s.p = 0x0D then s.p + 2 else s.p + 1

def IsNewline (b : UB) : Prop := b = 0x0A ∨ b = 0x0D

-- Everything a turn can do but end the loop.
inductive Wrap.Turn (text : Memory) (maxW : Int) (cb : Bool) (s : Wrap) : Wrap → Prop
  | skip : s.point = .spaces → text s.p = 0x20 → Turn text maxW cb s { s with p := s.p + 1 }
  | resume : s.point = .spaces → text s.p ≠ 0x20 → Turn text maxW cb s (s.newLine s.p)
  | newline : s.point = .character → text s.p ≠ 0 → IsNewline (text s.p) →
      Turn text maxW cb s
        ((s.emitted text cb s.p s.curLineW).newLine (s.afterNewline text))
  | wrap : s.point = .character → text s.p ≠ 0 → ¬IsNewline (text s.p) →
      s.Overflows text maxW →
      Turn text maxW cb s
        { s.emitted text cb (s.break text).1 (s.break text).2 with
          point := .spaces, p := (s.break text).1 }
  | pass : s.point = .character → text s.p ≠ 0 → ¬IsNewline (text s.p) →
      ¬s.Overflows text maxW →
      Turn text maxW cb s
        { s with
          p := s.p + s.step text, lastBreak := (s.last text).1, lastBreakW := (s.last text).2
          curLineW := asH (s.curLineW + s.adv text)
          prevCode := prevAfter (s.code text) s.prevCode (s.adv text) }

theorem wrapTurn_next {text : Memory} {maxW : Int} {cb : Bool} {s t : Wrap}
    (h : (wrapTurn text maxW cb s).val = .inl t) : s.Turn text maxW cb t := by
  rw [wrapTurn, val_read_bind] at h
  cases hpoint : s.point with
  | spaces =>
      rw [hpoint] at h
      cases h
      split
      · have hskip : s.Turn text maxW cb { s with p := s.p + 1 } := .skip hpoint ‹_›
        rwa [hpoint] at hskip
      · exact .resume hpoint ‹_›
  | character =>
      rw [hpoint] at h
      dsimp only at h
      rw [val_ite] at h
      split at h
      · cases h
      rename_i hne
      rw [val_ite] at h
      split at h
      · rename_i hnl
        cases h
        rw [Wrap.newlineTurn, val_bind, Wrap.emit_val, val_read_bind]
        exact .newline hpoint hne hnl
      · rename_i hnl
        cases h
        rw [Wrap.charTurn, val_bind, val_ite]
        split
        · rename_i hover
          rw [val_bind, Wrap.emit_val]
          exact .wrap hpoint hne hnl hover
        · rename_i hover
          exact .pass hpoint hne hnl hover

theorem wrapTurn_stop {text : Memory} {maxW : Int} {cb : Bool} {s : Wrap}
    {r : Nat × List WrapLine} (h : (wrapTurn text maxW cb s).val = .inr r) :
    s.point = .character ∧ text s.p = 0 ∧ (s.finish text cb).val = r := by
  rw [wrapTurn, val_read_bind] at h
  cases hpoint : s.point with
  | spaces =>
      rw [hpoint] at h
      cases h
  | character =>
      rw [hpoint] at h
      dsimp only at h
      rw [val_ite] at h
      split at h
      · rename_i h0
        exact ⟨rfl, h0, Sum.inr.inj h⟩
      · rw [val_ite] at h
        split at h <;> cases h

end BTron.TadBrowser
