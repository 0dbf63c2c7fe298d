import BTron.Tibetan

namespace BTron.Tip

open Lib Mozc Tibetan

-- TIP_INPUT_MODE
inductive TipInputMode where
  | ascii
  | hiragana
  | katakana
  | tibetan
  deriving DecidableEq

-- TIP_DFA_STATE
inductive TipDfaState where
  | idle
  | precomp
  | converting
  | candidateSelect
  deriving DecidableEq

-- TIP_CONTEXT. romaji_len and reading_len are the lengths of the buffers.
structure TipContext where
  mode : TipInputMode
  state : TipDfaState
  romajiBuf : List UB
  readingBuf : List UB
  clauses : Nat → TipClause
  numClauses : Nat
  activeClause : Nat
  candidateWindowVisible : Bool

def tipMaxPrecompLen : Nat := 256

-- event.h
def keyF4 : Nat := 0x4000003D
def keyF6 : Nat := 0x4000003F
def keyF7 : Nat := 0x40000040
def keyF8 : Nat := 0x40000041
def keyF9 : Nat := 0x40000042
def keyF10 : Nat := 0x40000043
def keyRight : Nat := 0x4000004F
def keyLeft : Nat := 0x40000050
def keyDown : Nat := 0x40000051
def keyUp : Nat := 0x40000052
def kmodShift : Nat := 0x0003
def kmodCtrl : Nat := 0x00C0

def tipInit : TipContext where
  mode := .hiragana
  state := .idle
  romajiBuf := []
  readingBuf := []
  clauses _ := .zero
  numClauses := 0
  activeClause := 0
  candidateWindowVisible := false

def tipCancel (c : TipContext) : TipContext :=
  { c with
      state := .idle
      romajiBuf := []
      readingBuf := []
      numClauses := 0
      activeClause := 0
      candidateWindowVisible := false }

def tipSetMode (c : TipContext) (mode : TipInputMode) : TipContext :=
  if c.state ≠ .idle then tipCancel { c with mode := mode } else { c with mode := mode }

def nextMode : TipInputMode → TipInputMode
  | .ascii => .hiragana
  | .hiragana => .katakana
  | .katakana => .tibetan
  | .tibetan => .ascii

def tipToggleMode (c : TipContext) : TipContext := tipCancel { c with mode := nextMode c.mode }

-- The loop over the clauses; one that does not fit is left out.
def joinConverted (maxLen : Nat) (clauses : List TipClause) : List UB :=
  clauses.foldl
    (fun out cl =>
      if out.length + cl.converted.length + 1 < maxLen then out ++ cl.converted else out)
    []

def clauseList (c : TipContext) : List TipClause := (List.range c.numClauses).map c.clauses

-- `out_buf[0] = 0; strncpy(out_buf, text, max_len - 1)` up to the first NUL, if there is one.
def strncpyOut (text : List UB) (maxLen : Nat) : List UB :=
  if maxLen ≤ 1 then [0]
  else if text.length < maxLen - 1 then text ++ [0]
  else text.take (maxLen - 1)

-- What is written to out_buf up to the first NUL, if there is one, for a positive max_len. A
-- reading ends in a whole character, so nothing behind it is read.
def tipGetConvertedText (c : TipContext) (maxLen : Nat) : List UB :=
  match c.state with
  | .idle => [0]
  | .precomp =>
    match c.mode with
    | .katakana => hiraganaToKatakana (fun _ => 0) c.readingBuf maxLen ++ [0]
    | .tibetan => wylieToTibetan c.romajiBuf maxLen ++ [0]
    | _ => strncpyOut c.readingBuf maxLen
  | _ => joinConverted maxLen (clauseList c) ++ [0]

def tipGetCompositionLength (c : TipContext) : Nat :=
  (cstr (tipGetConvertedText c tipMaxPrecompLen)).length

-- The reading of the romaji in a mode.
def transliterate (mode : TipInputMode) (romaji : List UB) : List UB :=
  if mode = .tibetan then wylieToTibetan romaji tipMaxPrecompLen
  else romajiToHiragana romaji tipMaxPrecompLen

-- What tip_process_key leaves, returns, and writes to out_commit.
structure KeyResult where
  context : TipContext
  handled : Bool
  commit : List UB

def handledBy (c : TipContext) : KeyResult := ⟨c, true, [0]⟩

def ignored (c : TipContext) : KeyResult := ⟨c, false, [0]⟩

-- 0 stands for a NULL out_commit and for a max_commit without room.
def commitOf (c : TipContext) (maxCommit : Nat) : List UB :=
  if 0 < maxCommit then tipGetConvertedText c maxCommit else [0]

-- `snprintf(out_commit, max_commit, ...)`
def printed (text : List UB) (maxCommit : Nat) : List UB :=
  if 0 < maxCommit then text.take (maxCommit - 1) ++ [0] else [0]

def inConversion (c : TipContext) : Bool := c.state = .converting ∨ c.state = .candidateSelect

def searchClauses (d : UserDictionary) (c : TipContext) : TipContext :=
  let found := latticeSearch d c.readingBuf maxClauses
  { c with clauses := fun i => found.getD i (c.clauses i), numClauses := found.length }

def convertClauses (c : TipContext) (convert : Nat → TipClause → List UB) : TipContext :=
  { c with clauses := fun i =>
      if i < c.numClauses then { c.clauses i with converted := convert i (c.clauses i) }
      else c.clauses i }

-- What follows a reading in memory and what is left in kata_buf, for each clause.
structure Leftover where
  behind : Nat → Memory
  kataBuf : Nat → Memory

-- F6, F7 and F8 convert each clause in their own way. F7 stops before the end of the reading
-- array, which is zero behind the reading.
def convertAll (d : UserDictionary) (c : TipContext) (convert : Nat → TipClause → List UB) :
    KeyResult :=
  let found := if c.state = .precomp then { searchClauses d c with state := .converting } else c
  handledBy (convertClauses found convert)

def modifyClause (c : TipContext) (i : Nat) (g : TipClause → TipClause) : TipContext :=
  { c with clauses := Function.update c.clauses i (g (c.clauses i)) }

def convertFullwidth (c : TipContext) : TipContext :=
  modifyClause { c with state := .converting, numClauses := 1, activeClause := 0 } 0 fun cl =>
    { cl with
        reading := strncpy c.readingBuf 63
        converted := alphanumericToFullwidth c.romajiBuf 64 }

def toggleKey (c : TipContext) (key modifiers : Nat) : Option KeyResult :=
  if key = 0x20 ∧ modifiers &&& 0x03C3 ≠ 0 ∨ key = 0x100 ∨ key = keyF10 then
    some (handledBy (tipToggleMode c))
  else none

def functionKey (d : UserDictionary) (left : Leftover) (c : TipContext) (key : Nat) :
    Option KeyResult :=
  if c.state ≠ .idle then
    if key = keyF6 then some (convertAll d c fun _ cl => strncpy cl.reading 63)
    else if key = keyF7 then
      some (convertAll d c fun _ cl => hiraganaToKatakana (fun _ => 0) cl.reading 64)
    else if key = keyF8 then
      some (convertAll d c fun i cl =>
        hiraganaToHalfwidthKatakana (left.behind i) (left.kataBuf i) cl.reading 64)
    else if key = keyF9 then some (handledBy (convertFullwidth c))
    else none
  else if key = keyF6 then some (handledBy (tipSetMode c .hiragana))
  else if key = keyF7 then some (handledBy (tipSetMode c .katakana))
  else none

def escapeKey (c : TipContext) (key : Nat) : Option KeyResult :=
  if key = 0x1B then
    some (if c.state ≠ .idle then handledBy (tipCancel c) else ignored c)
  else none

-- The buffers with the last letter typed or taken back.
def setRomaji (c : TipContext) (romaji : List UB) : TipContext :=
  { c with romajiBuf := romaji, readingBuf := transliterate c.mode romaji }

def typed (c : TipContext) (letter : UB) : TipContext :=
  { setRomaji c (c.romajiBuf ++ [letter]) with state := .precomp }

def takeBack (c : TipContext) : TipContext :=
  let c := setRomaji c c.romajiBuf.dropLast
  if c.romajiBuf = [] then { c with state := .idle } else c

def backspaceKey (c : TipContext) (key : Nat) : Option KeyResult :=
  if key = 0x08 then
    match c.state with
    | .candidateSelect =>
      some (handledBy { c with state := .converting, candidateWindowVisible := false })
    | .converting => some (handledBy { c with state := .precomp, candidateWindowVisible := false })
    | .precomp => some (if c.romajiBuf = [] then ignored c else handledBy (takeBack c))
    | .idle => some (ignored c)
  else none

def enterKey (c : TipContext) (key maxCommit : Nat) : Option KeyResult :=
  if key = 0x0D ∨ key = 0x0A then
    if c.state ≠ .idle then some ⟨tipCancel c, true, commitOf c maxCommit⟩ else some (ignored c)
  else none

-- The active clause shows the candidate that `choose` gives for it.
def selectCandidate (c : TipContext) (choose : TipClause → Nat) : TipContext :=
  if 0 < c.numClauses ∧ 0 < (c.clauses c.activeClause).numCandidates then
    modifyClause c c.activeClause fun cl =>
      { cl with
          selectedCandidate := choose cl
          converted := strncpy ((cl.candidates[choose cl]?.map (·.value)).getD []) 63 }
  else c

def nextCandidate (cl : TipClause) : Nat := (cl.selectedCandidate + 1) % cl.numCandidates

def prevCandidate (cl : TipClause) : Nat :=
  (cl.selectedCandidate + cl.numCandidates - 1) % cl.numCandidates

def openPopup (c : TipContext) : TipContext :=
  let candidates := tibetanLookupCandidates c.romajiBuf c.readingBuf maxCandidates
  { modifyClause c 0 fun _ =>
      { reading := strncpy c.readingBuf 63
        converted := strncpy ((candidates.head?.map (·.value)).getD c.readingBuf) 63
        candidates := candidates
        selectedCandidate := 0 } with
    numClauses := 1
    activeClause := 0
    state := .candidateSelect
    candidateWindowVisible := true }

def popupKey (c : TipContext) (key modifiers : Nat) : Option KeyResult :=
  if c.mode = .tibetan ∧
      (key = 0x20 ∧ modifiers &&& (kmodShift ||| kmodCtrl) ≠ 0 ∨ key = 0x09 ∨ key = keyF4) then
    if c.state = .precomp then some (handledBy (openPopup c))
    else if inConversion c then some (handledBy (selectCandidate c nextCandidate))
    else none
  else none

def endsSyllable (text : List UB) : Bool :=
  tsheg.isSuffixOf text || shad.isSuffixOf text || [0xE0, 0xBC, 0x8E].isSuffixOf text

def showCandidates (c : TipContext) : TipContext :=
  { c with state := .candidateSelect, candidateWindowVisible := true }

-- Space in Tibetan mode commits with a tsheg.
def tibetanSpace (c : TipContext) (maxCommit : Nat) : KeyResult :=
  let text := cstr (tipGetConvertedText c 64)
  match c.state with
  | .precomp =>
    ⟨tipCancel c, true, printed (if endsSyllable text then text else text ++ tsheg) maxCommit⟩
  | .idle => ⟨c, true, printed tsheg maxCommit⟩
  | _ => ⟨tipCancel c, true, printed (text ++ tsheg) maxCommit⟩

def startConversion (d : UserDictionary) (c : TipContext) : TipContext :=
  let found := searchClauses d c
  let shown :=
    if c.mode = .katakana then
      convertClauses found fun _ cl => hiraganaToKatakana (fun _ => 0) cl.reading 64
    else found
  { shown with activeClause := 0, state := .converting, candidateWindowVisible := true }

def spaceKey (d : UserDictionary) (c : TipContext) (key modifiers maxCommit : Nat) :
    Option KeyResult :=
  if key = 0x20 ∧ modifiers &&& (kmodShift ||| kmodCtrl) = 0 then
    if c.mode = .tibetan then some (tibetanSpace c maxCommit)
    else if c.state = .precomp then some (handledBy (startConversion d c))
    else if inConversion c then
      some (handledBy (selectCandidate (showCandidates c) nextCandidate))
    else some (ignored c)
  else none

def upKey (c : TipContext) (key modifiers : Nat) : Option KeyResult :=
  if (key = keyUp ∨ key = 0x70 ∧ modifiers &&& kmodCtrl ≠ 0) ∧ inConversion c then
    some (handledBy (selectCandidate (showCandidates c) prevCandidate))
  else none

def downKey (c : TipContext) (key modifiers : Nat) : Option KeyResult :=
  if (key = keyDown ∨ key = 0x6E ∧ modifiers &&& kmodCtrl ≠ 0) ∧ inConversion c then
    some (handledBy (selectCandidate (showCandidates c) nextCandidate))
  else none

def arrowKey (c : TipContext) (key : Nat) : Option KeyResult :=
  if inConversion c ∧ 1 < c.numClauses then
    if key = keyLeft then
      some (handledBy
        { c with activeClause := (c.activeClause + c.numClauses - 1) % c.numClauses })
    else if key = keyRight then
      some (handledBy { c with activeClause := (c.activeClause + 1) % c.numClauses })
    else none
  else none

def numberKey (c : TipContext) (key : Nat) : Option KeyResult :=
  if c.state = .candidateSelect ∧ 0x31 ≤ key ∧ key ≤ 0x39 then
    if 0 < c.numClauses ∧ key - 0x31 < (c.clauses c.activeClause).numCandidates then
      let chosen := selectCandidate c fun _ => key - 0x31
      some (handledBy
        (if c.activeClause + 1 < c.numClauses then
          { chosen with activeClause := c.activeClause + 1 }
        else { chosen with state := .converting, candidateWindowVisible := false }))
    else some (handledBy c)
  else none

def printableKey (c : TipContext) (key maxCommit : Nat) : Option KeyResult :=
  if 32 ≤ key ∧ key ≤ 126 then
    let commit := if inConversion c then commitOf c maxCommit else [0]
    let c := if inConversion c then tipCancel c else c
    if c.romajiBuf.length < tipMaxPrecompLen - 2 then
      some ⟨typed c (UInt8.ofNat key), true, commit⟩
    else some ⟨c, false, commit⟩
  else none

-- The sections of tip_process_key in their order; the first that returns ends it.
def tipProcessKey (d : UserDictionary) (left : Leftover) (c : TipContext)
    (key modifiers maxCommit : Nat) : KeyResult :=
  match toggleKey c key modifiers <|> functionKey d left c key with
  | some r => r
  | none =>
    if c.mode = .ascii then ignored c
    else
      (escapeKey c key <|> backspaceKey c key <|> enterKey c key maxCommit <|>
        popupKey c key modifiers <|> spaceKey d c key modifiers maxCommit <|>
        upKey c key modifiers <|> downKey c key modifiers <|> arrowKey c key <|>
        numberKey c key <|> printableKey c key maxCommit).getD (ignored c)

end BTron.Tip
