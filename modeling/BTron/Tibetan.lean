import BTron.Mozc
import BTron.Tibetan.Tables

namespace BTron.Tibetan

open Lib
open Mozc (lit TipCandidate pushCandidate)

-- write_utf8: nothing is written for 0 or where the terminator would not fit behind it.
def writeUtf8 (max : Nat) (out : List UB) (cp : Nat) : List UB :=
  if cp = 0 then out
  else if cp < 0x80 then
    if out.length + 1 ≥ max then out else out ++ [UInt8.ofNat cp]
  else if cp < 0x800 then
    if out.length + 2 ≥ max then out
    else out ++ [UInt8.ofNat (0xC0 ||| cp >>> 6), UInt8.ofNat (0x80 ||| cp &&& 0x3F)]
  else if cp < 0x10000 then
    if out.length + 3 ≥ max then out
    else out ++ [UInt8.ofNat (0xE0 ||| cp >>> 12), UInt8.ofNat (0x80 ||| cp >>> 6 &&& 0x3F),
      UInt8.ofNat (0x80 ||| cp &&& 0x3F)]
  else
    if out.length + 4 ≥ max then out
    else out ++ [UInt8.ofNat (0xF0 ||| cp >>> 18), UInt8.ofNat (0x80 ||| cp >>> 12 &&& 0x3F),
      UInt8.ofNat (0x80 ||| cp >>> 6 &&& 0x3F), UInt8.ofNat (0x80 ||| cp &&& 0x3F)]

-- The first rule with the longest key, of 4 bytes down to 1.
def matchRule (rest : List UB) : Option WylieRule :=
  [4, 3, 2, 1].findSome? fun n =>
    wylieRules.find? fun r => r.key.length = n ∧ r.key.isPrefixOf rest

def stackAfter (key : List UB) (p : Nat) : Nat := if key.head? = some 0x27 then 5 else p + 1

-- The code points a rule writes on stack level `p`, and the level after it.
def applyRule (r : WylieRule) (p : Nat) : List Nat × Nat :=
  match r.val with
  | .tsheg => ([0x0f0b], 0)
  | .dot => ([], 0)
  | .underscore => ([0x0020], 0)
  | .plus => ([], p + 1)
  | .pairSingle base subjoined => ([if p = 0 then base else subjoined], stackAfter r.key p)
  | .pairList base subjoined => (if p = 0 then base else subjoined, stackAfter r.key p)
  | .vowel cp =>
    if r.key = lit "a" then (if p = 0 then [0x0f68] else [], 5)
    else (if p = 0 then [0x0f68, cp] else [cp], 5)
  | .vowelList cps => (cps, 5)
  | .otherInt cp => ([cp], 5)

-- The loop of wylie_to_tibetan over the rest of the input; every turn takes a byte.
def wylieLoop (max : Nat) : Nat → List UB → Nat → List UB → List UB
  | 0, _, _, out => out
  | _, [], _, out => out
  | fuel + 1, c :: rest, p, out =>
    match matchRule (c :: rest) with
    | none => wylieLoop max fuel rest 0 (writeUtf8 max out c.toNat)
    | some r =>
      let (cps, next) := applyRule r (if p > 4 then 0 else p)
      wylieLoop max fuel ((c :: rest).drop r.key.length) next (cps.foldl (writeUtf8 max) out)

def wylieToTibetan (wylie : List UB) (maxOut : Nat) : List UB :=
  wylieLoop maxOut wylie.length wylie 0 []

-- `\xe0\xbc\x8b` and `\xe0\xbc\x8d`
def tsheg : List UB := [0xE0, 0xBC, 0x8B]
def shad : List UB := [0xE0, 0xBC, 0x8D]

-- An empty string stands for NULL, which is treated alike.
def tibetanLookupCandidates (wylie reading : List UB) (max : Nat) : List TipCandidate :=
  let exact :=
    match tibetanLexicon.find? (·.wylie == wylie) with
    | some e => if wylie = [] then [] else pushCandidate max [] e.tibetan e.english 10
    | none => []
  let direct :=
    if reading ≠ [] ∧ (exact.head?.map (·.value)) ≠ some reading then
      pushCandidate max exact reading (lit "Wylie Direct Transliteration") 20
    else exact
  let compound :=
    if wylie = [] then direct
    else (tibetanLexicon.filter fun e => wylie.isPrefixOf e.wylie && e.wylie != wylie).foldl
      (fun cs e => Mozc.pushNew max cs e.tibetan e.english (30 + (e.wylie.length - wylie.length)))
      direct
  let withTsheg :=
    if reading = [] then compound
    else pushCandidate max compound (reading ++ tsheg) (lit "With Syllable Tsheg (་)") 40
  let withShad :=
    if reading = [] then withTsheg
    else pushCandidate max withTsheg (reading ++ shad) (lit "With Verse Shad (།)") 50
  if wylie = [] then withShad else pushCandidate max withShad wylie (lit "Raw Wylie ASCII") 60

end BTron.Tibetan
