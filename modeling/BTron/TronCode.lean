import BTron.Types

namespace BTron.TronCode

open Lib Lib.Logged

-- utf8_to_tc on a two-byte sequence that decodes to `cp`.
def tcOfTwo (cp : Nat) : TC :=
  if 0x0400 ≤ cp ∧ cp ≤ 0x04FF then 0x2700 ||| (cp - 0x0400)
  else if cp = 0x0490 then 0x2790
  else if cp = 0x0491 then 0x2791
  else 0x2000 ||| (cp &&& 0x0FFF)

-- utf8_to_tc on a three-byte sequence that decodes to `cp`.
def tcOfThree (cp : Nat) : TC :=
  if 0x0F00 ≤ cp ∧ cp ≤ 0x0FFF then 0x6F00 ||| (cp - 0x0F00)
  else if 0x3000 ≤ cp ∧ cp ≤ 0x303F then 0x2100 ||| (cp - 0x3000)
  else if 0x3040 ≤ cp ∧ cp ≤ 0x309F then 0x2400 ||| (cp - 0x3040)
  else if 0x30A0 ≤ cp ∧ cp ≤ 0x30FF then 0x2500 ||| (cp - 0x30A0)
  else if 0xFF00 ≤ cp ∧ cp ≤ 0xFFEF then 0x2200 ||| (cp - 0xFF00)
  else if 0x2000 ≤ cp ∧ cp ≤ 0x206F then 0x2600 ||| (cp - 0x2000)
  else if cp = 0x2116 then 0x2116
  else if 0x4E00 ≤ cp ∧ cp ≤ 0x9FFF then
    (0x30 + (cp - 0x4E00) >>> 8) <<< 8 ||| ((cp - 0x4E00) &&& 0xFF)
  else 0xFF00 ||| (cp &&& 0x00FF)

-- The code at offset `i` of a NUL-terminated string, and the bytes consumed.
def utf8ToTc (s : Memory) (i : Nat) : Logged (TC × Nat) := do
  let s0 ← read s i
  if s0 = 0 then
    pure (0, 0)
  else if s0 < 0x80 then
    pure (s0.toNat, 1)
  else if s0 &&& 0xE0 = 0xC0 then do
    let s1 ← read s (i + 1)
    pure (tcOfTwo ((s0.toNat &&& 0x1F) <<< 6 ||| (s1.toNat &&& 0x3F)), 2)
  else if s0 &&& 0xF0 = 0xE0 then do
    let s1 ← read s (i + 1)
    let s2 ← read s (i + 2)
    pure (tcOfThree (((s0.toNat &&& 0x0F) <<< 6 ||| (s1.toNat &&& 0x3F)) <<< 6 |||
      (s2.toNat &&& 0x3F)), 3)
  else if s0 &&& 0xF8 = 0xF0 then do
    let s3 ← read s (i + 3)
    pure (0xFF80 ||| (s3.toNat &&& 0x7F), 4)
  else
    pure (0x3F, 1)

-- The bytes a code point between U+0800 and U+FFFF is written as.
def threeBytes (cp : Nat) : List UB :=
  [UInt8.ofNat (0xE0 ||| ((cp >>> 12) &&& 0x0F)), UInt8.ofNat (0x80 ||| ((cp >>> 6) &&& 0x3F)),
    UInt8.ofNat (0x80 ||| (cp &&& 0x3F))]

-- The bytes written before the terminator; the return value is their number.
def tcToUtf8 (code : TC) (maxLen : Nat) : List UB :=
  if maxLen < 4 then []
  else if code < 0x80 then [UInt8.ofNat code]
  else
    let high := (code >>> 8) &&& 0xFF
    let low := code &&& 0xFF
    if high = 0x6F then threeBytes (0x0F00 + low)
    else if high = 0x27 then
      let cp := if low = 0x91 then 0x0491 else if low = 0x90 then 0x0490 else 0x0400 + low
      [UInt8.ofNat (0xC0 ||| ((cp >>> 6) &&& 0x1F)), UInt8.ofNat (0x80 ||| (cp &&& 0x3F))]
    else if code = 0x2116 then [0xE2, 0x84, 0x96]
    else if high = 0x26 ∧ low ≤ 0x6F then threeBytes (0x2000 + low)
    else if high = 0x21 ∧ low ≤ 0x3F then threeBytes (0x3000 + low)
    else if high = 0x22 ∧ low ≤ 0xEF then threeBytes (0xFF00 + low)
    else if high = 0x24 ∧ low ≤ 0x5F then threeBytes (0x3040 + low)
    else if high = 0x25 ∧ low ≤ 0x5F then threeBytes (0x30A0 + low)
    else if 0x30 ≤ high ∧ high ≤ 0x85 ∧ 0x4E00 + ((high - 0x30) <<< 8 ||| low) ≤ 0x9FFF then
      threeBytes (0x4E00 + ((high - 0x30) <<< 8 ||| low))
    else threeBytes code

-- The loop of utf8_to_tc_string from offset `i`, with room for `n` more codes.
-- The condition reads the byte before it looks at the count.
def utf8ToTcLoop (s : Memory) : Nat → Nat → Logged (List TC)
  | 0, i => do
    let _ ← read s i
    pure []
  | n + 1, i => do
    let b ← read s i
    if b = 0 then pure []
    else do
      let code ← utf8ToTc s i
      let rest ← utf8ToTcLoop s n (i + if 0 < code.2 then code.2 else 1)
      pure (code.1 :: rest)

-- The codes stored before the terminating zero; the return value is their number.
def utf8ToTcString (s : Memory) (maxChars : Nat) : Logged (List TC) :=
  if maxChars = 0 then pure [] else utf8ToTcLoop s (maxChars - 1) 0

def tcToUtf8Loop (maxBytes : Nat) : List TC → List UB → List UB
  | [], out => out
  | code :: codes, out =>
    if code = 0 then out
    else
      let buf := tcToUtf8 code 8
      if maxBytes ≤ out.length + buf.length then out
      else tcToUtf8Loop maxBytes codes (out ++ buf)

-- The bytes stored before the terminator, from the `tc_len` codes given.
def tcToUtf8String (codes : List TC) (maxBytes : Nat) : List UB :=
  if maxBytes = 0 then [] else tcToUtf8Loop maxBytes codes []

end BTron.TronCode
