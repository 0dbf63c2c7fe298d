import BTron.Lib.CString
import BTron.Lib.Relaxation
import BTron.Mozc.Tables
import BTron.TronCode

namespace BTron.Mozc

open Lib Lib.Relaxation
open TronCode (threeBytes)

-- tip.h
def maxClauses : Nat := 32
def maxCandidates : Nat := 16

-- TIP_CANDIDATE
structure TipCandidate where
  value : List UB
  annotation : List UB
  cost : Nat

-- TIP_CLAUSE. The candidates are the first num_candidates ones of the array.
structure TipClause where
  reading : List UB
  converted : List UB
  candidates : List TipCandidate
  selectedCandidate : Nat

def TipClause.zero : TipClause := ⟨[], [], [], 0⟩

def TipClause.numCandidates (c : TipClause) : Nat := c.candidates.length

-- Text is appended as long as the terminator fits behind it.
def put (maxLen : Nat) (out text : List UB) : List UB :=
  if out.length + text.length < maxLen then out ++ text else out

def lowerRomaji (c : UB) : UB := if 0x41 ≤ c ∧ c ≤ 0x5A then c - 0x41 + 0x61 else c

-- The loop of mozc_romaji_to_hiragana over the rest of the romaji; every turn takes a letter.
def romajiLoop (maxLen : Nat) : Nat → List UB → List UB → List UB
  | 0, _, out => out
  | _, [], out => out
  | fuel + 1, c :: rest, out =>
    if ¬out.length + 4 < maxLen then out
    else if rest.head? = some c ∧ c ∉ lit "aiueon" then
      romajiLoop maxLen fuel rest (put maxLen out (lit "っ"))
    else if c = 0x6E ∧ (rest.head? = some 0x6E ∨ rest.head? = some 0x27) then
      romajiLoop maxLen fuel rest.tail (put maxLen out (lit "ん"))
    else if c = 0x6E ∧ rest.head?.all (· ∉ lit "aiueoy") then
      romajiLoop maxLen fuel rest (put maxLen out (lit "ん"))
    else
      match romajiTable.find? fun e => e.1.isPrefixOf (c :: rest) with
      | some (romaji, hiragana) =>
        romajiLoop maxLen fuel ((c :: rest).drop romaji.length) (put maxLen out hiragana)
      | none => romajiLoop maxLen fuel rest (out ++ [c])

def romajiToHiragana (romaji : List UB) (maxLen : Nat) : List UB :=
  let lower := (romaji.take 255).map lowerRomaji
  romajiLoop maxLen lower.length lower []

-- A string in memory, with what lies behind its terminator.
def inMemory (s : List UB) (behind : Memory) : Memory := fun k =>
  if k < s.length then s.getD k 0 else if k = s.length then 0 else behind (k - s.length - 1)

-- The code point of the three bytes at `i`.
def threeByteChar (p : Memory) (i : Nat) : Nat :=
  (((p i).toNat &&& 0x0F) <<< 12) ||| (((p (i + 1)).toNat &&& 0x3F) <<< 6) |||
    ((p (i + 2)).toNat &&& 0x3F)

-- The loop of mozc_hiragana_to_katakana; every turn writes a byte.
def katakanaLoop (p : Memory) (maxLen : Nat) : Nat → Nat → List UB → List UB
  | 0, _, out => out
  | fuel + 1, i, out =>
    if ¬(p i ≠ 0 ∧ out.length + 4 < maxLen) then out
    else if p i = 0xE3 ∧ (p (i + 1) = 0x81 ∨ p (i + 1) = 0x82) ∧
        0x3041 ≤ threeByteChar p i ∧ threeByteChar p i ≤ 0x3096 then
      katakanaLoop p maxLen fuel (i + 3) (out ++ threeBytes (threeByteChar p i + 0x60))
    else katakanaLoop p maxLen fuel (i + 1) (out ++ [p i])

-- A sequence that the end of the string cuts off is read across the terminator.
def hiraganaToKatakana (behind : Memory) (hiragana : List UB) (maxLen : Nat) : List UB :=
  katakanaLoop (inMemory hiragana behind) maxLen maxLen 0 []

-- The loop of mozc_hiragana_to_halfwidth_katakana. A character without a halfwidth form is skipped
-- and the byte behind it copied, also when that is the terminator.
def halfwidthLoop (p : Memory) (maxLen : Nat) : Nat → Nat → List UB → List UB
  | 0, _, out => out
  | fuel + 1, i, out =>
    if ¬(p i ≠ 0 ∧ out.length + 6 < maxLen) then out
    else if p i = 0xE3 then
      match halfwidthTable.find? fun e => e.1 = threeByteChar p i with
      | some (_, hk) => halfwidthLoop p maxLen fuel (i + 3) (put maxLen out hk)
      | none => halfwidthLoop p maxLen fuel (i + 4) (out ++ [p (i + 3)])
    else halfwidthLoop p maxLen fuel (i + 1) (out ++ [p i])

-- `behind` follows the hiragana in memory, and `rest` the text in kata_buf.
def hiraganaToHalfwidthKatakana (behind rest : Memory) (hiragana : List UB) (maxLen : Nat) :
    List UB :=
  cstr (halfwidthLoop (inMemory (hiraganaToKatakana behind hiragana 256) rest) maxLen maxLen 0 [])

def fullwidthChar (c : UB) : List UB :=
  if c = 0x20 then [0xE3, 0x80, 0x80]
  else if 0x21 ≤ c ∧ c ≤ 0x7E then threeBytes (0xFF01 + (c.toNat - 0x21))
  else [c]

def fullwidthLoop (maxLen : Nat) : List UB → List UB → List UB
  | [], out => out
  | c :: ascii, out =>
    if out.length + 4 < maxLen then fullwidthLoop maxLen ascii (out ++ fullwidthChar c) else out

def alphanumericToFullwidth (ascii : List UB) (maxLen : Nat) : List UB :=
  fullwidthLoop maxLen ascii []

-- MozcEntry
structure MozcEntry where
  reading : List UB
  value : List UB
  annotation : List UB
  pos : MozcPos
  unigramCost : Nat

-- An entry as mozc_register_user_word leaves it.
structure MozcEntry.Registered (e : MozcEntry) : Prop where
  reading_length : e.reading.length ≤ 63
  reading_string : 0 ∉ e.reading
  pos_noun : e.pos = .noun
  cost_le : e.unigramCost ≤ 500

def maxUserEntries : Nat := 128

-- g_user_dictionary and g_num_user_entries
structure UserDictionary where
  entries : List MozcEntry
  length_le : entries.length ≤ maxUserEntries
  registered : ∀ e ∈ entries, e.Registered

-- mozc_engine_init and mozc_engine_cleanup
def UserDictionary.empty : UserDictionary := ⟨[], by decide, by simp⟩

-- The first entry with the reading and the value gets the cost of a frequent word.
def boost (reading value : List UB) : List MozcEntry → Option (List MozcEntry)
  | [] => none
  | e :: es =>
    if e.reading = reading ∧ e.value = value then some ({ e with unigramCost := 400 } :: es)
    else (boost reading value es).map (e :: ·)

theorem boost_spec {reading value : List UB} {es es' : List MozcEntry}
    (h : boost reading value es = some es') :
    es'.length = es.length ∧
      ∀ e ∈ es', e ∈ es ∨ ∃ d ∈ es, e = { d with unigramCost := 400 } := by
  induction es generalizing es' with
  | nil => simp [boost] at h
  | cons d es ih =>
      unfold boost at h
      split_ifs at h
      · cases h
        refine ⟨rfl, fun e he => ?_⟩
        obtain rfl | he := List.mem_cons.mp he
        · exact .inr ⟨d, List.mem_cons_self, rfl⟩
        · exact .inl (List.mem_cons_of_mem d he)
      · obtain ⟨es'', hrest, rfl⟩ := Option.map_eq_some_iff.mp h
        obtain ⟨hlen, hmem⟩ := ih hrest
        refine ⟨by simp [hlen], fun e he => ?_⟩
        obtain rfl | he := List.mem_cons.mp he
        · exact .inl List.mem_cons_self
        · obtain he | ⟨b, hb, rfl⟩ := hmem e he
          · exact .inl (List.mem_cons_of_mem d he)
          · exact .inr ⟨b, List.mem_cons_of_mem d hb, rfl⟩

def newEntry (reading value : List UB) ( annotation : Option (List UB)) : MozcEntry :=
  ⟨strncpy reading 63, strncpy value 63, strncpy ( annotation.getD (lit "user")) 63, .noun, 500⟩

theorem newEntry_registered (reading value : List UB) ( annotation : Option (List UB)) :
    (newEntry reading value annotation).Registered where
  reading_length := by simp [newEntry, strncpy]
  reading_string := zero_notMem_strncpy reading 63
  pos_noun := rfl
  cost_le := Nat.le_refl 500

-- NULL is `none`.
def registerUserWord (d : UserDictionary) (reading value annotation : Option (List UB)) :
    UserDictionary × ER :=
  match reading, value with
  | none, _ => (d, E_PAR)
  | some _, none => (d, E_PAR)
  | some reading, some value =>
    if hfull : maxUserEntries ≤ d.entries.length then (d, E_PAR)
    else
      match hboost : boost reading value d.entries with
      | some es =>
        (⟨es, by rw [(boost_spec hboost).1]; exact d.length_le, fun e he => by
          obtain he | ⟨b, hb, rfl⟩ := (boost_spec hboost).2 e he
          · exact d.registered e he
          · have h := d.registered b hb
            exact ⟨h.reading_length, h.reading_string, h.pos_noun, by simp⟩⟩, E_OK)
      | none =>
        (⟨d.entries ++ [newEntry reading value annotation],
          by rw [List.length_append, List.length_singleton]; omega, fun e he => by
            obtain he | he := List.mem_append.mp he
            · exact d.registered e he
            · rw [List.mem_singleton.mp he]
              exact newEntry_registered reading value annotation⟩, E_OK)

def pushCandidate (max : Nat) (cs : List TipCandidate) (value annotation : List UB) (cost : Nat) :
    List TipCandidate :=
  if cs.length < max then cs ++ [⟨strncpy value 63, strncpy annotation 63, cost⟩] else cs

-- Values that are there already are not repeated.
def pushNew (max : Nat) (cs : List TipCandidate) (value annotation : List UB) (cost : Nat) :
    List TipCandidate :=
  if cs.any (·.value == value) then cs else pushCandidate max cs value annotation cost

-- `behind` follows the reading in memory.
def getCandidates (d : UserDictionary) (behind : Memory) (reading : List UB) (max : Nat) :
    List TipCandidate :=
  let user := (d.entries.filter (·.reading == reading)).foldl
    (fun cs e => pushCandidate max cs e.value e.annotation e.unigramCost) []
  let system := (systemDictionary.filter (·.reading == reading)).foldl
    (fun cs e => pushNew max cs e.value e.annotation e.cost) user
  let hira := pushNew max system reading (lit "hiragana") 3000
  pushNew max hira (hiraganaToKatakana behind reading 64) (lit "katakana") 3200

def getTransitionCost (p1 p2 : MozcPos) : Nat :=
  (posTransitionCosts.getD p1.ctorIdx []).getD p2.ctorIdx 1000

-- The length a first byte announces.
def charLen (c : UB) : Nat :=
  if c &&& 0x80 = 0 then 1
  else if c &&& 0xE0 = 0xC0 then 2
  else if c &&& 0xF0 = 0xE0 then 3
  else if c &&& 0xF8 = 0xF0 then 4
  else 1

-- The dictionary words the rest of the reading starts with.
def userEdges (d : UserDictionary) (rest : List UB) : List (Edge MozcPos) :=
  (d.entries.filter (·.reading.isPrefixOf rest)).map fun e =>
    ⟨e.reading.length, e.pos, e.unigramCost⟩

def systemEdges (rest : List UB) : List (Edge MozcPos) :=
  (systemDictionary.filter (·.reading.isPrefixOf rest)).map fun e =>
    ⟨e.reading.length, e.pos, e.cost⟩

-- The single character it starts with, if it is all there.
def fallbackEdge (hasDictMatch : Bool) : List UB → List (Edge MozcPos)
  | [] => []
  | c :: rest =>
    if charLen c ≤ rest.length + 1 then
      [⟨charLen c, .noun, if hasDictMatch then 3500 else 2000⟩]
    else []

def edgesAt (d : UserDictionary) (reading : List UB) (i : Nat) : List (Edge MozcPos) :=
  let rest := reading.drop i
  let words := userEdges d rest ++ systemEdges rest
  words ++ fallbackEdge (!words.isEmpty) rest

def latticeDp (d : UserDictionary) (reading : List UB) : Table MozcPos :=
  scan getTransitionCost 9999999 (edgesAt d reading) .bos reading.length

def clauseOf (d : UserDictionary) (reading : List UB) : TipClause :=
  let candidates := getCandidates d (fun _ => 0) reading maxCandidates
  { reading := reading
    converted := strncpy ((candidates.head?.map (·.value)).getD reading) 63
    candidates := candidates
    selectedCandidate := 0 }

-- The spans between the bounds, from the first one on.
def spans (reading : List UB) (bounds : List Nat) : List (List UB) :=
  (bounds.tail.zip bounds).reverse.map fun (start, stop) => (reading.drop start).take (stop - start)

-- The clauses written, for a positive max_clauses.
def latticeSearch (d : UserDictionary) (readingUtf8 : List UB) (max : Nat) : List TipClause :=
  if readingUtf8 = [] then []
  else
    let reading := readingUtf8.take 256
    let dp := latticeDp d reading
    match (dp reading.length).prev with
    | none => [clauseOf d (strncpy readingUtf8 63)]
    | some _ =>
      ((spans reading (cuts dp maxClauses reading.length)).map fun span =>
        clauseOf d (span.take 63)).take max

end BTron.Mozc
