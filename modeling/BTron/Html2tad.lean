import BTron.TadBrowser.Document

namespace BTron.Html2tad

open TadBrowser

-- What parse_html makes of a page.
inductive Element where
  | h1 (title : String)
  | h2 (title : String)
  | h3 (title : String)
  | h4 (title : String)
  | p (text : String)
  | pre (code : String)
  | ul (items : List String)
  | ol (items : List String)
  | table (rows : List (List String))
  | link (href label : String)
  | image (src alt : String)
  | hr
  | text (text : String)

-- The hash function of the runtime and the file system the compiler looks into.
structure Env where
  phash2 : String → Nat → Nat
  phash2_lt : ∀ term range, 0 < range → phash2 term range < range
  fileExists : String → Bool
  readFile : String → Option (List UB)
  pathJoin : String → String → String

def be16 (n : Nat) : List UB := [UInt8.ofNat (n / 256), UInt8.ofNat n]

-- make_segment(0xFF00 + tag, payload)
def makeSegment (tag : UB) (payload : List UB) : Segment := ⟨tag, payload⟩

def segPage (width height marginL marginT : Nat) : Segment :=
  makeSegment 0xA0 ([0, 0] ++ be16 height ++ be16 width ++ be16 marginT ++ be16 marginT ++
    be16 marginL ++ be16 marginL)

def segFont (fontId plane : Nat) : Segment :=
  makeSegment 0xA2 ([0] ++ be16 fontId ++ [UInt8.ofNat plane])

def segChar (sizePt weight colorRgb : Nat) : Segment :=
  makeSegment 0xA3 ([0] ++ be16 sizePt ++ be16 weight ++ be32 colorRgb)

def segRuler (linePitch indent : Nat) : Segment :=
  makeSegment 0xA1 ([0] ++ be16 linePitch ++ be16 indent)

def segVobj (targetId : Nat) (label path : String) : Segment :=
  makeSegment 0xA8 ([0] ++ be32 targetId ++ be16 (utf8 label).length ++ utf8 label ++
    be16 (utf8 path).length ++ utf8 path)

def segHr (width : Nat) : Segment :=
  makeSegment 0xB0 ([1, 0] ++ be32 0x888888 ++ be16 0 ++ be16 0 ++ be16 width ++ be16 0)

def segImage (src caption : String) (width height type : Nat) : Segment :=
  makeSegment 0xB0 ([10] ++ be16 width ++ be16 height ++ [UInt8.ofNat type] ++
    be16 (utf8 caption).length ++ utf8 caption ++ be16 (utf8 src).length ++ utf8 src)

def segText (text : String) : List UB := utf8 (text ++ "\n")

def le16At (bs : List UB) (i : Nat) : Nat := (bs.getD (i + 1) 0).toNat * 256 + (bs.getD i 0).toNat

def be32At (bs : List UB) (i : Nat) : Nat :=
  (((bs.getD i 0).toNat * 256 + (bs.getD (i + 1) 0).toNat) * 256 +
    (bs.getD (i + 2) 0).toNat) * 256 + (bs.getD (i + 3) 0).toNat

-- The size in the header of a GIF or a PNG file.
def getImageDimensions (env : Env) (filePath : String) : Nat × Nat :=
  match env.readFile filePath with
  | none => (480, 140)
  | some bs =>
    if bs.take 3 = utf8 "GIF" ∧ 10 ≤ bs.length then (le16At bs 6, le16At bs 8)
    else if bs.take 8 = [0x89, 0x50, 0x4E, 0x47, 0x0D, 0x0A, 0x1A, 0x0A] ∧
        (bs.drop 12).take 4 = utf8 "IHDR" ∧ 24 ≤ bs.length then (be32At bs 16, be32At bs 20)
    else (480, 140)

-- Path.basename: the last component that is not empty.
def basename (path : String) : String :=
  String.ofList (((path.toList.splitOn '/').filter (· ≠ [])).getLastD [])

def robjId (env : Env) (href : String) : Nat := env.phash2 href 100000 + 1000

def actualPath (env : Env) (baseDir src : String) : String :=
  if baseDir ≠ "" ∧ env.fileExists src = false then env.pathJoin baseDir src else src

-- A call of one of the segment builders.
inductive Call where
  | page (width height marginL marginT : Nat)
  | font (fontId plane : Nat)
  | char (sizePt weight colorRgb : Nat)
  | ruler (linePitch indent : Nat)
  | vobj (targetId : Nat) (label path : String)
  | hr (width : Nat)
  | image (src caption : String) (width height type : Nat)
  | text (text : String)

def Call.item : Call → Item
  | .page width height marginL marginT => .seg (segPage width height marginL marginT)
  | .font fontId plane => .seg (segFont fontId plane)
  | .char sizePt weight colorRgb => .seg (segChar sizePt weight colorRgb)
  | .ruler linePitch indent => .seg (segRuler linePitch indent)
  | .vobj targetId label path => .seg (segVobj targetId label path)
  | .hr width => .seg (segHr width)
  | .image src caption width height type => .seg (segImage src caption width height type)
  | .text s => .text (segText s)

def initSegments : List Call :=
  [.page 800 1200 40 40, .font 0 1, .char 12 400 0x000000, .ruler 22 0]

def tableRow (row : List String) : String := "| " ++ " | ".intercalate row ++ " |"

def bodySegments (env : Env) (baseDir : String) : Element → List Call
  | .h1 title =>
    [.font 1 1, .char 22 700 0x003366, .ruler 32 0, .text ("■ " ++ title), .hr 680,
      .font 0 1, .char 12 400 0x000000, .ruler 22 0]
  | .h2 title =>
    [.font 1 1, .char 16 700 0x002244, .ruler 26 0, .text ("▶ " ++ title),
      .font 0 1, .char 12 400 0x000000, .ruler 22 0]
  | .h3 title =>
    [.font 1 1, .char 14 600 0x333333, .text ("◆ " ++ title), .font 0 1, .char 12 400 0x000000]
  | .h4 title =>
    [.font 1 1, .char 12 600 0x444444, .text ("● " ++ title), .font 0 1, .char 12 400 0x000000]
  | .p text => [.text text]
  | .pre code =>
    [.font 2 1, .char 10 400 0x112233, .ruler 16 20, .text code,
      .font 0 1, .char 12 400 0x000000, .ruler 22 0]
  | .ul items => items.map fun item => .text ("  • " ++ item)
  | .ol items =>
    (items.zipIdx 1).map fun (item, idx) => .text ("  " ++ toString idx ++ ". " ++ item)
  | .table rows =>
    [.font 2 1, .char 10 400 0x000000, .text ("\n".intercalate (rows.map tableRow)),
      .font 0 1, .char 12 400 0x000000]
  | .link href label => [.vobj (robjId env href) label href]
  | .image src alt =>
    let caption := if alt ≠ "" then alt else "BTRON3 Figure / Picture: " ++ basename src
    let size := getImageDimensions env (actualPath env baseDir src)
    [.image src caption size.1 size.2 0]
  | .hr => [.hr 680]
  | .text text => [.text text]

-- The builder calls behind a document.
def calls (env : Env) (baseDir : String) (elements : List Element) : List Call :=
  initSegments ++ elements.flatMap (bodySegments env baseDir)

def items (env : Env) (baseDir : String) (elements : List Element) : List Item :=
  (calls env baseDir elements).map Call.item

def recordTypeMain : Nat := 1

def compileToBinaryTad (env : Env) (baseDir : String) (elements : List Element) : List UB :=
  let payload := itemsBytes (items env baseDir elements)
  be16 recordTypeMain ++ be32 payload.length ++ payload

end BTron.Html2tad
