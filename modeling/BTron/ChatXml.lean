import BTron.Lib.CString
import BTron.Lib.Search
import BTron.Lib.Utf8
import BTron.Types

namespace BTron.ChatXml

open Lib

def MAX_XML_ATTRS : Nat := 8
def MAX_XML_CHILDREN : Nat := 16
def MAX_XML_TAG_LEN : Nat := 32
def MAX_XML_VAL_LEN : Nat := 128
def MAX_XML_DATA_LEN : Nat := 512
def CHAT_MAX_LINE_LEN : Nat := 256
def CHAT_MAX_JID_LEN : Nat := 64
def CHAT_MAX_ROOM_LEN : Nat := 32

def ascii (s : String) : List UB := Utf8.bytes s.toList

structure Attr where
  key : List UB
  val : List UB

-- ChatXmlNode. The strings are without their NUL.
inductive Node
  | mk (tag : List UB) (attrs : List Attr) (cdata : List UB) (children : List Node)

-- Allocation succeeds.
def chatXmlNodeAlloc (tag : List UB) : Node :=
  .mk (strncpy tag (MAX_XML_TAG_LEN - 1)) [] [] []

def chatXmlAddAttr : Node → List UB → List UB → Node
  | .mk tag attrs cdata children, key, val =>
    if attrs.length ≥ MAX_XML_ATTRS then .mk tag attrs cdata children
    else
      let attr := ⟨strncpy key (MAX_XML_TAG_LEN - 1), strncpy val (MAX_XML_VAL_LEN - 1)⟩
      .mk tag (attrs ++ [attr]) cdata children

def chatXmlAddChild : Node → Node → Node
  | .mk tag attrs cdata children, child =>
    if children.length ≥ MAX_XML_CHILDREN then .mk tag attrs cdata children
    else .mk tag attrs cdata (children ++ [child])

-- `strncpy(node->cdata, text, sizeof(node->cdata) - 1)`
def Node.setCdata : Node → List UB → Node
  | .mk tag attrs _ children, text => .mk tag attrs (strncpy text (MAX_XML_DATA_LEN - 1)) children

-- `strncat(out, s, size - strlen(out) - 1)`
def strncat (size : Nat) (out s : List UB) : List UB := out ++ s.take (size - out.length - 1)

def attrText (attr : Attr) : List UB :=
  (0x20 :: attr.key ++ [0x3D, 0x22] ++ attr.val ++ [0x22]).take 127

-- The header of the node, up to its last attribute.
def header (tag : List UB) (attrs : List Attr) : List UB :=
  attrs.foldl (fun hdr attr => strncat 256 hdr (attrText attr)) ((0x3C :: tag).take 255)

mutual

def chatXmlFormat : Node → Int → List UB
  | .mk tag attrs cdata children, maxLen =>
    if maxLen ≤ 0 then []
    else
      let hdr := header tag attrs
      if children = [] ∧ cdata = [] then
        (strncat 256 hdr [0x2F, 0x3E]).take (maxLen.toNat - 1)
      else
        let out := (strncat 256 hdr [0x3E]).take (maxLen.toNat - 1)
        let out := strncat maxLen.toNat out cdata
        let out := formatChildren children maxLen.toNat out
        strncat maxLen.toNat out (([0x3C, 0x2F] ++ tag ++ [0x3E]).take 63)

def formatChildren : List Node → Nat → List UB → List UB
  | [], _, out => out
  | child :: children, maxLen, out =>
    formatChildren children maxLen (strncat maxLen out (chatXmlFormat child 512))

end

-- The optional parts of a stanza, which a NULL leaves out.
def addAttr (node : Node) (key : String) (val : Option (List UB)) : Node :=
  match val with
  | none => node
  | some val => chatXmlAddAttr node (ascii key) val

def addText (node : Node) (tag : String) (text : Option (List UB)) : Node :=
  match text with
  | none => node
  | some text => chatXmlAddChild node ((chatXmlNodeAlloc (ascii tag)).setCdata text)

def chatXmlBuildPresence (from_ to_ show_ status : Option (List UB)) (maxLen : Int) : List UB :=
  let pres := chatXmlNodeAlloc (ascii "presence")
  let pres := addAttr pres "from" from_
  let pres := addAttr pres "to" to_
  let pres := addText pres "show" show_
  let pres := addText pres "status" status
  chatXmlFormat pres maxLen

def chatXmlBuildMessage (from_ to_ type body stamp : Option (List UB)) (maxLen : Int) : List UB :=
  let msg := chatXmlNodeAlloc (ascii "message")
  let msg := addAttr msg "from" from_
  let msg := addAttr msg "to" to_
  let msg := addAttr msg "type" type
  let msg := addText msg "body" body
  let msg := addText msg "stamp" stamp
  chatXmlFormat msg maxLen

-- A value ends at the first of `"`, `'` and `>`.
def isEnd (c : UB) : Bool := c == 0x22 || c == 0x27 || c == 0x3E

-- `List.dropInfix?` splits a text at the place that `strstr` finds.
def extractAttrVal (tagStr attrName : List UB) (maxLen : Nat) : List UB :=
  let behind (quote : UB) := tagStr.dropInfix? ((attrName ++ [0x3D, quote]).take 63)
  match (behind 0x22).or (behind 0x27) with
  | none => []
  | some (_, p) =>
    let val := p.takeWhile (!isEnd ·)
    if val.length = p.length then [] else val.take (maxLen - 1)

def extractTagCdata (xml tagName : List UB) (maxLen : Nat) : List UB :=
  match xml.dropInfix? (([0x3C] ++ tagName ++ [0x3E]).take 63) with
  | none => []
  | some (_, start) =>
    match start.dropInfix? (([0x3C, 0x2F] ++ tagName ++ [0x3E]).take 63) with
    | none => []
    | some (text, _) => text.take (maxLen - 1)

-- The fields a parser stores.
@[ext]
structure Message where
  outFrom : List UB
  outTo : List UB
  outType : List UB
  outBody : List UB
  outStamp : List UB
deriving DecidableEq

@[ext]
structure Presence where
  outFrom : List UB
  outTo : List UB
  outShow : List UB
  outStatus : List UB
deriving DecidableEq

def chatXmlParseMessage (xml : List UB) : Option Message :=
  if (xml.dropInfix? (ascii "<message")).isNone then none
  else some
    { outFrom := extractAttrVal xml (ascii "from") CHAT_MAX_JID_LEN
      outTo := extractAttrVal xml (ascii "to") CHAT_MAX_ROOM_LEN
      outType := extractAttrVal xml (ascii "type") 16
      outBody := extractTagCdata xml (ascii "body") CHAT_MAX_LINE_LEN
      outStamp := extractTagCdata xml (ascii "stamp") 16 }

def chatXmlParsePresence (xml : List UB) : Option Presence :=
  if (xml.dropInfix? (ascii "<presence")).isNone then none
  else some
    { outFrom := extractAttrVal xml (ascii "from") CHAT_MAX_JID_LEN
      outTo := extractAttrVal xml (ascii "to") CHAT_MAX_ROOM_LEN
      outShow := extractTagCdata xml (ascii "show") 16
      outStatus := extractTagCdata xml (ascii "status") 64 }

end BTron.ChatXml
