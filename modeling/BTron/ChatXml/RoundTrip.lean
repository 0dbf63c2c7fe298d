import BTron.ChatXml.Attributes
import BTron.ChatXml.Texts

namespace BTron.ChatXml

open Lib

section Texts

variable {root t₁ x₁ t₂ x₂ : List UB} {attrs : List Attr} {maxLen : Nat}

-- A header whose values end at their quotes.
structure CleanHeader (root : List UB) (attrs : List Attr) : Prop where
  root : IsName root
  nonempty : attrs ≠ []
  keys : ∀ attr ∈ attrs, IsName attr.key
  vals : ∀ attr ∈ attrs, Clean attr.val

-- It ends with a quote, so no tag ends where it does.
theorem CleanHeader.free {w b : List UB} (h : CleanHeader root attrs) (hw : IsName w) :
    Free (tag w) (0x3C :: root ++ attrs.flatMap attrOf ++ [0x3E]) b := by
  have hword : (0x3E : UB) ∉ [0x3C] ++ w := by
    rw [List.mem_append, List.mem_singleton, not_or]
    exact ⟨by decide, hw.plain.right⟩
  apply Free.of_last hword
  · rw [List.mem_append, List.mem_cons, List.mem_flatMap, not_or, not_or]
    refine ⟨⟨by decide, h.root.plain.right⟩, ?_⟩
    rintro ⟨attr, hattr, hmem⟩
    have hkey := (h.keys attr hattr).plain.right
    have hval : 0x3E ∉ attr.val := fun hin => absurd (h.vals attr hattr 0x3E hin) (by decide)
    simp [attrOf, hkey, hval] at hmem
  · obtain rfl | ⟨init, last, rfl⟩ := List.eq_nil_or_concat' attrs
    · exact absurd rfl h.nonempty
    · have hlast : (0x3C :: root ++ (init ++ [last]).flatMap attrOf : List UB) =
          (0x3C :: root ++ init.flatMap attrOf ++
            (0x20 :: last.key ++ [0x3D, 0x22] ++ last.val)) ++ [0x22] := by
        simp [attrOf]
      rw [hlast, List.suffix_concat_iff]
      rintro (hnil | ⟨k, hk, -⟩)
      · cases hnil
      · have hquote : (0x22 : UB) ∈ [0x3C] ++ w := by
          rw [hk]
          exact List.mem_append_right k List.mem_cons_self
        rw [List.mem_append, List.mem_singleton] at hquote
        exact hquote.elim (by decide) (hw.notMem (by decide))

theorem end_free {n : List UB} (hn : Plain n) (hroot : IsName root) (hne : n ≠ 0x2F :: root) :
    ¬tag n <:+: closeTag root := by
  have hfree : Free (tag n) (closeTag root) [] := tag_free hn hroot.plain.close hne
  intro h
  rw [← List.append_nil (closeTag root)] at h
  exact tag_infix_nil (hfree.infix_iff.mp h)

theorem stanza_eq :
    stanza root attrs t₁ x₁ t₂ x₂ = (0x3C :: root ++ attrs.flatMap attrOf ++ [0x3E]) ++
      (element t₁ x₁ ++ (element t₂ x₂ ++ closeTag root)) := by
  rw [stanza, List.append_assoc, List.append_assoc (element t₁ x₁)]

theorem stanza_first (h : CleanHeader root attrs) (h₁ : IsName t₁) (h₂ : IsName t₂) (h₁₂ : t₁ ≠ t₂)
    (hroot : t₁ ≠ root) (hlen : x₁.length < maxLen) (hmax : 1 < maxLen) :
    extractTagCdata (stanza root attrs t₁ x₁ t₂ x₂) t₁ maxLen = x₁ ↔ FirstReads t₁ x₁ x₂ := by
  rw [stanza_eq, extract_skip h₁ (h.free h₁)]
  apply extract_first h₁ h₂ h₁₂ hlen hmax
  · exact end_free h₁.plain h.root (h₁.ne_close root)
  · exact end_free h₁.plain.close h.root fun heq => hroot (List.cons.inj heq).2

theorem stanza_second (h : CleanHeader root attrs) (h₁ : IsName t₁) (h₂ : IsName t₂) (h₁₂ : t₁ ≠ t₂)
    (hroot : t₂ ≠ root) (hlen : x₂.length < maxLen) :
    extractTagCdata (stanza root attrs t₁ x₁ t₂ x₂) t₂ maxLen = x₂ ↔
      SecondReads t₁ t₂ maxLen x₁ x₂ := by
  rw [stanza_eq, extract_skip h₂ (h.free h₂)]
  apply extract_second h₁ h₂ h₁₂ hlen
  · exact end_free h₂.plain h.root (h₂.ne_close root)
  · exact end_free h₂.plain.close h.root fun heq => hroot (List.cons.inj heq).2

end Texts

theorem stanza_found {root n : List UB} (hn : n = 0x3C :: root) (attrs : List Attr)
    (t₁ x₁ t₂ x₂ : List UB) :
    ((stanza root attrs t₁ x₁ t₂ x₂).dropInfix? n).isNone = false := by
  have hhead : stanza root attrs t₁ x₁ t₂ x₂ = n ++ (attrs.flatMap attrOf ++ ([0x3E] ++
      (element t₁ x₁ ++ element t₂ x₂) ++ closeTag root)) := by
    simp [stanza, hn]
  rw [hhead, dropInfix_self]
  rfl

-- The messages that are read as they were built.
structure Message.ReadsBack (m : Message) : Prop where
  outFrom : Clean m.outFrom
  outTo : Clean m.outTo
  afterFrom : TakesGap (ascii "to") m.outFrom → m.outTo = gap
  outType : TypeReads m.outFrom m.outTo m.outType
  outBody : FirstReads (ascii "body") m.outBody m.outStamp
  outStamp : SecondReads (ascii "body") (ascii "stamp") 16 m.outBody m.outStamp

structure Presence.ReadsBack (p : Presence) : Prop where
  outFrom : Clean p.outFrom
  outTo : Clean p.outTo
  afterFrom : TakesGap (ascii "to") p.outFrom → p.outTo = gap
  outShow : FirstReads (ascii "show") p.outShow p.outStatus
  outStatus : SecondReads (ascii "show") (ascii "status") 64 p.outShow p.outStatus

-- The attributes of a message, in the order they are written.
def Message.attrs (m : Message) : List Attr :=
  [⟨ascii "from", m.outFrom⟩, ⟨ascii "to", m.outTo⟩, ⟨ascii "type", m.outType⟩]

def Presence.attrs (p : Presence) : List Attr :=
  [⟨ascii "from", p.outFrom⟩, ⟨ascii "to", p.outTo⟩]

def Message.stanza (m : Message) : List UB :=
  ChatXml.stanza (ascii "message") m.attrs (ascii "body") m.outBody (ascii "stamp") m.outStamp

def Presence.stanza (p : Presence) : List UB :=
  ChatXml.stanza (ascii "presence") p.attrs (ascii "show") p.outShow (ascii "status") p.outStatus

theorem Message.header {m : Message} (hf : Clean m.outFrom) (ht : Clean m.outTo)
    (hv : Clean m.outType) : CleanHeader (ascii "message") m.attrs := by
  have hname : ∀ {s}, s ∈ names → IsName (ascii s) := isName_ascii
  refine ⟨hname (by decide), List.cons_ne_nil _ _, ?_, ?_⟩
  · rw [Message.attrs, List.forall_mem_cons, List.forall_mem_cons, List.forall_mem_singleton]
    exact ⟨hname (by decide), hname (by decide), hname (by decide)⟩
  · rw [Message.attrs, List.forall_mem_cons, List.forall_mem_cons, List.forall_mem_singleton]
    exact ⟨hf, ht, hv⟩

theorem Presence.header {p : Presence} (hf : Clean p.outFrom) (ht : Clean p.outTo) :
    CleanHeader (ascii "presence") p.attrs := by
  have hname : ∀ {s}, s ∈ names → IsName (ascii s) := isName_ascii
  refine ⟨hname (by decide), List.cons_ne_nil _ _, ?_, ?_⟩
  · rw [Presence.attrs, List.forall_mem_cons, List.forall_mem_singleton]
    exact ⟨hname (by decide), hname (by decide)⟩
  · rw [Presence.attrs, List.forall_mem_cons, List.forall_mem_singleton]
    exact ⟨hf, ht⟩

theorem Message.stanza_headed (m : Message) :
    ∃ rest, m.stanza = headed (ascii "message") m.outFrom m.outTo
      (typeGap ++ 0x22 :: (m.outType ++ 0x22 :: rest)) :=
  ⟨[0x3E] ++ (element (ascii "body") m.outBody ++ element (ascii "stamp") m.outStamp) ++
    closeTag (ascii "message"), by
      simp [Message.stanza, ChatXml.stanza, headed, typeGap, Message.attrs, attrOf]⟩

theorem Presence.stanza_headed (p : Presence) :
    ∃ rest, p.stanza = headed (ascii "presence") p.outFrom p.outTo rest :=
  ⟨_, ChatXml.stanza_headed _ _ _ _ _ _ _ _⟩

theorem parse_message {m : Message} (hm : m.Fits) :
    chatXmlParseMessage m.stanza = some m ↔ m.ReadsBack := by
  have hroot : ascii "message" = ascii "message" ∨ ascii "message" = ascii "presence" := Or.inl rfl
  have hfound : (m.stanza.dropInfix? (ascii "<message")).isNone = false :=
    stanza_found (by decide) _ _ _ _ _
  obtain ⟨rest, hheaded⟩ := m.stanza_headed
  have hfrom : extractAttrVal m.stanza (ascii "from") CHAT_MAX_JID_LEN = m.outFrom ↔
      Clean m.outFrom := by
    rw [hheaded]
    exact extract_from hroot hm.outFrom.length
  have hto (hf : Clean m.outFrom) :
      extractAttrVal m.stanza (ascii "to") CHAT_MAX_ROOM_LEN = m.outTo ↔
        Clean m.outTo ∧ (TakesGap (ascii "to") m.outFrom → m.outTo = gap) := by
    rw [hheaded]
    exact extract_to hroot hf hm.outTo.length
  have htype (hf : Clean m.outFrom) (ht : Clean m.outTo) :
      extractAttrVal m.stanza (ascii "type") 16 = m.outType ↔
        TypeReads m.outFrom m.outTo m.outType := by
    rw [hheaded]
    exact extract_type hroot hf ht hm.outType.length
  have hbody (h : CleanHeader (ascii "message") m.attrs) :
      extractTagCdata m.stanza (ascii "body") CHAT_MAX_LINE_LEN = m.outBody ↔
        FirstReads (ascii "body") m.outBody m.outStamp :=
    stanza_first h (isName_ascii (by decide)) (isName_ascii (by decide)) (by decide)
      (by decide) hm.outBody.length (by decide)
  have hstamp (h : CleanHeader (ascii "message") m.attrs) :
      extractTagCdata m.stanza (ascii "stamp") 16 = m.outStamp ↔
        SecondReads (ascii "body") (ascii "stamp") 16 m.outBody m.outStamp :=
    stanza_second h (isName_ascii (by decide)) (isName_ascii (by decide)) (by decide)
      (by decide) hm.outStamp.length
  rw [chatXmlParseMessage, hfound, if_neg (by decide), Option.some.injEq, Message.ext_iff]
  constructor
  · rintro ⟨h₁, h₂, h₃, h₄, h₅⟩
    have hf := hfrom.mp h₁
    have ht := (hto hf).mp h₂
    have hv := (htype hf ht.1).mp h₃
    have h := Message.header hf ht.1 hv.clean
    exact ⟨hf, ht.1, ht.2, hv, (hbody h).mp h₄, (hstamp h).mp h₅⟩
  · intro hm'
    have h := Message.header hm'.outFrom hm'.outTo hm'.outType.clean
    exact ⟨hfrom.mpr hm'.outFrom, (hto hm'.outFrom).mpr ⟨hm'.outTo, hm'.afterFrom⟩,
      (htype hm'.outFrom hm'.outTo).mpr hm'.outType, (hbody h).mpr hm'.outBody,
      (hstamp h).mpr hm'.outStamp⟩

theorem parse_presence {p : Presence} (hp : p.Fits) :
    chatXmlParsePresence p.stanza = some p ↔ p.ReadsBack := by
  have hroot : ascii "presence" = ascii "message" ∨ ascii "presence" = ascii "presence" :=
    Or.inr rfl
  have hfound : (p.stanza.dropInfix? (ascii "<presence")).isNone = false :=
    stanza_found (by decide) _ _ _ _ _
  obtain ⟨rest, hheaded⟩ := p.stanza_headed
  have hfrom : extractAttrVal p.stanza (ascii "from") CHAT_MAX_JID_LEN = p.outFrom ↔
      Clean p.outFrom := by
    rw [hheaded]
    exact extract_from hroot hp.outFrom.length
  have hto (hf : Clean p.outFrom) :
      extractAttrVal p.stanza (ascii "to") CHAT_MAX_ROOM_LEN = p.outTo ↔
        Clean p.outTo ∧ (TakesGap (ascii "to") p.outFrom → p.outTo = gap) := by
    rw [hheaded]
    exact extract_to hroot hf hp.outTo.length
  have hshow (h : CleanHeader (ascii "presence") p.attrs) :
      extractTagCdata p.stanza (ascii "show") 16 = p.outShow ↔
        FirstReads (ascii "show") p.outShow p.outStatus :=
    stanza_first h (isName_ascii (by decide)) (isName_ascii (by decide)) (by decide)
      (by decide) hp.outShow.length (by decide)
  have hstatus (h : CleanHeader (ascii "presence") p.attrs) :
      extractTagCdata p.stanza (ascii "status") 64 = p.outStatus ↔
        SecondReads (ascii "show") (ascii "status") 64 p.outShow p.outStatus :=
    stanza_second h (isName_ascii (by decide)) (isName_ascii (by decide)) (by decide)
      (by decide) hp.outStatus.length
  rw [chatXmlParsePresence, hfound, if_neg (by decide), Option.some.injEq, Presence.ext_iff]
  constructor
  · rintro ⟨h₁, h₂, h₃, h₄⟩
    have hf := hfrom.mp h₁
    have ht := (hto hf).mp h₂
    have h := Presence.header hf ht.1
    exact ⟨hf, ht.1, ht.2, (hshow h).mp h₃, (hstatus h).mp h₄⟩
  · intro hp'
    have h := Presence.header hp'.outFrom hp'.outTo
    exact ⟨hfrom.mpr hp'.outFrom, (hto hp'.outFrom).mpr ⟨hp'.outTo, hp'.afterFrom⟩,
      (hshow h).mpr hp'.outShow, (hstatus h).mpr hp'.outStatus⟩

-- It is enough that the texts have no `<` and the values no `=`.
theorem Message.ReadsBack.of_plain {m : Message} (hf : Clean m.outFrom) (ht : Clean m.outTo)
    (hv : Clean m.outType) (hf' : 0x3D ∉ m.outFrom) (ht' : 0x3D ∉ m.outTo) (hx : 0x3C ∉ m.outBody)
    (hy : 0x3C ∉ m.outStamp) : m.ReadsBack where
  outFrom := hf
  outTo := ht
  afterFrom := fun h => absurd h (not_takesGap hf')
  outType := ⟨hv, fun h => absurd h (not_takesGap hf'), fun _ h => absurd h (not_takesGap ht')⟩
  outBody := .of_plain hx hy
  outStamp := .of_plain hx hy

theorem Presence.ReadsBack.of_plain {p : Presence} (hf : Clean p.outFrom) (ht : Clean p.outTo)
    (hf' : 0x3D ∉ p.outFrom) (hx : 0x3C ∉ p.outShow) (hy : 0x3C ∉ p.outStatus) : p.ReadsBack where
  outFrom := hf
  outTo := ht
  afterFrom := fun h => absurd h (not_takesGap hf')
  outShow := .of_plain hx hy
  outStatus := .of_plain hx hy

def Message.build (m : Message) : List UB :=
  chatXmlBuildMessage (some m.outFrom) (some m.outTo) (some m.outType) (some m.outBody)
    (some m.outStamp) 512

def Presence.build (p : Presence) : List UB :=
  chatXmlBuildPresence (some p.outFrom) (some p.outTo) (some p.outShow) (some p.outStatus) 512

theorem parse_build_iff {m : Message} {p : Presence} (hm : m.Fits) (hp : p.Fits) :
    (chatXmlParseMessage m.build = some m ↔ m.ReadsBack) ∧
      (chatXmlParsePresence p.build = some p ↔ p.ReadsBack) := by
  have hmessage : m.build = m.stanza := build_message hm
  have hpresence : p.build = p.stanza := build_presence hp
  rw [hmessage, hpresence]
  exact ⟨parse_message hm, parse_presence hp⟩

instance (v : List UB) : Decidable (Clean v) :=
  inferInstanceAs (Decidable (∀ c ∈ v, isEnd c = false))

def quoted : Message :=
  ⟨ascii "a&b", ascii "#hall", ascii "groupchat", ascii "a > 'b' & \"c\"", ascii "12:34:56"⟩

def away : Presence := ⟨ascii "a&b", ascii "#hall", ascii "away", ascii "from=\"now\""⟩

theorem quoted_reads :
    chatXmlParseMessage quoted.build = some quoted ∧
      chatXmlParsePresence away.build = some away := by
  have hquoted : quoted.Fits := by
    constructor <;> constructor <;> decide
  have haway : away.Fits := by
    constructor <;> constructor <;> decide
  have h := parse_build_iff hquoted haway
  constructor
  · apply h.1.mpr
    apply Message.ReadsBack.of_plain <;> decide
  · apply h.2.mpr
    apply Presence.ReadsBack.of_plain <;> decide

-- A stamp that the body writes takes the place of the message's own.
theorem stamp_in_body :
    (⟨ascii "a", ascii "b", ascii "chat", ascii "<stamp>0</stamp>", ascii "1"⟩ : Message).Fits ∧
      chatXmlParseMessage (chatXmlBuildMessage (some (ascii "a")) (some (ascii "b"))
        (some (ascii "chat")) (some (ascii "<stamp>0</stamp>")) (some (ascii "1")) 512) =
      some ⟨ascii "a", ascii "b", ascii "chat", ascii "<stamp>0</stamp>", ascii "0"⟩ ∧
      ascii "0" ≠ ascii "1" := by
  refine ⟨?_, by decide +kernel, by decide⟩
  constructor <;> constructor <;> decide

end BTron.ChatXml
