import BTron.ChatXml

namespace BTron.ChatXml

open Lib

-- A tag, and an element with its text.
def tag (w : List UB) : List UB := [0x3C] ++ w ++ [0x3E]

def closeTag (t : List UB) : List UB := tag (0x2F :: t)

def element (t x : List UB) : List UB :=
  if x = [] then tag (t ++ [0x2F]) else tag t ++ (x ++ closeTag t)

def attrOf (attr : Attr) : List UB := 0x20 :: attr.key ++ [0x3D, 0x22] ++ attr.val ++ [0x22]

theorem strncat_eq {size : Nat} {out s : List UB} (h : out.length + s.length < size) :
    strncat size out s = out ++ s := by
  rw [strncat, List.take_of_length_le (by omega)]

theorem header_eq {hdr : List UB} {attrs : List Attr}
    (hattrs : ∀ attr ∈ attrs, (attrOf attr).length ≤ 127)
    (hlen : hdr.length + (attrs.flatMap attrOf).length < 256) :
    attrs.foldl (fun hdr attr => strncat 256 hdr (attrText attr)) hdr =
      hdr ++ attrs.flatMap attrOf := by
  induction attrs generalizing hdr with
  | nil => rw [List.foldl_nil, List.flatMap_nil, List.append_nil]
  | cons attr attrs ih =>
      rw [List.forall_mem_cons] at hattrs
      rw [List.flatMap_cons, List.length_append] at hlen
      have htext : attrText attr = attrOf attr := List.take_of_length_le hattrs.1
      rw [List.foldl_cons, htext, strncat_eq (by omega), ih hattrs.2 (by
        rw [List.length_append]
        omega), List.flatMap_cons, List.append_assoc]

-- The texts of the children, in their order.
def childTexts (children : List Node) : List UB := children.flatMap fun c => chatXmlFormat c 512

theorem formatChildren_eq {children : List Node} {maxLen : Nat} {out : List UB}
    (hlen : out.length + (childTexts children).length < maxLen) :
    formatChildren children maxLen out = out ++ childTexts children := by
  induction children generalizing out with
  | nil => rw [formatChildren, childTexts, List.flatMap_nil, List.append_nil]
  | cons child children ih =>
      rw [childTexts, List.flatMap_cons, List.length_append] at hlen
      have htail : (childTexts children).length = (children.flatMap fun c =>
        chatXmlFormat c 512).length := rfl
      rw [formatChildren, strncat_eq (by omega), ih (by rw [List.length_append]; omega), childTexts,
        childTexts, List.flatMap_cons, List.append_assoc]

theorem tag_length (w : List UB) : (tag w).length = w.length + 2 := by
  simp [tag]

-- A node of text alone.
theorem format_text {t x : List UB} (ht : t.length ≤ 31) (hx : x.length ≤ 255) :
    chatXmlFormat (.mk t [] x []) 512 = element t x := by
  have hopen : header t [] = 0x3C :: t :=
    List.take_of_length_le (by rw [List.length_cons]; omega)
  have h512 : (512 : Int).toNat = 512 := rfl
  rw [chatXmlFormat, hopen, if_neg (by decide), element, h512]
  by_cases hempty : x = []
  · have hend : strncat 256 (0x3C :: t) [0x2F, 0x3E] = 0x3C :: t ++ [0x2F, 0x3E] :=
      strncat_eq (by simp; omega)
    rw [if_pos ⟨rfl, hempty⟩, if_pos hempty, hend, List.take_of_length_le (by simp; omega)]
    simp [tag]
  · have hend : strncat 256 (0x3C :: t) [0x3E] = tag t := strncat_eq (by simp; omega)
    have hopened : (tag t).take (512 - 1) = tag t :=
      List.take_of_length_le (by rw [tag_length]; omega)
    have htext : strncat 512 (tag t) x = tag t ++ x :=
      strncat_eq (by rw [tag_length]; omega)
    have hfoot : (([0x3C, 0x2F] ++ t ++ [0x3E]).take 63 : List UB) = closeTag t :=
      List.take_of_length_le (by simp; omega)
    rw [if_neg fun h => hempty h.2, if_neg hempty]
    simp only [hend, hopened, htext, hfoot, formatChildren]
    rw [strncat_eq, List.append_assoc]
    simp only [List.length_append, closeTag, tag_length, List.length_cons]
    omega

-- A node of attributes and children.
theorem format_stanza {t : List UB} {attrs : List Attr} {children : List Node}
    (hchildren : children ≠ []) (ht : t.length ≤ 31)
    (hattrs : ∀ attr ∈ attrs, (attrOf attr).length ≤ 127)
    (hhdr : t.length + (attrs.flatMap attrOf).length < 254)
    (hlen : 2 * t.length + (attrs.flatMap attrOf).length + (childTexts children).length + 5 < 512) :
    chatXmlFormat (.mk t attrs [] children) 512 =
      0x3C :: t ++ attrs.flatMap attrOf ++ [0x3E] ++ childTexts children ++ closeTag t := by
  have hopen : header t attrs = 0x3C :: t ++ attrs.flatMap attrOf := by
    rw [header, List.take_of_length_le (by rw [List.length_cons]; omega)]
    exact header_eq hattrs (by rw [List.length_cons]; omega)
  have hfoot : (([0x3C, 0x2F] ++ t ++ [0x3E]).take 63 : List UB) = closeTag t :=
    List.take_of_length_le (by simp; omega)
  generalize attrs.flatMap attrOf = text at hopen hhdr hlen ⊢
  have hend : strncat 256 (0x3C :: t ++ text) [0x3E] = 0x3C :: t ++ text ++ [0x3E] :=
    strncat_eq (by simp; omega)
  have hopened : (0x3C :: t ++ text ++ [0x3E]).take (512 - 1) = 0x3C :: t ++ text ++ [0x3E] :=
    List.take_of_length_le (by simp; omega)
  have hnone : strncat 512 (0x3C :: t ++ text ++ [0x3E]) [] = 0x3C :: t ++ text ++ [0x3E] := by
    rw [strncat, List.take_nil, List.append_nil]
  have h512 : (512 : Int).toNat = 512 := rfl
  rw [chatXmlFormat, hopen, if_neg (by decide), if_neg fun h => hchildren h.1, h512]
  simp only [hend, hopened, hnone, hfoot]
  rw [formatChildren_eq (by simp; omega), strncat_eq]
  simp only [closeTag, tag_length, List.length_append, List.length_cons, List.length_nil]
  omega

-- A stanza of attributes and two texts.
def stanza (root : List UB) (attrs : List Attr) (t₁ x₁ t₂ x₂ : List UB) : List UB :=
  0x3C :: root ++ attrs.flatMap attrOf ++ [0x3E] ++ (element t₁ x₁ ++ element t₂ x₂) ++
    closeTag root

-- The fields that fit the buffers of the parser.
structure Fits (cap : Nat) (v : List UB) : Prop where
  noNul : 0 ∉ v
  length : v.length < cap

structure Message.Fits (m : Message) : Prop where
  outFrom : ChatXml.Fits CHAT_MAX_JID_LEN m.outFrom
  outTo : ChatXml.Fits CHAT_MAX_ROOM_LEN m.outTo
  outType : ChatXml.Fits 16 m.outType
  outBody : ChatXml.Fits CHAT_MAX_LINE_LEN m.outBody
  outStamp : ChatXml.Fits 16 m.outStamp

structure Presence.Fits (p : Presence) : Prop where
  outFrom : ChatXml.Fits CHAT_MAX_JID_LEN p.outFrom
  outTo : ChatXml.Fits CHAT_MAX_ROOM_LEN p.outTo
  outShow : ChatXml.Fits 16 p.outShow
  outStatus : ChatXml.Fits 64 p.outStatus

theorem Fits.strncpy {cap n : Nat} {v : List UB} (h : Fits cap v) (hn : cap ≤ n + 1) :
    Lib.strncpy v n = v := by
  have hlen := h.length
  exact strncpy_eq h.noNul (by omega)

theorem addAttr_eq {tag : List UB} {attrs : List Attr} {children : List Node} {key : String}
    {val : List UB} (hkey : Fits 32 (ascii key)) (hval : Fits 128 val) (hattrs : attrs.length < 8) :
    addAttr (.mk tag attrs [] children) key (some val) =
      .mk tag (attrs ++ [⟨ascii key, val⟩]) [] children := by
  rw [addAttr, chatXmlAddAttr, if_neg (by rw [MAX_XML_ATTRS]; omega),
    hkey.strncpy (by decide), hval.strncpy (by decide)]

theorem addText_eq {tag : List UB} {attrs : List Attr} {children : List Node} {key : String}
    {text : List UB} (hkey : Fits 32 (ascii key)) (htext : Fits 512 text)
    (hchildren : children.length < 16) :
    addText (.mk tag attrs [] children) key (some text) =
      .mk tag attrs [] (children ++ [.mk (ascii key) [] text []]) := by
  rw [addText, chatXmlNodeAlloc, Node.setCdata, chatXmlAddChild,
    if_neg (by rw [MAX_XML_CHILDREN]; omega), hkey.strncpy (by decide), htext.strncpy (by decide)]

theorem Fits.mono {cap cap' : Nat} {v : List UB} (h : Fits cap v) (hcap : cap ≤ cap') :
    Fits cap' v := ⟨h.noNul, Nat.lt_of_lt_of_le h.length hcap⟩

theorem attrOf_length (attr : Attr) :
    (attrOf attr).length = attr.key.length + attr.val.length + 4 := by
  simp [attrOf]
  omega

theorem element_length_le (t x : List UB) :
    (element t x).length ≤ 2 * t.length + x.length + 5 := by
  rw [element]
  split
  · rw [tag_length, List.length_append]
    simp
    omega
  · simp only [closeTag, tag_length, List.length_append, List.length_cons]
    omega

theorem format_two {root t₁ x₁ t₂ x₂ : List UB} {attrs : List Attr} (hroot : root.length ≤ 8)
    (ht₁ : t₁.length ≤ 6) (hx₁ : x₁.length ≤ 255) (ht₂ : t₂.length ≤ 6) (hx₂ : x₂.length ≤ 63)
    (hattrs : ∀ attr ∈ attrs, (attrOf attr).length ≤ 127)
    (hlen : (attrs.flatMap attrOf).length + x₁.length + x₂.length ≤ 450)
    (hhdr : (attrs.flatMap attrOf).length ≤ 200) :
    chatXmlFormat (.mk root attrs [] [.mk t₁ [] x₁ [], .mk t₂ [] x₂ []]) 512 =
      stanza root attrs t₁ x₁ t₂ x₂ := by
  have htexts : childTexts [.mk t₁ [] x₁ [], .mk t₂ [] x₂ []] = element t₁ x₁ ++ element t₂ x₂ := by
    rw [childTexts, List.flatMap_cons, List.flatMap_cons, List.flatMap_nil, List.append_nil,
      format_text (by omega) hx₁, format_text (by omega) (by omega)]
  have hel₁ := element_length_le t₁ x₁
  have hel₂ := element_length_le t₂ x₂
  rw [format_stanza (List.cons_ne_nil _ _) (by omega) hattrs (by omega), htexts, stanza]
  rw [htexts, List.length_append]
  omega

-- The names of tags and attributes: short words of small letters.
structure IsName (t : List UB) : Prop where
  nonempty : t ≠ []
  length : t.length ≤ 8
  letters : ∀ c ∈ t, 0x61 ≤ c

def names : List String :=
  ["message", "presence", "from", "to", "type", "body", "stamp", "show", "status"]

theorem isName_ascii {s : String} (hs : s ∈ names) : IsName (ascii s) := by
  have hall : ∀ s ∈ names, ascii s ≠ [] ∧ (ascii s).length ≤ 8 ∧ ∀ c ∈ ascii s, 0x61 ≤ c := by
    decide
  exact ⟨(hall s hs).1, (hall s hs).2.1, (hall s hs).2.2⟩

theorem IsName.notMem {t : List UB} (h : IsName t) {c : UB} (hc : c < 0x61) : c ∉ t :=
  fun hmem => absurd (h.letters c hmem) (UInt8.not_le.mpr hc)

theorem IsName.fits {t : List UB} (h : IsName t) : Fits 32 t :=
  ⟨h.notMem (by decide), Nat.lt_of_le_of_lt h.length (by decide)⟩

theorem nodeAlloc_eq {t : List UB} (h : IsName t) : chatXmlNodeAlloc t = .mk t [] [] [] := by
  rw [chatXmlNodeAlloc, h.fits.strncpy (by decide)]

theorem build_message {m : Message} (h : m.Fits) :
    chatXmlBuildMessage (some m.outFrom) (some m.outTo) (some m.outType) (some m.outBody)
        (some m.outStamp) 512 =
      stanza (ascii "message")
        [⟨ascii "from", m.outFrom⟩, ⟨ascii "to", m.outTo⟩, ⟨ascii "type", m.outType⟩]
        (ascii "body") m.outBody (ascii "stamp") m.outStamp := by
  have hfrom := h.outFrom.length
  have hto := h.outTo.length
  have htype := h.outType.length
  have hbody := h.outBody.length
  have hstamp := h.outStamp.length
  rw [CHAT_MAX_JID_LEN] at hfrom
  rw [CHAT_MAX_ROOM_LEN] at hto
  rw [CHAT_MAX_LINE_LEN] at hbody
  have hlens : (ascii "from").length = 4 ∧ (ascii "to").length = 2 ∧ (ascii "type").length = 4 := by
    decide
  have hname : ∀ {s}, s ∈ names → Fits 32 (ascii s) := fun hs => (isName_ascii hs).fits
  rw [chatXmlBuildMessage, nodeAlloc_eq (isName_ascii (by decide)),
    addAttr_eq (hname (by decide)) (h.outFrom.mono (by decide)) (by decide),
    addAttr_eq (hname (by decide)) (h.outTo.mono (by decide)) (by simp),
    addAttr_eq (hname (by decide)) (h.outType.mono (by decide)) (by simp),
    addText_eq (hname (by decide)) (h.outBody.mono (by decide)) (by decide),
    addText_eq (hname (by decide)) (h.outStamp.mono (by decide)) (by simp)]
  simp only [List.nil_append, List.cons_append]
  apply format_two
  · decide
  · decide
  · omega
  · decide
  · omega
  · intro attr hattr
    rw [attrOf_length]
    simp only [List.mem_cons, List.not_mem_nil, or_false] at hattr
    obtain rfl | rfl | rfl := hattr
    · show (ascii "from").length + m.outFrom.length + 4 ≤ 127
      omega
    · show (ascii "to").length + m.outTo.length + 4 ≤ 127
      omega
    · show (ascii "type").length + m.outType.length + 4 ≤ 127
      omega
  · simp only [List.flatMap_cons, List.flatMap_nil, List.length_append, attrOf_length,
      List.length_nil]
    omega
  · simp only [List.flatMap_cons, List.flatMap_nil, List.length_append, attrOf_length,
      List.length_nil]
    omega

theorem build_presence {p : Presence} (h : p.Fits) :
    chatXmlBuildPresence (some p.outFrom) (some p.outTo) (some p.outShow) (some p.outStatus) 512 =
      stanza (ascii "presence") [⟨ascii "from", p.outFrom⟩, ⟨ascii "to", p.outTo⟩]
        (ascii "show") p.outShow (ascii "status") p.outStatus := by
  have hfrom := h.outFrom.length
  have hto := h.outTo.length
  have hshow := h.outShow.length
  have hstatus := h.outStatus.length
  rw [CHAT_MAX_JID_LEN] at hfrom
  rw [CHAT_MAX_ROOM_LEN] at hto
  have hlens : (ascii "from").length = 4 ∧ (ascii "to").length = 2 := by decide
  have hname : ∀ {s}, s ∈ names → Fits 32 (ascii s) := fun hs => (isName_ascii hs).fits
  rw [chatXmlBuildPresence, nodeAlloc_eq (isName_ascii (by decide)),
    addAttr_eq (hname (by decide)) (h.outFrom.mono (by decide)) (by decide),
    addAttr_eq (hname (by decide)) (h.outTo.mono (by decide)) (by simp),
    addText_eq (hname (by decide)) (h.outShow.mono (by decide)) (by decide),
    addText_eq (hname (by decide)) (h.outStatus.mono (by decide)) (by simp)]
  simp only [List.nil_append, List.cons_append]
  apply format_two
  · decide
  · decide
  · omega
  · decide
  · omega
  · intro attr hattr
    rw [attrOf_length]
    simp only [List.mem_cons, List.not_mem_nil, or_false] at hattr
    obtain rfl | rfl := hattr
    · show (ascii "from").length + p.outFrom.length + 4 ≤ 127
      omega
    · show (ascii "to").length + p.outTo.length + 4 ≤ 127
      omega
  · simp only [List.flatMap_cons, List.flatMap_nil, List.length_append, attrOf_length,
      List.length_nil]
    omega
  · simp only [List.flatMap_cons, List.flatMap_nil, List.length_append, attrOf_length,
      List.length_nil]
    omega

end BTron.ChatXml
