import BTron.Html2tad
import BTron.TadBrowser.Lines
import BTron.TadBrowser.Text

namespace BTron.Html2tad

open Lib TadBrowser

-- String.duplicate
def duplicate (c : Char) (n : Nat) : String := String.ofList (List.replicate n c)

def headerLines (docTitle today : String) : List String :=
  [duplicate '=' 80,
    "TAD Real Body [実身] : " ++ docTitle,
    "RECORD TYPE : 1 (TAD Main Record) | BTRON3 SPEC 3.20 Cleanroom Edition",
    "DATE        : " ++ today ++ " | GENERATOR : BtronTAD.Compiler (Elixir OTP 29)",
    duplicate '=' 80,
    "",
    "[付箋: DOCUMENT_HEADER | Title=\"" ++ docTitle ++ "\" | Font=\"Cho-Kanji-Mincho\" | Size=16]"]

def header (docTitle today : String) : String :=
  String.join ((headerLines docTitle today).map (· ++ "\n"))

def linkLine (id : Nat) (label href : String) : String :=
  "[仮身] #" ++ toString id ++ " : " ++ label ++ " -> [" ++ href ++ "]"

def figureLine (width height : Nat) (src alt : String) : String :=
  "[付箋: FIGURE w=" ++ toString width ++ " h=" ++ toString height ++ " src=\"" ++ src ++
    "\" caption=\"" ++ alt ++ "\"]"

def pictureLine (src alt : String) : String :=
  "[画像: " ++ (if alt ≠ "" then alt else basename src) ++ "]"

def elementText (env : Env) (baseDir : String) : Element → String
  | .h1 title => "【" ++ title ++ "】\n" ++ duplicate '━' 40
  | .h2 title => "■ " ++ title ++ "\n" ++ duplicate '─' 40
  | .h3 title => "▶ " ++ title
  | .h4 title => "◆ " ++ title
  | .p text => text
  | .pre code => "```\n" ++ code ++ "\n```"
  | .ul items => "\n".intercalate (items.map ("  • " ++ ·))
  | .ol items =>
    "\n".intercalate ((items.zipIdx 1).map fun (item, idx) => "  " ++ toString idx ++ ". " ++ item)
  | .table rows => "\n".intercalate (rows.map tableRow)
  | .link href label => linkLine (robjId env href) label href
  | .image src alt =>
    let size := getImageDimensions env (actualPath env baseDir src)
    figureLine size.1 size.2 src alt ++ "\n" ++ pictureLine src alt
  | .hr => duplicate '─' 70
  | .text text => text

def compileToSymbolicTad (env : Env) (docTitle today baseDir : String) (elements : List Element) :
    String :=
  header docTitle today ++ "\n" ++
    "\n\n".intercalate (elements.map (elementText env baseDir)) ++ "\n"

-- What a line of a symbolic document is written for.
inductive Role where
  | link (id : Nat) (label href : String)
  | image (width height : Nat) (src alt : String)
  | picture
  | rule
  | underline
  | text
  | other

-- The span decoded from a line, if any, is what the line is written for.
def Fulfils (line : String) : Role → Option TadSpan → Prop
  | .link id label href, some s =>
    s.isLink = true ∧ s.style.isVobj = true ∧ s.style.targetRobj = id ∧
      s.style.vobjLabel = utf8 label ∧ s.style.vobjPath = utf8 href
  | .image width height src alt, some s =>
    s.style.isImage = true ∧ s.style.imgW = width ∧ s.style.imgH = height ∧
      s.style.imgSrc = utf8 src ∧ s.style.imgCaption = utf8 alt
  | .rule, some s => s.style.isHr = true
  | .underline, some s => s.style.isHr = true
  | .text, some s => plainText s = true ∧ s.text = utf8 line
  | .picture, some s => plainText s = true
  | .other, some s => plainText s = true
  | .underline, none => True
  | .picture, none => True
  | .other, none => True
  | _, none => False

-- The line is not taken for a link, a figure or a separator.
def TextLine (line : String) : Prop :=
  lineKind (utf8 line) ≠ .vobj ∧ lineKind (utf8 line) ≠ .image ∧ lineKind (utf8 line) ≠ .hr

-- A line with `n` lines before it that are not empty is read back: text that looks like text, a
-- separator, or a link that names itself, as long as there is room for its span.
def Kept (n : Nat) (line : String) : Role → Prop
  | .link _ label href =>
    n < tadMaxSpans ∧ utf8 label = (utf8 line).take 63 ∧ utf8 href = List.replicate 127 0x5B
  | .image .. => False
  | .picture => tadMaxSpans ≤ n
  | .rule => n < tadMaxSpans
  | .underline => True
  | .text => line ≠ "" ∧ n < tadMaxSpans ∧ 0 ∉ utf8 line ∧ TextLine line
  | .other => line = "" ∨ tadMaxSpans ≤ n ∨ TextLine line

section Strings

@[simp] theorem utf8_append (s t : String) : utf8 (s ++ t) = utf8 s ++ utf8 t := by
  simp [utf8]

theorem utf8_eq (s : String) : utf8 s = s.toByteArray.data.toList :=
  Utf8.bytes_toList s

theorem utf8_eq_nil_iff {s : String} : utf8 s = [] ↔ s = "" := by
  rw [utf8, ← String.toList_eq_nil_iff]
  cases s.toList with
  | nil => simp
  | cons c cs => simp

theorem utf8_duplicate_succ (c : Char) (n : Nat) :
    utf8 (duplicate c (n + 1)) = String.utf8EncodeChar c ++ utf8 (duplicate c n) := by
  simp [utf8, duplicate, List.replicate_succ]

theorem strstr_append {c : UB} {as : List UB} (hc : c ∉ as) (needle rest : List UB) :
    strstr (c :: needle) (as ++ (c :: needle ++ rest)) = some as.length := by
  induction as with
  | nil => simp [strstr, List.isPrefixOf_iff_prefix]
  | cons a as ih =>
      rw [List.mem_cons, not_or] at hc
      have hne : (c == a) = false := beq_false_of_ne hc.1
      rw [List.cons_append, strstr, List.isPrefixOf, hne, Bool.false_and, if_neg (by decide),
        ih hc.2]
      rfl

end Strings

section Digits

theorem digit_range {c : Char} (hc : c.isDigit = true) : 48 ≤ c.toNat ∧ c.toNat ≤ 57 := by
  simpa [Char.isDigit, UInt32.le_iff_toNat_le] using hc

theorem digit_toNat {c : Char} (hc : c.isDigit = true) :
    (UInt8.ofNat c.toNat).toNat = c.toNat := by
  have hrange := digit_range hc
  rw [UInt8.toNat_ofNat']
  omega

theorem utf8_toString (n : Nat) :
    utf8 (toString n) = (Nat.toDigits 10 n).map fun c => UInt8.ofNat c.toNat := by
  have hdigits : ∀ cs : List Char, (∀ c ∈ cs, c.isDigit = true) →
      Utf8.bytes cs = cs.map fun c => UInt8.ofNat c.toNat := by
    intro cs hcs
    induction cs with
    | nil => rfl
    | cons c cs ih =>
        have hc := digit_range (hcs c List.mem_cons_self)
        rw [Utf8.bytes_cons, Utf8.encode_one (by omega), ih fun c hc => hcs c (by simp [hc])]
        rfl
  rw [utf8, show (toString n).toList = Nat.toDigits 10 n from Nat.toList_repr]
  exact hdigits _ fun c hc => Nat.isDigit_of_mem_toDigits (by decide) (by decide) hc

theorem isDigit_toString {n : Nat} {b : UB} (hb : b ∈ utf8 (toString n)) : isDigit b = true := by
  rw [utf8_toString] at hb
  obtain ⟨c, hc, rfl⟩ := List.mem_map.mp hb
  have hdigit := Nat.isDigit_of_mem_toDigits (by decide) (by decide) hc
  simp only [isDigit, Bool.and_eq_true, decide_eq_true_eq, UInt8.le_iff_toNat_le,
    digit_toNat hdigit]
  exact digit_range hdigit

theorem decimal_toString (n : Nat) {rest : List UB} (hrest : ∀ b ∈ rest.head?, isDigit b = false) :
    decimal (utf8 (toString n) ++ rest) = n := by
  have htake : (utf8 (toString n) ++ rest).takeWhile isDigit = utf8 (toString n) := by
    rw [List.takeWhile_append_of_pos fun b hb => isDigit_toString hb]
    cases rest with
    | nil => simp
    | cons b rest => simp [hrest b rfl]
  unfold decimal
  rw [htake, utf8_toString, List.foldl_map]
  conv_rhs => rw [← Nat.ofDigitChars_ten_toDigits (n := n), Nat.ofDigitChars_eq_foldl]
  refine List.foldl_ext _ _ _ fun m c hc => ?_
  rw [digit_toNat (Nat.isDigit_of_mem_toDigits (by decide) (by decide) hc)]
  rfl

theorem digit_cases {b : UB} (hb : isDigit b = true) : isSpace b = false ∧ b ≠ 0x2D ∧ b ≠ 0x2B := by
  refine ⟨?_, ?_, ?_⟩
  · simp only [isDigit, isSpace, Bool.and_eq_true, decide_eq_true_eq, UInt8.le_iff_toNat_le,
      Bool.or_eq_false_iff, beq_eq_false_iff_ne, ne_eq, ← UInt8.toNat_inj, Bool.and_eq_false_iff,
      decide_eq_false_iff_not, UInt8.reduceToNat] at hb ⊢
    omega
  · rintro rfl
    exact absurd hb (by decide)
  · rintro rfl
    exact absurd hb (by decide)

theorem atoi_toString (n : Nat) {rest : List UB} (hrest : ∀ b ∈ rest.head?, isDigit b = false) :
    atoi (utf8 (toString n) ++ rest) = n := by
  obtain ⟨d, ds, hds⟩ : ∃ d ds, utf8 (toString n) = d :: ds := by
    refine List.exists_cons_of_ne_nil ?_
    rw [utf8_toString, ne_eq, List.map_eq_nil_iff]
    exact Nat.toDigits_ne_nil
  obtain ⟨hspace, hminus, hplus⟩ := digit_cases (isDigit_toString (hds ▸ List.mem_cons_self))
  have hvalue := decimal_toString n hrest
  rw [hds, List.cons_append] at hvalue ⊢
  unfold atoi
  rw [List.dropWhile_cons_of_neg (by rw [hspace]; decide)]
  dsimp only
  rw [List.head?_cons, if_neg (by simpa using hminus), if_neg (by simpa using hplus), hvalue]

end Digits

-- What stands before the label of a link line.
def linkStart (id : Nat) : List UB := utf8 "[仮身] #" ++ utf8 (toString id) ++ utf8 " : "

theorem utf8_linkLine (id : Nat) (label href : String) :
    utf8 (linkLine id label href) =
      linkStart id ++ utf8 label ++ (utf8 " -> " ++ ([0x5B] ++ utf8 href ++ [0x5D])) := by
  have hclose : utf8 "]" = [0x5D] := rfl
  have hopen : utf8 " -> [" = utf8 " -> " ++ [0x5B] := rfl
  simp only [linkLine, linkStart, utf8_append, hclose, hopen, List.append_assoc]

theorem notMem_linkStart {c : UB} (id : Nat) (hc : c = 0 ∨ c = 0x2D) : c ∉ linkStart id := by
  have hopen : c ∉ utf8 "[仮身] #" := by rcases hc with rfl | rfl <;> decide
  have hclose : c ∉ utf8 " : " := by rcases hc with rfl | rfl <;> decide
  have hdigits : c ∉ utf8 (toString id) := by
    intro hmem
    have hdigit := isDigit_toString hmem
    rcases hc with rfl | rfl <;> exact absurd hdigit (by decide)
  simp only [linkStart, List.mem_append, not_or]
  exact ⟨⟨hopen, hdigits⟩, hclose⟩

theorem lineKind_link (id : Nat) (label href : String) :
    lineKind (utf8 (linkLine id label href)) = .vobj := by
  rw [utf8_linkLine, linkStart, List.append_assoc, List.append_assoc, List.append_assoc]
  rfl

theorem lineTarget_link (id : Nat) (label href : String) :
    lineTarget (utf8 (linkLine id label href)) = id := by
  have h0 : 0 ∉ linkStart id := notMem_linkStart id (.inl rfl)
  have hopen : utf8 "[仮身] #" = utf8 "[仮身] " ++ [0x23] := rfl
  have hclose : utf8 " : " = [0x20, 0x3A, 0x20] := rfl
  obtain ⟨rest, hrest⟩ : ∃ rest, cstr (utf8 (linkLine id label href)) =
      utf8 "[仮身] " ++ ([0x23] ++ (utf8 (toString id) ++ 0x20 :: rest)) := by
    rw [utf8_linkLine, List.append_assoc, cstr_append h0, linkStart, hopen, hclose]
    exact ⟨[0x3A, 0x20] ++ cstr (utf8 label ++ (utf8 " -> " ++ ([0x5B] ++ utf8 href ++ [0x5D]))),
      by simp⟩
  have hfind : strstr (utf8 "#") (cstr (utf8 (linkLine id label href))) = some 9 := by
    rw [hrest]
    exact strstr_append (by decide) [] _
  have hdrop : (cstr (utf8 (linkLine id label href))).drop (9 + 1) =
      utf8 (toString id) ++ 0x20 :: rest := by
    rw [hrest]
    rfl
  unfold lineTarget
  rw [hfind]
  dsimp only
  rw [hdrop, atoi_toString id (by simp [isDigit])]

-- The path behind the arrow, where nothing before it looks like one.
theorem linePath_arrow {as : List UB} (h0 : 0 ∉ as) (hdash : 0x2D ∉ as) (bs : List UB) :
    linePath (as ++ (utf8 " -> " ++ bs)) = strncpy bs 127 := by
  have harrow : utf8 " -> " = [0x20] ++ (0x2D :: [0x3E, 0x20]) := rfl
  have hcstr : cstr (as ++ (utf8 " -> " ++ bs)) =
      as ++ [0x20] ++ (0x2D :: [0x3E, 0x20] ++ cstr bs) := by
    rw [cstr_append h0, cstr_append (by decide), harrow]
    simp only [List.append_assoc]
  have hfind : strstr (utf8 "-> ") (cstr (as ++ (utf8 " -> " ++ bs))) =
      some (as ++ [0x20]).length := by
    rw [hcstr]
    exact strstr_append (c := 0x2D) (by simpa using hdash) [0x3E, 0x20] _
  have hdrop : (cstr (as ++ (utf8 " -> " ++ bs))).drop ((as ++ [0x20]).length + 3) = cstr bs := by
    rw [hcstr, ← List.append_assoc]
    exact List.drop_left' (by simp)
  unfold linePath
  rw [hfind]
  dsimp only
  rw [hdrop, strncpy_cstr]

theorem eq_take_bracket_iff {bs : List UB} :
    bs = ([0x5B] ++ bs ++ [0x5D]).take 127 ↔ bs = List.replicate 127 0x5B := by
  constructor
  · intro h
    have hmem := mem_of_eq_take (by decide) h
    have hlen := congrArg List.length h
    simp only [List.length_take, List.length_append, List.length_cons, List.length_nil] at hlen
    exact List.eq_replicate_iff.mpr ⟨by omega, fun b hb => by simpa using hmem b hb⟩
  · rintro rfl
    decide

-- A link line gives back its label and its path if and only if it names itself.
theorem fulfils_link (stale : Memory) (id : Nat) (label href : String) :
    Fulfils (linkLine id label href) (.link id label href)
        (some (lineSpan stale (utf8 (linkLine id label href)))) ↔
      utf8 label = (utf8 (linkLine id label href)).take 63 ∧
        utf8 href = List.replicate 127 0x5B := by
  have hkind := lineKind_link id label href
  have hline := utf8_linkLine id label href
  have hne : linkStart id ≠ [] := List.append_ne_nil_of_right_ne_nil _ (by decide)
  have h0 : 0 ∉ linkStart id := notMem_linkStart id (.inl rfl)
  have hdash : 0x2D ∉ linkStart id := notMem_linkStart id (.inr rfl)
  have hlabel : strncpy (utf8 (linkLine id label href)) 63 = utf8 label ↔
      utf8 label = (utf8 (linkLine id label href)).take 63 := by
    rw [hline]
    exact strncpy_eq_iff hne h0
  have hpath : utf8 label = (utf8 (linkLine id label href)).take 63 →
      (linePath (utf8 (linkLine id label href)) = utf8 href ↔
        utf8 href = List.replicate 127 0x5B) := by
    intro hname
    rw [hline] at hname ⊢
    have hmem := mem_of_eq_take hne hname
    have hclean : ∀ c, c ∉ linkStart id → c ∉ linkStart id ++ utf8 label := by
      intro c hc h
      exact (List.mem_append.mp h).elim hc fun h => hc (hmem c h)
    rw [linePath_arrow (hclean 0 h0) (hclean 0x2D hdash),
      strncpy_eq_iff (by decide) (by decide), eq_take_bracket_iff]
  unfold Fulfils lineSpan
  rw [hkind]
  dsimp only
  rw [lineTarget_link, hlabel]
  constructor
  · rintro ⟨-, -, -, hname, htarget⟩
    exact ⟨hname, (hpath hname).mp htarget⟩
  · rintro ⟨hname, htarget⟩
    exact ⟨rfl, rfl, rfl, hname, (hpath hname).mpr htarget⟩

-- The line of a role as the writer writes it.
def Written (line : String) : Role → Prop
  | .link id label href => line = linkLine id label href
  | .image width height src alt =>
    line = figureLine width height src alt ∧ (src = "" → height ≠ 130)
  | .picture => ∃ src alt, line = pictureLine src alt
  | .rule => line = duplicate '─' 70
  | .underline => line = duplicate '━' 40 ∨ line = duplicate '─' 40 ∨ line = duplicate '=' 80
  | .text => True
  | .other => True

theorem lineKind_figure (width height : Nat) (src alt : String) :
    lineKind (utf8 (figureLine width height src alt)) = .image := by
  obtain ⟨rest, hrest⟩ : ∃ rest, figureLine width height src alt = "[付箋: FIGURE w=" ++ rest := by
    unfold figureLine
    simp only [String.append_assoc]
    exact ⟨_, rfl⟩
  rw [hrest, utf8_append]
  rfl

theorem lineKind_picture (src alt : String) : lineKind (utf8 (pictureLine src alt)) = .image := by
  rw [pictureLine, utf8_append, utf8_append, List.append_assoc]
  rfl

theorem lineKind_duplicate {c : Char} (hc : c = '─' ∨ c = '━' ∨ c = '=') (n : Nat) :
    lineKind (utf8 (duplicate c (n + 3))) = .hr := by
  rw [utf8_duplicate_succ, utf8_duplicate_succ, utf8_duplicate_succ]
  rcases hc with rfl | rfl | rfl <;> rfl

theorem lineKind_rule {line : String} (h : line = duplicate '─' 70 ∨ line = duplicate '━' 40 ∨
    line = duplicate '─' 40 ∨ line = duplicate '=' 80) : lineKind (utf8 line) = .hr := by
  rcases h with rfl | rfl | rfl | rfl
  · exact lineKind_duplicate (.inl rfl) 67
  · exact lineKind_duplicate (.inr (.inl rfl)) 37
  · exact lineKind_duplicate (.inl rfl) 37
  · exact lineKind_duplicate (.inr (.inr rfl)) 77

theorem plainText_lineSpan {line : String} (stale : Memory) :
    plainText (lineSpan stale (utf8 line)) = true ↔ TextLine line := by
  unfold TextLine lineSpan
  cases lineKind (utf8 line) <;> simp [plainText, initStyle]

theorem text_lineSpan {line : String} (stale : Memory) (h : TextLine line)
    (hlen : (utf8 line).length < 512) :
    (lineSpan stale (utf8 line)).text = utf8 line ↔ 0 ∉ utf8 line := by
  have hcopy : strncpy (utf8 line) 511 = utf8 line ↔ 0 ∉ utf8 line := by
    refine ⟨fun heq => ?_, fun h0 => strncpy_eq h0 (by omega)⟩
    rw [← heq]
    exact zero_notMem_strncpy _ _
  obtain ⟨hvobj, himage, hhr⟩ := h
  unfold lineSpan
  cases hkind : lineKind (utf8 line) with
  | vobj => exact absurd hkind hvobj
  | image => exact absurd hkind himage
  | hr => exact absurd hkind hhr
  | _ => exact hcopy

-- What a line is decoded into is what it is written for if and only if it is kept.
theorem fulfils_span_iff {stale : Memory} {line : String} {role : Role} (hw : Written line role)
    (hne : line ≠ "") (hlen : (utf8 line).length < 512) {n : Nat} (hn : n < tadMaxSpans) :
    Fulfils line role (some (lineSpan stale (utf8 line))) ↔ Kept n line role := by
  cases role with
  | link id label href =>
      obtain rfl := hw
      rw [fulfils_link]
      exact (and_iff_right hn).symm
  | image width height src alt =>
      obtain ⟨rfl, hsrc⟩ := hw
      have hkind := lineKind_figure width height src alt
      refine iff_of_false ?_ id
      unfold Fulfils lineSpan
      rw [hkind]
      rintro ⟨-, -, hheight, hsrc', -⟩
      refine hsrc (utf8_eq_nil_iff.mp hsrc'.symm) (Int.natCast_inj.mp ?_)
      exact hheight.symm
  | picture =>
      obtain ⟨src, alt, rfl⟩ := hw
      refine iff_of_false (fun h => ?_) fun h => Nat.not_le_of_lt hn h
      exact ((plainText_lineSpan stale).mp h).2.1 (lineKind_picture src alt)
  | rule =>
      have hkind := lineKind_rule (.inl hw)
      refine iff_of_true ?_ hn
      unfold Fulfils lineSpan
      rw [hkind]
  | underline =>
      have hkind := lineKind_rule (.inr hw)
      refine iff_of_true ?_ trivial
      unfold Fulfils lineSpan
      rw [hkind]
  | text =>
      unfold Fulfils Kept
      dsimp only
      rw [plainText_lineSpan]
      constructor
      · rintro ⟨hline, htext⟩
        exact ⟨hne, hn, (text_lineSpan stale hline hlen).mp htext, hline⟩
      · rintro ⟨-, -, h0, hline⟩
        exact ⟨hline, (text_lineSpan stale hline hlen).mpr h0⟩
  | other =>
      unfold Fulfils Kept
      dsimp only
      rw [plainText_lineSpan]
      refine ⟨fun h => .inr (.inr h), fun h => ?_⟩
      rcases h with h | h | h
      · exact absurd h hne
      · omega
      · exact h

-- An empty line and a line behind the limit have no span.
theorem fulfils_none_iff {line : String} {role : Role} (hw : Written line role) {n : Nat}
    (hn : line = "" ∨ tadMaxSpans ≤ n) : Fulfils line role none ↔ Kept n line role := by
  have hempty : lineKind (utf8 "") = .plain := by rfl
  cases role with
  | link id label href =>
      refine iff_of_false (fun h => h) fun h => ?_
      rcases hn with rfl | hn
      · have hkind := lineKind_link id label href
        rw [← show "" = _ from hw, hempty] at hkind
        cases hkind
      · exact absurd h.1 (Nat.not_lt_of_le hn)
  | image width height src alt => exact Iff.rfl
  | picture =>
      refine iff_of_true trivial (hn.resolve_left ?_)
      rintro rfl
      obtain ⟨src, alt, hline⟩ := hw
      have hkind := lineKind_picture src alt
      rw [← hline, hempty] at hkind
      cases hkind
  | rule =>
      refine iff_of_false id fun h => ?_
      rcases hn with rfl | hn
      · have hkind := lineKind_rule (.inl hw)
        rw [hempty] at hkind
        cases hkind
      · exact absurd h (Nat.not_lt_of_le hn)
  | underline => exact Iff.rfl
  | text =>
      refine iff_of_false id fun h => ?_
      rcases hn with hn | hn
      · exact h.1 hn
      · exact absurd h.2.1 (Nat.not_lt_of_le hn)
  | other => exact iff_of_true trivial (hn.imp id .inl)

end BTron.Html2tad
