import BTron.Html2tad.Attributes
import BTron.Html2tad.SymbolicLines

namespace BTron.Html2tad

open Lib TadBrowser

def headerRoles (docTitle today : String) : List (String × Role) :=
  (headerLines docTitle today).zip [.underline, .other, .other, .other, .underline, .other, .other]

def elementLines (env : Env) (baseDir : String) : Element → List (String × Role)
  | .h1 title => [("【" ++ title ++ "】", .text), (duplicate '━' 40, .underline)]
  | .h2 title => [("■ " ++ title, .text), (duplicate '─' 40, .underline)]
  | .h3 title => [("▶ " ++ title, .text)]
  | .h4 title => [("◆ " ++ title, .text)]
  | .p text => [(text, .text)]
  | .pre code => [("```", .other), (code, .other), ("```", .other)]
  | .ul items => items.map fun item => ("  • " ++ item, .text)
  | .ol items =>
    (items.zipIdx 1).map fun (item, idx) => ("  " ++ toString idx ++ ". " ++ item, .text)
  | .table rows => rows.map fun row => (tableRow row, .text)
  | .link href label =>
    [(linkLine (robjId env href) label href, .link (robjId env href) label href)]
  | .image src alt =>
    let size := getImageDimensions env (actualPath env baseDir src)
    [(figureLine size.1 size.2 src alt, .image size.1 size.2 src alt),
      (pictureLine src alt, .picture)]
  | .hr => [(duplicate '─' 70, .rule)]
  | .text text => [(text, .other)]

def docLines (env : Env) (docTitle today baseDir : String) (elements : List Element) :
    List (String × Role) :=
  headerRoles docTitle today ++ elements.flatMap (elementLines env baseDir)

-- The spans are those of the lines in order, none for an empty line, and each is what its line
-- is written for.
def Told : List (String × Role) → List TadSpan → Prop
  | [], spans => spans = []
  | (line, role) :: lines, spans =>
    if line = "" then Fulfils line role none ∧ Told lines spans
    else Fulfils line role spans.head? ∧ Told lines spans.tail

def ReadsBack : Nat → List (String × Role) → Prop
  | _, [] => True
  | n, (line, role) :: lines =>
    Kept n line role ∧ ReadsBack (if line = "" then n else n + 1) lines

-- The buffer holds the symbolic document of `elements`.
structure Writes (env : Env) (docTitle today baseDir : String) (elements : List Element)
    (b : Buffer) : Prop where
  stored : Stored b.bytes 0 (utf8 (compileToSymbolicTad env docTitle today baseDir elements))
  length : b.len = (utf8 (compileToSymbolicTad env docTitle today baseDir elements)).length

-- The lines that are decoded.
def shownLines (lines : List (String × Role)) : List (List UB) :=
  (lines.map fun l => utf8 l.1).filter (· ≠ [])

theorem shownLines_cons (line : String) (role : Role) (lines : List (String × Role)) :
    shownLines ((line, role) :: lines) =
      if line = "" then shownLines lines else utf8 line :: shownLines lines := by
  unfold shownLines
  by_cases hnil : line = ""
  · rw [if_pos hnil, List.map_cons, List.filter_cons_of_neg (by simp [utf8_eq_nil_iff, hnil])]
  · rw [if_neg hnil, List.map_cons, List.filter_cons_of_pos (by simp [utf8_eq_nil_iff, hnil])]

-- The spans of a document are told by its lines if and only if all lines are kept.
theorem told_lineSpans (stale : Nat → Memory) (lines : List (String × Role))
    (hw : ∀ l ∈ lines, Written l.1 l.2) (hlen : ∀ l ∈ lines, (utf8 l.1).length < 512) (n : Nat) :
    Told lines (lineSpans stale n (shownLines lines)) ↔ ReadsBack n lines := by
  induction lines generalizing n with
  | nil => exact iff_of_true rfl trivial
  | cons l lines ih =>
      obtain ⟨line, role⟩ := l
      rw [List.forall_mem_cons] at hw hlen
      rw [shownLines_cons, Told, ReadsBack]
      by_cases hnil : line = ""
      · rw [if_pos hnil, if_pos hnil, if_pos hnil, fulfils_none_iff hw.1 (.inl hnil),
          ih hw.2 hlen.2]
      · rw [if_neg hnil, if_neg hnil, if_neg hnil, ← ih hw.2 hlen.2]
        by_cases hn : n < tadMaxSpans
        · rw [lineSpans, if_pos hn, List.head?_cons, List.tail_cons,
            fulfils_span_iff hw.1 hnil hlen.1 hn]
        · rw [lineSpans_of_le (by omega), lineSpans_of_le (by omega), List.head?_nil, List.tail_nil,
            fulfils_none_iff hw.1 (.inr (Nat.le_of_not_lt hn))]

section Document

variable {env : Env} {baseDir : String}

theorem elementText_eq (e : Element) :
    elementText env baseDir e = "\n".intercalate ((elementLines env baseDir e).map Prod.fst) := by
  cases e with
  | h1 title =>
      have hline : "】\n" = "】" ++ "\n" := rfl
      simp only [elementText, elementLines, List.map_cons, List.map_nil,
        String.intercalate_cons_cons, String.intercalate_singleton, hline, String.append_assoc]
  | pre code =>
      have hopen : "```\n" = "```" ++ "\n" := rfl
      have hclose : "\n```" = "\n" ++ "```" := rfl
      simp only [elementText, elementLines, List.map_cons, List.map_nil,
        String.intercalate_cons_cons, String.intercalate_singleton, hopen, hclose,
        String.append_assoc]
  | ul items => simp [elementText, elementLines, Function.comp_def]
  | ol items => simp [elementText, elementLines, Function.comp_def]
  | table rows => simp [elementText, elementLines, Function.comp_def]
  | _ =>
      simp only [elementText, elementLines, List.map_cons, List.map_nil,
        String.intercalate_cons_cons, String.intercalate_singleton, String.append_assoc]

theorem written_elementLines (hdir : env.readFile (actualPath env baseDir "") = none)
    (e : Element) :
    ∀ l ∈ elementLines env baseDir e, Written l.1 l.2 := by
  cases e with
  | image src alt =>
      have hsize : src = "" → (getImageDimensions env (actualPath env baseDir src)).2 ≠ 130 := by
        rintro rfl
        rw [getImageDimensions, hdir]
        decide
      simp only [elementLines, List.forall_mem_cons, List.not_mem_nil, false_imp_iff, implies_true,
        and_true]
      exact ⟨⟨rfl, hsize⟩, src, alt, rfl⟩
  | ol items =>
      intro l hl
      obtain ⟨item, -, rfl⟩ := List.mem_map.mp hl
      trivial
  | _ => simp [elementLines, Written]

theorem textLines_single {line : List UB} (hline : ∀ c ∈ line, isEol c = false) :
    textLines line = [line].filter (· ≠ []) := by
  rw [textLines_line hline]
  by_cases hnil : line = [] <;> simp [hnil]

-- Text without line ends joined by line feeds.
theorem textLines_intercalate (lines : List String)
    (hlines : ∀ l ∈ lines, ∀ c ∈ utf8 l, isEol c = false) :
    textLines (utf8 ("\n".intercalate lines)) = (lines.map utf8).filter (· ≠ []) := by
  induction lines with
  | nil => rfl
  | cons line lines ih =>
      rw [List.forall_mem_cons] at hlines
      have hline := textLines_single hlines.1
      cases lines with
      | nil => rw [String.intercalate_singleton, hline, List.map_singleton]
      | cons next lines =>
          rw [String.intercalate_cons_cons, utf8_append, utf8_append, List.append_assoc,
            show utf8 "\n" = [0x0A] from rfl, List.singleton_append, textLines_append _ _ rfl,
            ih hlines.2, hline, ← List.filter_append, List.singleton_append]
          rfl

theorem textLines_paragraphs (texts : List String) :
    textLines (utf8 ("\n\n".intercalate texts)) = texts.flatMap fun t => textLines (utf8 t) := by
  induction texts with
  | nil => rfl
  | cons text texts ih =>
      cases texts with
      | nil => rw [String.intercalate_singleton, List.flatMap_singleton]
      | cons next texts =>
          rw [String.intercalate_cons_cons, utf8_append, utf8_append, List.append_assoc,
            show utf8 "\n\n" = [0x0A, 0x0A] from rfl, List.cons_append, List.singleton_append,
            textLines_append _ _ rfl, textLines_cons rfl, ih]
          rfl

theorem utf8_join (lines : List String) : utf8 (String.join lines) = lines.flatMap utf8 := by
  simp only [utf8, String.toList_join, Utf8.bytes, List.flatMap_assoc]
  rfl

theorem textLines_join (lines : List String)
    (hlines : ∀ l ∈ lines, ∀ c ∈ utf8 l, isEol c = false) (rest : List UB) :
    textLines (utf8 (String.join (lines.map (· ++ "\n"))) ++ rest) =
      (lines.map utf8).filter (· ≠ []) ++ textLines rest := by
  rw [utf8_join]
  induction lines with
  | nil => rfl
  | cons line lines ih =>
      rw [List.forall_mem_cons] at hlines
      have hline := textLines_single hlines.1
      rw [List.map_cons, List.flatMap_cons, utf8_append, List.append_assoc, List.append_assoc,
        show utf8 "\n" = [0x0A] from rfl, List.singleton_append, textLines_append _ _ rfl, hline,
        ih hlines.2, ← List.append_assoc, ← List.filter_append, List.singleton_append]
      rfl

theorem textLines_compile {docTitle today : String} {elements : List Element}
    (hlines : ∀ l ∈ docLines env docTitle today baseDir elements, ∀ c ∈ utf8 l.1, isEol c = false) :
    textLines (utf8 (compileToSymbolicTad env docTitle today baseDir elements)) =
      shownLines (docLines env docTitle today baseDir elements) := by
  have hheader : (headerRoles docTitle today).map Prod.fst = headerLines docTitle today := rfl
  have hbody : ∀ elements : List Element,
      (∀ e ∈ elements, ∀ l ∈ elementLines env baseDir e, ∀ c ∈ utf8 l.1, isEol c = false) →
      (elements.map (elementText env baseDir)).flatMap (fun t => textLines (utf8 t)) =
        shownLines (elements.flatMap (elementLines env baseDir)) := by
    intro elements helements
    induction elements with
    | nil => rfl
    | cons e elements ih =>
        rw [List.forall_mem_cons] at helements
        rw [List.map_cons, List.flatMap_cons, ih helements.2, elementText_eq,
          textLines_intercalate _ (by simpa using helements.1), List.flatMap_cons, shownLines,
          shownLines, List.map_append, List.filter_append, List.map_map]
        rfl
  unfold docLines at hlines ⊢
  simp only [List.mem_append, or_imp, forall_and] at hlines
  have hnewline : utf8 "\n" = [0x0A] := rfl
  have hempty : textLines [0x0A] = [] := textLines_cons rfl []
  have hheader' : ∀ l ∈ headerLines docTitle today, ∀ c ∈ utf8 l, isEol c = false := by
    rw [← hheader]
    simpa using hlines.1
  have helements : ∀ e ∈ elements, ∀ l ∈ elementLines env baseDir e, ∀ c ∈ utf8 l.1,
      isEol c = false := fun e he l hl => hlines.2 l (List.mem_flatMap_of_mem he hl)
  rw [compileToSymbolicTad, utf8_append, utf8_append, utf8_append, header, hnewline,
    List.append_assoc, List.append_assoc, textLines_join _ hheader', List.singleton_append,
    textLines_cons rfl, textLines_append _ [] rfl, textLines_nil, List.append_nil,
    textLines_paragraphs, hbody elements helements, shownLines, shownLines, List.map_append,
    List.filter_append, ← hheader, List.map_map]
  rfl

theorem compile_head (docTitle today : String) (elements : List Element) :
    ∃ rest, utf8 (compileToSymbolicTad env docTitle today baseDir elements) = 0x3D :: rest := by
  rw [compileToSymbolicTad, utf8_append, utf8_append, utf8_append, header, utf8_join, headerLines,
    List.map_cons, List.flatMap_cons, utf8_append, utf8_duplicate_succ]
  exact ⟨_, rfl⟩

theorem written_docLines (hdir : env.readFile (actualPath env baseDir "") = none)
    (docTitle today : String) (elements : List Element) :
    ∀ l ∈ docLines env docTitle today baseDir elements, Written l.1 l.2 := by
  intro l hl
  rcases List.mem_append.mp hl with hheader | hbody
  · have hall : ∀ l ∈ headerRoles docTitle today, Written l.1 l.2 := by
      simp [headerRoles, headerLines, Written]
    exact hall l hheader
  · obtain ⟨e, -, he⟩ := List.mem_flatMap.mp hbody
    exact written_elementLines hdir e l he

end Document

-- The loop decodes a symbolic document into the spans of its lines.
theorem exits_docLines {env : Env} {docTitle today baseDir : String} {elements : List Element}
    {b : Buffer} (h : Writes env docTitle today baseDir elements b)
    (hlines : ∀ l ∈ docLines env docTitle today baseDir elements,
      (∀ c ∈ utf8 l.1, isEol c = false) ∧ (utf8 l.1).length < 512) (stale : Nat → Memory) :
    ∃ t, Exits (parseStep stale b) parseStart t ∧
      t.spans = lineSpans stale 0 (shownLines (docLines env docTitle today baseDir elements)) := by
  obtain ⟨rest, hhead⟩ := @compile_head env baseDir docTitle today elements
  have htext := textLines_compile fun l hl => (hlines l hl).1
  have hfirst : ∀ c ∈ (utf8 (compileToSymbolicTad env docTitle today baseDir elements)).head?,
      isEol c = false := by
    rw [hhead]
    intro c hc
    obtain rfl := Option.some.inj hc
    rfl
  have hshort : ∀ l ∈ textLines (utf8 (compileToSymbolicTad env docTitle today baseDir elements)),
      l.length < 512 := by
    intro l hl
    rw [htext] at hl
    obtain ⟨l, hmem, rfl⟩ := List.mem_map.mp (List.mem_of_mem_filter hl)
    exact (hlines l hmem).2
  obtain ⟨t, ht, hspans⟩ := exits_lines stale _ 0 [] h.stored (by rw [h.length, Nat.zero_add])
    hfirst hshort (Nat.zero_le _)
  rw [List.nil_append, htext] at hspans
  exact ⟨t, ht, hspans⟩

-- Reading back a symbolic document gives what its lines are written for if and only if they are
-- all kept.
theorem told_iff {env : Env} {docTitle today baseDir : String} {elements : List Element}
    {b : Buffer} (h : Writes env docTitle today baseDir elements b)
    (hdir : env.readFile (actualPath env baseDir "") = none)
    (hlines : ∀ l ∈ docLines env docTitle today baseDir elements,
      (∀ c ∈ utf8 l.1, isEol c = false) ∧ (utf8 l.1).length < 512) (stale : Nat → Memory) :
    ¬isBinaryTad b ∧ ∃ t, Exits (parseStep stale b) parseStart t ∧
      (Told (docLines env docTitle today baseDir elements) t.spans ↔
        ReadsBack 0 (docLines env docTitle today baseDir elements)) := by
  obtain ⟨rest, hhead⟩ := @compile_head env baseDir docTitle today elements
  have hbinary : ¬isBinaryTad b := by
    rintro ⟨-, hzero, -⟩
    have hs := h.stored
    rw [hhead, stored_cons, hzero] at hs
    exact absurd hs.1 (by decide)
  obtain ⟨t, ht, hspans⟩ := exits_docLines h hlines stale
  refine ⟨hbinary, t, ht, ?_⟩
  rw [hspans]
  exact told_lineSpans stale _ (written_docLines hdir docTitle today elements)
    (fun l hl => (hlines l hl).2) 0

theorem writes_ofBytes (env : Env) (docTitle today baseDir : String) (elements : List Element)
    (h : (utf8 (compileToSymbolicTad env docTitle today baseDir elements)).length < 4294967296) :
    Writes env docTitle today baseDir elements
      (Buffer.ofBytes (utf8 (compileToSymbolicTad env docTitle today baseDir elements)) h) := by
  refine ⟨?_, Buffer.ofBytes_len _ h⟩
  rw [Buffer.ofBytes_bytes]
  exact stored_ofList _

theorem length_helloText :
    (utf8 (compileToSymbolicTad bareEnv "T" "2026-01-01" "" [.p "Hello"])).length < 4294967296 := by
  rw [utf8_eq]
  decide +kernel

def helloText : Buffer := .ofBytes _ length_helloText

theorem told_iff_helloText :
    ¬isBinaryTad helloText ∧ ∃ t, Exits (parseStep (fun _ _ => 0) helloText) parseStart t ∧
      (Told (docLines bareEnv "T" "2026-01-01" "" [.p "Hello"]) t.spans ↔
        ReadsBack 0 (docLines bareEnv "T" "2026-01-01" "" [.p "Hello"])) :=
  told_iff (writes_ofBytes _ _ _ _ _ length_helloText) rfl
    (by simp only [utf8_eq]; decide +kernel) _

theorem length_figureText :
    (utf8 (compileToSymbolicTad bareEnv "T" "2026-01-01" "" [.image "a.gif" "Fig"])).length <
      4294967296 := by
  rw [utf8_eq]
  decide +kernel

def figureText : Buffer := .ofBytes _ length_figureText

-- A figure of 480 by 140 is read back as two of 480 by 130 that have no source.
theorem figureText_loses_source :
    Writes bareEnv "T" "2026-01-01" "" [.image "a.gif" "Fig"] figureText ∧
      getImageDimensions bareEnv "a.gif" = (480, 140) ∧
      ∃ t, Exits (parseStep (fun _ _ => 0) figureText) parseStart t ∧
        (t.spans.filter (·.style.isImage)).map
            (fun s => (s.style.imgW, s.style.imgH, s.style.imgSrc, s.style.imgCaption)) =
          [(480, 130, [], utf8 "Fig"), (480, 130, [], utf8 "[画像: Fig]")] ∧
        ¬Told (docLines bareEnv "T" "2026-01-01" "" [.image "a.gif" "Fig"]) t.spans := by
  have hwrites := writes_ofBytes _ _ _ _ _ length_figureText
  have hlines : ∀ l ∈ docLines bareEnv "T" "2026-01-01" "" [.image "a.gif" "Fig"],
      (∀ c ∈ utf8 l.1, isEol c = false) ∧ (utf8 l.1).length < 512 := by
    simp only [utf8_eq]
    decide +kernel
  obtain ⟨t, ht, hspans⟩ := exits_docLines hwrites hlines fun _ _ => 0
  refine ⟨hwrites, rfl, t, ht, ?_, ?_⟩
  · rw [hspans]
    simp only [shownLines, utf8_eq]
    decide +kernel
  · rw [hspans, told_lineSpans _ _ (written_docLines rfl _ _ _) fun l hl => (hlines l hl).2]
    exact fun h => h.2.2.2.2.2.2.2.1

end BTron.Html2tad
