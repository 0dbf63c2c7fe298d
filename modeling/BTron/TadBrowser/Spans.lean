import BTron.TadBrowser.Browser
import BTron.TadBrowser.Text

namespace BTron.TadBrowser

open Lib Lib.Logged

-- The styles that a parser puts on texts.
structure TextStyle (style : TadStyle) : Prop where
  fontSize : style.fontSize ≤ 255
  linePitch : style.linePitch ≤ 255
  indent : style.indent ≤ 255

-- The texts end within their array.
structure TextArray (text : List UB) : Prop where
  length : text.length ≤ 511
  zero : 0 ∉ text

-- The spans that the parsers make.
structure Decoded (s : TadSpan) : Prop where
  text : TextArray s.text
  indent : s.style.indent ≤ 255
  image : s.style.isImage = true → s.style.isVobj = false ∧ 0 < s.style.imgH ∧
    s.style.imgH ≤ 32767
  style : s.style.isImage = false → TextStyle s.style
  link : s.isLink = s.style.isVobj
  vobj : s.style.isVobj = true → s.style.linePitch = 22 ∧ s.text ≠ []

theorem textArray_strncpy (bs : List UB) : TextArray (strncpy bs 511) := by
  refine ⟨?_, zero_notMem_strncpy bs 511⟩
  rw [strncpy, List.length_take]
  exact Nat.min_le_left _ _

theorem textArray_nil : TextArray [] := ⟨Nat.zero_le _, List.not_mem_nil⟩

-- A label behind a marker, or a word instead of it where it is empty.
theorem textArray_label {marker word label : List UB} (hlabel : label.length ≤ 127)
    (hmarker : marker.length ≤ 100) (hword : word.length ≤ 100) (h0 : 0 ∉ marker)
    (h0' : 0 ∉ word) : TextArray (marker ++ if cstr label = [] then word else cstr label) := by
  have hcstr : (cstr label).length ≤ label.length := (List.takeWhile_sublist _).length_le
  constructor
  · rw [List.length_append]
    split <;> omega
  · rw [List.mem_append, not_or]
    refine ⟨h0, ?_⟩
    split
    · exact h0'
    · exact zero_notMem_cstr label

theorem decoded_figure {s : TadSpan} (himage : s.style.isImage = true)
    (hvobj : s.style.isVobj = false) (hlink : s.isLink = false) (htext : TextArray s.text)
    (hindent : s.style.indent ≤ 255) (himgH : 0 < s.style.imgH ∧ s.style.imgH ≤ 32767) :
    Decoded s := by
  refine ⟨htext, hindent, fun _ => ⟨hvobj, himgH⟩, fun h => ?_, hlink.trans hvobj.symm,
    fun h => ?_⟩
  · cases himage.symm.trans h
  · cases hvobj.symm.trans h

theorem decoded_plain {s : TadSpan} (himage : s.style.isImage = false)
    (hvobj : s.style.isVobj = false) (hlink : s.isLink = false) (htext : TextArray s.text)
    (hstyle : TextStyle s.style) : Decoded s := by
  refine ⟨htext, hstyle.indent, fun h => ?_, fun _ => hstyle, hlink.trans hvobj.symm,
    fun h => ?_⟩
  · cases himage.symm.trans h
  · cases hvobj.symm.trans h

theorem byteAt_le (p : Memory) (i : Nat) : (byteAt p i).val ≤ 255 :=
  Nat.le_of_lt_succ (p (w32 i)).toNat_lt

theorem vobjLabel_length (p : Memory) (len dataOff : Nat) :
    (vobjLabel p len dataOff).val.1.length ≤ 63 := by
  rw [vobjLabel_eq]
  dsimp only
  split
  · simp
  · exact Nat.zero_le _

theorem prefixed_length (p : Memory) (i limit room : Nat) :
    (prefixed p i limit room).val.2.length ≤ room := by
  unfold prefixed
  simp only [val_bind, val_ite, val_pure]
  split
  · simp
  · exact Nat.zero_le _

theorem figureTexts_length (p : Memory) (offset segLen : Nat) :
    (figureTexts p offset segLen).val.1.length ≤ 127 := by
  unfold figureTexts
  simp only [val_bind, val_ite, val_pure]
  split <;> exact prefixed_length p _ _ 127

theorem orDefault_bounds {n : Nat} {dflt : Int} (h : 0 < dflt ∧ dflt ≤ 32767) :
    0 < orDefault (toH n) dflt ∧ orDefault (toH n) dflt ≤ 32767 := by
  unfold orDefault toH
  split_ifs <;> omega

theorem decoded_vobj (p : Memory) (len : Nat) {style : TadStyle} (offset segLen : Nat)
    (h : TextStyle style) (hplain : PlainStyle style) :
    Decoded (decodeVobj p len style offset segLen).val := by
  have hlabel := vobjLabel_length p len (vobjDataOff p offset segLen).val
  unfold decodeVobj
  simp only [val_bind, val_pure]
  constructor
  · exact textArray_label (by omega) (by decide) (by decide) (by decide)
      (by decide)
  · exact (by decide : 20 ≤ 255)
  · intro himage
    exact absurd (hplain.2.2.symm.trans himage) (by decide)
  · exact fun _ => ⟨h.fontSize, (by decide : 22 ≤ 255), (by decide : 20 ≤ 255)⟩
  · rfl
  · intro _
    refine ⟨rfl, fun hnil => ?_⟩
    exact absurd (List.append_eq_nil_iff.mp hnil).1 (by decide)

theorem decoded_fprim (p : Memory) {style : TadStyle} (offset segLen : Nat)
    (h : TextStyle style) (hplain : PlainStyle style) :
    Decoded (decodeFprim p style offset segLen).val := by
  obtain ⟨-, hvobj, himage⟩ := hplain
  have htext : ∀ caption : List UB, caption.length ≤ 127 → TextArray (utf8 "[図形] " ++
      if cstr caption = [] then utf8 "Figure" else cstr caption) := fun caption hlen =>
    textArray_label hlen (by decide) (by decide) (by decide)
      (by decide)
  unfold decodeFprim
  rw [val_bind, val_ite]
  split
  · rw [val_bind]
    dsimp only
    rw [val_ite]
    split
    · exact decoded_figure rfl hvobj rfl (htext _ (figureTexts_length p offset segLen))
        (by decide : 20 ≤ 255) (orDefault_bounds (by decide))
    · exact decoded_figure rfl hvobj rfl (htext [] (Nat.zero_le _)) (by decide : 20 ≤ 255)
        (orDefault_bounds (by decide))
  · exact decoded_plain himage hvobj rfl textArray_nil
      ⟨h.fontSize, (by decide : 12 ≤ 255), h.indent⟩

-- A segment keeps the style, and its span is one of a parser.
theorem decoded_segment (p : Memory) (len : Nat) {style : TadStyle} (tag offset segLen : Nat)
    (h : TextStyle style) (hplain : PlainStyle style) :
    TextStyle (decodeSegment p len style tag offset segLen).val.1 ∧
      ∀ s ∈ (decodeSegment p len style tag offset segLen).val.2.toList, Decoded s := by
  have hvobj := decoded_vobj p len offset segLen h hplain
  have hfprim := decoded_fprim p offset segLen h hplain
  have hbyte := byteAt_le p offset
  have hnext := byteAt_le p (offset + 1)
  unfold decodeSegment
  simp only [val_ite, val_bind, val_pure]
  split_ifs
  · exact ⟨⟨h.fontSize, hbyte, hnext⟩, by simp⟩
  · exact ⟨h, by simp⟩
  · exact ⟨⟨h.fontSize, h.linePitch, h.indent⟩, by simp⟩
  · exact ⟨h, by simp⟩
  · exact ⟨⟨hbyte, h.linePitch, h.indent⟩, by simp⟩
  · exact ⟨h, by simp⟩
  · exact ⟨h, by simpa using hvobj⟩
  · exact ⟨h, by simp⟩
  · exact ⟨h, by simpa using hfprim⟩
  · exact ⟨h, by simp⟩

theorem decoded_textSpan {style : TadStyle} (h : TextStyle style) (hplain : PlainStyle style)
    (line : List UB) : Decoded (textSpan style line) :=
  decoded_plain hplain.2.2 hplain.2.1 rfl (textArray_strncpy line) h

theorem decoded_load {b : Buffer} {s : LoadState} (h : Reaches (loadStep b) loadStart s) :
    ∀ span ∈ s.spans, Decoded span := by
  refine (run_preserves (P := fun s => (TextStyle s.style ∧ PlainStyle s.style) ∧
    ∀ span ∈ s.spans, Decoded span) (fun s s' hs hstep => ?_) ?_ h).2
  · obtain ⟨⟨hstyle, hplain⟩, hspans⟩ := hs
    obtain ⟨-, ⟨-, rfl⟩ | ⟨-, r, rfl, -, rfl⟩⟩ := loadStep_cases hstep
    · refine ⟨⟨hstyle, hplain⟩, fun span hspan => ?_⟩
      unfold textStep at hspan
      dsimp only at hspan
      split at hspan
      · rcases List.mem_append.mp hspan with hspan | hspan
        · exact hspans span hspan
        · cases List.mem_singleton.mp hspan
          exact decoded_textSpan hstyle hplain _
      · exact hspans span hspan
    · obtain ⟨hstyle', hadded⟩ := decoded_segment b.bytes b.len
        (segHeader b.bytes s.offset).val.1 (w32 (s.offset + 6))
        (segHeader b.bytes s.offset).val.2 hstyle hplain
      refine ⟨⟨hstyle', (decodeSegment_plain _ _ hplain _ _ _).1⟩, fun span hspan => ?_⟩
      rcases List.mem_append.mp hspan with hspan | hspan
      · exact hspans span hspan
      · exact hadded span hspan
  · refine ⟨⟨⟨by decide, by decide, by decide⟩, rfl, rfl, rfl⟩, fun span hspan => ?_⟩
    cases hspan

theorem lineKind_vobj {line : List UB} (h : lineKind line = .vobj) : strncpy line 511 ≠ [] := by
  have hstart : startsWith line "[仮身]" 8 = true := by
    unfold lineKind at h
    split_ifs at h with h₁ h₂ h₃
    exact h₃
  obtain ⟨rest, rfl⟩ := List.isPrefixOf_iff_prefix.mp hstart
  have hmarker : (utf8 "[仮身]").take 8 =
      [0x5B, 0xE4, 0xBB, 0xAE, 0xE8, 0xBA, 0xAB, 0x5D] := by decide
  rw [hmarker, strncpy, cstr]
  simp

theorem decoded_line (stale : Memory) (line : List UB) : Decoded (lineSpan stale line) := by
  have htext := textArray_strncpy line
  unfold lineSpan
  cases hkind : lineKind line <;> dsimp only
  case vobj =>
      refine ⟨htext, (by decide : 25 ≤ 255), fun h => ?_,
        fun _ => ⟨(by decide : 12 ≤ 255), (by decide : 22 ≤ 255), (by decide : 25 ≤ 255)⟩, rfl,
        fun _ => ⟨rfl, lineKind_vobj hkind⟩⟩
      cases h
  case image =>
      exact decoded_figure rfl rfl rfl htext (by decide : 20 ≤ 255)
        ⟨(by decide : (0 : Int) < 130), (by decide : (130 : Int) ≤ 32767)⟩
  case hr => exact decoded_plain rfl rfl rfl textArray_nil ⟨by decide, by decide, by decide⟩
  all_goals
    exact decoded_plain rfl rfl rfl htext ⟨Nat.le_of_ble_eq_true rfl, Nat.le_of_ble_eq_true rfl,
      Nat.le_of_ble_eq_true rfl⟩

theorem decoded_emptyLine : Decoded emptyLineSpan :=
  decoded_plain rfl rfl rfl textArray_nil ⟨by decide, by decide, by decide⟩

theorem decoded_parse {stale : Nat → Memory} {b : Buffer} {s : ParseState}
    (h : Reaches (parseStep stale b) parseStart s) : ∀ span ∈ s.spans, Decoded span := by
  refine run_preserves (P := fun s => ∀ span ∈ s.spans, Decoded span) (fun s s' hs hstep => ?_)
    (fun span hspan => ?_) h
  · unfold Next parseStep at hstep
    split at hstep
    · cases hstep
      intro span hspan
      rcases List.mem_append.mp hspan with hspan | hspan
      · exact hs span hspan
      · rw [List.mem_singleton.mp hspan]
        split
        · exact decoded_emptyLine
        · exact decoded_line _ _
    · cases hstep
  · cases hspan

theorem decoded_of_parses {b : Buffer} {spans : List TadSpan} (h : Parses b spans) :
    ∀ s ∈ spans, Decoded s := by
  rcases h with ⟨-, s, hs, rfl⟩ | ⟨-, stale, s, hs, rfl⟩
  · exact decoded_load hs.1
  · exact decoded_parse hs.1

end BTron.TadBrowser
