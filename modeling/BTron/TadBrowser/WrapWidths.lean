import BTron.TadBrowser.WrapLines

namespace BTron.TadBrowser

open Lib Lib.Logged Lib.Utf8 TronCode
open Editor (tcGetCharAdvance)
open Graphics (asH)
open String (utf8EncodeChar)

-- What the callback is given measures as wide as it is told, and not wider than the lines.
def WrapLine.Fits (maxW : Int) (call : WrapLine) : Prop :=
  ∃ w, Gives (fun fuel => tcCalcStringWidth fuel (ofList call.buf) call.buf.length) w ∧
    w = call.w ∧ w ≤ maxW

-- The turn breaks the line at a character that goes over its width.
def Wrap.Wraps (s : Wrap) (text : Memory) (maxW : Int) : Prop :=
  s.point = .character ∧ text s.p ≠ 0 ∧ ¬IsNewline (text s.p) ∧ s.Overflows text maxW

-- A hyphen, a slash or a tsheg, which the line is broken behind.
def Wrap.BreaksBehind (s : Wrap) (text : Memory) : Prop :=
  text s.p = 0x2D ∨ text s.p = 0x2F ∨ (s.code text >>> 8 = 0x6F ∧ s.code text &&& 0xFF = 0x0B)

-- The end of the line that the turn gives to the callback.
def Wrap.emits (s : Wrap) (text : Memory) (maxW : Int) : Option Nat :=
  match s.point with
  | .spaces => none
  | .character =>
    if text s.p = 0 then
      if s.p > s.lineStart ∨ s.lineIdx = 0 then some s.p else none
    else if text s.p = 0x0A ∨ text s.p = 0x0D then some s.p
    else if s.Overflows text maxW then some (s.break text).1
    else none

-- That line fits into the buffer of 512 bytes.
def Wrap.Short (s : Wrap) (text : Memory) (maxW : Int) : Prop :=
  ∀ pt, s.emits text maxW = some pt → pt ≤ s.lineStart + 511

theorem advance_bounds (code prev : TC) :
    0 ≤ tcGetCharAdvance code prev ∧ tcGetCharAdvance code prev ≤ 16 := by
  unfold tcGetCharAdvance
  dsimp only
  split_ifs <;> decide

theorem measured_bounds (prev : TC) (codes : List TC) :
    0 ≤ measured prev codes ∧ measured prev codes ≤ 16 * codes.length := by
  induction codes generalizing prev with
  | nil => exact ⟨Int.le_refl _, Int.le_refl _⟩
  | cons code codes ih =>
      have hadv := advance_bounds code prev
      have hrest := ih (prevAfter code prev (tcGetCharAdvance code prev))
      rw [measured, List.length_cons]
      push_cast
      omega

theorem length_le_bytes (line : List Char) : line.length ≤ (bytes line).length := by
  induction line with
  | nil => exact Nat.le_refl _
  | cons c line ih =>
      have hpos := encode_length_pos c
      rw [List.length_cons, bytes_cons, List.length_append]
      omega

-- The width of a line that fits into the buffer does not wrap around.
theorem lineW_short {line : List Char} (h : (bytes line).length ≤ 511) :
    lineW line = measured 0 (line.map tcOf) := by
  have hbounds := measured_bounds 0 (line.map tcOf)
  have hlen := length_le_bytes line
  rw [List.length_map] at hbounds
  exact Graphics.asH_of_range (by omega)

theorem textAt_ofList (line : List Char) : TextAt (ofList (bytes line)) 0 line := by
  have hend : ofList (bytes line) (0 + (bytes line).length) = 0 := by
    rw [ofList, Nat.zero_add, List.getD_eq_default _ _ (Nat.le_refl _)]
    rfl
  exact (stored_append ..).mpr ⟨stored_ofList _, (stored_cons ..).mpr ⟨hend, stored_nil _ _⟩⟩

theorem fits_record {line : List Char} {maxW : Int} (idx : Nat)
    (hlen : (bytes line).length ≤ 511) (hline : ∀ c ∈ line, InLine c) (hw : lineW line ≤ maxW) :
    (record idx line).Fits maxW := by
  unfold WrapLine.Fits record
  rw [List.take_of_length_le hlen]
  exact ⟨_, calc_gives hline (textAt_ofList line) (Nat.le_refl _), rfl, hw⟩

-- Neither the line nor a remembered part of it is too wide.
def Wrap.Narrow (s : Wrap) (maxW : Int) : Prop :=
  s.curLineW ≤ maxW ∧ ∀ pt, s.lastBreak = some pt → s.lastBreakW ≤ maxW

theorem asH_le {n : Int} (h : -32768 ≤ n) : asH n ≤ n := by
  rw [Graphics.asH_eq]
  omega

theorem lineW_ge (line : List Char) : -32768 ≤ lineW line := by
  rw [lineW, Graphics.asH_eq]
  omega

variable {text : Memory} {cs : List Char} {maxW : Int} {s t : Wrap}

-- What the width of the line becomes with a character that does not go over it.
theorem next_width_le (hmax : 40 ≤ maxW) (hlow : -32768 ≤ s.curLineW)
    (hpass : ¬s.Overflows text maxW) : asH (s.curLineW + s.adv text) ≤ maxW := by
  obtain ⟨hadv0, hadv⟩ := advance_bounds (s.code text) s.prevCode
  have hle : asH (s.curLineW + s.adv text) ≤ s.curLineW + s.adv text := by
    refine asH_le ?_
    unfold Wrap.adv
    omega
  unfold Wrap.Overflows at hpass
  unfold Wrap.adv at hle hpass ⊢
  omega

-- The remembered part stays narrow, but for a character that the line is broken behind.
theorem last_narrow (h : s.Narrow maxW)
    (hbehind : s.BreaksBehind text → asH (s.curLineW + s.adv text) ≤ maxW) {pt : Nat}
    (hpt : (s.last text).1 = some pt) : (s.last text).2 ≤ maxW := by
  unfold Wrap.last Wrap.candidate at hpt ⊢
  split
  · exact h.1
  rename_i hsp
  rw [if_neg hsp] at hpt
  split
  · rename_i hdash
    exact hbehind (hdash.elim .inl fun hslash => .inr (.inl hslash))
  rename_i hdash
  rw [if_neg hdash] at hpt
  split
  · rename_i htsheg
    exact hbehind (.inr (.inr htsheg))
  rename_i htsheg
  rw [if_neg htsheg] at hpt
  split
  · exact h.1
  · rename_i hcjk
    rw [if_neg hcjk] at hpt
    exact h.2 pt hpt

theorem break_narrow (h : s.Narrow maxW) (hbehind : ¬s.BreaksBehind text) :
    (s.break text).2 ≤ maxW := by
  unfold Wrap.break Wrap.breakAt
  cases hlast : (s.last text).1 with
  | none => exact h.1
  | some pt =>
      dsimp only
      split
      · exact h.1
      · exact last_narrow h (fun hb => absurd hb hbehind) hlast

theorem narrow_next (hmax : 40 ≤ maxW) (hlow : s.point = .character → -32768 ≤ s.curLineW)
    (h : s.Narrow maxW) (ht : s.Turn text maxW true t) : t.Narrow maxW := by
  have hfresh : ∀ u : Wrap, u.curLineW = 0 → u.lastBreak = none → u.Narrow maxW := by
    intro u hw hlast
    refine ⟨by omega, fun pt hpt => ?_⟩
    rw [hlast] at hpt
    cases hpt
  cases ht with
  | skip _ _ => exact h
  | resume _ _ => exact hfresh _ rfl rfl
  | newline _ _ _ => exact hfresh _ rfl rfl
  | wrap _ _ _ _ => exact h
  | pass hpoint _ _ hover =>
      have hwidth := next_width_le hmax (hlow hpoint) hover
      exact ⟨hwidth, fun pt hpt => last_narrow h (fun _ => hwidth) hpt⟩

theorem Wrap.emits_character (hpoint : s.point = .character) :
    s.emits text maxW =
      if text s.p = 0 then
        if s.p > s.lineStart ∨ s.lineIdx = 0 then some s.p else none
      else if text s.p = 0x0A ∨ text s.p = 0x0D then some s.p
      else if s.Overflows text maxW then some (s.break text).1
      else none := by
  unfold Wrap.emits
  rw [hpoint]

theorem Wrap.emits_newline (hpoint : s.point = .character) (hne : text s.p ≠ 0)
    (hnl : IsNewline (text s.p)) : s.emits text maxW = some s.p := by
  rw [Wrap.emits_character hpoint, if_neg hne]
  exact if_pos hnl

theorem Wrap.emits_wrap (h : s.Wraps text maxW) : s.emits text maxW = some (s.break text).1 := by
  obtain ⟨hpoint, hne, hnl, hover⟩ := h
  have hnl' : ¬(text s.p = 0x0A ∨ text s.p = 0x0D) := hnl
  rw [Wrap.emits_character hpoint, if_neg hne, if_neg hnl', if_pos hover]

theorem describes_low (h : Describes cs true s) (hpoint : s.point = .character) :
    -32768 ≤ s.curLineW := by
  unfold Describes at h
  rw [hpoint] at h
  obtain ⟨lines, done, line, rest, h⟩ := h
  rw [h.width]
  exact lineW_ge line

-- A short line that is not broken behind a character that goes over its width fits.
theorem fits_next (htext : TextAt text 0 cs) (hcs : ∀ c ∈ cs, 0 < c.toNat)
    (h : Describes cs true s) (hn : s.Narrow maxW) (hshort : s.Short text maxW)
    (hover : s.Wraps text maxW → ¬s.BreaksBehind text)
    (hcalls : ∀ call ∈ s.calls, call.Fits maxW) (ht : s.Turn text maxW true t) :
    ∀ call ∈ t.calls, call.Fits maxW := by
  unfold Describes at h
  cases ht with
  | skip _ _ => exact hcalls
  | resume _ _ => exact hcalls
  | newline hpoint hne hnl =>
      rw [hpoint] at h
      obtain ⟨lines, done, line, rest, h⟩ := h
      have hend := hshort _ (Wrap.emits_newline hpoint hne hnl)
      have hplace := h.place
      have hstart := h.lineStart
      rw [emitted_eq (h.textAt htext).1 (by rw [h.place, h.lineStart]) h.width]
      intro call hcall
      rcases List.mem_append.mp hcall with hcall | hcall
      · exact hcalls call hcall
      · cases List.mem_singleton.mp hcall
        exact fits_record _ (by omega) h.inLine (h.width ▸ hn.1)
  | wrap hpoint hne hnl hgo =>
      rw [hpoint] at h
      obtain ⟨lines, done, line, rest, h⟩ := h
      obtain ⟨c, tail, rfl, h0, hc, htail⟩ := h.exists_char htext hcs hne
      obtain ⟨k, hk, hplace, hwidth⟩ := h.break h0 hc
      have hwraps : s.Wraps text maxW := ⟨hpoint, hne, hnl, hgo⟩
      have hend := hshort _ (Wrap.emits_wrap hwraps)
      have hall := inLine_concat h.inLine h0 hc hnl
      have hstart := h.lineStart
      rw [emitted_eq (h.stored_take htext) (by rw [hplace, h.lineStart]) hwidth]
      intro call hcall
      rcases List.mem_append.mp hcall with hcall | hcall
      · exact hcalls call hcall
      · cases List.mem_singleton.mp hcall
        refine fits_record _ (by omega) (fun d hd => hall d (List.mem_of_mem_take hd)) ?_
        exact hwidth ▸ break_narrow hn (hover hwraps)
  | pass _ _ _ _ => exact hcalls

theorem fits_stop (htext : TextAt text 0 cs) {r : Nat × List WrapLine}
    (h : Describes cs true s) (hn : s.Narrow maxW) (hshort : s.Short text maxW)
    (hcalls : ∀ call ∈ s.calls, call.Fits maxW)
    (hr : (wrapTurn text maxW true s).val = .inr r) : ∀ call ∈ r.2, call.Fits maxW := by
  obtain ⟨hpoint, h0, hval⟩ := wrapTurn_stop hr
  unfold Describes at h
  rw [hpoint] at h
  obtain ⟨lines, done, line, rest, h⟩ := h
  rw [finish_val, emitted_eq (h.textAt htext).1 (by rw [h.place, h.lineStart]) h.width] at hval
  split at hval
  · rename_i hsome
    have hemits : s.emits text maxW = some s.p := by
      rw [Wrap.emits_character hpoint, if_pos h0, if_pos hsome]
    have hend := hshort _ hemits
    have hplace := h.place
    have hstart := h.lineStart
    subst hval
    intro call hcall
    rcases List.mem_append.mp hcall with hcall | hcall
    · exact hcalls call hcall
    · cases List.mem_singleton.mp hcall
      exact fits_record _ (by omega) h.inLine (h.width ▸ hn.1)
  · subst hval
    exact hcalls

-- A line that goes over its width with a character that it is broken behind keeps this character.
theorem Laid.break_behind {cb : Bool} {lines : List (List Char)} {done line rest : List Char}
    {c : Char} (h : Laid cs cb s lines done line (c :: rest)) (h0 : 0 < c.toNat)
    (hc : Stored text s.p (utf8EncodeChar c)) (hbehind : s.BreaksBehind text) :
    s.break text =
      ((bytes done).length + (bytes (line ++ [c])).length, lineW (line ++ [c])) := by
  have hsp : text s.p ≠ 0x20 := by
    intro hsp
    rcases hbehind with hdash | hslash | ⟨htib, -⟩
    · rw [hsp] at hdash
      exact absurd hdash (by decide)
    · rw [hsp] at hslash
      exact absurd hslash (by decide)
    · have hspace : c = ' ' := eq_of_toNat (d := ' ') ((head_eq_iff (by decide) hc).mp hsp)
      rw [code_eq h0 hc, hspace] at htib
      exact absurd htib (by decide)
  have hlast : s.last text = (some (s.p + (utf8EncodeChar c).length), lineW (line ++ [c])) := by
    rw [← adv_eq h0 hc h.prev, ← h.width]
    unfold Wrap.last Wrap.candidate
    rw [if_neg hsp]
    by_cases hdash : text s.p = 0x2D ∨ text s.p = 0x2F
    · have hascii : c.toNat < 0x80 := by
        rcases hdash with hdash | hdash
        · rw [(head_eq_iff (by decide) hc).mp hdash]
          decide
        · rw [(head_eq_iff (by decide) hc).mp hdash]
          decide
      rw [if_pos hdash, ascii_length hascii]
    · have htsheg := hbehind.elim (fun hd => absurd (.inl hd) hdash)
        (·.elim (fun hs => absurd (.inr hs) hdash) id)
      rw [if_neg hdash, if_pos htsheg, step_len h0 hc]
  have hpos := encode_length_pos c
  have hplace := h.place
  have hstart := h.lineStart
  unfold Wrap.break Wrap.breakAt
  rw [hlast]
  dsimp only
  rw [if_neg (by omega), bytes_concat_length, hplace, Nat.add_assoc]

theorem unfit_next (htext : TextAt text 0 cs) (hcs : ∀ c ∈ cs, 0 < c.toNat)
    (h : Describes cs true s) (hshort : s.Short text maxW) (hwraps : s.Wraps text maxW)
    (hbehind : s.BreaksBehind text) (ht : s.Turn text maxW true t) :
    ∃ call ∈ t.calls, ¬call.Fits maxW := by
  have hend := hshort _ (Wrap.emits_wrap hwraps)
  obtain ⟨hpoint, hne, hnl, hover⟩ := hwraps
  unfold Describes at h
  rw [hpoint] at h
  obtain ⟨lines, done, line, rest, h⟩ := h
  obtain ⟨c, tail, rfl, h0, hc, htail⟩ := h.exists_char htext hcs hne
  have hbreak := h.break_behind h0 hc hbehind
  have hstart := h.lineStart
  have hstored : Stored text s.lineStart (bytes (line ++ [c])) := by
    have htake := h.stored_take htext (k := (line ++ [c]).length)
    rwa [List.take_length] at htake
  rw [hbreak] at hend
  -- the line is short, so its width is the one that was compared
  have hlen : (bytes (line ++ [c])).length ≤ 511 := by
    dsimp only at hend
    omega
  have hwide : maxW < lineW (line ++ [c]) := by
    have hline : (bytes line).length ≤ 511 := by
      rw [bytes_concat_length] at hlen
      omega
    have hsum : s.curLineW + s.adv text = lineW (line ++ [c]) := by
      rw [lineW_short hlen, h.width, lineW_short hline, List.map_append, Wrap.adv,
        code_eq h0 hc, h.prev]
      exact (measured_append 0 _ _).symm
    exact hsum ▸ hover.1
  refine ⟨record s.lineIdx (line ++ [c]), ?_, ?_⟩
  · cases ht with
    | skip hspaces _ => cases hpoint.symm.trans hspaces
    | resume hspaces _ => cases hpoint.symm.trans hspaces
    | newline _ _ hnl' => exact absurd hnl' hnl
    | wrap _ _ _ _ =>
        rw [hbreak, emitted_eq hstored (by rw [h.lineStart]) rfl]
        exact List.mem_append_right _ (List.mem_singleton_self _)
    | pass _ _ _ hpass => exact absurd hover hpass
  · rintro ⟨w, -, hw, hle⟩
    rw [hw] at hle
    exact absurd hle (Int.not_le.mpr hwide)

theorem calls_next (ht : s.Turn text maxW true t) {call : WrapLine} (h : call ∈ s.calls) :
    call ∈ t.calls := by
  cases ht with
  | skip _ _ => exact h
  | resume _ _ => exact h
  | newline _ _ _ => exact List.mem_append_left _ h
  | wrap _ _ _ _ => exact List.mem_append_left _ h
  | pass _ _ _ _ => exact h

-- A call that was made is among the calls in the end.
theorem calls_kept {x : Logged (Nat × List WrapLine)} (h : Ends (wrapTurn text maxW true) s x)
    {call : WrapLine} (hcall : call ∈ s.calls) : call ∈ x.val.2 := by
  induction h with
  | stop hturn =>
      obtain ⟨-, -, hval⟩ := wrapTurn_stop hturn
      rw [finish_val] at hval
      split at hval
      · subst hval
        exact List.mem_append_left _ hcall
      · subst hval
        exact hcall
  | next hturn _ ih => exact ih (calls_next (wrapTurn_next hturn) hcall)

theorem describes_reached (htext : TextAt text 0 cs) (hcs : ∀ c ∈ cs, 0 < c.toNat)
    (h : Reaches (turn (wrapTurn text maxW true)) Wrap.start s) : Describes cs true s :=
  run_preserves (P := Describes cs true) (fun _ _ hs hnext =>
    describes_next htext hcs hs (wrapTurn_next (next_turn.mp hnext))) (describes_start cs true) h

theorem narrow_reached (htext : TextAt text 0 cs) (hcs : ∀ c ∈ cs, 0 < c.toNat)
    (hmax : 40 ≤ maxW) (h : Reaches (turn (wrapTurn text maxW true)) Wrap.start s) :
    s.Narrow maxW := by
  induction h with
  | refl =>
      refine ⟨Int.le_trans (by decide) hmax, fun pt hpt => ?_⟩
      cases hpt
  | tail hr hnext ih =>
      exact narrow_next hmax (describes_low (describes_reached htext hcs hr)) ih
        (wrapTurn_next (next_turn.mp hnext))

-- The calls that a state has made fit if every turn before it is short and none breaks a line
-- behind a character that goes over its width.
theorem fits_reached (htext : TextAt text 0 cs) (hcs : ∀ c ∈ cs, 0 < c.toNat) (hmax : 40 ≤ maxW)
    (hshort : ∀ s, Reaches (turn (wrapTurn text maxW true)) Wrap.start s → s.Short text maxW)
    (hover : ∀ s, Reaches (turn (wrapTurn text maxW true)) Wrap.start s →
      s.Wraps text maxW → ¬s.BreaksBehind text)
    (h : Reaches (turn (wrapTurn text maxW true)) Wrap.start s) :
    ∀ call ∈ s.calls, call.Fits maxW := by
  induction h with
  | refl =>
      intro call hcall
      cases hcall
  | tail hr hnext ih =>
      exact fits_next htext hcs (describes_reached htext hcs hr)
        (narrow_reached htext hcs hmax hr) (hshort _ hr) (hover _ hr) ih
        (wrapTurn_next (next_turn.mp hnext))

theorem fits_iff (htext : TextAt text 0 cs) (hcs : ∀ c ∈ cs, 0 < c.toNat) (hmax : 40 ≤ maxW)
    (hshort : ∀ s, Reaches (turn (wrapTurn text maxW true)) Wrap.start s → s.Short text maxW)
    {x : Logged (Nat × List WrapLine)} (hx : Ends (wrapTurn text maxW true) Wrap.start x) :
    (∀ call ∈ x.val.2, call.Fits maxW) ↔
      ∀ s, Reaches (turn (wrapTurn text maxW true)) Wrap.start s →
        s.Wraps text maxW → ¬s.BreaksBehind text := by
  constructor
  · intro hfits s hr hwraps hbehind
    obtain ⟨y, hy, hval⟩ := hx.of_reaches hr
    cases hy with
    | stop hstop => exact absurd (wrapTurn_stop hstop).2.1 hwraps.2.1
    | next hturn hy =>
        obtain ⟨call, hcall, hunfit⟩ := unfit_next htext hcs (describes_reached htext hcs hr)
          (hshort s hr) hwraps hbehind (wrapTurn_next hturn)
        exact hunfit (hfits call (hval ▸ calls_kept hy hcall))
  · intro hover
    -- the last state is reached, and the loop ends there
    obtain ⟨s, hr, hstop⟩ := hx.exists_last
    exact fits_stop htext (describes_reached htext hcs hr) (narrow_reached htext hcs hmax hr)
      (hshort s hr) (fits_reached htext hcs hmax hshort hover hr) hstop

-- Where every line fits into the buffer, the lines are as wide as the callback is told and not
-- wider than asked for if and only if no line is broken behind the very character that goes over
-- its width.
theorem wrap_fits_iff (htext : TextAt text 0 cs) (hcs : ∀ c ∈ cs, 0 < c.toNat)
    (hmax : 40 ≤ maxW) :
    ∃ n calls, Gives (fun fuel => tadBrowserWrapText fuel text maxW true) (n, calls) ∧
      ((∀ s, Reaches (turn (wrapTurn text maxW true)) Wrap.start s → s.Short text maxW) →
        ((∀ call ∈ calls, call.Fits maxW) ↔
          ∀ s, Reaches (turn (wrapTurn text maxW true)) Wrap.start s →
            s.Wraps text maxW → ¬s.BreaksBehind text)) := by
  by_cases h0 : text 0 = 0
  · have hnil := empty_of_zero htext hcs h0
    subst hnil
    refine ⟨1, [⟨[], 0, 0⟩], ⟨0, ?_⟩, fun _ => ⟨fun _ s hr hwraps => ?_, fun _ call hcall => ?_⟩⟩
    · simp only [tadBrowserWrapText, val_read_bind, if_pos h0]
      rfl
    · have hdesc := describes_reached htext hcs hr
      unfold Describes at hdesc
      rw [hwraps.1] at hdesc
      obtain ⟨lines, done, line, rest, h⟩ := hdesc
      obtain ⟨c, tail, rfl, -⟩ := h.exists_char htext hcs hwraps.2.1
      have htext' := h.text
      simp at htext'
    · cases List.mem_singleton.mp hcall
      exact @fits_record [] maxW 0 (by decide) (by simp) (Int.le_trans (by decide) hmax)
  · have hwhole := whole_of_textAt htext hcs
    have hend := htext.terminator
    rw [Nat.zero_add] at hwhole hend
    obtain ⟨x, hx, -⟩ := wrap_ends hend hwhole maxW true
    refine ⟨x.val.1, x.val.2, ?_, fun hshort => fits_iff htext hcs hmax hshort hx⟩
    refine gives_of_ends h0 ?_
    rw [if_neg (by omega)]
    exact hx

theorem wrap_fits_two_words :
    ∃ n calls,
      Gives (fun fuel => tadBrowserWrapText fuel (ofList (bytes "to be".toList)) 40 true)
        (n, calls) ∧
      ((∀ s, Reaches (turn (wrapTurn (ofList (bytes "to be".toList)) 40 true)) Wrap.start s →
          s.Short (ofList (bytes "to be".toList)) 40) →
        ((∀ call ∈ calls, call.Fits 40) ↔
          ∀ s, Reaches (turn (wrapTurn (ofList (bytes "to be".toList)) 40 true)) Wrap.start s →
            s.Wraps (ofList (bytes "to be".toList)) 40 →
              ¬s.BreaksBehind (ofList (bytes "to be".toList)))) :=
  wrap_fits_iff (textAt_ofList _) (by simp) (by decide)

-- Five letters are 40 dots wide. The hyphen behind them makes the line 48.
theorem wrap_hyphen_over :
    (tadBrowserWrapText 20 (ofList (bytes "aaaaa-b".toList)) 40 true).val =
      some (2, [⟨bytes "aaaaa-".toList, 48, 0⟩, ⟨bytes "b".toList, 8, 1⟩]) ∧
    ¬WrapLine.Fits 40 ⟨bytes "aaaaa-".toList, 48, 0⟩ := by
  refine ⟨by decide +kernel, ?_⟩
  rintro ⟨w, -, hw, hle⟩
  rw [hw] at hle
  exact absurd hle (by decide)

end BTron.TadBrowser
