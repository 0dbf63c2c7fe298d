import BTron.Editor.Edits

namespace BTron.Editor

open Lib Lib.CArray TronCode Window

theorem Text.strlen {ed : TEditor} (h : Text ed) {r : Int} (hr : 0 ≤ r ∧ r < ed.totalLines) :
    ed.line r = some (ed.lines r) ∧
      ∃ len, strlenLine (ed.lines r) = some len ∧ IsStr 512 (ed.lines r) len := by
  have hrow := h.row_lt hr
  exact ⟨line_eq hrow, slot_strlen (h.slots r hrow.1 hrow.2)⟩

-- The cursor is taken to another position and nothing else changes.
def Moved (ed : TEditor) (result : Option TEditor) : Prop :=
  ∃ r c, result = some { ed with cursorRow := r, cursorCol := c } ∧ Pos ed r c

theorem Moved.stay {ed : TEditor} (h : Pos ed ed.cursorRow ed.cursorCol) : Moved ed (some ed) :=
  ⟨ed.cursorRow, ed.cursorCol, rfl, h⟩

theorem cursorLeft_moved {ed : TEditor} (h : Text ed) : Moved ed (cursorLeft ed) := by
  have hrow := h.cursor.row
  obtain ⟨hline, len, hlen, hstr⟩ := h.strlen hrow
  have hle := hstr.le_of_filled h.cursor.filled
  have hin := hstr.inside
  rw [cursorLeft]
  split
  · have hcol : 0 < ed.cursorCol ∧ ed.cursorCol ≤ TEDITOR_MAX_COLS := by
      rw [TEDITOR_MAX_COLS]
      omega
    obtain ⟨prev, hprev, h0, hlt⟩ := @utf8PrevOffset_spec (ed.lines ed.cursorRow) _ hcol
    simp only [hline, Option.bind_eq_bind, Option.bind_some, hprev]
    exact ⟨ed.cursorRow, prev, rfl, hrow, h0, h.cursor.filled.mono (by omega)⟩
  · split
    · obtain ⟨hline', len', hlen', hstr'⟩ := h.strlen (r := ed.cursorRow - 1) (by omega)
      simp only [hline', Option.bind_eq_bind, Option.bind_some, hlen']
      exact ⟨ed.cursorRow - 1, len', rfl, by omega, hstr'.nonneg, hstr'.filled⟩
    · exact .stay h.cursor

-- The character at the cursor ends within the line.
def RightWithin (ed : TEditor) : Prop :=
  ∀ len, IsStr TEDITOR_MAX_COLS (ed.lines ed.cursorRow) len → ed.cursorCol < len →
    ed.cursorCol + utf8Len (ed.lines ed.cursorRow ed.cursorCol) ≤ len

theorem cursorRight_moved {ed : TEditor} (h : Text ed) (hfit : RightWithin ed) :
    Moved ed (cursorRight ed) := by
  have hrow := h.cursor.row
  have hcol := h.cursor.nonneg
  obtain ⟨hline, len, hlen, hstr⟩ := h.strlen hrow
  rw [cursorRight]
  simp only [hline, Option.bind_eq_bind, Option.bind_some, hlen]
  split
  · rename_i hlt
    have hnext := hfit len hstr hlt
    have hpos := utf8Len_pos (ed.lines ed.cursorRow ed.cursorCol)
    simp only [utf8NextOffset_eq hlen hlt, Option.bind_some]
    exact ⟨ed.cursorRow, _, rfl, hrow, by omega, hstr.filled.mono hnext⟩
  · split
    · refine ⟨ed.cursorRow + 1, 0, rfl, by omega, Int.le_refl 0, fun k h0 hk => ?_⟩
      omega
    · exact .stay h.cursor

theorem cursorToRow_moved {ed : TEditor} (h : Text ed) {r : Int}
    (hr : 0 ≤ r ∧ r < ed.totalLines) : Moved ed (cursorToRow ed r) := by
  obtain ⟨hline, len, hlen, hstr⟩ := h.strlen hr
  have hcol := h.cursor.nonneg
  have h0 := hstr.nonneg
  rw [cursorToRow]
  simp only [hline, Option.bind_eq_bind, Option.bind_some, hlen]
  refine ⟨r, _, rfl, hr, ?_, hstr.filled.mono ?_⟩
  · split <;> omega
  · split <;> omega

theorem Pos.of_lines {ed ed' : TEditor} {r c : Int} (h : Pos ed r c)
    (hlines : ed'.lines = ed.lines) (htotal : ed'.totalLines = ed.totalLines) : Pos ed' r c :=
  ⟨htotal ▸ h.row, h.nonneg, hlines ▸ h.filled⟩

-- A move of the cursor that ends the selection.
theorem Moved.unselected {ed : TEditor} {result : Option TEditor} (h : Text ed)
    (hmoved : Moved ed result) : Sound (result.map unselect) := by
  obtain ⟨r, c, rfl, hpos⟩ := hmoved
  refine ⟨_, rfl, ⟨h.total, h.slots, ?_⟩, nofun, nofun⟩
  exact hpos.of_lines rfl rfl

theorem startSelection_text {ed : TEditor} (h : Text ed) (shift : Bool) :
    Text (startSelection ed shift) := by
  rw [startSelection]
  split
  · exact ⟨h.total, h.slots, h.cursor.of_lines rfl rfl⟩
  · exact h

-- An arrow key moves the cursor and with Shift the end of the selection.
theorem arrowKey_sound {ed : TEditor} (h : Inv ed) (shift : Bool)
    {move : TEditor → Option TEditor}
    (hmove : Moved (startSelection ed shift) (move (startSelection ed shift))) :
    Sound (arrowKey ed shift move) := by
  have htext := startSelection_text h.toText shift
  obtain ⟨r, c, heq, hpos⟩ := hmove
  rw [arrowKey, heq, Option.bind_eq_bind, Option.bind_some]
  apply Inv.sound
  apply Inv.visible
  cases shift with
  | false => exact ⟨⟨htext.total, htext.slots, hpos.of_lines rfl rfl⟩, nofun, nofun⟩
  | true =>
      have hstart : Pos (startSelection ed true) (startSelection ed true).selStartR
          (startSelection ed true).selStartC := by
        rw [startSelection]
        split
        · exact h.cursor.of_lines rfl rfl
        · rename_i hsel
          exact h.start (by simpa using hsel)
      exact ⟨⟨htext.total, htext.slots, hpos.of_lines rfl rfl⟩, fun _ => hstart.of_lines rfl rfl,
        fun _ => hpos.of_lines rfl rfl⟩

theorem selectAll_sound {ed : TEditor} (h : Inv ed) : Sound (selectAll ed) := by
  have htotal := h.total
  obtain ⟨hline, len, hlen, hstr⟩ := h.strlen (r := ed.totalLines - 1) (by omega)
  have hfirst : Pos ed 0 0 := ⟨by omega, Int.le_refl 0, fun k h0 hk => by omega⟩
  have hlast : Pos ed (ed.totalLines - 1) len := ⟨by omega, hstr.nonneg, hstr.filled⟩
  rw [selectAll]
  simp only [hline, Option.bind_eq_bind, Option.bind_some, hlen]
  exact ⟨_, rfl, ⟨h.total, h.slots, hlast.of_lines rfl rfl⟩, fun _ => hfirst.of_lines rfl rfl,
    fun _ => hlast.of_lines rfl rfl⟩

-- How far a click takes a character of a line to reach, and how wide it is painted.
def charStep (line : Memory) (i : Nat) : Nat :=
  if (utf8ToTc line i).val.2 > 0 then (utf8ToTc line i).val.2 else 1

def charAdvance (line : Memory) (i : Nat) (prevCode : TC) : Int :=
  tcGetCharAdvance (utf8ToTc line i).val.1 prevCode

-- The click is left of the middle of the character at `i`, which is painted from `x` on.
def Hits (line : Memory) (targetX : Int) (i : Nat) (x : Int) (prevCode : TC) : Prop :=
  charAdvance line i prevCode > 0 ∧ targetX < x + charAdvance line i prevCode / 2

def nextCode (line : Memory) (i : Nat) (prevCode : TC) : TC :=
  if charAdvance line i prevCode > 0 ∨ (utf8ToTc line i).val.1 >>> 8 ≠ 0x6F then
    (utf8ToTc line i).val.1
  else prevCode

-- The places a click at `targetX` comes to: behind each character that it is right of.
inductive Comes (line : Memory) (targetX : Int) : Nat → Int → TC → Prop
  | first : Comes line targetX 0 36 0
  | next {i x prevCode} : Comes line targetX i x prevCode → line i ≠ 0 →
      ¬Hits line targetX i x prevCode →
      Comes line targetX (i + charStep line i) (x + charAdvance line i prevCode)
        (nextCode line i prevCode)

-- Of a line of `len` bytes, with `left` bytes to the end of the line array, the click reads no
-- character that reaches out of the array and passes none that reaches out of the line.
structure ClickFits (line : Memory) (left : Nat) (len targetX : Int) : Prop where
  reads : ∀ {i x prevCode}, Comes line targetX i x prevCode → i + charStep line i ≤ left
  passes : ∀ {i x prevCode}, Comes line targetX i x prevCode → line i ≠ 0 →
    ¬Hits line targetX i x prevCode → ((i + charStep line i : Nat) : Int) ≤ len

theorem charStep_pos (line : Memory) (i : Nat) : 1 ≤ charStep line i := by
  rw [charStep]
  split <;> omega

-- A character is read up to its last byte.
theorem utf8ToTc_log (line : Memory) (i : Nat) :
    i + charStep line i - 1 ∈ (utf8ToTc line i).log ∧
      ∀ k ∈ (utf8ToTc line i).log, k < i + charStep line i := by
  by_cases h0 : line i = 0
  · simp [charStep, utf8ToTc, h0]
  by_cases h1 : line i < 0x80
  · simp [charStep, utf8ToTc, h0, h1]
  by_cases h2 : line i &&& 0xE0 = 0xC0
  · simp [charStep, utf8ToTc, h0, h1, h2]
  by_cases h3 : line i &&& 0xF0 = 0xE0
  · simp [charStep, utf8ToTc, h0, h1, h2, h3]
  by_cases h4 : line i &&& 0xF8 = 0xF0
  · simp [charStep, utf8ToTc, h0, h1, h2, h3, h4]
  · simp [charStep, utf8ToTc, h0, h1, h2, h3, h4]

theorem utf8ToTc_reads (line : Memory) (i left : Nat) :
    (∃ k ∈ (utf8ToTc line i).log, left ≤ k) ↔ left < i + charStep line i := by
  obtain ⟨hlast, hall⟩ := utf8ToTc_log line i
  constructor
  · rintro ⟨k, hk, hle⟩
    exact Nat.lt_of_le_of_lt hle (hall k hk)
  · intro hlt
    exact ⟨_, hlast, by omega⟩

theorem findOffset_stop {line : Memory} {left fuel i : Nat} {targetX x : Int} {prevCode : TC}
    (hread : i + charStep line i ≤ left) (hstop : line i = 0 ∨ Hits line targetX i x prevCode) :
    findOffset line left targetX (fuel + 1) i x prevCode = some (i : Int) := by
  rw [findOffset]
  simp only [utf8ToTc_reads]
  rw [if_neg (by omega)]
  split
  · rfl
  · rename_i hne
    exact if_pos (hstop.resolve_left hne)

theorem findOffset_pass {line : Memory} {left fuel i : Nat} {targetX x : Int} {prevCode : TC}
    (hread : i + charStep line i ≤ left) (hne : line i ≠ 0)
    (hmiss : ¬Hits line targetX i x prevCode) :
    findOffset line left targetX (fuel + 1) i x prevCode =
      findOffset line left targetX fuel (i + charStep line i) (x + charAdvance line i prevCode)
        (nextCode line i prevCode) := by
  rw [findOffset]
  simp only [utf8ToTc_reads]
  rw [if_neg (by omega), if_neg hne]
  exact if_neg hmiss

theorem findOffset_reads {line : Memory} {left fuel i : Nat} {targetX x col : Int}
    {prevCode : TC} (h : findOffset line left targetX (fuel + 1) i x prevCode = some col) :
    i + charStep line i ≤ left := by
  by_contra hout
  rw [findOffset] at h
  simp only [utf8ToTc_reads] at h
  rw [if_pos (by omega)] at h
  cases h

-- Either the click stops at the character, or it passes it.
theorem findOffset_cases {line : Memory} {left fuel i : Nat} {targetX x col : Int} {prevCode : TC}
    (h : findOffset line left targetX (fuel + 1) i x prevCode = some col) :
    (i : Int) = col ∨ line i ≠ 0 ∧ ¬Hits line targetX i x prevCode ∧
      findOffset line left targetX fuel (i + charStep line i) (x + charAdvance line i prevCode)
        (nextCode line i prevCode) = some col := by
  have hread := findOffset_reads h
  by_cases hstop : line i = 0 ∨ Hits line targetX i x prevCode
  · rw [findOffset_stop hread hstop] at h
    exact Or.inl (Option.some.inj h)
  · rw [not_or] at hstop
    rw [findOffset_pass hread hstop.1 hstop.2] at h
    exact Or.inr ⟨hstop.1, hstop.2, h⟩

theorem le_of_findOffset {line : Memory} {left fuel i : Nat} {targetX x col : Int} {prevCode : TC}
    (h : findOffset line left targetX fuel i x prevCode = some col) : (i : Int) ≤ col := by
  induction fuel generalizing i x prevCode with
  | zero => cases h
  | succ fuel ih =>
      cases findOffset_cases h with
      | inl hstop => omega
      | inr hpass =>
          have hle := ih hpass.2.2
          omega

-- A click that fits into the line finds a place in it, however far it has come.
theorem findOffset_fits {line : Memory} {left fuel i : Nat} {len targetX x : Int} {prevCode : TC}
    (hfit : ClickFits line left len targetX) (hends : ∀ k : Nat, (k : Int) = len → line k = 0)
    (hcomes : Comes line targetX i x prevCode) (hi : (i : Int) ≤ len) (hfuel : len < i + fuel) :
    ∃ col, findOffset line left targetX fuel i x prevCode = some col ∧ 0 ≤ col ∧ col ≤ len := by
  induction fuel generalizing i x prevCode with
  | zero => omega
  | succ fuel ih =>
      have hread := hfit.reads hcomes
      by_cases hstop : line i = 0 ∨ Hits line targetX i x prevCode
      · rw [findOffset_stop hread hstop]
        exact ⟨i, rfl, by omega, hi⟩
      · rw [not_or] at hstop
        have hpass := hfit.passes hcomes hstop.1 hstop.2
        have hpos := charStep_pos line i
        have hne : (i : Int) ≠ len := fun heq => hstop.1 (hends i heq)
        rw [findOffset_pass hread hstop.1 hstop.2]
        exact ih (hcomes.next hstop.1 hstop.2) hpass (by omega)

-- The click has come through every place that it comes to.
theorem findOffset_comes {line : Memory} {left fuel i : Nat} {targetX x col : Int} {prevCode : TC}
    (h : findOffset line left targetX fuel 0 36 0 = some col)
    (hcomes : Comes line targetX i x prevCode) :
    ∃ n, findOffset line left targetX (n + 1) i x prevCode = some col := by
  have hsucc : ∀ {n i x prevCode}, findOffset line left targetX n i x prevCode = some col →
      ∃ m, findOffset line left targetX (m + 1) i x prevCode = some col := by
    intro n i x prevCode hn
    cases n with
    | zero => cases hn
    | succ n => exact ⟨n, hn⟩
  induction hcomes with
  | first => exact hsucc h
  | next _ hne hmiss ih =>
      obtain ⟨n, hn⟩ := ih
      rw [findOffset_pass (findOffset_reads hn) hne hmiss] at hn
      exact hsucc hn

theorem clickFits_of_findOffset {line : Memory} {left fuel : Nat} {targetX col len : Int}
    (h : findOffset line left targetX fuel 0 36 0 = some col) (hle : col ≤ len) :
    ClickFits line left len targetX := by
  constructor
  · intro i x prevCode hcomes
    obtain ⟨n, hn⟩ := findOffset_comes h hcomes
    exact findOffset_reads hn
  · intro i x prevCode hcomes hne hmiss
    obtain ⟨n, hn⟩ := findOffset_comes h (hcomes.next hne hmiss)
    have hcol := le_of_findOffset hn
    omega

theorem bytesFrom_eq {ed : TEditor} {r : Int} {k : Nat} (hk : (k : Int) < 512) :
    ed.bytesFrom r k = ed.lines r k := by
  rw [TEditor.bytesFrom, TEDITOR_MAX_COLS, Int.ediv_eq_zero_of_lt (by omega) hk,
    Int.emod_eq_of_lt (by omega) hk, Int.add_zero]

theorem teditorFindByteOffsetFromX_fits {ed : TEditor} {r len targetX : Int}
    (hr : 0 ≤ r ∧ r < 1000) (hstr : IsStr 512 (ed.lines r) len)
    (hfit : 36 < targetX → ClickFits (ed.bytesFrom r) (bytesLeft r) len targetX) :
    ∃ col, teditorFindByteOffsetFromX (ed.bytesFrom r) (bytesLeft r) targetX = some col ∧
      0 ≤ col ∧ col ≤ len := by
  have h0 := hstr.nonneg
  have hin := hstr.inside
  rw [teditorFindByteOffsetFromX]
  split
  · exact ⟨0, rfl, Int.le_refl 0, h0⟩
  · rename_i hx
    have hroom : 512 ≤ bytesLeft r := by
      rw [bytesLeft, TEDITOR_MAX_ROWS, TEDITOR_MAX_COLS]
      omega
    have hends : ∀ k : Nat, (k : Int) = len → ed.bytesFrom r k = 0 := by
      intro k hk
      rw [bytesFrom_eq (by omega), hk, hstr.ends]
    have hfuel : len < ((0 : Nat) : Int) + ((bytesLeft r + 1 : Nat) : Int) := by omega
    exact findOffset_fits (hfit (by omega)) hends .first h0 hfuel

-- A click into the text passes and reads only what lies in its line.
def ClickWithin (ed : TEditor) (wnd : Wnd) (relX relY : Int) : Prop :=
  let clickR := (relY - 24).tdiv 18 + ed.scrollRow
  let targetX := relX - ((if ed.showLineNums then 36 else 10) - 36)
  relY < clientHeight wnd - 22 → 24 ≤ relY → 0 ≤ clickR → clickR < ed.totalLines → 36 < targetX →
    ∀ len, IsStr TEDITOR_MAX_COLS (ed.lines clickR) len →
      ClickFits (ed.bytesFrom clickR) (bytesLeft clickR) len targetX

theorem clickText_sound {ed : TEditor} {wnd : Wnd} {relX relY : Int} (h : Inv ed)
    (hfit : ClickWithin ed wnd relX relY) : Sound (clickText ed wnd relX relY) := by
  rw [clickText]
  split
  · exact h.sound
  · rename_i hstatus
    split
    · rename_i htext
      simp only []
      split
      · rename_i hrow
        obtain ⟨hline, len, -, hstr⟩ := h.strlen hrow
        obtain ⟨col, hfind, h0, hle⟩ :=
          teditorFindByteOffsetFromX_fits (h.row_lt hrow) hstr fun hx =>
            hfit (by omega) (by omega) hrow.1 hrow.2 hx len hstr
        simp only [hline, Option.bind_eq_bind, Option.bind_some, hfind]
        exact ⟨_, rfl, ⟨h.total, h.slots, ⟨hrow, h0, hstr.filled.mono hle⟩⟩, nofun, nofun⟩
      · exact h.sound
    · exact h.sound

-- A click that leaves the cursor in its line has fitted into it.
theorem clickWithin_of_some {ed ed' : TEditor} {wnd : Wnd} {relX relY : Int}
    (heq : clickText ed wnd relX relY = some ed')
    (hcol : ∀ len, IsStr TEDITOR_MAX_COLS (ed'.lines ed'.cursorRow) len → ed'.cursorCol ≤ len) :
    ClickWithin ed wnd relX relY := by
  intro hstatus htext h0 hrow hx len hstr
  rw [clickText, if_neg (by omega), if_pos htext] at heq
  simp only [] at heq
  rw [if_pos ⟨h0, hrow⟩, Option.bind_eq_bind, Option.bind_eq_some_iff] at heq
  obtain ⟨a, -, heq⟩ := heq
  rw [Option.bind_eq_bind, Option.bind_eq_some_iff] at heq
  obtain ⟨col, hfind, heq⟩ := heq
  cases heq
  rw [teditorFindByteOffsetFromX, if_neg (Int.not_le.mpr hx)] at hfind
  exact clickFits_of_findOffset hfind (hcol len hstr)

-- A copy into the clipboard leaves its last byte alone.
theorem copyOut_spec {clip a : Bytes} (pos start n : Int) (hclip : clip 2047 = 0)
    (ha : a 511 = 0) (hpos : 0 ≤ pos) (hn : 0 ≤ n ∧ pos + n ≤ 2047)
    (hstart : 0 ≤ start ∧ start ≤ 511) :
    ∃ clip', copyOut clip pos a start n = some clip' ∧ clip' 2047 = 0 := by
  have hdst : 0 ≤ pos ∧ pos + n ≤ CLIPBOARD_SIZE := by
    rw [CLIPBOARD_SIZE]
    omega
  have hsrc : 0 ≤ start ∧ start ≤ 511 ∧ 511 < TEDITOR_MAX_COLS := ⟨hstart.1, hstart.2, by decide⟩
  obtain ⟨clip', heq, hframe⟩ := strncpy_spec (a := clip) hn.1 hdst hsrc ha
  exact ⟨clip', heq, by rw [hframe 2047 (by omega), hclip]⟩

theorem setClipboard_spec {clip : Bytes} (i : Int) (c : UB) (hclip : clip 2047 = 0)
    (hi : 0 ≤ i ∧ i < 2047) :
    ∃ clip', set CLIPBOARD_SIZE clip i c = some clip' ∧ clip' 2047 = 0 := by
  rw [set_eq (by rw [CLIPBOARD_SIZE]; omega)]
  exact ⟨_, rfl, by rw [if_neg (by omega), hclip]⟩

-- How far the clipboard may be filled, with its last byte kept.
def Room (clip : Bytes) (pos : Int) : Prop := clip 2047 = 0 ∧ 0 ≤ pos ∧ pos ≤ 2046

theorem copyPart_spec {clip str : Bytes} {pos start stop : Int} (h : Room clip pos)
    (hstr : str 511 = 0) (hstart : 0 ≤ start) (hstop : stop ≤ 511) :
    ∃ clip' pos', copyPart clip pos str start stop = some (clip', pos') ∧ Room clip' pos' := by
  obtain ⟨hclip, hpos⟩ := h
  rw [copyPart]
  split
  · rename_i hfit
    rw [CLIPBOARD_SIZE] at hfit
    obtain ⟨clip', heq, hclip'⟩ := copyOut_spec pos start (stop - start) hclip hstr hpos.1
      (by omega) (by omega)
    rw [heq]
    exact ⟨clip', pos + (stop - start), rfl, hclip', by omega, by omega⟩
  · exact ⟨clip, pos, rfl, hclip, hpos⟩

theorem copyBreak_spec {clip : Bytes} {pos : Int} (h : Room clip pos) :
    ∃ clip' pos', copyBreak clip pos = some (clip', pos') ∧ Room clip' pos' := by
  obtain ⟨hclip, hpos⟩ := h
  rw [copyBreak]
  split
  · rename_i hfit
    rw [CLIPBOARD_SIZE] at hfit
    obtain ⟨clip₁, h₁, hclip₁⟩ := setClipboard_spec pos 10 hclip (by omega)
    obtain ⟨clip₂, h₂, hclip₂⟩ := setClipboard_spec (pos + 1) 0 hclip₁ (by omega)
    simp only [h₁, h₂, Option.bind_eq_bind, Option.bind_some]
    exact ⟨clip₂, pos + 1, rfl, hclip₂, by omega, by omega⟩
  · exact ⟨clip, pos, rfl, hclip, hpos⟩

theorem copyLines_spec {ed : TEditor} {r1 c1 r2 c2 : Int} (n : Nat) {r pos : Int} {clip : Bytes}
    (hslots : Slots ed.lines) (hr : 0 ≤ r ∧ r + n ≤ 1000) (hc1 : 0 ≤ c1) (h : Room clip pos) :
    ∃ clip', copyLines ed r1 c1 r2 c2 n r pos clip = some clip' ∧ clip' 2047 = 0 := by
  induction n generalizing r pos clip with
  | zero => exact ⟨clip, rfl, h.1⟩
  | succ n ih =>
      have hrow : 0 ≤ r ∧ r < 1000 := by omega
      have hslot := hslots r hrow.1 hrow.2
      obtain ⟨len, hlen, hstr⟩ := slot_strlen hslot
      have hin := hstr.inside
      have hstart : 0 ≤ (if r = r1 then c1 else 0) := by split <;> omega
      have hstop : (if r = r2 then (if c2 < len then c2 else len) else len) ≤ 511 := by
        split
        · split <;> omega
        · omega
      obtain ⟨clip₁, pos₁, h₁, hroom₁⟩ := copyPart_spec h hslot hstart hstop
      rw [copyLines]
      simp only [line_eq hrow, Option.bind_eq_bind, Option.bind_some, hlen, h₁]
      split
      · obtain ⟨clip₂, pos₂, h₂, hroom₂⟩ := copyBreak_spec hroom₁
        simp only [h₂, Option.bind_some]
        exact ih (by omega) hroom₂
      · exact ih (by omega) hroom₁

theorem teditorCopySelection_spec {s : State} (h : Inv s.ed) (hclip : s.clipboard 2047 = 0) :
    ∃ clip, teditorCopySelection s = some { s with clipboard := clip } ∧ clip 2047 = 0 := by
  have hrow := h.cursor.row
  have hr := h.row_lt hrow
  rw [teditorCopySelection]
  split
  · obtain ⟨clip, heq, hlast⟩ := copyOut_spec 0 0 (CLIPBOARD_SIZE - 1) hclip
      (h.slots _ hr.1 hr.2) (by decide) (by decide) (by decide)
    simp only [line_eq hr, Option.bind_eq_bind, Option.bind_some, heq]
    exact ⟨clip, rfl, hlast⟩
  · rename_i hsel
    have hactive : s.ed.selActive := by simpa using hsel
    obtain ⟨r1, c1, r2, c2, heq, h1, h2, horder⟩ := selection_spec h hactive
    obtain ⟨clip, hset, hlast⟩ := setClipboard_spec 0 0 hclip (by decide)
    have h0 := h1.nonneg
    rw [heq]
    simp only [hset, Option.bind_eq_bind, Option.bind_some]
    split
    · have hr1 := h.row_lt h1.row
      have hslot := h.slots _ hr1.1 hr1.2
      obtain ⟨hline, len, hlen, hstr⟩ := h.strlen h1.row
      have hin := hstr.inside
      have hendC : (if c2 < len then c2 else len) ≤ len := by split <;> omega
      simp only [hline, hlen, Option.bind_some]
      generalize (if c2 < len then c2 else len) = endC at hendC ⊢
      split
      · obtain ⟨stop, hstop, hle⟩ := strnlen_of_nul (m := (endC - c1).toNat) h0
          (show c1 ≤ len by omega) hstr.inside hstr.ends
        have hlow := (strnlen_spec hstop).1
        obtain ⟨clip₁, hcopy, hlast₁⟩ := copyOut_spec 0 c1 (stop - c1) hlast hslot (Int.le_refl 0)
          (by omega) (by omega)
        obtain ⟨clip₂, hset₂, hlast₂⟩ := setClipboard_spec (stop - c1) 0 hlast₁ (by omega)
        have hstop' : strnlen TEDITOR_MAX_COLS (s.ed.lines r1) (endC - c1).toNat c1 = some stop :=
          hstop
        simp only [hstop', hcopy, hset₂, Option.bind_some]
        exact ⟨clip₂, rfl, hlast₂⟩
      · exact ⟨clip, rfl, hlast⟩
    · have htotal := h.total
      have h1row := h1.row
      have hroom : 0 ≤ r1 ∧
          r1 + (((if r2 < s.ed.totalLines then r2 + 1 else s.ed.totalLines) - r1).toNat : Int) ≤
            1000 := by
        split <;> omega
      obtain ⟨clip', hcopy, hlast'⟩ := @copyLines_spec s.ed r1 c1 r2 c2 _ r1 0 clip h.slots hroom h0
        ⟨hlast, by decide, by decide⟩
      simp only [hcopy, Option.bind_some]
      exact ⟨clip', rfl, hlast'⟩

theorem cutSelection_spec {s : State} (h : Inv s.ed) (hclip : s.clipboard 2047 = 0) :
    ∃ s', cutSelection s = some s' ∧ Inv s'.ed ∧ s'.clipboard 2047 = 0 := by
  obtain ⟨clip, hcopy, hlast⟩ := teditorCopySelection_spec h hclip
  obtain ⟨ed, hdelete, hinv, -⟩ := teditorDeleteSelection_spec h
  rw [cutSelection, hcopy]
  simp only [Option.bind_eq_bind, Option.bind_some, hdelete]
  exact ⟨_, rfl, hinv, hlast⟩

end BTron.Editor
