import BTron.Editor

namespace BTron.Editor

open Lib Lib.CArray

-- Every line ends within its slot: the last byte of the slot is never anything but NUL.
def Slots (lines : Int → Bytes) : Prop := ∀ r, 0 ≤ r → r < 1000 → lines r 511 = 0

-- A position in the text.
structure Pos (ed : TEditor) (r c : Int) : Prop where
  row : 0 ≤ r ∧ r < ed.totalLines
  nonneg : 0 ≤ c
  filled : Filled (ed.lines r) c

-- What the cursor keys rely on: the lines, and the cursor in one of them.
structure Text (ed : TEditor) : Prop where
  total : 1 ≤ ed.totalLines ∧ ed.totalLines ≤ 1000
  slots : Slots ed.lines
  cursor : Pos ed ed.cursorRow ed.cursorCol

structure Inv (ed : TEditor) : Prop extends Text ed where
  start : ed.selActive → Pos ed ed.selStartR ed.selStartC
  stop : ed.selActive → Pos ed ed.selEndR ed.selEndC

@[simp] theorem setLine_lines (ed : TEditor) (r : Int) (a : Bytes) :
    (ed.setLine r a).lines = Function.update ed.lines r a := rfl

theorem Slots.update {lines : Int → Bytes} (h : Slots lines) {r : Int} {a : Bytes}
    (ha : a 511 = 0) : Slots (Function.update lines r a) := by
  intro z h0 hz
  by_cases hzr : z = r
  · rw [hzr, Function.update_self, ha]
  · rw [Function.update_of_ne hzr, h z h0 hz]

theorem line_eq {ed : TEditor} {r : Int} (h : 0 ≤ r ∧ r < 1000) :
    ed.line r = some (ed.lines r) := if_pos h

theorem Text.row_lt {ed : TEditor} (h : Text ed) {r : Int} (hr : 0 ≤ r ∧ r < ed.totalLines) :
    0 ≤ r ∧ r < 1000 := ⟨hr.1, by have := h.total; omega⟩

theorem slot_strlen {a : Bytes} (ha : a 511 = 0) :
    ∃ n, strlenLine a = some n ∧ IsStr 512 a n := by
  have h511 : (511 : Int) < TEDITOR_MAX_COLS := by decide
  obtain ⟨n, hn, hstr, -⟩ := strlen_of_nul (by decide) h511 ha
  exact ⟨n, hn, hstr⟩

-- What `strncpy` leaves of a slot that it fills but for the last byte.
theorem slot_copy {a b : Bytes} (dst src n : Int) (ha : a 511 = 0) (hb : b 511 = 0)
    (hdst : 0 ≤ dst) (hn : 0 ≤ n ∧ dst + n ≤ 511) (hsrc : 0 ≤ src ∧ src ≤ 511) :
    ∃ c, strncpy TEDITOR_MAX_COLS a dst TEDITOR_MAX_COLS b src n = some c ∧ c 511 = 0 ∧
      ∀ k, k < dst → c k = a k := by
  have hdst' : 0 ≤ dst ∧ dst + n ≤ TEDITOR_MAX_COLS := by
    rw [TEDITOR_MAX_COLS]
    omega
  have hsrc' : 0 ≤ src ∧ src ≤ 511 ∧ 511 < TEDITOR_MAX_COLS := ⟨hsrc.1, hsrc.2, by decide⟩
  obtain ⟨c, hc, hframe⟩ := strncpy_spec (a := a) hn.1 hdst' hsrc' hb
  refine ⟨c, hc, ?_, fun k hk => hframe k (by omega)⟩
  rw [hframe 511 (by omega), ha]

-- What `memmove` leaves of a slot when it moves the end of the string in it.
theorem slot_move {a : Bytes} {len : Int} (dst src : Int) (ha : a 511 = 0)
    (hstr : IsStr 512 a len) (hdst : 0 ≤ dst) (hsrc : 0 ≤ src ∧ src ≤ len + 1)
    (hroom : dst + (len - src) ≤ 511) :
    ∃ b, memmove TEDITOR_MAX_COLS a dst src (len - src + 1) = some b ∧ b 511 = 0 ∧
      ∀ k, k < dst → b k = a k := by
  have hin := hstr.inside
  rw [memmove_eq (by omega) (by rw [TEDITOR_MAX_COLS]; omega) (by rw [TEDITOR_MAX_COLS]; omega)]
  refine ⟨_, rfl, ?_, fun k hk => if_neg (by omega)⟩
  show (if dst ≤ 511 ∧ 511 < dst + (len - src + 1) then a (511 - dst + src) else a 511) = 0
  split
  · rw [show 511 - dst + src = len by omega, hstr.ends]
  · exact ha

-- The text, the cursor and the selection.
def TEditor.body (ed : TEditor) :=
  (ed.lines, ed.totalLines, (ed.cursorRow, ed.cursorCol), ed.selActive,
    (ed.selStartR, ed.selStartC), (ed.selEndR, ed.selEndC))

-- Nothing else of the editor matters to the invariant.
theorem Inv.congr {ed ed' : TEditor} (h : Inv ed) (hbody : ed'.body = ed.body) : Inv ed' := by
  obtain ⟨⟨htotal, hslots, hcursor⟩, hstart, hstop⟩ := h
  simp only [TEditor.body, Prod.mk.injEq] at hbody
  obtain ⟨hlines, hcount, ⟨hrow, hcol⟩, hsel, ⟨hstartR, hstartC⟩, hstopR, hstopC⟩ := hbody
  have hpos : ∀ {r c}, Pos ed r c → Pos ed' r c := fun hp =>
    ⟨hcount ▸ hp.row, hp.nonneg, hlines ▸ hp.filled⟩
  refine ⟨⟨hcount ▸ htotal, hlines ▸ hslots, ?_⟩, ?_, ?_⟩
  · rw [hrow, hcol]
    exact hpos hcursor
  · rw [hsel, hstartR, hstartC]
    exact fun hs => hpos (hstart hs)
  · rw [hsel, hstopR, hstopC]
    exact fun hs => hpos (hstop hs)

theorem Inv.visible {ed : TEditor} (h : Inv ed) : Inv (teditorEnsureCursorVisible ed) :=
  h.congr rfl

theorem copyLine_spec {ed : TEditor} (dst src : Int) (hslots : Slots ed.lines)
    (hdst : 0 ≤ dst ∧ dst < 1000) (hsrc : 0 ≤ src ∧ src < 1000) :
    ∃ a, copyLine ed dst src = some (ed.setLine dst a) ∧ a 511 = 0 := by
  obtain ⟨a, ha, hlast, -⟩ := slot_copy 0 0 (TEDITOR_MAX_COLS - 1) (hslots dst hdst.1 hdst.2)
    (hslots src hsrc.1 hsrc.2) (by decide) (by decide) (by decide)
  refine ⟨a, ?_, hlast⟩
  rw [copyLine, line_eq hdst, line_eq hsrc]
  simp only [Option.bind_eq_bind, Option.bind_some, ha]

-- What the two loops that move lines leave: slots, and the lines before those they move.
theorem shiftUp_spec {ed : TEditor} (off : Int) (n : Nat) (i : Int) (hslots : Slots ed.lines)
    (hi : 0 ≤ i) (hoff : 0 ≤ off) (hroom : i + n + off ≤ 1000) :
    ∃ lines, shiftUp ed off n i = some { ed with lines := lines } ∧ Slots lines ∧
      ∀ z, z < i → lines z = ed.lines z := by
  induction n generalizing ed i with
  | zero => exact ⟨ed.lines, rfl, hslots, fun _ _ => rfl⟩
  | succ n ih =>
      obtain ⟨a, ha, hlast⟩ := copyLine_spec i (i + off) hslots (by omega) (by omega)
      have hslots₁ : Slots (ed.setLine i a).lines := hslots.update hlast
      obtain ⟨lines, hlines, hslots', hframe⟩ := ih (i + 1) hslots₁ (by omega) (by omega)
      refine ⟨lines, ?_, hslots', fun z hz => ?_⟩
      · rw [shiftUp, ha]
        exact hlines
      · rw [hframe z (by omega)]
        exact Function.update_of_ne (by omega) _ _

theorem shiftDown_spec {ed : TEditor} (n : Nat) (i : Int) (hslots : Slots ed.lines)
    (hi : i < 1000) (hroom : n ≤ i) :
    ∃ lines, shiftDown ed n i = some { ed with lines := lines } ∧ Slots lines ∧
      ∀ z, z ≤ i - n → lines z = ed.lines z := by
  induction n generalizing ed i with
  | zero => exact ⟨ed.lines, rfl, hslots, fun _ _ => rfl⟩
  | succ n ih =>
      obtain ⟨a, ha, hlast⟩ := copyLine_spec i (i - 1) hslots (by omega) (by omega)
      have hslots₁ : Slots (ed.setLine i a).lines := hslots.update hlast
      obtain ⟨lines, hlines, hslots', hframe⟩ := ih (i - 1) hslots₁ (by omega) (by omega)
      refine ⟨lines, ?_, hslots', fun z hz => ?_⟩
      · rw [shiftDown, ha]
        exact hlines
      · rw [hframe z (by omega)]
        exact Function.update_of_ne (by omega) _ _

-- The two endpoints of a selection are positions, also in their order.
theorem selection_spec {ed : TEditor} (h : Inv ed) (hsel : ed.selActive) :
    ∃ r1 c1 r2 c2, ed.selection = (r1, c1, r2, c2) ∧ Pos ed r1 c1 ∧ Pos ed r2 c2 ∧
      (r1 < r2 ∨ r1 = r2 ∧ c1 ≤ c2) := by
  rw [TEditor.selection]
  split
  · rename_i hswap
    exact ⟨_, _, _, _, rfl, h.stop hsel, h.start hsel, by omega⟩
  · rename_i hkeep
    exact ⟨_, _, _, _, rfl, h.start hsel, h.stop hsel, by omega⟩

theorem deleteWithin_spec {ed : TEditor} {r c1 c2 : Int} (h : Inv ed) (h1 : Pos ed r c1)
    (h2 : Pos ed r c2) (hle : c1 ≤ c2) :
    ∃ a, deleteWithin ed r c1 c2 = some (ed.setLine r a) ∧ a 511 = 0 ∧
      ∀ k, k < c1 → a k = ed.lines r k := by
  have hr := h.row_lt h1.row
  obtain ⟨len, hlen, hstr⟩ := slot_strlen (h.slots r hr.1 hr.2)
  have hle2 := hstr.le_of_filled h2.filled
  have hin := hstr.inside
  have h0 := h1.nonneg
  rw [deleteWithin, line_eq hr]
  simp only [Option.bind_eq_bind, Option.bind_some, hlen]
  split
  · rename_i hlt
    obtain ⟨a, ha, hlast, hframe⟩ := slot_move c1 (c1 + (c2 - c1)) (h.slots r hr.1 hr.2) hstr h0
      (by omega) (by omega)
    rw [if_neg (by omega), ha]
    exact ⟨a, rfl, hlast, hframe⟩
  · refine ⟨ed.lines r, ?_, h.slots r hr.1 hr.2, fun _ _ => rfl⟩
    rw [TEditor.setLine, Function.update_eq_self]

theorem deleteAcross_spec {ed : TEditor} {r1 c1 r2 c2 : Int} (h : Inv ed) (h1 : Pos ed r1 c1)
    (h2 : Pos ed r2 c2) (hlt : r1 < r2) :
    ∃ lines, deleteAcross ed r1 c1 r2 c2 =
        some { ed with lines := lines, totalLines := ed.totalLines - (r2 - r1) } ∧
      Slots lines ∧ ∀ k, k < c1 → lines r1 k = ed.lines r1 k := by
  have hr1 := h.row_lt h1.row
  have hr2 := h.row_lt h2.row
  have htotal := h.total
  have h2row := h2.row
  obtain ⟨len1, -, hstr1⟩ := slot_strlen (h.slots r1 hr1.1 hr1.2)
  obtain ⟨tailLen, hlen, hstr⟩ := slot_strlen (h.slots r2 hr2.1 hr2.2)
  have hle1 := hstr1.le_of_filled h1.filled
  have hin1 := hstr1.inside
  have hin := hstr.inside
  have h0 := hstr.nonneg
  have hc1 := h1.nonneg
  have hc2 := h2.nonneg
  -- the rest of the last line is copied behind the start
  obtain ⟨a, ha, hlast, hframe⟩ := slot_copy c1 (if c2 < tailLen then c2 else tailLen)
    (TEDITOR_MAX_COLS - c1 - 1) (h.slots r1 hr1.1 hr1.2) (h.slots r2 hr2.1 hr2.2) hc1
    (by rw [TEDITOR_MAX_COLS]; omega) (by split <;> omega)
  have hslots : Slots (ed.setLine r1 a).lines := h.slots.update hlast
  obtain ⟨lines, hlines, hslots', hkeep⟩ := shiftUp_spec (r2 - r1)
    (ed.totalLines - (r2 - r1) - (r1 + 1)).toNat (r1 + 1) hslots (by omega) (by omega) (by omega)
  refine ⟨lines, ?_, hslots', fun k hk => ?_⟩
  · rw [deleteAcross, line_eq hr1, line_eq hr2]
    simp only [Option.bind_eq_bind, Option.bind_some, hlen, ha]
    show (shiftUp (ed.setLine r1 a) _ (ed.totalLines - (r2 - r1) - (r1 + 1)).toNat _).bind _ = _
    rw [hlines, Option.bind_some]
    show some { ed with
      lines := lines
      totalLines := if ed.totalLines - (r2 - r1) < 1 then 1 else _ } = _
    rw [if_neg (by omega)]
    rfl
  · rw [hkeep r1 (by omega), setLine_lines, Function.update_self, hframe k hk]

theorem teditorDeleteSelection_spec {ed : TEditor} (h : Inv ed) :
    ∃ ed', teditorDeleteSelection ed = some ed' ∧ Inv ed' ∧ ed'.selActive = false := by
  rw [teditorDeleteSelection]
  split
  · rename_i hsel
    exact ⟨ed, rfl, h, by simpa using hsel⟩
  · rename_i hsel
    have hactive : ed.selActive := by simpa using hsel
    obtain ⟨r1, c1, r2, c2, heq, h1, h2, horder⟩ := selection_spec h hactive
    rw [heq]
    simp only []
    by_cases hrows : r1 = r2
    · subst hrows
      obtain ⟨a, ha, hlast, hframe⟩ := deleteWithin_spec h h1 h2 (by omega)
      rw [if_pos rfl, ha]
      refine ⟨_, rfl, ⟨⟨h.total, h.slots.update hlast, ⟨h1.row, h1.nonneg, fun k h0 hk => ?_⟩⟩,
        nofun,
        nofun⟩, rfl⟩
      show Function.update ed.lines r1 a r1 k ≠ 0
      rw [Function.update_self, hframe k hk]
      exact h1.filled k h0 hk
    · obtain ⟨lines, hlines, hslots, hframe⟩ := deleteAcross_spec h h1 h2 (by omega)
      have htotal := h.total
      have h1row := h1.row
      have h2row := h2.row
      rw [if_neg hrows, hlines]
      refine ⟨_, rfl, ⟨⟨?_, hslots, ⟨?_, h1.nonneg, fun k h0 hk => ?_⟩⟩, nofun, nofun⟩, rfl⟩
      · show 1 ≤ ed.totalLines - (r2 - r1) ∧ ed.totalLines - (r2 - r1) ≤ 1000
        omega
      · show 0 ≤ r1 ∧ r1 < ed.totalLines - (r2 - r1)
        omega
      · show lines r1 k ≠ 0
        rw [hframe k hk]
        exact h1.filled k h0 hk

-- An edit of the line of the cursor alone.
theorem Inv.edited {ed ed' : TEditor} {a : Bytes} (c : Int) (h : Inv ed)
    (hoff : ed'.selActive = false) (hlines : ed'.lines = Function.update ed.lines ed.cursorRow a)
    (htotal : ed'.totalLines = ed.totalLines) (hrow : ed'.cursorRow = ed.cursorRow)
    (hcol : ed'.cursorCol = c) (ha : a 511 = 0) (hc : 0 ≤ c) (hfilled : Filled a c) :
    Inv ed' := by
  refine ⟨⟨htotal ▸ h.total, ?_, ⟨?_, hcol ▸ hc, ?_⟩⟩, by simp [hoff], by simp [hoff]⟩
  · rw [hlines]
    exact h.slots.update ha
  · rw [hrow, htotal]
    exact h.cursor.row
  · rw [hlines, hrow, hcol, Function.update_self]
    exact hfilled

theorem Inv.modified {ed : TEditor} (h : Inv ed) : Inv { ed with isModified := true } :=
  h.congr rfl

-- The result of an edit: no access has left the line array, and the invariant holds.
def Sound (result : Option TEditor) : Prop := ∃ ed, result = some ed ∧ Inv ed

theorem Inv.sound {ed : TEditor} (h : Inv ed) : Sound (some ed) := ⟨ed, rfl, h⟩

theorem teditorInsertChar_sound {ed : TEditor} {ch : UB} (h : Inv ed) (hch : ch ≠ 0) :
    Sound (teditorInsertChar ed ch) := by
  obtain ⟨ed₁, h₁, hinv, hoff⟩ := teditorDeleteSelection_spec h
  have hr := hinv.row_lt hinv.cursor.row
  have hc := hinv.cursor.nonneg
  have hslot := hinv.slots _ hr.1 hr.2
  obtain ⟨len, hlen, hstr⟩ := slot_strlen hslot
  have hle := hstr.le_of_filled hinv.cursor.filled
  rw [teditorInsertChar, h₁]
  simp only [Option.bind_eq_bind, Option.bind_some, line_eq hr, hlen]
  split
  · rename_i hroom
    rw [TEDITOR_MAX_COLS] at hroom
    obtain ⟨a, ha, hlast, hframe⟩ := slot_move (ed₁.cursorCol + 1) ed₁.cursorCol hslot hstr
      (by omega) (by omega) (by omega)
    rw [ha, Option.bind_some, set_eq (by rw [TEDITOR_MAX_COLS]; omega)]
    apply Inv.sound
    apply Inv.visible
    refine hinv.edited (ed₁.cursorCol + 1) hoff rfl rfl rfl rfl ?_ (by omega) fun k h0 hk => ?_
    · rw [if_neg (by omega), hlast]
    · show (if k = ed₁.cursorCol then ch else a k) ≠ 0
      split
      · exact hch
      · rw [hframe k hk]
        exact hinv.cursor.filled k h0 (by omega)
  · exact hinv.visible.sound

theorem insertAt_spec {ed : TEditor} {text : List UB} (h : Inv ed) (hoff : ed.selActive = false)
    (htext : 0 ∉ text) :
    ∃ ed' b, insertAt ed text = some (ed', b) ∧ Inv ed' ∧ ed'.selActive = false := by
  have hr := h.row_lt h.cursor.row
  have hc := h.cursor.nonneg
  have hslot := h.slots _ hr.1 hr.2
  obtain ⟨len, hlen, hstr⟩ := slot_strlen hslot
  have hle := hstr.le_of_filled h.cursor.filled
  rw [insertAt]
  simp only [Option.bind_eq_bind, line_eq hr, Option.bind_some, hlen]
  split
  · rename_i hroom
    rw [TEDITOR_MAX_COLS] at hroom
    obtain ⟨a, ha, hlast, hframe⟩ := slot_move (ed.cursorCol + text.length) ed.cursorCol hslot hstr
      (by omega) (by omega) (by omega)
    have hdst : 0 ≤ ed.cursorCol ∧ ed.cursorCol + text.length ≤ TEDITOR_MAX_COLS := by
      rw [TEDITOR_MAX_COLS]
      omega
    obtain ⟨b, hb, hnew, hframe'⟩ := memcpy_spec (a := a) hdst
    rw [ha, Option.bind_some, hb]
    refine ⟨_, true, rfl, h.edited (ed.cursorCol + text.length) hoff rfl rfl rfl rfl ?_ (by omega)
      fun k h0 hk => ?_, hoff⟩
    · rw [hframe' 511 (by omega), hlast]
    · by_cases hin : ed.cursorCol ≤ k
      · exact fun hzero => htext (hzero ▸ hnew k hin hk)
      · rw [hframe' k (by omega), hframe k hk]
        exact h.cursor.filled k h0 (by omega)
  · exact ⟨ed, false, rfl, h, hoff⟩

theorem teditorInsertText_sound {ed : TEditor} {text : List UB} (h : Inv ed) (htext : 0 ∉ text) :
    Sound (teditorInsertText ed text) := by
  rw [teditorInsertText]
  split
  · exact h.sound
  · obtain ⟨ed₁, h₁, hinv, hoff⟩ := teditorDeleteSelection_spec h
    obtain ⟨ed₂, inserted, h₂, hinv₂, -⟩ := insertAt_spec hinv hoff htext
    simp only [h₁, Option.bind_eq_bind, Option.bind_some, h₂]
    apply Inv.sound
    apply Inv.visible
    split
    · exact hinv₂.modified
    · exact hinv₂

theorem splitLine_spec {ed : TEditor} (h : Inv ed) (hoff : ed.selActive = false)
    (hroom : ed.totalLines < 999) :
    ∃ ed', splitLine ed = some ed' ∧ Inv ed' ∧ ed'.selActive = false := by
  have htotal := h.total
  have hrow := h.cursor.row
  have hr := h.row_lt hrow
  have hr1 : 0 ≤ ed.cursorRow + 1 ∧ ed.cursorRow + 1 < 1000 := by omega
  have hc := h.cursor.nonneg
  obtain ⟨len, -, hstr⟩ := slot_strlen (h.slots _ hr.1 hr.2)
  have hle := hstr.le_of_filled h.cursor.filled
  have hin := hstr.inside
  obtain ⟨lines, hlines, hslots, hkeep⟩ := shiftDown_spec
    (ed.totalLines - (ed.cursorRow + 1)).toNat ed.totalLines h.slots (by omega) (by omega)
  -- the line of the cursor has stayed, the one behind it is free
  have hsame : lines ed.cursorRow = ed.lines ed.cursorRow := hkeep _ (by omega)
  obtain ⟨b, hb, hlast, -⟩ := slot_copy 0 ed.cursorCol (TEDITOR_MAX_COLS - 1)
    (hslots _ hr1.1 hr1.2) (hslots _ hr.1 hr.2) (by decide) (by decide) (by omega)
  rw [splitLine, hlines]
  simp only [Option.bind_eq_bind, Option.bind_some]
  rw [line_eq hr, line_eq hr1]
  simp only [Option.bind_some, hb]
  rw [set_eq (by rw [TEDITOR_MAX_COLS]; omega)]
  have hcut :
      (fun k => if k = ed.cursorCol then 0 else lines ed.cursorRow k) 511 = (0 : UInt8) := by
    simp only [hslots _ hr.1 hr.2, ite_self]
  refine ⟨_, rfl, ⟨⟨?_, (hslots.update hlast).update hcut, ⟨?_, Int.le_refl 0,
    fun k h0 hk => ?_⟩⟩, by simp [TEditor.setLine, hoff], by simp [TEditor.setLine, hoff]⟩, hoff⟩
  · show 1 ≤ ed.totalLines + 1 ∧ ed.totalLines + 1 ≤ 1000
    omega
  · show 0 ≤ ed.cursorRow + 1 ∧ ed.cursorRow + 1 < ed.totalLines + 1
    omega
  · have hk' : k < 0 := hk
    omega

theorem teditorInsertNewline_sound {ed : TEditor} (h : Inv ed) :
    Sound (teditorInsertNewline ed) := by
  obtain ⟨ed₁, h₁, hinv, hoff⟩ := teditorDeleteSelection_spec h
  rw [teditorInsertNewline, h₁]
  simp only [Option.bind_eq_bind, Option.bind_some]
  split
  · exact hinv.sound
  · rename_i hroom
    rw [TEDITOR_MAX_LINES] at hroom
    obtain ⟨ed₂, h₂, hinv₂, -⟩ := splitLine_spec hinv hoff (by omega)
    rw [h₂]
    exact hinv₂.modified.visible.sound

theorem pasteLine_spec {ed : TEditor} (first : Bool) {line : List UB} (h : Inv ed)
    (hoff : ed.selActive = false) (hline : 0 ∉ line) :
    ∃ ed', pasteLine ed first line = some ed' ∧ Inv ed' ∧ ed'.selActive = false := by
  have hinsert : ∀ ed₁, Inv ed₁ → ed₁.selActive = false →
      ∃ ed', (insertAt ed₁ line).map Prod.fst = some ed' ∧ Inv ed' ∧ ed'.selActive = false := by
    intro ed₁ hinv hoff₁
    obtain ⟨ed₂, inserted, h₂, hinv₂, hoff₂⟩ := insertAt_spec hinv hoff₁ hline
    rw [h₂]
    exact ⟨ed₂, rfl, hinv₂, hoff₂⟩
  rw [pasteLine]
  split
  · rename_i hroom
    rw [TEDITOR_MAX_LINES] at hroom
    obtain ⟨ed₁, h₁, hinv, hoff₁⟩ := splitLine_spec h hoff (by omega)
    rw [h₁]
    exact hinsert ed₁ hinv hoff₁
  · exact hinsert ed h hoff

theorem pasteLoop_spec {ed : TEditor} (first : Bool) (fuel : Nat) {p : List UB} (h : Inv ed)
    (hoff : ed.selActive = false) (hp : 0 ∉ p) :
    ∃ ed', pasteLoop ed first fuel p = some ed' ∧ Inv ed' := by
  induction fuel generalizing ed first p with
  | zero => exact ⟨ed, rfl, h⟩
  | succ fuel ih =>
      rw [pasteLoop]
      split
      · exact h.sound
      · have hline : 0 ∉ (p.takeWhile (· != 10)).take (TEDITOR_MAX_COLS - 1).toNat := fun hmem =>
          hp (List.takeWhile_subset _ (List.mem_of_mem_take hmem))
        obtain ⟨ed₁, h₁, hinv, hoff₁⟩ := pasteLine_spec first h hoff hline
        simp only [Option.bind_eq_bind, h₁, Option.bind_some]
        apply ih false hinv hoff₁
        intro hmem
        apply hp
        split at hmem
        · exact List.mem_of_mem_drop (List.mem_of_mem_tail hmem)
        · exact List.mem_of_mem_drop hmem

-- The text of the clipboard ends at its first NUL.
theorem clipText_spec {clip : Bytes} (hclip : clip 2047 = 0) :
    ∃ p, clipText clip = some p ∧ 0 ∉ p := by
  have h2047 : (2047 : Int) < CLIPBOARD_SIZE := by decide
  obtain ⟨n, hn, hstr, -⟩ := strlen_of_nul (by decide) h2047 hclip
  rw [clipText, hn]
  refine ⟨_, rfl, fun hmem => ?_⟩
  obtain ⟨k, hk, hzero⟩ := List.mem_map.mp hmem
  rw [List.mem_range] at hk
  exact hstr.filled k (by omega) (by omega) hzero

theorem teditorPasteClipboard_spec {s : State} (h : Inv s.ed) (hclip : s.clipboard 2047 = 0) :
    ∃ ed', teditorPasteClipboard s = some { s with ed := ed' } ∧ Inv ed' := by
  obtain ⟨p, hp, hzero⟩ := clipText_spec hclip
  rw [teditorPasteClipboard, hp]
  simp only [Option.bind_eq_bind, Option.bind_some]
  split
  · exact ⟨s.ed, rfl, h⟩
  · obtain ⟨ed₁, h₁, hinv, hoff⟩ := teditorDeleteSelection_spec h
    obtain ⟨ed₂, h₂, hinv₂⟩ := pasteLoop_spec true p.length hinv hoff hzero
    simp only [h₁, Option.bind_some, h₂]
    exact ⟨_, rfl, hinv₂.modified.visible⟩

-- Two lines become one: the first goes on behind its `len` bytes.
theorem joinLines_spec {ed : TEditor} {r len m : Int} (h : Inv ed)
    (hr : 0 ≤ r ∧ r + 1 < ed.totalLines) (ha : IsStr 512 (ed.lines r) len)
    (hb : IsStr 512 (ed.lines (r + 1)) m) (hroom : len + m < TEDITOR_MAX_COLS - 1) :
    ∃ lines, joinLines ed r len (ed.lines r) (ed.lines (r + 1)) =
        some { ed with lines := lines, totalLines := ed.totalLines - 1 } ∧
      Slots lines ∧ Filled (lines r) len := by
  rw [TEDITOR_MAX_COLS] at hroom
  have htotal := h.total
  have h0 := hb.nonneg
  have hsize : len + m < TEDITOR_MAX_COLS := by
    rw [TEDITOR_MAX_COLS]
    omega
  obtain ⟨a, hcat, hframe⟩ := @strncat_spec _ _ _ _ _ _ ha hb (TEDITOR_MAX_COLS - len - 1) hsize
  have hlast : a 511 = 0 := by rw [hframe 511 (by omega), h.slots r hr.1 (by omega)]
  obtain ⟨lines, hlines, hslots, hkeep⟩ := @shiftUp_spec (ed.setLine r a) 1
    (ed.totalLines - 1 - (r + 1)).toNat (r + 1) (h.slots.update hlast) (by omega) (by omega)
    (by omega)
  refine ⟨lines, ?_, hslots, fun k hlow hk => ?_⟩
  · rw [joinLines]
    have hcat' : strncat TEDITOR_MAX_COLS (ed.lines r) TEDITOR_MAX_COLS (ed.lines (r + 1))
        (TEDITOR_MAX_COLS - len - 1) = some a := hcat
    simp only [hcat', Option.bind_eq_bind, Option.bind_some]
    show (shiftUp (ed.setLine r a) 1 (ed.totalLines - 1 - (r + 1)).toNat (r + 1)).bind _ = _
    rw [hlines]
    rfl
  · rw [hkeep r (by omega), setLine_lines, Function.update_self, hframe k (Or.inl hk)]
    exact ha.filled k hlow hk

-- The character before a position begins at a position before it.
theorem prevFrom_le (a : Bytes) (n : Nat) : 0 ≤ prevFrom a n ∧ prevFrom a n ≤ n := by
  induction n with
  | zero => exact ⟨Int.le_refl 0, Int.le_refl 0⟩
  | succ n ih =>
      rw [prevFrom]
      split <;> omega

theorem utf8PrevOffset_spec {a : Bytes} {c : Int} (h : 0 < c ∧ c ≤ TEDITOR_MAX_COLS) :
    ∃ prev, utf8PrevOffset a c = some prev ∧ 0 ≤ prev ∧ prev < c := by
  have hprev := prevFrom_le a (c - 1).toNat
  rw [utf8PrevOffset, if_neg (by omega), if_pos h.2]
  exact ⟨_, rfl, hprev.1, by omega⟩

theorem teditorBackspace_sound {ed : TEditor} (h : Inv ed) : Sound (teditorBackspace ed) := by
  rw [teditorBackspace]
  split
  · obtain ⟨ed', heq, hinv, -⟩ := teditorDeleteSelection_spec h
    exact ⟨ed', heq, hinv⟩
  · rename_i hsel
    have hoff : ed.selActive = false := by simpa using hsel
    have hrow := h.cursor.row
    have hr := h.row_lt hrow
    have hslot := h.slots _ hr.1 hr.2
    obtain ⟨len, hlen, hstr⟩ := slot_strlen hslot
    have hle := hstr.le_of_filled h.cursor.filled
    have hin := hstr.inside
    simp only [line_eq hr, Option.bind_eq_bind, Option.bind_some, hlen]
    split
    · rename_i hc
      have hcol : 0 < ed.cursorCol ∧ ed.cursorCol ≤ TEDITOR_MAX_COLS := by
        rw [TEDITOR_MAX_COLS]
        omega
      obtain ⟨prev, hprev, h0, hlt⟩ := @utf8PrevOffset_spec (ed.lines ed.cursorRow) _ hcol
      obtain ⟨a, ha, hlast, hframe⟩ := slot_move prev ed.cursorCol hslot hstr h0 (by omega)
        (by omega)
      simp only [hprev, Option.bind_some, ha]
      apply Inv.sound
      apply Inv.visible
      refine h.edited prev hoff rfl rfl rfl rfl hlast h0 fun k hk0 hk => ?_
      rw [hframe k hk]
      exact h.cursor.filled k hk0 (by omega)
    · split
      · rename_i hr0
        have hr' : 0 ≤ ed.cursorRow - 1 ∧ ed.cursorRow - 1 < 1000 := by omega
        obtain ⟨prevLen, hprevLen, hprevStr⟩ := slot_strlen (h.slots _ hr'.1 hr'.2)
        simp only [line_eq hr', Option.bind_some, hprevLen]
        split
        · rename_i hroom
          have hnext : ed.cursorRow - 1 + 1 = ed.cursorRow := by omega
          rw [← hnext] at hstr
          obtain ⟨lines, hlines, hslots, hfilled⟩ :=
            joinLines_spec h ⟨hr'.1, by omega⟩ hprevStr hstr hroom
          rw [hnext] at hlines
          simp only [hlines, Option.bind_some]
          apply Inv.sound
          apply Inv.visible
          have htotal := h.total
          refine ⟨⟨?_, hslots, ⟨?_, hprevStr.nonneg, hfilled⟩⟩, by simp [hoff], by simp [hoff]⟩
          · show 1 ≤ ed.totalLines - 1 ∧ ed.totalLines - 1 ≤ 1000
            omega
          · show 0 ≤ ed.cursorRow - 1 ∧ ed.cursorRow - 1 < ed.totalLines - 1
            omega
        · exact h.visible.sound
      · exact h.visible.sound

theorem utf8Len_pos (b : UB) : 1 ≤ utf8Len b := by
  rw [utf8Len]
  repeat' split
  all_goals omega

-- Deleting a character of a line takes it to end before the end of the line or one behind it.
def DeletesWithin (ed : TEditor) : Prop :=
  ∀ len, IsStr TEDITOR_MAX_COLS (ed.lines ed.cursorRow) len → ed.cursorCol < len →
    ed.cursorCol + utf8Len (ed.lines ed.cursorRow ed.cursorCol) ≤ len + 1

theorem utf8NextOffset_eq {a : Bytes} {c len : Int} (hlen : strlenLine a = some len)
    (hc : c < len) :
    utf8NextOffset a c = some (c + utf8Len (a c)) := by
  rw [utf8NextOffset, hlen]
  exact if_neg (by omega)

theorem teditorDeleteCharForward_sound {ed : TEditor} (h : Inv ed)
    (hfit : ed.selActive = false → DeletesWithin ed) : Sound (teditorDeleteCharForward ed) := by
  rw [teditorDeleteCharForward]
  split
  · obtain ⟨ed', heq, hinv, -⟩ := teditorDeleteSelection_spec h
    exact ⟨ed', heq, hinv⟩
  · rename_i hsel
    have hoff : ed.selActive = false := by simpa using hsel
    have hrow := h.cursor.row
    have hr := h.row_lt hrow
    have hc := h.cursor.nonneg
    have hslot := h.slots _ hr.1 hr.2
    obtain ⟨len, hlen, hstr⟩ := slot_strlen hslot
    simp only [line_eq hr, Option.bind_eq_bind, Option.bind_some, hlen]
    split
    · rename_i hlt
      have hnext := hfit hoff len hstr hlt
      have hpos := utf8Len_pos (ed.lines ed.cursorRow ed.cursorCol)
      have hin := hstr.inside
      obtain ⟨a, ha, hlast, hframe⟩ := slot_move ed.cursorCol
        (ed.cursorCol + utf8Len (ed.lines ed.cursorRow ed.cursorCol)) hslot hstr hc (by omega)
        (by omega)
      simp only [utf8NextOffset_eq hlen hlt, Option.bind_some, ha]
      apply Inv.sound
      apply Inv.visible
      refine h.edited ed.cursorCol hoff rfl rfl rfl rfl hlast hc fun k h0 hk => ?_
      rw [hframe k hk]
      exact h.cursor.filled k h0 hk
    · split
      · rename_i hlast
        have htotal := h.total
        have hr' : 0 ≤ ed.cursorRow + 1 ∧ ed.cursorRow + 1 < 1000 := by omega
        obtain ⟨nextLen, hnextLen, hnextStr⟩ := slot_strlen (h.slots _ hr'.1 hr'.2)
        simp only [line_eq hr', Option.bind_some, hnextLen]
        split
        · rename_i hroom
          obtain ⟨lines, hlines, hslots, hfilled⟩ := joinLines_spec h ⟨hr.1, by omega⟩ hstr hnextStr
            hroom
          simp only [hlines, Option.bind_some]
          apply Inv.sound
          apply Inv.visible
          have hle := hstr.le_of_filled h.cursor.filled
          refine ⟨⟨?_, hslots, ⟨?_, hc, hfilled.mono hle⟩⟩, by simp [hoff], by simp [hoff]⟩
          · show 1 ≤ ed.totalLines - 1 ∧ ed.totalLines - 1 ≤ 1000
            omega
          · show 0 ≤ ed.cursorRow ∧ ed.cursorRow < ed.totalLines - 1
            omega
        · exact h.visible.sound
      · exact h.visible.sound

-- A character that reaches further gives the move a negative length.
theorem deletesWithin_of_some {ed ed' : TEditor} (h : Inv ed) (hoff : ed.selActive = false)
    (heq : teditorDeleteCharForward ed = some ed') : DeletesWithin ed := by
  intro len hstr hlt
  have hr := h.row_lt h.cursor.row
  have hlen : strlenLine (ed.lines ed.cursorRow) = some len := strlen_eq_some.mpr hstr
  rw [teditorDeleteCharForward, if_neg (by simp [hoff])] at heq
  simp only [line_eq hr, Option.bind_eq_bind, Option.bind_some, hlen] at heq
  rw [if_pos hlt, utf8NextOffset_eq hlen hlt, Option.bind_some, Option.bind_eq_some_iff] at heq
  obtain ⟨a, ha, -⟩ := heq
  rw [memmove] at ha
  split at ha
  · omega
  · cases ha

end BTron.Editor
