import BTron.Editor.Lines

namespace BTron.Editor

open Lib Lib.CArray

-- The text, the number of its lines and the place of the cursor are what they were.
def Undone (ed : TEditor) (result : Option TEditor) : Prop :=
  ∃ ed', result = some ed' ∧ contents ed' = contents ed ∧ ed'.totalLines = ed.totalLines ∧
    ed'.cursorRow = ed.cursorRow ∧ ed'.cursorCol = ed.cursorCol

-- The line of the cursor passes the check for `n` more bytes.
def LineRoom (ed : TEditor) (n : Nat) : Prop :=
  ((lineText (ed.lines ed.cursorRow)).length : Int) + n < TEDITOR_MAX_COLS - 1

instance (ed : TEditor) (n : Nat) : Decidable (LineRoom ed n) :=
  inferInstanceAs (Decidable (_ < _))

-- Backspace takes back the line break, the character of TIP and the character of a key.
structure EditsUndone (ed : TEditor) : Prop where
  newline : ed.totalLines < TEDITOR_MAX_LINES - 1 →
    Undone ed ((teditorInsertNewline ed).bind teditorBackspace)
  text : ∀ c : Char, c.toNat ≠ 0 → LineRoom ed (String.utf8EncodeChar c).length →
    Undone ed ((teditorInsertText ed (String.utf8EncodeChar c)).bind teditorBackspace)
  key : ∀ ch : UB, ch ≠ 0 → ch < 0x80 → LineRoom ed 0 →
    Undone ed ((teditorInsertChar ed ch).bind teditorBackspace)

section Backspace

variable {ed ed' : TEditor} {z : Zipper UB}

theorem Shows.undone {ed₀ : TEditor} (h₀ : Shows ed₀ z) (h : Shows ed z) :
    Undone ed₀ (some ed) := by
  refine ⟨ed, rfl, h.rows.contents.trans h₀.rows.contents.symm, ?_, h.row.trans h₀.row.symm,
    h.col.trans h₀.col.symm⟩
  rw [h.rows.total, h₀.rows.total]

theorem Shows.lineRoom (h : Shows ed z) (n : Nat) :
    LineRoom ed n ↔ z.left.length + z.right.length + n < 511 := by
  rw [LineRoom, lineText_holds h.line.2, List.length_append, TEDITOR_MAX_COLS]
  omega

theorem deleteSelection_off (hsel : ed.selActive = false) :
    teditorDeleteSelection ed = some ed := if_pos (by rw [hsel]; rfl)

-- From the last byte of a character back to its first.
theorem prevFrom_char {a : Bytes} {p : Nat} (k : Nat) (hlead : Utf8.isCont (a p) = false)
    (hcont : ∀ j : Nat, p < j → j ≤ p + k → Utf8.isCont (a j) = true) :
    prevFrom a (p + k) = p := by
  induction k with
  | zero =>
      cases p with
      | zero => rfl
      | succ p =>
          have hne : ¬a (p + 1 : Nat) &&& 0xC0 = 0x80 := by simpa [Utf8.isCont] using hlead
          exact if_neg hne
  | succ k ih =>
      have hc : a (p + k + 1 : Nat) &&& 0xC0 = 0x80 := by
        simpa [Utf8.isCont] using hcont (p + k + 1) (by omega) (by omega)
      show (if a (p + k + 1 : Nat) &&& 0xC0 = 0x80 then prevFrom a (p + k) else _) = _
      rw [if_pos hc, ih fun j hj hj' => hcont j hj (by omega)]

-- Backspace takes out the character before the cursor.
theorem Shows.backspace_char {b : UB} {bs : List UB} (h : Shows ed (z.insert (b :: bs)))
    (hsel : ed.selActive = false) (hlead : Utf8.isCont b = false)
    (hcont : ∀ x ∈ bs, Utf8.isCont x = true) :
    ∃ ed', teditorBackspace ed = some ed' ∧ Shows ed' z := by
  obtain ⟨hline, hl⟩ := h.line
  have hleft : (z.insert (b :: bs)).left = z.left ++ b :: bs := rfl
  have hright : (z.insert (b :: bs)).right = z.right := rfl
  rw [hleft, hright] at hl
  have hrow : ed.cursorRow = z.above.length := h.row
  have hcol : ed.cursorCol = ((z.left.length + bs.length + 1 : Nat) : Int) := by
    rw [h.col, hleft, List.length_append, List.length_cons]
    omega
  have hlen : (z.left ++ b :: bs ++ z.right).length =
      z.left.length + bs.length + 1 + z.right.length := by
    simp only [List.length_append, List.length_cons]
    omega
  have hin := hl.inside
  rw [hlen, TEDITOR_MAX_COLS] at hin
  -- the bytes of the character
  have hfirst : ed.lines ed.cursorRow z.left.length = b := by
    rw [hl.cell _ (by omega), List.append_assoc, List.getD_append_right _ _ _ _ (Nat.le_refl _),
      Nat.sub_self]
    rfl
  have hrest : ∀ j : Nat, z.left.length < j → j ≤ z.left.length + bs.length →
      Utf8.isCont (ed.lines ed.cursorRow j) = true := by
    intro j hj hj'
    obtain ⟨k, rfl⟩ := Nat.exists_eq_add_of_lt hj
    have hk : k < bs.length := by omega
    have hshift : z.left.length + k + 1 - z.left.length = k + 1 := by omega
    rw [hl.cell _ (by omega), List.append_assoc, List.getD_append_right _ _ _ _ (by omega), hshift,
      List.cons_append, List.getD_cons_succ, List.getD_append _ _ _ _ hk,
      List.getD_eq_getElem _ _ hk]
    exact hcont _ (List.getElem_mem hk)
  have hprev : utf8PrevOffset (ed.lines ed.cursorRow) ed.cursorCol =
      some (z.left.length : Int) := by
    have hback : (ed.cursorCol - 1).toNat = z.left.length + bs.length := by omega
    rw [utf8PrevOffset, if_neg (by omega), if_pos (by rw [TEDITOR_MAX_COLS]; omega), hback]
    exact congrArg some (prevFrom_char bs.length (by rw [hfirst, hlead]) hrest)
  obtain ⟨a, hmove, ha, hframe⟩ := hl.erase (p := z.left.length)
    (c := z.left.length + bs.length + 1) (by omega) (by omega)
  have hdrop : (z.left ++ b :: bs ++ z.right).drop (z.left.length + bs.length + 1) = z.right :=
    List.drop_left' (by simp only [List.length_append, List.length_cons]; omega)
  rw [hdrop, List.append_assoc, List.take_left] at ha
  have hrows := h.rows
  have hmax := hrows.room
  rw [Zipper.lines, List.length_append, List.length_cons] at hmax
  have habove : (z.insert (b :: bs)).above = z.above := rfl
  rw [habove] at hmax
  have hlast : a 511 = 0 := slot_last ha fun hlt => by
    rw [List.length_append] at hlt
    rw [hframe 511 (by omega), hrows.slots _ (by omega) (by omega)]
  have hset := hrows.setLine ha hlast
  rw [teditorBackspace, if_neg (by rw [hsel]; decide)]
  simp only []
  rw [← hcol] at hmove
  rw [if_pos (by omega)]
  simp only [hline, Option.bind_eq_bind, Option.bind_some, hprev, strlenLine, hl.strlen, hmove]
  refine ⟨_, rfl, ?_⟩
  rw [habove, ← hrow] at hset
  exact ⟨⟨hset.total, hset.room, hset.slots, hset.segment⟩, hrow, rfl⟩

-- At the start of a line it is joined to the one before it, when they fit into one.
theorem Shows.backspace_line (h : Shows ed z.split) (hsel : ed.selActive = false) :
    ∃ ed', teditorBackspace ed = some ed' ∧
      (z.left.length + z.right.length < 511 → Shows ed' z) ∧
      (511 ≤ z.left.length + z.right.length → Shows ed' z.split) := by
  have hrows := h.rows
  rw [Zipper.lines_split] at hrows
  have hrow : ed.cursorRow = z.above.length + 1 := by
    rw [h.row, Zipper.split, List.length_append]
    rfl
  have hcol : ed.cursorCol = 0 := h.col
  have hmax := hrows.room
  simp only [List.length_append, List.length_cons] at hmax
  have hprev : ed.cursorRow - 1 = z.above.length := by omega
  obtain ⟨-, ha, hb, -⟩ := segment_middle.mp hrows.segment
  rw [← hrow] at hb
  rw [teditorBackspace, if_neg (by rw [hsel]; decide)]
  simp only []
  rw [if_neg (by omega), if_pos (by omega), hprev, line_eq (by omega), line_eq (by omega)]
  simp only [Option.bind_eq_bind, Option.bind_some, strlenLine, ha.strlen, hb.strlen]
  by_cases hfits : z.left.length + z.right.length < 511
  · obtain ⟨lines, hjoin, hjoined⟩ := hrows.joinLines (by omega)
    rw [← hrow] at hjoin
    rw [if_pos (by rw [TEDITOR_MAX_COLS]; omega), hjoin]
    refine ⟨_, rfl, fun _ => ?_, fun hle => by omega⟩
    exact ⟨⟨hjoined.total, hjoined.room, hjoined.slots, hjoined.segment⟩, rfl, rfl⟩
  · rw [if_neg (by rw [TEDITOR_MAX_COLS]; omega)]
    exact ⟨_, rfl, fun hlt => by omega, fun _ => h.congr rfl rfl rfl rfl⟩

theorem newline_undone_iff (h : Shows ed z) (hsel : ed.selActive = false)
    (hroom : ed.totalLines < TEDITOR_MAX_LINES - 1) :
    Undone ed ((teditorInsertNewline ed).bind teditorBackspace) ↔ LineRoom ed 0 := by
  have htotal := h.rows.total
  rw [TEDITOR_MAX_LINES] at hroom
  obtain ⟨ed₁, hsplit, hsplit', hoff⟩ := h.splitLine (by omega)
  have hnewline : teditorInsertNewline ed =
      some (teditorEnsureCursorVisible { ed₁ with isModified := true }) := by
    rw [teditorInsertNewline, deleteSelection_off hsel]
    simp only [Option.bind_eq_bind, Option.bind_some]
    rw [if_neg (by rw [TEDITOR_MAX_LINES]; omega), hsplit, Option.bind_some]
  obtain ⟨ed₂, hback, hjoined, hstays⟩ := @Shows.backspace_line
    (teditorEnsureCursorVisible { ed₁ with isModified := true }) z
    (hsplit'.congr rfl rfl rfl rfl) (hoff.trans hsel)
  rw [hnewline, Option.bind_some, hback, h.lineRoom, Nat.add_zero]
  constructor
  · rintro ⟨ed', heq, -, hcount, -⟩
    obtain rfl := Option.some.inj heq
    by_contra hfull
    have hlines := (hstays (by omega)).rows.total
    rw [Zipper.length_split] at hlines
    omega
  · exact fun hlt => h.undone (hjoined hlt)

theorem text_undone (h : Shows ed z) (hsel : ed.selActive = false) {c : Char}
    (hc : c.toNat ≠ 0) (hroom : LineRoom ed (String.utf8EncodeChar c).length) :
    Undone ed ((teditorInsertText ed (String.utf8EncodeChar c)).bind teditorBackspace) := by
  obtain ⟨b, bs, hbytes, hlead, hcont⟩ := Utf8.encode_shape c
  have h0 : 0 ∉ String.utf8EncodeChar c := fun hmem =>
    Utf8.encode_ne_zero (Nat.pos_of_ne_zero hc) hmem rfl
  rw [hbytes] at hroom h0
  rw [hbytes]
  have hfits := (h.lineRoom _).mp hroom
  obtain ⟨ed₁, inserted, hinsert, hshows, hoff⟩ := h.insertAt h0
  rw [Zipper.insertMax, if_pos hfits] at hshows
  have htext : ∃ ed₂, teditorInsertText ed (b :: bs) = some ed₂ ∧ Shows ed₂ (z.insert (b :: bs)) ∧
      ed₂.selActive = false := by
    rw [teditorInsertText, if_neg (List.cons_ne_nil b bs), deleteSelection_off hsel]
    simp only [Option.bind_eq_bind, Option.bind_some, hinsert]
    refine ⟨_, rfl, ?_, ?_⟩
    · cases inserted <;> exact hshows.congr rfl rfl rfl rfl
    · cases inserted <;> exact hoff.trans hsel
  obtain ⟨ed₂, heq, hshows₂, hoff₂⟩ := htext
  obtain ⟨ed₃, hback, hshows₃⟩ := hshows₂.backspace_char hoff₂ hlead hcont
  rw [heq, Option.bind_some, hback]
  exact h.undone hshows₃

theorem key_undone (h : Shows ed z) (hsel : ed.selActive = false) {ch : UB} (hne : ch ≠ 0)
    (hascii : ch < 0x80) (hroom : LineRoom ed 0) :
    Undone ed ((teditorInsertChar ed ch).bind teditorBackspace) := by
  have h0 : 0 ∉ [ch] := by simpa using Ne.symm hne
  have hfits := (h.lineRoom 0).mp hroom
  obtain ⟨hline, hl⟩ := h.line
  obtain ⟨a, b, hmove, hcopy, hshows⟩ := h.inserted h0 (by rw [List.length_singleton]; omega)
  rw [memcpy_singleton] at hcopy
  have hkey : ∃ ed₂, teditorInsertChar ed ch = some ed₂ ∧ Shows ed₂ (z.insert [ch]) ∧
      ed₂.selActive = false := by
    have hmove' : memmove TEDITOR_MAX_COLS (ed.lines ed.cursorRow) ((z.left.length : Int) + 1)
        z.left.length (((z.left ++ z.right).length : Int) - z.left.length + 1) = some a := hmove
    rw [teditorInsertChar, deleteSelection_off hsel]
    simp only [hline, Option.bind_eq_bind, Option.bind_some, strlenLine, hl.strlen, h.col]
    rw [if_pos (by rw [TEDITOR_MAX_COLS, List.length_append]; omega), hmove', Option.bind_some,
      hcopy]
    exact ⟨_, rfl, hshows.congr rfl rfl rfl rfl, hsel⟩
  have hlead : Utf8.isCont ch = false := by
    rw [← Bool.not_eq_true, Utf8.isCont_iff]
    have hlt := UInt8.lt_iff_toNat_lt.mp hascii
    have h128 : (0x80 : UB).toNat = 0x80 := rfl
    omega
  obtain ⟨ed₂, heq, hshows₂, hoff₂⟩ := hkey
  obtain ⟨ed₃, hback, hshows₃⟩ := hshows₂.backspace_char hoff₂ hlead fun _ hx =>
    absurd hx List.not_mem_nil
  rw [heq, Option.bind_some, hback]
  exact h.undone hshows₃

end Backspace

-- Backspace takes back what was typed if and only if a line that is split has fewer than 511
-- bytes.
theorem edits_undone_iff {ed : TEditor} (h : Inv ed) (hsel : ed.selActive = false) :
    EditsUndone ed ↔ (ed.totalLines < TEDITOR_MAX_LINES - 1 → LineRoom ed 0) := by
  obtain ⟨z, hz⟩ := h.toText.shows
  constructor
  · exact fun hundone hroom => (newline_undone_iff hz hsel hroom).mp (hundone.newline hroom)
  · intro hfits
    exact ⟨fun hroom => (newline_undone_iff hz hsel hroom).mpr (hfits hroom),
      fun _ hc hroom => text_undone hz hsel hc hroom,
      fun _ hne hascii hroom => key_undone hz hsel hne hascii hroom⟩

theorem edits_undone_new : EditsUndone newDocument :=
  (edits_undone_iff newDocument_inv rfl).mpr fun _ => by decide +kernel

-- A line that fills its slot is split and not joined again.
def fullLine : TEditor := openEditor (some ([0x61], List.replicate 511 0x61))

theorem fullLine_length : (lineText (fullLine.lines fullLine.cursorRow)).length = 511 := by
  have htotal : fullLine.totalLines = 1 := by decide +kernel
  have hcontents : contents fullLine = loadedText (List.replicate 511 0x61) :=
    contents_load _ [0x61] (List.replicate 511 0x61)
  have hlens : (loadedText (List.replicate 511 0x61)).map List.length = [511] := by decide +kernel
  rw [← hcontents, contents, htotal] at hlens
  exact (List.cons.inj hlens).1

theorem edits_not_undone :
    ¬∀ ed : TEditor, Inv ed → ed.selActive = false → ed.totalLines < TEDITOR_MAX_LINES - 1 →
      EditsUndone ed := by
  intro h
  have hinv : Inv fullLine := openEditor_inv _
  have hroom : fullLine.totalLines < TEDITOR_MAX_LINES - 1 := by decide +kernel
  obtain ⟨z, hz⟩ := hinv.toText.shows
  have hundone := (h fullLine hinv rfl hroom).newline hroom
  have hfits := (newline_undone_iff hz rfl hroom).mp hundone
  rw [LineRoom, fullLine_length] at hfits
  exact absurd hfits (by decide)

end BTron.Editor
