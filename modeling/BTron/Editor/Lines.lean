import BTron.Editor.Modified
import BTron.Lib.CText
import BTron.Lib.Zipper

namespace BTron.Editor

open Lib Lib.CArray

-- The slots from `i` on hold these lines.
def Segment (lines : Int → Bytes) : Int → List (List UB) → Prop
  | _, [] => True
  | i, l :: ls => Holds TEDITOR_MAX_COLS (lines i) l ∧ Segment lines (i + 1) ls

-- The document is these lines.
structure Rows (ed : TEditor) (ls : List (List UB)) : Prop where
  total : ed.totalLines = ls.length
  room : ls.length ≤ 1000
  slots : Slots ed.lines
  segment : Segment ed.lines 0 ls

-- The document and the cursor in it.
structure Shows (ed : TEditor) (z : Zipper UB) : Prop where
  rows : Rows ed z.lines
  row : ed.cursorRow = z.above.length
  col : ed.cursorCol = z.left.length

section Segments

variable {lines lines' : Int → Bytes} {i : Int} {l : List UB} {ls : List (List UB)}

theorem segment_append (ls ls' : List (List UB)) (i : Int) :
    Segment lines i (ls ++ ls') ↔ Segment lines i ls ∧ Segment lines (i + ls.length) ls' := by
  induction ls generalizing i with
  | nil => simp [Segment]
  | cons l ls ih =>
      have hnext : i + 1 + (ls.length : Int) = i + ((l :: ls).length : Nat) := by
        rw [List.length_cons]
        omega
      rw [List.cons_append, Segment, Segment, ih, hnext, and_assoc]

theorem Segment.congr (h : Segment lines i ls)
    (heq : ∀ z, i ≤ z → z < i + ls.length → lines' z = lines z) : Segment lines' i ls := by
  induction ls generalizing i with
  | nil => trivial
  | cons l ls ih =>
      rw [List.length_cons] at heq
      refine ⟨?_, ih h.2 fun z hz hz' => heq z (by omega) (by omega)⟩
      rw [heq i (Int.le_refl i) (by omega)]
      exact h.1

-- A change outside the lines.
theorem Segment.update (h : Segment lines i ls) {r : Int} (hr : r < i ∨ i + ls.length ≤ r)
    (a : Bytes) : Segment (Function.update lines r a) i ls :=
  h.congr fun z hz hz' => Function.update_of_ne (by omega) a lines

theorem Segment.unique {ls' : List (List UB)} (h : Segment lines i ls) (h' : Segment lines i ls')
    (hlen : ls.length = ls'.length) : ls = ls' := by
  induction ls generalizing i ls' with
  | nil => exact (List.length_eq_zero_iff.mp hlen.symm).symm
  | cons l ls ih =>
      obtain ⟨l', ls', rfl⟩ := List.exists_cons_of_length_eq_add_one hlen.symm
      rw [h.1.unique h'.1, ih h.2 h'.2 (Nat.succ.inj hlen)]

theorem slot_holds {a : Bytes} (ha : a 511 = 0) :
    ∃ l, Holds TEDITOR_MAX_COLS a l ∧ l.length ≤ 511 := by
  obtain ⟨n, -, hstr⟩ := slot_strlen ha
  have hin := hstr.holds.inside
  exact ⟨_, hstr.holds, by omega⟩

theorem exists_segment (hslots : Slots lines) (n : Nat) (h0 : 0 ≤ i) (hroom : i + n ≤ 1000) :
    ∃ ls, ls.length = n ∧ Segment lines i ls := by
  induction n generalizing i with
  | zero => exact ⟨[], rfl, trivial⟩
  | succ n ih =>
      obtain ⟨l, hl, -⟩ := slot_holds (hslots i h0 (by omega))
      obtain ⟨ls, hlen, hls⟩ := ih (i := i + 1) (by omega) (by omega)
      exact ⟨l :: ls, by rw [List.length_cons, hlen], hl, hls⟩

theorem Segment.length_le (h : Segment lines i ls) : ∀ l ∈ ls, 0 ∉ l ∧ l.length ≤ 511 := by
  induction ls generalizing i with
  | nil => exact fun l hl => absurd hl List.not_mem_nil
  | cons l ls ih =>
      have hin := h.1.inside
      rw [TEDITOR_MAX_COLS] at hin
      rw [List.forall_mem_cons]
      exact ⟨⟨h.1.string, by omega⟩, ih h.2⟩

theorem Segment.getElem (h : Segment lines i ls) (r : Nat) (hr : r < ls.length) :
    Holds TEDITOR_MAX_COLS (lines (i + r)) ls[r] := by
  induction ls generalizing i r with
  | nil => exact absurd hr (Nat.not_lt_zero r)
  | cons l ls ih =>
      cases r with
      | zero => simpa using h.1
      | succ r =>
          have hnext : i + ((r + 1 : Nat) : Int) = i + 1 + r := by omega
          rw [hnext]
          exact ih h.2 r (Nat.lt_of_succ_lt_succ hr)

end Segments

-- The last byte of a slot ends a string that fills it.
theorem slot_last {a : Bytes} {l : List UB} (h : Holds TEDITOR_MAX_COLS a l)
    (hrest : l.length < 511 → a 511 = 0) : a 511 = 0 := by
  have hin := h.inside
  rw [TEDITOR_MAX_COLS] at hin
  by_cases hfull : l.length = 511
  · have hends := h.isStr.ends
    rwa [hfull] at hends
  · exact hrest (by omega)

theorem lineText_holds {a : Bytes} {l : List UB} (h : Holds TEDITOR_MAX_COLS a l) :
    lineText a = l := by
  have hin := h.inside
  rw [TEDITOR_MAX_COLS] at hin
  refine lineText_eq h.string (by omega) (fun k hk => ?_) h.isStr.ends
  rw [h.cell k (Nat.le_of_lt hk), List.getD_eq_getElem _ _ hk]
  rfl

-- The copy of a line is that line.
theorem copyLine_holds {ed : TEditor} (dst src : Int) {l : List UB} (hslots : Slots ed.lines)
    (hdst : 0 ≤ dst ∧ dst < 1000) (hsrc : 0 ≤ src ∧ src < 1000)
    (hl : Holds TEDITOR_MAX_COLS (ed.lines src) l) :
    ∃ a, copyLine ed dst src = some (ed.setLine dst a) ∧ a 511 = 0 ∧
      Holds TEDITOR_MAX_COLS a l := by
  have hlast := hslots dst hdst.1 hdst.2
  have hin := hl.inside
  rw [TEDITOR_MAX_COLS] at hin
  obtain ⟨old, hold, -⟩ := slot_holds hlast
  obtain ⟨a, ha, hnew, hframe⟩ := hold.copy hl 0 0 511 (Nat.zero_le _)
    (Nat.zero_le _) (by decide) hlast
  refine ⟨a, ?_, by rw [hframe 511 (by decide), hlast], ?_⟩
  · rw [copyLine, line_eq hdst, line_eq hsrc]
    simp only [Option.bind_eq_bind, Option.bind_some]
    have ha' : strncpy TEDITOR_MAX_COLS (ed.lines dst) 0 TEDITOR_MAX_COLS (ed.lines src) 0
        (TEDITOR_MAX_COLS - 1) = some a := ha
    rw [ha', Option.bind_some]
  · rwa [List.take_zero, List.nil_append, List.drop_zero, List.take_of_length_le (by omega)] at hnew

section Shifts

variable {ed : TEditor} {i : Int}

-- The lines move up over those before them.
theorem shiftUp_segment {off : Int} (ls : List (List UB)) (hslots : Slots ed.lines) (h0 : 0 ≤ i)
    (hoff : 1 ≤ off) (hroom : i + off + ls.length ≤ 1000)
    (hls : Segment ed.lines (i + off) ls) :
    ∃ lines, shiftUp ed off ls.length i = some { ed with lines := lines } ∧ Slots lines ∧
      Segment lines i ls ∧ ∀ z, z < i → lines z = ed.lines z := by
  induction ls generalizing ed i with
  | nil => exact ⟨ed.lines, rfl, hslots, trivial, fun _ _ => rfl⟩
  | cons l ls ih =>
      rw [List.length_cons] at hroom
      obtain ⟨a, ha, hlast, hl⟩ := copyLine_holds i (i + off) hslots (by omega) (by omega) hls.1
      have hrest : Segment (ed.setLine i a).lines (i + 1 + off) ls := by
        have hnext : i + 1 + off = i + off + 1 := by omega
        rw [hnext]
        exact hls.2.update (Or.inl (by omega)) a
      obtain ⟨lines, hlines, hslots', hseg, hframe⟩ :=
        @ih (ed.setLine i a) (i + 1) (hslots.update hlast) (by omega) (by omega) hrest
      refine ⟨lines, ?_, hslots', ⟨?_, hseg⟩, fun z hz => ?_⟩
      · rw [List.length_cons, shiftUp, ha]
        exact hlines
      · rw [hframe i (by omega), setLine_lines, Function.update_self]
        exact hl
      · rw [hframe z (by omega)]
        exact Function.update_of_ne (by omega) _ _

-- The lines up to `i` move down by one.
theorem shiftDown_segment (ls : List (List UB)) (hslots : Slots ed.lines) (hi : i < 1000)
    (h0 : ls.length ≤ i) (hls : Segment ed.lines (i - ls.length) ls) :
    ∃ lines, shiftDown ed ls.length i = some { ed with lines := lines } ∧ Slots lines ∧
      Segment lines (i - ls.length + 1) ls ∧
      ∀ z, z ≤ i - ls.length ∨ i < z → lines z = ed.lines z := by
  induction ls using List.reverseRecOn generalizing ed i with
  | nil => exact ⟨ed.lines, rfl, hslots, trivial, fun _ _ => rfl⟩
  | append_singleton ls l ih =>
      have hlen : (ls ++ [l]).length = ls.length + 1 := by simp
      rw [hlen] at h0
      rw [hlen, segment_append] at hls
      obtain ⟨hfirst, hlast, -⟩ := hls
      have hfrom : i - ((ls.length + 1 : Nat) : Int) = i - 1 - ls.length := by omega
      rw [hfrom] at hfirst hlast
      have hsrc : i - 1 - (ls.length : Int) + ls.length = i - 1 := by omega
      rw [hsrc] at hlast
      obtain ⟨a, ha, hzero, hl⟩ := copyLine_holds i (i - 1) hslots (by omega) (by omega) hlast
      obtain ⟨lines, hlines, hslots', hseg, hframe⟩ := @ih (ed.setLine i a) (i - 1)
        (hslots.update hzero) (by omega) (by omega) (hfirst.update (Or.inr (by omega)) a)
      rw [hlen, hfrom]
      refine ⟨lines, ?_, hslots', (segment_append ls [l] _).mpr ⟨hseg, ?_, trivial⟩,
        fun z hz => ?_⟩
      · rw [shiftDown, ha]
        exact hlines
      · have hto : i - 1 - (ls.length : Int) + 1 + ls.length = i := by omega
        rw [hto, hframe i (Or.inr (by omega)), setLine_lines, Function.update_self]
        exact hl
      · rw [hframe z (by omega)]
        exact Function.update_of_ne (by omega) _ _

end Shifts

section Rows

variable {ed : TEditor} {ls : List (List UB)}

theorem Text.rows (h : Text ed) : ∃ ls, Rows ed ls := by
  have htotal := h.total
  obtain ⟨ls, hlen, hls⟩ :=
    exists_segment h.slots ed.totalLines.toNat (Int.le_refl 0) (by omega)
  exact ⟨ls, by omega, by omega, h.slots, hls⟩

theorem Rows.contents (h : Rows ed ls) : contents ed = ls := by
  rw [Editor.contents, h.total, Int.toNat_natCast]
  refine List.ext_getElem (by simp) fun r hr hr' => ?_
  have hrow := h.segment.getElem r hr'
  rw [Int.zero_add] at hrow
  rw [List.getElem_map, List.getElem_range, lineText_holds hrow]

-- A line of the document between those above and those below it.
theorem Rows.split_at {r : Int} (h : Rows ed ls) (hr : 0 ≤ r ∧ r < ed.totalLines) :
    ∃ above l below, ls = above ++ l :: below ∧ r = above.length := by
  have htotal := h.total
  have hlt : r.toNat < ls.length := by omega
  refine ⟨ls.take r.toNat, ls[r.toNat], ls.drop (r.toNat + 1), ?_, ?_⟩
  · rw [← List.drop_eq_getElem_cons hlt, List.take_append_drop]
  · rw [List.length_take]
    omega

theorem segment_middle {lines : Int → Bytes} {above below : List (List UB)} {l : List UB} :
    Segment lines 0 (above ++ l :: below) ↔ Segment lines 0 above ∧
      Holds TEDITOR_MAX_COLS (lines above.length) l ∧
        Segment lines (above.length + 1) below := by
  rw [segment_append, Int.zero_add]
  rfl

-- A position splits its line.
theorem Rows.place {r c : Int} (h : Rows ed ls) (hp : Pos ed r c) :
    ∃ z : Zipper UB, z.lines = ls ∧ r = z.above.length ∧ c = z.left.length := by
  obtain ⟨above, l, below, rfl, rfl⟩ := h.split_at hp.row
  have hl := (segment_middle.mp h.segment).2.1
  have hc := hl.isStr.le_of_filled hp.filled
  have hpos := hp.nonneg
  refine ⟨⟨above, l.take c.toNat, l.drop c.toNat, below⟩, ?_, rfl, ?_⟩
  · rw [Zipper.lines, List.take_append_drop]
  · rw [List.length_take]
    omega

theorem Text.shows (h : Text ed) : ∃ z, Shows ed z := by
  obtain ⟨ls, hls⟩ := h.rows
  obtain ⟨z, rfl, hrow, hcol⟩ := hls.place h.cursor
  exact ⟨z, hls, hrow, hcol⟩

end Rows

section Edits

variable {ed : TEditor} {z : Zipper UB}

theorem Shows.line (h : Shows ed z) :
    ed.line ed.cursorRow = some (ed.lines ed.cursorRow) ∧
      Holds TEDITOR_MAX_COLS (ed.lines ed.cursorRow) (z.left ++ z.right) := by
  have hl := (segment_middle.mp h.rows.segment).2.1
  have hroom := h.rows.room
  rw [Zipper.lines, List.length_append, List.length_cons] at hroom
  rw [h.row]
  exact ⟨line_eq (by omega), hl⟩

-- The line of the cursor becomes another one.
theorem Rows.setLine {above below : List (List UB)} {l l' : List UB} {a : Bytes}
    (h : Rows ed (above ++ l :: below)) (ha : Holds TEDITOR_MAX_COLS a l') (hlast : a 511 = 0) :
    Rows (ed.setLine above.length a) (above ++ l' :: below) := by
  obtain ⟨habove, -, hbelow⟩ := segment_middle.mp h.segment
  have htotal := h.total
  have hroom := h.room
  rw [List.length_append, List.length_cons] at htotal hroom
  refine ⟨?_, ?_, h.slots.update hlast, segment_middle.mpr ⟨?_, ?_, ?_⟩⟩
  · rw [List.length_append, List.length_cons]
    exact htotal
  · rwa [List.length_append, List.length_cons]
  · exact habove.update (Or.inr (by omega)) a
  · rw [setLine_lines, Function.update_self]
    exact ha
  · exact hbelow.update (Or.inl (by omega)) a

-- Where the cursor is and what the lines are is all that matters.
theorem Shows.congr {ed' : TEditor} (h : Shows ed z) (hlines : ed'.lines = ed.lines)
    (htotal : ed'.totalLines = ed.totalLines) (hrow : ed'.cursorRow = ed.cursorRow)
    (hcol : ed'.cursorCol = ed.cursorCol) : Shows ed' z :=
  ⟨⟨htotal.trans h.rows.total, h.rows.room, hlines ▸ h.rows.slots, hlines ▸ h.rows.segment⟩,
    hrow.trans h.row, hcol.trans h.col⟩

-- The line of the cursor is made longer there.
theorem Shows.inserted (h : Shows ed z) {text : List UB} (htext : 0 ∉ text)
    (hfits : z.left.length + z.right.length + text.length < 512) :
    ∃ a b, memmove TEDITOR_MAX_COLS (ed.lines ed.cursorRow) ((z.left.length : Int) + text.length)
        z.left.length (((z.left ++ z.right).length : Int) - z.left.length + 1) = some a ∧
      memcpy TEDITOR_MAX_COLS a z.left.length text = some b ∧
      Shows { ed.setLine ed.cursorRow b with cursorCol := (z.left.length : Int) + text.length }
        (z.insert text) := by
  obtain ⟨-, hl⟩ := h.line
  have hroom := h.rows.room
  have hrow := h.row
  rw [Zipper.lines, List.length_append, List.length_cons] at hroom
  have hlen := @List.length_append _ z.left z.right
  obtain ⟨a, b, hmove, hcopy, hb, hframe⟩ := hl.insert htext (c := z.left.length) (by omega) (by
    rw [TEDITOR_MAX_COLS]
    omega)
  rw [List.take_left, List.drop_left] at hb
  have hlast : b 511 = 0 := slot_last hb fun hlt => by
    simp only [List.length_append] at hlt
    rw [hframe 511 (by omega), h.rows.slots _ (by omega) (by omega)]
  have hrows := h.rows.setLine hb hlast
  rw [← hrow] at hrows
  refine ⟨a, b, hmove, hcopy, ⟨hrows.total, hrows.room, hrows.slots, hrows.segment⟩, hrow, ?_⟩
  rw [Zipper.insert, List.length_append]
  exact (Int.natCast_add _ _).symm

theorem Shows.insertAt (h : Shows ed z) {text : List UB} (htext : 0 ∉ text) :
    ∃ ed' inserted, insertAt ed text = some (ed', inserted) ∧
      Shows ed' (z.insertMax 511 text) ∧ ed'.selActive = ed.selActive := by
  obtain ⟨hline, hl⟩ := h.line
  have hlen := @List.length_append _ z.left z.right
  rw [Editor.insertAt]
  simp only [hline, Option.bind_eq_bind, Option.bind_some, strlenLine, hl.strlen, h.col]
  by_cases hfits : z.left.length + z.right.length + text.length < 511
  · obtain ⟨a, b, hmove, hcopy, hshows⟩ := h.inserted htext (by omega)
    rw [if_pos (by rw [TEDITOR_MAX_COLS]; omega), Zipper.insertMax, if_pos hfits, hmove,
      Option.bind_some, hcopy]
    exact ⟨_, _, rfl, hshows, rfl⟩
  · rw [if_neg (by rw [TEDITOR_MAX_COLS]; omega), Zipper.insertMax, if_neg hfits]
    exact ⟨ed, false, rfl, h, rfl⟩

theorem Shows.splitLine (h : Shows ed z) (hroom : z.lines.length < 1000) :
    ∃ ed', splitLine ed = some ed' ∧ Shows ed' z.split ∧ ed'.selActive = ed.selActive := by
  obtain ⟨hline, hl⟩ := h.line
  obtain ⟨habove, -, hbelow⟩ := segment_middle.mp h.rows.segment
  have hrow := h.row
  have htotal := h.rows.total
  have hlen : z.lines.length = z.above.length + (z.below.length + 1) := by
    rw [Zipper.lines, List.length_append, List.length_cons]
  have hcount : (ed.totalLines - (ed.cursorRow + 1)).toNat = z.below.length := by omega
  have hstart : ed.totalLines - z.below.length = ed.cursorRow + 1 := by omega
  rw [← hrow, ← hstart] at hbelow
  obtain ⟨lines, hshift, hslots, hbelow', hframe⟩ :=
    shiftDown_segment z.below h.rows.slots (by omega) (by omega) hbelow
  rw [hstart] at hbelow' hframe
  -- the line is still there, and the next one is free
  have hsame : lines ed.cursorRow = ed.lines ed.cursorRow := hframe _ (Or.inl (by omega))
  have hlast := hslots (ed.cursorRow + 1) (by omega) (by omega)
  have hin := hl.inside
  rw [TEDITOR_MAX_COLS, List.length_append] at hin
  obtain ⟨old, hold, -⟩ := slot_holds hlast
  obtain ⟨b, hb, hright, hframeB⟩ := hold.copy hl 0 z.left.length 511
    (Nat.zero_le _) (by rw [List.length_append]; omega) (by decide) hlast
  rw [List.take_zero, List.nil_append, List.drop_left, List.take_of_length_le (by omega)] at hright
  obtain ⟨a, ha, hleft, hframeA⟩ := hl.take (c := z.left.length) (by rw [List.length_append]; omega)
  rw [List.take_left] at hleft
  have hb511 : b 511 = 0 := by rw [hframeB 511 (by decide), hlast]
  have ha511 : a 511 = 0 := slot_last hleft fun hlt => by
    rw [hframeA 511 (by omega), h.rows.slots _ (by omega) (by omega)]
  have hb' : strncpy TEDITOR_MAX_COLS (lines (ed.cursorRow + 1)) 0 TEDITOR_MAX_COLS
      (ed.lines ed.cursorRow) z.left.length (TEDITOR_MAX_COLS - 1) = some b := hb
  rw [Editor.splitLine, hcount, hshift]
  simp only [Option.bind_eq_bind, Option.bind_some]
  rw [line_eq (by omega), line_eq (by omega)]
  simp only [Option.bind_some, hsame, h.col, hb', ha]
  refine ⟨_, rfl, ⟨⟨?_, ?_, (hslots.update hb511).update ha511, ?_⟩, ?_, rfl⟩, rfl⟩
  · rw [Zipper.length_split, htotal]
    rfl
  · rw [Zipper.length_split]
    omega
  · have hne : ed.cursorRow + 1 ≠ ed.cursorRow := by omega
    rw [Zipper.lines_split, segment_middle, ← hrow]
    refine ⟨((habove.congr fun r _ hr => hframe r (Or.inl (by omega))).update
      (Or.inr (by omega)) b).update (Or.inr (by omega)) a, ?_, ?_, ?_⟩
    · simp only [TEditor.setLine, Function.update_self]
      exact hleft
    · simp only [TEditor.setLine, Function.update_of_ne hne, Function.update_self]
      exact hright
    · exact (hbelow'.update (Or.inl (by omega)) b).update (Or.inl (by omega)) a
  · rw [Zipper.split, List.length_append, hrow]
    rfl

-- Two lines that fit into one become one.
theorem Rows.joinLines {above below : List (List UB)} {l l' : List UB}
    (h : Rows ed (above ++ l :: l' :: below)) (hroom : l.length + l'.length < 512) :
    ∃ lines, joinLines ed above.length l.length (ed.lines above.length)
        (ed.lines (above.length + 1)) =
        some { ed with lines := lines, totalLines := ed.totalLines - 1 } ∧
      Rows { ed with lines := lines, totalLines := ed.totalLines - 1 }
        (above ++ (l ++ l') :: below) := by
  obtain ⟨habove, hl, hl', hbelow⟩ := segment_middle.mp h.segment
  have htotal := h.total
  have hmax := h.room
  simp only [List.length_append, List.length_cons] at htotal hmax
  obtain ⟨a, hcat, ha, hframe⟩ := hl.append hl' (n := 511 - l.length) (by
    rw [TEDITOR_MAX_COLS]
    omega)
  rw [List.take_of_length_le (by omega)] at ha
  have hlast : a 511 = 0 := slot_last ha fun hlt => by
    rw [List.length_append] at hlt
    rw [hframe 511 (by omega), h.slots above.length (by omega) (by omega)]
  have hcat' : strncat TEDITOR_MAX_COLS (ed.lines above.length) TEDITOR_MAX_COLS
      (ed.lines (above.length + 1)) (TEDITOR_MAX_COLS - l.length - 1) = some a := by
    have hn : TEDITOR_MAX_COLS - (l.length : Int) - 1 = ((511 - l.length : Nat) : Int) := by
      rw [TEDITOR_MAX_COLS]
      omega
    rw [hn]
    exact hcat
  have hcount : (ed.totalLines - 1 - ((above.length : Int) + 1)).toNat = below.length := by omega
  obtain ⟨lines, hshift, hslots, hbelow', hframe'⟩ :=
    @shiftUp_segment (ed.setLine above.length a) (above.length + 1) 1 below
      (h.slots.update hlast) (by omega) (Int.le_refl 1) (by omega)
      (hbelow.update (Or.inl (by omega)) a)
  refine ⟨lines, ?_, ?_, ?_, hslots, segment_middle.mpr ⟨?_, ?_, hbelow'⟩⟩
  · rw [Editor.joinLines]
    simp only [hcat', Option.bind_eq_bind, Option.bind_some]
    show (shiftUp (ed.setLine above.length a) 1
      (ed.totalLines - 1 - ((above.length : Int) + 1)).toNat _).bind _ = _
    rw [hcount, hshift]
    rfl
  · show ed.totalLines - 1 = _
    rw [List.length_append, List.length_cons]
    omega
  · rw [List.length_append, List.length_cons]
    omega
  · exact (habove.update (Or.inr (by omega)) a).congr fun r _ hr => hframe' r (by omega)
  · show Holds _ (lines above.length) _
    rw [hframe' _ (by omega), setLine_lines, Function.update_self]
    exact ha

end Edits

end BTron.Editor
