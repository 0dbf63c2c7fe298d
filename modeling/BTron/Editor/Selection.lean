import BTron.Editor.Lines

namespace BTron.Editor

open Lib Lib.CArray

-- What is selected of each line: of the first from the start on, of the last up to the end.
def selectedParts (ed : TEditor) : List (List UB) :=
  let (r1, c1, r2, c2) := ed.selection
  (List.range (r2 - r1 + 1).toNat).map fun (k : Nat) =>
    let l := lineText (ed.lines (r1 + k))
    let l := if r1 + k = r2 then l.take c2.toNat else l
    if k = 0 then l.drop c1.toNat else l

def selectedText (ed : TEditor) : List UB := [10].intercalate (selectedParts ed)

-- The bytes of its first line before the selection, and of its last line behind it.
def bytesBefore (ed : TEditor) : Nat := ed.selection.2.1.toNat

def bytesBehind (ed : TEditor) : Nat :=
  (lineText (ed.lines ed.selection.2.2.1)).length - ed.selection.2.2.2.toNat

-- The clipboard holds the selected text after the copy.
def Copied (st : State) : Prop :=
  ∃ clip, teditorCopySelection st = some { st with clipboard := clip } ∧
    Holds CLIPBOARD_SIZE clip (selectedText st.ed)

-- The selection is in one line. The text without it is `z`, with the cursor where it was.
structure Within (ed : TEditor) (z : Zipper UB) (s : List UB) : Prop where
  selection : ed.selection = ((z.above.length : Int), (z.left.length : Int),
    (z.above.length : Int), (z.left.length : Int) + s.length)
  rows : Rows ed (z.above ++ (z.left ++ s ++ z.right) :: z.below)

-- It begins in one line and ends in a later one.
structure Across (ed : TEditor) (z : Zipper UB) (s : List UB) (mid : List (List UB))
    (t : List UB) : Prop where
  selection : ed.selection = ((z.above.length : Int), (z.left.length : Int),
    (z.above.length : Int) + 1 + mid.length, (t.length : Int))
  rows : Rows ed (z.above ++ (z.left ++ s) :: (mid ++ (t ++ z.right) :: z.below))

section Parts

variable {ed : TEditor} {z : Zipper UB} {s t : List UB} {mid : List (List UB)}

theorem Inv.selects (h : Inv ed) (hsel : ed.selActive) :
    (∃ z s, Within ed z s) ∨ ∃ z s mid t, Across ed z s mid t := by
  obtain ⟨r1, c1, r2, c2, heq, h1, h2, horder⟩ := selection_spec h hsel
  obtain ⟨ls, hls⟩ := h.toText.rows
  obtain ⟨z1, hz1, rfl, rfl⟩ := hls.place h1
  obtain ⟨z2, hz2, rfl, rfl⟩ := hls.place h2
  rw [← hz1] at hls hz2
  obtain hlt | ⟨hrow, hcol⟩ := horder
  · refine .inr ?_
    -- the last line is below the first
    rw [Zipper.lines, Zipper.lines, List.append_eq_append_iff] at hz2
    obtain ⟨as, habove, hrest⟩ | ⟨as, habove, hrest⟩ := hz2
    · rw [habove, List.length_append] at hlt
      omega
    · cases as with
      | nil =>
          rw [habove, List.append_nil] at hlt
          omega
      | cons l mid =>
          rw [List.cons_append, List.cons_eq_cons] at hrest
          obtain ⟨rfl, hbelow⟩ := hrest
          refine ⟨⟨z1.above, z1.left, z2.right, z2.below⟩, z1.right, mid, z2.left, ?_, ?_⟩
          · rw [heq, habove, List.length_append, List.length_cons]
            simp only [Prod.mk.injEq, true_and, and_true]
            omega
          · rw [Zipper.lines, hbelow] at hls
            exact hls
  · refine .inl ?_
    have hlen : z1.above.length = z2.above.length := by omega
    rw [Zipper.lines, Zipper.lines] at hz2
    obtain ⟨habove, hrest⟩ := List.append_inj hz2 hlen.symm
    rw [List.cons_eq_cons] at hrest
    obtain ⟨hline, hbelow⟩ := hrest
    -- the second place is right of the first
    obtain ⟨s, hs⟩ := List.prefix_of_prefix_length_le (List.prefix_append z1.left z1.right)
      (hline ▸ List.prefix_append z2.left z2.right) (by omega)
    rw [← hs, List.append_assoc, List.append_cancel_left_eq] at hline
    refine ⟨⟨z1.above, z1.left, z2.right, z1.below⟩, s, ?_, ?_⟩
    · rw [heq, ← hs, List.length_append, hlen]
      simp
    · rw [Zipper.lines, ← hline, ← List.append_assoc] at hls
      exact hls

theorem Within.line (h : Within ed z s) :
    ed.line z.above.length = some (ed.lines z.above.length) ∧
      Holds TEDITOR_MAX_COLS (ed.lines z.above.length) (z.left ++ s ++ z.right) := by
  have hmax := h.rows.room
  rw [List.length_append, List.length_cons] at hmax
  exact ⟨line_eq (by omega), (segment_middle.mp h.rows.segment).2.1⟩

theorem Within.parts (h : Within ed z s) : selectedParts ed = [s] := by
  have hcount : ((z.above.length : Int) - z.above.length + 1).toNat = 1 := by omega
  have hzero : (z.above.length : Int) + ((0 : Nat) : Int) = z.above.length := Int.add_zero _
  rw [selectedParts, h.selection]
  simp only [hcount, List.range_one, List.map_singleton, hzero, if_true, lineText_holds h.line.2,
    Int.toNat_natCast]
  have hstop : ((z.left.length : Int) + s.length).toNat = (z.left ++ s).length := by
    rw [List.length_append]
    omega
  rw [hstop, List.take_left, List.drop_left]

theorem Within.ends (h : Within ed z s) :
    bytesBefore ed = z.left.length ∧ bytesBehind ed = z.right.length := by
  rw [bytesBefore, bytesBehind, h.selection]
  refine ⟨Int.toNat_natCast _, ?_⟩
  simp only [lineText_holds h.line.2, List.length_append]
  omega

theorem Across.segment (h : Across ed z s mid t) :
    Segment ed.lines 0 z.above ∧
      Holds TEDITOR_MAX_COLS (ed.lines z.above.length) (z.left ++ s) ∧
      Segment ed.lines (z.above.length + 1) mid ∧
      Holds TEDITOR_MAX_COLS (ed.lines (z.above.length + 1 + mid.length)) (t ++ z.right) ∧
      Segment ed.lines (z.above.length + 1 + mid.length + 1) z.below := by
  obtain ⟨habove, hfirst, hrest⟩ := segment_middle.mp h.rows.segment
  obtain ⟨hmid, hlast, hbelow⟩ := (segment_append mid _ _).mp hrest
  exact ⟨habove, hfirst, hmid, hlast, hbelow⟩

theorem Across.parts (h : Across ed z s mid t) : selectedParts ed = s :: mid ++ [t] := by
  obtain ⟨-, hfirst, hmid, hlast, -⟩ := h.segment
  have hcount : ((z.above.length : Int) + 1 + mid.length - z.above.length + 1).toNat =
      mid.length + 1 + 1 := by omega
  have hzero : (z.above.length : Int) + ((0 : Nat) : Int) = z.above.length := Int.add_zero _
  rw [selectedParts, h.selection]
  simp only [hcount]
  rw [List.range_succ, List.map_append, List.range_succ_eq_map, List.map_cons, List.map_map,
    List.map_singleton]
  congr 1
  · congr 1
    · rw [if_pos rfl, if_neg (by omega)]
      simp only [hzero, Int.toNat_natCast, lineText_holds hfirst, List.drop_left]
    · refine List.ext_getElem (by simp) fun k hk hk' => ?_
      have hrow := hmid.getElem k hk'
      have hnext : (z.above.length : Int) + (k.succ : Nat) = z.above.length + 1 + k := by omega
      simp only [List.getElem_map, List.getElem_range, Function.comp, hnext]
      rw [if_neg (Nat.succ_ne_zero k), if_neg (by omega), lineText_holds hrow]
  · have hnext : (z.above.length : Int) + ((mid.length + 1 : Nat) : Int) =
        z.above.length + 1 + mid.length := by omega
    rw [if_neg (Nat.succ_ne_zero _), hnext, if_pos rfl, lineText_holds hlast, Int.toNat_natCast,
      List.take_left]

theorem Across.ends (h : Across ed z s mid t) :
    bytesBefore ed = z.left.length ∧ bytesBehind ed = z.right.length := by
  obtain ⟨-, -, -, hlast, -⟩ := h.segment
  rw [bytesBefore, bytesBehind, h.selection]
  refine ⟨Int.toNat_natCast _, ?_⟩
  simp only [lineText_holds hlast, List.length_append]
  omega

end Parts

section Copies

variable {ed : TEditor} {clip str : Bytes} {T p x y : List UB}

theorem copyPart_begins (hT : Holds CLIPBOARD_SIZE clip T)
    (hl : Holds TEDITOR_MAX_COLS str (x ++ p ++ y)) (hroom : T.length + p.length < 2046) :
    ∃ clip', copyPart clip T.length str x.length ((x.length : Int) + p.length) =
        some (clip', (T.length : Int) + p.length) ∧ Begins clip' (T ++ p) ∧
      ∀ k : Int, (T.length : Int) + p.length ≤ k → clip' k = clip k := by
  rw [copyPart, CLIPBOARD_SIZE]
  by_cases hp : p = []
  · subst hp
    rw [List.length_nil, if_neg (by omega)]
    refine ⟨clip, ?_, by rw [List.append_nil]; exact hT.begins, fun _ _ => rfl⟩
    simp
  · have hpos := List.length_pos_iff.mpr hp
    have hcount : (x.length : Int) + p.length - x.length = p.length := by omega
    have hlen : x.length + p.length ≤ (x ++ p ++ y).length := by
      simp only [List.length_append]
      omega
    obtain ⟨clip', hcopy, hbegins, hframe⟩ := hT.begins.copy CLIPBOARD_SIZE hl _ _ hlen (by
      rw [CLIPBOARD_SIZE]
      omega)
    rw [List.append_assoc, List.drop_left, List.take_left] at hbegins
    rw [hcount, if_pos (by omega), copyOut, hcopy]
    exact ⟨clip', rfl, hbegins, fun k hk => hframe k (by omega)⟩

theorem copyBreak_holds (h : Begins clip T) (h0 : 0 ∉ T) (hroom : T.length < 2046) :
    ∃ clip', copyBreak clip T.length = some (clip', ((T ++ [10]).length : Int)) ∧
      Holds CLIPBOARD_SIZE clip' (T ++ [10]) ∧
      ∀ k : Int, (T.length : Int) + 1 < k → clip' k = clip k := by
  have hlen : (T ++ [10]).length = T.length + 1 := List.length_append
  obtain ⟨clip₁, hset₁, hbegins, hframe₁⟩ := h.push CLIPBOARD_SIZE 10 (by
    rw [CLIPBOARD_SIZE]
    omega)
  obtain ⟨clip₂, hset₂, hholds, hframe₂⟩ := hbegins.terminate CLIPBOARD_SIZE
    (by simpa using h0) (by rw [CLIPBOARD_SIZE]; omega)
  rw [hlen] at hset₂ hframe₂
  have hset₂' : set CLIPBOARD_SIZE clip₁ ((T.length : Int) + 1) 0 = some clip₂ := hset₂
  rw [copyBreak, if_pos (by rw [CLIPBOARD_SIZE]; omega), hlen]
  simp only [hset₁, Option.bind_eq_bind, Option.bind_some, hset₂']
  exact ⟨clip₂, rfl, hholds, fun k hk => by rw [hframe₂ k (by omega), hframe₁ k (by omega)]⟩

-- One turn of the loop before the last.
theorem copyLines_step (r1 c1 r2 c2 : Int) {r : Int} (n : Nat)
    (hT : Holds CLIPBOARD_SIZE clip T)
    (hr : 0 ≤ r ∧ r < 1000) (hlt : r < r2) (hstart : (if r = r1 then c1 else 0) = x.length)
    (hl : Holds TEDITOR_MAX_COLS (ed.lines r) (x ++ p)) (hroom : T.length + p.length < 2046) :
    ∃ clip', copyLines ed r1 c1 r2 c2 (n + 1) r T.length clip =
        copyLines ed r1 c1 r2 c2 n (r + 1) (T ++ p ++ [10]).length clip' ∧
      Holds CLIPBOARD_SIZE clip' (T ++ p ++ [10]) ∧
      ∀ k : Int, (T.length : Int) + p.length + 1 < k → clip' k = clip k := by
  have hl' : Holds TEDITOR_MAX_COLS (ed.lines r) (x ++ p ++ []) := by rwa [List.append_nil]
  obtain ⟨clip₁, hcopy, hbegins, hframe₁⟩ := copyPart_begins hT hl' hroom
  have hlen : (T ++ p).length = T.length + p.length := List.length_append
  have h0 : 0 ∉ T ++ p := fun hmem => (List.mem_append.mp hmem).elim hT.string fun hm =>
    hl.string (List.mem_append_right x hm)
  obtain ⟨clip₂, hbreak, hholds, hframe₂⟩ := copyBreak_holds hbegins h0 (by omega)
  rw [hlen] at hbreak hframe₂
  have hbreak' : copyBreak clip₁ ((T.length : Int) + p.length) =
      some (clip₂, ((T ++ p ++ [10]).length : Int)) := hbreak
  have hstop : (((x ++ p).length : Nat) : Int) = (x.length : Int) + p.length := by
    rw [List.length_append]
    rfl
  refine ⟨clip₂, ?_, hholds, fun k hk => ?_⟩
  · rw [copyLines]
    simp only [line_eq hr, Option.bind_eq_bind, Option.bind_some, strlenLine, hl.strlen, hstart]
    rw [if_neg (Int.ne_of_lt hlt), hstop, hcopy]
    simp only [Option.bind_some]
    rw [if_pos hlt, hbreak', Option.bind_some]
  · rw [hframe₂ k (by omega), hframe₁ k (by omega)]

-- The loop from the second line on. No NUL is written behind the last line.
theorem copyLines_rest (r1 c1 : Int) {r2 r : Int} {t : List UB} (mid : List (List UB))
    (hT : Holds CLIPBOARD_SIZE clip T) (hr : r1 < r) (h0 : 0 ≤ r) (hr2 : r2 = r + mid.length)
    (hmax : r2 < 1000) (hmid : Segment ed.lines r mid)
    (hlast : Holds TEDITOR_MAX_COLS (ed.lines r2) (t ++ y)) (ht : t ≠ [])
    (hroom : T.length + (mid.flatMap (· ++ [10])).length < 2047) :
    ∃ clip', copyLines ed r1 c1 r2 t.length (mid.length + 1) r T.length clip = some clip' ∧
      (Holds CLIPBOARD_SIZE clip' (T ++ mid.flatMap (· ++ [10]) ++ t) ↔
        (T ++ mid.flatMap (· ++ [10]) ++ t).length < 2046 ∧
          clip ((T ++ mid.flatMap (· ++ [10]) ++ t).length : Nat) = 0) := by
  have hpos := List.length_pos_iff.mpr ht
  induction mid generalizing clip T r with
  | nil =>
      have hrow : r2 = r := by rw [hr2, List.length_nil]; exact Int.add_zero r
      subst hrow
      rw [List.flatMap_nil, List.length_nil, Nat.add_zero] at hroom
      rw [List.flatMap_nil, List.append_nil, List.length_append]
      have hlen := @List.length_append _ t y
      have hstop : (if (t.length : Int) < ((t ++ y).length : Nat) then (t.length : Int)
          else ((t ++ y).length : Nat)) = t.length := by
        split <;> omega
      rw [List.length_nil, copyLines]
      simp only [line_eq ⟨h0, hmax⟩, Option.bind_eq_bind, Option.bind_some, strlenLine,
        hlast.strlen, if_true, hstop]
      rw [if_neg (by omega)]
      by_cases hfits : T.length + t.length < 2046
      · have hlast' : Holds TEDITOR_MAX_COLS (ed.lines r2) ([] ++ t ++ y) := hlast
        obtain ⟨clip₁, hcopy, hbegins, hframe⟩ := copyPart_begins hT hlast' hfits
        have hcopy' : copyPart clip T.length (ed.lines r2) 0 t.length =
            some (clip₁, (T.length : Int) + t.length) := by simpa using hcopy
        rw [hcopy']
        simp only [Option.bind_some, lt_irrefl, if_false, copyLines]
        have hend := hframe ((T.length + t.length : Nat) : Int) (by omega)
        refine ⟨clip₁, rfl, fun hholds => ⟨hfits, ?_⟩, fun h => hbegins.holds ?_ ?_ ?_⟩
        · have hends := hholds.isStr.ends
          rw [List.length_append] at hends
          rw [← hend, hends]
        · exact fun hmem => (List.mem_append.mp hmem).elim hT.string fun hm =>
            hlast.string (List.mem_append_left y hm)
        · rw [List.length_append, CLIPBOARD_SIZE]
          omega
        · rw [List.length_append, hend, h.2]
      · rw [copyPart, if_neg (by rw [CLIPBOARD_SIZE]; omega)]
        simp only [Option.bind_some, lt_irrefl, if_false, copyLines]
        refine ⟨clip, rfl, iff_of_false (fun hholds => ?_) fun h => hfits h.1⟩
        have heq := congrArg List.length (hT.unique hholds)
        rw [List.length_append] at heq
        omega
  | cons m mid ih =>
      rw [List.length_cons] at hr2
      rw [List.flatMap_cons, List.length_append, List.length_append, List.length_singleton] at hroom
      have hstart : (if r = r1 then c1 else 0) = (([] : List UB).length : Int) :=
        if_neg (by omega)
      obtain ⟨clip₁, hstep, hholds, hframe⟩ := copyLines_step r1 c1 r2 t.length
        (mid.length + 1) hT ⟨h0, by omega⟩ (by omega) hstart hmid.1 (by omega)
      obtain ⟨clip₂, hrun, hiff⟩ := @ih clip₁ (T ++ m ++ [10]) (r + 1) hholds
        (by omega) (by omega) (by omega) hmid.2 (by
          simp only [List.length_append, List.length_singleton]
          omega)
      have hT' : T ++ m ++ [10] ++ mid.flatMap (· ++ [10]) ++ t =
          T ++ (m :: mid).flatMap (· ++ [10]) ++ t := by
        simp
      rw [hT'] at hiff
      rw [List.length_cons, hstep]
      refine ⟨clip₂, hrun, ?_⟩
      rw [hiff, hframe]
      simp only [List.length_append, List.flatMap_cons, List.length_singleton]
      omega

theorem clear_holds (clip : Bytes) : ∃ clip', set CLIPBOARD_SIZE clip 0 0 = some clip' ∧
    Holds CLIPBOARD_SIZE clip' [] ∧ ∀ k : Int, k ≠ 0 → clip' k = clip k := by
  have hbegins : Begins clip [] := fun k hk => absurd hk (Nat.not_lt_zero k)
  exact hbegins.terminate CLIPBOARD_SIZE List.not_mem_nil (by decide)

variable {st : State} {z : Zipper UB} {s t : List UB} {mid : List (List UB)}

theorem Within.copied (h : Within st.ed z s) (hsel : st.ed.selActive) : Copied st := by
  obtain ⟨hline, hl⟩ := h.line
  obtain ⟨clip₀, hclear, hempty, -⟩ := clear_holds st.clipboard
  have hin := hl.inside
  have hlen : (z.left ++ s ++ z.right).length = z.left.length + s.length + z.right.length := by
    simp only [List.length_append]
  rw [hlen, TEDITOR_MAX_COLS] at hin
  have hstop : (if (z.left.length : Int) + s.length < ((z.left ++ s ++ z.right).length : Nat)
      then (z.left.length : Int) + s.length else ((z.left ++ s ++ z.right).length : Nat)) =
      (z.left.length : Int) + s.length := by
    split <;> omega
  rw [Copied, selectedText, h.parts, List.intercalate_singleton, teditorCopySelection,
    if_neg (by rw [hsel]; decide)]
  simp only [h.selection, hclear, Option.bind_eq_bind, Option.bind_some, if_true, hline,
    strlenLine, hl.strlen, hstop]
  by_cases hs : s = []
  · rw [if_neg (by rw [hs, List.length_nil]; omega)]
    exact ⟨clip₀, rfl, hs ▸ hempty⟩
  · have hpos := List.length_pos_iff.mpr hs
    have hcount : ((z.left.length : Int) + s.length - z.left.length).toNat = s.length := by omega
    have hnul := hl.strnlen z.left.length s.length (by omega)
    rw [Nat.min_eq_left (by omega)] at hnul
    obtain ⟨clip₁, hcopy, hbegins, -⟩ := hempty.begins.copy CLIPBOARD_SIZE hl
      z.left.length s.length (by omega) (by
        rw [CLIPBOARD_SIZE, List.length_nil]
        omega)
    rw [List.nil_append, List.append_assoc, List.drop_left, List.take_left] at hbegins
    have h0 : 0 ∉ s := fun hmem =>
      hl.string (List.mem_append_left _ (List.mem_append_right _ hmem))
    obtain ⟨clip₂, hend, hholds, -⟩ := hbegins.terminate CLIPBOARD_SIZE h0 (by
      rw [CLIPBOARD_SIZE]
      omega)
    have hlast : ((z.left.length + s.length : Nat) : Int) - z.left.length = s.length := by omega
    have hcopy' : copyOut clip₀ 0 (st.ed.lines z.above.length) z.left.length s.length =
        some clip₁ := hcopy
    rw [if_pos (by omega)]
    simp only [hcount, hnul, Option.bind_some, hlast, hcopy', hend]
    exact ⟨clip₂, rfl, hholds⟩

theorem intercalate_concat (P : List (List UB)) (t : List UB) :
    [10].intercalate (P ++ [t]) = P.flatMap (· ++ [10]) ++ t := by
  induction P with
  | nil => exact List.intercalate_singleton
  | cons p P ih =>
      rw [List.cons_append, List.intercalate_cons_of_ne_nil (by simp), ih]
      simp

-- Of several lines the last must be copied, and a NUL must already be behind it.
theorem Across.copied_iff (h : Across st.ed z s mid t) (hsel : st.ed.selActive) (ht : t ≠ [])
    (hmax : (selectedText st.ed).length < 2048) :
    Copied st ↔ (selectedText st.ed).length < 2046 ∧
      st.clipboard (selectedText st.ed).length = 0 := by
  obtain ⟨-, hfirst, hmid, hlast, -⟩ := h.segment
  have hroom := h.rows.room
  have htotal := h.rows.total
  simp only [List.length_append, List.length_cons] at hroom htotal
  have htext : selectedText st.ed = (s :: mid).flatMap (· ++ [10]) ++ t := by
    rw [selectedText, h.parts, intercalate_concat]
  have hpos := List.length_pos_iff.mpr ht
  have hsize : (selectedText st.ed).length =
      s.length + 1 + (mid.flatMap (· ++ [10])).length + t.length := by
    rw [htext, List.flatMap_cons]
    simp only [List.length_append, List.length_singleton]
  obtain ⟨clip₀, hclear, hempty, hframe₀⟩ := clear_holds st.clipboard
  have hcount : ((if (z.above.length : Int) + 1 + mid.length < st.ed.totalLines then
      (z.above.length : Int) + 1 + mid.length + 1 else st.ed.totalLines) -
      z.above.length).toNat = mid.length + 1 + 1 := by
    rw [if_pos (by omega)]
    omega
  have hstart : (if (z.above.length : Int) = z.above.length then (z.left.length : Int) else 0) =
      z.left.length := if_pos rfl
  obtain ⟨clip₁, hstep, hholds₁, hframe₁⟩ := copyLines_step
    z.above.length z.left.length (z.above.length + 1 + mid.length) t.length (mid.length + 1) hempty
    (by omega) (by omega) hstart hfirst (by rw [List.length_nil]; omega)
  obtain ⟨clip₂, hrun, hiff⟩ := copyLines_rest z.above.length z.left.length mid
    hholds₁ (by omega) (by omega) rfl (by omega) hmid hlast ht (by
      simp only [List.nil_append, List.length_append, List.length_singleton]
      omega)
  have hT : [] ++ s ++ [10] ++ mid.flatMap (· ++ [10]) ++ t = selectedText st.ed := by
    rw [htext]
    simp
  have hcopy : teditorCopySelection st = some { st with clipboard := clip₂ } := by
    rw [teditorCopySelection, if_neg (by rw [hsel]; decide)]
    simp only [h.selection, hclear, Option.bind_eq_bind, Option.bind_some]
    rw [if_neg (by omega), hcount]
    have hzero : copyLines st.ed z.above.length z.left.length
        ((z.above.length : Int) + 1 + mid.length) t.length (mid.length + 1 + 1) z.above.length 0
        clip₀ = some clip₂ := hstep.trans hrun
    rw [hzero, Option.bind_some]
  rw [hT, hframe₁ _ (by rw [List.length_nil]; omega), hframe₀ _ (by omega)] at hiff
  rw [← hiff, Copied]
  constructor
  · rintro ⟨clip, heq, hholds⟩
    rw [hcopy] at heq
    have hclip : clip₂ = clip := congrArg State.clipboard (Option.some.inj heq)
    exact hclip ▸ hholds
  · exact fun hholds => ⟨clip₂, hcopy, hholds⟩

end Copies

end BTron.Editor
