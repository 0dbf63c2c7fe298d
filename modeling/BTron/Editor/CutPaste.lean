import BTron.Editor.Files
import BTron.Editor.Selection
import BTron.Editor.Undo

namespace BTron.Editor

open Lib Lib.CArray

-- The document is what it was when the selection is cut and pasted where it was.
def Restored (st : State) : Prop :=
  ∃ st₁ st₂, cutSelection st = some st₁ ∧ teditorPasteClipboard st₁ = some st₂ ∧
    contents st₂.ed = contents st.ed

-- Every part is a line of its own and fits into the line it goes to. Of several lines, the last
-- one is not empty, they are short enough for the clipboard, which has a NUL behind them, the
-- document has room for them, and what is left of the first and the last fits into one line.
structure Restorable (st : State) : Prop where
  plain : ∀ p ∈ selectedParts st.ed, 10 ∉ p
  first : ∀ p ∈ (selectedParts st.ed).head?,
    p = [] ∨ bytesBefore st.ed + bytesBehind st.ed + p.length < 511
  later : ∀ p ∈ (selectedParts st.ed).tail, p = [] ∨ p.length + bytesBehind st.ed < 511
  several : 1 < (selectedParts st.ed).length →
    (selectedParts st.ed).getLast? ≠ some [] ∧ (selectedText st.ed).length < 2046 ∧
      st.clipboard (selectedText st.ed).length = 0 ∧ st.ed.totalLines < 1000 ∧
      bytesBefore st.ed + bytesBehind st.ed < 512

-- What a paste makes of a text.
def pasted (z : Zipper UB) (text : List UB) : Zipper UB :=
  match fileLines text with
  | [] => z
  | l :: ls => (z.insertMax 511 l).paste 511 999 ls

section Texts

variable {z : Zipper UB} {text : List UB}

theorem fileLines_size (text : List UB) :
    (fileLines text).flatten.length + text.count 10 = text.length := by
  induction text with
  | nil => rfl
  | cons c text ih =>
      rw [fileLines]
      split
      · rename_i hc
        rw [hc, List.flatten_cons, List.nil_append, List.count_cons_self, List.length_cons]
        omega
      · rename_i hc
        rw [List.count_cons_of_ne hc, List.length_cons]
        cases hlines : fileLines text with
        | nil =>
            rw [hlines] at ih
            simp only [List.headD_nil, List.tail_nil, List.flatten_cons, List.flatten_nil,
              List.append_nil, List.length_singleton]
            rw [List.flatten_nil, List.length_nil] at ih
            omega
        | cons l ls =>
            rw [hlines, List.flatten_cons, List.length_append] at ih
            simp only [List.headD_cons, List.tail_cons, List.flatten_cons, List.length_append,
              List.length_cons]
            omega

theorem fileLines_flatMap {P : List (List UB)} (h : ∀ p ∈ P, 10 ∉ p) (t : List UB) :
    fileLines (P.flatMap (· ++ [10]) ++ t) = P ++ fileLines t := by
  induction P with
  | nil => rfl
  | cons p P ih =>
      rw [List.forall_mem_cons] at h
      rw [List.flatMap_cons, List.append_assoc, List.append_assoc, List.singleton_append,
        fileLines_line h.1, ih h.2, List.cons_append]

-- Nothing is pasted that is not in the text.
theorem size_pasted_le (z : Zipper UB) (text : List UB) :
    (pasted z text).size + text.count 10 ≤ z.size + text.length := by
  have hsize := fileLines_size text
  rw [pasted]
  cases hlines : fileLines text with
  | nil =>
      rw [hlines, List.flatten_nil, List.length_nil] at hsize
      simp only []
      omega
  | cons l ls =>
      have hfirst := (z.size_insertMax_iff (n := 511) l).1
      have hrest := (z.insertMax 511 l).size_paste_le (n := 511) (m := 999) ls
      rw [hlines, List.flatten_cons, List.length_append] at hsize
      simp only []
      omega

-- A text of one line comes back if and only if it is one and fits.
theorem lines_pasted_iff (hne : text ≠ []) : (pasted z text).lines = (z.insert text).lines ↔
    10 ∉ text ∧ z.left.length + z.right.length + text.length < 511 := by
  have hline : 10 ∉ text → pasted z text = z.insertMax 511 text := by
    intro h10
    rw [pasted, fileLines_last h10 hne]
    rfl
  constructor
  · intro heq
    have hsize : (pasted z text).size = z.size + text.length := by
      rw [← z.size_insert text, Zipper.size, heq, Zipper.size]
    have hle := size_pasted_le z text
    have h10 : 10 ∉ text := by
      rw [← List.count_eq_zero]
      omega
    rw [hline h10] at hsize
    exact ⟨h10, ((z.size_insertMax_iff text).2.mp hsize).resolve_left hne⟩
  · rintro ⟨h10, hfits⟩
    rw [hline h10, z.insertMax_eq (.inr hfits)]

theorem length_flatMap_lineFeed (P : List (List UB)) :
    (P.flatMap (· ++ [10])).length = P.flatten.length + P.length := by
  induction P with
  | nil => rfl
  | cons p P ih =>
      rw [List.flatMap_cons, List.flatten_cons, List.length_append, List.length_append, ih,
        List.length_append, List.length_singleton, List.length_cons]
      omega

theorem count_flatMap_lineFeed (P : List (List UB)) :
    (P.flatMap (· ++ [10])).count 10 = P.flatten.count 10 + P.length := by
  induction P with
  | nil => rfl
  | cons p P ih =>
      rw [List.flatMap_cons, List.flatten_cons, List.count_append, List.count_append, ih,
        List.count_append, List.count_singleton_self, List.length_cons]
      omega

-- The document with the lines in it that the text of a selection is from.
def joined (z : Zipper UB) (s : List UB) (mid : List (List UB)) (t : List UB) : List (List UB) :=
  z.above ++ (z.left ++ s) :: (mid ++ (t ++ z.right) :: z.below)

-- What is left of the last line is cut to the room there is behind the first.
def cutRight (z : Zipper UB) : Zipper UB := { z with right := z.right.take (511 - z.left.length) }

variable {s t : List UB} {mid : List (List UB)}

theorem length_joined : (joined z s mid t).length = z.lines.length + mid.length + 1 := by
  rw [joined, Zipper.lines]
  simp only [List.length_append, List.length_cons]
  omega

theorem size_joined : (joined z s mid t).flatten.length =
    z.size + s.length + (mid ++ [t]).flatten.length := by
  rw [joined, Zipper.size, Zipper.lines]
  simp only [List.length_append, List.flatten_append, List.flatten_cons, List.flatten_nil,
    List.length_nil]
  omega

-- Nothing is lost of a text of several lines that comes back.
theorem plain_of_joined (hleft : z.left.length < 512)
    (heq : (pasted (cutRight z) ((s :: mid).flatMap (· ++ [10]) ++ t)).lines = joined z s mid t) :
    (∀ p ∈ s :: mid ++ [t], 10 ∉ p) ∧ z.left.length + z.right.length < 512 := by
  have hle := size_pasted_le (cutRight z) ((s :: mid).flatMap (· ++ [10]) ++ t)
  rw [Zipper.size, heq, size_joined, List.count_append, List.length_append,
    count_flatMap_lineFeed, length_flatMap_lineFeed, List.flatten_cons, List.flatten_append,
    List.length_append, List.length_append] at hle
  have hcut : (cutRight z).size + (z.right.length - (511 - z.left.length)) = z.size := by
    rw [Zipper.size, Zipper.lines, Zipper.size, Zipper.lines, cutRight]
    simp only [List.flatten_append, List.flatten_cons, List.length_append, List.length_take]
    omega
  have hlast : [t].flatten = t := by simp
  rw [hlast] at hle
  have hcount : (s ++ mid.flatten).count 10 = 0 ∧ t.count 10 = 0 := by omega
  have hplain : ∀ p ∈ s :: mid ++ [t], p.count 10 = 0 := by
    intro p hp
    rw [List.count_append] at hcount
    obtain rfl | hp := List.mem_cons.mp hp
    · omega
    · obtain hp | hp := List.mem_append.mp hp
      · rw [List.count_eq_zero]
        exact fun hmem => List.count_eq_zero.mp (Nat.eq_zero_of_add_eq_zero_left hcount.1)
          (List.mem_flatten.mpr ⟨p, hp, hmem⟩)
      · rw [List.mem_singleton.mp hp]
        exact hcount.2
  exact ⟨fun p hp => List.count_eq_zero.mp (hplain p hp), by omega⟩

-- A text of several lines comes back if and only if they are its lines, there is room for them,
-- and each fits.
theorem lines_pasted_joined_iff (hleft : z.left.length < 512) :
    (pasted (cutRight z) ((s :: mid).flatMap (· ++ [10]) ++ t)).lines = joined z s mid t ↔
      (∀ p ∈ s :: mid ++ [t], 10 ∉ p) ∧
      (s = [] ∨ z.left.length + z.right.length + s.length < 511) ∧
      (∀ p ∈ mid ++ [t], p = [] ∨ p.length + z.right.length < 511) ∧
      t ≠ [] ∧ (joined z s mid t).length < 1000 ∧ z.left.length + z.right.length < 512 := by
  have hwhole : z.left.length + z.right.length < 512 → cutRight z = z := by
    intro hfits
    rw [cutRight, List.take_of_length_le (by omega)]
  have hfirst : 10 ∉ t → (∀ p ∈ s :: mid, 10 ∉ p) → t ≠ [] →
      pasted z ((s :: mid).flatMap (· ++ [10]) ++ t) =
        (z.insertMax 511 s).paste 511 999 (mid ++ [t]) := by
    intro ht hplain hne
    rw [pasted, fileLines_flatMap hplain, fileLines_last ht hne]
    rfl
  constructor
  · intro heq
    obtain ⟨hplain, hfits⟩ := plain_of_joined hleft heq
    have hplain' := hplain
    rw [List.forall_mem_append, List.forall_mem_singleton] at hplain'
    rw [hwhole hfits] at heq
    have hlines : (z.insertMax 511 s).lines.length = z.lines.length := z.length_insertMax s
    have ht : t ≠ [] := by
      rintro rfl
      have hcount := ((z.insertMax 511 s).length_paste (n := 511) (m := 999) mid).1
      have hnil : pasted z ((s :: mid).flatMap (· ++ [10]) ++ []) =
          (z.insertMax 511 s).paste 511 999 mid := by
        rw [pasted, fileLines_flatMap hplain'.1, fileLines, List.append_nil]
      rw [hnil] at heq
      rw [heq, length_joined] at hcount
      omega
    rw [hfirst hplain'.2 hplain'.1 ht] at heq
    have hcount := ((z.insertMax 511 s).length_paste (n := 511) (m := 999) (mid ++ [t])).2
      (by simp)
    rw [heq, length_joined, hlines, List.length_append, List.length_singleton] at hcount
    have hroom : z.lines.length + (mid.length + 1) ≤ 999 := by
      by_contra hfull
      have := hcount (by omega)
      omega
    have hsize : ((z.insertMax 511 s).paste 511 999 (mid ++ [t])).size =
        z.size + s.length + (mid ++ [t]).flatten.length := by
      rw [Zipper.size, heq, size_joined]
    obtain ⟨hle, hiff⟩ := z.size_insertMax_iff (n := 511) s
    have hle' := (z.insertMax 511 s).size_paste_le (n := 511) (m := 999) (mid ++ [t])
    have hall := ((z.insertMax 511 s).size_paste_iff (n := 511) (m := 999) (mid ++ [t]) (by
      rw [hlines, List.length_append, List.length_singleton]
      exact hroom)).mp (by omega)
    rw [z.right_insertMax] at hall
    exact ⟨hplain, hiff.mp (by omega), hall, ht, by rw [length_joined]; omega, hfits⟩
  · rintro ⟨hplain, hs, hall, ht, hroom, hfits⟩
    rw [List.forall_mem_append, List.forall_mem_singleton] at hplain
    rw [length_joined] at hroom
    have hlines : (z.insert s).lines.length = z.lines.length := by
      rw [← z.insertMax_eq hs, z.length_insertMax]
    rw [hwhole hfits, hfirst hplain.2 hplain.1 ht, z.insertMax_eq hs,
      (z.insert s).lines_paste mid t (by rw [hlines]; omega) hall]
    simp [joined, Zipper.insert]

theorem length_le_of_fileLines {l : List UB} (hl : l ∈ fileLines text) :
    l.length + text.count 10 ≤ text.length := by
  have hsize := fileLines_size text
  have hle := (List.sublist_flatten_of_mem hl).length_le
  omega

theorem fileLines_ne_nil (hne : text ≠ []) : fileLines text ≠ [] := by
  cases text with
  | nil => exact absurd rfl hne
  | cons c text =>
      rw [fileLines]
      split <;> exact List.cons_ne_nil _ _

theorem fileLines_lineFeed (text rest : List UB) :
    fileLines (text ++ 10 :: rest) = fileLines (text ++ [10]) ++ fileLines rest := by
  induction text with
  | nil => rfl
  | cons c text ih =>
      rw [List.cons_append, List.cons_append, fileLines, fileLines, ih]
      split
      · rfl
      · cases hlines : fileLines (text ++ [10]) with
        | nil =>
            exact absurd hlines (fileLines_ne_nil (by simp))
        | cons l ls => rfl

theorem fileLines_length_le {P : List (List UB)} (hP : ∀ p ∈ P, p.length ≤ 511)
    (ht : t.length ≤ 511) : ∀ l ∈ fileLines (P.flatMap (· ++ [10]) ++ t), l.length ≤ 511 := by
  induction P with
  | nil =>
      intro l hl
      have hle := length_le_of_fileLines hl
      rw [List.flatMap_nil, List.nil_append] at hle
      omega
  | cons p P ih =>
      rw [List.forall_mem_cons] at hP
      rw [List.flatMap_cons, List.append_assoc, List.append_assoc, List.singleton_append,
        fileLines_lineFeed, List.forall_mem_append]
      refine ⟨fun l hl => ?_, ih hP.2⟩
      have hle := length_le_of_fileLines hl
      rw [List.count_append, List.count_singleton_self, List.length_append,
        List.length_singleton] at hle
      omega

end Texts

section Pastes

variable {ed : TEditor} {z : Zipper UB} {p : List UB}

theorem pasteLine_shows (h : Shows ed z) (l : List UB) (h0 : 0 ∉ l) :
    (∃ ed', pasteLine ed true l = some ed' ∧ Shows ed' (z.insertMax 511 l)) ∧
      ∃ ed', pasteLine ed false l = some ed' ∧ Shows ed' ((z.splitMax 999).insertMax 511 l) := by
  have hinsert : ∀ {ed z}, Shows ed z →
      ∃ ed', (insertAt ed l).map Prod.fst = some ed' ∧ Shows ed' (z.insertMax 511 l) := by
    intro ed z hshows
    obtain ⟨ed', inserted, heq, hshows', -⟩ := hshows.insertAt h0
    rw [heq]
    exact ⟨ed', rfl, hshows'⟩
  have htotal := h.rows.total
  constructor
  · rw [pasteLine, if_neg (by simp)]
    exact hinsert h
  · rw [pasteLine, Zipper.splitMax]
    by_cases hroom : z.lines.length < 999
    · obtain ⟨ed₁, hsplit, hshows, -⟩ := h.splitLine (by omega)
      rw [if_pos ⟨rfl, by rw [TEDITOR_MAX_LINES]; omega⟩, if_pos hroom, hsplit]
      exact hinsert hshows
    · rw [if_neg (by rw [TEDITOR_MAX_LINES]; omega), if_neg hroom]
      exact hinsert h

-- One turn of the loop takes one line of the text.
theorem pasteLoop_turn (first : Bool) (fuel : Nat) (hne : p ≠ [])
    (hlen : ∀ l ∈ fileLines p, l.length ≤ 511) :
    ∃ l rest, l ⊆ p ∧ rest ⊆ p ∧ rest.length < p.length ∧ fileLines p = l :: fileLines rest ∧
      pasteLoop ed first (fuel + 1) p =
        (pasteLine ed first l).bind fun ed => pasteLoop ed false fuel rest := by
  obtain ⟨l, h10, hfile, htake⟩ := file_cases hne
  obtain ⟨rfl, hl⟩ | ⟨rest, rfl⟩ := hfile
  · have hline := fileLines_last h10 hl
    rw [hline, List.forall_mem_singleton] at hlen
    refine ⟨p, [], fun _ hc => hc, List.nil_subset _, List.length_pos_iff.mpr hne, hline, ?_⟩
    have hcut : p.take (TEDITOR_MAX_COLS - 1).toNat = p := List.take_of_length_le hlen
    rw [pasteLoop, if_neg hne]
    simp only [htake, hcut, List.drop_length, List.head?_nil]
    rfl
  · have hline := fileLines_line h10 rest
    rw [hline, List.forall_mem_cons] at hlen
    refine ⟨l, rest, List.subset_append_left _ _, fun c hc => by simp [hc], by simp; omega,
      hline, ?_⟩
    have hcut : l.take (TEDITOR_MAX_COLS - 1).toNat = l := List.take_of_length_le hlen.1
    rw [pasteLoop, if_neg hne]
    simp only [htake, hcut, List.drop_left, List.head?_cons, if_true, List.tail_cons]
    rfl

theorem pasteLoop_shows (fuel : Nat) (h : Shows ed z) (h0 : 0 ∉ p) (hfuel : p.length ≤ fuel)
    (hlen : ∀ l ∈ fileLines p, l.length ≤ 511) :
    ∃ ed', pasteLoop ed false fuel p = some ed' ∧ Shows ed' (z.paste 511 999 (fileLines p)) := by
  induction fuel generalizing ed z p with
  | zero =>
      obtain rfl := List.length_eq_zero_iff.mp (Nat.le_zero.mp hfuel)
      exact ⟨ed, rfl, h⟩
  | succ fuel ih =>
      by_cases hne : p = []
      · subst hne
        exact ⟨ed, rfl, h⟩
      · obtain ⟨l, rest, hl, hrest, hlt, hlines, hturn⟩ :=
          @pasteLoop_turn ed p false fuel hne hlen
        rw [hlines, List.forall_mem_cons] at hlen
        obtain ⟨ed₁, hline, hshows⟩ := (pasteLine_shows h l fun hm => h0 (hl hm)).2
        rw [hturn, hline, Option.bind_some, hlines, Zipper.paste]
        exact ih hshows (fun hm => h0 (hrest hm)) (by omega) hlen.2

-- A paste of the text of the clipboard.
theorem teditorPasteClipboard_contents {st : State} {text : List UB} (h : Shows st.ed z)
    (hsel : st.ed.selActive = false) (hclip : Holds CLIPBOARD_SIZE st.clipboard text)
    (hlen : ∀ l ∈ fileLines text, l.length ≤ 511) :
    ∃ st', teditorPasteClipboard st = some st' ∧ contents st'.ed = (pasted z text).lines := by
  have htext : clipText st.clipboard = some text := by
    rw [clipText, hclip.strlen, Option.map_some, hclip.unique hclip.isStr.holds]
    simp
  rw [teditorPasteClipboard, htext]
  simp only [Option.bind_eq_bind, Option.bind_some, deleteSelection_off hsel]
  by_cases hne : text = []
  · subst hne
    exact ⟨st, rfl, h.rows.contents⟩
  · obtain ⟨n, hn⟩ := Nat.exists_eq_add_one_of_ne_zero (mt List.length_eq_zero_iff.mp hne)
    obtain ⟨l, rest, hl, hrest, hlt, hlines, hturn⟩ :=
      @pasteLoop_turn st.ed text true n hne hlen
    have hlen' := hlen
    rw [hlines, List.forall_mem_cons] at hlen'
    obtain ⟨ed₁, hline, hshows⟩ := (pasteLine_shows h l fun hm => hclip.string (hl hm)).1
    obtain ⟨ed₂, hloop, hshows₂⟩ := pasteLoop_shows n hshows
      (fun hm => hclip.string (hrest hm)) (by omega) hlen'.2
    rw [if_neg hne, hn, hturn, hline, Option.bind_some, hloop, Option.bind_some]
    refine ⟨_, rfl, ?_⟩
    rw [pasted, hlines]
    exact (hshows₂.congr rfl rfl rfl rfl).rows.contents

end Pastes

section Cuts

variable {ed : TEditor} {z : Zipper UB} {s t : List UB} {mid : List (List UB)}

theorem Within.deleted (h : Within ed z s) (hsel : ed.selActive) :
    ∃ ed', teditorDeleteSelection ed = some ed' ∧ Shows ed' z ∧ ed'.selActive = false := by
  obtain ⟨hline, hl⟩ := h.line
  have hmax := h.rows.room
  rw [List.length_append, List.length_cons] at hmax
  have hlen : (z.left ++ s ++ z.right).length = z.left.length + s.length + z.right.length := by
    simp only [List.length_append]
  have hwithin : ∃ a, deleteWithin ed z.above.length z.left.length
      ((z.left.length : Int) + s.length) = some (ed.setLine z.above.length a) ∧
      Rows (ed.setLine z.above.length a) z.lines := by
    rw [deleteWithin, hline]
    simp only [Option.bind_eq_bind, Option.bind_some, strlenLine, hl.strlen]
    by_cases hend : z.left.length < (z.left ++ s ++ z.right).length
    · obtain ⟨a, hmove, ha, hframe⟩ := hl.erase (p := z.left.length)
        (c := z.left.length + s.length) (by omega) (by omega)
      have hdrop : (z.left ++ s ++ z.right).drop (z.left.length + s.length) = z.right :=
        List.drop_left' (by simp only [List.length_append])
      rw [hdrop, List.append_assoc, List.take_left] at ha
      have hstop : (if (z.left.length : Int) + s.length > ((z.left ++ s ++ z.right).length : Nat)
          then (((z.left ++ s ++ z.right).length : Nat) : Int)
          else (z.left.length : Int) + s.length) = (z.left.length : Int) + s.length :=
        if_neg (by omega)
      have hsum : (z.left.length : Int) + ((z.left.length : Int) + s.length - z.left.length) =
          ((z.left.length + s.length : Nat) : Int) := by omega
      rw [if_pos (by omega), hstop, hsum, hmove]
      refine ⟨a, rfl, h.rows.setLine ha (slot_last ha fun hlt => ?_)⟩
      rw [List.length_append] at hlt
      rw [hframe 511 (by omega), h.rows.slots _ (by omega) (by omega)]
    · rw [if_neg (by omega)]
      have hs : s = [] := List.length_eq_zero_iff.mp (by omega)
      refine ⟨ed.lines z.above.length, ?_, ?_⟩
      · rw [TEditor.setLine, Function.update_eq_self]
      · have hrows := h.rows
        rw [hs, List.append_nil] at hrows
        rw [TEditor.setLine, Function.update_eq_self]
        exact hrows
  obtain ⟨a, heq, hrows⟩ := hwithin
  rw [teditorDeleteSelection, if_neg (by rw [hsel]; decide)]
  simp only [h.selection, if_true, heq, Option.bind_eq_bind, Option.bind_some]
  exact ⟨_, rfl, ⟨⟨hrows.total, hrows.room, hrows.slots, hrows.segment⟩, rfl, rfl⟩, rfl⟩

theorem Across.deleted (h : Across ed z s mid t) (hsel : ed.selActive) :
    ∃ ed', teditorDeleteSelection ed = some ed' ∧ Shows ed' (cutRight z) ∧
      ed'.selActive = false := by
  obtain ⟨habove, hfirst, -, hlast, hbelow⟩ := h.segment
  have hmax := h.rows.room
  have htotal := h.rows.total
  simp only [List.length_append, List.length_cons] at hmax htotal
  have hin := hfirst.inside
  rw [TEDITOR_MAX_COLS, List.length_append] at hin
  have hslot := h.rows.slots z.above.length (by omega) (by omega)
  obtain ⟨a, hcopy, ha, hframe⟩ := hfirst.copy hlast z.left.length t.length
    (511 - z.left.length) (by rw [List.length_append]; omega) (by rw [List.length_append]; omega)
    (by rw [TEDITOR_MAX_COLS]; omega) (by
      have hsum : z.left.length + (511 - z.left.length) = 511 := by omega
      rw [hsum]
      exact hslot)
  rw [List.take_left, List.drop_left] at ha
  have ha511 : a 511 = 0 := by rw [hframe 511 (by omega), hslot]
  -- the lines below the last one move up behind the first
  obtain ⟨lines, hshift, hslots, hbelow', hframe'⟩ :=
    @shiftUp_segment (ed.setLine z.above.length a) (z.above.length + 1) (mid.length + 1) z.below
      (h.rows.slots.update ha511) (by omega) (by omega) (by omega) (by
        have hfrom : (z.above.length : Int) + 1 + (mid.length + 1) =
            z.above.length + 1 + mid.length + 1 := by omega
        rw [hfrom]
        exact hbelow.update (Or.inl (by omega)) a)
  have hacross : deleteAcross ed z.above.length z.left.length
      ((z.above.length : Int) + 1 + mid.length) t.length =
      some { ed with lines := lines, totalLines := ed.totalLines - (mid.length + 1) } := by
    have hkeep : (if (t.length : Int) < ((t ++ z.right).length : Nat) then (t.length : Int)
        else ((t ++ z.right).length : Nat)) = t.length := by
      rw [List.length_append]
      split <;> omega
    have hroom : TEDITOR_MAX_COLS - (z.left.length : Int) - 1 =
        ((511 - z.left.length : Nat) : Int) := by
      rw [TEDITOR_MAX_COLS]
      omega
    have hremove : (z.above.length : Int) + 1 + mid.length - z.above.length =
        (mid.length : Int) + 1 := by omega
    have hcount : (ed.totalLines - ((mid.length : Int) + 1) - ((z.above.length : Int) + 1)).toNat =
        z.below.length := by omega
    rw [deleteAcross, line_eq (by omega), line_eq (by omega)]
    simp only [Option.bind_eq_bind, Option.bind_some, strlenLine, hlast.strlen, hkeep, hroom,
      hcopy, hremove]
    show (shiftUp (ed.setLine z.above.length a) _
      (ed.totalLines - ((mid.length : Int) + 1) - ((z.above.length : Int) + 1)).toNat _).bind _ = _
    rw [hcount, hshift, Option.bind_some]
    show some { ed with
      lines := lines
      totalLines := if ed.totalLines - ((mid.length : Int) + 1) < 1 then 1 else _ } = _
    rw [if_neg (by omega)]
    rfl
  rw [teditorDeleteSelection, if_neg (by rw [hsel]; decide)]
  simp only [h.selection]
  rw [if_neg (by omega), hacross]
  simp only [Option.bind_eq_bind, Option.bind_some]
  have hcut : (cutRight z).lines =
      z.above ++ (z.left ++ z.right.take (511 - z.left.length)) :: z.below := rfl
  refine ⟨_, rfl, ⟨⟨?_, ?_, hslots, ?_⟩, rfl, rfl⟩, rfl⟩
  · show ed.totalLines - ((mid.length : Int) + 1) = _
    rw [hcut, List.length_append, List.length_cons]
    omega
  · rw [hcut, List.length_append, List.length_cons]
    omega
  · rw [hcut, segment_middle]
    refine ⟨(habove.update (Or.inr (by omega)) a).congr fun r _ hr => hframe' r (by omega), ?_,
      hbelow'⟩
    show Holds _ (lines z.above.length) _
    rw [hframe' _ (by omega), setLine_lines, Function.update_self]
    exact ha

end Cuts

section CutPaste

variable {st : State} {z : Zipper UB} {s t : List UB} {mid : List (List UB)}

-- The cut leaves the copied text in the clipboard and the cursor at the gap.
theorem restored_iff (hcopied : Copied st)
    (hdeleted : ∃ ed', teditorDeleteSelection st.ed = some ed' ∧ Shows ed' z ∧
      ed'.selActive = false)
    (hlen : ∀ l ∈ fileLines (selectedText st.ed), l.length ≤ 511) :
    Restored st ↔ (pasted z (selectedText st.ed)).lines = contents st.ed := by
  obtain ⟨clip, hcopy, hclip⟩ := hcopied
  obtain ⟨ed', hdelete, hshows, hoff⟩ := hdeleted
  have hcut : cutSelection st = some ⟨ed', clip⟩ := by
    rw [cutSelection, hcopy]
    simp only [Option.bind_eq_bind, Option.bind_some, hdelete]
  obtain ⟨st₂, hpaste, hlines⟩ :=
    @teditorPasteClipboard_contents z ⟨ed', clip⟩ _ hshows hoff hclip hlen
  rw [← hlines]
  constructor
  · rintro ⟨st₁, st₂', hcut', hpaste', heq⟩
    rw [hcut] at hcut'
    obtain rfl := Option.some.inj hcut'
    rw [hpaste] at hpaste'
    obtain rfl := Option.some.inj hpaste'
    exact heq
  · exact fun heq => ⟨_, st₂, hcut, hpaste, heq⟩

theorem Within.restorable_iff (h : Within st.ed z s) (hsel : st.ed.selActive) :
    Copied st ∧ Restored st ↔ Restorable st := by
  obtain ⟨-, hl⟩ := h.line
  have hin := hl.inside
  simp only [List.length_append, TEDITOR_MAX_COLS] at hin
  have htext : selectedText st.ed = s := by
    rw [selectedText, h.parts, List.intercalate_singleton]
  have hcopied := h.copied hsel
  have hrestored := restored_iff hcopied (h.deleted hsel) fun l hl => by
    have hle := length_le_of_fileLines hl
    rw [htext] at hle
    omega
  rw [htext, h.rows.contents] at hrestored
  rw [and_iff_right hcopied, hrestored]
  have hfields : Restorable st ↔
      10 ∉ s ∧ (s = [] ∨ z.left.length + z.right.length + s.length < 511) := by
    constructor
    · intro hr
      have hplain := hr.plain
      have hfirst := hr.first
      rw [h.parts, List.forall_mem_singleton] at hplain
      rw [h.parts, h.ends.1, h.ends.2] at hfirst
      exact ⟨hplain, hfirst s rfl⟩
    · rintro ⟨hplain, hfirst⟩
      refine ⟨?_, ?_, ?_, fun hlt => ?_⟩
      · rwa [h.parts, List.forall_mem_singleton]
      · rw [h.parts, h.ends.1, h.ends.2]
        rintro p hp
        obtain rfl := Option.some.inj hp
        exact hfirst
      · rw [h.parts]
        exact fun _ hp => absurd hp List.not_mem_nil
      · rw [h.parts, List.length_singleton] at hlt
        exact absurd hlt (lt_irrefl 1)
  rw [hfields]
  by_cases hs : s = []
  · subst hs
    refine iff_of_true ?_ ⟨List.not_mem_nil, .inl rfl⟩
    rw [List.append_nil]
    rfl
  · have hback : (z.insert s).lines = z.above ++ (z.left ++ s ++ z.right) :: z.below := rfl
    rw [← hback, lines_pasted_iff hs, or_iff_right hs]

theorem Across.restorable_iff (h : Across st.ed z s mid t) (hsel : st.ed.selActive)
    (hmax : (selectedText st.ed).length ≤ 2047) :
    Copied st ∧ Restored st ↔ Restorable st := by
  obtain ⟨-, hfirst, hmid, hlast, -⟩ := h.segment
  have hin := hfirst.inside
  have hin' := hlast.inside
  rw [TEDITOR_MAX_COLS, List.length_append] at hin hin'
  have htext : selectedText st.ed = (s :: mid).flatMap (· ++ [10]) ++ t := by
    rw [selectedText, h.parts, intercalate_concat]
  have hjoined : contents st.ed = joined z s mid t := h.rows.contents
  have htotal : st.ed.totalLines = (joined z s mid t).length := h.rows.total
  have hlines := @lines_pasted_joined_iff z s t mid (by omega)
  have hcopied := fun ht => h.copied_iff hsel ht (by omega)
  have hrestored := fun hc => restored_iff hc (h.deleted hsel) fun l hl => by
    rw [htext] at hl
    refine fileLines_length_le (fun p hp => ?_) (by omega) l hl
    obtain rfl | hp := List.mem_cons.mp hp
    · omega
    · exact (hmid.length_le p hp).2
  rw [htext, hjoined] at hrestored
  have hlast? : (selectedParts st.ed).getLast? ≠ some [] ↔ t ≠ [] := by
    rw [h.parts, List.getLast?_concat]
    exact not_congr ⟨Option.some.inj, congrArg some⟩
  have hlt : 1 < (selectedParts st.ed).length := by
    rw [h.parts, List.length_append, List.length_cons, List.length_singleton]
    omega
  have htail : (selectedParts st.ed).tail = mid ++ [t] := by rw [h.parts]; rfl
  have hhead : (selectedParts st.ed).head? = some s := by rw [h.parts]; rfl
  constructor
  · rintro ⟨hc, hr⟩
    obtain ⟨hplain, hs, hall, ht, hroom, hfits⟩ := hlines.mp ((hrestored hc).mp hr)
    obtain ⟨hshort, hnul⟩ := (hcopied ht).mp hc
    refine ⟨h.parts ▸ hplain, ?_, ?_, fun _ => ⟨hlast?.mpr ht, hshort, hnul, by omega, ?_⟩⟩
    · rw [hhead, h.ends.1, h.ends.2]
      rintro p hp
      obtain rfl := Option.some.inj hp
      exact hs
    · rwa [htail, h.ends.2]
    · rwa [h.ends.1, h.ends.2]
  · intro hr
    obtain ⟨ht, hshort, hnul, hroom, hfits⟩ := hr.several hlt
    have hs := hr.first
    have hall := hr.later
    rw [hhead, h.ends.1, h.ends.2] at hs
    rw [htail, h.ends.2] at hall
    rw [h.ends.1, h.ends.2] at hfits
    have hc := (hcopied (hlast?.mp ht)).mpr ⟨hshort, hnul⟩
    exact ⟨hc, (hrestored hc).mpr (hlines.mpr ⟨h.parts ▸ hr.plain, hs s rfl, hall,
      hlast?.mp ht, by omega, hfits⟩)⟩

end CutPaste

-- A file that is open, selected from a place in it back to its start.
def selectedBack (file : List UB) (r c : Int) (clip : Bytes) : State :=
  ⟨{ openEditor (some ([0x61], file)) with selActive := true, selStartR := r, selStartC := c },
    clip⟩

theorem selectedBack_inv {file : List UB} {r c : Int} (clip : Bytes)
    (h : Pos (openEditor (some ([0x61], file))) r c) : Inv (selectedBack file r c clip).ed := by
  have hopen := openEditor_inv (some ([0x61], file))
  exact ⟨⟨hopen.total, hopen.slots, hopen.cursor.of_lines rfl rfl⟩, fun _ => h.of_lines rfl rfl,
    fun _ => hopen.cursor.of_lines rfl rfl⟩

-- Two lines with the given clipboard.
def linesSelected (clip : Bytes) : State := selectedBack [0x61, 10, 0x62] 1 1 clip

theorem linesSelected_inv (clip : Bytes) : Inv (linesSelected clip).ed := by
  refine selectedBack_inv clip ⟨by decide, by decide, fun k h0 hk => ?_⟩
  obtain rfl : k = 0 := by omega
  decide

end BTron.Editor
