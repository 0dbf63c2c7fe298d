import BTron.Gterm
import BTron.Lib.CText
import BTron.Lib.Latest
import BTron.Libstr.Memmove

namespace BTron.Gterm

open Lib Lib.CArray

def GTERM_HIST_MAX : Nat := 300

-- The lines above the prompt, the first `totalLines` rows of the array.
structure Scrollback where
  lines : Nat → Bytes
  lineCols : Nat → Nat
  totalLines : Nat

namespace Scrollback

-- The inner loop, which copies bytes of the text to `seg`.
def segLoop (seg : Bytes) (segI : Nat) : List UB → Option (Bytes × Nat × List UB)
  | [] => some (seg, segI, [])
  | c :: p =>
    if c = 0x0A ∨ ¬(segI : Int) < GTERM_MAX_COLS then some (seg, segI, c :: p)
    else do
      let seg ← CArray.set (GTERM_MAX_COLS + 1) seg segI c
      segLoop seg (segI + 1) p

-- A full array moves up by one row.
def shift (st : Scrollback) : Scrollback :=
  if st.totalLines ≥ GTERM_HIST_MAX then
    { lines := (Libstr.tklMemmove st.lines 0 1 (GTERM_HIST_MAX - 1)).1
      lineCols := (Libstr.tklMemmove st.lineCols 0 1 (GTERM_HIST_MAX - 1)).1
      totalLines := GTERM_HIST_MAX - 1 }
  else st

def appendSeg (st : Scrollback) (seg : Bytes) (col : Nat) : Option Scrollback := do
  let st := st.shift
  let line ← CArray.strncpy (GTERM_MAX_COLS + 1) (st.lines st.totalLines) 0 (GTERM_MAX_COLS + 1)
    seg 0 GTERM_MAX_COLS
  let line ← CArray.set (GTERM_MAX_COLS + 1) line GTERM_MAX_COLS 0
  some
    { lines := Function.update st.lines st.totalLines line
      lineCols := Function.update st.lineCols st.totalLines col
      totalLines := st.totalLines + 1 }

-- `while (*p)`, in at most `fuel` rounds. `junk` is what `seg` holds when a round begins.
def appendLoop (junk : Nat → Bytes) (col : Nat) : Nat → Scrollback → List UB → Option Scrollback
  | _, st, [] => some st
  | 0, _, _ :: _ => none
  | fuel + 1, st, p => do
    let (seg, segI, p) ← segLoop (junk fuel) 0 p
    let seg ← CArray.set (GTERM_MAX_COLS + 1) seg segI 0
    let p := if p.head? = some 0x0A then p.tail else p
    let st ← st.appendSeg seg col
    appendLoop junk col fuel st p

-- A text is read up to its NUL, and every round takes at least one byte of it.
def gtermAppendLine (junk : Nat → Bytes) (st : Scrollback) (text : List UB) (col : Nat) :
    Option Scrollback :=
  appendLoop junk col (cstr text).length st (cstr text)

end Scrollback

-- The lines of a text, none after a final newline.
def textLines (text : List UB) : List (List UB) :=
  let ls := text.splitOnP (· == 0x0A)
  if ls.getLast? = some [] then ls.dropLast else ls

-- A line in chunks of at most `n` bytes
def chunks (n : Nat) (line : List UB) : List (List UB) :=
  if n = 0 ∨ line.length ≤ n then [line] else line.take n :: chunks n (line.drop n)
termination_by line.length
decreasing_by
  rw [List.length_drop]
  omega

def pieces (text : List UB) : List (List UB) :=
  (textLines text).flatMap (chunks GTERM_MAX_COLS.toNat)

theorem textLines_nil : textLines [] = [] := rfl

-- A line is what is before a newline or the end of the text.
theorem splitOnP_line {line : List UB} (hline : 0x0A ∉ line) :
    line.splitOnP (· == 0x0A) = [line] := by
  apply List.splitOnP_eq_singleton
  intro c hc
  rw [beq_eq_false_iff_ne]
  rintro rfl
  exact hline hc

theorem textLines_line {line : List UB} (hne : line ≠ []) (hline : 0x0A ∉ line) :
    textLines line = [line] := by
  rw [textLines, splitOnP_line hline]
  exact if_neg (by simpa using hne)

theorem textLines_cons {line : List UB} (hline : 0x0A ∉ line) (rest : List UB) :
    textLines (line ++ 0x0A :: rest) = line :: textLines rest := by
  obtain ⟨l, ls, hls⟩ := List.exists_cons_of_ne_nil
    (List.splitOnP_ne_nil (fun c : UB => c == 0x0A) rest)
  simp only [textLines]
  rw [List.splitOnP_append_cons line rest (by rfl), splitOnP_line hline, hls,
    List.singleton_append, List.getLast?_cons_cons, List.dropLast_cons_cons]
  split <;> rfl

theorem chunks_short {n : Nat} {line : List UB} (h : line.length ≤ n) : chunks n line = [line] := by
  rw [chunks, if_pos (.inr h)]

theorem chunks_long {n : Nat} {line : List UB} (hn : 0 < n) (h : n < line.length) :
    chunks n line = line.take n :: chunks n (line.drop n) := by
  rw [chunks, if_neg (by omega)]

theorem chunks_row {line : List UB} (h : line.length ≤ 256) :
    chunks GTERM_MAX_COLS.toNat line = [line] := chunks_short h

theorem pieces_short {line rest : List UB} (hline : 0x0A ∉ line) (hlen : line.length ≤ 256) :
    pieces (line ++ 0x0A :: rest) = line :: pieces rest := by
  rw [pieces, textLines_cons hline, List.flatMap_cons, chunks_row hlen, List.singleton_append,
    pieces]

theorem pieces_last {line : List UB} (hne : line ≠ []) (hline : 0x0A ∉ line)
    (hlen : line.length ≤ 256) : pieces line = [line] := by
  rw [pieces, textLines_line hne hline, List.flatMap_singleton, chunks_row hlen]

-- A line longer than a row goes on in the next one.
theorem pieces_long {line q : List UB} (hline : 0x0A ∉ line) (hq : ∀ c ∈ q.head?, c = 0x0A)
    (hlen : 256 < line.length) :
    pieces (line ++ q) = line.take 256 :: pieces (line.drop 256 ++ q) := by
  have hrest : 0x0A ∉ line.drop 256 := fun hmem => hline (List.mem_of_mem_drop hmem)
  have hchunks : chunks GTERM_MAX_COLS.toNat line =
      line.take 256 :: chunks GTERM_MAX_COLS.toNat (line.drop 256) := chunks_long (by decide) hlen
  cases q with
  | nil =>
      have hne : line ≠ [] := by
        rintro rfl
        simp at hlen
      have hne' : line.drop 256 ≠ [] := by
        rw [ne_eq, List.drop_eq_nil_iff]
        omega
      rw [List.append_nil, List.append_nil, pieces, pieces, textLines_line hne hline,
        textLines_line hne' hrest, List.flatMap_singleton, List.flatMap_singleton, hchunks]
  | cons c rest =>
      obtain rfl : c = 0x0A := hq c rfl
      rw [pieces, pieces, textLines_cons hline, textLines_cons hrest, List.flatMap_cons,
        List.flatMap_cons, hchunks, List.cons_append]

namespace Scrollback

variable {seg : Bytes} {l : List UB} {st : Scrollback} {col : Nat}

-- The inner loop takes what is left of the line, as far as there is room.
theorem segLoop_spec (h : Begins seg l) (hl : l.length ≤ 256) {line q : List UB}
    (hline : 0x0A ∉ line) (hq : ∀ c ∈ q.head?, c = 0x0A) :
    ∃ seg', segLoop seg l.length (line ++ q) = some (seg',
        (l ++ line.take (256 - l.length)).length, line.drop (256 - l.length) ++ q) ∧
      Begins seg' (l ++ line.take (256 - l.length)) := by
  have hmax : GTERM_MAX_COLS = 256 := rfl
  induction line generalizing seg l with
  | nil =>
      refine ⟨seg, ?_, by simpa using h⟩
      cases q with
      | nil => simp [segLoop]
      | cons c q =>
          have hc : c = 0x0A := hq c rfl
          simp [segLoop, hc]
  | cons c line ih =>
      rw [List.mem_cons, not_or] at hline
      rw [List.cons_append, segLoop]
      by_cases hroom : l.length < 256
      · rw [if_neg (by
          rw [not_or, hmax]
          exact ⟨fun heq => hline.1 heq.symm, by omega⟩)]
        obtain ⟨seg₁, hset, hbegins, -⟩ := h.push (GTERM_MAX_COLS + 1) c (by rw [hmax]; omega)
        have hnext : 256 - l.length = 256 - (l.length + 1) + 1 := by omega
        obtain ⟨seg₂, hrun, hbegins₂⟩ := ih hbegins (by
          rw [List.length_append, List.length_singleton]
          omega) hline.2
        rw [List.length_append, List.length_singleton] at hrun hbegins₂
        rw [hset, Option.bind_eq_bind, Option.bind_some, hrun, hnext, List.take_succ_cons,
          List.drop_succ_cons]
        rw [List.append_assoc, List.singleton_append] at hbegins₂ ⊢
        exact ⟨seg₂, rfl, hbegins₂⟩
      · have hfull : 256 - l.length = 0 := by omega
        rw [if_pos (.inr (by rw [hmax]; omega)), hfull, List.take_zero, List.drop_zero,
          List.append_nil]
        exact ⟨seg, rfl, h⟩

-- A row shows a piece in its colour.
def Row (cell : Bytes × Nat) (entry : List UB × Nat) : Prop :=
  Holds (GTERM_MAX_COLS + 1) cell.1 entry.1 ∧ cell.2 = entry.2

def cells (st : Scrollback) (k : Nat) : Bytes × Nat := (st.lines k, st.lineCols k)

-- The rows are the last pieces of a log.
def Shows (st : Scrollback) (log : List (List UB × Nat)) : Prop :=
  Latest GTERM_HIST_MAX Row st.cells st.totalLines log

theorem shift_shows {log : List (List UB × Nat)} (h : st.Shows log) :
    Latest (GTERM_HIST_MAX - 1) Row st.shift.cells st.shift.totalLines log := by
  by_cases hfull : st.totalLines ≥ GTERM_HIST_MAX
  · have hshift : st.shift = ⟨copied st.lines 0 1 299, copied st.lineCols 0 1 299, 299⟩ := by
      rw [shift, if_pos hfull, Libstr.tklMemmove_eq, Libstr.tklMemmove_eq]
      rfl
    have hcells : st.shift.cells = copied st.cells 0 1 299 := by
      rw [hshift]
      funext k
      simp only [cells, copied]
      split <;> rfl
    rw [hcells, hshift]
    exact Latest.slide h hfull (by decide)
  · have hshift : st.shift = st := if_neg hfull
    rw [hshift]
    exact Latest.room h (by omega)

theorem appendSeg_shows {log : List (List UB × Nat)} (h : st.Shows log)
    (hseg : Holds (GTERM_MAX_COLS + 1) seg l) (hl : l.length ≤ 256) (col : Nat) :
    ∃ st', st.appendSeg seg col = some st' ∧ st'.Shows (log ++ [(l, col)]) := by
  obtain ⟨c, c', hcopy, hset, hholds⟩ := hseg.fill_set (GTERM_MAX_COLS + 1)
    (st.shift.lines st.shift.totalLines) (n := 256) (by decide)
  rw [List.take_of_length_le hl] at hholds
  have hcopy' : CArray.strncpy (GTERM_MAX_COLS + 1) (st.shift.lines st.shift.totalLines) 0
      (GTERM_MAX_COLS + 1) seg 0 GTERM_MAX_COLS = some c := hcopy
  have hset' : CArray.set (GTERM_MAX_COLS + 1) c GTERM_MAX_COLS 0 = some c' := hset
  refine ⟨_, by rw [appendSeg, hcopy', Option.bind_eq_bind, Option.bind_some, hset']; rfl, ?_⟩
  refine Latest.push (shift_shows h) (by decide) (fun k hk => ?_) ?_
  · simp only [cells]
    rw [Function.update_of_ne (by omega), Function.update_of_ne (by omega)]
  · simp only [cells, Function.update_self]
    exact ⟨hholds, rfl⟩

-- A text that is not empty: its first line, and what follows that.
theorem exists_line (p : List UB) : ∃ line q, p = line ++ q ∧ 0x0A ∉ line ∧
    ∀ c ∈ q.head?, c = 0x0A := by
  refine ⟨p.takeWhile (· != 0x0A), p.dropWhile (· != 0x0A), ?_, fun hmem => ?_, fun c hc => ?_⟩
  · exact List.takeWhile_append_dropWhile.symm
  · have hne := List.mem_takeWhile_imp hmem
    simp at hne
  · have hhead := List.head?_dropWhile_not (· != 0x0A) p
    rw [Option.mem_def.mp hc] at hhead
    simpa using hhead

-- One round shows one piece, and leaves the others.
theorem round_shows {log : List (List UB × Nat)} (h : st.Shows log) (junk : Bytes) {p : List UB}
    (hp : p ≠ []) (h0 : 0 ∉ p) (col : Nat) :
    ∃ seg segI rest seg' st' piece, segLoop junk 0 p = some (seg, segI, rest) ∧
      CArray.set (GTERM_MAX_COLS + 1) seg segI 0 = some seg' ∧
      st.appendSeg seg' col = some st' ∧ st'.Shows (log ++ [(piece, col)]) ∧
      pieces p = piece :: pieces (if rest.head? = some 0x0A then rest.tail else rest) ∧
      (if rest.head? = some 0x0A then rest.tail else rest).length < p.length ∧
      0 ∉ (if rest.head? = some 0x0A then rest.tail else rest) := by
  obtain ⟨line, q, rfl, hline, hq⟩ := exists_line p
  rw [List.mem_append, not_or] at h0
  have hbegins : Begins junk [] := fun k hk => by simp at hk
  obtain ⟨seg, hseg, htaken⟩ := segLoop_spec hbegins (by decide) hline hq
  rw [List.length_nil, Nat.sub_zero, List.nil_append] at hseg htaken
  have hlen : (line.take 256).length ≤ 256 := by
    rw [List.length_take]
    omega
  obtain ⟨seg', hset, hholds, -⟩ := htaken.terminate (GTERM_MAX_COLS + 1)
    (fun hmem => h0.1 (List.mem_of_mem_take hmem)) (by
      have hmax : GTERM_MAX_COLS = 256 := rfl
      omega)
  obtain ⟨st', hst, hshows⟩ := appendSeg_shows h hholds hlen col
  refine ⟨seg, _, _, seg', st', line.take 256, hseg, hset, hst, hshows, ?_⟩
  by_cases hlong : 256 < line.length
  · -- what is left of the line starts with no newline
    have hhead : ¬(line.drop 256 ++ q).head? = some 0x0A := by
      intro hhead
      obtain ⟨c, cs, hcs⟩ := List.exists_cons_of_ne_nil (l := line.drop 256) (by
        rw [ne_eq, List.drop_eq_nil_iff]
        omega)
      rw [hcs, List.cons_append, List.head?_cons, Option.some_inj] at hhead
      have hmem : c ∈ line.drop 256 := hcs ▸ List.mem_cons_self
      exact hline (hhead ▸ List.mem_of_mem_drop hmem)
    rw [if_neg hhead]
    refine ⟨pieces_long hline hq hlong, ?_, ?_⟩
    · rw [List.length_append, List.length_append, List.length_drop]
      omega
    · rw [List.mem_append, not_or]
      exact ⟨fun hmem => h0.1 (List.mem_of_mem_drop hmem), h0.2⟩
  · have hnil : line.drop 256 = [] := List.drop_eq_nil_iff.mpr (by omega)
    rw [hnil, List.nil_append, List.take_of_length_le (by omega)]
    cases q with
    | nil =>
        rw [List.append_nil] at hp ⊢
        refine ⟨?_, List.length_pos_iff.mpr hp, h0.2⟩
        rw [if_neg (by simp), pieces_last hp hline (by omega)]
        rfl
    | cons c r =>
        obtain rfl : c = 0x0A := hq c rfl
        rw [List.head?_cons, if_pos rfl, List.tail_cons]
        refine ⟨pieces_short hline (by omega), ?_, fun hmem => h0.2 (List.mem_cons_of_mem _ hmem)⟩
        rw [List.length_append, List.length_cons]
        omega

theorem appendLoop_shows {log : List (List UB × Nat)} (h : st.Shows log) (junk : Nat → Bytes)
    (col : Nat) {fuel : Nat} {p : List UB} (hfuel : p.length ≤ fuel) (h0 : 0 ∉ p) :
    ∃ st', appendLoop junk col fuel st p = some st' ∧
      st'.Shows (log ++ (pieces p).map (·, col)) := by
  induction fuel generalizing st log p with
  | zero =>
      obtain rfl : p = [] := List.length_eq_zero_iff.mp (by omega)
      exact ⟨st, by rw [appendLoop], by simpa [pieces, textLines_nil] using h⟩
  | succ fuel ih =>
      by_cases hp : p = []
      · subst hp
        exact ⟨st, by rw [appendLoop], by simpa [pieces, textLines_nil] using h⟩
      · obtain ⟨seg, segI, rest, seg', st₁, piece, hseg, hset, hst, hshows, hpieces, hlt, h0'⟩ :=
          round_shows h (junk fuel) hp h0 col
        obtain ⟨st₂, hrun, hshows₂⟩ := ih hshows (by omega) h0'
        refine ⟨st₂, ?_, ?_⟩
        · obtain ⟨c, cs, rfl⟩ := List.exists_cons_of_ne_nil hp
          rw [appendLoop, hseg, Option.bind_eq_bind, Option.bind_some]
          dsimp only
          rw [hset, Option.bind_eq_bind, Option.bind_some, hst, Option.bind_eq_bind,
            Option.bind_some, hrun]
          exact hp
        · rw [hpieces, List.map_cons]
          rwa [List.append_assoc, List.singleton_append] at hshows₂

theorem gtermAppendLine_shows {log : List (List UB × Nat)} (h : st.Shows log)
    (junk : Nat → Bytes) (text : List UB) (col : Nat) :
    ∃ st', gtermAppendLine junk st text col = some st' ∧
      st'.Shows (log ++ (pieces (cstr text)).map (·, col)) :=
  appendLoop_shows h junk col le_rfl (zero_notMem_cstr text)

-- A call, with what is in its array before it is written.
structure Call where
  text : List UB
  col : Nat
  junk : Nat → Bytes

def Call.pieces (c : Call) : List (List UB × Nat) := (Gterm.pieces (cstr c.text)).map (·, c.col)

theorem calls_show {log : List (List UB × Nat)} (h : st.Shows log) (calls : List Call) :
    ∃ st', calls.foldlM (fun st c => gtermAppendLine c.junk st c.text c.col) st = some st' ∧
      st'.Shows (log ++ calls.flatMap Call.pieces) := by
  induction calls generalizing st log with
  | nil => exact ⟨st, rfl, by simpa using h⟩
  | cons c calls ih =>
      obtain ⟨st₁, hst, hshows⟩ := gtermAppendLine_shows h c.junk c.text c.col
      obtain ⟨st₂, hrun, hshows₂⟩ := ih hshows
      rw [List.append_assoc] at hshows₂
      refine ⟨st₂, ?_, hshows₂⟩
      rw [List.foldlM_cons, hst, Option.bind_eq_bind, Option.bind_some, hrun]

end Scrollback

end BTron.Gterm
