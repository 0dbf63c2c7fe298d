import BTron.Editor.Reachable
import BTron.Gterm
import BTron.Lib.CText
import BTron.Lib.Latest
import BTron.Libstr.Memmove

namespace BTron.Gterm

open Lib Lib.CArray

-- The line and the history of a GTermState, their arrays byte by byte.
structure Line where
  inputBuf : Bytes
  inputLen : Int
  prompt : List UB
  cmdHistory : Nat → Bytes
  cmdHistCount : Nat
  cmdHistIdx : Int

namespace Line

def inputSize : Int := GTERM_MAX_COLS + 1

-- The size of a row of the history
def rowSize : Int := 256

def clear (ln : Line) : Option Line := do
  let buf ← CArray.set inputSize ln.inputBuf 0 0
  some { ln with inputBuf := buf, inputLen := 0 }

def room (ln : Line) : Int := GTERM_MAX_COLS - ln.prompt.length - 2

-- What `gterm_execute_cmd` does to the history. `cmdLine` is an array of `size` bytes.
def record (ln : Line) (size : Int) (cmdLine : Bytes) : Option Line :=
  if cmdLine 0 ≠ 0 then
    if ln.cmdHistCount < GTERM_CMD_HIST_MAX then do
      let row ← CArray.strncpy rowSize (ln.cmdHistory ln.cmdHistCount) 0 size cmdLine 0 255
      some { ln with
        cmdHistory := Function.update ln.cmdHistory ln.cmdHistCount row
        cmdHistCount := ln.cmdHistCount + 1
        cmdHistIdx := ((ln.cmdHistCount + 1 : Nat) : Int) }
    else do
      let rows := (Libstr.tklMemmove ln.cmdHistory 0 1 (GTERM_CMD_HIST_MAX - 1)).1
      let row ← CArray.strncpy rowSize (rows (GTERM_CMD_HIST_MAX - 1)) 0 size cmdLine 0 255
      some { ln with
        cmdHistory := Function.update rows (GTERM_CMD_HIST_MAX - 1) row
        cmdHistIdx := ln.cmdHistCount }
  else some { ln with cmdHistIdx := ln.cmdHistCount }

def backspace (ln : Line) : Option Line :=
  if ln.inputLen > 0 then do
    let prevC := backWhile (fun k => Utf8.isCont (ln.inputBuf ((k : Int) + 1))) 0
      (ln.inputLen - 1).toNat
    let buf ← CArray.set inputSize ln.inputBuf prevC 0
    some { ln with inputBuf := buf, inputLen := prevC }
  else some ln

-- A row of the history goes to the input.
def recallRow (ln : Line) (idx : Int) : Option Line :=
  if 0 ≤ idx ∧ idx < GTERM_CMD_HIST_MAX then do
    let buf ← CArray.strncpy inputSize ln.inputBuf 0 rowSize (ln.cmdHistory idx.toNat) 0
      GTERM_MAX_COLS
    let len ← CArray.strlen inputSize buf
    some { ln with cmdHistIdx := idx, inputBuf := buf, inputLen := len }
  else none

def up (ln : Line) : Option Line :=
  if ln.cmdHistCount > 0 ∧ ln.cmdHistIdx > 0 then ln.recallRow (ln.cmdHistIdx - 1) else some ln

def down (ln : Line) : Option Line :=
  if ln.cmdHistIdx < (ln.cmdHistCount : Int) - 1 then ln.recallRow (ln.cmdHistIdx + 1)
  else ({ ln with cmdHistIdx := ln.cmdHistCount } : Line).clear

-- `strcat`, with the length after it
def strcat (ln : Line) (text : List UB) : Option Line := do
  let buf ← CArray.strncat inputSize ln.inputBuf (text.length + 1) (ofList text) text.length
  some { ln with inputBuf := buf, inputLen := ln.inputLen + text.length }

def typeChar (ln : Line) (ch : UB) : Option Line := do
  let buf ← CArray.set inputSize ln.inputBuf ln.inputLen ch
  let buf ← CArray.set inputSize buf (ln.inputLen + 1) 0
  some { ln with inputBuf := buf, inputLen := ln.inputLen + 1 }

def editKey (ln : Line) (key mod : Nat) : Option Line :=
  let ctrl : Bool := mod &&& Editor.BTRON_KMOD_CTRL != 0
  if key = Editor.BTRON_KEY_BACKSPACE then ln.backspace
  else if key = Editor.BTRON_KEY_UP then ln.up
  else if key = Editor.BTRON_KEY_DOWN then ln.down
  else if key = Editor.BTRON_KEY_TAB then
    if ln.inputLen + 4 < ln.room then ln.strcat (word "    ") else some ln
  else if !ctrl ∧ key ≥ 32 ∧ key ≤ 126 then
    if ln.inputLen < ln.room then ln.typeChar (Editor.getAsciiCharWithShift key mod) else some ln
  else some ln

def ctrlKey (ln : Line) (key : Nat) : Option (Option Line) :=
  if key = 0x63 ∨ key = 0x43 then some ln.clear
  else if key = 0x6C ∨ key = 0x4C then some (some ln)
  else if key = 0x75 ∨ key = 0x55 then some ln.clear
  else none

-- The text of TIP in the 128 bytes of `commit_buf`
def commitBuf (text : List UB) : List UB := Lib.strncpy text 127

-- `tip` is that text when TIP takes the key.
def keyDown (ln : Line) (key mod : Nat) (tip : Option (List UB)) : Option Line :=
  match (if mod &&& Editor.BTRON_KMOD_CTRL ≠ 0 then ln.ctrlKey key else none) with
  | some ln => ln
  | none =>
    match tip with
    | some text =>
      if commitBuf text ≠ [] ∧ ln.inputLen + (commitBuf text).length < ln.room then
        ln.strcat (commitBuf text)
      else some ln
    | none =>
      if isReturn key then do
        let ln ← ln.record inputSize ln.inputBuf
        ln.clear
      else ln.editKey key mod

-- What `gterm_init_banner` leaves, and the command that follows it.
def banner : Line := ⟨fun _ => 0, 0, word "btron:/> ", fun _ _ => 0, 0, 0⟩

def reset : Option Line := banner.record 4 (ofList (word "ver"))

def dispatchCmd (ln : Line) (cmd : Int) : Option Line :=
  if cmd = TCMD_EDIT_CANCEL then ln.clear
  else if cmd = TCMD_TERM_RESET then reset
  else some ln

-- The arrays hold the strings of the state, and a NUL at the end of each is never overwritten.
structure Rep (ln : Line) (st : GTermState) : Prop where
  buf : Holds inputSize ln.inputBuf st.inputBuf
  bufEnd : ln.inputBuf 256 = 0
  len : ln.inputLen = st.inputLen
  prompt : ln.prompt = st.prompt
  rows : Latest GTERM_CMD_HIST_MAX (Holds rowSize) ln.cmdHistory ln.cmdHistCount st.cmdHistory
  rowEnd : ∀ k, ln.cmdHistory k 255 = 0
  idx : ln.cmdHistIdx = st.cmdHistIdx

end Line

-- What every key keeps, when `hist` are the commands that were recorded.
structure GTermState.Inv (st : GTermState) (hist : List (List UB)) : Prop where
  prompt : st.prompt = word "btron:/> "
  input : st.inputBuf.length ≤ 245
  history : st.cmdHistory = hist.rtake GTERM_CMD_HIST_MAX
  entry : ∀ x ∈ hist, x.length ≤ 245
  idx : 0 ≤ st.cmdHistIdx ∧ st.cmdHistIdx ≤ st.cmdHistory.length

variable {st : GTermState} {hist : List (List UB)}

theorem GTermState.Inv.room (h : st.Inv hist) : st.room = 245 := by
  rw [GTermState.room, h.prompt]
  rfl

theorem GTermState.Inv.count (h : st.Inv hist) : st.cmdHistory.length ≤ 32 := by
  rw [h.history, length_rtake]
  exact Nat.min_le_right _ _

theorem GTermState.Inv.stored (h : st.Inv hist) {x : List UB} (hx : x ∈ st.cmdHistory) :
    x.length ≤ 245 := by
  rw [h.history] at hx
  exact h.entry x (List.mem_of_mem_drop hx)

theorem GTermState.Inv.setInput (h : st.Inv hist) {buf : List UB} (hbuf : buf.length ≤ 245) :
    (st.input buf).Inv hist := ⟨h.prompt, hbuf, h.history, h.entry, h.idx⟩

theorem GTermState.Inv.record (h : st.Inv hist) {cmdLine : List UB} (hlen : cmdLine.length ≤ 245) :
    (st.record cmdLine).Inv (if cmdLine ≠ [] then hist ++ [cmdLine] else hist) := by
  by_cases hne : cmdLine ≠ []
  · rw [if_pos hne]
    refine ⟨h.prompt, h.input, ?_, fun x hx => ?_, ⟨Int.natCast_nonneg _, Int.le_refl _⟩⟩
    · rw [← rtake_push (by decide), ← h.history, GTermState.record,
        List.take_of_length_le (by omega)]
      exact if_pos hne
    · obtain hx | hx := List.mem_append.mp hx
      · exact h.entry x hx
      · rwa [List.mem_singleton.mp hx]
  · rw [if_neg hne]
    refine ⟨h.prompt, h.input, ?_, h.entry, ⟨Int.natCast_nonneg _, Int.le_refl _⟩⟩
    rw [GTermState.record, ← h.history]
    exact if_neg hne

theorem GTermState.Inv.recall (h : st.Inv hist) {idx : Int} (h0 : 0 ≤ idx)
    (hidx : idx < st.cmdHistory.length) : (st.recall idx).Inv hist := by
  refine ⟨h.prompt, ?_, h.history, h.entry, ⟨h0, Int.le_of_lt hidx⟩⟩
  have hmem : st.cmdHistory.getD idx.toNat [] ∈ st.cmdHistory := by
    rw [List.getD_eq_getElem _ _ (by omega)]
    exact List.getElem_mem _
  exact h.stored hmem

theorem GTermState.Inv.editKey (h : st.Inv hist) (key mod : Nat) :
    (editKey st key mod).Inv hist := by
  have hroom := h.room
  have hin := h.input
  have hidx := h.idx
  rw [Gterm.editKey]
  split
  · split
    · apply h.setInput
      rw [List.length_take]
      omega
    · exact h
  split
  · split
    · exact h.recall (by omega) (by omega)
    · exact h
  split
  · split
    · exact h.recall (by omega) (by omega)
    · exact ⟨h.prompt, by simp, h.history, h.entry, ⟨Int.natCast_nonneg _, Int.le_refl _⟩⟩
  split
  · split
    · rename_i hlt
      apply h.setInput
      rw [GTermState.inputLen] at hlt
      have hfour : (word "    ").length = 4 := rfl
      rw [List.length_append]
      omega
    · exact h
  split
  · split
    · rename_i hlt
      apply h.setInput
      rw [GTermState.inputLen] at hlt
      rw [List.length_append, List.length_singleton]
      omega
    · exact h
  · exact h

namespace Line

variable {ln : Line}

theorem Rep.clear (h : Rep ln st) : ∃ ln', ln.clear = some ln' ∧ Rep ln' (st.input []) := by
  obtain ⟨b, hset, hholds, hrest⟩ := h.buf.take (Nat.zero_le _)
  rw [List.take_zero] at hholds
  have hset' : CArray.set inputSize ln.inputBuf 0 0 = some b := hset
  refine ⟨{ ln with inputBuf := b, inputLen := 0 }, by rw [Line.clear, hset']; rfl, hholds, ?_, rfl,
    h.prompt, h.rows, h.rowEnd, h.idx⟩
  rw [← h.bufEnd]
  exact hrest 256 (by decide)

theorem Rep.setIdx (h : Rep ln st) {idx idx' : Int} (heq : idx = idx') :
    Rep { ln with cmdHistIdx := idx } { st with cmdHistIdx := idx' } :=
  ⟨h.buf, h.bufEnd, h.len, h.prompt, h.rows, h.rowEnd, heq⟩

theorem Rep.count (h : Rep ln st) (hcount : st.cmdHistory.length ≤ 32) :
    ln.cmdHistCount = st.cmdHistory.length := by
  rw [h.rows.count]
  exact congrArg List.length (rtake_of_length_le hcount)

theorem Rep.record_nil (h : Rep ln st) (hcount : st.cmdHistory.length ≤ 32) {size : Int}
    {cmdLine : Bytes} (hcmd : Holds size cmdLine []) :
    ∃ ln', ln.record size cmdLine = some ln' ∧ Rep ln' (st.record []) := by
  have hfirst : ¬cmdLine 0 ≠ 0 := by
    have hcell := hcmd.cell 0 (Nat.zero_le _)
    rw [Int.natCast_zero, List.getD_nil] at hcell
    exact not_not.mpr hcell
  have hidx : (ln.cmdHistCount : Int) = (st.cmdHistory.length : Nat) := by
    rw [h.count hcount]
  exact ⟨_, by rw [Line.record, if_neg hfirst], h.setIdx hidx⟩

theorem record_history {l : List UB} (hne : l ≠ []) (hcount : st.cmdHistory.length ≤ 32) :
    (st.record l).cmdHistory = (st.cmdHistory ++ [l.take 255]).rtake GTERM_CMD_HIST_MAX := by
  have hall : st.cmdHistory.rtake GTERM_CMD_HIST_MAX = st.cmdHistory := rtake_of_length_le hcount
  rw [← rtake_push (by decide), hall]
  exact if_pos hne

-- The new command, with the rows that stay.
theorem Rep.recorded (h : Rep ln st) (hcount : st.cmdHistory.length ≤ 32) {l : List UB}
    (hne : l ≠ []) {cells : Nat → Bytes} {count : Nat} {row : Bytes}
    (hcells : Latest (GTERM_CMD_HIST_MAX - 1) (Holds rowSize) cells count st.cmdHistory)
    (hends : ∀ k, cells k 255 = 0) (hrow : Holds rowSize row (l.take 255)) (hend : row 255 = 0) :
    Rep { ln with
      cmdHistory := Function.update cells count row
      cmdHistCount := count + 1
      cmdHistIdx := ((count + 1 : Nat) : Int) } (st.record l) := by
  have hrows : Latest GTERM_CMD_HIST_MAX (Holds rowSize) (Function.update cells count row)
      (count + 1) (st.cmdHistory ++ [l.take 255]) := by
    refine hcells.push (by decide) (fun k hk => Function.update_of_ne (by omega) _ _) ?_
    rwa [Function.update_self]
  refine ⟨h.buf, h.bufEnd, h.len, h.prompt, ?_, fun k => ?_, ?_⟩
  · rw [record_history hne hcount]
    exact latest_rtake.mpr hrows
  · by_cases hk : k = count
    · rw [hk]
      dsimp only
      rwa [Function.update_self]
    · dsimp only
      rw [Function.update_of_ne hk]
      exact hends k
  · have hidx : (st.record l).cmdHistIdx = ((st.record l).cmdHistory.length : Nat) := rfl
    rw [hidx, record_history hne hcount, ← hrows.count]

-- A command is copied behind the others, the first of which is given up when there are 32.
theorem Rep.record (h : Rep ln st) (hcount : st.cmdHistory.length ≤ 32) {size : Int}
    {cmdLine : Bytes} {l : List UB} (hcmd : Holds size cmdLine l) (hne : l ≠ []) :
    ∃ ln', ln.record size cmdLine = some ln' ∧ Rep ln' (st.record l) := by
  have hlen := h.count hcount
  have hfirst : cmdLine 0 ≠ 0 := by
    obtain ⟨c, l', rfl⟩ := List.exists_cons_of_ne_nil hne
    have hcell := hcmd.cell 0 (Nat.zero_le _)
    rw [Int.natCast_zero, List.getD_cons_zero] at hcell
    rw [hcell]
    exact fun heq => hcmd.string (heq ▸ List.mem_cons_self)
  have hcopy : ∀ a : Bytes, a 255 = 0 → ∃ row,
      CArray.strncpy rowSize a 0 size cmdLine 0 255 = some row ∧
      Holds rowSize row (l.take 255) ∧ row 255 = 0 := by
    intro a hend
    have hroom : ((255 : Nat) : Int) < rowSize := by decide
    obtain ⟨row, hrow, hholds, hrest⟩ := hcmd.fill hroom hend
    exact ⟨row, hrow, hholds, by rw [← hend]; exact hrest 255 (by decide)⟩
  rw [Line.record, if_pos hfirst]
  by_cases hroom : ln.cmdHistCount < GTERM_CMD_HIST_MAX
  · obtain ⟨row, hrow, hholds, hend⟩ := hcopy _ (h.rowEnd ln.cmdHistCount)
    exact ⟨_, by rw [if_pos hroom, hrow]; rfl,
      h.recorded hcount hne (h.rows.room hroom) h.rowEnd hholds hend⟩
  · have hslide := h.rows.slide (by omega) (by decide)
    have hends : ∀ k, copied ln.cmdHistory 0 1 (GTERM_CMD_HIST_MAX - 1) k 255 = 0 := by
      intro k
      rw [copied]
      split <;> exact h.rowEnd _
    obtain ⟨row, hrow, hholds, hend⟩ := hcopy _ (hends (GTERM_CMD_HIST_MAX - 1))
    have hfull : ln.cmdHistCount = GTERM_CMD_HIST_MAX - 1 + 1 := by
      have hle := h.rows.count_le
      have hmax : GTERM_CMD_HIST_MAX = 32 := rfl
      omega
    have hrep := h.recorded hcount hne hslide hends hholds hend
    rw [← hfull] at hrep
    refine ⟨_, ?_, hrep⟩
    rw [if_neg hroom, Libstr.tklMemmove_eq]
    dsimp only
    rw [hrow]
    rfl

-- An input that is typed or recalled, with its NUL before the last byte
theorem Rep.setBuf (h : Rep ln st) {b : Bytes} {buf : List UB} (hbuf : Holds inputSize b buf)
    (hend : b 256 = 0) : Rep { ln with inputBuf := b, inputLen := buf.length } (st.input buf) :=
  ⟨hbuf, hend, rfl, h.prompt, h.rows, h.rowEnd, h.idx⟩

theorem Rep.backspace (h : Rep ln st) (hin : st.inputBuf.length ≤ 245) :
    ∃ ln', ln.backspace = some ln' ∧ Rep ln' (if st.inputLen > 0 then
      st.input (st.inputBuf.take (lastStart st.inputBuf)) else st) := by
  rw [Line.backspace]
  have hlen : ln.inputLen = st.inputBuf.length := h.len
  by_cases hpos : st.inputLen > 0
  · have hprev : backWhile (fun k => Utf8.isCont (ln.inputBuf ((k : Int) + 1))) 0
        (ln.inputLen - 1).toNat = lastStart st.inputBuf := by
      have hlast : (ln.inputLen - 1).toNat = st.inputBuf.length - 1 := by omega
      rw [hlast]
      apply backWhile_congr
      intro k hk
      have hcell := h.buf.cell (k + 1) (by omega)
      rw [Int.natCast_succ] at hcell
      rw [hcell]
    have hle : lastStart st.inputBuf ≤ st.inputBuf.length := by
      have hback := backWhile_le (fun k => Utf8.isCont (st.inputBuf.getD (k + 1) 0)) 0
        (st.inputBuf.length - 1)
      rw [lastStart]
      omega
    obtain ⟨b, hset, hholds, hrest⟩ := h.buf.take hle
    have htake : (st.inputBuf.take (lastStart st.inputBuf)).length = lastStart st.inputBuf := by
      rw [List.length_take, Nat.min_eq_left hle]
    have hrep := h.setBuf hholds (by rw [← h.bufEnd]; exact hrest 256 (by omega))
    rw [htake] at hrep
    refine ⟨_, ?_, by rwa [if_pos hpos]⟩
    rw [if_pos (by rw [h.len]; exact hpos), hprev]
    dsimp only
    rw [hset]
    rfl
  · refine ⟨ln, ?_, by rwa [if_neg hpos]⟩
    rw [if_neg (by rw [h.len]; exact hpos)]

-- A row is shorter than the input may become, and its NULs fill up the input.
theorem Rep.recall (h : Rep ln st) (hcount : st.cmdHistory.length ≤ 32) {idx : Int} (h0 : 0 ≤ idx)
    (hidx : idx < st.cmdHistory.length) :
    ∃ ln', ln.recallRow idx = some ln' ∧ Rep ln' (st.recall idx) := by
  have hmax : (GTERM_CMD_HIST_MAX : Int) = 32 := rfl
  have hrow : Holds rowSize (ln.cmdHistory idx.toNat) (st.cmdHistory.getD idx.toNat []) := by
    apply h.rows.cell
    have hall : st.cmdHistory.rtake GTERM_CMD_HIST_MAX = st.cmdHistory := rtake_of_length_le hcount
    rw [hall, List.getElem?_eq_getElem (by omega), List.getD_eq_getElem _ _ (by omega)]
  have hroom : ((256 : Nat) : Int) < inputSize := by decide
  obtain ⟨b, hcopy, hholds, hrest⟩ := hrow.fill hroom h.bufEnd
  have hshort : (st.cmdHistory.getD idx.toNat []).length ≤ 256 := by
    have hinside := hrow.inside
    rw [rowSize] at hinside
    omega
  rw [List.take_of_length_le hshort] at hholds
  have hcopy' : CArray.strncpy inputSize ln.inputBuf 0 rowSize (ln.cmdHistory idx.toNat) 0
      GTERM_MAX_COLS = some b := hcopy
  have hrep := (h.setBuf hholds (by rw [← h.bufEnd]; exact hrest 256 (by decide))).setIdx
    (Eq.refl idx)
  refine ⟨_, ?_, hrep⟩
  rw [Line.recallRow, if_pos ⟨h0, by omega⟩, hcopy', Option.bind_eq_bind, Option.bind_some,
    hholds.strlen]
  rfl

theorem Rep.up (h : Rep ln st) (hcount : st.cmdHistory.length ≤ 32)
    (hidx : st.cmdHistIdx ≤ st.cmdHistory.length) :
    ∃ ln', ln.up = some ln' ∧ Rep ln' (if st.cmdHistory.length > 0 ∧ st.cmdHistIdx > 0 then
      st.recall (st.cmdHistIdx - 1) else st) := by
  rw [Line.up, h.count hcount, h.idx]
  split
  · exact h.recall hcount (by omega) (by omega)
  · exact ⟨ln, rfl, h⟩

theorem Rep.down (h : Rep ln st) (hcount : st.cmdHistory.length ≤ 32) (hidx : 0 ≤ st.cmdHistIdx) :
    ∃ ln', ln.down = some ln' ∧ Rep ln' (if st.cmdHistIdx < st.cmdHistory.length - 1 then
      st.recall (st.cmdHistIdx + 1)
      else { st with cmdHistIdx := st.cmdHistory.length, inputBuf := [] }) := by
  have hlen := h.count hcount
  have hat := h.idx
  rw [Line.down]
  by_cases hlt : st.cmdHistIdx < (st.cmdHistory.length : Int) - 1
  · rw [if_pos hlt, if_pos (by omega), hat]
    exact h.recall hcount (by omega) (by omega)
  · rw [if_neg hlt, if_neg (by omega)]
    have hidx' : (ln.cmdHistCount : Int) = st.cmdHistory.length := by rw [hlen]
    exact (h.setIdx hidx').clear

-- `text` is appended where the prompt leaves room for it.
theorem Rep.strcat (h : Rep ln st) {text : List UB} (h0 : 0 ∉ text)
    (hroom : st.inputBuf.length + text.length < 256) :
    ∃ ln', ln.strcat text = some ln' ∧ Rep ln' (st.input (st.inputBuf ++ text)) := by
  have hmax : inputSize = 257 := rfl
  obtain ⟨b, hcat, hholds, hrest⟩ := h.buf.append (holds_ofList h0) (n := text.length) (by omega)
  rw [List.take_length] at hholds
  have hrep := h.setBuf hholds (by rw [← h.bufEnd]; exact hrest 256 (by omega))
  have hlen : ((st.inputBuf ++ text).length : Int) = ln.inputLen + text.length := by
    rw [h.len, GTermState.inputLen, List.length_append, Int.natCast_add]
  rw [hlen] at hrep
  refine ⟨_, ?_, hrep⟩
  rw [Line.strcat, hcat]
  rfl

theorem Rep.typeChar (h : Rep ln st) {ch : UB} (hch : ch ≠ 0) (hroom : st.inputBuf.length < 255) :
    ∃ ln', ln.typeChar ch = some ln' ∧ Rep ln' (st.input (st.inputBuf ++ [ch])) := by
  have hmax : inputSize = 257 := rfl
  obtain ⟨b, hset, hbegins, hrest⟩ := h.buf.begins.push inputSize ch (by omega)
  obtain ⟨b', hset', hholds, hrest'⟩ := hbegins.terminate inputSize
    (by simpa [h.buf.string] using hch.symm) (by rw [List.length_append]; simp; omega)
  have hlen : ((st.inputBuf ++ [ch]).length : Int) = ln.inputLen + 1 := by
    rw [h.len, GTermState.inputLen, List.length_append]
    rfl
  have hrep := h.setBuf hholds (by
    rw [hrest' 256 (by rw [List.length_append, List.length_singleton]; omega),
      hrest 256 (by omega), h.bufEnd])
  rw [hlen] at hrep hset'
  refine ⟨_, ?_, hrep⟩
  have hlen' : ln.inputLen = st.inputBuf.length := h.len
  rw [Line.typeChar, hlen', hset, Option.bind_eq_bind, Option.bind_some, ← hlen', hset']
  rfl

theorem Rep.room (h : Rep ln st) : ln.room = st.room := by
  rw [Line.room, GTermState.room, h.prompt]

theorem Rep.editKey (h : Rep ln st) (hinv : st.Inv hist) (key mod : Nat) :
    ∃ ln', ln.editKey key mod = some ln' ∧ Rep ln' (Gterm.editKey st key mod) := by
  have hroom := hinv.room
  have hlen : st.inputLen = st.inputBuf.length := rfl
  rw [Line.editKey, Gterm.editKey, h.room, h.len]
  split
  · exact h.backspace hinv.input
  split
  · exact h.up hinv.count hinv.idx.2
  split
  · exact h.down hinv.count hinv.idx.1
  split
  · split
    · rename_i hlt
      have hfour : (word "    ").length = 4 := rfl
      exact h.strcat (by decide) (by omega)
    · exact ⟨ln, rfl, h⟩
  split
  · rename_i hprint
    split
    · rename_i hlt
      exact h.typeChar (Editor.getAsciiCharWithShift_ne_zero hprint.2) (by omega)
    · exact ⟨ln, rfl, h⟩
  · exact ⟨ln, rfl, h⟩

theorem val_execute (wnd : Window.Wnd) (st : GTermState) (cmdLine : List UB) :
    (gtermExecuteCmd wnd st cmdLine).val = st.record cmdLine := by
  rw [gtermExecuteCmd, Uses.val_bind, Uses.val_bind]
  split <;> rfl

-- The input is recorded unless it is empty, and it is cleared.
theorem Rep.enter (h : Rep ln st) (hinv : st.Inv hist) :
    ∃ ln₁ ln₂, ln.record inputSize ln.inputBuf = some ln₁ ∧ ln₁.clear = some ln₂ ∧
      Rep ln₂ ((st.record st.inputBuf).input []) := by
  have hrecord : ∃ ln₁, ln.record inputSize ln.inputBuf = some ln₁ ∧
      Rep ln₁ (st.record st.inputBuf) := by
    have hbuf := h.buf
    by_cases hne : st.inputBuf = []
    · rw [hne] at hbuf ⊢
      exact h.record_nil hinv.count hbuf
    · exact h.record hinv.count hbuf hne
  obtain ⟨ln₁, hln₁, hrep₁⟩ := hrecord
  obtain ⟨ln₂, hln₂, hrep₂⟩ := hrep₁.clear
  exact ⟨ln₁, ln₂, hln₁, hln₂, hrep₂⟩

-- The keys with Ctrl clear the input or leave it, and Enter is none of them.
theorem Rep.ctrlKey (h : Rep ln st) (key : Nat) :
    (ln.ctrlKey key = none ∧ Gterm.ctrlKey st key = none) ∨
      ∃ ln' run, ln.ctrlKey key = some (some ln') ∧ Gterm.ctrlKey st key = some run ∧
        Rep ln' run.val ∧ (run.val = st.input [] ∨ run.val = st) ∧ isReturn key = false := by
  obtain ⟨ln', hclear, hrep⟩ := h.clear
  have hkey : ∀ a b : Nat, isReturn a = false → isReturn b = false → key = a ∨ key = b →
      isReturn key = false := by
    rintro a b ha hb (rfl | rfl)
    · exact ha
    · exact hb
  rw [Line.ctrlKey, Gterm.ctrlKey, hclear]
  split
  · rename_i hc
    exact .inr ⟨ln', _, rfl, rfl, hrep, .inl rfl, hkey _ _ rfl rfl hc⟩
  split
  · rename_i hl
    exact .inr ⟨ln, _, rfl, rfl, h, .inr rfl, hkey _ _ rfl rfl hl⟩
  split
  · rename_i hu
    exact .inr ⟨ln', _, rfl, rfl, hrep, .inl rfl, hkey _ _ rfl rfl hu⟩
  · exact .inl ⟨rfl, rfl⟩

end Line

-- A key that enters the input. TIP may take it.
def enters (key : Nat) (tip : Option (List UB)) : Bool := isReturn key && tip.isNone

-- The commands with the one that a key enters
def entered (hist : List (List UB)) (cmdLine : List UB) (key : Nat) (tip : Option (List UB)) :
    List (List UB) :=
  if enters key tip ∧ cmdLine ≠ [] then hist ++ [cmdLine] else hist

theorem entered_of_not {key : Nat} {tip : Option (List UB)} (h : enters key tip = false)
    (hist : List (List UB)) (cmdLine : List UB) : entered hist cmdLine key tip = hist := by
  rw [entered, if_neg (by simp [h])]

theorem length_commitBuf (text : List UB) : (Line.commitBuf text).length ≤ 127 := by
  rw [Line.commitBuf, Lib.strncpy, List.length_take]
  exact Nat.min_le_left _ _

namespace Line

variable {ln : Line}

-- A key does to the arrays what it does to the strings.
theorem Rep.keyDown (h : Rep ln st) (hinv : st.Inv hist) (wnd : Window.Wnd) (key mod : Nat)
    (tip : Option (List UB)) :
    ∃ ln', ln.keyDown key mod tip = some ln' ∧
      Rep ln' (Gterm.keyDown wnd st key mod (tip.map commitBuf)).val ∧
      (Gterm.keyDown wnd st key mod (tip.map commitBuf)).val.Inv
        (entered hist st.inputBuf key tip) := by
  have hin := hinv.input
  have hroom := hinv.room
  have hlen : st.inputLen = st.inputBuf.length := rfl
  have hctrl : (((if mod &&& Editor.BTRON_KMOD_CTRL ≠ 0 then ln.ctrlKey key else none) = none ∧
      (if mod &&& Editor.BTRON_KMOD_CTRL ≠ 0 then Gterm.ctrlKey st key else none) = none)) ∨
      ∃ ln' run, (if mod &&& Editor.BTRON_KMOD_CTRL ≠ 0 then ln.ctrlKey key else none) =
          some (some ln') ∧
        (if mod &&& Editor.BTRON_KMOD_CTRL ≠ 0 then Gterm.ctrlKey st key else none) = some run ∧
        Rep ln' run.val ∧ (run.val = st.input [] ∨ run.val = st) ∧ isReturn key = false := by
    by_cases hmod : mod &&& Editor.BTRON_KMOD_CTRL ≠ 0
    · rw [if_pos hmod, if_pos hmod]
      exact h.ctrlKey key
    · exact .inl ⟨if_neg hmod, if_neg hmod⟩
  rw [Line.keyDown.eq_def, Gterm.keyDown.eq_def]
  obtain ⟨hline, hstate⟩ | ⟨ln', run, hline, hstate, hrep, hval, hret⟩ := hctrl
  · rw [hline, hstate]
    cases tip with
    | some text =>
        have hout : entered hist st.inputBuf key (some text) = hist := by
          apply entered_of_not
          rw [enters]
          exact Bool.and_false _
        rw [hout]
        simp only [Option.map_some, Uses.val_bind, Uses.val_pure]
        rw [h.room, h.len]
        split
        · rename_i hfits
          obtain ⟨ln', hln, hrep⟩ := h.strcat (zero_notMem_strncpy text 127) (by
            have hlt := hfits.2
            rw [commitBuf] at hlt
            omega)
          refine ⟨ln', hln, hrep, hinv.setInput ?_⟩
          rw [List.length_append]
          omega
        · exact ⟨ln, rfl, h, hinv⟩
    | none =>
        simp only [Option.map_none]
        by_cases hret : isReturn key = true
        · obtain ⟨ln₁, ln₂, hln₁, hln₂, hrep⟩ := h.enter hinv
          rw [if_pos hret, if_pos hret, hln₁, Option.bind_eq_bind, Option.bind_some]
          simp only [Uses.val_bind, Uses.val_pure, val_execute]
          refine ⟨ln₂, hln₂, hrep, ?_⟩
          have henters : enters key none = true := by rw [enters, hret]; rfl
          rw [entered]
          simp only [henters, true_and]
          exact (hinv.record hin).setInput (by simp)
        · have hout : entered hist st.inputBuf key none = hist := by
            apply entered_of_not
            rw [enters, Bool.eq_false_iff.mpr hret]
            rfl
          rw [if_neg hret, if_neg hret, hout]
          obtain ⟨ln', hln, hrep⟩ := h.editKey hinv key mod
          exact ⟨ln', hln, hrep, hinv.editKey key mod⟩
  · have hout : entered hist st.inputBuf key tip = hist := by
      apply entered_of_not
      rw [enters, hret]
      rfl
    rw [hline, hstate, hout]
    refine ⟨ln', rfl, hrep, ?_⟩
    dsimp only
    obtain hval | hval := hval
    · rw [hval]
      exact hinv.setInput (by simp)
    · rwa [hval]

theorem banner_rep : Rep banner gtermInitBanner := by
  exact ⟨⟨List.not_mem_nil, by decide, fun _ _ => rfl⟩, rfl, rfl, rfl, .nil _, fun _ => rfl, rfl⟩

-- A reset records the command that follows the banner.
theorem reset_rep : ∃ ln, reset = some ln ∧ Rep ln (gtermInitBanner.record (word "ver")) ∧
    (gtermInitBanner.record (word "ver")).Inv [word "ver"] := by
  have hinv : gtermInitBanner.Inv [] := by
    refine ⟨rfl, Nat.zero_le _, rfl, ?_, Int.le_refl _, Int.le_refl _⟩
    intro x hx
    exact absurd hx List.not_mem_nil
  obtain ⟨ln, hln, hrep⟩ := banner_rep.record (Nat.zero_le _)
    (holds_ofList (by decide : 0 ∉ word "ver")) (by decide)
  exact ⟨ln, hln, hrep, hinv.record (by decide)⟩

theorem Rep.dispatchCmd (h : Rep ln st) (hinv : st.Inv hist) (wnd : Window.Wnd) (cmd : Int) :
    ∃ ln', ln.dispatchCmd cmd = some ln' ∧ Rep ln' (gtermDispatchCmd wnd st cmd).val ∧
      (gtermDispatchCmd wnd st cmd).val.Inv
        (if cmd = TCMD_TERM_RESET then [word "ver"] else hist) := by
  rw [Line.dispatchCmd]
  by_cases hcancel : cmd = TCMD_EDIT_CANCEL
  · obtain ⟨ln', hclear, hrep⟩ := h.clear
    rw [hcancel]
    exact ⟨ln', hclear, hrep, hinv.setInput (by simp)⟩
  by_cases hreset : cmd = TCMD_TERM_RESET
  · obtain ⟨ln', hln, hrep, hinv'⟩ := reset_rep
    rw [hreset]
    refine ⟨ln', hln, ?_, ?_⟩
    · exact hrep
    · exact hinv'
  · have hval : (gtermDispatchCmd wnd st cmd).val = st := by
      rw [gtermDispatchCmd, if_neg hcancel, if_neg hreset]
      split_ifs <;> rfl
    rw [if_neg hcancel, if_neg hreset, if_neg hreset, hval]
    exact ⟨ln, rfl, h, hinv⟩

end Line

end BTron.Gterm
