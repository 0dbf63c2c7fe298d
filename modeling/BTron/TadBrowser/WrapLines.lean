import BTron.TronCode.Advances
import BTron.TronCode.Scans

namespace BTron.TadBrowser

open Lib Lib.Logged Lib.Utf8 TronCode
open Editor (tcGetCharAdvance)
open Graphics (asH)
open String (utf8EncodeChar)

-- "\n", "\r" or "\r\n"
def IsLineEnd (nl : List Char) : Prop := nl = ['\n'] ∨ nl = ['\r'] ∨ nl = ['\r', '\n']

-- The lines of a text and the text: behind each line a newline is left out, or the spaces at the
-- front of the next line, if any.
inductive Wrapped : List (List Char) → List Char → Prop
  | nil : Wrapped [] []
  | newline {lines : List (List Char)} {done line nl : List Char} : Wrapped lines done →
      (∀ c ∈ line, InLine c) → IsLineEnd nl → Wrapped (lines ++ [line]) (done ++ line ++ nl)
  | wrap {lines : List (List Char)} {done line : List Char} (k : Nat) : Wrapped lines done →
      (∀ c ∈ line, InLine c) →
      Wrapped (lines ++ [line]) (done ++ line ++ List.replicate k ' ')

-- The width of a line as it is added up character by character.
def lineW (line : List Char) : Int := asH (measured 0 (line.map tcOf))

-- The call of the callback for the line of index `idx`
def record (idx : Nat) (line : List Char) : WrapLine := ⟨(bytes line).take 511, lineW line, idx⟩

-- The previous code behind some codes
def lastCode (codes : List TC) : TC :=
  codes.foldl (fun prev code => prevAfter code prev (tcGetCharAdvance code prev)) 0

theorem measured_append (prev : TC) (codes : List TC) (code : TC) :
    measured prev (codes ++ [code]) = measured prev codes +
      tcGetCharAdvance code (codes.foldl
        (fun prev code => prevAfter code prev (tcGetCharAdvance code prev)) prev) := by
  induction codes generalizing prev with
  | nil => simp [measured]
  | cons first codes ih =>
      rw [List.cons_append, measured, measured, ih, List.foldl_cons, Int.add_assoc]

theorem lineW_concat (line : List Char) (c : Char) :
    lineW (line ++ [c]) =
      asH (lineW line + tcGetCharAdvance (tcOf c) (lastCode (line.map tcOf))) := by
  rw [lineW, lineW, List.map_append, asH_add]
  exact congrArg asH (measured_append 0 _ _)

theorem lastCode_concat (line : List Char) (c : Char) :
    lastCode ((line ++ [c]).map tcOf) =
      prevAfter (tcOf c) (lastCode (line.map tcOf))
        (tcGetCharAdvance (tcOf c) (lastCode (line.map tcOf))) := by
  rw [lastCode, List.map_append, List.foldl_append]
  rfl

variable {text : Memory} {cs : List Char}

theorem textAt_append {i : Nat} {as bs : List Char} :
    TextAt text i (as ++ bs) ↔
      Stored text i (bytes as) ∧ TextAt text (i + (bytes as).length) bs := by
  rw [TextAt, bytes_append, List.append_assoc, stored_append, TextAt]

theorem readBlock_val {i n : Nat} {bs : List UB} (h : Stored text i bs) (hn : n ≤ bs.length) :
    (readBlock text i n).val = bs.take n := by
  apply List.ext_getElem
  · simp [hn]
  · intro k hk hk'
    have hlt : k < bs.length := by
      rw [List.length_take] at hk'
      omega
    rw [List.getElem_take, ← h k hlt]
    simp

-- The bytes of a line that the callback is given.
theorem emitted_eq {s : Wrap} {cb : Bool} {line : List Char} {pt : Nat} {w : Int}
    (h : Stored text s.lineStart (bytes line)) (hpt : pt = s.lineStart + (bytes line).length)
    (hw : w = lineW line) :
    s.emitted text cb pt w =
      { s with
        lineIdx := s.lineIdx + 1
        calls := if cb then s.calls ++ [record s.lineIdx line] else s.calls } := by
  have hlen : pt - s.lineStart = (bytes line).length := by omega
  have htake : (bytes line).take (min (bytes line).length 511) = (bytes line).take 511 := by
    rw [Nat.min_comm, ← List.take_take, List.take_of_length_le (Nat.le_refl (bytes line).length)]
  rw [Wrap.emitted, hlen, readBlock_val h (Nat.min_le_left ..), htake, hw]
  rfl

-- What the callback has been given of some lines.
def recorded (cb : Bool) (lines : List (List Char)) : List WrapLine :=
  if cb then lines.mapIdx record else []

theorem recorded_concat (cb : Bool) (lines : List (List Char)) (line : List Char) :
    recorded cb (lines ++ [line]) =
      if cb then recorded cb lines ++ [record lines.length line] else recorded cb lines := by
  cases cb with
  | false => rfl
  | true => simp [recorded, List.mapIdx_append]

-- The state in front of `rest`, when `line` has been read of the current line.
structure Laid (cs : List Char) (cb : Bool) (s : Wrap) (lines : List (List Char))
    (done line rest : List Char) : Prop where
  text : cs = done ++ line ++ rest
  wrapped : Wrapped lines done
  inLine : ∀ c ∈ line, InLine c
  lineStart : s.lineStart = (bytes done).length
  place : s.p = (bytes done).length + (bytes line).length
  width : s.curLineW = lineW line
  prev : s.prevCode = lastCode (line.map tcOf)
  lastBreak : ∀ pt, s.lastBreak = some pt → ∃ k ≤ line.length,
    pt = (bytes done).length + (bytes (line.take k)).length ∧ s.lastBreakW = lineW (line.take k)
  lineIdx : s.lineIdx = lines.length
  calls : s.calls = recorded cb lines

-- The state in front of `rest`, when `k` spaces have been skipped behind the last line.
structure Skipped (cs : List Char) (cb : Bool) (s : Wrap) (lines : List (List Char))
    (done line : List Char) (k : Nat) (rest : List Char) : Prop where
  text : cs = done ++ line ++ List.replicate k ' ' ++ rest
  wrapped : Wrapped lines done
  inLine : ∀ c ∈ line, InLine c
  place : s.p = (bytes (done ++ line ++ List.replicate k ' ')).length
  lineIdx : s.lineIdx = (lines ++ [line]).length
  calls : s.calls = recorded cb (lines ++ [line])

def Describes (cs : List Char) (cb : Bool) (s : Wrap) : Prop :=
  match s.point with
  | .character => ∃ lines done line rest, Laid cs cb s lines done line rest
  | .spaces => ∃ lines done line k rest, Skipped cs cb s lines done line k rest

theorem describes_start (cs : List Char) (cb : Bool) : Describes cs cb Wrap.start := by
  refine ⟨[], [], [], cs, rfl, .nil, by simp, rfl, rfl, rfl, rfl, fun pt hpt => ?_, rfl, ?_⟩
  · cases hpt
  · cases cb <;> rfl

-- A new line starts at the end of what is done.
theorem laid_newLine {cb : Bool} {s : Wrap} {lines : List (List Char)} {done rest : List Char}
    {p : Nat} (htext : cs = done ++ rest) (hwrapped : Wrapped lines done)
    (hp : p = (bytes done).length) (hidx : s.lineIdx = lines.length)
    (hcalls : s.calls = recorded cb lines) : Laid cs cb (s.newLine p) lines done [] rest := by
  refine ⟨by simpa using htext, hwrapped, by simp, hp, hp, rfl, rfl, fun pt hpt => ?_, hidx,
    hcalls⟩
  cases hpt

variable {cb : Bool} {s : Wrap} {lines : List (List Char)} {done line rest : List Char}

theorem stored_between {as bs ds : List Char} (htext : TextAt text 0 cs)
    (h : cs = as ++ bs ++ ds) : Stored text (bytes as).length (bytes bs) := by
  rw [h, textAt_append, bytes_append, stored_append, Nat.zero_add] at htext
  exact htext.1.2

theorem textAt_behind {as bs : List Char} (htext : TextAt text 0 cs) (h : cs = as ++ bs) :
    TextAt text (bytes as).length bs := by
  rw [h, textAt_append, Nat.zero_add] at htext
  exact htext.2

theorem Laid.textAt (h : Laid cs cb s lines done line rest) (htext : TextAt text 0 cs) :
    Stored text s.lineStart (bytes line) ∧ TextAt text s.p rest := by
  have hp : s.p = (bytes (done ++ line)).length := by simpa using h.place
  rw [h.lineStart, hp]
  exact ⟨stored_between htext h.text, textAt_behind htext h.text⟩

-- Unless the string ends, there is a character at `p`.
theorem Laid.exists_char (h : Laid cs cb s lines done line rest) (htext : TextAt text 0 cs)
    (hcs : ∀ c ∈ cs, 0 < c.toNat) (hne : text s.p ≠ 0) :
    ∃ c tail, rest = c :: tail ∧ 0 < c.toNat ∧ Stored text s.p (utf8EncodeChar c) ∧
      TextAt text (s.p + (utf8EncodeChar c).length) tail := by
  obtain ⟨-, hrest⟩ := h.textAt htext
  cases rest with
  | nil => exact absurd hrest.terminator hne
  | cons c tail =>
      obtain ⟨hhead, htail⟩ := textAt_cons.mp hrest
      exact ⟨c, tail, rfl, hcs c (by rw [h.text]; simp), hhead, htail⟩

theorem Laid.nil_of_zero (h : Laid cs cb s lines done line rest) (htext : TextAt text 0 cs)
    (hcs : ∀ c ∈ cs, 0 < c.toNat) (h0 : text s.p = 0) : rest = [] := by
  cases rest with
  | nil => rfl
  | cons c tail =>
      obtain ⟨hhead, -⟩ := textAt_cons.mp (h.textAt htext).2
      exact absurd h0 (head_ne_zero (hcs c (by rw [h.text]; simp)) hhead)

theorem code_eq {c : Char} (h0 : 0 < c.toNat) (h : Stored text s.p (utf8EncodeChar c)) :
    s.code text = tcOf c := congrArg Prod.fst (utf8ToTc_char h0 h)

theorem step_len {c : Char} (h0 : 0 < c.toNat) (h : Stored text s.p (utf8EncodeChar c)) :
    s.step text = (utf8EncodeChar c).length := stepOf_char h0 h

theorem adv_eq {c : Char} (h0 : 0 < c.toNat) (h : Stored text s.p (utf8EncodeChar c))
    (hprev : s.prevCode = lastCode (line.map tcOf)) :
    asH (lineW line + s.adv text) = lineW (line ++ [c]) := by
  rw [lineW_concat, Wrap.adv, code_eq h0 h, hprev]

theorem bytes_concat_length (line : List Char) (c : Char) :
    (bytes (line ++ [c])).length = (bytes line).length + (utf8EncodeChar c).length := by
  simp

theorem ascii_length {c : Char} (h : c.toNat < 0x80) : (utf8EncodeChar c).length = 1 := by
  rw [encode_one h]
  rfl

-- A remembered place is behind some of the characters of the line, with the width of these.
theorem Laid.last (h : Laid cs cb s lines done line (c :: rest)) (h0 : 0 < c.toNat)
    (hc : Stored text s.p (utf8EncodeChar c)) {pt : Nat} (hpt : (s.last text).1 = some pt) :
    ∃ k ≤ (line ++ [c]).length,
      pt = (bytes done).length + (bytes ((line ++ [c]).take k)).length ∧
      (s.last text).2 = lineW ((line ++ [c]).take k) := by
  have hbefore : ∃ k ≤ (line ++ [c]).length,
      s.p = (bytes done).length + (bytes ((line ++ [c]).take k)).length ∧
      s.curLineW = lineW ((line ++ [c]).take k) := by
    refine ⟨line.length, by simp, ?_⟩
    rw [List.take_left]
    exact ⟨h.place, h.width⟩
  have hbehind : ∀ q, q = s.p + (utf8EncodeChar c).length → ∃ k ≤ (line ++ [c]).length,
      q = (bytes done).length + (bytes ((line ++ [c]).take k)).length ∧
      asH (s.curLineW + s.adv text) = lineW ((line ++ [c]).take k) := by
    intro q hq
    refine ⟨(line ++ [c]).length, Nat.le_refl _, ?_⟩
    rw [List.take_length, h.width, adv_eq h0 hc h.prev, bytes_concat_length, hq, h.place]
    exact ⟨Nat.add_assoc .., rfl⟩
  unfold Wrap.last Wrap.candidate at hpt ⊢
  split
  · rename_i hsp
    rw [if_pos hsp] at hpt
    cases hpt
    exact hbefore
  rename_i hsp
  rw [if_neg hsp] at hpt
  split
  · rename_i hdash
    rw [if_pos hdash] at hpt
    cases hpt
    have hascii : c.toNat < 0x80 := by
      rcases hdash with hdash | hdash
      · rw [(head_eq_iff (by decide) hc).mp hdash]
        decide
      · rw [(head_eq_iff (by decide) hc).mp hdash]
        decide
    exact hbehind _ (by rw [ascii_length hascii])
  rename_i hdash
  rw [if_neg hdash] at hpt
  split
  · rename_i htsheg
    rw [if_pos htsheg] at hpt
    cases hpt
    exact hbehind _ (by rw [step_len h0 hc])
  rename_i htsheg
  rw [if_neg htsheg] at hpt
  split
  · rename_i hcjk
    rw [if_pos hcjk] at hpt
    cases hpt
    exact hbefore
  · rename_i hcjk
    rw [if_neg hcjk] at hpt
    obtain ⟨k, hk, hplace, hwidth⟩ := h.lastBreak pt hpt
    refine ⟨k, by simp; omega, ?_⟩
    rw [List.take_append_of_le_length hk]
    exact ⟨hplace, hwidth⟩

-- So is the place where the line is broken.
theorem Laid.break (h : Laid cs cb s lines done line (c :: rest)) (h0 : 0 < c.toNat)
    (hc : Stored text s.p (utf8EncodeChar c)) :
    ∃ k ≤ (line ++ [c]).length,
      (s.break text).1 = (bytes done).length + (bytes ((line ++ [c]).take k)).length ∧
      (s.break text).2 = lineW ((line ++ [c]).take k) := by
  have hhard : ∃ k ≤ (line ++ [c]).length,
      s.p = (bytes done).length + (bytes ((line ++ [c]).take k)).length ∧
      s.curLineW = lineW ((line ++ [c]).take k) := by
    refine ⟨line.length, by simp, ?_⟩
    rw [List.take_left]
    exact ⟨h.place, h.width⟩
  unfold Wrap.break Wrap.breakAt
  cases hlast : (s.last text).1 with
  | none => exact hhard
  | some pt =>
      dsimp only
      split
      · exact hhard
      · exact h.last h0 hc hlast

-- The characters up to a place on the line, and what is left behind it.
theorem Laid.split (h : Laid cs cb s lines done line (c :: rest)) (k : Nat) :
    cs = done ++ (line ++ [c]).take k ++ ((line ++ [c]).drop k ++ rest) := by
  rw [h.text, ← List.append_assoc, List.append_assoc done ((line ++ [c]).take k),
    List.take_append_drop]
  simp

theorem Laid.stored_take (h : Laid cs cb s lines done line (c :: rest))
    (htext : TextAt text 0 cs) {k : Nat} :
    Stored text s.lineStart (bytes ((line ++ [c]).take k)) := by
  rw [h.lineStart]
  exact stored_between htext (h.split k)

theorem inLine_concat {c : Char} (hline : ∀ c ∈ line, InLine c) (h0 : 0 < c.toNat)
    (hc : Stored text s.p (utf8EncodeChar c)) (hnl : ¬IsNewline (text s.p)) :
    ∀ d ∈ line ++ [c], InLine d := by
  intro d hd
  rcases List.mem_append.mp hd with hd | hd
  · exact hline d hd
  · cases List.mem_singleton.mp hd
    refine ⟨h0, fun hlf => hnl (.inl ?_), fun hcr => hnl (.inr ?_)⟩
    · exact (head_eq_iff (by decide) hc).mpr hlf
    · exact (head_eq_iff (by decide) hc).mpr hcr

theorem eq_of_toNat {c d : Char} (h : c.toNat = d.toNat) : c = d := by
  rw [← Char.ofNat_toNat c, h, Char.ofNat_toNat]

-- The newline at `p` with its second byte, and what is left behind it.
theorem newline_rest {c : Char} {tail : List Char} (hcs : ∀ c ∈ tail, 0 < c.toNat)
    (hc : Stored text s.p (utf8EncodeChar c))
    (htail : TextAt text (s.p + (utf8EncodeChar c).length) tail) (hnl : IsNewline (text s.p)) :
    ∃ nl rest, IsLineEnd nl ∧ c :: tail = nl ++ rest ∧
      s.afterNewline text = s.p + (bytes nl).length := by
  have hlf : text s.p = 0x0A ↔ c = '\n' := by
    rw [head_eq_iff (by decide) hc]
    exact ⟨fun h => eq_of_toNat (d := '\n') h, fun h => h ▸ rfl⟩
  have hcr : text s.p = 0x0D ↔ c = '\r' := by
    rw [head_eq_iff (by decide) hc]
    exact ⟨fun h => eq_of_toNat (d := '\r') h, fun h => h ▸ rfl⟩
  have hnl' : c = '\n' ∨ c = '\r' := hnl.imp hlf.mp hcr.mp
  have hlen : (utf8EncodeChar c).length = 1 := by
    rcases hnl' with rfl | rfl <;> rfl
  rw [hlen] at htail
  unfold Wrap.afterNewline
  by_cases hpair : text (s.p + 1) = 0x0A ∧ text s.p = 0x0D
  · rw [if_pos hpair]
    cases tail with
    | nil =>
        have h0 : text (s.p + 1) = 0 := htail.terminator
        rw [h0] at hpair
        exact absurd hpair.1 (by decide)
    | cons d tail =>
        have hd := (head_eq_iff (by decide) (textAt_cons.mp htail).1).mp hpair.1
        refine ⟨['\r', '\n'], tail, .inr (.inr rfl), ?_, rfl⟩
        rw [hcr.mp hpair.2, eq_of_toNat (d := '\n') hd]
        rfl
  · rw [if_neg hpair]
    refine ⟨[c], tail, ?_, rfl, by simp [hlen]⟩
    rcases hnl' with rfl | rfl
    · exact .inl rfl
    · exact .inr (.inl rfl)

theorem describes_next (htext : TextAt text 0 cs) (hcs : ∀ c ∈ cs, 0 < c.toNat) {maxW : Int}
    {t : Wrap} (h : Describes cs cb s) (ht : s.Turn text maxW cb t) : Describes cs cb t := by
  unfold Describes at h
  cases ht with
  | skip hpoint hsp =>
      rw [hpoint] at h
      obtain ⟨lines, done, line, k, rest, h⟩ := h
      have hrest := textAt_behind htext h.text
      rw [← h.place] at hrest
      cases rest with
      | nil =>
          have hz : text s.p = 0 := hrest.terminator
          rw [hz] at hsp
          exact absurd hsp (by decide)
      | cons c rest =>
          have hsp' := (head_eq_iff (by decide) (textAt_cons.mp hrest).1).mp hsp
          have hc : c = ' ' := eq_of_toNat (d := ' ') hsp'
          subst hc
          unfold Describes
          simp only [hpoint]
          refine ⟨lines, done, line, k + 1, rest, ?_, h.wrapped, h.inLine, ?_, h.lineIdx, h.calls⟩
          · rw [h.text, List.replicate_succ']
            simp
          · simp only [h.place, List.replicate_succ', bytes_append, List.length_append]
            rfl
  | resume hpoint hne =>
      rw [hpoint] at h
      obtain ⟨lines, done, line, k, rest, h⟩ := h
      exact ⟨lines ++ [line], done ++ line ++ List.replicate k ' ', [], rest,
        laid_newLine h.text (.wrap k h.wrapped h.inLine) h.place h.lineIdx h.calls⟩
  | newline hpoint hne hnl =>
      rw [hpoint] at h
      obtain ⟨lines, done, line, rest, h⟩ := h
      obtain ⟨c, tail, rfl, h0, hc, htail⟩ := h.exists_char htext hcs hne
      have htailcs : ∀ c ∈ tail, 0 < c.toNat := fun d hd => hcs d (by rw [h.text]; simp [hd])
      obtain ⟨nl, rest, hend, hsplit, hafter⟩ := newline_rest htailcs hc htail hnl
      rw [emitted_eq (h.textAt htext).1 (by rw [h.place, h.lineStart]) h.width]
      refine ⟨lines ++ [line], done ++ line ++ nl, [], rest,
        laid_newLine ?_ (.newline h.wrapped h.inLine hend) ?_ ?_ ?_⟩
      · rw [h.text, hsplit]
        simp only [List.append_assoc]
      · rw [hafter, h.place]
        simp only [bytes_append, List.length_append]
      · simp [h.lineIdx]
      · simp only [recorded_concat, h.calls, h.lineIdx]
  | wrap hpoint hne hnl hover =>
      rw [hpoint] at h
      obtain ⟨lines, done, line, rest, h⟩ := h
      obtain ⟨c, tail, rfl, h0, hc, htail⟩ := h.exists_char htext hcs hne
      obtain ⟨k, hk, hplace, hwidth⟩ := h.break h0 hc
      have hall := inLine_concat h.inLine h0 hc hnl
      rw [emitted_eq (h.stored_take htext) (by rw [hplace, h.lineStart]) hwidth]
      refine ⟨lines, done, (line ++ [c]).take k, 0, (line ++ [c]).drop k ++ tail, ?_, h.wrapped,
        fun d hd => hall d (List.mem_of_mem_take hd), ?_, ?_, ?_⟩
      · simpa using h.split k
      · simpa using hplace
      · simp [h.lineIdx]
      · simp only [recorded_concat, h.calls, h.lineIdx]
  | pass hpoint hne hnl hover =>
      rw [hpoint] at h
      obtain ⟨lines, done, line, rest, h⟩ := h
      obtain ⟨c, tail, rfl, h0, hc, htail⟩ := h.exists_char htext hcs hne
      unfold Describes
      simp only [hpoint]
      refine ⟨lines, done, line ++ [c], tail, ?_, h.wrapped, inLine_concat h.inLine h0 hc hnl,
        h.lineStart, ?_, ?_, ?_, fun pt hpt => h.last h0 hc hpt, h.lineIdx, h.calls⟩
      · simp [h.text]
      · rw [h.place, step_len h0 hc, bytes_concat_length, Nat.add_assoc]
      · rw [h.width, adv_eq h0 hc h.prev]
      · rw [lastCode_concat, Wrap.adv, code_eq h0 hc, h.prev]

theorem finish_val (s : Wrap) (text : Memory) (cb : Bool) :
    (s.finish text cb).val =
      if s.p > s.lineStart ∨ s.lineIdx = 0 then
        ((s.emitted text cb s.p s.curLineW).lineIdx, (s.emitted text cb s.p s.curLineW).calls)
      else (s.lineIdx, s.calls) := by
  unfold Wrap.finish
  rw [val_ite, val_bind, Wrap.emit_val]
  rfl

theorem bytes_eq_nil (h : (bytes line).length = 0) : line = [] := by
  cases line with
  | nil => rfl
  | cons c line =>
      have hpos := encode_length_pos c
      rw [bytes_cons, List.length_append] at h
      omega

theorem describes_stop (htext : TextAt text 0 cs) (hcs : ∀ c ∈ cs, 0 < c.toNat) {maxW : Int}
    {r : Nat × List WrapLine} (h : Describes cs cb s)
    (hr : (wrapTurn text maxW cb s).val = .inr r) :
    ∃ lines, Wrapped lines cs ∧ r = (lines.length, recorded cb lines) := by
  obtain ⟨hpoint, h0, hval⟩ := wrapTurn_stop hr
  unfold Describes at h
  rw [hpoint] at h
  obtain ⟨lines, done, line, rest, h⟩ := h
  have hrest := h.nil_of_zero htext hcs h0
  subst hrest
  have hcs' : cs = done ++ line := by simpa using h.text
  rw [finish_val, emitted_eq (h.textAt htext).1 (by rw [h.place, h.lineStart]) h.width] at hval
  split at hval
  · refine ⟨lines ++ [line], ?_, ?_⟩
    · have hwrap := Wrapped.wrap 0 h.wrapped h.inLine
      rw [List.replicate_zero, List.append_nil] at hwrap
      exact hcs' ▸ hwrap
    · rw [← hval, recorded_concat, h.calls, h.lineIdx]
      simp
  · rename_i hnone
    have hplace := h.place
    have hstart := h.lineStart
    have hnil : line = [] := bytes_eq_nil (by omega)
    refine ⟨lines, ?_, ?_⟩
    · rw [hcs', hnil, List.append_nil]
      exact h.wrapped
    · rw [← hval, h.calls, h.lineIdx]

theorem whole_of_textAt {i : Nat} (htext : TextAt text i cs) (hcs : ∀ c ∈ cs, 0 < c.toNat) :
    Whole text (i + (bytes cs).length) i := by
  induction cs generalizing i with
  | nil => exact .nil
  | cons c cs ih =>
      obtain ⟨h0, hrest⟩ := List.forall_mem_cons.mp hcs
      obtain ⟨hhead, htail⟩ := textAt_cons.mp htext
      have hne := head_ne_zero h0 hhead
      have hlen : leadStep (text i) = (utf8EncodeChar c).length :=
        (stepOf_eq hne).symm.trans (stepOf_char h0 hhead)
      refine .char hne ?_
      rw [hlen, bytes_cons, List.length_append, ← Nat.add_assoc]
      exact ih htail hrest

-- Without a callback the states are the same but for the calls.
def Wrap.uncalled (s : Wrap) : Wrap := { s with calls := [] }

theorem finish_uncalled (s : Wrap) (text : Memory) :
    (s.uncalled.finish text false).val = ((s.finish text true).val.1, []) := by
  rw [finish_val, finish_val]
  change (if s.p > s.lineStart ∨ s.lineIdx = 0 then _ else _) = _
  split <;> rfl

theorem newlineTurn_uncalled (s : Wrap) (text : Memory) (b : UB) :
    (s.uncalled.newlineTurn text false b).val = (s.newlineTurn text true b).val.uncalled := by
  unfold Wrap.newlineTurn
  rw [val_bind, Wrap.emit_val, val_read_bind, val_bind, Wrap.emit_val, val_read_bind]
  rfl

theorem charTurn_uncalled (s : Wrap) (text : Memory) (maxW : Int) (b : UB) :
    (s.uncalled.charTurn text maxW false b).val = (s.charTurn text maxW true b).val.uncalled := by
  unfold Wrap.charTurn
  rw [val_bind, val_bind, val_ite, val_ite]
  change (if s.Overflows text maxW then _ else _) =
    Wrap.uncalled (if s.Overflows text maxW then _ else _)
  split
  · rw [val_bind, val_bind, Wrap.emit_val, Wrap.emit_val]
    rfl
  · rfl

theorem wrapTurn_uncalled (text : Memory) (maxW : Int) (s : Wrap) :
    (wrapTurn text maxW false s.uncalled).val =
      (wrapTurn text maxW true s).val.map Wrap.uncalled fun r => (r.1, []) := by
  rw [wrapTurn, wrapTurn, val_read_bind, val_read_bind]
  have hpoint : s.uncalled.point = s.point := rfl
  rw [hpoint]
  cases s.point with
  | spaces =>
      change Sum.inl (if text s.p = 0x20 then _ else _) =
        Sum.inl (Wrap.uncalled (if text s.p = 0x20 then _ else _))
      split <;> rfl
  | character =>
      change (if text s.p = 0 then _ else _ : Logged _).val =
        Sum.map _ _ (if text s.p = 0 then _ else _ : Logged _).val
      split
      · rw [val_bind, finish_uncalled]
        rfl
      change (if text s.p = 0x0A ∨ text s.p = 0x0D then _ else _ : Logged _).val =
        Sum.map _ _ (if text s.p = 0x0A ∨ text s.p = 0x0D then _ else _ : Logged _).val
      split
      · exact congrArg Sum.inl (newlineTurn_uncalled s text _)
      · exact congrArg Sum.inl (charTurn_uncalled s text maxW _)

theorem ends_uncalled {text : Memory} {maxW : Int} {x : Logged (Nat × List WrapLine)}
    (h : Ends (wrapTurn text maxW true) s x) :
    ∃ y, Ends (wrapTurn text maxW false) s.uncalled y ∧ y.val = (x.val.1, []) := by
  induction h with
  | @stop s b hturn =>
      have huncalled := wrapTurn_uncalled text maxW s
      rw [hturn] at huncalled
      exact ⟨_, .stop huncalled, rfl⟩
  | @next s t x hturn _ ih =>
      have huncalled := wrapTurn_uncalled text maxW s
      rw [hturn] at huncalled
      obtain ⟨y, hy, hval⟩ := ih
      exact ⟨_, .next huncalled hy, hval⟩

theorem gives_of_ends {maxW : Int} {x : Logged (Nat × List WrapLine)} (hne : text 0 ≠ 0)
    (h : Ends (wrapTurn text (if maxW < 40 then 40 else maxW) cb) Wrap.start x) :
    Gives (fun fuel => tadBrowserWrapText fuel text maxW cb) x.val := by
  obtain ⟨fuel, hfuel⟩ := h.gives
  refine ⟨fuel, ?_⟩
  simp only [tadBrowserWrapText, val_read_bind, if_neg hne]
  exact hfuel

theorem empty_of_zero (htext : TextAt text 0 cs) (hcs : ∀ c ∈ cs, 0 < c.toNat)
    (h0 : text 0 = 0) : cs = [] := by
  cases cs with
  | nil => rfl
  | cons c cs => exact absurd h0 (head_ne_zero (hcs c (by simp)) (textAt_cons.mp htext).1)

-- The lines of a text, the calls of the callback, and the same count without it, whatever the
-- width.
theorem wrap_gives (htext : TextAt text 0 cs) (hcs : ∀ c ∈ cs, 0 < c.toNat) (maxW : Int) :
    ∃ lines, Wrapped lines cs ∧
      Gives (fun fuel => tadBrowserWrapText fuel text maxW true)
        (lines.length, lines.mapIdx record) ∧
      Gives (fun fuel => tadBrowserWrapText fuel text maxW false) (lines.length, []) := by
  by_cases hne : text 0 = 0
  · have hnil := empty_of_zero htext hcs hne
    subst hnil
    refine ⟨[[]], .wrap 0 .nil (by simp), ⟨0, ?_⟩, ⟨0, ?_⟩⟩
    · simp only [tadBrowserWrapText, val_read_bind, if_pos hne]
      rfl
    · simp only [tadBrowserWrapText, val_read_bind, if_pos hne]
      rfl
  · have hwhole := whole_of_textAt htext hcs
    have hend := htext.terminator
    rw [Nat.zero_add] at hwhole hend
    obtain ⟨x, hx, -⟩ := wrap_ends hend hwhole
      (if maxW < 40 then 40 else maxW) true
    obtain ⟨lines, hlines, hval⟩ := hx.result (I := Describes cs true)
      (Q := fun r => ∃ lines, Wrapped lines cs ∧ r = (lines.length, recorded true lines))
      (fun _ _ hs hnext => describes_next htext hcs hs (wrapTurn_next hnext))
      (fun _ _ hs hstop => describes_stop htext hcs hs hstop) (describes_start cs true)
    obtain ⟨y, hy, hcount⟩ := ends_uncalled hx
    have hgives := gives_of_ends hne hx
    have hgives' := gives_of_ends hne hy
    rw [hcount, hval] at hgives'
    rw [hval] at hgives
    exact ⟨lines, hlines, hgives, hgives'⟩

theorem Wrapped.line_le {lines : List (List Char)} (h : Wrapped lines cs) :
    ∀ line ∈ lines, (bytes line).length ≤ (bytes cs).length := by
  induction h with
  | nil => simp
  | newline _ _ _ ih =>
      intro line hline
      simp only [bytes_append, List.length_append]
      rcases List.mem_append.mp hline with hline | hline
      · have := ih line hline
        omega
      · cases List.mem_singleton.mp hline
        omega
  | wrap k _ _ ih =>
      intro line hline
      simp only [bytes_append, List.length_append]
      rcases List.mem_append.mp hline with hline | hline
      · have := ih line hline
        omega
      · cases List.mem_singleton.mp hline
        omega

theorem record_bufs {lines : List (List Char)}
    (h : ∀ line ∈ lines, (bytes line).length ≤ 511) :
    (lines.mapIdx record).map (·.buf) = lines.map bytes := by
  apply List.ext_getElem
  · simp
  · intro i hi hi'
    simp only [List.getElem_map, List.getElem_mapIdx, record]
    exact List.take_of_length_le (h _ (List.getElem_mem _))

theorem record_idxs (lines : List (List Char)) :
    (lines.mapIdx record).map (·.lineIdx) = List.range lines.length := by
  apply List.ext_getElem
  · simp
  · intro i hi hi'
    simp [record]

-- A text that fits into the buffer goes to the callback line by line, and nothing is left out
-- but the newlines and the spaces at the front of wrapped lines.
theorem wrap_text (htext : TextAt text 0 cs) (hcs : ∀ c ∈ cs, 0 < c.toNat)
    (hlen : (bytes cs).length ≤ 511) (maxW : Int) :
    ∃ n calls, Gives (fun fuel => tadBrowserWrapText fuel text maxW true) (n, calls) ∧
      Gives (fun fuel => tadBrowserWrapText fuel text maxW false) (n, []) ∧
      calls.length = n ∧ calls.map (·.lineIdx) = List.range n ∧
      ∃ lines, calls.map (·.buf) = lines.map bytes ∧ Wrapped lines cs := by
  obtain ⟨lines, hlines, hgives, hgives'⟩ := wrap_gives htext hcs maxW
  refine ⟨_, _, hgives, hgives', List.length_mapIdx, record_idxs lines, lines,
    record_bufs fun line hline => ?_, hlines⟩
  exact Nat.le_trans (hlines.line_le line hline) hlen

theorem wrap_text_two_words :
    ∃ n calls,
      Gives (fun fuel => tadBrowserWrapText fuel (ofList (bytes "to be".toList ++ [0])) 40 true)
        (n, calls) ∧
      Gives (fun fuel => tadBrowserWrapText fuel (ofList (bytes "to be".toList ++ [0])) 40 false)
        (n, []) ∧
      calls.length = n ∧ calls.map (·.lineIdx) = List.range n ∧
      ∃ lines, calls.map (·.buf) = lines.map bytes ∧ Wrapped lines "to be".toList :=
  wrap_text (stored_ofList _) (by simp) (by decide) 40

-- Two spaces are left out between two lines of five characters.
example :
    (tadBrowserWrapText 20 (ofList (bytes "abcde  fg".toList)) 40 true).val =
      some (2, [⟨bytes "abcde".toList, 40, 0⟩, ⟨bytes "fg".toList, 16, 1⟩]) := by
  decide +kernel

end BTron.TadBrowser

namespace BTron.TadBrowser

open Lib Lib.Logged TronCode

variable {text : Memory} {n m i : Nat} {maxW : Int} {cb : Bool} {s t : Wrap}
  {r r' : Nat × List WrapLine}

theorem leadStep_le (b : UB) : leadStep b ≤ 4 := by
  unfold leadStep
  split_ifs <;> decide

theorem whole_trans (h : Whole text m i) (hm : Whole text n m) : Whole text n i := by
  induction h with
  | nil => exact hm
  | char hne _ ih => exact .char hne ih

-- Going on character by character ends within four cells from the first NUL.
theorem exists_whole (hne : ∀ k < m, text k ≠ 0) (hi : i ≤ m) :
    ∃ n, m ≤ n ∧ n ≤ m + 3 ∧ Whole text n i := by
  obtain ⟨d, hd⟩ : ∃ d, m - i = d := ⟨_, rfl⟩
  induction d using Nat.strong_induction_on generalizing i with
  | _ d ih =>
      by_cases hlt : i < m
      · have hpos := leadStep_pos (text i)
        have hle := leadStep_le (text i)
        by_cases hin : i + leadStep (text i) ≤ m
        · obtain ⟨n, hlo, hhi, hwhole⟩ := ih _ (by omega) hin rfl
          exact ⟨n, hlo, hhi, .char (hne i hlt) hwhole⟩
        · exact ⟨i + leadStep (text i), by omega, by omega, .char (hne i hlt) .nil⟩
      · obtain rfl : i = m := by omega
        exact ⟨i, Nat.le_refl i, Nat.le_add_right i 3, .nil⟩

theorem wrap_mono {fuel fuel' : Nat} (h : (tadBrowserWrapText fuel text maxW cb).val = some r)
    (hle : fuel ≤ fuel') : (tadBrowserWrapText fuel' text maxW cb).val = some r := by
  simp only [tadBrowserWrapText, val_read_bind] at h ⊢
  split at h
  · rename_i h0
    rw [if_pos h0]
    exact h
  · rename_i hne
    rw [if_neg hne, loop_mono h hle]
    exact h

theorem wrap_unique (h : Gives (fun fuel => tadBrowserWrapText fuel text maxW cb) r)
    (h' : Gives (fun fuel => tadBrowserWrapText fuel text maxW cb) r') : r = r' := by
  obtain ⟨fuel, h⟩ := h
  obtain ⟨fuel', h'⟩ := h'
  have hmax := wrap_mono h (Nat.le_max_left fuel fuel')
  have hmax' := wrap_mono h' (Nat.le_max_right fuel fuel')
  exact Option.some.inj (hmax.symm.trans hmax')

-- The lines that are done are not more than the bytes before the next one, and not more than the
-- places with a byte. There is room for one more where the next one has begun.
def Counted (m : Nat) (s : Wrap) : Prop :=
  s.lineIdx ≤ m ∧ match s.point with
    | .character => s.lineIdx ≤ s.lineStart ∧ (s.lineStart < s.p → s.lineIdx < m)
    | .spaces => s.lineIdx ≤ s.p

theorem counted_newLine {p : Nat} (hm : s.lineIdx ≤ m) (hp : s.lineIdx ≤ p) :
    Counted m (s.newLine p) :=
  ⟨hm, hp, fun hlt => absurd hlt (Nat.lt_irrefl p)⟩

theorem counted_next (hend : text n = 0) (hm : ∀ i, Whole text n i → text i ≠ 0 → i < m)
    (hs : Safe text n s) (h : Counted m s) (ht : s.Turn text maxW cb t) : Counted m t := by
  have hstart := hs.start_le
  unfold Counted at h
  cases ht with
  | skip hpoint _ =>
      simp only [hpoint] at h
      unfold Counted
      simp only [hpoint]
      omega
  | resume hpoint _ =>
      simp only [hpoint] at h
      exact counted_newLine h.1 h.2
  | newline hpoint hne _ =>
      have hlt := hm s.p hs.place hne
      have hafter : s.p < s.afterNewline text := by
        unfold Wrap.afterNewline
        split <;> omega
      simp only [hpoint] at h
      have hidx : s.lineIdx + 1 ≤ s.p + 1 := by omega
      exact counted_newLine (Nat.le_trans hidx hlt) (Nat.le_trans hidx hafter)
  | wrap hpoint hne _ hover =>
      have hlt := hm s.p hs.place hne
      have hbreak := (break_whole hend hs hne hover.2).2
      simp only [hpoint] at h
      have hidx : s.lineIdx + 1 ≤ s.lineStart + 1 := by omega
      exact ⟨Nat.le_trans hidx (Nat.lt_of_le_of_lt hstart hlt), Nat.le_trans hidx hbreak⟩
  | pass hpoint hne _ _ =>
      have hlt := hm s.p hs.place hne
      simp only [hpoint] at h
      unfold Counted
      simp only [hpoint]
      omega

-- A text with a byte has a line, and not more lines than places with a byte.
theorem lines_bounds (hend : text n = 0) (hwhole : Whole text n 0)
    (hm : ∀ i, Whole text n i → text i ≠ 0 → i < m) (hne : text 0 ≠ 0) (maxW : Int) (cb : Bool) :
    ∃ r, Gives (fun fuel => tadBrowserWrapText fuel text maxW cb) r ∧ 1 ≤ r.1 ∧ r.1 ≤ m := by
  obtain ⟨x, hx, -⟩ := wrap_ends hend hwhole (if maxW < 40 then 40 else maxW) cb
  have hpos := hm 0 hwhole hne
  refine ⟨x.val, gives_of_ends hne hx, ?_⟩
  refine hx.result (I := fun s => Safe text n s ∧ Counted m s)
    (Q := fun r : Nat × List WrapLine => 1 ≤ r.1 ∧ r.1 ≤ m) (fun s t hs hnext => ?_)
    (fun s r hs hstop => ?_)
    ⟨safe_fresh hwhole rfl rfl rfl, Nat.zero_le _, Nat.zero_le _, fun _ => hpos⟩
  · have hturn := wrapTurn_next hnext
    exact ⟨(safe_next hend hs.1 hturn).1, counted_next hend hm hs.1 hs.2 hturn⟩
  · obtain ⟨hpoint, -, hval⟩ := wrapTurn_stop hstop
    obtain ⟨hsafe, hcount⟩ := hs
    unfold Counted at hcount
    simp only [hpoint] at hcount
    rw [finish_val] at hval
    split at hval
    · rename_i hmore
      subst hval
      change 1 ≤ s.lineIdx + 1 ∧ s.lineIdx + 1 ≤ m
      omega
    · rename_i hdone
      subst hval
      dsimp only
      omega

end BTron.TadBrowser
