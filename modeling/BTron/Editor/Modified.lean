import BTron.Editor.Reachable

namespace BTron.Editor

open AppMenu Lib Lib.CArray TronCode Window

-- The text of a line, and the lines of the buffer.
def lineText (a : Bytes) : List UB :=
  cstr ((List.range TEDITOR_MAX_COLS.toNat).map fun (k : Nat) => a k)

def contents (ed : TEditor) : List (List UB) :=
  (List.range ed.totalLines.toNat).map fun (r : Nat) => lineText (ed.lines r)

-- The lines that are loaded of a file: as many as there is room for, each cut to its slot.
def loadedText (bytes : List UB) : List (List UB) :=
  let rows := readRows TEDITOR_MAX_ROWS.toNat bytes
  if rows = [] then [[]] else rows.map fun row => Lib.strncpy row (TEDITOR_MAX_COLS - 1).toNat

theorem lineText_eq {a : Bytes} {text : List UB} (h0 : 0 ∉ text) (hlen : text.length ≤ 511)
    (hbytes : ∀ (k : Nat) (hk : k < text.length), a k = text.get ⟨k, hk⟩)
    (hend : a text.length = 0) : lineText a = text := by
  have hcols : TEDITOR_MAX_COLS.toNat = text.length + (511 - text.length + 1) := by
    show 512 = _
    omega
  have htext : ((List.range text.length).map fun (k : Nat) => a k) = text := by
    apply List.ext_getElem
    · rw [List.length_map, List.length_range]
    · intro k hk hk'
      rw [List.getElem_map, List.getElem_range]
      exact hbytes k hk'
  rw [lineText, hcols, List.range_add, List.map_append, htext, cstr_append h0,
    List.range_succ_eq_map]
  simp only [List.map_cons, Nat.add_zero, hend]
  exact List.append_nil text

theorem lineText_empty {a : Bytes} (h : a 0 = 0) : lineText a = [] :=
  lineText_eq List.not_mem_nil (Nat.zero_le _) (fun k hk => absurd hk (Nat.not_lt_zero k)) h

theorem lineText_slotOf (row : List UB) :
    lineText (slotOf row) = Lib.strncpy row (TEDITOR_MAX_COLS - 1).toNat := by
  apply lineText_eq (zero_notMem_strncpy row _)
  · rw [Lib.strncpy, List.length_take]
    exact Nat.min_le_left _ _
  · intro k hk
    rw [slotOf, CArray.ofList, if_pos (by omega), Int.toNat_natCast, List.getD_eq_getElem?_getD,
      List.getElem?_eq_getElem hk]
    rfl
  · rw [slotOf, CArray.ofList, if_pos (by omega), Int.toNat_natCast]
    exact List.getD_eq_default _ _ (Nat.le_refl _)

-- A buffer of one empty line.
theorem contents_empty {ed : TEditor} (htotal : ed.totalLines = 1) (hline : ed.lines 0 0 = 0) :
    contents ed = [[]] := by
  rw [contents, htotal]
  exact congrArg (fun text => [text]) (lineText_empty hline)

theorem contents_load (ed : TEditor) (path bytes : List UB) :
    contents (teditorLoadFile ed path (some bytes)).1 = loadedText bytes := by
  rw [teditorLoadFile, loadedText]
  by_cases hrows : readRows TEDITOR_MAX_ROWS.toNat bytes = []
  · simp only [hrows, if_true]
    exact contents_empty rfl rfl
  · simp only [hrows, if_false, contents, Int.toNat_natCast]
    apply List.ext_getElem
    · rw [List.length_map, List.length_map, List.length_range]
    · intro r hr hr'
      rw [List.length_map] at hr'
      rw [List.getElem_map, List.getElem_map, List.getElem_range, docLines, if_pos (by omega),
        Int.toNat_natCast, List.getElem?_eq_getElem hr']
      exact lineText_slotOf _

-- What the flag is about.
def TEditor.file (ed : TEditor) := (ed.lines, ed.totalLines, ed.isModified)

-- An edit sets the flag or leaves the buffer as it is.
def Marks (ed ed' : TEditor) : Prop := ed'.isModified = true ∨ ed'.file = ed.file

theorem Marks.refl (ed : TEditor) : Marks ed ed := Or.inr rfl

theorem Marks.trans {ed ed₁ ed₂ : TEditor} (h : Marks ed ed₁) (h' : Marks ed₁ ed₂) :
    Marks ed ed₂ := by
  cases h' with
  | inl hset => exact Or.inl hset
  | inr hsame =>
      cases h with
      | inl hset =>
          simp only [TEditor.file, Prod.mk.injEq] at hsame
          exact Or.inl (hsame.2.2.trans hset)
      | inr hsame' => exact Or.inr (hsame.trans hsame')

-- A computation that ends by setting the flag.
theorem marks_of_bind {α : Type} {x : Option α} {f : α → TEditor} {ed ed' : TEditor}
    (hset : ∀ a, (f a).isModified = true) (h : (x.bind fun a => some (f a)) = some ed') :
    Marks ed ed' := by
  obtain ⟨a, -, heq⟩ := Option.bind_eq_some_iff.mp h
  cases heq
  exact Or.inl (hset a)

theorem teditorDeleteSelection_marks {ed ed' : TEditor} (h : teditorDeleteSelection ed = some ed') :
    Marks ed ed' := by
  rw [teditorDeleteSelection] at h
  split at h
  · cases h
    exact .refl ed
  · simp only [Option.bind_eq_bind] at h
    split at h
    · exact marks_of_bind (fun _ => rfl) h
    · exact marks_of_bind (fun _ => rfl) h

theorem teditorInsertChar_marks {ed ed' : TEditor} {ch : UB}
    (h : teditorInsertChar ed ch = some ed') : Marks ed ed' := by
  simp only [teditorInsertChar, Option.bind_eq_bind, Option.bind_eq_some_iff] at h
  obtain ⟨ed₁, hdelete, a, -, len, -, h⟩ := h
  apply (teditorDeleteSelection_marks hdelete).trans
  split at h
  · simp only [Option.bind_eq_some_iff] at h
    obtain ⟨b, -, c, -, ed₂, hed₂, heq⟩ := h
    cases hed₂
    cases heq
    exact Or.inl rfl
  · cases h
    exact .refl ed₁

theorem insertAt_false {ed ed' : TEditor} {text : List UB}
    (h : insertAt ed text = some (ed', false)) : ed' = ed := by
  simp only [insertAt, Option.bind_eq_bind, Option.bind_eq_some_iff] at h
  obtain ⟨a, -, len, -, h⟩ := h
  split at h
  · simp only [Option.bind_eq_some_iff] at h
    obtain ⟨b, -, c, -, heq⟩ := h
    cases heq
  · cases h
    rfl

theorem teditorInsertText_marks {ed ed' : TEditor} {text : List UB}
    (h : teditorInsertText ed text = some ed') : Marks ed ed' := by
  rw [teditorInsertText] at h
  split at h
  · cases h
    exact .refl ed
  · simp only [Option.bind_eq_bind, Option.bind_eq_some_iff] at h
    obtain ⟨ed₁, hdelete, ⟨ed₂, inserted⟩, hinsert, h⟩ := h
    apply (teditorDeleteSelection_marks hdelete).trans
    cases inserted with
    | true =>
        cases h
        exact Or.inl rfl
    | false =>
        cases insertAt_false hinsert
        cases h
        exact .refl ed₁

theorem teditorPasteClipboard_marks {s s' : State} (h : teditorPasteClipboard s = some s') :
    Marks s.ed s'.ed := by
  simp only [teditorPasteClipboard, Option.bind_eq_bind, Option.bind_eq_some_iff] at h
  obtain ⟨p, -, h⟩ := h
  split at h
  · cases h
    exact .refl s.ed
  · simp only [Option.bind_eq_some_iff] at h
    obtain ⟨ed₁, -, ed₂, -, heq⟩ := h
    cases heq
    exact Or.inl rfl

theorem teditorInsertNewline_marks {ed ed' : TEditor} (h : teditorInsertNewline ed = some ed') :
    Marks ed ed' := by
  simp only [teditorInsertNewline, Option.bind_eq_bind, Option.bind_eq_some_iff] at h
  obtain ⟨ed₁, hdelete, h⟩ := h
  apply (teditorDeleteSelection_marks hdelete).trans
  split at h
  · cases h
    exact .refl ed'
  · exact marks_of_bind (fun _ => rfl) h

theorem teditorBackspace_marks {ed ed' : TEditor} (h : teditorBackspace ed = some ed') :
    Marks ed ed' := by
  rw [teditorBackspace] at h
  split at h
  · exact teditorDeleteSelection_marks h
  simp only [Option.bind_eq_bind] at h
  split at h
  · simp only [Option.bind_eq_some_iff] at h
    obtain ⟨a, -, prev, -, len, -, b, -, heq⟩ := h
    cases heq
    exact Or.inl rfl
  split at h
  · simp only [Option.bind_eq_some_iff] at h
    obtain ⟨a, -, prevLen, -, b, -, curLen, -, h⟩ := h
    split at h
    · exact marks_of_bind (fun _ => rfl) h
    · cases h
      exact .refl ed
  · cases h
    exact .refl ed

theorem teditorDeleteCharForward_marks {ed ed' : TEditor}
    (h : teditorDeleteCharForward ed = some ed') : Marks ed ed' := by
  rw [teditorDeleteCharForward] at h
  split at h
  · exact teditorDeleteSelection_marks h
  simp only [Option.bind_eq_bind, Option.bind_eq_some_iff] at h
  obtain ⟨a, -, len, -, h⟩ := h
  split at h
  · simp only [Option.bind_eq_some_iff] at h
    obtain ⟨next, -, b, -, heq⟩ := h
    cases heq
    exact Or.inl rfl
  split at h
  · simp only [Option.bind_eq_some_iff] at h
    obtain ⟨b, -, nextLen, -, h⟩ := h
    split at h
    · exact marks_of_bind (fun _ => rfl) h
    · cases h
      exact .refl ed
  · cases h
    exact .refl ed

-- The clipboard and the cursor are not part of the buffer.
theorem teditorCopySelection_ed {s s' : State} (h : teditorCopySelection s = some s') :
    s'.ed = s.ed := by
  rw [teditorCopySelection] at h
  split at h
  · simp only [Option.bind_eq_bind, Option.bind_eq_some_iff] at h
    obtain ⟨a, -, clip, -, heq⟩ := h
    cases heq
    rfl
  · simp only [Option.bind_eq_bind] at h
    obtain ⟨clip, -, h⟩ := Option.bind_eq_some_iff.mp h
    by_cases hrows : s.ed.selection.1 = s.ed.selection.2.2.1
    · rw [if_pos hrows] at h
      obtain ⟨a, -, h⟩ := Option.bind_eq_some_iff.mp h
      obtain ⟨len, -, h⟩ := Option.bind_eq_some_iff.mp h
      generalize (if s.ed.selection.2.2.2 < len then s.ed.selection.2.2.2 else len) = endC at h
      split at h
      · simp only [Option.bind_eq_some_iff] at h
        obtain ⟨stop, -, clip₁, -, clip₂, -, heq⟩ := h
        cases heq
        rfl
      · cases h
        rfl
    · rw [if_neg hrows] at h
      obtain ⟨clip', -, heq⟩ := Option.bind_eq_some_iff.mp h
      cases heq
      rfl

theorem cutSelection_marks {s s' : State} (h : cutSelection s = some s') : Marks s.ed s'.ed := by
  simp only [cutSelection, Option.bind_eq_bind, Option.bind_eq_some_iff] at h
  obtain ⟨s₁, hcopy, ed, hdelete, heq⟩ := h
  cases heq
  have hmarks := teditorDeleteSelection_marks hdelete
  rwa [teditorCopySelection_ed hcopy] at hmarks

theorem selectAll_file {ed ed' : TEditor} (h : selectAll ed = some ed') : ed'.file = ed.file := by
  simp only [selectAll, Option.bind_eq_bind, Option.bind_eq_some_iff] at h
  obtain ⟨a, -, len, -, heq⟩ := h
  cases heq
  rfl

theorem cursorToRow_file {ed ed' : TEditor} {r : Int} (h : cursorToRow ed r = some ed') :
    ed'.file = ed.file := by
  simp only [cursorToRow, Option.bind_eq_bind, Option.bind_eq_some_iff] at h
  obtain ⟨a, -, len, -, heq⟩ := h
  cases heq
  rfl

theorem cursorLeft_file {ed ed' : TEditor} (h : cursorLeft ed = some ed') :
    ed'.file = ed.file := by
  rw [cursorLeft] at h
  split at h
  · simp only [Option.bind_eq_bind, Option.bind_eq_some_iff] at h
    obtain ⟨a, -, col, -, heq⟩ := h
    cases heq
    rfl
  split at h
  · simp only [Option.bind_eq_bind, Option.bind_eq_some_iff] at h
    obtain ⟨a, -, len, -, heq⟩ := h
    cases heq
    rfl
  · cases h
    rfl

theorem cursorRight_file {ed ed' : TEditor} (h : cursorRight ed = some ed') :
    ed'.file = ed.file := by
  simp only [cursorRight, Option.bind_eq_bind, Option.bind_eq_some_iff] at h
  obtain ⟨a, -, len, -, h⟩ := h
  split at h
  · simp only [Option.bind_eq_some_iff] at h
    obtain ⟨col, -, heq⟩ := h
    cases heq
    rfl
  split at h
  · cases h
    rfl
  · cases h
    rfl

theorem arrowKey_marks {ed ed' : TEditor} {shift : Bool} {move : TEditor → Option TEditor}
    (hmove : ∀ {ed ed'}, move ed = some ed' → ed'.file = ed.file)
    (h : arrowKey ed shift move = some ed') : Marks ed ed' := by
  rw [arrowKey, Option.bind_eq_bind, Option.bind_eq_some_iff] at h
  obtain ⟨ed₁, hmoved, heq⟩ := h
  cases heq
  have hstart : (startSelection ed shift).file = ed.file := by
    rw [startSelection]
    split <;> rfl
  have hend : (endSelection ed₁ shift).file = ed₁.file := by
    rw [endSelection]
    split <;> rfl
  exact Or.inr (hend.trans ((hmove hmoved).trans hstart))

theorem unselect_marks {ed ed' : TEditor} {result : Option TEditor}
    (hresult : ∀ {ed₁}, result = some ed₁ → ed₁.file = ed.file)
    (h : result.map unselect = some ed') : Marks ed ed' := by
  rw [Option.map_eq_some_iff] at h
  obtain ⟨ed₁, heq, rfl⟩ := h
  have hfile := hresult heq
  exact Or.inr hfile

theorem Marks.ite {c : Prop} [Decidable c] {a b : Option TEditor} {ed ed' : TEditor}
    (ha : a = some ed' → Marks ed ed') (hb : b = some ed' → Marks ed ed')
    (h : (if c then a else b) = some ed') : Marks ed ed' := by
  split at h
  · exact ha h
  · exact hb h

theorem plainKey_marks {ed ed' : TEditor} {sym mod : Nat} (h : plainKey ed sym mod = some ed') :
    Marks ed ed' := by
  have hstay : ∀ {ed₁}, some ed₁ = some ed' → ed₁.file = ed.file → Marks ed ed' := by
    intro ed₁ heq hfile
    cases heq
    exact Or.inr hfile
  revert h
  rw [plainKey]
  -- the keys one after the other, in the order they are asked for
  apply Marks.ite teditorInsertNewline_marks
  apply Marks.ite teditorBackspace_marks
  apply Marks.ite teditorDeleteCharForward_marks
  apply Marks.ite (arrowKey_marks cursorLeft_file)
  apply Marks.ite (arrowKey_marks cursorRight_file)
  apply Marks.ite
  · apply Marks.ite (unselect_marks cursorToRow_file)
    exact fun heq => hstay heq rfl
  apply Marks.ite
  · apply Marks.ite (unselect_marks cursorToRow_file)
    exact fun heq => hstay heq rfl
  apply Marks.ite
  · exact fun heq => hstay heq rfl
  apply Marks.ite
  · intro heq
    simp only [Option.bind_eq_bind, Option.bind_eq_some_iff] at heq
    obtain ⟨a, -, len, -, heq⟩ := heq
    exact hstay heq rfl
  apply Marks.ite teditorInsertText_marks
  apply Marks.ite teditorInsertChar_marks
  exact fun heq => hstay heq rfl

theorem clickText_marks {ed ed' : TEditor} {wnd : Wnd} {relX relY : Int}
    (h : clickText ed wnd relX relY = some ed') : Marks ed ed' := by
  rw [clickText] at h
  split at h
  · cases h
    exact .refl ed
  split at h
  · simp only [Option.bind_eq_bind] at h
    split at h
    · simp only [Option.bind_eq_some_iff] at h
      obtain ⟨a, -, col, -, heq⟩ := h
      cases heq
      exact Or.inr rfl
    · cases h
      exact .refl ed
  · cases h
    exact .refl ed

-- What an input does to the document as a whole: nothing (it may edit it), a new one in its place,
-- a file loaded, the document written to its file, or the flag cleared without that.
inductive FileOp
  | keep
  | fresh
  | loaded (bytes : List UB)
  | written
  | cleared
deriving DecidableEq

def keyOp (key mod : Nat) (env : Env) : FileOp :=
  if env.tip.isSome ∨ mod &&& BTRON_KMOD_CTRL = 0 then .keep
  else if key = 0x73 ∨ key = 0x53 then .cleared
  else if key = 0x6E ∨ key = 0x4E then .fresh
  else .keep

def menuOp (env : Env) (cmd subIdx : Int) : FileOp :=
  if cmd = TCMD_FILE_NEW then .fresh
  else if cmd = TCMD_FILE_OPEN_ASSET then
    match (if subIdx ≥ 0 then env.assets[subIdx.toNat]? else none) with
    | some name => ((env.fs (assetPath env name)).map .loaded).getD .keep
    | none => .keep
  else if cmd = TCMD_FILE_SAVE then (if env.writable && env.written then .written else .cleared)
  else .keep

def fileOp (s : State) : Input → FileOp
  | .keyDown key mod env => keyOp key mod env
  | .butDown wnd x y env =>
    let click := appMenuHandleMouseDown s.ed.menuBar (clientPos wnd x y).1 (clientPos wnd x y).2
    if click.handled ∧ click.cmd ≠ 0 then menuOp env click.cmd click.subitem else .keep
  | .loadFile _ (some bytes) => .loaded bytes
  | .saveFile opened written =>
    if opened then (if written then .written else .cleared) else .keep
  | .closeFile => .fresh
  | _ => .keep

-- The lines last loaded or written, when they have been `base` before.
def FileOp.baseline (op : FileOp) (ed : TEditor) (base : List (List UB)) : List (List UB) :=
  match op with
  | .keep | .cleared => base
  | .fresh => [[]]
  | .loaded bytes => loadedText bytes
  | .written => contents ed

def FileOp.Effect (op : FileOp) (ed ed' : TEditor) : Prop :=
  match op with
  | .keep => Marks ed ed'
  | .fresh => contents ed' = [[]]
  | .loaded bytes => contents ed' = loadedText bytes
  | .written | .cleared => contents ed' = contents ed ∧ ed'.isModified = false

theorem contents_new : contents newDocument = [[]] := contents_empty rfl rfl

theorem contents_close (ed : TEditor) : contents (teditorCloseFile ed) = [[]] :=
  contents_empty rfl rfl

theorem contents_file {ed ed' : TEditor} (h : ed'.file = ed.file) : contents ed' = contents ed := by
  simp only [TEditor.file, Prod.mk.injEq] at h
  rw [contents, contents, h.1, h.2.1]

theorem FileOp.Effect.of_file {op : FileOp} {ed ed₁ ed' : TEditor} (h : op.Effect ed₁ ed')
    (hfile : ed₁.file = ed.file) : op.Effect ed ed' := by
  cases op with
  | keep => exact Marks.trans (Or.inr hfile) h
  | fresh | loaded => exact h
  | written | cleared => exact ⟨h.1.trans (contents_file hfile), h.2⟩

theorem contents_save (ed : TEditor) (opened : Bool) :
    contents (teditorSaveFile ed opened).1 = contents ed := by
  rw [teditorSaveFile]
  split <;> rfl

theorem openAsset_effect (ed : TEditor) (env : Env) (name : List UB) :
    (((env.fs (assetPath env name)).map FileOp.loaded).getD .keep).Effect ed
      (openAsset ed env name) := by
  rw [openAsset]
  cases env.fs (assetPath env name) with
  | none => exact Or.inr rfl
  | some bytes => exact contents_load ed _ bytes

theorem Marks.of_map {s s' : State} {result : Option TEditor}
    (hmarks : ∀ {ed}, result = some ed → Marks s.ed ed)
    (h : (result.map fun ed => Session.live { s with ed := ed }) = some (.live s')) :
    Marks s.ed s'.ed := by
  obtain ⟨ed, heq, hlive⟩ := Option.map_eq_some_iff.mp h
  cases hlive
  exact hmarks heq

theorem Marks.of_state {s s' : State} {result : Option State}
    (hmarks : ∀ {s₁}, result = some s₁ → Marks s.ed s₁.ed)
    (h : result.map Session.live = some (.live s')) : Marks s.ed s'.ed := by
  obtain ⟨s₁, heq, hlive⟩ := Option.map_eq_some_iff.mp h
  cases hlive
  exact hmarks heq

theorem copy_marks {s s' : State} (h : teditorCopySelection s = some s') : Marks s.ed s'.ed := by
  rw [teditorCopySelection_ed h]
  exact .refl s.ed

theorem teditorExecuteMenuCmd_effect {s s' : State} {env : Env} {cmd subIdx : Int}
    (h : teditorExecuteMenuCmd s env cmd subIdx = some (.live s')) :
    (menuOp env cmd subIdx).Effect s.ed s'.ed := by
  rw [teditorExecuteMenuCmd] at h
  rw [menuOp]
  simp only [] at h
  by_cases hnew : cmd = TCMD_FILE_NEW
  · rw [if_pos hnew] at h ⊢
    cases h
    exact contents_new
  rw [if_neg hnew] at h ⊢
  by_cases hopen : cmd = TCMD_FILE_OPEN_ASSET
  · rw [if_pos hopen] at h ⊢
    generalize (if subIdx ≥ 0 then env.assets[subIdx.toNat]? else none) = asset at h ⊢
    cases asset with
    | none =>
        cases h
        exact Marks.refl s.ed
    | some name =>
        cases h
        exact openAsset_effect s.ed env name
  rw [if_neg hopen] at h ⊢
  by_cases hsave : cmd = TCMD_FILE_SAVE
  · rw [if_pos hsave] at h ⊢
    cases h
    split <;> exact ⟨contents_save s.ed env.writable, rfl⟩
  rw [if_neg hsave] at h ⊢
  -- the commands of the other menus
  split at h
  · cases h
  split at h
  · exact Marks.of_state cutSelection_marks h
  split at h
  · exact Marks.of_state copy_marks h
  split at h
  · exact Marks.of_state teditorPasteClipboard_marks h
  split at h
  · exact Marks.of_map (fun heq => Or.inr (selectAll_file heq)) h
  split at h
  · cases h
    exact Or.inr rfl
  split at h
  · exact Marks.of_map teditorInsertText_marks h
  · cases h
    exact Marks.refl s.ed

theorem ctrlKey_effect {s s' : State} {key mod : Nat} {env : Env}
    (hon : ¬(env.tip.isSome ∨ mod &&& BTRON_KMOD_CTRL = 0))
    (h : ctrlKey s key = some (some (.live s'))) : (keyOp key mod env).Effect s.ed s'.ed := by
  rw [keyOp, if_neg hon]
  rw [ctrlKey] at h
  simp only [] at h
  split at h
  · rw [if_neg (by omega), if_neg (by omega)]
    exact Marks.of_state copy_marks (Option.some.inj h)
  split at h
  · rw [if_neg (by omega), if_neg (by omega)]
    exact Marks.of_state cutSelection_marks (Option.some.inj h)
  split at h
  · rw [if_neg (by omega), if_neg (by omega)]
    exact Marks.of_state teditorPasteClipboard_marks (Option.some.inj h)
  split at h
  · rw [if_neg (by omega), if_neg (by omega)]
    exact Marks.of_map (fun heq => Or.inr (selectAll_file heq)) (Option.some.inj h)
  split at h
  · rename_i hsave
    cases h
    rw [if_pos hsave]
    exact ⟨rfl, rfl⟩
  rename_i hsave
  rw [if_neg hsave]
  split at h
  · rename_i hnew
    cases h
    rw [if_pos hnew]
    exact contents_new
  rename_i hnew
  rw [if_neg hnew]
  split at h
  · cases h
    rw [teditorOpenMenu, if_neg (by decide)]
    split <;> exact Or.inr rfl
  split at h
  · cases h
  · cases h

-- A key that no shortcut takes does nothing to the document as a whole.
theorem keyOp_keep {s : State} {key mod : Nat} {env : Env}
    (h : (if mod &&& BTRON_KMOD_CTRL ≠ 0 then ctrlKey s key else none) = none) :
    keyOp key mod env = .keep := by
  rw [keyOp]
  split
  · rfl
  rename_i hon
  rw [not_or] at hon
  rw [if_pos hon.2, ctrlKey] at h
  simp only [] at h
  -- the shortcuts before Save and New
  iterate 4
    split at h
    · cases h
  split at h
  · cases h
  rename_i hsave
  rw [if_neg hsave]
  split at h
  · cases h
  rename_i hnew
  exact if_neg hnew

theorem keyDown_effect {s s' : State} {key mod : Nat} {env : Env}
    (h : keyDown s key mod env = some (.live s')) : (keyOp key mod env).Effect s.ed s'.ed := by
  rw [keyDown] at h
  cases htip : env.tip with
  | some commit =>
      rw [htip] at h
      rw [keyOp, if_pos (Or.inl (by rw [htip]; rfl))]
      exact Marks.of_map teditorInsertText_marks h
  | none =>
      rw [htip] at h
      simp only [] at h
      split at h
      · rename_i hescape
        have hkey : key = 27 := hescape.1
        cases h
        rw [keyOp]
        split
        · exact Or.inr rfl
        · rw [if_neg (by omega), if_neg (by omega)]
          exact Or.inr rfl
      · split at h
        · rename_i result hresult
          split at hresult
          · rename_i hctrl
            rw [h] at hresult
            apply ctrlKey_effect _ hresult
            rw [htip]
            simpa using hctrl
          · cases hresult
        · rename_i hnone
          rw [keyOp_keep hnone]
          exact Marks.of_map plainKey_marks h

theorem handle_effect {s s' : State} {i : Input} (h : handle s i = some (.live s')) :
    (fileOp s i).Effect s.ed s'.ed := by
  cases i with
  | keyDown key mod env => exact keyDown_effect h
  | butDown wnd x y env =>
      have h' : butDown s wnd x y env = some (.live s') := h
      rw [butDown] at h'
      rw [fileOp]
      simp only [] at h' ⊢
      split at h'
      · rename_i hhandled
        split at h'
        · rename_i hcmd
          rw [if_pos ⟨hhandled, hcmd⟩]
          exact (teditorExecuteMenuCmd_effect h').of_file rfl
        · rename_i hcmd
          rw [if_neg fun hboth => hcmd hboth.2]
          cases h'
          exact Or.inr rfl
      · rename_i hmiss
        rw [if_neg fun hboth => hmiss hboth.1]
        obtain ⟨ed', heq, hlive⟩ := Option.map_eq_some_iff.mp h'
        cases hlive
        have hmarks := clickText_marks heq
        exact hmarks
  | mouseMove wnd x y =>
      cases h
      exact Or.inr rfl
  | paint =>
      cases h
      have hfile : (paintMenuBar s.ed).file = s.ed.file := by
        rw [paintMenuBar]
        split <;> rfl
      exact Or.inr hfile
  | loadFile path file =>
      cases h
      cases file with
      | none => exact Or.inr rfl
      | some bytes => exact contents_load s.ed path bytes
  | saveFile opened written =>
      cases h
      cases opened with
      | false => exact Or.inr rfl
      | true => cases written <;> exact ⟨rfl, rfl⟩
  | closeFile =>
      cases h
      exact contents_close s.ed
  | openMenu menuIdx =>
      cases h
      have hfile : (teditorOpenMenu s.ed menuIdx).file = s.ed.file := by
        rw [teditorOpenMenu]
        split
        · rfl
        · split <;> rfl
      exact Or.inr hfile
  | closeMenu =>
      cases h
      exact Or.inr rfl
  | clipboard clip =>
      cases h
      exact Or.inr rfl

theorem menuOp_cleared {env : Env} {cmd subIdx : Int} (h : menuOp env cmd subIdx = .cleared) :
    cmd = TCMD_FILE_SAVE := by
  rw [menuOp] at h
  split at h
  · cases h
  split at h
  · split at h
    · rename_i name _
      cases hfs : env.fs (assetPath env name) with
      | none =>
          rw [hfs] at h
          cases h
      | some bytes =>
          rw [hfs] at h
          cases h
    · cases h
  split at h
  · rename_i hsave
    exact hsave
  · cases h

theorem teditorExecuteMenuCmd_save (s : State) (env : Env) (subIdx : Int) :
    ∃ s', teditorExecuteMenuCmd s env TCMD_FILE_SAVE subIdx = some (.live s') := ⟨_, rfl⟩

-- An input that clears the flag without a write leaves the window open.
theorem live_of_cleared {s : State} {i : Input} (h : fileOp s i = .cleared) :
    ∃ s', handle s i = some (.live s') := by
  cases i with
  | keyDown key mod env =>
      have hop : keyOp key mod env = .cleared := h
      rw [keyOp] at hop
      split at hop
      · cases hop
      rename_i hon
      split at hop
      · rename_i hkey
        rw [not_or] at hon
        have htip : env.tip = none := by simpa using hon.1
        refine ⟨{ s with ed := { s.ed with isModified := false } }, ?_⟩
        show keyDown s key mod env = _
        have hescape : ¬(key = BTRON_KEY_ESCAPE ∧ s.ed.activeMenu ≥ 0) := fun hboth => by
          rw [BTRON_KEY_ESCAPE] at hboth
          omega
        rw [keyDown, htip]
        simp only [if_neg hescape, if_pos hon.2]
        rw [ctrlKey]
        simp only []
        iterate 4 rw [if_neg (by omega)]
        rw [if_pos hkey]
      · split at hop
        · cases hop
        · cases hop
  | butDown wnd x y env =>
      rw [fileOp] at h
      split at h
      · rename_i hboth
        show ∃ s', butDown s wnd x y env = some (.live s')
        rw [butDown]
        simp only []
        rw [if_pos hboth.1, if_pos hboth.2, menuOp_cleared h]
        exact teditorExecuteMenuCmd_save _ _ _
      · cases h
  | loadFile path file => cases file <;> cases h
  | saveFile opened written => exact ⟨_, rfl⟩
  | mouseMove | paint | closeFile | openMenu | closeMenu | clipboard => cases h

-- The window with the lines last loaded from or written to the file of its document.
abbrev Doc := Option Session × List (List UB)

def DocMoves (d : Doc) (i : Input) (d' : Doc) : Prop :=
  ∃ s, d.1 = some (.live s) ∧ d'.1 = handle s i ∧ d'.2 = (fileOp s i).baseline s.ed d.2

-- The built-in document counts as loaded.
def openedDoc (file : Option (List UB × List UB)) : Doc :=
  (opened file,
    match file with
    | some (_, bytes) => loadedText bytes
    | none => contents teditorInitDefault)

-- An unmodified buffer holds what was last loaded or written.
def Saved (d : Doc) : Prop :=
  ∀ s, d.1 = some (.live s) → s.ed.isModified = false → contents s.ed = d.2

-- The flag is cleared without a write only where nothing is to be written.
def ClearsSaved (d : Doc) (i : Input) : Prop :=
  ∀ s, d.1 = some (.live s) → fileOp s i = .cleared → contents s.ed = d.2

theorem saved_opened (file : Option (List UB × List UB)) : Saved (openedDoc file) := by
  intro s hs _
  cases hs
  cases file with
  | none => rfl
  | some file => exact contents_load _ file.1 file.2

theorem saved_iff {d d' : Doc} {i : Input} (h : Saved d) (hmove : DocMoves d i d') :
    Saved d' ↔ ClearsSaved d i := by
  obtain ⟨s, hs, hhandle, hbase⟩ := hmove
  constructor
  · intro hsaved s₁ hs₁ hclear
    obtain rfl : s = s₁ := by
      rw [hs] at hs₁
      cases hs₁
      rfl
    obtain ⟨s', hs'⟩ := live_of_cleared hclear
    have heffect := handle_effect hs'
    rw [hclear] at heffect hbase
    have hsame := hsaved s' (hhandle.trans hs') heffect.2
    rw [← heffect.1, hsame, hbase]
    rfl
  · intro hclear s' hs' hflag
    have heffect := handle_effect (hhandle.symm.trans hs')
    have hsafe := hclear s hs
    rw [hbase]
    cases hop : fileOp s i with
    | keep =>
        rw [hop] at heffect
        cases heffect with
        | inl hset => simp [hset] at hflag
        | inr hfile =>
            have hflag' : s.ed.isModified = false := by
              simp only [TEditor.file, Prod.mk.injEq] at hfile
              rw [← hfile.2.2, hflag]
            rw [contents_file hfile]
            exact h s hs hflag'
    | fresh =>
        rw [hop] at heffect
        exact heffect
    | loaded bytes =>
        rw [hop] at heffect
        exact heffect
    | written =>
        rw [hop] at heffect
        exact heffect.1
    | cleared =>
        rw [hop] at heffect
        exact heffect.1.trans (hsafe hop)

-- In a run from any document an unmodified buffer holds what was last loaded or written as long as
-- the flag is never cleared, without a write, while it holds anything else.
theorem saved_run_iff {file : Option (List UB × List UB)} {tr : List (Doc × Input)} {d : Doc}
    (htr : Trace DocMoves (openedDoc file) tr d) :
    (Saved d ∧ ∀ t ∈ tr, Saved t.1) ↔ ∀ t ∈ tr, ClearsSaved t.1 t.2 :=
  htr.forall_iff (saved_opened file) fun _ _ _ => saved_iff

def docExec (d : Doc) (i : Input) : Option Doc :=
  match d.1 with
  | some (.live s) => some (handle s i, (fileOp s i).baseline s.ed d.2)
  | _ => none

theorem docMoves_of_exec {d d' : Doc} {i : Input} (h : docExec d i = some d') :
    DocMoves d i d' := by
  rw [docExec] at h
  split at h
  · rename_i s hs
    cases h
    exact ⟨s, hs, rfl, rfl⟩
  · cases h

theorem run_of_inputs {file : Option (List UB × List UB)} {is : List Input} {d : Doc}
    (hrun : is.foldlM docExec (openedDoc file) = some d) :
    ∃ tr, Trace DocMoves (openedDoc file) tr d ∧ tr.map Prod.snd = is.reverse := by
  have hstep : ∀ i ∈ is, ∀ d d', docExec d i = some d' → DocMoves d i d' := fun _ _ _ _ h =>
    docMoves_of_exec h
  obtain ⟨tr, htr, hlabels⟩ := Trace.start.foldlM hstep hrun
  exact ⟨tr, htr, by simpa using hlabels⟩

-- A file of one line.
def noteFile : List UB × List UB := (Utf8.bytes ['n', '.', 't', 'x', 't'], [0x62, 0x0A])

-- A character is typed and the document saved, another one typed and New chosen.
def saving : List Input :=
  [press (0x61, 0), .saveFile true true, press (0x63, 0), press (0x6E, 0x40)]

theorem saved_run_saving :
    ∃ tr d, Trace DocMoves (openedDoc (some noteFile)) tr d ∧ tr.map Prod.snd = saving.reverse ∧
      Saved d ∧ ∀ t ∈ tr, Saved t.1 := by
  have hsome : (saving.foldlM docExec (openedDoc (some noteFile))).isSome := by decide +kernel
  obtain ⟨d, hrun⟩ := Option.isSome_iff_exists.mp hsome
  obtain ⟨tr, htr, hlabels⟩ := run_of_inputs hrun
  refine ⟨tr, d, htr, hlabels, (saved_run_iff htr).mpr fun t ht s _ hclear => ?_⟩
  have hinput : t.2 ∈ saving.reverse := hlabels ▸ List.mem_map_of_mem ht
  have hnone : ∀ i ∈ saving, ∀ s, fileOp s i ≠ .cleared := by
    intro i hi s
    simp only [saving, List.mem_cons, List.not_mem_nil, or_false] at hi
    obtain rfl | rfl | rfl | rfl := hi <;> exact nofun
  exact absurd hclear (hnone _ (List.mem_reverse.mp hinput) s)

-- After a character is typed Ctrl+S clears the flag, and nothing has been written.
theorem ctrl_s_loses_edit :
    ∃ tr d s, Trace DocMoves (openedDoc (some noteFile)) tr d ∧
      tr.map Prod.snd = [press (0x73, 0x40), press (0x61, 0)] ∧ d.1 = some (.live s) ∧
      s.ed.isModified = false ∧ contents s.ed = [[0x61, 0x62]] ∧ d.2 = [[0x62]] ∧ ¬Saved d := by
  have heval : (([press (0x61, 0), press (0x73, 0x40)].foldlM docExec
      (openedDoc (some noteFile))).bind fun d =>
        match d.1 with
        | some (.live s) => some (s.ed.isModified, contents s.ed, d.2)
        | _ => none) = some (false, [[0x61, 0x62]], [[0x62]]) := by
    decide +kernel
  obtain ⟨d, hrun, hprobe⟩ := Option.bind_eq_some_iff.mp heval
  obtain ⟨tr, htr, hlabels⟩ := run_of_inputs hrun
  split at hprobe
  · rename_i s hs
    simp only [Option.some.injEq, Prod.mk.injEq] at hprobe
    obtain ⟨hflag, hcontents, hbase⟩ := hprobe
    refine ⟨tr, d, s, htr, hlabels, hs, hflag, hcontents, hbase, fun hsaved => ?_⟩
    have hsame := hsaved s hs hflag
    rw [hcontents, hbase] at hsame
    cases hsame
  · cases hprobe

end BTron.Editor
