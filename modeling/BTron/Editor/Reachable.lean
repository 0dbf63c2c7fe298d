import BTron.Editor.Cursor
import BTron.Lib.Run

namespace BTron.Editor

open AppMenu Lib Lib.CArray TronCode Window

theorem slotOf_last (bs : List UB) : slotOf bs 511 = 0 := by
  have hlen : (Lib.strncpy bs (TEDITOR_MAX_COLS - 1).toNat).length ≤ 511 := by
    rw [Lib.strncpy, List.length_take]
    exact Nat.min_le_left _ _
  rw [slotOf, CArray.ofList, if_pos (by decide)]
  exact List.getD_eq_default _ _ hlen

theorem cutAt_last {a : Bytes} (c : Int) (ha : a 511 = 0) : cutAt a c 511 = 0 := by
  rw [cutAt, ha, ite_self]

theorem docLines_slots {rows : List (List UB)} {rest : Int → Bytes} (h : Slots rest) :
    Slots (docLines rows rest) := by
  intro r h0 hr
  rw [docLines, if_pos h0]
  cases rows[r.toNat]? with
  | none => exact h r h0 hr
  | some bs => exact slotOf_last bs

theorem readRows_length (n : Nat) (file : List UB) : (readRows n file).length ≤ n := by
  induction n generalizing file with
  | zero => exact Nat.le_refl 0
  | succ n ih =>
      rw [readRows]
      split
      · exact Nat.zero_le _
      · rw [List.length_cons]
        exact Nat.succ_le_succ (ih _)

-- A document with the cursor at its beginning.
theorem Inv.opened {ed : TEditor} (htotal : 1 ≤ ed.totalLines ∧ ed.totalLines ≤ 1000)
    (hslots : Slots ed.lines) (hrow : ed.cursorRow = 0) (hcol : ed.cursorCol = 0)
    (hoff : ed.selActive = false) : Inv ed := by
  have hpos : Pos ed 0 0 := ⟨by omega, Int.le_refl 0, fun k h0 hk => by omega⟩
  refine ⟨⟨htotal, hslots, ?_⟩, by simp [hoff], by simp [hoff]⟩
  rw [hrow, hcol]
  exact hpos

theorem teditorLoadFile_opened {ed : TEditor} (path bytes : List UB) (h : Slots ed.lines) :
    Inv (teditorLoadFile ed path (some bytes)).1 := by
  have hlen := readRows_length TEDITOR_MAX_ROWS.toNat bytes
  have hslots : Slots (docLines (readRows TEDITOR_MAX_ROWS.toNat bytes) ed.lines) :=
    docLines_slots h
  rw [teditorLoadFile]
  apply Inv.opened _ _ rfl rfl rfl
  · simp only []
    split
    · decide
    · rename_i hne
      have hpos := List.length_pos_iff.mpr hne
      rw [TEDITOR_MAX_ROWS] at hlen hpos ⊢
      omega
  · simp only []
    split
    · exact hslots.update (cutAt_last 0 (hslots 0 (by decide) (by decide)))
    · exact hslots

theorem Inv.loaded {ed : TEditor} (h : Inv ed) (path : List UB) (file : Option (List UB)) :
    Inv (teditorLoadFile ed path file).1 := by
  cases file with
  | none => exact h.congr rfl
  | some bytes => exact teditorLoadFile_opened path bytes h.slots

theorem zero_slots : Slots fun _ _ => 0 := fun _ _ _ => rfl

theorem teditorInitDefault_inv : Inv teditorInitDefault := by
  refine .opened ?_ (docLines_slots zero_slots) rfl rfl rfl
  show 1 ≤ (((initialDoc.map fun s => Utf8.bytes s.toList).length : Nat) : Int) ∧ _
  rw [List.length_map]
  decide

theorem newDocument_inv : Inv newDocument := by
  have hslots := teditorInitDefault_inv.slots
  have hfirst := hslots 0 (by decide) (by decide)
  exact .opened (by decide) (hslots.update (cutAt_last 0 hfirst)) rfl rfl
    rfl

theorem teditorCloseFile_inv (ed : TEditor) : Inv (teditorCloseFile ed) :=
  .opened (show 1 ≤ (1 : Int) ∧ (1 : Int) ≤ 1000 by decide) zero_slots rfl rfl rfl

theorem openEditor_inv (file : Option (List UB × List UB)) : Inv (openEditor file) := by
  cases file with
  | none => exact teditorInitDefault_inv.congr rfl
  | some file => exact (teditorLoadFile_opened file.1 file.2 zero_slots).congr rfl

-- Opening and closing menus.
theorem Inv.synced {ed : TEditor} (h : Inv ed) (bar : Bar) :
    Inv (teditorSyncMenuState { ed with menuBar := bar }) := h.congr rfl

theorem Inv.menuOpened {ed : TEditor} (h : Inv ed) (menuIdx : Int) :
    Inv (teditorOpenMenu ed menuIdx) := by
  rw [teditorOpenMenu]
  split
  · exact h
  · apply Inv.synced
    split
    · exact h.synced _
    · exact h

theorem Inv.painted {ed : TEditor} (h : Inv ed) : Inv (paintMenuBar ed) := by
  rw [paintMenuBar]
  split
  · exact h.synced _
  · exact h

-- What holds of the window and of g_clipboard between two inputs.
def Valid : Option Session → Prop
  | none => False
  | some .closed => True
  | some (.live s) => Inv s.ed ∧ s.clipboard 2047 = 0

theorem Sound.valid {s : State} {result : Option TEditor} (h : Sound result)
    (hclip : s.clipboard 2047 = 0) :
    Valid (result.map fun ed => .live { s with ed := ed }) := by
  obtain ⟨ed, rfl, hinv⟩ := h
  exact ⟨hinv, hclip⟩

theorem vobjText_notMem : 0 ∉ vobjText := by decide +kernel

theorem teditorExecuteMenuCmd_valid {s : State} (env : Env) (cmd subIdx : Int) (h : Inv s.ed)
    (hclip : s.clipboard 2047 = 0) : Valid (teditorExecuteMenuCmd s env cmd subIdx) := by
  rw [teditorExecuteMenuCmd]
  simp only []
  split
  · exact ⟨newDocument_inv, hclip⟩
  split
  · split
    · exact ⟨h.loaded _ _, hclip⟩
    · exact ⟨h, hclip⟩
  split
  · refine ⟨?_, hclip⟩
    rw [teditorSaveFile]
    split <;> exact h.congr rfl
  split
  · exact True.intro
  split
  · obtain ⟨s', heq, hinv, hclip'⟩ := cutSelection_spec h hclip
    rw [heq]
    exact ⟨hinv, hclip'⟩
  split
  · obtain ⟨clip, heq, hclip'⟩ := teditorCopySelection_spec h hclip
    rw [heq]
    exact ⟨h, hclip'⟩
  split
  · obtain ⟨ed, heq, hinv⟩ := teditorPasteClipboard_spec h hclip
    rw [heq]
    exact ⟨hinv, hclip⟩
  split
  · exact (selectAll_sound h).valid hclip
  split
  · exact ⟨h.congr rfl, hclip⟩
  split
  · exact (teditorInsertText_sound h vobjText_notMem).valid hclip
  · exact ⟨h, hclip⟩

-- A printable key types a character.
theorem getAsciiCharWithShift_ne_zero {key mod : Nat} (hkey : 32 ≤ key ∧ key ≤ 126) :
    getAsciiCharWithShift key mod ≠ 0 := by
  have hne : ∀ n : Nat, 0 < n → n < 256 → UInt8.ofNat n ≠ 0 := by
    intro n hpos hlt heq
    have hnat := congrArg UInt8.toNat heq
    simp at hnat
    omega
  have hshift : ∀ k : Fin 127, 32 ≤ k.val → 0 < shiftedChar k ∧ shiftedChar k < 256 := by decide
  have hshifted := hshift ⟨key, by omega⟩ hkey.1
  rw [getAsciiCharWithShift]
  split_ifs <;> apply hne <;> first | omega | exact hshifted.1 | exact hshifted.2

theorem Sound.ite {c : Prop} [Decidable c] {a b : Option TEditor} (ha : c → Sound a)
    (hb : ¬c → Sound b) : Sound (if c then a else b) := by
  split
  · rename_i hc
    exact ha hc
  · rename_i hc
    exact hb hc

theorem plainKey_sound {ed : TEditor} {sym mod : Nat} (h : Inv ed)
    (hright : sym = BTRON_KEY_RIGHT → RightWithin ed)
    (hdelete : sym = BTRON_KEY_DELETE → ed.selActive = false → DeletesWithin ed) :
    Sound (plainKey ed sym mod) := by
  have hrow := h.cursor.row
  have htext := h.toText
  -- the keys one after the other, in the order they are asked for
  apply Sound.ite (fun _ => teditorInsertNewline_sound h)
  intro _
  apply Sound.ite (fun _ => teditorBackspace_sound h)
  intro _
  apply Sound.ite (fun hsym => teditorDeleteCharForward_sound h (hdelete hsym))
  intro _
  apply Sound.ite (fun _ => arrowKey_sound h _ (cursorLeft_moved (startSelection_text htext _)))
  intro _
  apply Sound.ite
  · intro hsym
    apply arrowKey_sound h
    apply cursorRight_moved (startSelection_text htext _)
    have hfit := hright hsym
    rw [startSelection]
    split
    · exact hfit
    · exact hfit
  intro _
  apply Sound.ite
  · intro _
    apply Sound.ite
    · intro hup
      exact (cursorToRow_moved htext (by omega)).unselected htext
    · intro _
      exact (Moved.stay h.cursor).unselected htext
  intro _
  apply Sound.ite
  · intro _
    apply Sound.ite
    · intro hdown
      exact (cursorToRow_moved htext (by omega)).unselected htext
    · intro _
      exact (Moved.stay h.cursor).unselected htext
  intro _
  apply Sound.ite
  · intro _
    have hpos : Pos ed ed.cursorRow 0 := ⟨hrow, Int.le_refl 0, fun k h0 hk => by omega⟩
    exact Moved.unselected htext ⟨ed.cursorRow, 0, rfl, hpos⟩
  intro _
  apply Sound.ite
  · intro _
    obtain ⟨hline, len, hlen, hstr⟩ := h.strlen hrow
    simp only [hline, Option.bind_eq_bind, Option.bind_some, hlen]
    exact Moved.unselected htext ⟨ed.cursorRow, len, rfl, hrow, hstr.nonneg, hstr.filled⟩
  intro _
  apply Sound.ite (fun _ => teditorInsertText_sound h (by decide))
  intro _
  apply Sound.ite
  · intro hprint
    exact teditorInsertChar_sound h (getAsciiCharWithShift_ne_zero hprint.2)
  · intro _
    exact h.sound

theorem ctrlKey_valid {s : State} {sym : Nat} {result : Option Session} (h : Inv s.ed)
    (hclip : s.clipboard 2047 = 0) (hkey : ctrlKey s sym = some result) : Valid result := by
  rw [ctrlKey] at hkey
  simp only [] at hkey
  split at hkey
  · obtain ⟨clip, heq, hclip'⟩ := teditorCopySelection_spec h hclip
    rw [heq] at hkey
    cases hkey
    exact ⟨h, hclip'⟩
  split at hkey
  · obtain ⟨s', heq, hinv, hclip'⟩ := cutSelection_spec h hclip
    rw [heq] at hkey
    cases hkey
    exact ⟨hinv, hclip'⟩
  split at hkey
  · obtain ⟨ed, heq, hinv⟩ := teditorPasteClipboard_spec h hclip
    rw [heq] at hkey
    cases hkey
    exact ⟨hinv, hclip⟩
  split at hkey
  · cases hkey
    exact (selectAll_sound h).valid hclip
  split at hkey
  · cases hkey
    exact ⟨h.congr rfl, hclip⟩
  split at hkey
  · cases hkey
    exact ⟨newDocument_inv, hclip⟩
  split at hkey
  · cases hkey
    exact ⟨(h.menuOpened _).congr rfl, hclip⟩
  split at hkey
  · cases hkey
    exact True.intro
  · cases hkey

-- When an input leaves the cursor in the text: the character that the key RIGHT goes over or the
-- key DELETE takes away, and those that a click passes, end within their line.
def Fits (s : State) : Input → Prop
  | .keyDown key _ env => env.tip = none → (key = BTRON_KEY_RIGHT → RightWithin s.ed) ∧
      (key = BTRON_KEY_DELETE → s.ed.selActive = false → DeletesWithin s.ed)
  | .butDown wnd x y _ =>
      (appMenuHandleMouseDown s.ed.menuBar (clientPos wnd x y).1 (clientPos wnd x y).2).handled =
        false → ClickWithin s.ed wnd (clientPos wnd x y).1 (clientPos wnd x y).2
  | _ => True

theorem keyDown_valid {s : State} {key mod : Nat} {env : Env} (h : Inv s.ed)
    (hclip : s.clipboard 2047 = 0) (hfit : Fits s (.keyDown key mod env)) :
    Valid (keyDown s key mod env) := by
  rw [keyDown]
  cases htip : env.tip with
  | some commit => exact (teditorInsertText_sound h (zero_notMem_cstr commit)).valid hclip
  | none =>
      obtain ⟨hright, hdelete⟩ := hfit htip
      simp only []
      split
      · exact ⟨h.synced _, hclip⟩
      · split
        · rename_i result hresult
          split at hresult
          · exact ctrlKey_valid h hclip hresult
          · cases hresult
        · exact (plainKey_sound h hright hdelete).valid hclip

theorem butDown_valid {s : State} {wnd : Wnd} {x y : Int} {env : Env} (h : Inv s.ed)
    (hclip : s.clipboard 2047 = 0) (hfit : Fits s (.butDown wnd x y env)) :
    Valid (butDown s wnd x y env) := by
  have hsync := h.synced
    (appMenuHandleMouseDown s.ed.menuBar (clientPos wnd x y).1 (clientPos wnd x y).2).bar
  rw [butDown]
  simp only []
  split
  · split
    · exact @teditorExecuteMenuCmd_valid ⟨_, s.clipboard⟩ env _ _ hsync hclip
    · exact ⟨hsync, hclip⟩
  · rename_i hmiss
    have hclick := hfit (by simpa using hmiss)
    exact (clickText_sound hsync hclick).valid hclip

-- g_clipboard is filled by editors alone, which leave its last byte NUL.
def Input.Legal : Input → Prop
  | .clipboard clip => clip 2047 = 0
  | _ => True

theorem handle_valid {s : State} {i : Input} (h : Inv s.ed) (hclip : s.clipboard 2047 = 0)
    (hlegal : i.Legal) (hfit : Fits s i) : Valid (handle s i) := by
  cases i with
  | keyDown key mod env => exact keyDown_valid h hclip hfit
  | butDown wnd x y env => exact butDown_valid h hclip hfit
  | mouseMove wnd x y => exact ⟨h.synced _, hclip⟩
  | paint => exact ⟨h.painted, hclip⟩
  | loadFile path file => exact ⟨h.loaded path file, hclip⟩
  | saveFile opened written =>
      refine ⟨?_, hclip⟩
      rw [teditorSaveFile]
      split <;> exact h.congr rfl
  | closeFile => exact ⟨teditorCloseFile_inv s.ed, hclip⟩
  | openMenu menuIdx => exact ⟨h.menuOpened menuIdx, hclip⟩
  | closeMenu => exact ⟨h.synced _, hclip⟩
  | clipboard clip => exact ⟨h, hlegal⟩

-- A position at which the text can be edited.
def Exists (ed : TEditor) (r c : Int) : Prop :=
  0 ≤ r ∧ r < ed.totalLines ∧ ∃ len, IsStr TEDITOR_MAX_COLS (ed.lines r) len ∧ 0 ≤ c ∧ c ≤ len

structure WellFormed (ed : TEditor) : Prop where
  total : 1 ≤ ed.totalLines ∧ ed.totalLines ≤ TEDITOR_MAX_LINES
  lines : ∀ r, 0 ≤ r → r < ed.totalLines → ∃ len, IsStr TEDITOR_MAX_COLS (ed.lines r) len
  cursor : Exists ed ed.cursorRow ed.cursorCol
  selection : ed.selActive → Exists ed ed.selStartR ed.selStartC ∧ Exists ed ed.selEndR ed.selEndC

-- No access has left the line array, and the text that is left is well formed.
def Good : Option Session → Prop
  | none => False
  | some .closed => True
  | some (.live s) => WellFormed s.ed

theorem Text.exists {ed : TEditor} (h : Text ed) {r c : Int} (hpos : Pos ed r c) :
    Exists ed r c := by
  obtain ⟨-, len, -, hstr⟩ := h.strlen hpos.row
  exact ⟨hpos.row.1, hpos.row.2, len, hstr, hpos.nonneg, hstr.le_of_filled hpos.filled⟩

theorem Inv.wellFormed {ed : TEditor} (h : Inv ed) : WellFormed ed where
  total := h.total
  lines r h0 hr := by
    obtain ⟨-, len, -, hstr⟩ := h.strlen ⟨h0, hr⟩
    exact ⟨len, hstr⟩
  cursor := h.exists h.cursor
  selection hs := ⟨h.exists (h.start hs), h.exists (h.stop hs)⟩

theorem Valid.good {σ : Option Session} (h : Valid σ) : Good σ := by
  cases σ with
  | none => exact h
  | some session =>
      cases session with
      | closed => exact True.intro
      | live s => exact h.1.wellFormed

theorem Exists.col_le {ed : TEditor} {r c len : Int} (h : Exists ed r c)
    (hstr : IsStr TEDITOR_MAX_COLS (ed.lines r) len) : c ≤ len := by
  obtain ⟨-, -, len', hstr', -, hle⟩ := h
  rwa [hstr.unique hstr']

theorem arrowKey_cursor {ed ed' : TEditor} {shift : Bool} {move : TEditor → Option TEditor}
    (heq : arrowKey ed shift move = some ed') :
    ∃ ed₁, move (startSelection ed shift) = some ed₁ ∧ ed'.lines = ed₁.lines ∧
      ed'.cursorRow = ed₁.cursorRow ∧ ed'.cursorCol = ed₁.cursorCol := by
  rw [arrowKey, Option.bind_eq_bind, Option.bind_eq_some_iff] at heq
  obtain ⟨ed₁, hmove, heq⟩ := heq
  cases heq
  refine ⟨ed₁, hmove, ?_⟩
  rw [endSelection]
  split <;> exact ⟨rfl, rfl, rfl⟩

theorem rightWithin_of_some {ed ed' : TEditor} (h : Text ed) (heq : cursorRight ed = some ed')
    (hcol : ∀ len, IsStr TEDITOR_MAX_COLS (ed'.lines ed'.cursorRow) len → ed'.cursorCol ≤ len) :
    RightWithin ed := by
  intro len hstr hlt
  have hlen : strlenLine (ed.lines ed.cursorRow) = some len := strlen_eq_some.mpr hstr
  obtain ⟨hline, -⟩ := h.strlen h.cursor.row
  rw [cursorRight] at heq
  simp only [hline, Option.bind_eq_bind, Option.bind_some, hlen] at heq
  rw [if_pos hlt, utf8NextOffset_eq hlen hlt] at heq
  cases heq
  exact hcol len hstr

theorem ctrlKey_none {s : State} {sym : Nat} (hsym : 0x78 < sym) : ctrlKey s sym = none := by
  rw [ctrlKey]
  simp only []
  iterate 8 rw [if_neg (by omega)]

theorem wellFormed_of_good {s : State} {result : Option TEditor}
    (h : Good (result.map fun ed => .live { s with ed := ed })) :
    ∃ ed, result = some ed ∧ WellFormed ed := by
  cases result with
  | none => cases h
  | some ed => exact ⟨ed, rfl, h⟩

theorem plainKey_right (ed : TEditor) (mod : Nat) :
    plainKey ed BTRON_KEY_RIGHT mod = arrowKey ed (mod &&& BTRON_KMOD_SHIFT != 0) cursorRight := by
  rw [plainKey]
  iterate 4 rw [if_neg (by decide)]
  exact if_pos rfl

theorem plainKey_delete (ed : TEditor) (mod : Nat) :
    plainKey ed BTRON_KEY_DELETE mod = teditorDeleteCharForward ed := by
  rw [plainKey]
  iterate 2 rw [if_neg (by decide)]
  exact if_pos rfl

-- An input that leaves the cursor in the text has fitted into it.
theorem fits_of_good {s : State} {i : Input} (h : Inv s.ed) (hgood : Good (handle s i)) :
    Fits s i := by
  cases i with
  | keyDown key mod env =>
      intro htip
      have hplain : 0x78 < key → Good ((plainKey s.ed key mod).map fun ed =>
          .live { s with ed := ed }) := by
        intro hkey
        have hgood' : Good (keyDown s key mod env) := hgood
        rw [keyDown, htip] at hgood'
        simp only [] at hgood'
        rw [if_neg (by rw [BTRON_KEY_ESCAPE]; omega), ctrlKey_none hkey, ite_self] at hgood'
        exact hgood'
      constructor
      · rintro rfl
        obtain ⟨ed', heq, hwf⟩ := wellFormed_of_good (hplain (by decide))
        rw [plainKey_right] at heq
        obtain ⟨ed₁, hmove, hlines, hrow, hcol⟩ := arrowKey_cursor heq
        have hfit := rightWithin_of_some (startSelection_text h.toText _) hmove (by
          rw [← hlines, ← hrow, ← hcol]
          exact fun len hstr => hwf.cursor.col_le hstr)
        rw [startSelection] at hfit
        split at hfit
        · exact hfit
        · exact hfit
      · rintro rfl hoff
        obtain ⟨ed', heq, -⟩ := wellFormed_of_good (hplain (by decide))
        rw [plainKey_delete] at heq
        exact deletesWithin_of_some h hoff heq
  | butDown wnd x y env =>
      intro hmiss
      have hgood' : Good (butDown s wnd x y env) := hgood
      rw [butDown] at hgood'
      simp only [hmiss] at hgood'
      obtain ⟨ed', heq, hwf⟩ := wellFormed_of_good hgood'
      have hfit := clickWithin_of_some heq fun len hstr => hwf.cursor.col_le hstr
      exact hfit
  | mouseMove | paint | loadFile | saveFile | closeFile | openMenu | closeMenu | clipboard =>
      exact True.intro

-- The window takes its next input.
def Moves (σ : Option Session) (i : Input) (σ' : Option Session) : Prop :=
  ∃ s, σ = some (.live s) ∧ i.Legal ∧ σ' = handle s i

-- A window that shows a file or the built-in document; g_clipboard is empty at first.
def opened (file : Option (List UB × List UB)) : Option Session :=
  some (.live ⟨openEditor file, fun _ => 0⟩)

def FitsIn (σ : Option Session) (i : Input) : Prop := ∀ s, σ = some (.live s) → Fits s i

-- The inputs of a run, one after the other.
def exec (σ : Option Session) (i : Input) : Option (Option Session) :=
  match σ with
  | some (.live s) => some (handle s i)
  | _ => none

theorem moves_of_exec {σ σ' : Option Session} {i : Input} (hlegal : i.Legal)
    (h : exec σ i = some σ') : Moves σ i σ' := by
  cases σ with
  | none => cases h
  | some session =>
      cases session with
      | closed => cases h
      | live s => exact ⟨s, rfl, hlegal, (Option.some.inj h).symm⟩

-- A key, with its modifiers, that TIP does not take.
def press (key : Nat × Nat) : Input := .keyDown key.1 key.2 ⟨none, [], fun _ => none, true, true⟩

theorem run_of_keys {file : Option (List UB × List UB)} {keys : List (Nat × Nat)}
    {σ : Option Session} (hrun : (keys.map press).foldlM exec (opened file) = some σ) :
    ∃ tr, Trace Moves (opened file) tr σ ∧ tr.map Prod.snd = (keys.map press).reverse := by
  obtain ⟨tr, htr, hlabels⟩ := Trace.start.foldlM (fun i hi s s' h => by
    obtain ⟨key, -, rfl⟩ := List.mem_map.mp hi
    exact moves_of_exec True.intro h) hrun
  exact ⟨tr, htr, by simpa using hlabels⟩

-- A new document, two lines that are typed, a selection that is copied and pasted over itself.
def typing : List (Nat × Nat) :=
  [(0x6E, 0x40), (0x61, 0), (BTRON_KEY_RETURN, 0), (0x62, 0), (BTRON_KEY_UP, 0),
    (BTRON_KEY_LEFT, 1), (0x63, 0x40), (0x76, 0x40)]

-- The lines `あ` and `a` in a file. UP from behind the `a` leaves the cursor within `あ`, RETURN
-- cuts the character there, and RIGHT goes over what is left of it as if it were whole.
def cutFile : List UB × List UB :=
  (Utf8.bytes ['a', '.', 't', 'x', 't'], [0xE3, 0x81, 0x82, 0x0A, 0x61])

def cutKeys : List (Nat × Nat) :=
  [(BTRON_KEY_DOWN, 0), (BTRON_KEY_END, 0), (BTRON_KEY_UP, 0), (BTRON_KEY_RETURN, 0),
    (BTRON_KEY_UP, 0), (BTRON_KEY_RIGHT, 0)]

end BTron.Editor
