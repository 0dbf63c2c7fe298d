import BTron.Apps

namespace BTron.Editor

open Lib AppMenu Window Apps

-- What a menu command does to the window and the state; what it makes of the state is in
-- `teditorExecuteMenuCmd`.
def menuCmdRun (wnd : Wnd) (cmd : Int) : Run Unit :=
  if cmd = TCMD_FILE_NEW ∨ cmd = TCMD_FILE_OPEN_ASSET then do
    touchState
    -- the title
    touchWnd
  else if cmd = TCMD_FILE_CLOSE then Apps.clsWnd (destroyState wnd)
  else if cmd = TCMD_VIEW_ZOOM_IN ∨ cmd = TCMD_VIEW_ZOOM_OUT then touchWnd
  else if cmd = TCMD_VOBJ_CABINET ∨ cmd = TCMD_HELP_ABOUT then openWindow
  else touchState

def butDownRun (wnd : Wnd) (ed : TEditor) (x y : Int) : Run Unit := do
  touchWnd
  touchState
  let (relX, relY) := clientPos wnd x y
  let click := appMenuHandleMouseDown ed.menuBar relX relY
  if click.handled then
    if click.cmd ≠ 0 then menuCmdRun wnd click.cmd else pure ()
  else do
    -- the height of the client area, and the cursor
    touchWnd
    touchState

-- The same of the keys.
def keyDownRun (wnd : Wnd) (ed : TEditor) (key mod : Nat) (env : Env) : Run Unit :=
  match env.tip with
  | some _ => touchState
  | none =>
    if key = BTRON_KEY_ESCAPE ∧ ed.activeMenu ≥ 0 then touchState
    else if mod &&& BTRON_KMOD_CTRL ≠ 0 ∧ (key = 0x77 ∨ key = 0x57) then
      Apps.clsWnd (destroyState wnd)
    else if mod &&& BTRON_KMOD_CTRL ≠ 0 ∧ (key = 0x6E ∨ key = 0x4E) then do
      touchState
      touchWnd
    else touchState

def handleTEditorEvent (wnd : Wnd) (s : State) (evt : DeskEvt) (env : Env) :
    Run (Option Session) := do
  touchWnd
  match evt.type with
  | .EV_MOUSE_MOVE => do
    touchWnd
    touchState
    pure (handle s (.mouseMove wnd evt.x evt.y))
  | .EV_BUT_DOWN => do
    butDownRun wnd s.ed evt.x evt.y
    pure (handle s (.butDown wnd evt.x evt.y env))
  | .EV_KEY_DOWN => do
    keyDownRun wnd s.ed evt.key (modOf evt) env
    pure (handle s (.keyDown evt.key (modOf evt) env))
  | _ => pure (some (.live s))

variable {wnd : Wnd}

theorem live_ne_closed {α : Type} (r : Option α) (f : α → Editor.State) :
    r.map (fun a => Session.live (f a)) ≠ some .closed := by
  cases r <;> simp

theorem menuCmd_closed_iff (s : Editor.State) (env : Editor.Env) (cmd subIdx : Int) :
    teditorExecuteMenuCmd s env cmd subIdx = some .closed ↔ cmd = TCMD_FILE_CLOSE := by
  constructor
  · intro h
    by_contra hne
    rw [teditorExecuteMenuCmd] at h
    extract_lets live at h
    have hlive : ∀ r : Option Editor.State, r.map Session.live ≠ some .closed := fun r =>
      live_ne_closed r id
    repeat' split at h
    all_goals first
      | exact hne ‹_›
      | cases h
      | exact hlive _ h
      | exact live_ne_closed _ _ h
  · rintro rfl
    rfl

theorem menuCmd_frees_iff (cmd : Int) :
    .free .wnd ∈ (menuCmdRun wnd cmd).log ↔ cmd = TCMD_FILE_CLOSE := by
  rw [menuCmdRun]
  constructor
  · intro h
    by_contra hne
    repeat' split at h
    all_goals first
      | exact hne ‹_›
      | simp [touchState, touchWnd, openWindow] at h
  · rintro rfl
    rw [if_neg (by decide), if_pos rfl]
    exact frees_clsWnd _

theorem butDown_frees_iff (s : Editor.State) (x y : Int) (env : Editor.Env) :
    .free .wnd ∈ (butDownRun wnd s.ed x y).log ↔ Editor.butDown s wnd x y env = some .closed := by
  have hnot : ∀ r : Option TEditor,
      r.map (fun ed => Session.live { s with ed := ed }) ≠ some .closed := fun r =>
    live_ne_closed r _
  rw [butDownRun, Editor.butDown]
  simp only [Uses.log_bind, touchWnd, touchState, Uses.log_touch, List.mem_append,
    List.mem_singleton, reduceCtorEq, false_or]
  split
  · split
    · rw [menuCmd_frees_iff, menuCmd_closed_iff]
    · simp
  · exact iff_of_false (by simp) (hnot _)

theorem ctrlKey_closed_iff (s : Editor.State) (sym : Nat) :
    Editor.ctrlKey s sym = some (some .closed) ↔ sym = 0x77 ∨ sym = 0x57 := by
  constructor
  · intro h
    rw [Editor.ctrlKey] at h
    extract_lets live at h
    have hlive : ∀ r : Option Editor.State, r.map Session.live ≠ some .closed := fun r =>
      live_ne_closed r id
    repeat' split at h
    all_goals first
      | exact ‹sym = 0x77 ∨ sym = 0x57›
      | cases h
      | exact absurd (Option.some.inj h) (hlive _)
      | exact absurd (Option.some.inj h) (live_ne_closed _ _)
  · rintro (rfl | rfl) <;> rfl

theorem keyDown_frees_iff (s : Editor.State) (key mod : Nat) (env : Editor.Env) :
    .free .wnd ∈ (keyDownRun wnd s.ed key mod env).log ↔
      Editor.keyDown s key mod env = some .closed := by
  unfold keyDownRun Editor.keyDown
  cases htip : env.tip with
  | some commit => exact iff_of_false (by simp [touchState]) (live_ne_closed _ _)
  | none =>
      dsimp only
      split
      · simp [touchState]
      by_cases hctrl : mod &&& BTRON_KMOD_CTRL ≠ 0
      · rw [if_pos hctrl]
        by_cases hw : key = 0x77 ∨ key = 0x57
        · rw [if_pos ⟨hctrl, hw⟩, (ctrlKey_closed_iff s key).mpr hw]
          exact iff_of_true (frees_clsWnd _) rfl
        · have hkey := mt (ctrlKey_closed_iff s key).mp hw
          refine iff_of_false ?_ ?_
          · rw [if_neg (fun h => hw h.2)]
            split <;> simp [touchState, touchWnd]
          · cases hc : Editor.ctrlKey s key with
            | none => exact live_ne_closed _ _
            | some r =>
                rintro rfl
                exact hkey hc
      · rw [if_neg hctrl, if_neg (fun h => hctrl h.1), if_neg (fun h => hctrl h.1)]
        exact iff_of_false (by simp [touchState]) (live_ne_closed _ _)

-- The handler frees what the model of its buffers closes.
theorem tEditor_frees_iff (s : Editor.State) (evt : DeskEvt) (env : Editor.Env) :
    .free .wnd ∈ (handleTEditorEvent wnd s evt env).log ↔
      (handleTEditorEvent wnd s evt env).val = some .closed := by
  rw [handleTEditorEvent]
  simp only [Uses.log_bind, Uses.val_bind, touchWnd, Uses.log_touch, List.mem_append,
    List.mem_singleton, reduceCtorEq, false_or]
  split
  · simp [touchState, Editor.handle]
  · simpa [Editor.handle] using butDown_frees_iff s evt.x evt.y env
  · simpa [Editor.handle] using keyDown_frees_iff s evt.key (modOf evt) env
  · simp

end BTron.Editor
