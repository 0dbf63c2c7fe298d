import BTron.Cabinet
import BTron.Editor.Handler
import BTron.Gterm
import BTron.Orchestra
import BTron.TadBrowser.Handler

namespace BTron.Apps

open Lib Window

section Terminal

open Gterm

-- The command line closes the terminal that runs it.
def Quits (cmdLine : List UB) : Prop := shellWord cmdLine ∈ closing.map word

instance (cmdLine : List UB) : Decidable (Quits cmdLine) := inferInstanceAs (Decidable (_ ∈ _))

variable {wnd : Wnd} {cmdLine : List UB} {st : GTermState}

theorem Quits.cases (h : Quits cmdLine) :
    shellWord cmdLine = word "exit" ∨ shellWord cmdLine = word "quit" := by
  simpa [Quits, closing] using h

theorem Quits.not_blank (h : Quits cmdLine) : cmdLine.dropWhile isspace ≠ [] := by
  intro hnil
  rw [Quits, shellWord, hnil] at h
  exact absurd h (by decide)

theorem shellExecuteCmd_quit (h : Quits cmdLine) :
    shellExecuteCmd cmdLine wnd = clsWnd (destroyState wnd) := by
  have hword := h.cases
  rw [shellExecuteCmd, if_neg h.not_blank]
  cases hword with
  | inl hexit =>
      rw [hexit]
      rfl
  | inr hquit =>
      rw [hquit]
      rfl

theorem shellExecuteCmd_kept (h : ¬Quits cmdLine) : (shellExecuteCmd cmdLine wnd).Kept := by
  rw [shellExecuteCmd]
  split_ifs with _ _ _ _ _ hquits
  · exact Uses.kept_pure _
  · exact kept_touchState
  · simp [gtermShellOut, gtermAppendLine]
  · simp [gtermShellOut, gtermAppendLine]
  · exact Uses.kept_pure _
  · exact absurd hquits h
  · exact kept_touchState

theorem gtermExecuteCmd_kept (h : ¬Quits cmdLine) : (gtermExecuteCmd wnd st cmdLine).Kept := by
  have hshell : (shellExecuteCmd cmdLine wnd).Kept := shellExecuteCmd_kept h
  rw [gtermExecuteCmd]
  split_ifs <;> simp [gtermAppendLine, hshell]

theorem Quits.not_own (h : Quits cmdLine) : cmdLine ∉ ["history", "clear", "cls"].map word := by
  intro hown
  have hcases : cmdLine = word "history" ∨ cmdLine = word "clear" ∨ cmdLine = word "cls" := by
    simpa using hown
  obtain rfl | rfl | rfl := hcases
  all_goals exact absurd h (by decide)

-- The state goes with the window.
theorem gtermExecuteCmd_quit (h : Quits cmdLine) (hstate : wnd.userData ≠ 0) :
    .free .state ∈ (gtermExecuteCmd wnd st cmdLine).log := by
  rw [gtermExecuteCmd, if_neg h.not_own, shellExecuteCmd_quit h]
  simp [clsWnd, destroyState, hstate]

theorem gtermDispatchCmd_tidy (cmd : Int) : (gtermDispatchCmd wnd st cmd).Tidy := by
  have hhelp : (shellExecuteCmd (word "help") wnd).Kept := shellExecuteCmd_kept (by decide)
  have hver : (gtermExecuteCmd wnd gtermInitBanner (word "ver")).Kept :=
    gtermExecuteCmd_kept (by decide)
  rw [gtermDispatchCmd]
  split_ifs
  · exact Uses.Kept.tidy (by simp)
  · exact Uses.Kept.tidy (by simp [gtermAppendLine])
  · exact (Uses.tidy_bind_pure _ _).mpr (tidy_clsWnd wnd)
  · exact Uses.Kept.tidy (by simp)
  · exact Uses.Kept.tidy (by simp)
  · exact Uses.Kept.tidy (by simp [hver])
  · exact Uses.Kept.tidy (by simp [hhelp])
  · exact Uses.Kept.tidy (by simp)

theorem gterm_butDown_tidy (relX relY : Int) : (Gterm.butDown wnd st relX relY).Tidy := by
  rw [Gterm.butDown, tidy_touchState_bind]
  extract_lets click st'
  split
  · split
    · exact gtermDispatchCmd_tidy _
    · exact (Uses.kept_pure _).tidy
  · exact Uses.Kept.tidy (by simp)

theorem ctrlKey_kept {key : Nat} {run : Run GTermState} (h : ctrlKey st key = some run) :
    run.Kept := by
  rw [ctrlKey] at h
  split_ifs at h
  all_goals
    obtain rfl := Option.some.inj h
    simp [gtermAppendLine]

-- The state is written to behind the command that has freed it.
theorem gterm_return_tidy_iff (hstate : wnd.userData ≠ 0) :
    (do
      let st ← gtermExecuteCmd wnd st cmdLine
      touchState
      pure (st.input []) : Run GTermState).Tidy ↔ ¬Quits cmdLine := by
  by_cases h : Quits cmdLine
  · refine iff_of_false ?_ (not_not_intro h)
    exact Uses.not_tidy_bind (gtermExecuteCmd_quit h hstate) (List.mem_cons_self) rfl
  · refine iff_of_true ?_ h
    exact Uses.Kept.tidy (by simp [gtermExecuteCmd_kept h])

-- The key makes the terminal run a line that closes it.
structure RunsQuit (st : GTermState) (evt : DeskEvt) (tip : Option (List UB)) : Prop where
  down : evt.type = .EV_KEY_DOWN
  own : tip = none
  line : isReturn evt.key
  quits : Quits st.inputBuf

theorem ctrlKey_return {key : Nat} (h : isReturn key) : ctrlKey st key = none := by
  have hkey : key = 13 ∨ key = 0x40000058 ∨ key = 10 := by
    simpa [isReturn, Editor.BTRON_KEY_RETURN, Editor.BTRON_KEY_KP_ENTER, or_assoc] using h
  rw [ctrlKey, if_neg (by omega), if_neg (by omega), if_neg (by omega)]

theorem gterm_keyDown_tidy_iff (hstate : wnd.userData ≠ 0) (key mod : Nat)
    (tip : Option (List UB)) :
    (Gterm.keyDown wnd st key mod tip).Tidy ↔
      ¬(tip = none ∧ isReturn key ∧ Quits st.inputBuf) := by
  unfold Gterm.keyDown
  split
  · rename_i run hctrl
    have hkey : ctrlKey st key = some run := by
      split at hctrl
      · exact hctrl
      · cases hctrl
    refine iff_of_true (ctrlKey_kept hkey).tidy ?_
    rintro ⟨-, hreturn, -⟩
    rw [ctrlKey_return hreturn] at hkey
    cases hkey
  · split
    · exact iff_of_true (Uses.Kept.tidy (by simp)) (by simp)
    · split_ifs with hreturn
      · rw [gterm_return_tidy_iff hstate]
        simp [hreturn]
      · exact iff_of_true (Uses.Kept.tidy (by simp)) (by simp [hreturn])

-- Nothing is used after it is freed if and only if no such line is run.
theorem gterm_tidy_iff (evt : DeskEvt) (tip : Option (List UB)) :
    (handleGtermEvent wnd st evt tip).Tidy ↔ ¬(wnd.userData ≠ 0 ∧ RunsQuit st evt tip) := by
  rw [handleGtermEvent, tidy_touchWnd_bind]
  by_cases hstate : wnd.userData = 0
  · rw [if_pos hstate]
    exact iff_of_true (Uses.Kept.tidy (by simp)) (by simp [hstate])
  · rw [if_neg hstate]
    have hother : evt.type ≠ .EV_KEY_DOWN → ¬(wnd.userData ≠ 0 ∧ RunsQuit st evt tip) :=
      fun hne h => hne h.2.down
    cases htype : evt.type with
    | EV_KEY_DOWN =>
        refine (gterm_keyDown_tidy_iff hstate evt.key (modOf evt) tip).trans (not_congr ?_)
        exact ⟨fun ⟨htip, hkey, hquits⟩ => ⟨hstate, htype, htip, hkey, hquits⟩,
          fun ⟨_, h⟩ => ⟨h.own, h.line, h.quits⟩⟩
    | EV_BUT_DOWN =>
        exact iff_of_true (gterm_butDown_tidy _ _) (hother (by simp [htype]))
    | EV_MOUSE_MOVE =>
        exact iff_of_true (Uses.Kept.tidy (by simp)) (hother (by simp [htype]))
    | EV_NONE | EV_BUT_UP | EV_KEY_UP | EV_WND_CLOSE | EV_WND_MOVE | EV_WND_FOCUS
    | EV_MENU_SELECT | EV_TIMER =>
        exact iff_of_true (Uses.Kept.tidy (Uses.kept_pure _)) (hother (by simp [htype]))

end Terminal

section Others

variable {wnd : Wnd}

-- The four other handlers return as soon as they have closed their window.
theorem tEditor_menuCmd_tidy (cmd : Int) : (Editor.menuCmdRun wnd cmd).Tidy := by
  rw [Editor.menuCmdRun]
  split_ifs
  · exact Uses.Kept.tidy (by simp)
  · exact tidy_clsWnd wnd
  · exact kept_touchWnd.tidy
  · exact kept_openWindow.tidy
  · exact kept_touchState.tidy

theorem tEditor_butDown_tidy (ed : Editor.TEditor) (x y : Int) :
    (Editor.butDownRun wnd ed x y).Tidy := by
  rw [Editor.butDownRun, tidy_touchWnd_bind, tidy_touchState_bind]
  dsimp only
  split_ifs
  · exact tEditor_menuCmd_tidy _
  · exact (Uses.kept_pure _).tidy
  · exact Uses.Kept.tidy (by simp)

theorem tEditor_keyDown_tidy (ed : Editor.TEditor) (key mod : Nat) (env : Editor.Env) :
    (Editor.keyDownRun wnd ed key mod env).Tidy := by
  unfold Editor.keyDownRun
  split
  · exact kept_touchState.tidy
  · split_ifs
    · exact kept_touchState.tidy
    · exact tidy_clsWnd wnd
    · exact Uses.Kept.tidy (by simp)
    · exact kept_touchState.tidy

theorem tEditor_tidy (s : Editor.State) (evt : DeskEvt) (env : Editor.Env) :
    (Editor.handleTEditorEvent wnd s evt env).Tidy := by
  rw [Editor.handleTEditorEvent, tidy_touchWnd_bind]
  split
  · exact Uses.Kept.tidy (by simp)
  · exact (Uses.tidy_bind_pure _ _).mpr (tEditor_butDown_tidy s.ed evt.x evt.y)
  · exact (Uses.tidy_bind_pure _ _).mpr (tEditor_keyDown_tidy s.ed evt.key (modOf evt) env)
  · exact (Uses.kept_pure _).tidy

theorem openSelected_kept (cab : Cabinet.Explorer) : (Cabinet.openSelected cab).Kept := by
  rw [Cabinet.openSelected]
  split_ifs <;> simp

theorem cabinet_menuCmd_tidy (cab : Cabinet.Explorer) (env : Cabinet.Env) (cmd : Int) :
    (Cabinet.menuCmd cab env cmd).Tidy := by
  rw [Cabinet.menuCmd]
  split
  · exact (openSelected_kept cab).tidy
  split
  · exact Uses.Kept.tidy (by simp)
  split
  · exact (Uses.tidy_bind_pure _ _).mpr tidy_clsWnd_pure
  · exact (Uses.kept_pure _).tidy

theorem clickItem_kept (cab : Cabinet.Explorer) (idx curTime : Int) :
    (Cabinet.clickItem cab idx curTime).Kept := by
  rw [Cabinet.clickItem]
  dsimp only
  split_ifs <;> simp

theorem cabinet_butDown_tidy (cab : Cabinet.Explorer) (env : Cabinet.Env)
    (relX relY curTime : Int) : (Cabinet.butDown wnd cab env relX relY curTime).Tidy := by
  rw [Cabinet.butDown, tidy_touchWnd_bind]
  dsimp only
  split_ifs
  · exact (Uses.kept_pure _).tidy
  · exact cabinet_menuCmd_tidy _ env _
  · exact (Uses.kept_pure _).tidy
  · exact (tidy_touchWnd_bind _).mpr (clickItem_kept _ _ _).tidy

theorem cabinet_keyDown_kept (cab : Cabinet.Explorer) (key : Nat) :
    (Cabinet.keyDown wnd cab key).Kept := by
  rw [Cabinet.keyDown]
  split
  dsimp only
  split
  · exact Uses.kept_pure _
  split
  · simp
  split
  · exact openSelected_kept _
  · exact Uses.kept_pure _

theorem cabinet_tidy (cab : Cabinet.Explorer) (evt : DeskEvt) (env : Cabinet.Env) :
    (Cabinet.handleVobjManagerEvent wnd cab evt env).Tidy := by
  rw [Cabinet.handleVobjManagerEvent, tidy_touchWnd_bind]
  dsimp only
  split
  · rw [Cabinet.mouseMove]
    dsimp only
    split_ifs
    · exact (Uses.kept_pure _).tidy
    · exact Uses.Kept.tidy (by simp)
  · exact cabinet_butDown_tidy cab env _ _ _
  · exact (cabinet_keyDown_kept cab _).tidy
  · exact (Uses.kept_pure _).tidy

theorem tadBrowser_menuCmd_tidy (v : TadBrowser.Viewer) (env : TadBrowser.Env) (cmd subIdx : Int) :
    (TadBrowser.menuCmd wnd v env cmd subIdx).Tidy := by
  rw [TadBrowser.menuCmd]
  split
  · exact Uses.Kept.tidy (by simp)
  split
  · exact (Uses.tidy_bind_pure _ _).mpr (tidy_clsWnd wnd)
  split
  · exact Uses.Kept.tidy (by simp)
  · exact Uses.Kept.tidy (by simp)

theorem tadBrowser_tidy (v : TadBrowser.Viewer) (evt : DeskEvt) (env : TadBrowser.Env) :
    (TadBrowser.handleTadBrowserEvent wnd v evt env).Tidy := by
  rw [TadBrowser.handleTadBrowserEvent, tidy_touchWnd_bind]
  dsimp only
  split
  · exact Uses.Kept.tidy (by simp)
  · rw [TadBrowser.butDown, tidy_touchState_bind]
    dsimp only
    split_ifs
    · exact tadBrowser_menuCmd_tidy _ env _ _
    · exact (Uses.kept_pure _).tidy
    · exact Uses.Kept.tidy (by simp)
  · exact Uses.Kept.tidy (by simp)
  · exact (Uses.kept_pure _).tidy

theorem orchestra_menuCmd_tidy (srv : Orchestra.Server) (cmd : Int) :
    (Orchestra.menuCmd srv cmd).Tidy := by
  rw [Orchestra.menuCmd]
  split
  · exact (Uses.tidy_bind_pure _ _).mpr tidy_clsWnd_pure
  split
  · exact Uses.Kept.tidy (by simp [Orchestra.invalWnd])
  · exact Uses.Kept.tidy (by simp [Orchestra.invalWnd])

theorem orchestra_tidy (srv : Orchestra.Server) (evt : DeskEvt) :
    (Orchestra.orchestraEventHandler wnd srv evt).Tidy := by
  rw [Orchestra.orchestraEventHandler]
  split
  · rw [tidy_touchWnd_bind, Orchestra.butDown]
    split_ifs
    · exact orchestra_menuCmd_tidy _ _
    · exact Uses.Kept.tidy (by simp [Orchestra.invalWnd])
    · exact Uses.Kept.tidy (by simp [Orchestra.invalWnd])
  · exact Uses.Kept.tidy (by simp [Orchestra.invalWnd])
  · exact (Uses.kept_pure _).tidy

end Others

-- The state that a program keeps for a window.
inductive App
  | gterm (st : Gterm.GTermState)
  | tEditor (s : Editor.State)
  | cabinet (cab : Cabinet.Explorer)
  | tadBrowser (v : TadBrowser.Viewer)
  | orchestra (srv : Orchestra.Server)

-- What the handlers find outside, the text that TIP commits with that of the editor.
structure Outside where
  editor : Editor.Env
  cabinet : Cabinet.Env
  browser : TadBrowser.Env

-- The editor is left as it was by a run that goes astray in its buffers.
def App.edited (s : Editor.State) : Option Editor.Session → App
  | some (.live s') => .tEditor s'
  | some .closed | none => .tEditor s

def App.handle (app : App) (wnd : Wnd) (evt : DeskEvt) (env : Outside) : Run App :=
  match app with
  | .gterm st => do
    let st ← Gterm.handleGtermEvent wnd st evt env.editor.tip
    pure (.gterm st)
  | .tEditor s => do
    let r ← Editor.handleTEditorEvent wnd s evt env.editor
    pure (.edited s r)
  | .cabinet cab => do
    let cab ← Cabinet.handleVobjManagerEvent wnd cab evt env.cabinet
    pure (.cabinet cab)
  | .tadBrowser v => do
    let v ← TadBrowser.handleTadBrowserEvent wnd v evt env.browser
    pure (.tadBrowser v)
  | .orchestra srv => do
    let srv ← Orchestra.orchestraEventHandler wnd srv evt
    pure (.orchestra srv)

def App.RunsQuit (app : App) (wnd : Wnd) (evt : DeskEvt) (env : Outside) : Prop :=
  match app with
  | .gterm st => wnd.userData ≠ 0 ∧ Apps.RunsQuit st evt env.editor.tip
  | .tEditor _ | .cabinet _ | .tadBrowser _ | .orchestra _ => False

theorem App.handle_tidy_iff (app : App) (wnd : Wnd) (evt : DeskEvt) (env : Outside) :
    (app.handle wnd evt env).Tidy ↔ ¬app.RunsQuit wnd evt env := by
  cases app with
  | gterm st => exact (Uses.tidy_bind_pure _ _).trans (gterm_tidy_iff evt env.editor.tip)
  | tEditor s =>
      exact iff_of_true ((Uses.tidy_bind_pure _ _).mpr (tEditor_tidy s evt env.editor)) id
  | cabinet cab =>
      exact iff_of_true ((Uses.tidy_bind_pure _ _).mpr (cabinet_tidy cab evt env.cabinet)) id
  | tadBrowser v =>
      exact iff_of_true ((Uses.tidy_bind_pure _ _).mpr (tadBrowser_tidy v evt env.browser)) id
  | orchestra srv =>
      exact iff_of_true ((Uses.tidy_bind_pure _ _).mpr (orchestra_tidy srv evt)) id

end BTron.Apps
