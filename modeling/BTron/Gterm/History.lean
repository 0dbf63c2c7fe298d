import BTron.Apps.Handlers
import BTron.Gterm.Line

namespace BTron.Gterm

open Lib Lib.CArray Apps

-- What reaches the terminal. `tip` is the text of TIP when it takes the key.
inductive Event
  | key (key mod : Nat) (tip : Option (List UB))
  | menu (cmd : Int)

-- The terminal with the commands entered since it was reset, until its window is closed.
inductive Session
  | live (ln : Line) (typed : List (List UB))
  | closed

namespace Session

def step : Session → Event → Option Session
  | closed, _ => some closed
  | live ln typed, .key key mod tip => do
    let cmdLine ← CArray.str Line.inputSize ln.inputBuf
    -- `exit` and `quit` close the window that runs them
    if enters key tip ∧ Quits cmdLine then some closed
    else do
      let ln ← ln.keyDown key mod tip
      some (live ln (entered typed cmdLine key tip))
  | live ln typed, .menu cmd =>
    if cmd = TCMD_FILE_CLOSE then some closed
    else do
      let ln ← ln.dispatchCmd cmd
      some (live ln (if cmd = TCMD_TERM_RESET then [] else typed))

def events (s : Session) (es : List Event) : Option Session := es.foldlM step s

-- A window that is opened is reset.
def run (es : List Event) : Option Session := do
  let ln ← Line.reset
  events (live ln []) es

end Session

variable {ln : Line} {st : GTermState} {typed : List (List UB)}

open Line (Rep)

theorem entered_cons (x : List UB) (hist : List (List UB)) (cmdLine : List UB) (key : Nat)
    (tip : Option (List UB)) : entered (x :: hist) cmdLine key tip =
      x :: entered hist cmdLine key tip := by
  rw [entered, entered]
  split <;> rfl

-- A key that does not close the window
theorem step_key (h : Rep ln st) (hinv : st.Inv (word "ver" :: typed)) (wnd : Window.Wnd)
    (key mod : Nat) (tip : Option (List UB)) (hopen : ¬(enters key tip ∧ Quits st.inputBuf)) :
    ∃ ln', Session.step (.live ln typed) (.key key mod tip) =
        some (.live ln' (entered typed st.inputBuf key tip)) ∧
      Rep ln' (keyDown wnd st key mod (tip.map Line.commitBuf)).val ∧
      (keyDown wnd st key mod (tip.map Line.commitBuf)).val.Inv
        (word "ver" :: entered typed st.inputBuf key tip) := by
  obtain ⟨ln', hln, hrep, hinv'⟩ := h.keyDown hinv wnd key mod tip
  rw [entered_cons] at hinv'
  refine ⟨ln', ?_, hrep, hinv'⟩
  rw [Session.step, h.buf.str, Option.bind_eq_bind, Option.bind_some, if_neg hopen, hln]
  rfl

theorem step_live (h : Rep ln st) (hinv : st.Inv (word "ver" :: typed)) (wnd : Window.Wnd)
    (e : Event) : Session.step (.live ln typed) e = some .closed ∨
      ∃ ln' typed' st', Session.step (.live ln typed) e = some (.live ln' typed') ∧ Rep ln' st' ∧
        st'.Inv (word "ver" :: typed') := by
  cases e with
  | key key mod tip =>
      by_cases hclose : enters key tip ∧ Quits st.inputBuf
      · left
        rw [Session.step, h.buf.str, Option.bind_eq_bind, Option.bind_some, if_pos hclose]
      · obtain ⟨ln', hstep, hrep, hinv'⟩ := step_key h hinv wnd key mod tip hclose
        exact .inr ⟨ln', _, _, hstep, hrep, hinv'⟩
  | menu cmd =>
      by_cases hclose : cmd = TCMD_FILE_CLOSE
      · exact .inl (if_pos hclose)
      · obtain ⟨ln', hln, hrep, hinv'⟩ := h.dispatchCmd hinv wnd cmd
        have htyped : (if cmd = TCMD_TERM_RESET then [word "ver"] else word "ver" :: typed) =
            word "ver" :: (if cmd = TCMD_TERM_RESET then [] else typed) := by
          split <;> rfl
        rw [htyped] at hinv'
        refine .inr ⟨ln', if cmd = TCMD_TERM_RESET then [] else typed, _, ?_, hrep, hinv'⟩
        rw [Session.step, if_neg hclose, hln]
        rfl

theorem events_cons (s : Session) (e : Event) (es : List Event) :
    s.events (e :: es) = (s.step e).bind fun s' => s'.events es := rfl

theorem events_closed (es : List Event) : Session.events .closed es = some .closed := by
  induction es with
  | nil => rfl
  | cons e es ih =>
      rw [events_cons]
      exact ih

theorem events_live (h : Rep ln st) (hinv : st.Inv (word "ver" :: typed)) (wnd : Window.Wnd)
    (es : List Event) : Session.events (.live ln typed) es = some .closed ∨
      ∃ ln' typed' st', Session.events (.live ln typed) es = some (.live ln' typed') ∧ Rep ln' st' ∧
        st'.Inv (word "ver" :: typed') := by
  induction es generalizing ln st typed with
  | nil => exact .inr ⟨ln, typed, st, rfl, h, hinv⟩
  | cons e es ih =>
      rw [events_cons]
      obtain hclosed | ⟨ln₁, typed₁, st₁, hstep, h₁, hinv₁⟩ := step_live h hinv wnd e
      · left
        rw [hclosed, Option.bind_some]
        exact events_closed es
      · rw [hstep, Option.bind_some]
        exact ih h₁ hinv₁

-- The arrow keys as they are pressed, each with its modifiers
def presses (key : Nat) (mods : List Nat) : List Event := mods.map fun mod => .key key mod none

theorem val_keyDown (wnd : Window.Wnd) {key : Nat} (mod : Nat) (hctrl : ctrlKey st key = none)
    (hret : isReturn key = false) : (keyDown wnd st key mod none).val = editKey st key mod := by
  have hnone : (if mod &&& Editor.BTRON_KMOD_CTRL ≠ 0 then ctrlKey st key else none) = none := by
    rw [hctrl, ite_self]
  rw [keyDown.eq_def, hnone]
  dsimp only
  rw [if_neg (by simp [hret])]
  rfl

-- Enter leaves the history at its end.
theorem val_enter (wnd : Window.Wnd) {key : Nat} (mod : Nat) (hret : isReturn key = true) :
    (keyDown wnd st key mod none).val = (st.record st.inputBuf).input [] := by
  have hnone : (if mod &&& Editor.BTRON_KMOD_CTRL ≠ 0 then ctrlKey st key else none) = none := by
    rw [ctrlKey_return hret, ite_self]
  rw [keyDown.eq_def, hnone]
  dsimp only
  rw [if_pos hret, Uses.val_bind, Uses.val_bind, Line.val_execute]
  rfl

-- An arrow key never closes the window.
theorem step_arrow (h : Rep ln st) (hinv : st.Inv (word "ver" :: typed)) (wnd : Window.Wnd)
    (key mod : Nat) (hctrl : ctrlKey st key = none) (hret : isReturn key = false) :
    ∃ ln', Session.step (.live ln typed) (.key key mod none) = some (.live ln' typed) ∧
      Rep ln' (editKey st key mod) ∧ (editKey st key mod).Inv (word "ver" :: typed) := by
  have hout : enters key none = false := by
    rw [enters, hret]
    rfl
  obtain ⟨ln', hstep, hrep, hinv'⟩ := step_key h hinv wnd key mod none (by simp [hout])
  rw [entered_of_not hout] at hstep hinv'
  rw [Option.map_none, val_keyDown wnd mod hctrl hret] at hrep hinv'
  exact ⟨ln', hstep, hrep, hinv'⟩

-- Each press of Up shows an earlier command.
theorem ups_live (h : Rep ln st) (hinv : st.Inv (word "ver" :: typed)) (wnd : Window.Wnd)
    {ups : List Nat} (hne : ups ≠ []) (hups : (ups.length : Int) ≤ st.cmdHistIdx) :
    ∃ ln', Session.events (.live ln typed) (presses Editor.BTRON_KEY_UP ups) =
        some (.live ln' typed) ∧ Rep ln' (st.recall (st.cmdHistIdx - ups.length)) ∧
      (st.recall (st.cmdHistIdx - ups.length)).Inv (word "ver" :: typed) := by
  induction ups generalizing ln st with
  | nil => exact absurd rfl hne
  | cons mod ups ih =>
      obtain ⟨ln₁, hstep, h₁, hinv₁⟩ := step_arrow h hinv wnd Editor.BTRON_KEY_UP mod rfl rfl
      rw [List.length_cons] at hups ⊢
      have hidx := hinv.idx
      have hval : editKey st Editor.BTRON_KEY_UP mod = st.recall (st.cmdHistIdx - 1) := by
        have hup : editKey st Editor.BTRON_KEY_UP mod = if st.cmdHistory.length > 0 ∧
          st.cmdHistIdx > 0 then st.recall (st.cmdHistIdx - 1) else st := rfl
        rw [hup, if_pos (by omega)]
      rw [hval] at h₁ hinv₁
      rw [presses, List.map_cons, events_cons, hstep, Option.bind_some, ← presses]
      by_cases hlast : ups = []
      · subst hlast
        exact ⟨ln₁, rfl, h₁, hinv₁⟩
      · have hat : (st.recall (st.cmdHistIdx - 1)).cmdHistIdx - ups.length =
            st.cmdHistIdx - (ups.length + 1 : Nat) := by
          have heq : (st.recall (st.cmdHistIdx - 1)).cmdHistIdx = st.cmdHistIdx - 1 := rfl
          omega
        have hrun := ih h₁ hinv₁ hlast (by omega)
        rw [hat] at hrun
        exact hrun

-- Down goes back to the line after the last command, which is empty.
theorem downs_live (h : Rep ln st) (hinv : st.Inv (word "ver" :: typed)) (wnd : Window.Wnd)
    {downs : List Nat} (hne : downs ≠ [])
    (hdowns : st.cmdHistIdx + downs.length = st.cmdHistory.length) :
    ∃ ln', Session.events (.live ln typed) (presses Editor.BTRON_KEY_DOWN downs) =
        some (.live ln' typed) ∧
      Rep ln' { st with cmdHistIdx := st.cmdHistory.length, inputBuf := [] } := by
  induction downs generalizing ln st with
  | nil => exact absurd rfl hne
  | cons mod downs ih =>
      obtain ⟨ln₁, hstep, h₁, hinv₁⟩ := step_arrow h hinv wnd Editor.BTRON_KEY_DOWN mod rfl rfl
      have hdown : editKey st Editor.BTRON_KEY_DOWN mod =
          if st.cmdHistIdx < st.cmdHistory.length - 1 then st.recall (st.cmdHistIdx + 1)
          else { st with cmdHistIdx := st.cmdHistory.length, inputBuf := [] } := rfl
      rw [List.length_cons] at hdowns
      rw [hdown] at h₁ hinv₁
      rw [presses, List.map_cons, events_cons, hstep, Option.bind_some, ← presses]
      by_cases hlast : downs = []
      · subst hlast
        rw [List.length_nil] at hdowns
        rw [if_neg (by omega)] at h₁
        exact ⟨ln₁, rfl, h₁⟩
      · have hpos : 0 < downs.length := List.length_pos_iff.mpr hlast
        rw [if_pos (by omega)] at h₁ hinv₁
        have hat : (st.recall (st.cmdHistIdx + 1)).cmdHistIdx = st.cmdHistIdx + 1 := rfl
        have hrows : (st.recall (st.cmdHistIdx + 1)).cmdHistory = st.cmdHistory := rfl
        have hrun := ih h₁ hinv₁ hlast (by
          rw [hat, hrows]
          omega)
        exact hrun

-- From the line that Enter leaves, through the stored commands and back.
theorem browse (h : Rep ln st) (hinv : st.Inv (word "ver" :: typed)) (wnd : Window.Wnd)
    (hat : st.cmdHistIdx = st.cmdHistory.length) {ups : List Nat} (hne : ups ≠ [])
    (hups : ups.length ≤ ln.cmdHistCount) :
    ∃ ln₁ x, Session.events (.live ln typed) (presses Editor.BTRON_KEY_UP ups) =
        some (.live ln₁ typed) ∧ (word "ver" :: typed).reverse[ups.length - 1]? = some x ∧
      Holds Line.inputSize ln₁.inputBuf x ∧ ∀ downs : List Nat, downs.length = ups.length →
        ∃ ln₂, Session.events (.live ln₁ typed) (presses Editor.BTRON_KEY_DOWN downs) =
            some (.live ln₂ typed) ∧ Holds Line.inputSize ln₂.inputBuf [] ∧ ln₂.inputLen = 0 := by
  have hpos : 0 < ups.length := List.length_pos_iff.mpr hne
  have hcount := h.count hinv.count
  obtain ⟨ln₁, hrun, h₁, hinv₁⟩ := ups_live h hinv wnd hne (by omega)
  have hfrom : (st.cmdHistIdx - ups.length).toNat = st.cmdHistory.length - ups.length := by omega
  have hlog := getElem?_rtake (word "ver" :: typed) GTERM_CMD_HIST_MAX hpos (by
    rw [← hinv.history]
    omega)
  rw [← hinv.history] at hlog
  refine ⟨ln₁, st.cmdHistory.getD (st.cmdHistIdx - ups.length).toNat [], hrun, ?_, h₁.buf, ?_⟩
  · rw [← hlog, hfrom, List.getD_eq_getElem _ _ (by omega), List.getElem?_eq_getElem (by omega)]
  · intro downs hdowns
    have hne' : downs ≠ [] := List.length_pos_iff.mp (by omega)
    obtain ⟨ln₂, hback, h₂⟩ := downs_live h₁ hinv₁ wnd hne' (by
      have hidx : (st.recall (st.cmdHistIdx - ups.length)).cmdHistIdx =
        st.cmdHistIdx - ups.length := rfl
      have hrows : (st.recall (st.cmdHistIdx - ups.length)).cmdHistory = st.cmdHistory := rfl
      rw [hidx, hrows]
      omega)
    exact ⟨ln₂, hback, h₂.buf, h₂.len⟩

-- What the terminal keeps over any run. The first command is the one that a reset enters.
theorem command_line (es : List Event) : ∃ s, Session.run es = some s ∧
    ∀ ln typed, s = .live ln typed →
      (∃ x, Holds Line.inputSize ln.inputBuf x ∧ ln.inputLen = x.length ∧ ln.inputLen < 246) ∧
      Latest GTERM_CMD_HIST_MAX (Holds Line.rowSize) ln.cmdHistory ln.cmdHistCount
        (word "ver" :: typed) ∧
      (0 ≤ ln.cmdHistIdx ∧ ln.cmdHistIdx ≤ ln.cmdHistCount ∧ ln.cmdHistCount ≤ 32) ∧
      ∀ key mod ln₁ typed₁, isReturn key = true →
        Session.step s (.key key mod none) = some (.live ln₁ typed₁) →
        ∀ ups : List Nat, ups ≠ [] → ups.length ≤ ln₁.cmdHistCount →
          ∃ ln₂ x, Session.events (.live ln₁ typed₁) (presses Editor.BTRON_KEY_UP ups) =
              some (.live ln₂ typed₁) ∧ (word "ver" :: typed₁).reverse[ups.length - 1]? = some x ∧
            Holds Line.inputSize ln₂.inputBuf x ∧ ∀ downs : List Nat, downs.length = ups.length →
              ∃ ln₃, Session.events (.live ln₂ typed₁) (presses Editor.BTRON_KEY_DOWN downs) =
                  some (.live ln₃ typed₁) ∧ Holds Line.inputSize ln₃.inputBuf [] ∧
                ln₃.inputLen = 0 := by
  let wnd := Window.newWnd 1 none 220 160 560 360 0 true
  obtain ⟨ln₀, hreset, h₀, hinv₀⟩ := Line.reset_rep
  have hrun : Session.run es = Session.events (.live ln₀ []) es := by
    rw [Session.run, hreset]
    rfl
  rw [hrun]
  obtain hclosed | ⟨ln, typed, st, hevents, h, hinv⟩ := events_live h₀ hinv₀ wnd es
  · refine ⟨.closed, hclosed, fun ln typed heq => ?_⟩
    cases heq
  refine ⟨.live ln typed, hevents, fun ln' typed' heq => ?_⟩
  cases heq
  have hin := hinv.input
  have hidx := hinv.idx
  have hcount := h.count hinv.count
  refine ⟨⟨st.inputBuf, h.buf, h.len, ?_⟩, ?_, ?_, ?_⟩
  · rw [h.len, GTermState.inputLen]
    omega
  · have hrows := h.rows
    rw [hinv.history] at hrows
    exact latest_rtake.mp hrows
  · rw [h.idx, hcount]
    exact ⟨hidx.1, hidx.2, hinv.count⟩
  · intro key mod ln₁ typed₁ hret hstep ups hne hups
    have henters : enters key none = true := by
      rw [enters, hret]
      rfl
    by_cases hquits : Quits st.inputBuf
    · rw [Session.step, h.buf.str, Option.bind_eq_bind, Option.bind_some,
        if_pos ⟨henters, hquits⟩] at hstep
      cases hstep
    · obtain ⟨ln', hstep', h', hinv'⟩ := step_key h hinv wnd key mod none fun hclose =>
        hquits hclose.2
      rw [hstep'] at hstep
      cases hstep
      rw [Option.map_none, val_enter wnd mod hret] at h' hinv'
      exact browse h' hinv' wnd rfl hne hups

-- Nothing is typed after a reset, and still there is a command in the history.
theorem reset_history : ∃ ln, Session.run [.menu TCMD_TERM_RESET] = some (.live ln []) ∧
    ¬Latest GTERM_CMD_HIST_MAX (Holds Line.rowSize) ln.cmdHistory ln.cmdHistCount [] := by
  obtain ⟨ln, hln, h, hinv⟩ := Line.reset_rep
  refine ⟨ln, ?_, fun hlatest => ?_⟩
  · rw [Session.run, hln, Option.bind_eq_bind, Option.bind_some, events_cons, Session.step,
      if_neg (by decide), Line.dispatchCmd, if_neg (by decide), if_pos rfl, hln]
    rfl
  · have hzero : ln.cmdHistCount = 0 := hlatest.count
    rw [h.count hinv.count] at hzero
    exact absurd hzero (by decide)

end BTron.Gterm
