import BTron.Editor
import BTron.Lib.Uses
import BTron.Window.Hosted

namespace BTron.Apps

open Lib Window

-- What the handler of a window has in hand: the window, and the state that its destroy hook
-- frees.
inductive Part
  | wnd
  | state
deriving DecidableEq

abbrev Run (α : Type) := Uses Part α

def touchWnd : Run Unit := Uses.touch .wnd

def touchState : Run Unit := Uses.touch .state

-- `destroy_gterm`, `destroy_t_editor` and `destroy_browser_wnd`
def destroyState (wnd : Wnd) : Run Unit := do
  touchWnd
  if wnd.userData ≠ 0 then do
    Uses.free .state
    touchWnd
  else pure ()

-- `cls_wnd` on the window of the handler
def clsWnd (destroy : Run Unit) : Run Unit := do
  touchWnd
  destroy
  touchWnd
  Uses.free .wnd

-- `opn_wnd` takes the focus from the window in front, which is the one of the handler.
def openWindow : Run Unit := touchWnd

-- `(uint16_t)(uintptr_t)evt->data`, the modifiers of a key
def modOf (evt : DeskEvt) : Nat := (evt.data % 65536).toNat

-- `evt->pos` in the client area, as all but the orchestra reckon it
def relPos (wnd : Wnd) (evt : DeskEvt) : Int × Int := Editor.clientPos wnd evt.x evt.y

variable {α β : Type}

@[simp] theorem kept_touchWnd : touchWnd.Kept := Uses.kept_touch _
@[simp] theorem kept_touchState : touchState.Kept := Uses.kept_touch _
@[simp] theorem kept_openWindow : openWindow.Kept := Uses.kept_touch _

@[simp] theorem tidy_touchWnd_bind (f : Unit → Run β) : (touchWnd >>= f).Tidy ↔ (f ()).Tidy :=
  Uses.tidy_touch_bind _ f

@[simp] theorem tidy_touchState_bind (f : Unit → Run β) :
    (touchState >>= f).Tidy ↔ (f ()).Tidy :=
  Uses.tidy_touch_bind _ f

theorem tidy_clsWnd (wnd : Wnd) : (clsWnd (destroyState wnd)).Tidy := by
  simp only [clsWnd, destroyState]
  by_cases h : wnd.userData = 0
  · simp only [h, ne_eq, not_true_eq_false, if_false]
    decide
  · simp only [h, ne_eq, not_false_eq_true, if_true]
    decide

theorem tidy_clsWnd_pure : (clsWnd (pure ())).Tidy := by decide

theorem frees_clsWnd (destroy : Run Unit) : .free .wnd ∈ (clsWnd destroy).log := by
  simp [clsWnd, Uses.log_bind]

end BTron.Apps
