import BTron.Apps

namespace BTron.Orchestra

open Lib AppMenu Window Apps

-- OrchestraServerState, as far as its window changes it. It is a static variable.
structure Server where
  isRunning : Bool
  isRecording : Bool
  sceneCount : Int
  activeSceneIdx : Int
  menuBar : Bar

def orchestraSwitchScene (srv : Server) (sceneIdx : Int) : Server :=
  if sceneIdx < 0 ∨ sceneIdx ≥ srv.sceneCount then srv else { srv with activeSceneIdx := sceneIdx }

def orchestraSetPlayback (srv : Server) (play : Bool) : Server := { srv with isRunning := play }

-- `inval_wnd` does nothing but compare its pointer.
def invalWnd : Run Unit := pure ()

-- The hook only forgets the window.
def destroyOrchestra : Run Unit := pure ()

def menuCmd (srv : Server) (cmd : Int) : Run Server :=
  if cmd = 104 then do
    Apps.clsWnd destroyOrchestra
    pure srv
  else if cmd = 601 then do
    openWindow
    invalWnd
    pure srv
  else do
    invalWnd
    pure (
      if cmd = 301 then orchestraSwitchScene srv 0
      else if cmd = 302 then orchestraSwitchScene srv 1
      else if cmd = 303 then orchestraSwitchScene srv 2
      else srv)

-- The transport controls, and the bar of the scenes.
def clickControls (srv : Server) (relX relY : Int) : Server :=
  if relY ≥ 30 ∧ relY ≤ 68 ∧ relX ≥ 10 ∧ relX ≤ 56 then
    { srv with isRecording := !srv.isRecording }
  else if relY ≥ 30 ∧ relY ≤ 68 ∧ relX ≥ 62 ∧ relX ≤ 114 then orchestraSetPlayback srv true
  else if relY ≥ 30 ∧ relY ≤ 68 ∧ relX ≥ 120 ∧ relX ≤ 164 then orchestraSetPlayback srv false
  else if relY ≥ 30 ∧ relY ≤ 68 ∧ relX ≥ 170 ∧ relX ≤ 212 then
    orchestraSetPlayback srv !srv.isRunning
  else if relY ≥ 78 ∧ relY ≤ 104 ∧ relX ≥ 108 ∧ relX ≤ 276 then orchestraSwitchScene srv 0
  else if relY ≥ 78 ∧ relY ≤ 104 ∧ relX ≥ 282 ∧ relX ≤ 436 then orchestraSwitchScene srv 1
  else if relY ≥ 78 ∧ relY ≤ 104 ∧ relX ≥ 442 ∧ relX ≤ 584 then orchestraSwitchScene srv 2
  else srv

def butDown (srv : Server) (relX relY : Int) : Run Server :=
  let click := appMenuHandleMouseDown srv.menuBar relX relY
  let srv : Server := { srv with menuBar := click.bar }
  if click.handled then
    if click.cmd ≠ 0 then menuCmd srv click.cmd
    else do
      invalWnd
      pure srv
  else do
    invalWnd
    pure (clickControls srv relX relY)

def orchestraEventHandler (wnd : Wnd) (srv : Server) (evt : DeskEvt) : Run Server := do
  let relX := Graphics.asH (evt.x - wnd.client.left)
  let relY := Graphics.asH (evt.y - wnd.client.top)
  match evt.type with
  | .EV_BUT_DOWN => do
    touchWnd
    butDown srv relX relY
  | .EV_MOUSE_MOVE => do
    touchWnd
    let (bar, _) := appMenuHandleMouseMove srv.menuBar relX relY
    invalWnd
    pure { srv with menuBar := bar }
  | _ => pure srv

end BTron.Orchestra
