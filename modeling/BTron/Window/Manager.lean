import BTron.Window

namespace BTron.Window

-- The windows allocated, g_wnd_head and g_next_wnd_id.
structure WndMgr where
  mem : Nat → Option Wnd
  -- how many windows are allocated
  count : Nat
  head : Option Nat
  nextId : Int

-- What `init_wnd_mgr` leaves, the counter as it was.
def WndMgr.init (nextId : Int) : WndMgr := ⟨fun _ => none, 0, none, nextId⟩

def WndMgr.put (s : WndMgr) (q : Option Nat) (f : Wnd → Wnd) : WndMgr :=
  { s with mem := fun z => if some z = q then (s.mem z).map f else s.mem z }

-- A write through a pointer, which fails on a window that is not allocated.
def WndMgr.write (s : WndMgr) (p : Nat) (f : Wnd → Wnd) : Option WndMgr :=
  (s.mem p).map fun _ => s.put (some p) f

-- `if (q) q->field = value`
def WndMgr.writeIf (s : WndMgr) (q : Option Nat) (f : Wnd → Wnd) : Option WndMgr :=
  match q with
  | none => some s
  | some p => s.write p f

-- `calloc` and `free`
def WndMgr.alloc (s : WndMgr) (p : Nat) (wnd : Wnd) : WndMgr :=
  { s with mem := fun z => if z = p then some wnd else s.mem z, count := s.count + 1 }

def WndMgr.free (s : WndMgr) (p : Nat) : WndMgr :=
  { s with mem := fun z => if z = p then none else s.mem z, count := s.count - 1 }

-- `p` is what `calloc` returns for the window, `mem` says that there is memory for the device.
-- The counter overflows past the largest ID, which C leaves undefined.
def opnWnd (s : WndMgr) (p : Option Nat) (title : Option (Nat → UB)) (x y w h : Int) (attr : Nat)
    (mem : Bool) : Option (WndMgr × Option Nat) :=
  match p with
  | none => some (s, none)
  | some p =>
    if s.nextId ≥ 2147483647 then none
    else do
      let s := s.alloc p (newWnd s.nextId title x y w h attr mem)
      let s := { s with nextId := s.nextId + 1 }
      let s ← s.write p fun v => { v with next := s.head, prev := none }
      let s ← s.writeIf s.head fun v => { v with focused := false, prev := some p }
      some ({ s with head := some p }, some p)

-- The window at `p` leaves its neighbours.
def unlink (s : WndMgr) (p : Nat) : Option WndMgr := do
  let wnd ← s.mem p
  let s ← s.writeIf wnd.prev fun v => { v with next := wnd.next }
  let wnd ← s.mem p
  s.writeIf wnd.next fun v => { v with prev := wnd.prev }

-- `hook` is what a destroy hook does to the windows.
def clsWnd (s : WndMgr) (wnd : Option Nat)
    (hook : (Nat → Option Wnd) → Nat → Option Wnd) : Option (WndMgr × ER) :=
  match wnd with
  | none => some (s, E_PAR)
  | some p => do
    let wnd ← s.mem p
    let s := if wnd.destroy ≠ 0 then { s with mem := hook s.mem } else s
    let s ← unlink s p
    let wnd ← s.mem p
    let s := if s.head = some p then { s with head := wnd.next } else s
    let s ← s.writeIf s.head fun v => { v with focused := true }
    some (s.free p, E_OK)

-- The loop of `top_wnd` that looks for the window. It would be endless on a list with more
-- links than there are windows.
def search (s : WndMgr) (p : Nat) : Nat → Option Nat → Option Bool
  | 0, _ => none
  | _ + 1, none => some false
  | fuel + 1, some c =>
    if c = p then some true
    else (s.mem c).bind fun v => search s p fuel v.next

def topWnd (s : WndMgr) (wnd : Option Nat) : Option (WndMgr × ER) :=
  match wnd with
  | none => some (s, E_OK)
  | some p =>
    if s.head = some p then some (s, E_OK)
    else do
      let found ← search s p (s.count + 1) s.head
      if !found then some (s, E_PAR)
      else
        let s ← unlink s p
        let s ← s.writeIf s.head fun v => { v with focused := false }
        let s ← s.write p fun v => { v with next := s.head, prev := none }
        let s ← s.writeIf s.head fun v => { v with prev := some p }
        let s ← { s with head := some p }.write p fun v => { v with focused := true }
        some (s, E_OK)

-- The loop of `wnd_cycle_focus` that walks to the last window.
def lastWnd (s : WndMgr) : Nat → Nat → Option Nat
  | 0, _ => none
  | fuel + 1, p =>
    (s.mem p).bind fun v =>
      match v.next with
      | none => some p
      | some q => lastWnd s fuel q

def wndCycleFocus (s : WndMgr) : Option WndMgr :=
  match s.head with
  | none => some s
  | some p => do
    let wnd ← s.mem p
    if wnd.next = none then some s
    else
      let curr ← lastWnd s s.count p
      if curr ≠ p then
        let s ← s.write curr fun v => { v with visible := true }
        let (s, _) ← topWnd s (some curr)
        some s
      else some s

-- A destroy hook may do anything to the windows but to the list.
def KeepsList (mem mem' : Nat → Option Wnd) : Prop :=
  ∀ p, (mem' p).map (fun v => (v.id, v.focused, v.next, v.prev)) =
    (mem p).map fun v => (v.id, v.focused, v.next, v.prev)

inductive Act
  | opn (p : Option Nat) (title : Option (Nat → UB)) (x y w h : Int) (attr : Nat) (mem : Bool)
  | cls (wnd : Option Nat) (hook : (Nat → Option Wnd) → Nat → Option Wnd)
  | top (wnd : Option Nat)
  | cycle

-- What a call relies on: `calloc` returns fresh memory, and `cls_wnd` gets a live window.
def Act.Legal (s : WndMgr) : Act → Prop
  | .opn p .. => ∀ a, p = some a → s.mem a = none
  | .cls wnd hook => (∀ p, wnd = some p → s.mem p ≠ none) ∧ KeepsList s.mem (hook s.mem)
  | .top _ | .cycle => True

def exec (s : WndMgr) : Act → Option WndMgr
  | .opn p title x y w h attr mem => (opnWnd s p title x y w h attr mem).map Prod.fst
  | .cls wnd hook => (clsWnd s wnd hook).map Prod.fst
  | .top wnd => (topWnd s wnd).map Prod.fst
  | .cycle => wndCycleFocus s

def Step (s : WndMgr) (a : Act) (s' : WndMgr) : Prop := a.Legal s ∧ exec s a = some s'

end BTron.Window
