import BTron.Event
import BTron.Graphics
import BTron.Lib.CString

namespace BTron.Hmi

open Event Graphics Lib

def HMI_PANEL_MAX_CTRLS : Nat := 32

-- HMI_CTRL_TYPE
inductive CtrlType
  | none | pushSwitch | toggleSwitch | standardTriad | updownSelector | radioSelector
  | rotarySelector | sliderVolume | dialVolume | barMeter | statusLed | digitalDisplay
  | universalPad
deriving DecidableEq

-- HMI_TRIGGER_MODE
inductive TriggerMode
  | touchEdge | releaseEdge
deriving DecidableEq

-- HMI_LED_COLOR
inductive LedColor
  | off | green | yellow | red
deriving DecidableEq

-- HMI_UNIVERSAL_KEY
inductive UniversalKey
  | none | prevItem | nextItem | decValue | incValue | execute | cancel | command
deriving DecidableEq

-- The HMI_STATE_ bits
structure Flags where
  active : Bool
  focused : Bool
  pressed : Bool
  disabled : Bool
  checked : Bool
  enableware : Bool
deriving DecidableEq

-- `HMI_STATE_ACTIVE`
def Flags.start : Flags := ⟨true, false, false, false, false, false⟩

-- HMI_CTRL. `onChange` says that there is a callback, what it does is the application's.
structure Ctrl where
  id : Int
  type : CtrlType
  bounds : Rect
  flags : Flags
  trigger : TriggerMode
  label : List UB
  unit : List UB
  val : Int
  minVal : Int
  maxVal : Int
  step : Int
  numOptions : Int
  ledColor : LedColor
  peakVal : Int
  onChange : Bool
deriving DecidableEq

-- HMI_PANEL. `controls` are the first num_controls of the array.
structure Panel where
  title : List UB
  bounds : Rect
  bgColor : Nat
  controls : List Ctrl
  focusedIndex : Int
  showRemote : Bool
deriving DecidableEq

def hmiInitPanel (title : Option (List UB)) (x y w h : Int) (bgCol : Nat) : Panel where
  title := strncpy (title.getD []) 63
  bounds := ⟨x, y, asH (x + w), asH (y + h)⟩
  bgColor := bgCol
  controls := []
  focusedIndex := -1
  showRemote := false

-- What the factories fill in for every part.
def newCtrl (id : Int) (type : CtrlType) (label : Option (List UB)) (x y w h : Int) (cb : Bool) :
    Ctrl where
  id := id
  type := type
  bounds := ⟨x, y, asH (x + w), asH (y + h)⟩
  flags := .start
  trigger := .touchEdge
  label := strncpy (label.getD []) 63
  unit := []
  val := 0
  minVal := 0
  maxVal := 0
  step := 0
  numOptions := 0
  ledColor := .off
  peakVal := 0
  onChange := cb

-- A part behind the others, if there is a place for it.
def Panel.add (p : Panel) (c : Ctrl) : Panel :=
  if p.controls.length ≥ HMI_PANEL_MAX_CTRLS then p else { p with controls := p.controls ++ [c] }

-- The place and the look of a part, as the factories get them.
structure Place where
  id : Int
  label : Option (List UB)
  x : Int
  y : Int
  w : Int
  h : Int
  cb : Bool

def Place.ctrl (l : Place) (type : CtrlType) : Ctrl :=
  newCtrl l.id type l.label l.x l.y l.w l.h l.cb

def hmiAddPushSwitch (p : Panel) (l : Place) : Panel :=
  p.add { l.ctrl .pushSwitch with trigger := .releaseEdge }

def hmiAddToggleSwitch (p : Panel) (l : Place) (initState : Bool) : Panel :=
  p.add { l.ctrl .toggleSwitch with
    flags := { Flags.start with checked := initState }
    val := if initState then 1 else 0 }

-- The three switches of the triad, their labels and callbacks their own.
def hmiAddStandardTriad (p : Panel) (id x y w h : Int) (onCancel onDefault onStart : Bool) :
    Panel :=
  let btnW := asH ((w - 16).tdiv 3)
  let btnW := if btnW < 30 then 30 else btnW
  let torikeshi : List UB := "取り消し".toUTF8.data.toList
  let hyojun : List UB := "標準設定".toUTF8.data.toList
  let jikko : List UB := "実行".toUTF8.data.toList
  let p := hmiAddPushSwitch p ⟨id, some torikeshi, x, y, btnW, h, onCancel⟩
  let p := hmiAddPushSwitch p ⟨id + 1, some hyojun, asH (x + btnW + 8), y, btnW, h, onDefault⟩
  hmiAddPushSwitch p ⟨id + 2, some jikko, asH (x + (btnW + 8) * 2), y, btnW, h, onStart⟩

def hmiAddUpdownSelector (p : Panel) (l : Place) (minV maxV initV : Int)
    (unit : Option (List UB)) : Panel :=
  p.add { l.ctrl .updownSelector with
    minVal := minV, maxVal := maxV, val := initV, step := 1, unit := strncpy (unit.getD []) 15 }

def hmiAddRadioSelector (p : Panel) (l : Place) (numOpts initIdx : Int) : Panel :=
  let numOptions := if numOpts > 16 then 16 else numOpts
  p.add { l.ctrl .radioSelector with
    numOptions := numOptions, val := if initIdx ≥ 0 ∧ initIdx < numOptions then initIdx else 0 }

def hmiAddRotarySelector (p : Panel) (l : Place) (numPositions initPos : Int) : Panel :=
  let numOptions := if numPositions > 0 ∧ numPositions ≤ 16 then numPositions else 4
  p.add { l.ctrl .rotarySelector with
    numOptions := numOptions, val := if initPos ≥ 0 ∧ initPos < numOptions then initPos else 0 }

def hmiAddSliderVolume (p : Panel) (l : Place) (minV maxV initV : Int) : Panel :=
  p.add { l.ctrl .sliderVolume with minVal := minV, maxVal := maxV, val := initV, step := 1 }

def hmiAddDialVolume (p : Panel) (l : Place) (minV maxV initV : Int) : Panel :=
  p.add { l.ctrl .dialVolume with minVal := minV, maxVal := maxV, val := initV, step := 1 }

def hmiAddBarMeter (p : Panel) (l : Place) (minV maxV : Int) : Panel :=
  p.add { l.ctrl .barMeter with
    minVal := minV, maxVal := maxV, val := minV, peakVal := minV, onChange := false }

def hmiAddStatusLed (p : Panel) (l : Place) (initColor : LedColor) : Panel :=
  p.add
    { { l with w := 14, h := 14 }.ctrl .statusLed with ledColor := initColor, onChange := false }

def hmiAddDigitalDisplay (p : Panel) (l : Place) (initText : Option (List UB)) : Panel :=
  p.add { l.ctrl .digitalDisplay with unit := strncpy (initText.getD []) 15, onChange := false }

def hmiAddUniversalPad (p : Panel) (l : Place) : Panel :=
  p.add ({ l with label := some "Universal Pad".toUTF8.data.toList }.ctrl .universalPad)

def Panel.modify (p : Panel) (i : Nat) (f : Ctrl → Ctrl) : Panel :=
  { p with controls := p.controls.modify i f }

def Ctrl.setFocused (c : Ctrl) (b : Bool) : Ctrl :=
  { c with flags := { c.flags with focused := b } }

def Ctrl.setPressed (c : Ctrl) (b : Bool) : Ctrl :=
  { c with flags := { c.flags with pressed := b } }

-- The focused part, if there is one.
def Panel.focus (p : Panel) : Option Nat :=
  if p.focusedIndex ≥ 0 ∧ p.focusedIndex < p.controls.length then some p.focusedIndex.toNat
  else none

def Panel.blur (p : Panel) : Panel :=
  match p.focus with
  | some i => p.modify i (·.setFocused false)
  | none => p

def hmiSetFocus (p : Panel) (ctrlIndex : Int) : Panel :=
  let p := p.blur
  match if ctrlIndex ≥ 0 then p.controls[ctrlIndex.toNat]? else none with
  | some c =>
    if !c.flags.disabled then
      { p.modify ctrlIndex.toNat (·.setFocused true) with focusedIndex := ctrlIndex }
    else { p with focusedIndex := -1 }
  | none => { p with focusedIndex := -1 }

-- Whether the focus stops at a part.
def Ctrl.stops (c : Ctrl) : Bool := !c.flags.disabled && c.type ≠ .statusLed && c.type ≠ .barMeter

-- The loops of `hmi_focus_next` and `hmi_focus_prev` over the places they come to.
def focusFirst (p : Panel) : List Nat → Panel
  | [] => p
  | idx :: places =>
    if p.controls[idx]?.any Ctrl.stops then hmiSetFocus p idx else focusFirst p places

def hmiFocusNext (p : Panel) : Panel × ER :=
  let n : Int := p.controls.length
  if n = 0 then (p, E_PAR)
  else
    let start := if p.focusedIndex < 0 then 0 else p.focusedIndex + 1
    let places := (List.range p.controls.length).map fun i => ((start + i).tmod n).toNat
    (focusFirst p places, E_OK)

def hmiFocusPrev (p : Panel) : Panel × ER :=
  let n : Int := p.controls.length
  if n = 0 then (p, E_PAR)
  else
    let start := if p.focusedIndex ≤ 0 then n - 1 else p.focusedIndex - 1
    let places := (List.range p.controls.length).map fun i => ((start - i + n).tmod n).toNat
    (focusFirst p places, E_OK)

def IsInt (n : Int) : Prop := -2147483648 ≤ n ∧ n ≤ 2147483647

instance (n : Int) : Decidable (IsInt n) := inferInstanceAs (Decidable (_ ∧ _))

-- A sum or a difference of ints, which C leaves undefined where it is no int.
def asInt (n : Int) : Option Int := if IsInt n then some n else none

-- `a % b`, which is undefined for 0.
def remainder (a b : Int) : Option Int := if b = 0 then none else some (a.tmod b)

-- `c->step > 0 ? c->step : 1`
def Ctrl.stepBy (c : Ctrl) : Int := if c.step > 0 then c.step else 1

def Ctrl.setChecked (c : Ctrl) (b : Bool) : Ctrl :=
  { c with val := if b then 1 else 0, flags := { c.flags with checked := b } }

-- `c->val = !c->val`, and the flag after it
def Ctrl.toggle (c : Ctrl) : Ctrl := c.setChecked (c.val = 0)

def Ctrl.increase (c : Ctrl) : Option Ctrl := do
  let v ← asInt (c.val + c.stepBy)
  some { c with val := if v > c.maxVal then c.maxVal else v }

def Ctrl.decrease (c : Ctrl) : Option Ctrl := do
  let v ← asInt (c.val - c.stepBy)
  some { c with val := if v < c.minVal then c.minVal else v }

-- What a key does to the focused part, and whether the part tells its callback.
def Ctrl.decValue (c : Ctrl) : Option (Ctrl × Bool) :=
  match c.type with
  | .updownSelector | .sliderVolume | .dialVolume => c.decrease.map (·, true)
  | .radioSelector => do
    let v ← asInt (if c.val ≤ 0 then c.numOptions - 1 else c.val - 1)
    some ({ c with val := v }, true)
  | .toggleSwitch => some (c.setChecked false, true)
  | _ => some (c, false)

def Ctrl.incValue (c : Ctrl) : Option (Ctrl × Bool) :=
  match c.type with
  | .updownSelector | .sliderVolume | .dialVolume => c.increase.map (·, true)
  | .radioSelector => do
    let v ← asInt (c.val + 1)
    let v ← remainder v c.numOptions
    some ({ c with val := v }, true)
  | .toggleSwitch => some (c.setChecked true, true)
  | _ => some (c, false)

def Ctrl.execute (c : Ctrl) : Option (Ctrl × Bool) :=
  match c.type with
  | .pushSwitch => some (c, true)
  | .toggleSwitch => some (c.toggle, true)
  | _ => some (c, false)

def Ctrl.cancel (c : Ctrl) : Option (Ctrl × Bool) := some ({ c with val := c.minVal }, true)

-- The places of the parts whose callbacks are run.
abbrev Told := List Nat

-- A part is changed and tells its callback, if it has one.
def Panel.change (p : Panel) (i : Nat) (f : Ctrl → Option (Ctrl × Bool)) :
    Option (Panel × Told) := do
  let c ← p.controls[i]?
  let (c', told) ← f c
  some (p.modify i fun _ => c', if told && c'.onChange then [i] else [])

def Panel.changeFocused (p : Panel) (f : Ctrl → Option (Ctrl × Bool)) :
    Option (Panel × ER × Told) :=
  match p.focus with
  | some i => (p.change i f).map fun r => (r.1, E_OK, r.2)
  | none => some (p, E_OK, [])

def hmiHandleUniversalKey (p : Panel) : UniversalKey → Option (Panel × ER × Told)
  | .prevItem => some ((hmiFocusPrev p).1, (hmiFocusPrev p).2, [])
  | .nextItem => some ((hmiFocusNext p).1, (hmiFocusNext p).2, [])
  | .decValue => p.changeFocused Ctrl.decValue
  | .incValue => p.changeFocused Ctrl.incValue
  | .execute => p.changeFocused Ctrl.execute
  | .cancel => p.changeFocused Ctrl.cancel
  | .command => some ({ p with showRemote := !p.showRemote }, E_OK, [])
  | .none => some (p, E_OK, [])

def ptInRect (r : Rect) (x y : Int) : Bool :=
  x ≥ r.left && x < r.right && y ≥ r.top && y < r.bottom

-- The universal key of a key of the keyboard.
def universalKey (key : Nat) : Option UniversalKey :=
  if key = 0x40000052 ∨ key = 0x77 ∨ key = 0x6B then some .prevItem
  else if key = 0x40000051 ∨ key = 0x73 ∨ key = 0x6A ∨ key = 0x09 then some .nextItem
  else if key = 0x40000050 ∨ key = 0x61 ∨ key = 0x68 ∨ key = 0x2D then some .decValue
  else if key = 0x4000004F ∨ key = 0x64 ∨ key = 0x6C ∨ key = 0x2B ∨ key = 0x3D then
    some .incValue
  else if key = 0x0D ∨ key = 0x20 ∨ key = 0x6F then some .execute
  else if key = 27 ∨ key = 0x78 ∨ key = 0x71 then some .cancel
  else none

-- What a press does to the part under it. A long has 64 bits.
def Ctrl.press (x y : Int) (c : Ctrl) : Option (Ctrl × Bool) :=
  match c.type with
  | .toggleSwitch => some (c.toggle, true)
  | .radioSelector =>
    let itemH := asH ((c.bounds.bottom - c.bounds.top).tdiv
      (if c.numOptions > 0 then c.numOptions else 1))
    let itemH := if itemH ≤ 0 then 20 else itemH
    let optIdx := (y - c.bounds.top).tdiv itemH
    if optIdx ≥ 0 ∧ optIdx < c.numOptions then some ({ c with val := optIdx }, true)
    else some (c, false)
  | .updownSelector =>
    let midY := asH ((c.bounds.top + c.bounds.bottom).tdiv 2)
    (if y < midY then c.increase else c.decrease).map (·, true)
  | .sliderVolume =>
    let sliderW := asH (c.bounds.right - c.bounds.left - 20)
    if sliderW > 0 then do
      let clickOffset := asH (x - (c.bounds.left + 10))
      let clickOffset := if clickOffset < 0 then 0 else clickOffset
      let clickOffset := if clickOffset > sliderW then sliderW else clickOffset
      let range ← asInt (c.maxVal - c.minVal)
      let v ← asInt (c.minVal + (clickOffset * range).tdiv sliderW)
      some ({ c with val := v }, true)
    else some (c, false)
  | .dialVolume => do
    let v ← asInt (c.val + c.stepBy)
    some ({ c with val := if v > c.maxVal then c.minVal else v }, true)
  | _ => some (c, c.trigger = .touchEdge)

-- The first part under a press that is not disabled.
def pressed (p : Panel) (x y : Int) : Option Nat :=
  p.controls.findIdx? fun c => !c.flags.disabled && ptInRect c.bounds x y

-- The parts that a release calls back.
def released (x y : Int) (c : Ctrl) : Bool :=
  c.flags.pressed && c.trigger = .releaseEdge && ptInRect c.bounds x y && c.onChange

def hmiDispatchEvent (p : Panel) (evt : Evt) : Option (Panel × Bool × Told) :=
  match evt.type with
  | .EV_KEY_DOWN =>
    match universalKey evt.key with
    | some key => (hmiHandleUniversalKey p key).map fun r => (r.1, true, r.2.2)
    | none => some (p, false, [])
  | .EV_BUT_DOWN =>
    match pressed p evt.posX evt.posY with
    | some i =>
      let p := (hmiSetFocus p i).modify i (·.setPressed true)
      (p.change i (Ctrl.press evt.posX evt.posY)).map fun r => (r.1, true, r.2)
    | none => some (p, false, [])
  | .EV_BUT_UP =>
    some ({ p with controls := p.controls.map (·.setPressed false) },
      p.controls.any (·.flags.pressed),
      p.controls.findIdxs (released evt.posX evt.posY))
  | _ => some (p, false, [])

-- The calls of the application, which may also disable a part.
inductive Call
  | addPushSwitch (l : Place)
  | addToggleSwitch (l : Place) (initState : Bool)
  | addStandardTriad (id x y w h : Int) (onCancel onDefault onStart : Bool)
  | addUpdownSelector (l : Place) (minV maxV initV : Int) (unit : Option (List UB))
  | addRadioSelector (l : Place) (numOpts initIdx : Int)
  | addRotarySelector (l : Place) (numPositions initPos : Int)
  | addSliderVolume (l : Place) (minV maxV initV : Int)
  | addDialVolume (l : Place) (minV maxV initV : Int)
  | addBarMeter (l : Place) (minV maxV : Int)
  | addStatusLed (l : Place) (initColor : LedColor)
  | addDigitalDisplay (l : Place) (initText : Option (List UB))
  | addUniversalPad (l : Place)
  | setDisabled (i : Nat) (b : Bool)
  | setFocus (ctrlIndex : Int)
  | focusNext
  | focusPrev
  | universalKey (key : UniversalKey)
  | dispatchEvent (evt : Evt)

def Ctrl.setDisabled (c : Ctrl) (b : Bool) : Ctrl :=
  { c with flags := { c.flags with disabled := b } }

def exec (p : Panel) : Call → Option Panel
  | .addPushSwitch l => some (hmiAddPushSwitch p l)
  | .addToggleSwitch l initState => some (hmiAddToggleSwitch p l initState)
  | .addStandardTriad id x y w h onCancel onDefault onStart =>
    some (hmiAddStandardTriad p id x y w h onCancel onDefault onStart)
  | .addUpdownSelector l minV maxV initV unit =>
    some (hmiAddUpdownSelector p l minV maxV initV unit)
  | .addRadioSelector l numOpts initIdx => some (hmiAddRadioSelector p l numOpts initIdx)
  | .addRotarySelector l numPositions initPos =>
    some (hmiAddRotarySelector p l numPositions initPos)
  | .addSliderVolume l minV maxV initV => some (hmiAddSliderVolume p l minV maxV initV)
  | .addDialVolume l minV maxV initV => some (hmiAddDialVolume p l minV maxV initV)
  | .addBarMeter l minV maxV => some (hmiAddBarMeter p l minV maxV)
  | .addStatusLed l initColor => some (hmiAddStatusLed p l initColor)
  | .addDigitalDisplay l initText => some (hmiAddDigitalDisplay p l initText)
  | .addUniversalPad l => some (hmiAddUniversalPad p l)
  | .setDisabled i b => some (p.modify i (·.setDisabled b))
  | .setFocus ctrlIndex => some (hmiSetFocus p ctrlIndex)
  | .focusNext => some (hmiFocusNext p).1
  | .focusPrev => some (hmiFocusPrev p).1
  | .universalKey key => (hmiHandleUniversalKey p key).map Prod.fst
  | .dispatchEvent evt => (hmiDispatchEvent p evt).map Prod.fst

-- The arguments are ints, and a range is not empty.
def Call.Legal : Call → Prop
  | .addUpdownSelector _ minV maxV initV _ | .addSliderVolume _ minV maxV initV
  | .addDialVolume _ minV maxV initV => IsInt minV ∧ IsInt maxV ∧ IsInt initV ∧ minV ≤ maxV
  | .addBarMeter _ minV maxV => IsInt minV ∧ IsInt maxV ∧ minV ≤ maxV
  | .addRadioSelector _ n i | .addRotarySelector _ n i => IsInt n ∧ IsInt i
  | _ => True

-- A panel, or `none` where a call before was undefined.
def Step (p : Option Panel) (a : Call) (p' : Option Panel) : Prop :=
  a.Legal ∧ p' = p.bind fun p => exec p a

end BTron.Hmi
