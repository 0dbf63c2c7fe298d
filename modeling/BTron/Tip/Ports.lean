import BTron.Lib.Run
import BTron.Tip

namespace BTron.Tip

open Lib Mozc

def maxTipPorts : Nat := 16

def tipOut : Nat := 0x0001
def tipCnv : Nat := 0x0002
def tipCar : Nat := 0x0004
def tipCl : Nat := 0x0008

-- The parts of a TIPREC that iput_key reads: the lengths of its strings, 0 for one that is NULL or
-- whose length is not positive.
structure TipRec where
  outLen : Nat
  cnvLen : Nat

-- What it writes to the TIPREC; `none` is left as it is.
structure TipRecResult where
  result : Nat
  outStr : Option (List UB)
  cnvStr : Option (List UB)
  carPos : Option Nat
  deriving DecidableEq

-- g_tip, g_tip_ports and g_port_used. Only the mode of a port is ever written to anything but 0.
structure Ports where
  tip : TipContext
  portMode : Nat → Int
  portUsed : Nat → Bool

def Ports.start (tip : TipContext) : Ports := ⟨tip, fun _ => 0, fun _ => false⟩

def freePort (s : Ports) : Option Nat := (List.range maxTipPorts).find? fun i => !s.portUsed i

-- The port in use that an id names.
def openPort (s : Ports) (tipid : Int) : Option Nat :=
  let idx := tipid - 1
  if idx < 0 ∨ idx ≥ maxTipPorts ∨ s.portUsed idx.toNat = false then none else some idx.toNat

def iopnTip (s : Ports) : Ports × Int :=
  match freePort s with
  | some i =>
    ({ s with
        portUsed := Function.update s.portUsed i true
        portMode := Function.update s.portMode i 1 }, i + 1)
  | none => (s, E_LIMIT)

def iclsTip (s : Ports) (tipid : Int) : Ports × ER :=
  match openPort s tipid with
  | some i => ({ s with portUsed := Function.update s.portUsed i false }, E_OK)
  | none => (s, E_ID)

def ichgMod (s : Ports) (tipid mode : Int) : Ports × ER :=
  match openPort s tipid with
  | some i => ({ s with portMode := Function.update s.portMode i mode }, E_OK)
  | none => (s, E_ID)

-- The TIPREC once a key is processed.
def fillRecord (r : KeyResult) (rec : TipRec) : TipRecResult :=
  let commit := cstr r.commit
  let composing := r.context.state ≠ .idle
  { result := (if commit ≠ [] then tipOut else 0) |||
      (if composing then tipCnv ||| tipCar else 0) |||
      (if r.context.candidateWindowVisible then tipCl else 0)
    outStr := if commit ≠ [] ∧ 0 < rec.outLen then some (commit.take (rec.outLen - 1)) else none
    cnvStr :=
      if composing ∧ 0 < rec.cnvLen then some (tipGetConvertedText r.context rec.cnvLen) else none
    carPos := if composing then some (tipGetCompositionLength r.context) else none }

-- The id is not looked at; NULL for the TIPREC is `none`.
def iputKey (d : UserDictionary) (left : Leftover) (s : Ports) (_tipid : Int) (key mod : Nat)
    (rec : Option TipRec) : Ports × Int × Option TipRecResult :=
  match rec with
  | none => (s, 0, none)
  | some rec =>
    let r := tipProcessKey d left s.tip key mod tipMaxPrecompLen
    ({ s with tip := r.context }, if r.handled then 1 else 0, some (fillRecord r rec))

inductive PortCall where
  | iopnTip
  | iclsTip (tipid : Int)
  | ichgMod (tipid mode : Int)
  | iputKey (left : Leftover) (tipid : Int) (key mod : Nat) (rec : Option TipRec)

def PortCall.exec (d : UserDictionary) (s : Ports) : PortCall → Ports
  | .iopnTip => (Tip.iopnTip s).1
  | .iclsTip tipid => (Tip.iclsTip s tipid).1
  | .ichgMod tipid mode => (Tip.ichgMod s tipid mode).1
  | .iputKey left tipid key mod rec => (Tip.iputKey d left s tipid key mod rec).1

def PortStep (d : UserDictionary) (s : Ports) (call : PortCall) (s' : Ports) : Prop :=
  call.exec d s = s'

def PortCall.tipid : PortCall → Option Int
  | .iopnTip => none
  | .iclsTip tipid => some tipid
  | .ichgMod tipid _ => some tipid
  | .iputKey _ tipid _ _ _ => some tipid

-- The calls made on port `p` since it was opened, the last one first.
def callsSince (p : Nat) : List (Ports × PortCall) → List PortCall
  | [] => []
  | (s, call) :: tr =>
    match call.tipid with
    | none => if freePort s = some p then [] else callsSince p tr
    | some tipid => if tipid = p + 1 then call :: callsSince p tr else callsSince p tr

-- The front end after the calls of one port.
def afterCalls (d : UserDictionary) (tip : TipContext) : List PortCall → TipContext
  | [] => tip
  | .iputKey left _ key mod (some _) :: calls =>
    (tipProcessKey d left (afterCalls d tip calls) key mod tipMaxPrecompLen).context
  | _ :: calls => afterCalls d tip calls

-- Keys go to port `p` while it is open, and it is opened where the front end is still as it was.
def Solo (tip : TipContext) (p : Nat) (s : Ports) : PortCall → Prop
  | .iputKey _ tipid _ _ (some _) => tipid = p + 1 ∧ s.portUsed p = true
  | .iopnTip => freePort s = some p → s.tip = tip
  | _ => True

section Isolation

variable {d : UserDictionary} {tip : TipContext} {p : Nat} {s s' : Ports}
  {tr : List (Ports × PortCall)}

theorem iopnTip_used (h : (iopnTip s).1.portUsed p = true) :
    freePort s = some p ∨ s.portUsed p = true := by
  unfold iopnTip at h
  split at h
  · rename_i i hfree
    by_cases hi : p = i
    · exact .inl (hi ▸ hfree)
    · refine .inr ?_
      simpa [Function.update_of_ne hi] using h
  · exact .inr h

theorem iclsTip_used {tipid : Int} (h : (iclsTip s tipid).1.portUsed p = true) :
    s.portUsed p = true := by
  unfold iclsTip at h
  split at h
  · rename_i i _
    by_cases hi : p = i
    · subst hi
      simp at h
    · simpa [Function.update_of_ne hi] using h
  · exact h

theorem iclsTip_tip (s : Ports) (tipid : Int) : (iclsTip s tipid).1.tip = s.tip := by
  unfold iclsTip
  split <;> rfl

theorem ichgMod_fields (s : Ports) (tipid mode : Int) :
    (ichgMod s tipid mode).1.tip = s.tip ∧ (ichgMod s tipid mode).1.portUsed = s.portUsed := by
  unfold ichgMod
  split <;> exact ⟨rfl, rfl⟩

theorem iopnTip_tip (s : Ports) : (iopnTip s).1.tip = s.tip := by
  unfold iopnTip
  split <;> rfl

-- Only keys count.
theorem afterCalls_since {call : PortCall} {tipid : Int} (hid : call.tipid = some tipid)
    (hkey : ∀ left key mod rec, call ≠ .iputKey left tipid key mod (some rec)) :
    afterCalls d tip (callsSince p ((s, call) :: tr)) = afterCalls d tip (callsSince p tr) := by
  rw [callsSince, hid]
  dsimp only
  split
  · cases call with
    | iopnTip => cases hid
    | iclsTip => rfl
    | ichgMod => rfl
    | iputKey left _ key mod rec =>
        cases hid
        cases rec with
        | none => rfl
        | some rec => exact absurd rfl (hkey left key mod rec)
  · rfl

-- Where the keys go to one port, the front end is its own.
theorem tip_eq_afterCalls (htr : Trace (PortStep d) (Ports.start tip) tr s)
    (hsolo : ∀ t ∈ tr, Solo tip p t.1 t.2) (hopen : s.portUsed p = true) :
    s.tip = afterCalls d tip (callsSince p tr) := by
  induction htr with
  | start => cases hopen
  | @next tr s call s' _ hstep ih =>
      rw [List.forall_mem_cons] at hsolo
      cases hstep
      have hprev := ih hsolo.2
      cases call with
      | iopnTip =>
          have hnow := hsolo.1
          dsimp only [PortCall.exec] at hopen ⊢
          rw [iopnTip_tip, callsSince]
          dsimp only [PortCall.tipid]
          split
          · rename_i hfree
            exact hnow hfree
          · rename_i hfree
            exact hprev ((iopnTip_used hopen).resolve_left hfree)
      | iclsTip tipid =>
          dsimp only [PortCall.exec] at hopen ⊢
          rw [afterCalls_since rfl (by simp), iclsTip_tip]
          exact hprev (iclsTip_used hopen)
      | ichgMod tipid mode =>
          dsimp only [PortCall.exec] at hopen ⊢
          rw [(ichgMod_fields s tipid mode).2] at hopen
          rw [afterCalls_since rfl (by simp), (ichgMod_fields s tipid mode).1]
          exact hprev hopen
      | iputKey left tipid key mod rec =>
          cases rec with
          | none =>
              rw [afterCalls_since rfl (by simp)]
              exact hprev hopen
          | some rec =>
              obtain ⟨hid, hused⟩ := hsolo.1
              have hsince : callsSince p ((s, .iputKey left tipid key mod (some rec)) :: tr) =
                  .iputKey left tipid key mod (some rec) :: callsSince p tr := if_pos hid
              rw [hsince, afterCalls, ← hprev hused]
              rfl

theorem exec_used_lt {call : PortCall} (h : ∀ i, s.portUsed i = true → i < maxTipPorts)
    (hstep : PortStep d s call s') : ∀ i, s'.portUsed i = true → i < maxTipPorts := by
  cases hstep
  intro i hi
  cases call with
  | iopnTip =>
      obtain hfree | hused := iopnTip_used hi
      · exact List.mem_range.mp (List.mem_of_find?_eq_some hfree)
      · exact h i hused
  | iclsTip tipid => exact h i (iclsTip_used hi)
  | ichgMod tipid mode =>
      dsimp only [PortCall.exec] at hi
      rw [(ichgMod_fields s tipid mode).2] at hi
      exact h i hi
  | iputKey left tipid key mod rec => cases rec <;> exact h i hi

theorem openPort_of_used (hp : p < maxTipPorts) (hused : s.portUsed p = true) :
    openPort s (p + 1) = some p := by
  unfold openPort
  simp [hused, hp]

-- In two runs whose keys go to one port a key on it has the same results after the same calls on
-- it, and a key on an id that names no open port changes nothing.
theorem ports_isolated {tr' : List (Ports × PortCall)}
    (htr : Trace (PortStep d) (Ports.start tip) tr s)
    (htr' : Trace (PortStep d) (Ports.start tip) tr' s')
    (hsolo : ∀ t ∈ tr, Solo tip p t.1 t.2) (hsolo' : ∀ t ∈ tr', Solo tip p t.1 t.2) :
    (s.portUsed p = true → s'.portUsed p = true → callsSince p tr = callsSince p tr' →
      ∀ left key mod rec, (iputKey d left s (p + 1) key mod rec).2 =
        (iputKey d left s' (p + 1) key mod rec).2) ∧
    ∀ t ∈ tr, ∀ left tipid key mod rec, t.2 = .iputKey left tipid key mod rec →
      openPort t.1 tipid = none → t.2.exec d t.1 = t.1 := by
  constructor
  · intro hopen hopen' hsame left key mod rec
    have htip : s.tip = s'.tip := by
      rw [tip_eq_afterCalls htr hsolo hopen, tip_eq_afterCalls htr' hsolo' hopen', hsame]
    cases rec with
    | none => rfl
    | some rec => simp only [iputKey, htip]
  · rintro ⟨s₁, call⟩ ht left tipid key mod rec hcall hclosed
    dsimp only at hcall hclosed ⊢
    subst hcall
    cases rec with
    | none => rfl
    | some rec =>
        obtain ⟨rfl, hused⟩ := hsolo _ ht
        have hlt := (htr.always (fun i hi => by cases hi) fun _ _ _ h hstep =>
          exec_used_lt h hstep).2 _ ht p hused
        rw [openPort_of_used hlt hused] at hclosed
        cases hclosed

end Isolation

-- A key without modifiers and without a user word, for an id.
def pressOn (tipid : Int) (key : Nat) : PortCall :=
  .iputKey ⟨fun _ _ => 0, fun _ _ => 0⟩ tipid key 0 (some ⟨64, 64⟩)

def pressed (s : Ports) (tipid : Int) (key : Nat) : Ports × Int × Option TipRecResult :=
  iputKey .empty ⟨fun _ _ => 0, fun _ _ => 0⟩ s tipid key 0 (some ⟨64, 64⟩)

def afterPortCalls (calls : List PortCall) : Ports :=
  calls.foldl (PortCall.exec .empty) (Ports.start tipInit)

-- A second port that is opened and gets a mode does not change what the first one returns.
theorem ports_isolated_two_ports :
    (pressed (afterPortCalls [.iopnTip, pressOn 1 0x61]) 1 0x62).2 =
      (pressed (afterPortCalls [.iopnTip, .iopnTip, .ichgMod 2 3, pressOn 1 0x61]) 1 0x62).2 := by
  have htr : Trace (PortStep .empty) (Ports.start tipInit)
      [(afterPortCalls [.iopnTip], pressOn 1 0x61), (Ports.start tipInit, .iopnTip)]
      (afterPortCalls [.iopnTip, pressOn 1 0x61]) := .next (.next .start rfl) rfl
  have htr' : Trace (PortStep .empty) (Ports.start tipInit)
      [(afterPortCalls [.iopnTip, .iopnTip, .ichgMod 2 3], pressOn 1 0x61),
        (afterPortCalls [.iopnTip, .iopnTip], .ichgMod 2 3), (afterPortCalls [.iopnTip], .iopnTip),
        (Ports.start tipInit, .iopnTip)]
      (afterPortCalls [.iopnTip, .iopnTip, .ichgMod 2 3, pressOn 1 0x61]) :=
    .next (.next (.next (.next .start rfl) rfl) rfl) rfl
  refine (ports_isolated (p := 0) htr htr' ?_ ?_).1 rfl rfl rfl _ _ _ _
  · simp only [List.forall_mem_cons]
    exact ⟨⟨rfl, rfl⟩, fun _ => rfl, List.forall_mem_nil _⟩
  · simp only [List.forall_mem_cons]
    exact ⟨⟨rfl, rfl⟩, trivial, fun _ => rfl, fun _ => rfl, List.forall_mem_nil _⟩

-- A key on the second port changes what the first one returns, a port that is opened again goes on
-- with the old composition, and a key on an id that was never opened changes the front end.
theorem ports_share_front_end :
    (∃ tr tr',
      Trace (PortStep .empty) (Ports.start tipInit) tr
        (afterPortCalls [.iopnTip, .iopnTip, pressOn 2 0x61]) ∧
      Trace (PortStep .empty) (Ports.start tipInit) tr' (afterPortCalls [.iopnTip, .iopnTip]) ∧
      (afterPortCalls [.iopnTip, .iopnTip, pressOn 2 0x61]).portUsed 0 = true ∧
      (afterPortCalls [.iopnTip, .iopnTip]).portUsed 0 = true ∧
      callsSince 0 tr = callsSince 0 tr' ∧
      (pressed (afterPortCalls [.iopnTip, .iopnTip, pressOn 2 0x61]) 1 0x61).2 ≠
        (pressed (afterPortCalls [.iopnTip, .iopnTip]) 1 0x61).2) ∧
    (∃ tr tr',
      Trace (PortStep .empty) (Ports.start tipInit) tr
        (afterPortCalls [.iopnTip, pressOn 1 0x61, .iclsTip 1, .iopnTip]) ∧
      Trace (PortStep .empty) (Ports.start tipInit) tr' (afterPortCalls [.iopnTip]) ∧
      (afterPortCalls [.iopnTip, pressOn 1 0x61, .iclsTip 1, .iopnTip]).portUsed 0 = true ∧
      (afterPortCalls [.iopnTip]).portUsed 0 = true ∧
      callsSince 0 tr = callsSince 0 tr' ∧
      (pressed (afterPortCalls [.iopnTip, pressOn 1 0x61, .iclsTip 1, .iopnTip]) 1 0x61).2 ≠
        (pressed (afterPortCalls [.iopnTip]) 1 0x61).2) ∧
    openPort (Ports.start tipInit) 5 = none ∧
      (pressed (Ports.start tipInit) 5 0x61).1 ≠ Ports.start tipInit := by
  refine ⟨?_, ?_, by decide, ?_⟩
  · refine ⟨[(afterPortCalls [.iopnTip, .iopnTip], pressOn 2 0x61),
        (afterPortCalls [.iopnTip], .iopnTip), (Ports.start tipInit, .iopnTip)],
      [(afterPortCalls [.iopnTip], .iopnTip), (Ports.start tipInit, .iopnTip)],
      .next (.next (.next .start rfl) rfl) rfl, .next (.next .start rfl) rfl, rfl, rfl, rfl, ?_⟩
    decide
  · refine ⟨[(afterPortCalls [.iopnTip, pressOn 1 0x61, .iclsTip 1], .iopnTip),
        (afterPortCalls [.iopnTip, pressOn 1 0x61], .iclsTip 1),
        (afterPortCalls [.iopnTip], pressOn 1 0x61), (Ports.start tipInit, .iopnTip)],
      [(Ports.start tipInit, .iopnTip)],
      .next (.next (.next (.next .start rfl) rfl) rfl) rfl, .next .start rfl, rfl, rfl, rfl, ?_⟩
    decide
  · intro h
    have hstate := congrArg (fun s => s.tip.state) h
    revert hstate
    decide

end BTron.Tip
