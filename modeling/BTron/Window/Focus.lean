import BTron.Window.Arrange
import BTron.Window.Interactions

namespace BTron.Window

open Lib

-- What a program reads of a window when it types into it.
def WndMgr.seen (s : WndMgr) (p : Nat) : Option (Bool × Nat) :=
  (s.mem p).map fun v => (v.visible, v.eventHandler)

-- A window that gets keys is in sight.
def WndMgr.Typable (s : WndMgr) (p : Nat) : Prop :=
  ∀ v, s.mem p = some v → v.eventHandler ≠ 0 → v.visible

-- What the shell and the programs do to the windows. `change` is a program that fills in records.
inductive Op
  | call (a : Act)
  | hideAll
  | cascadeAll (mem : Nat → Bool)
  | tileAll (screen : Option (Int × Int)) (mem : Nat → Bool)
  | press (x y : Int) (hook : (Nat → Option Wnd) → Nat → Option Wnd)
  | trackerSelect (targetWnd : Nat)
  | menuSelect (targetWIdx : Nat)
  | change (f : (Nat → Option Wnd) → Nat → Option Wnd)

def State.withWm (s : State) (wm : WndMgr) : State := { s with wm := wm }

def perform (s : State) : Op → Option State
  | .call a => (exec s.wm a).map s.withWm
  | .hideAll => (wndHideAll s.wm).map s.withWm
  | .cascadeAll mem => (wndCascadeAll s.wm mem).map s.withWm
  | .tileAll screen mem => (wndTileAll s.wm screen mem).map s.withWm
  | .press x y hook => (wndMgrHandleEvent s (some ⟨.EV_BUT_DOWN, x, y⟩) true hook).map Prod.fst
  | .trackerSelect targetWnd => (trackerSelect s.wm targetWnd).map s.withWm
  | .menuSelect targetWIdx => (menuSelect s.wm targetWIdx).map s.withWm
  | .change f => some (s.withWm { s.wm with mem := f s.wm.mem })

-- A destroy hook shows and hides no window and gives none a handler.
def Spares (mem mem' : Nat → Option Wnd) : Prop :=
  KeepsList mem mem' ∧ ∀ p, (mem' p).map (fun v => (v.visible, v.eventHandler)) =
    (mem p).map fun v => (v.visible, v.eventHandler)

-- A program shows and hides no window, and gives a handler to one that it has just opened.
def Fills (mem mem' : Nat → Option Wnd) : Prop :=
  KeepsList mem mem' ∧ ∀ p v v', mem p = some v → mem' p = some v' →
    v'.visible = v.visible ∧ (v'.eventHandler ≠ 0 → v.eventHandler ≠ 0 ∨ v.visible)

def Op.Legal (s : State) : Op → Prop
  | .call a => a.Legal s.wm ∧ ∀ p hook, a = .cls p hook → Spares s.wm.mem (hook s.wm.mem)
  | .press _ _ hook => ∀ mem, Spares mem (hook mem)
  | .change f => Fills s.wm.mem (f s.wm.mem)
  | _ => True

def Performs (s : State) (op : Op) (s' : State) : Prop := op.Legal s ∧ perform s op = some s'

-- A key goes to no window but a visible one.
def KeysSeen (s : State) : Prop :=
  ∀ x y mem hook s' b p,
    wndMgrHandleEvent s (some ⟨.EV_KEY_DOWN, x, y⟩) mem hook = some (s', b, some p) →
      (s.wm.mem p).map Wnd.visible = some true

-- The window that is selected. To cycle is nothing where there is no second window.
def Op.Selects (s : WndMgr) (p : Nat) : Op → Prop
  | .trackerSelect targetWnd => targetWnd = p
  | .menuSelect targetWIdx => menuTarget s targetWIdx = some (some p)
  | .call .cycle => ∃ q, s.head = some q ∧ s.next q ≠ none ∧ lastWnd s s.count q = some p
  | _ => False

structure InFront (s : WndMgr) (p : Nat) : Prop where
  visible : (s.mem p).map Wnd.visible = some true
  head : s.head = some p
  focused : ∀ q, s.focus q = some true ↔ q = p

-- The window that comes to the front when the one at p is closed gets no keys unseen.
def WndMgr.UncoversSeen (s : WndMgr) (p : Nat) : Prop :=
  s.head = some p → ∀ q, s.next p = some q → s.Typable q

-- No window that is hidden gets the keys, and none is hidden that has them.
def Op.InSight (s : State) : Op → Prop
  | .call (.top (some p)) => s.wm.Typable p
  | .call (.cls (some p) _) => s.wm.UncoversSeen p
  | .press x y _ =>
    match pressEffect s.wm x y with
    | .close p => s.wm.UncoversSeen p
    | _ => True
  | .hideAll => ∀ p v, s.wm.head = some p → s.wm.mem p = some v → v.eventHandler = 0
  | .trackerSelect p => (s.wm.mem p).map Wnd.visible = some true
  | _ => True

section Seen

variable {s s' : WndMgr} {ps : List Nat} {p : Nat}

theorem typable_congr (h : s'.seen p = s.seen p) : s'.Typable p ↔ s.Typable p := by
  have himp : ∀ {s s' : WndMgr}, s'.seen p = s.seen p → s.Typable p → s'.Typable p := by
    intro s s' h htyp v hv hhandler
    rw [WndMgr.seen, WndMgr.seen, hv, Option.map_some] at h
    obtain ⟨w, hw, heq⟩ := Option.map_eq_some_iff.mp h.symm
    rw [Prod.mk.injEq] at heq
    rw [← heq.1]
    exact htyp w hw (by rw [heq.2]; exact hhandler)
  exact ⟨himp h.symm, himp h⟩

theorem SameBare.seen (h : SameBare s s') (p : Nat) : s'.seen p = s.seen p := by
  have hview : ∀ m : Option Wnd, m.map (fun v => (v.visible, v.eventHandler)) =
      (m.map Wnd.bare).map fun v => (v.visible, v.eventHandler) := by
    rintro (_ | _) <;> rfl
  rw [WndMgr.seen, WndMgr.seen, hview, h p, ← hview]

theorem topClient_eq (h : Represents s ps) {p : Nat} (hhead : s.head = some p) {v : Wnd}
    (hv : s.mem p = some v) :
    topClient s = some (if v.eventHandler ≠ 0 then some p else none) := by
  have hp : ps.head? = some p := h.head ▸ hhead
  have hfocus := h.focus p (mem_of_head? hp)
  rw [WndMgr.focus, hv, Option.map_some, decide_eq_true hp] at hfocus
  unfold topClient
  rw [hhead]
  simp only [hv, Option.map_some, Option.some.inj hfocus, Bool.true_and, bne_iff_ne]

-- The keys go to the window in front.
theorem keysSeen_iff {s : State} (h : Represents s.wm ps) :
    KeysSeen s ↔ ∀ p, s.wm.head = some p → s.wm.Typable p := by
  have hkey : ∀ x y mem hook, wndMgrHandleEvent s (some ⟨.EV_KEY_DOWN, x, y⟩) mem hook =
      (topClient s.wm).bind fun client => some (s, client.isSome, client) := fun _ _ _ _ => rfl
  constructor
  · intro hseen p hhead v hv hhandler
    have hdeliver := hseen 0 0 true id s true p
    rw [hkey, topClient_eq h hhead hv, if_pos hhandler, Option.bind_some, hv] at hdeliver
    exact Option.some.inj (hdeliver rfl)
  · intro htyp x y mem hook s' b p hdeliver
    rw [hkey, Option.bind_eq_some_iff] at hdeliver
    obtain ⟨client, hclient, heq⟩ := hdeliver
    cases heq
    cases hhead : s.wm.head with
    | none =>
        unfold topClient at hclient
        rw [hhead] at hclient
        cases hclient
    | some q =>
        have hq : ps.head? = some q := h.head ▸ hhead
        obtain ⟨v, hv⟩ := Option.ne_none_iff_exists'.mp (h.all_live q (mem_of_head? hq))
        rw [topClient_eq h hhead hv] at hclient
        split at hclient
        · rename_i hhandler
          obtain rfl := Option.some.inj (Option.some.inj hclient)
          rw [hv, Option.map_some, htyp q hhead v hv hhandler]
        · cases hclient

-- The head of the list has the focus, and no other window.
theorem focused_iff (h : Represents s ps) (hhead : s.head = some p) (q : Nat) :
    s.focus q = some true ↔ q = p := by
  have hp : ps.head? = some p := h.head ▸ hhead
  by_cases hq : q ∈ ps
  · rw [h.focus q hq, hp, Option.some.injEq, decide_eq_true_eq, Option.some.injEq, eq_comm]
  · have hnone : s.focus q = none := by
      rw [WndMgr.focus, not_not.mp ((h.live q).not.mpr hq)]
      rfl
    rw [hnone]
    refine iff_of_false (by simp) ?_
    rintro rfl
    exact hq (mem_of_head? hp)

theorem inFront_iff (h : Represents s ps) (hhead : s.head = some p) :
    InFront s p ↔ (s.mem p).map Wnd.visible = some true :=
  ⟨fun hf => hf.visible, fun hvis => ⟨hvis, hhead, focused_iff h hhead⟩⟩

theorem typable_of_visible (h : (s.mem p).map Wnd.visible = some true) : s.Typable p := by
  intro v hv _
  rw [hv, Option.map_some] at h
  exact Option.some.inj h

-- The window in front gets no keys unseen.
def FrontSeen (s : WndMgr) : Prop := ∀ p, s.head = some p → s.Typable p

theorem frontSeen_of_visible (hhead : s.head = some p)
    (hvis : (s.mem p).map Wnd.visible = some true) : FrontSeen s := by
  intro q hq
  obtain rfl := Option.some.inj (hhead.symm.trans hq)
  exact typable_of_visible hvis

theorem visible_congr (h : s'.seen p = s.seen p) :
    (s'.mem p).map Wnd.visible = (s.mem p).map Wnd.visible := by
  have hview : ∀ m : Option Wnd, m.map Wnd.visible =
      (m.map fun v => (v.visible, v.eventHandler)).map Prod.fst := by
    rintro (_ | _) <;> rfl
  rw [hview, hview (s.mem p)]
  exact congrArg _ h

-- A window is brought to the front.
theorem topWnd_front (h : Represents s ps) (hp : p ∈ ps) {er : ER}
    (htop : topWnd s (some p) = some (s', er)) :
    Represents s' (p :: ps.erase p) ∧ SameBare s s' := by
  obtain ⟨s'', er', htop', h'⟩ := h.topWnd_spec (some p)
  rw [htop, Option.some.injEq, Prod.mk.injEq] at htop'
  obtain ⟨rfl, rfl⟩ := htop'
  rw [Act.apply, if_pos hp] at h'
  exact ⟨h', sameBare_topWnd htop⟩

theorem topWnd_frontSeen (h : Represents s ps) (hfront : FrontSeen s) {er : ER}
    (htop : topWnd s (some p) = some (s', er)) : FrontSeen s' ↔ s.Typable p := by
  by_cases hp : p ∈ ps
  · obtain ⟨h', hsame⟩ := topWnd_front h hp htop
    rw [← typable_congr (hsame.seen p)]
    constructor
    · exact fun hfront' => hfront' p h'.head
    · intro htyp q hq
      obtain rfl := Option.some.inj (h'.head.symm.trans hq)
      exact htyp
  · rw [h.top_absent hp, Option.some.injEq, Prod.mk.injEq] at htop
    obtain ⟨rfl, -⟩ := htop
    refine iff_of_true hfront fun v hv => ?_
    rw [not_not.mp ((h.live p).not.mpr hp)] at hv
    cases hv

-- The window at p is gone, and the rest is as it was.
theorem erase_frontSeen (h : Represents s ps) (hfront : FrontSeen s)
    (h' : Represents s' (ps.erase p)) (hseen : ∀ z, z ≠ p → s'.seen z = s.seen z) :
    FrontSeen s' ↔ s.UncoversSeen p := by
  have hhead := h.head
  have hhead' := h'.head
  cases ps with
  | nil =>
      refine iff_of_true (fun q hq => ?_) fun hp => ?_
      · cases hhead'.symm.trans hq
      · cases hhead.symm.trans hp
  | cons c rest =>
      by_cases hc : c = p
      · subst hc
        rw [List.erase_cons_head] at hhead'
        have hnext : s.next c = rest.head? := by
          rw [h.links.2.1, Option.or_none]
        have hne : ∀ q, rest.head? = some q → q ≠ c := by
          rintro q hq rfl
          exact (List.nodup_cons.mp h.nodup).1 (mem_of_head? hq)
        rw [FrontSeen, WndMgr.UncoversSeen, hhead', hnext]
        constructor
        · exact fun hfront' _ q hq => (typable_congr (hseen q (hne q hq))).mp (hfront' q hq)
        · exact fun huncovers q hq =>
            (typable_congr (hseen q (hne q hq))).mpr (huncovers hhead q hq)
      · rw [List.erase_cons_tail (by simpa using hc)] at hhead'
        refine iff_of_true (fun q hq => ?_) fun hp => ?_
        · obtain rfl := Option.some.inj (hhead'.symm.trans hq)
          exact (typable_congr (hseen c hc)).mpr (hfront c hhead)
        · exact absurd (Option.some.inj (hhead.symm.trans hp)) hc

theorem clsWnd_seen {hook : (Nat → Option Wnd) → Nat → Option Wnd} {er : ER}
    (hspares : Spares s.mem (hook s.mem)) (hcls : clsWnd s (some p) hook = some (s', er)) :
    ∀ z, z ≠ p → s'.seen z = s.seen z := by
  simp only [clsWnd, Option.bind_eq_bind, Option.bind_eq_some_iff] at hcls
  obtain ⟨v, -, s₁, h₁, w, -, s₂, h₂, heq⟩ := hcls
  obtain ⟨rfl, -⟩ := Prod.mk.inj (Option.some.inj heq)
  intro z hz
  have hfree : (s₂.free p).seen z = s₂.seen z := by
    rw [WndMgr.seen, WndMgr.free]
    simp only [if_neg hz]
    rfl
  have hhook : ∀ b : Prop, [Decidable b] →
      (if b then { s with mem := hook s.mem } else s).seen z = s.seen z := by
    intro b _
    split
    · exact hspares.2 z
    · rfl
  have hhead : (if s₁.head = some p then { s₁ with head := w.next } else s₁).seen z =
      s₁.seen z := by
    split <;> rfl
  rw [hfree, (sameBare_writeIf h₂ fun _ => rfl).seen z, hhead, (sameBare_unlink h₁).seen z, hhook]

theorem opnWnd_front {title : Option (Nat → UB)} {x y w ht : Int} {attr : Nat} {mem : Bool}
    {q : Option Nat} (hopn : opnWnd s (some p) title x y w ht attr mem = some (s', q)) :
    s'.head = some p ∧ (s'.mem p).map Wnd.visible = some true := by
  rw [opnWnd] at hopn
  split at hopn
  · cases hopn
  · simp only [Option.bind_eq_bind, Option.bind_eq_some_iff] at hopn
    obtain ⟨s₁, h₁, s₂, h₂, heq⟩ := hopn
    obtain ⟨rfl, -⟩ := Prod.mk.inj (Option.some.inj heq)
    refine ⟨rfl, ?_⟩
    have hsame := ((sameBare_write h₁ fun _ => rfl).trans (sameBare_writeIf h₂ fun _ => rfl)).seen p
    refine (visible_congr (s := { s.alloc p (newWnd s.nextId title x y w ht attr mem) with
      nextId := s.nextId + 1 }) hsame).trans ?_
    simp [WndMgr.alloc, newWnd]

theorem wrszWnd_list (v : Wnd) (r : Graphics.Rect) (mem : Bool) :
    ((wrszWnd v r mem).id, (wrszWnd v r mem).focused, (wrszWnd v r mem).next,
      (wrszWnd v r mem).prev) = (v.id, v.focused, v.next, v.prev) :=
  rszWnd_list _ _ _ mem

theorem wrszWnd_seen (v : Wnd) (r : Graphics.Rect) (mem : Bool) :
    ((wrszWnd v r mem).visible, (wrszWnd v r mem).eventHandler) = (v.visible, v.eventHandler) := by
  cases hdev : v.dev <;>
    simp only [wrszWnd, movWnd, rszWnd, wsetTabOffset, hdev, apply_ite Wnd.visible,
      apply_ite Wnd.eventHandler, ite_self]

def SameSeen (v w : Wnd) : Prop := (w.visible, w.eventHandler) = (v.visible, v.eventHandler)

theorem place_keeping (place : Nat → Graphics.Rect) (mem : Nat → Bool) :
    Keeping SameSeen fun idx v =>
      if v.visible then wrszWnd v (place idx) (mem idx) else v := by
  constructor
  · intro i v
    split
    · exact wrszWnd_list v _ _
    · rfl
  · intro i v
    split
    · exact wrszWnd_seen v _ _
    · exact rfl

-- To put the windows in places changes neither the front nor what is seen of it.
theorem place_frontSeen (h : Represents s ps) (hfront : FrontSeen s)
    {place : Nat → Graphics.Rect} {mem : Nat → Bool}
    (heach : eachWnd (fun idx v => if v.visible then wrszWnd v (place idx) (mem idx) else v)
      (s.count + 1) s 0 s.head = some s') : Represents s' ps ∧ FrontSeen s' := by
  obtain ⟨s'', hs'', h', hseen⟩ := eachWnd_spec (place_keeping place mem) h
  obtain rfl := Option.some.inj (heach.symm.trans hs'')
  refine ⟨h', fun p hp => (typable_congr ?_).mpr (hfront p ?_)⟩
  · have hin : p ∈ ps := mem_of_head? (h'.head ▸ hp)
    obtain ⟨v, hv⟩ := Option.ne_none_iff_exists'.mp (h.all_live p hin)
    obtain ⟨w, hw, hsame⟩ := hseen p v hv
    rw [WndMgr.seen, WndMgr.seen, hv, hw, Option.map_some, Option.map_some, hsame]
  · rw [h.head, ← h'.head, hp]

theorem hideAll_frontSeen (h : Represents s ps) (hhide : wndHideAll s = some s') :
    Represents s' ps ∧
      (FrontSeen s' ↔ ∀ p v, s.head = some p → s.mem p = some v → v.eventHandler = 0) := by
  have hkeeping : Keeping (fun v w => w.visible = false ∧ w.eventHandler = v.eventHandler)
      (fun _ v => { v with visible := false }) := ⟨fun _ _ => rfl, fun _ _ => ⟨rfl, rfl⟩⟩
  obtain ⟨s'', hs'', h', hhidden⟩ := eachWnd_spec hkeeping h
  obtain rfl := Option.some.inj (hhide.symm.trans hs'')
  have hhead : s'.head = s.head := by rw [h.head, h'.head]
  refine ⟨h', ?_⟩
  rw [FrontSeen, hhead]
  constructor
  · intro hfront p v hp hv
    obtain ⟨w, hw, hvis, hhandler⟩ := hhidden p v hv
    by_contra hne
    have hshown := hfront p hp w hw (by rwa [hhandler])
    rw [hvis] at hshown
    cases hshown
  · intro hnone p hp w hw hne
    have hin : p ∈ ps := mem_of_head? (h.head ▸ hp)
    obtain ⟨v, hv⟩ := Option.ne_none_iff_exists'.mp (h.all_live p hin)
    obtain ⟨w', hw', -, hhandler⟩ := hhidden p v hv
    obtain rfl := Option.some.inj (hw.symm.trans hw')
    exact absurd (hhandler.trans (hnone p v hp hv)) hne

theorem trackerSelect_frontSeen (h : Represents s ps) (hsel : trackerSelect s p = some s') :
    (∃ ps', Represents s' ps') ∧ s'.head = some p ∧
      (s'.mem p).map Wnd.visible = (s.mem p).map Wnd.visible ∧
      (FrontSeen s' ↔ s.Typable p) := by
  simp only [trackerSelect, Option.bind_eq_bind, Option.bind_eq_some_iff] at hsel
  obtain ⟨⟨s₁, er⟩, htop, hwrite⟩ := hsel
  have hlive : s₁.mem p ≠ none := by
    rw [WndMgr.write, Option.map_eq_some_iff] at hwrite
    obtain ⟨v, hv, -⟩ := hwrite
    exact Option.ne_none_iff_exists'.mpr ⟨v, hv⟩
  have hp : p ∈ ps := by
    obtain ⟨s₂, er', htop', h₁⟩ := h.topWnd_spec (some p)
    rw [htop, Option.some.injEq, Prod.mk.injEq] at htop'
    obtain ⟨rfl, -⟩ := htop'
    by_contra hnot
    rw [Act.apply, if_neg hnot] at h₁
    exact hnot ((h₁.live p).mp hlive)
  obtain ⟨h₁, hsame₁⟩ := topWnd_front h hp htop
  rw [WndMgr.write_of_live _ hlive, Option.some.injEq] at hwrite
  subst hwrite
  -- the window has the focus already
  have hput : (s₁.put (some p) fun v => { v with focused := true }) = s₁ := by
    have hmem : ∀ z, (if some z = some p then
        (s₁.mem z).map fun v => { v with focused := true } else s₁.mem z) = s₁.mem z := by
      intro z
      split
      · rename_i hz
        obtain rfl := Option.some.inj hz
        obtain ⟨v, hv⟩ := Option.ne_none_iff_exists'.mp hlive
        have hfocus := h₁.focus z List.mem_cons_self
        rw [WndMgr.focus, hv, Option.map_some, List.head?_cons, decide_eq_true rfl] at hfocus
        rw [hv, Option.map_some, ← Option.some.inj hfocus]
      · rfl
    rw [WndMgr.put]
    simp only [hmem]
  rw [hput]
  refine ⟨⟨_, h₁⟩, h₁.head, visible_congr (hsame₁.seen p), ?_⟩
  rw [← typable_congr (hsame₁.seen p)]
  constructor
  · exact fun hfront => hfront p h₁.head
  · intro htyp q hq
    obtain rfl := Option.some.inj (h₁.head.symm.trans hq)
    exact htyp

theorem visibleAt_visible {target fuel idx : Nat} {q : Option Nat}
    (hfind : visibleAt s target fuel idx q = some (some p)) :
    (s.mem p).map Wnd.visible = some true := by
  induction fuel generalizing idx q with
  | zero => cases hfind
  | succ fuel ih =>
      cases q with
      | none => cases hfind
      | some w =>
          rw [visibleAt, Option.bind_eq_some_iff] at hfind
          obtain ⟨v, hv, hrest⟩ := hfind
          split at hrest
          · rename_i hvis
            split at hrest
            · obtain rfl := Option.some.inj (Option.some.inj hrest)
              rw [hv, Option.map_some, hvis]
            · exact ih hrest
          · exact ih hrest

theorem menuSelect_front (h : Represents s ps) {target : Nat}
    (hsel : menuSelect s target = some s') :
    (menuTarget s target = some none ∧ s' = s) ∨
      ∃ p, menuTarget s target = some (some p) ∧ Represents s' (p :: ps.erase p) ∧
        (s'.mem p).map Wnd.visible = some true := by
  simp only [menuSelect, Option.bind_eq_bind, Option.bind_eq_some_iff] at hsel
  obtain ⟨found, hfound, hsel⟩ := hsel
  cases found with
  | none => exact .inl ⟨hfound, (Option.some.inj hsel).symm⟩
  | some p =>
      have hvis := visibleAt_visible hfound
      have hp : p ∈ ps := by
        rw [← h.live p]
        rintro hnone
        simp [hnone] at hvis
      obtain ⟨⟨s₁, er⟩, htop, rfl⟩ := Option.map_eq_some_iff.mp hsel
      obtain ⟨h₁, hsame⟩ := topWnd_front h hp htop
      exact .inr ⟨p, hfound, h₁, (visible_congr (hsame.seen p)).trans hvis⟩

-- To cycle brings the last window to the front, and shows it, where there is a second one.
theorem cycle_front (h : Represents s ps) (hcycle : wndCycleFocus s = some s') :
    (s' = s ∧ ∀ p, ¬(Op.call .cycle).Selects s p) ∨
      ∃ p, (∀ q, (Op.call .cycle).Selects s q → q = p) ∧ s'.head = some p ∧
        (s'.mem p).map Wnd.visible = some true := by
  have hhead := h.head
  match ps with
  | [] =>
      rw [wndCycleFocus, hhead] at hcycle
      refine .inl ⟨(Option.some.inj hcycle).symm, ?_⟩
      rintro p ⟨q, hq, -⟩
      cases hhead.symm.trans hq
  | [c] =>
      have hnext : s.next c = none := h.links.2.1
      obtain ⟨v, hv⟩ := Option.ne_none_iff_exists'.mp (h.all_live c List.mem_cons_self)
      have hvnext : v.next = none := by rwa [WndMgr.next, hv, Option.bind_some] at hnext
      rw [wndCycleFocus, hhead] at hcycle
      simp only [List.head?_cons, hv, Option.bind_eq_bind, Option.bind_some, hvnext, if_true]
        at hcycle
      refine .inl ⟨(Option.some.inj hcycle).symm, ?_⟩
      rintro p ⟨q, hq, hq', -⟩
      obtain rfl := Option.some.inj (hhead.symm.trans hq)
      exact hq' hnext
  | c :: d :: rest =>
      have hnext : s.next c = some d := h.links.2.1
      obtain ⟨v, hv⟩ := Option.ne_none_iff_exists'.mp (h.all_live c List.mem_cons_self)
      have hvnext : v.next = some d := by rwa [WndMgr.next, hv, Option.bind_some] at hnext
      obtain ⟨l, hl⟩ : ∃ l, (d :: rest).getLast? = some l :=
        ⟨_, List.getLast?_eq_some_getLast (List.cons_ne_nil d rest)⟩
      have hlast : (c :: d :: rest).getLast? = some l := by rw [List.getLast?_cons_cons, hl]
      have hlc : l ≠ c := by
        rintro rfl
        exact (List.nodup_cons.mp h.nodup).1 (mem_of_getLast? hl)
      have hwalk : lastWnd s s.count c = some l := by
        rw [lastWnd_spec h.links h.all_live (by rw [h.count]; simp), hlast]
      have hlin : l ∈ c :: d :: rest := mem_of_getLast? hlast
      have hwrite : s.write l (fun v => { v with visible := true }) =
          some (s.put (some l) fun v => { v with visible := true }) :=
        WndMgr.write_of_live _ (h.all_live l hlin)
      have hshown : Represents (s.put (some l) fun v => { v with visible := true })
          (c :: d :: rest) := write_keeps h hwrite fun _ => rfl
      rw [wndCycleFocus, hhead] at hcycle
      simp only [List.head?_cons, hv, Option.bind_eq_bind, Option.bind_some, hvnext, hwalk, hwrite,
        reduceCtorEq, if_false, ne_eq, hlc, not_false_eq_true, if_true,
        Option.bind_eq_some_iff] at hcycle
      obtain ⟨⟨s₁, er⟩, htop, heq⟩ := hcycle
      obtain rfl := Option.some.inj heq
      obtain ⟨h₁, hsame⟩ := topWnd_front hshown hlin htop
      refine .inr ⟨l, ?_, h₁.head, (visible_congr (hsame.seen l)).trans ?_⟩
      · rintro p ⟨q, hq, -, hp⟩
        obtain rfl := Option.some.inj (hhead.symm.trans hq)
        exact (Option.some.inj (hwalk.symm.trans hp)).symm
      · obtain ⟨w, hw⟩ := Option.ne_none_iff_exists'.mp (h.all_live l hlin)
        rw [WndMgr.put_mem, if_pos rfl, hw]
        rfl

theorem raise_front {wm : WndMgr} (h : Represents s ps) (hp : p ∈ ps)
    (hraise : raise s p = some wm) :
    ∃ ps', Represents wm ps' ∧ ps'.head? = some p ∧ SameBare s wm ∧
      ps'.erase p = ps.erase p := by
  rw [raise] at hraise
  split at hraise
  · obtain ⟨⟨s₁, er⟩, htop, rfl⟩ := Option.map_eq_some_iff.mp hraise
    obtain ⟨h₁, hsame⟩ := topWnd_front h hp htop
    exact ⟨_, h₁, rfl, hsame, List.erase_cons_head p _⟩
  · rename_i hhead
    obtain rfl := Option.some.inj hraise
    rw [not_not, h.head] at hhead
    exact ⟨ps, h, hhead, fun _ => rfl, rfl⟩

theorem findFrom_visible {x y : Int} {fuel : Nat} {q : Option Nat}
    (h : findFrom s x y fuel q = some (some p)) : (s.mem p).map Wnd.visible = some true := by
  induction fuel generalizing q with
  | zero => cases h
  | succ fuel ih =>
      cases q with
      | none => cases h
      | some c =>
          rw [findFrom, Option.bind_eq_some_iff] at h
          obtain ⟨v, hv, hrest⟩ := h
          split at hrest
          · rename_i hhit
            obtain rfl := Option.some.inj (Option.some.inj hrest)
            rw [Wnd.hit, Bool.and_eq_true] at hhit
            rw [hv, Option.map_some, hhit.1]
          · exact ih hrest

end Seen

section Steps

variable {s s' : State} {ps : List Nat}

theorem butDown_frontSeen {x y : Int} {b : Bool} {c : Option Nat}
    {hook : (Nat → Option Wnd) → Nat → Option Wnd} (h : Represents s.wm ps)
    (hfront : FrontSeen s.wm) (hspares : ∀ mem, Spares mem (hook mem))
    (hdown : butDown s x y hook = some (s', b, c)) :
    FrontSeen s'.wm ↔ (Op.press x y hook).InSight s := by
  simp only [butDown, Option.bind_eq_bind, Option.bind_eq_some_iff] at hdown
  obtain ⟨found, hfound, hdown⟩ := hdown
  rw [Op.InSight]
  cases found with
  | none =>
      cases hdown
      rw [pressEffect, hfound]
      exact iff_of_true hfront trivial
  | some p =>
      simp only [Option.bind_eq_some_iff] at hdown
      obtain ⟨wm, hwm, clicked, hclicked, hdown⟩ := hdown
      have hlive := findFrom_live hfound
      obtain ⟨ps', h', hhead', hsame, herase⟩ := raise_front h ((h.live p).mp hlive) hwm
      obtain ⟨v, hv⟩ := Option.ne_none_iff_exists'.mp hlive
      have hpress : v.press x y = clicked.press x y := by
        have hbare := hsame p
        rw [hclicked, hv, Option.map_some, Option.map_some] at hbare
        exact press_of_bare (Option.some.inj hbare).symm x y
      have hraised : FrontSeen wm := by
        apply frontSeen_of_visible (h'.head.trans hhead')
        exact (visible_congr (hsame.seen p)).trans (findFrom_visible hfound)
      rw [pressEffect, hfound]
      simp only [hv, Option.map_some, hpress]
      cases hkind : clicked.press x y with
      | start k =>
          rw [hkind] at hdown
          cases hdown
          rw [start_wm]
          exact iff_of_true hraised trivial
      | close =>
          rw [hkind] at hdown
          simp only [Option.bind_eq_some_iff] at hdown
          obtain ⟨⟨wm', er⟩, hcls, hdown⟩ := hdown
          cases hdown
          have hstep : Step wm (.cls (some p) hook) wm' := by
            refine ⟨⟨fun q hq => ?_, (hspares _).1⟩, by rw [exec, hcls, Option.map_some]⟩
            obtain rfl := Option.some.inj hq
            simp [hclicked]
          have h'' : Represents wm' (ps.erase p) := herase ▸ step_spec h' hstep
          apply erase_frontSeen h hfront h''
          intro z hz
          rw [clsWnd_seen (hspares _) hcls z hz, hsame.seen z]
      | client =>
          rw [hkind] at hdown
          cases hdown
          exact iff_of_true hraised trivial

theorem performs_represents {op : Op} (h : Represents s.wm ps) (hp : Performs s op s') :
    ∃ ps', Represents s'.wm ps' := by
  obtain ⟨hlegal, hperform⟩ := hp
  cases op with
  | call a =>
      obtain ⟨wm, hexec, rfl⟩ := Option.map_eq_some_iff.mp hperform
      exact ⟨_, step_spec h ⟨hlegal.1, hexec⟩⟩
  | hideAll =>
      obtain ⟨wm, hhide, rfl⟩ := Option.map_eq_some_iff.mp hperform
      exact ⟨ps, (hideAll_frontSeen h hhide).1⟩
  | cascadeAll mem =>
      obtain ⟨wm, heach, rfl⟩ := Option.map_eq_some_iff.mp hperform
      obtain ⟨wm', hwm', h', -⟩ := eachWnd_spec (place_keeping cascadeRect mem) h
      obtain rfl := Option.some.inj (heach.symm.trans hwm')
      exact ⟨ps, h'⟩
  | tileAll screen mem =>
      obtain ⟨wm, htile, rfl⟩ := Option.map_eq_some_iff.mp hperform
      simp only [wndTileAll, Option.bind_eq_bind, Option.bind_eq_some_iff] at htile
      obtain ⟨count, -, htile⟩ := htile
      split at htile
      · obtain rfl := Option.some.inj htile
        exact ⟨ps, h⟩
      · obtain ⟨wm', hwm', h', -⟩ := eachWnd_spec (place_keeping _ mem) h
        obtain rfl := Option.some.inj (htile.symm.trans hwm')
        exact ⟨ps, h'⟩
  | press x y hook =>
      obtain ⟨⟨s₁, b, c⟩, hdown, rfl⟩ := Option.map_eq_some_iff.mp hperform
      obtain ⟨ps', h', -⟩ := butDown_spec h (fun mem => (hlegal mem).1) hdown
      exact ⟨ps', h'⟩
  | trackerSelect targetWnd =>
      obtain ⟨wm, hsel, rfl⟩ := Option.map_eq_some_iff.mp hperform
      exact (trackerSelect_frontSeen h hsel).1
  | menuSelect targetWIdx =>
      obtain ⟨wm, hsel, rfl⟩ := Option.map_eq_some_iff.mp hperform
      obtain ⟨-, rfl⟩ | ⟨p, -, h', -⟩ := menuSelect_front h hsel
      · exact ⟨ps, h⟩
      · exact ⟨_, h'⟩
  | change f =>
      obtain rfl := Option.some.inj hperform
      exact ⟨ps, h.hook hlegal.1⟩

theorem call_inSight {a : Act} (h : Represents s.wm ps) (hfront : FrontSeen s.wm)
    (hp : Performs s (.call a) s') :
    (FrontSeen s'.wm ∧ ∀ p, (Op.call a).Selects s.wm p → InFront s'.wm p) ↔
      (Op.call a).InSight s := by
  obtain ⟨ps', h'⟩ := performs_represents h hp
  obtain ⟨⟨hlegal, hspares⟩, hperform⟩ := hp
  obtain ⟨wm, hexec, rfl⟩ := Option.map_eq_some_iff.mp hperform
  cases a with
  | opn p =>
      refine iff_of_true ⟨?_, fun _ hsel => hsel.elim⟩ trivial
      cases p with
      | none =>
          obtain rfl := Option.some.inj hexec
          exact hfront
      | some p =>
          obtain ⟨⟨wm', q⟩, hopn, rfl⟩ := Option.map_eq_some_iff.mp hexec
          obtain ⟨hhead, hvis⟩ := opnWnd_front hopn
          exact frontSeen_of_visible hhead hvis
  | cls wnd hook =>
      refine (and_iff_left fun _ hsel => hsel.elim).trans ?_
      cases wnd with
      | none =>
          obtain rfl := Option.some.inj hexec
          exact iff_of_true hfront trivial
      | some p =>
          obtain ⟨⟨wm', er⟩, hcls, rfl⟩ := Option.map_eq_some_iff.mp hexec
          exact erase_frontSeen h hfront (step_spec h ⟨hlegal, hexec⟩)
            (clsWnd_seen (hspares _ hook rfl) hcls)
  | top wnd =>
      refine (and_iff_left fun _ hsel => hsel.elim).trans ?_
      cases wnd with
      | none =>
          obtain rfl := Option.some.inj hexec
          exact iff_of_true hfront trivial
      | some p =>
          obtain ⟨⟨wm', er⟩, htop, rfl⟩ := Option.map_eq_some_iff.mp hexec
          exact topWnd_frontSeen h hfront htop
  | cycle =>
      refine iff_of_true ?_ trivial
      obtain ⟨rfl, hnone⟩ | ⟨p, honly, hhead, hvis⟩ := cycle_front h hexec
      · exact ⟨hfront, fun p hsel => absurd hsel (hnone p)⟩
      · refine ⟨frontSeen_of_visible hhead hvis, fun q hsel => ?_⟩
        rw [honly q hsel]
        exact (inFront_iff h' hhead).mpr hvis

theorem perform_inSight {op : Op} (h : Represents s.wm ps) (hfront : FrontSeen s.wm)
    (hp : Performs s op s') :
    (FrontSeen s'.wm ∧ ∀ p, op.Selects s.wm p → InFront s'.wm p) ↔ op.InSight s := by
  obtain ⟨ps', h'⟩ := performs_represents h hp
  obtain ⟨hlegal, hperform⟩ := hp
  cases op with
  | call a => exact call_inSight h hfront ⟨hlegal, hperform⟩
  | hideAll =>
      obtain ⟨wm, hhide, rfl⟩ := Option.map_eq_some_iff.mp hperform
      exact (and_iff_left fun _ hsel => hsel.elim).trans (hideAll_frontSeen h hhide).2
  | cascadeAll mem =>
      obtain ⟨wm, heach, rfl⟩ := Option.map_eq_some_iff.mp hperform
      exact iff_of_true ⟨(place_frontSeen h hfront heach).2, fun _ hsel => hsel.elim⟩ trivial
  | tileAll screen mem =>
      obtain ⟨wm, htile, rfl⟩ := Option.map_eq_some_iff.mp hperform
      refine iff_of_true ⟨?_, fun _ hsel => hsel.elim⟩ trivial
      simp only [wndTileAll, Option.bind_eq_bind, Option.bind_eq_some_iff] at htile
      obtain ⟨count, -, htile⟩ := htile
      split at htile
      · obtain rfl := Option.some.inj htile
        exact hfront
      · exact (place_frontSeen h hfront htile).2
  | press x y hook =>
      obtain ⟨⟨s₁, b, c⟩, hdown, rfl⟩ := Option.map_eq_some_iff.mp hperform
      exact (and_iff_left fun _ hsel => hsel.elim).trans
        (butDown_frontSeen h hfront hlegal hdown)
  | trackerSelect targetWnd =>
      obtain ⟨wm, hsel, rfl⟩ := Option.map_eq_some_iff.mp hperform
      obtain ⟨-, hhead, hvis, htyp⟩ := trackerSelect_frontSeen h hsel
      rw [Op.InSight, ← hvis]
      constructor
      · exact fun hboth => (hboth.2 targetWnd rfl).visible
      · rintro hshown
        refine ⟨frontSeen_of_visible hhead hshown, ?_⟩
        rintro p rfl
        exact (inFront_iff h' hhead).mpr hshown
  | menuSelect targetWIdx =>
      obtain ⟨wm, hsel, rfl⟩ := Option.map_eq_some_iff.mp hperform
      refine iff_of_true ?_ trivial
      obtain ⟨hnone, rfl⟩ | ⟨p, hfound, h₁, hvis⟩ := menuSelect_front h hsel
      · refine ⟨hfront, fun p hp => ?_⟩
        cases hnone.symm.trans hp
      · refine ⟨frontSeen_of_visible h₁.head hvis, fun q hq => ?_⟩
        obtain rfl := Option.some.inj (Option.some.inj (hfound.symm.trans hq))
        exact (inFront_iff h₁ h₁.head).mpr hvis
  | change f =>
      obtain rfl := Option.some.inj hperform
      refine iff_of_true ⟨fun p hhead v' hv' hhandler => ?_, fun _ hsel => hsel.elim⟩ trivial
      have hin : p ∈ ps := mem_of_head? (h.head ▸ hhead)
      obtain ⟨v, hv⟩ := Option.ne_none_iff_exists'.mp (h.all_live p hin)
      obtain ⟨hvis, hset⟩ := hlegal.2 p v v' hv hv'
      rw [hvis]
      obtain hhad | hopened := hset hhandler
      · exact hfront p hhead v hv hhad
      · exact hopened

end Steps

-- All along a run keys go to visible windows only, and a window that is selected is in front and
-- seen, if and only if no window with a handler is hidden in front or comes to the front hidden.
theorem keys_seen_iff_inSight (n : Int) (tr : List (State × Op)) (s : State)
    (htr : Trace Performs (.init n) tr s) :
    (KeysSeen s ∧ ∀ t ∈ tr, KeysSeen t.1 ∧
      ∀ s' p, Performs t.1 t.2 s' → t.2.Selects t.1.wm p → InFront s'.wm p) ↔
      ∀ t ∈ tr, t.2.InSight t.1 := by
  have hinit : Represents (State.init n).wm [] := represents_init n
  refine htr.forall_iff_steps (I := fun s => ∃ ps, Represents s.wm ps)
    (Q := fun s op => ∀ s' p, Performs s op s' → op.Selects s.wm p → InFront s'.wm p)
    (C := fun s op => op.InSight s) ⟨[], hinit⟩ ?_ ?_ ?_
  · rintro s op s' ⟨ps, h⟩ hp
    exact performs_represents h hp
  · rw [keysSeen_iff hinit]
    exact fun p hhead => by cases hhead
  · rintro s op s' ⟨ps, h⟩ hseen hp
    obtain ⟨ps', h'⟩ := performs_represents h hp
    rw [keysSeen_iff h', ← perform_inSight h ((keysSeen_iff h).mp hseen) hp]
    refine and_congr_right fun _ => ⟨fun hsel p => hsel s' p hp, fun hsel s'' p hp' => ?_⟩
    obtain rfl := Option.some.inj (hp.2.symm.trans hp'.2)
    exact hsel p

-- A program gives its windows a handler.
def giveHandler (mem : Nat → Option Wnd) (p : Nat) : Option Wnd :=
  (mem p).map fun v => if v.visible then { v with eventHandler := 1 } else v

theorem giveHandler_fills (mem : Nat → Option Wnd) : Fills mem (giveHandler mem) := by
  constructor
  · intro p
    rw [giveHandler, Option.map_map]
    congr 1
    funext v
    simp only [Function.comp_apply]
    split <;> rfl
  · intro p v v' hv hv'
    rw [giveHandler, hv, Option.map_some, Option.some.injEq] at hv'
    subst hv'
    split
    · rename_i hvis
      exact ⟨rfl, fun _ => .inr hvis⟩
    · exact ⟨rfl, fun hhandler => .inl hhandler⟩

def openOne : Op :=
  .call (.opn (some 100) none 100 100 300 200 (WND_ATTR_TITLE ||| WND_ATTR_CLOSE) true)

-- One window is opened and given a handler.
theorem openOne_run :
    ([openOne, .change giveHandler].foldlM perform (.init 1)).map
      (fun s => (s.wm.head, (s.wm.mem 100).map fun v => (v.visible, v.focused, v.eventHandler))) =
      some (some 100, some (true, true, 1)) := by
  decide +kernel

theorem openOne_trace :
    ∃ s₁ s, Trace Performs (.init 1) [(s₁, .change giveHandler), (.init 1, openOne)] s ∧
      s.wm.head = some 100 ∧
      (s.wm.mem 100).map (fun v => (v.visible, v.focused, v.eventHandler)) =
        some (true, true, 1) := by
  obtain ⟨s, hrun, hview⟩ := Option.map_eq_some_iff.mp openOne_run
  rw [List.foldlM_cons, Option.bind_eq_bind, Option.bind_eq_some_iff] at hrun
  obtain ⟨s₁, hopen, hrest⟩ := hrun
  rw [List.foldlM_cons, Option.bind_eq_bind, Option.bind_eq_some_iff] at hrest
  obtain ⟨s₂, hgive, heq⟩ := hrest
  obtain rfl := Option.some.inj heq
  have hlegal : openOne.Legal (.init 1) := by
    refine ⟨fun _ _ => rfl, fun p hook hcls => ?_⟩
    cases hcls
  have htr : Trace Performs (.init 1) [(.init 1, openOne)] s₁ := .next .start ⟨hlegal, hopen⟩
  exact ⟨s₁, s₂, htr.next ⟨giveHandler_fills _, hgive⟩, Prod.mk.inj hview⟩

-- It is selected in the tracker menu.
theorem keys_seen_tracker_select :
    ∃ tr s s', Trace Performs (.init 1) tr s ∧ Performs s (.trackerSelect 100) s' ∧ KeysSeen s' ∧
      InFront s'.wm 100 := by
  obtain ⟨s₁, s, htr, hhead, hview⟩ := openOne_trace
  have hvis : (s.wm.mem 100).map Wnd.visible = some true := by
    have hfst := congrArg (Option.map Prod.fst) hview
    rwa [Option.map_map] at hfst
  obtain ⟨v, hv, -⟩ := Option.map_eq_some_iff.mp hvis
  have hsel : trackerSelect s.wm 100 =
      some (s.wm.put (some 100) fun v => { v with focused := true }) := by
    rw [trackerSelect, topWnd, if_pos hhead]
    exact WndMgr.write_of_live _ (Option.ne_none_iff_exists'.mpr ⟨v, hv⟩)
  have hstep : Performs s (.trackerSelect 100)
      (s.withWm (s.wm.put (some 100) fun v => { v with focused := true })) :=
    ⟨trivial, by rw [perform, hsel, Option.map_some]⟩
  obtain ⟨hseen, hall⟩ := (keys_seen_iff_inSight 1 _ _ (htr.next hstep)).mpr (by
    rw [List.forall_mem_cons, List.forall_mem_cons, List.forall_mem_singleton]
    exact ⟨hvis, trivial, trivial⟩)
  exact ⟨_, s, _, htr, hstep, hseen, (hall _ List.mem_cons_self).2 _ _ hstep rfl⟩

-- All windows are hidden, and the keys still go to the one in front.
theorem keys_not_always_seen :
    ¬∀ n tr s, Trace Performs (.init n) tr s → KeysSeen s := by
  intro hall
  obtain ⟨s₁, s, htr, hhead, hview⟩ := openOne_trace
  obtain ⟨wm, hhide, h', hiff⟩ : ∃ wm, wndHideAll s.wm = some wm ∧ (∃ ps, Represents wm ps) ∧
      (FrontSeen wm ↔ ∀ p v, s.wm.head = some p → s.wm.mem p = some v → v.eventHandler = 0) := by
    obtain ⟨⟨ps, h⟩, -⟩ := htr.always (I := fun s => ∃ ps, Represents s.wm ps)
      ⟨[], represents_init 1⟩ fun _ _ _ ⟨_, h⟩ hp => performs_represents h hp
    have hkeeping : Keeping (fun _ _ => True) fun _ v => { v with visible := false } :=
      ⟨fun _ _ => rfl, fun _ _ => trivial⟩
    obtain ⟨wm, hwm, -⟩ := eachWnd_spec hkeeping h
    obtain ⟨h', hiff⟩ := hideAll_frontSeen h hwm
    exact ⟨wm, hwm, ⟨ps, h'⟩, hiff⟩
  have hstep : Performs s .hideAll (s.withWm wm) :=
    ⟨trivial, by rw [perform, hhide, Option.map_some]⟩
  obtain ⟨ps, h'⟩ := h'
  have hfront := (keysSeen_iff (s := s.withWm wm) h').mp (hall 1 _ _ (htr.next hstep))
  obtain ⟨v, hv, heq⟩ := Option.map_eq_some_iff.mp hview
  have hnone := hiff.mp hfront 100 v hhead hv
  rw [Prod.mk.injEq, Prod.mk.injEq, hnone] at heq
  cases heq.2.2

end BTron.Window
