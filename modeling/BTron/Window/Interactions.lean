import BTron.Window.Events
import BTron.Window.List

namespace BTron.Window

open Lib

def State.active (s : State) : Interaction → Bool
  | .drag => s.dragging
  | .slide => s.slidingTab
  | .resize => s.resizing

def State.target (s : State) : Interaction → Option Nat
  | .drag => s.dragTarget
  | .slide => s.slideTarget
  | .resize => s.resizeTarget

-- The window is in the list, as `top_wnd` looks for it.
def WndMgr.Listed (s : WndMgr) (p : Nat) : Prop := search s p (s.count + 1) s.head = some true

-- One interaction at most, with a target exactly when it is active, and on a window there is.
structure Coherent (s : State) : Prop where
  single : ∀ k l, s.active k → s.active l → k = l
  targeted : ∀ k, s.active k ↔ s.target k ≠ none
  listed : ∀ k p, s.active k → s.target k = some p → s.wm.Listed p

-- What an input does to the interactions and to the list.
inductive Effect
  | keep
  | start (k : Interaction) (p : Nat)
  | close (p : Nat)
  | clear

def pressEffect (s : WndMgr) (x y : Int) : Effect :=
  match findWndAt s x y with
  | some (some p) =>
    match (s.mem p).map (Wnd.press · x y) with
    | some (.start k) => .start k p
    | some .close => .close p
    | some .client | none => .keep
  | some none | none => .keep

def Input.effect (s : State) : Input → Effect
  | .event (some ev) _ _ =>
    match ev.type with
    | .EV_BUT_DOWN => pressEffect s.wm ev.x ev.y
    | .EV_BUT_UP => .clear
    | _ => .keep
  | .call (.cls (some p) _) => .close p
  | _ => .keep

-- What starts, starts alone, and what is closed is no target.
def Effect.Apart (s : State) : Effect → Prop
  | .start k _ => ∀ l, s.active l → l = k
  | .close p => ∀ k, s.active k → s.target k ≠ some p
  | .keep | .clear => True

-- The interactions and the windows of the state after.
def Effect.After (s s' : State) (ps ps' : List Nat) : Effect → Prop
  | .keep => s'.active = s.active ∧ s'.target = s.target ∧ ∀ p ∈ ps, p ∈ ps'
  | .start k p =>
    s'.active = Function.update s.active k true ∧ s'.target = Function.update s.target k (some p) ∧
      p ∈ ps ∧ ∀ q ∈ ps, q ∈ ps'
  | .close p =>
    s'.active = s.active ∧ s'.target = s.target ∧ ∀ q, q ∈ ps' ↔ q ∈ ps ∧ q ≠ p
  | .clear => (∀ k, s'.active k = false) ∧ ∀ k, s'.target k = none

theorem listed_iff {s : WndMgr} {ps : List Nat} {p : Nat} (h : Represents s ps) :
    s.Listed p ↔ p ∈ ps := by
  rw [WndMgr.Listed, h.head, search_spec h.links h.all_live (by rw [h.count]; omega)]
  simp

theorem findFrom_live {s : WndMgr} {x y : Int} {fuel : Nat} {q : Option Nat} {p : Nat}
    (h : findFrom s x y fuel q = some (some p)) : s.mem p ≠ none := by
  induction fuel generalizing q with
  | zero => cases h
  | succ fuel ih =>
      cases q with
      | none => cases h
      | some c =>
          rw [findFrom, Option.bind_eq_some_iff] at h
          obtain ⟨v, hv, hrest⟩ := h
          split at hrest
          · obtain rfl := Option.some.inj (Option.some.inj hrest)
            simp [hv]
          · exact ih hrest

-- A window but for its place in the list.
def Wnd.bare (v : Wnd) : Wnd := { v with next := none, prev := none, focused := false }

theorem press_of_bare {v w : Wnd} (h : v.bare = w.bare) (x y : Int) :
    v.press x y = w.press x y := by
  have hbare : v.bare.press x y = w.bare.press x y := by rw [h]
  exact hbare

-- Two heaps with the same windows but for their places.
def SameBare (s s' : WndMgr) : Prop := ∀ z, (s'.mem z).map Wnd.bare = (s.mem z).map Wnd.bare

theorem SameBare.trans {s t u : WndMgr} (h : SameBare s t) (h' : SameBare t u) : SameBare s u :=
  fun z => (h' z).trans (h z)

theorem sameBare_write {s s' : WndMgr} {p : Nat} {f : Wnd → Wnd}
    (h : s.write p f = some s') (hf : ∀ v, (f v).bare = v.bare) : SameBare s s' := by
  rw [WndMgr.write, Option.map_eq_some_iff] at h
  obtain ⟨-, -, rfl⟩ := h
  intro z
  rw [WndMgr.put_mem]
  split
  · cases s.mem z <;> simp [hf]
  · rfl

theorem sameBare_writeIf {s s' : WndMgr} {q : Option Nat} {f : Wnd → Wnd}
    (h : s.writeIf q f = some s') (hf : ∀ v, (f v).bare = v.bare) : SameBare s s' := by
  cases q with
  | none =>
      obtain rfl := Option.some.inj h
      exact fun _ => rfl
  | some p => exact sameBare_write h hf

theorem sameBare_unlink {s s' : WndMgr} {p : Nat} (h : unlink s p = some s') : SameBare s s' := by
  simp only [unlink, Option.bind_eq_bind, Option.bind_eq_some_iff] at h
  obtain ⟨v, -, s₁, h₁, w, -, h₂⟩ := h
  exact (sameBare_writeIf h₁ fun _ => rfl).trans (sameBare_writeIf h₂ fun _ => rfl)

theorem sameBare_topWnd {s s' : WndMgr} {wnd : Option Nat} {er : ER}
    (h : topWnd s wnd = some (s', er)) : SameBare s s' := by
  have hrefl : SameBare s s := fun _ => rfl
  cases wnd with
  | none =>
      cases h
      exact hrefl
  | some p =>
      rw [topWnd] at h
      split at h
      · cases h
        exact hrefl
      · simp only [Option.bind_eq_bind, Option.bind_eq_some_iff] at h
        obtain ⟨found, -, h⟩ := h
        split at h
        · cases h
          exact hrefl
        · simp only [Option.bind_eq_some_iff] at h
          obtain ⟨s₁, h₁, s₂, h₂, s₃, h₃, s₄, h₄, s₅, h₅, heq⟩ := h
          cases heq
          have h₁₂ := (sameBare_unlink h₁).trans (sameBare_writeIf h₂ fun _ => rfl)
          have h₃₄ := (sameBare_write h₃ fun _ => rfl).trans (sameBare_writeIf h₄ fun _ => rfl)
          have h₄₅ : SameBare { s₄ with head := some p } s' := sameBare_write h₅ fun _ => rfl
          exact (h₁₂.trans h₃₄).trans h₄₅

-- The window under the pointer is raised, or in front already.
theorem raise_spec {s wm : WndMgr} {ps : List Nat} {p : Nat} (h : Represents s ps) (hp : p ∈ ps)
    (hwm : raise s p = some wm) :
    ∃ ps', Represents wm ps' ∧ SameBare s wm ∧ ∀ q, q ∈ ps' ↔ q ∈ ps := by
  rw [raise] at hwm
  split at hwm
  · obtain ⟨s', er, htop, h'⟩ := h.topWnd_spec (some p)
    rw [htop, Option.map_some] at hwm
    obtain rfl := Option.some.inj hwm
    rw [Act.apply, if_pos hp] at h'
    refine ⟨_, h', sameBare_topWnd htop, fun q => ?_⟩
    exact (List.perm_cons_erase hp).mem_iff.symm
  · obtain rfl := Option.some.inj hwm
    exact ⟨ps, h, fun _ => rfl, fun _ => Iff.rfl⟩

theorem cls_mem {s s' : WndMgr} {ps : List Nat} {p : Nat} {er : ER}
    {hook : (Nat → Option Wnd) → Nat → Option Wnd} (h : Represents s ps)
    (hlive : s.mem p ≠ none) (hkeep : KeepsList s.mem (hook s.mem))
    (hcls : clsWnd s (some p) hook = some (s', er)) :
    ∃ ps', Represents s' ps' ∧ ∀ q, q ∈ ps' ↔ q ∈ ps ∧ q ≠ p := by
  have hstep : Step s (.cls (some p) hook) s' := by
    refine ⟨⟨fun q hq => ?_, hkeep⟩, ?_⟩
    · obtain rfl := Option.some.inj hq
      exact hlive
    · rw [exec, hcls, Option.map_some]
  refine ⟨ps.erase p, step_spec h hstep, fun q => ?_⟩
  rw [h.nodup.mem_erase_iff, and_comm]

theorem start_active (s : State) (k : Interaction) (p : Nat) (v : Wnd) (x y : Int) :
    (s.start k p v x y).active = Function.update s.active k true := by
  funext l
  cases k <;> cases l <;> rfl

theorem start_target (s : State) (k : Interaction) (p : Nat) (v : Wnd) (x y : Int) :
    (s.start k p v x y).target = Function.update s.target k (some p) := by
  funext l
  cases k <;> cases l <;> rfl

theorem start_wm (s : State) (k : Interaction) (p : Nat) (v : Wnd) (x y : Int) :
    (s.start k p v x y).wm = s.wm := by
  cases k <;> rfl

theorem butDown_spec {s s' : State} {ps : List Nat} {x y : Int} {b : Bool} {c : Option Nat}
    {hook : (Nat → Option Wnd) → Nat → Option Wnd} (h : Represents s.wm ps)
    (hkeep : ∀ mem, KeepsList mem (hook mem)) (hdown : butDown s x y hook = some (s', b, c)) :
    ∃ ps', Represents s'.wm ps' ∧ (pressEffect s.wm x y).After s s' ps ps' := by
  simp only [butDown, Option.bind_eq_bind, Option.bind_eq_some_iff] at hdown
  obtain ⟨found, hfound, hdown⟩ := hdown
  cases found with
  | none =>
      cases hdown
      rw [pressEffect, hfound]
      exact ⟨ps, h, rfl, rfl, fun _ hq => hq⟩
  | some p =>
      simp only [Option.bind_eq_some_iff] at hdown
      obtain ⟨wm, hwm, clicked, hclicked, hdown⟩ := hdown
      have hlive := findFrom_live hfound
      have hp : p ∈ ps := (h.live p).mp hlive
      obtain ⟨ps', h', hsame, hmem⟩ := raise_spec h hp hwm
      obtain ⟨v, hv⟩ := Option.ne_none_iff_exists'.mp hlive
      have hpress : v.press x y = clicked.press x y := by
        have hbare := hsame p
        rw [hclicked, hv, Option.map_some, Option.map_some] at hbare
        exact press_of_bare (Option.some.inj hbare).symm x y
      rw [pressEffect, hfound]
      simp only [hv, Option.map_some, hpress]
      cases hkind : clicked.press x y with
      | start k =>
          rw [hkind] at hdown
          cases hdown
          refine ⟨ps', ?_, ?_, ?_, hp, fun q hq => (hmem q).mpr hq⟩
          · rwa [start_wm]
          · rw [start_active]
            rfl
          · rw [start_target]
            rfl
      | close =>
          rw [hkind] at hdown
          simp only [Option.bind_eq_some_iff] at hdown
          obtain ⟨⟨wm', er⟩, hcls, hdown⟩ := hdown
          cases hdown
          have hlive' : wm.mem p ≠ none := by simp [hclicked]
          obtain ⟨ps'', h'', hmem'⟩ := cls_mem h' hlive' (hkeep wm.mem) hcls
          refine ⟨ps'', h'', rfl, rfl, fun q => ?_⟩
          rw [hmem', hmem]
      | client =>
          rw [hkind] at hdown
          cases hdown
          exact ⟨ps', h', rfl, rfl, fun q hq => (hmem q).mpr hq⟩

-- A write that leaves what makes the list alone.
theorem write_keeps {s s' : WndMgr} {ps : List Nat} {p : Nat} {f : Wnd → Wnd}
    (h : Represents s ps) (hw : s.write p f = some s')
    (hf : ∀ v, ((f v).id, (f v).focused, (f v).next, (f v).prev) =
      (v.id, v.focused, v.next, v.prev)) : Represents s' ps := by
  rw [WndMgr.write, Option.map_eq_some_iff] at hw
  obtain ⟨-, -, rfl⟩ := hw
  apply h.hook
  intro z
  dsimp only
  split
  · cases s.mem z <;> simp only [Option.map_none, Option.map_some, hf]
  · rfl

theorem rszWnd_list (v : Wnd) (w h : Int) (mem : Bool) :
    ((rszWnd v w h mem).id, (rszWnd v w h mem).focused, (rszWnd v w h mem).next,
      (rszWnd v w h mem).prev) = (v.id, v.focused, v.next, v.prev) := by
  cases hdev : v.dev <;>
    simp only [rszWnd, wsetTabOffset, hdev, apply_ite Wnd.id, apply_ite Wnd.focused,
      apply_ite Wnd.next, apply_ite Wnd.prev, ite_self]

theorem mouseMove_spec {s s' : State} {ps : List Nat} {x y : Int} {mem b : Bool} {c : Option Nat}
    (h : Represents s.wm ps) (hmove : mouseMove s x y mem = some (s', b, c)) :
    Represents s'.wm ps ∧ s'.active = s.active ∧ s'.target = s.target := by
  unfold mouseMove at hmove
  split at hmove
  · simp only [Option.bind_eq_bind, Option.bind_eq_some_iff] at hmove
    obtain ⟨wm, hwm, hmove⟩ := hmove
    cases hmove
    exact ⟨write_keeps h hwm fun _ => rfl, rfl, rfl⟩
  split at hmove
  · simp only [Option.bind_eq_bind, Option.bind_eq_some_iff] at hmove
    obtain ⟨wm, hwm, hmove⟩ := hmove
    cases hmove
    exact ⟨write_keeps h hwm fun v => rszWnd_list v _ _ mem, rfl, rfl⟩
  split at hmove
  · simp only [Option.bind_eq_bind, Option.bind_eq_some_iff] at hmove
    obtain ⟨wm, hwm, hmove⟩ := hmove
    cases hmove
    exact ⟨write_keeps h hwm fun _ => rfl, rfl, rfl⟩
  · simp only [Option.bind_eq_bind, Option.bind_eq_some_iff] at hmove
    obtain ⟨client, -, hmove⟩ := hmove
    cases hmove
    exact ⟨h, rfl, rfl⟩

theorem butUp_spec {s s' : State} {ps : List Nat} {b : Bool} {c : Option Nat}
    (h : Represents s.wm ps) (hup : butUp s = some (s', b, c)) :
    Represents s'.wm ps ∧ (∀ k, s'.active k = false) ∧ ∀ k, s'.target k = none := by
  simp only [butUp, Option.bind_eq_bind, Option.bind_eq_some_iff] at hup
  obtain ⟨client, -, hup⟩ := hup
  cases hup
  refine ⟨h, fun k => ?_, fun k => ?_⟩ <;> cases k <;> rfl

theorem apply_mem {ps : List Nat} {a : Act} (h : ∀ p hook, a ≠ .cls (some p) hook) :
    ∀ p ∈ ps, p ∈ a.apply ps := by
  intro p hp
  cases a with
  | opn q =>
      cases q with
      | none => exact hp
      | some q => exact List.mem_cons_of_mem q hp
  | cls wnd hook =>
      cases wnd with
      | none => exact hp
      | some q => exact absurd rfl (h q hook)
  | top wnd =>
      cases wnd with
      | none => exact hp
      | some q =>
          rw [Act.apply]
          split
          · rename_i hq
            exact (List.perm_cons_erase hq).mem_iff.mp hp
          · exact hp
  | cycle =>
      rw [Act.apply]
      split
      · rename_i q hq
        exact (List.perm_cons_erase (mem_of_getLast? hq)).mem_iff.mp hp
      · exact hp

theorem call_spec {s : State} {wm : WndMgr} {ps : List Nat} {a : Act} (h : Represents s.wm ps)
    (hlegal : a.Legal s.wm) (hexec : exec s.wm a = some wm) :
    ∃ ps', Represents wm ps' ∧
      ((Input.call a).effect s).After s { s with wm := wm } ps ps' := by
  have h' := step_spec h ⟨hlegal, hexec⟩
  refine ⟨_, h', ?_⟩
  cases a with
  | cls wnd hook =>
      cases wnd with
      | none => exact ⟨rfl, rfl, fun _ hp => hp⟩
      | some p =>
          refine ⟨rfl, rfl, fun q => ?_⟩
          rw [Act.apply, h.nodup.mem_erase_iff, and_comm]
  | opn => exact ⟨rfl, rfl, apply_mem fun _ _ heq => by cases heq⟩
  | top => exact ⟨rfl, rfl, apply_mem fun _ _ heq => by cases heq⟩
  | cycle => exact ⟨rfl, rfl, apply_mem fun _ _ heq => by cases heq⟩

theorem event_spec {s s' : State} {ps : List Nat} {ev : Option Evt} {mem b : Bool}
    {c : Option Nat} {hook : (Nat → Option Wnd) → Nat → Option Wnd} (h : Represents s.wm ps)
    (hkeep : ∀ mem, KeepsList mem (hook mem))
    (hev : wndMgrHandleEvent s ev mem hook = some (s', b, c)) :
    ∃ ps', Represents s'.wm ps' ∧ ((Input.event ev mem hook).effect s).After s s' ps ps' := by
  cases ev with
  | none =>
      cases hev
      exact ⟨ps, h, rfl, rfl, fun _ hp => hp⟩
  | some ev =>
      obtain ⟨type, x, y⟩ := ev
      cases type with
      | EV_BUT_DOWN => exact butDown_spec h hkeep hev
      | EV_MOUSE_MOVE =>
          obtain ⟨h', hactive, htarget⟩ := mouseMove_spec h hev
          exact ⟨ps, h', hactive, htarget, fun _ hp => hp⟩
      | EV_BUT_UP => exact ⟨ps, butUp_spec h hev⟩
      | EV_KEY_DOWN =>
          simp only [wndMgrHandleEvent, Option.bind_eq_bind, Option.bind_eq_some_iff] at hev
          obtain ⟨client, -, hev⟩ := hev
          cases hev
          exact ⟨ps, h, rfl, rfl, fun _ hp => hp⟩
      | EV_NONE | EV_KEY_UP | EV_WND_CLOSE | EV_WND_MOVE | EV_WND_FOCUS | EV_MENU_SELECT
      | EV_TIMER =>
          cases hev
          exact ⟨ps, h, rfl, rfl, fun _ hp => hp⟩

theorem moves_spec {s s' : State} {ps : List Nat} {i : Input} (h : Represents s.wm ps)
    (hmoves : Moves s i s') :
    ∃ ps', Represents s'.wm ps' ∧ (i.effect s).After s s' ps ps' := by
  obtain ⟨hlegal, hhandle⟩ := hmoves
  cases i with
  | event ev mem hook =>
      rw [handle, Option.map_eq_some_iff] at hhandle
      obtain ⟨⟨s'', b, c⟩, hev, rfl⟩ := hhandle
      exact event_spec h hlegal hev
  | call a =>
      rw [handle, Option.map_eq_some_iff] at hhandle
      obtain ⟨wm, hexec, rfl⟩ := hhandle
      exact call_spec h hlegal hexec
  | change f =>
      cases hhandle
      exact ⟨ps, h.hook hlegal, rfl, rfl, fun _ hp => hp⟩

theorem coherent_init (n : Int) : Coherent (.init n) := by
  refine ⟨fun k l hk => ?_, fun k => ?_, fun k p hk => ?_⟩
  · cases k <;> cases hk
  · cases k <;> simp [State.init, State.active, State.target]
  · cases k <;> cases hk

-- What is true of one step, by what it does.
theorem coherent_after {s s' : State} {ps ps' : List Nat} {e : Effect} (h : Represents s.wm ps)
    (h' : Represents s'.wm ps') (hc : Coherent s) (hafter : e.After s s' ps ps') :
    Coherent s' ↔ e.Apart s := by
  have hin : ∀ k p, s.active k → s.target k = some p → p ∈ ps := fun k p hk hp =>
    (listed_iff h).mp (hc.listed k p hk hp)
  cases e with
  | keep =>
      obtain ⟨hactive, htarget, hmem⟩ := hafter
      refine iff_of_true ⟨?_, ?_, ?_⟩ trivial
      · rw [hactive]
        exact hc.single
      · rw [hactive, htarget]
        exact hc.targeted
      · rw [hactive, htarget]
        exact fun k p hk hp => (listed_iff h').mpr (hmem p (hin k p hk hp))
  | clear =>
      obtain ⟨hactive, htarget⟩ := hafter
      refine iff_of_true ⟨fun k l hk => ?_, fun k => ?_, fun k p hk => ?_⟩ trivial
      · rw [hactive] at hk
        cases hk
      · rw [hactive, htarget]
        simp
      · rw [hactive] at hk
        cases hk
  | start k p =>
      obtain ⟨hactive, htarget, hp, hmem⟩ := hafter
      have hstarted : s'.active k := by rw [hactive, Function.update_self]
      have hother : ∀ l, l ≠ k → s'.active l = s.active l := fun l hl => by
        rw [hactive, Function.update_of_ne hl]
      constructor
      · intro hc' l hl
        by_contra hne
        apply hne
        apply hc'.single l k _ hstarted
        rwa [hother l hne]
      · intro hapart
        have honly : ∀ l, s'.active l → l = k := fun l hl => by
          by_contra hne
          rw [hother l hne] at hl
          exact hne (hapart l hl)
        refine ⟨fun l m hl hm => ?_, fun l => ?_, fun l q hl hq => ?_⟩
        · rw [honly l hl, honly m hm]
        · by_cases hlk : l = k
          · rw [hlk, htarget, Function.update_self]
            simp [hstarted]
          · rw [hother l hlk, htarget, Function.update_of_ne hlk]
            exact hc.targeted l
        · rw [honly l hl, htarget, Function.update_self] at hq
          obtain rfl := Option.some.inj hq
          exact (listed_iff h').mpr (hmem p hp)
  | close p =>
      obtain ⟨hactive, htarget, hmem⟩ := hafter
      constructor
      · intro hc' k hk hp
        have hlisted := hc'.listed k p (by rwa [hactive]) (by rwa [htarget])
        exact ((hmem p).mp ((listed_iff h').mp hlisted)).2 rfl
      · intro hapart
        refine ⟨?_, ?_, ?_⟩
        · rw [hactive]
          exact hc.single
        · rw [hactive, htarget]
          exact hc.targeted
        · rw [hactive, htarget]
          intro k q hk hq
          rw [listed_iff h', hmem]
          refine ⟨hin k q hk hq, ?_⟩
          rintro rfl
          exact hapart k hk hq

-- All along a run at most one interaction is active, with a listed window as its target, if and
-- only if no other one is active when one starts and no target is closed.
theorem interactions_iff (n : Int) (tr : List (State × Input)) (s : State)
    (htr : Trace Moves (.init n) tr s) :
    (Coherent s ∧ ∀ t ∈ tr, Coherent t.1) ↔ ∀ t ∈ tr, (t.2.effect t.1).Apart t.1 := by
  apply htr.forall_iff_within (I := fun s => ∃ ps, Represents s.wm ps)
    (C := fun s i => (i.effect s).Apart s) ⟨[], represents_init n⟩ _ (coherent_init n)
  · rintro s i s' ⟨ps, h⟩ hc hmoves
    obtain ⟨ps', h', hafter⟩ := moves_spec h hmoves
    exact coherent_after h h' hc hafter
  · rintro s i s' ⟨ps, h⟩ hmoves
    obtain ⟨ps', h', -⟩ := moves_spec h hmoves
    exact ⟨ps', h'⟩

theorem apart_of_idle {s : State} (h : ∀ k, s.active k = false) (e : Effect) : e.Apart s := by
  have hidle : ∀ k, ¬s.active k := fun k => by simp [h k]
  cases e with
  | keep | clear => trivial
  | start k p => exact fun l hl => absurd hl (hidle l)
  | close p => exact fun l hl => absurd hl (hidle l)

-- One window is opened, and events come.
def openThen (evs : List Evt) : List Input :=
  .call (.opn (some 100) none 100 100 300 200 (WND_ATTR_TITLE ||| WND_ATTR_CLOSE) true) ::
    evs.map fun ev => .event (some ev) true id

theorem openThen_legal : (Input.call (.opn (some 100) none 100 100 300 200
    (WND_ATTR_TITLE ||| WND_ATTR_CLOSE) true)).Legal (.init 1) := fun _ _ => rfl

theorem trace_of_openThen {evs : List Evt} {s : State}
    (hrun : (openThen evs).foldlM handle (.init 1) = some s) :
    ∃ tr, Trace Moves (.init 1) tr s ∧ tr.reverse.map Prod.snd = openThen evs := by
  rw [openThen, List.foldlM_cons, Option.bind_eq_bind, Option.bind_eq_some_iff] at hrun
  obtain ⟨s₁, hs₁, hrest⟩ := hrun
  have hopen : Trace Moves (.init 1) _ s₁ := .next .start ⟨openThen_legal, hs₁⟩
  obtain ⟨tr, htr, hlabels⟩ := hopen.foldlM (fun i hi s s' hs' => by
    obtain ⟨ev, -, rfl⟩ := List.mem_map.mp hi
    exact ⟨fun _ _ => rfl, hs'⟩) hrest
  refine ⟨tr, htr, ?_⟩
  rw [List.map_reverse, hlabels]
  simp [openThen]

theorem dragged_run :
    ((openThen [⟨.EV_BUT_DOWN, 150, 110⟩]).foldlM handle (.init 1)).map
      (fun s => (s.dragging, s.dragTarget)) = some (true, some 100) := by
  decide +kernel

-- A button goes down on the tab of a window.
theorem interactions_iff_dragged :
    ∃ tr s, Trace Moves (.init 1) tr s ∧
      tr.reverse.map Prod.snd = openThen [⟨.EV_BUT_DOWN, 150, 110⟩] ∧ s.dragging ∧ Coherent s := by
  obtain ⟨s, hs, hview⟩ := Option.map_eq_some_iff.mp dragged_run
  have hrun := hs
  rw [openThen, List.foldlM_cons, Option.bind_eq_bind, Option.bind_eq_some_iff] at hrun
  obtain ⟨s₁, hs₁, hrest⟩ := hrun
  have hdown : handle s₁ (.event (some ⟨.EV_BUT_DOWN, 150, 110⟩) true id) = some s := by
    simpa using hrest
  have hidle : ∀ k, s₁.active k = false := by
    rw [handle, Option.map_eq_some_iff] at hs₁
    obtain ⟨wm, -, rfl⟩ := hs₁
    intro k
    cases k <;> rfl
  have hstart : ∀ k, (State.init 1).active k = false := by
    intro k
    cases k <;> rfl
  have hmoves : Moves s₁ (.event (some ⟨.EV_BUT_DOWN, 150, 110⟩) true id) s :=
    ⟨fun _ _ => rfl, hdown⟩
  have htr : Trace Moves (.init 1) _ s := .next (.next .start ⟨openThen_legal, hs₁⟩) hmoves
  refine ⟨_, s, htr, rfl, (Prod.mk.inj hview).1, ((interactions_iff 1 _ s htr).mpr ?_).1⟩
  intro t ht
  rw [List.mem_cons, List.mem_singleton] at ht
  cases ht with
  | inl hlast =>
      rw [hlast]
      exact apart_of_idle hidle _
  | inr hfirst =>
      rw [hfirst]
      exact apart_of_idle hstart _

-- Its corner is drawn up and left beyond the least size, and a second button goes down when the
-- pointer is over the close button.
def resizeOntoClose : List Evt :=
  [⟨.EV_BUT_DOWN, 395, 295⟩, ⟨.EV_MOUSE_MOVE, 235, 115⟩, ⟨.EV_BUT_DOWN, 235, 115⟩]

theorem resizeOntoClose_run :
    ((openThen resizeOntoClose).foldlM handle (.init 1)).map
        (fun s => (s.resizing, s.resizeTarget, search s.wm 100 (s.wm.count + 1) s.wm.head)) =
      some (true, some 100, some false) := by
  decide +kernel

theorem interactions_dangling :
    ∃ tr s, Trace Moves (.init 1) tr s ∧ tr.reverse.map Prod.snd = openThen resizeOntoClose ∧
      ¬Coherent s := by
  obtain ⟨s, hs, hview⟩ := Option.map_eq_some_iff.mp resizeOntoClose_run
  obtain ⟨tr, htr, hlabels⟩ := trace_of_openThen hs
  refine ⟨tr, s, htr, hlabels, fun hc => ?_⟩
  rw [Prod.mk.injEq, Prod.mk.injEq] at hview
  obtain ⟨hactive, htarget, hgone⟩ := hview
  have hlisted := hc.listed .resize 100 hactive htarget
  rw [WndMgr.Listed, hgone] at hlisted
  cases hlisted

end BTron.Window
