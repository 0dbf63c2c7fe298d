import BTron.Hmi.Ranges
import Mathlib.Data.List.Induction

namespace BTron.Hmi

open Event Graphics Lib

section Panel

variable {p p' : Panel} {c c' : Ctrl} {i j : Nat}

theorem Panel.modify_getElem? (p : Panel) (i j : Nat) (f : Ctrl → Ctrl) :
    (p.modify i f).controls[j]? = if i = j then p.controls[j]?.map f else p.controls[j]? := by
  rw [modify, List.getElem?_modify]
  split <;> simp

theorem Panel.modify_length (p : Panel) (i : Nat) (f : Ctrl → Ctrl) :
    (p.modify i f).controls.length = p.controls.length := by simp [modify]

-- The properties of the parts, place by place.
theorem Panel.sound_iff : p.Sound ↔ ∀ (i : Nat) c, p.controls[i]? = some c →
    c.Sound ∧ (c.flags.focused ↔ p.focusedIndex = i) := by
  constructor
  · exact fun hs i c hc => ⟨hs.parts c (List.mem_of_getElem? hc), hs.focused i c hc⟩
  · intro h
    refine ⟨fun c hc => ?_, fun i c hc => (h i c hc).2⟩
    obtain ⟨i, hi⟩ := List.mem_iff_getElem?.mp hc
    exact (h i c hi).1

theorem Panel.modify_sound (hs : p.Sound) {f : Ctrl → Ctrl} (hc : p.controls[i]? = some c)
    (hfocused : (f c).flags.focused = c.flags.focused) : (p.modify i f).Sound ↔ (f c).Sound := by
  have hcell : (p.modify i f).controls[i]? = some (f c) := by
    rw [modify_getElem?, if_pos rfl, hc, Option.map_some]
  constructor
  · exact fun h => h.parts _ (List.mem_of_getElem? hcell)
  · intro h
    refine sound_iff.mpr fun j d hd => ?_
    by_cases hij : i = j
    · subst hij
      obtain rfl := Option.some.inj (hcell.symm.trans hd)
      exact ⟨h, hfocused ▸ hs.focused i c hc⟩
    · rw [modify_getElem?, if_neg hij] at hd
      exact sound_iff.mp hs j d hd

theorem Panel.modify_wf (hw : p.Wf) {f : Ctrl → Ctrl}
    (hf : ∀ c, p.controls[i]? = some c → (f c).Wf) : (p.modify i f).Wf := by
  refine ⟨fun c hc => ?_, by
    rw [modify_length]
    exact hw.focus⟩
  obtain ⟨j, hj⟩ := List.mem_iff_getElem?.mp hc
  rw [modify_getElem?] at hj
  split at hj
  · rename_i hij
    subst hij
    obtain ⟨d, hd, rfl⟩ := Option.map_eq_some_iff.mp hj
    exact hf d hd
  · exact hw.parts c (List.mem_of_getElem? hj)

theorem Panel.change_iff (hs : p.Sound) {f : Ctrl → Option (Ctrl × Bool)}
    (hf : ∀ {c' : Ctrl} {told : Bool}, f c = some (c', told) → c.Sets c')
    (hc : p.controls[i]? = some c) :
    (∃ r, p.change i f = some r ∧ r.1.Sound) ↔ Sounds (f c) := by
  rw [change, Option.bind_eq_bind, hc, Option.bind_some]
  cases hr : f c with
  | none => simp [Sounds]
  | some r =>
      obtain ⟨c', told⟩ := r
      have hmodify := modify_sound (f := fun _ => c') hs hc (hf hr).focused
      rw [sounds_some, ← hmodify]
      simp

theorem Panel.change_wf (hw : p.Wf) {f : Ctrl → Option (Ctrl × Bool)} {r : Panel × Told}
    (hf : ∀ {c c' : Ctrl} {told : Bool}, f c = some (c', told) → c.Sets c')
    (h : p.change i f = some r) : r.1.Wf := by
  obtain ⟨c, hc, h⟩ := Option.bind_eq_some_iff.mp h
  obtain ⟨⟨c', told⟩, hc', h⟩ := Option.bind_eq_some_iff.mp h
  cases h
  exact modify_wf hw fun _ _ => (hf hc').wf (hw.parts c (List.mem_of_getElem? hc))

theorem Panel.focus_eq_some : p.focus = some i ↔ p.focusedIndex = i ∧ i < p.controls.length := by
  rw [focus]
  split
  · rw [Option.some_inj]
    omega
  · simp only [reduceCtorEq, false_iff]
    omega

theorem Panel.changeFocused_iff (hs : p.Sound) {f : Ctrl → Option (Ctrl × Bool)}
    (hf : ∀ {c c' : Ctrl} {told : Bool}, f c = some (c', told) → c.Sets c') :
    (∃ r, p.changeFocused f = some r ∧ r.1.Sound) ↔
      ∀ i c, p.focus = some i → p.controls[i]? = some c → Sounds (f c) := by
  rw [changeFocused]
  cases hfocus : p.focus with
  | none => simp [hs]
  | some i =>
      have hi := (focus_eq_some.mp hfocus).2
      have hc := List.getElem?_eq_getElem hi
      have hchange := change_iff hs hf hc
      constructor
      · rintro ⟨r, hr, hsound⟩ j c hj hc'
        cases hj
        obtain ⟨r', hr', rfl⟩ := Option.map_eq_some_iff.mp hr
        rw [← Option.some.inj (hc.symm.trans hc')]
        exact hchange.mp ⟨r', hr', hsound⟩
      · intro h
        obtain ⟨r, hr, hsound⟩ := hchange.mpr (h i _ rfl hc)
        exact ⟨(r.1, E_OK, r.2), by simp only [hr, Option.map_some], hsound⟩

theorem Panel.changeFocused_wf (hw : p.Wf) {f : Ctrl → Option (Ctrl × Bool)}
    {r : Panel × ER × Told}
    (hf : ∀ {c c' : Ctrl} {told : Bool}, f c = some (c', told) → c.Sets c')
    (h : p.changeFocused f = some r) : r.1.Wf := by
  rw [changeFocused] at h
  split at h
  · obtain ⟨r', hr', rfl⟩ := Option.map_eq_some_iff.mp h
    exact change_wf hw hf hr'
  · cases h
    exact hw

theorem Ctrl.sound_setFocused (b : Bool) : (c.setFocused b).Sound ↔ c.Sound :=
  ⟨fun h => ⟨h.range, h.checked⟩, fun h => ⟨h.range, h.checked⟩⟩

theorem Ctrl.sound_setPressed (b : Bool) : (c.setPressed b).Sound ↔ c.Sound :=
  ⟨fun h => ⟨h.range, h.checked⟩, fun h => ⟨h.range, h.checked⟩⟩

theorem Ctrl.sound_setDisabled (b : Bool) : (c.setDisabled b).Sound ↔ c.Sound :=
  ⟨fun h => ⟨h.range, h.checked⟩, fun h => ⟨h.range, h.checked⟩⟩

theorem Ctrl.setFocused_self {b : Bool} (h : c.flags.focused = b) : c.setFocused b = c := by
  rw [← h]
  rfl

theorem Panel.blur_focusedIndex (p : Panel) : p.blur.focusedIndex = p.focusedIndex := by
  rw [blur]
  split <;> rfl

-- Exactly the focused part has the flag.
def Panel.Marked (p : Panel) : Prop :=
  ∀ (i : Nat) c, p.controls[i]? = some c → (c.flags.focused ↔ p.focusedIndex = i)

-- After the focus is cleared no part has the flag.
theorem Panel.blur_getElem? (hm : p.Marked) (j : Nat) :
    p.blur.controls[j]? = p.controls[j]?.map (·.setFocused false) := by
  have hother : p.focusedIndex ≠ j → p.controls[j]? = p.controls[j]?.map (·.setFocused false) := by
    intro hne
    cases hc : p.controls[j]? with
    | none => rfl
    | some c =>
        have hoff : c.flags.focused = false := by
          simpa [hne] using hm j c hc
        rw [Option.map_some, Ctrl.setFocused_self hoff]
  rw [blur]
  cases hfocus : p.focus with
  | none =>
      dsimp only
      by_cases hj : p.focusedIndex = j
      · have hout : p.controls.length ≤ j := by
          by_contra hlt
          rw [focus_eq_some.mpr ⟨hj, by omega⟩] at hfocus
          cases hfocus
        rw [List.getElem?_eq_none hout]
        rfl
      · exact hother hj
  | some i =>
      have hi := (focus_eq_some.mp hfocus).1
      dsimp only
      rw [modify_getElem?]
      split
      · rfl
      · exact hother (by omega)

theorem Panel.blur_length (p : Panel) : p.blur.controls.length = p.controls.length := by
  rw [blur]
  split
  · exact modify_length _ _ _
  · rfl

theorem setFocus_cases (p : Panel) (k : Int) :
    hmiSetFocus p k = { p.blur with focusedIndex := -1 } ∨
      0 ≤ k ∧ k < p.controls.length ∧ (∃ c, p.blur.controls[k.toNat]? = some c ∧
        c.flags.disabled = false) ∧
        hmiSetFocus p k = { p.blur.modify k.toNat (·.setFocused true) with focusedIndex := k } := by
  unfold hmiSetFocus
  dsimp only
  by_cases hk : k ≥ 0
  · rw [if_pos hk]
    cases hc : p.blur.controls[k.toNat]? with
    | none => exact .inl rfl
    | some c =>
        have hlt := (List.getElem?_eq_some_iff.mp hc).1
        rw [Panel.blur_length] at hlt
        by_cases hdisabled : c.flags.disabled
        · exact .inl (by simp [hdisabled])
        · rw [Bool.not_eq_true] at hdisabled
          exact .inr ⟨hk, by omega, ⟨c, rfl, hdisabled⟩, by simp [hdisabled]⟩
  · rw [if_neg hk]
    exact .inl rfl

-- The focus goes to the part, or nowhere, and the flags with it.
theorem setFocus_spec (hm : p.Marked) (k : Int) :
    (hmiSetFocus p k).controls.length = p.controls.length ∧
    ∀ j : Nat, (hmiSetFocus p k).controls[j]? =
      p.controls[j]?.map (·.setFocused ((hmiSetFocus p k).focusedIndex = j)) := by
  obtain hnowhere | ⟨h0, hlt, -, hthere⟩ := setFocus_cases p k
  · rw [hnowhere]
    refine ⟨Panel.blur_length p, fun j => ?_⟩
    have hj : decide ((-1 : Int) = j) = false := decide_eq_false (by omega)
    dsimp only
    rw [hj]
    exact Panel.blur_getElem? hm j
  · rw [hthere]
    refine ⟨by rw [Panel.modify_length, Panel.blur_length], fun j => ?_⟩
    dsimp only
    rw [Panel.modify_getElem?, Panel.blur_getElem? hm]
    by_cases hj : k.toNat = j
    · have hkj : decide (k = j) = true := decide_eq_true (by omega)
      rw [if_pos hj, Option.map_map, hkj]
      rfl
    · have hkj : decide (k = j) = false := decide_eq_false (by omega)
      rw [if_neg hj, hkj]

theorem setFocus_sound (hs : p.Sound) (k : Int) : (hmiSetFocus p k).Sound := by
  obtain ⟨-, hcells⟩ := setFocus_spec hs.focused k
  refine Panel.sound_iff.mpr fun j c hc => ?_
  rw [hcells] at hc
  obtain ⟨d, hd, rfl⟩ := Option.map_eq_some_iff.mp hc
  refine ⟨(Ctrl.sound_setFocused _).mpr (hs.parts d (List.mem_of_getElem? hd)), ?_⟩
  exact decide_eq_true_iff

theorem Ctrl.Wf.setFocused {b : Bool} (h : c.Wf) : (c.setFocused b).Wf :=
  ⟨h.choice, h.options, h.min, h.max⟩

theorem setFocus_wf (hw : p.Wf) (k : Int) : (hmiSetFocus p k).Wf := by
  have hblur : p.blur.Wf := by
    rw [Panel.blur]
    split
    · exact Panel.modify_wf hw fun c hc => (hw.parts c (List.mem_of_getElem? hc)).setFocused
    · exact hw
  obtain hnowhere | ⟨h0, hlt, -, hthere⟩ := setFocus_cases p k
  · rw [hnowhere]
    exact ⟨hblur.parts, by simp only; omega⟩
  · have hmodify := Panel.modify_wf (i := k.toNat) (f := (·.setFocused true)) hblur fun c hc =>
      (hblur.parts c (List.mem_of_getElem? hc)).setFocused
    rw [hthere]
    refine ⟨hmodify.parts, ?_⟩
    dsimp only
    rw [Panel.modify_length, Panel.blur_length]
    omega

theorem focusFirst_eq (p : Panel) (places : List Nat) :
    focusFirst p places = p ∨ ∃ k, focusFirst p places = hmiSetFocus p k := by
  induction places with
  | nil => exact .inl rfl
  | cons idx places ih =>
      rw [focusFirst]
      split
      · exact .inr ⟨idx, rfl⟩
      · exact ih

theorem focusFirst_sound (hs : p.Sound) (places : List Nat) : (focusFirst p places).Sound := by
  obtain heq | ⟨k, heq⟩ := focusFirst_eq p places
  · rwa [heq]
  · rw [heq]
    exact setFocus_sound hs k

theorem focusFirst_wf (hw : p.Wf) (places : List Nat) : (focusFirst p places).Wf := by
  obtain heq | ⟨k, heq⟩ := focusFirst_eq p places
  · rwa [heq]
  · rw [heq]
    exact setFocus_wf hw k

-- Next and previous leave the panel or set the focus.
theorem focusNext_eq (p : Panel) : ∃ places, (hmiFocusNext p).1 = focusFirst p places := by
  rw [hmiFocusNext]
  dsimp only
  split
  · exact ⟨[], rfl⟩
  · exact ⟨_, rfl⟩

theorem focusPrev_eq (p : Panel) : ∃ places, (hmiFocusPrev p).1 = focusFirst p places := by
  rw [hmiFocusPrev]
  dsimp only
  split
  · exact ⟨[], rfl⟩
  · exact ⟨_, rfl⟩

-- A new part has no focus.
theorem Panel.add_sound_iff (hw : p.Wf) (hs : p.Sound) (hoff : c.flags.focused = false) :
    (p.add c).Sound ↔ (p.controls.length < HMI_PANEL_MAX_CTRLS → c.Sound) := by
  rw [add]
  split
  · rename_i hfull
    exact iff_of_true hs fun hlt => absurd hlt (by omega)
  · rename_i hroom
    have hfocus := hw.focus.2
    rw [sound_iff]
    constructor
    · intro h _
      exact (h p.controls.length c (by simp)).1
    · intro hc i d hd
      rw [List.getElem?_append] at hd
      split at hd
      · exact sound_iff.mp hs i d hd
      · rw [List.getElem?_singleton, Option.ite_none_right_eq_some] at hd
        obtain ⟨hi, heq⟩ := hd
        obtain rfl := Option.some.inj heq
        refine ⟨hc (by omega), ?_⟩
        simp only [hoff, Bool.false_eq_true, false_iff]
        omega

theorem Panel.add_wf (hw : p.Wf) (hc : c.Wf) : (p.add c).Wf := by
  rw [add]
  split
  · exact hw
  · refine ⟨fun d hd => ?_, ?_⟩
    · obtain hd | hd := List.mem_append.mp hd
      · exact hw.parts d hd
      · rw [List.mem_singleton.mp hd]
        exact hc
    · have hfocus := hw.focus
      rw [List.length_append]
      dsimp only
      omega

-- When a key leaves the panel sound.
def Panel.Admits (p : Panel) (key : UniversalKey) : Prop :=
  ∀ i c, p.focus = some i → p.controls[i]? = some c → c.Admits key

theorem Panel.changeFocused_admits (hw : p.Wf) (hs : p.Sound) {f : Ctrl → Option (Ctrl × Bool)}
    {key : UniversalKey} (hf : ∀ {c c' : Ctrl} {told : Bool}, f c = some (c', told) → c.Sets c')
    (hiff : ∀ {c : Ctrl}, c.Wf → c.Sound → (Sounds (f c) ↔ c.Admits key)) :
    (∃ r, p.changeFocused f = some r ∧ r.1.Sound) ↔ p.Admits key := by
  rw [changeFocused_iff hs hf]
  refine forall₂_congr fun i c => forall₂_congr fun _ hc => ?_
  exact hiff (hw.parts c (List.mem_of_getElem? hc)) (hs.parts c (List.mem_of_getElem? hc))

theorem universalKey_iff (hw : p.Wf) (hs : p.Sound) (key : UniversalKey) :
    (∃ r, hmiHandleUniversalKey p key = some r ∧ r.1.Sound) ↔ p.Admits key := by
  have hall : ∀ q : Panel, q.Sound → ∀ er : ER,
      ((∃ r : Panel × ER × Told, some (q, er, []) = some r ∧ r.1.Sound) ↔ True) := fun q hq er =>
    iff_of_true ⟨_, rfl, hq⟩ trivial
  cases key with
  | prevItem =>
      obtain ⟨places, heq⟩ := focusPrev_eq p
      rw [hmiHandleUniversalKey, hall _ (heq ▸ focusFirst_sound hs places)]
      exact iff_of_true trivial fun _ _ _ _ => trivial
  | nextItem =>
      obtain ⟨places, heq⟩ := focusNext_eq p
      rw [hmiHandleUniversalKey, hall _ (heq ▸ focusFirst_sound hs places)]
      exact iff_of_true trivial fun _ _ _ _ => trivial
  | decValue => exact Panel.changeFocused_admits hw hs Ctrl.sets_decValue Ctrl.decValue_iff
  | incValue => exact Panel.changeFocused_admits hw hs Ctrl.sets_incValue Ctrl.incValue_iff
  | execute =>
      exact Panel.changeFocused_admits hw hs Ctrl.sets_execute fun _ hc => Ctrl.execute_iff hc
  | cancel => exact Panel.changeFocused_admits hw hs Ctrl.sets_cancel Ctrl.cancel_iff
  | command =>
      exact iff_of_true ⟨_, rfl, hs.parts, hs.focused⟩ fun _ _ _ _ => trivial
  | none =>
      rw [hmiHandleUniversalKey, hall _ hs]
      exact iff_of_true trivial fun _ _ _ _ => trivial

theorem universalKey_wf (hw : p.Wf) {key : UniversalKey} {r : Panel × ER × Told}
    (h : hmiHandleUniversalKey p key = some r) : r.1.Wf := by
  cases key with
  | prevItem =>
      obtain ⟨places, heq⟩ := focusPrev_eq p
      cases h
      exact heq ▸ focusFirst_wf hw places
  | nextItem =>
      obtain ⟨places, heq⟩ := focusNext_eq p
      cases h
      exact heq ▸ focusFirst_wf hw places
  | decValue => exact Panel.changeFocused_wf hw Ctrl.sets_decValue h
  | incValue => exact Panel.changeFocused_wf hw Ctrl.sets_incValue h
  | execute => exact Panel.changeFocused_wf hw Ctrl.sets_execute h
  | cancel => exact Panel.changeFocused_wf hw Ctrl.sets_cancel h
  | command =>
      cases h
      exact ⟨hw.parts, hw.focus⟩
  | none =>
      cases h
      exact hw

-- A press gives the part the focus and marks it, before it changes its value.
theorem pressed_part (hs : p.Sound) (y : Int) (hc : p.controls[i]? = some c) :
    ∃ c', ((hmiSetFocus p i).modify i (·.setPressed true)).controls[i]? = some c' ∧
      (c'.AdmitsPress y ↔ c.AdmitsPress y) := by
  have hcell := (setFocus_spec hs.focused i).2 i
  rw [hc, Option.map_some] at hcell
  refine ⟨_, by rw [Panel.modify_getElem?, if_pos rfl, hcell, Option.map_some], ?_⟩
  exact Iff.rfl

theorem butDown_sound (hs : p.Sound) (i : Nat) :
    ((hmiSetFocus p i).modify i (·.setPressed true)).Sound := by
  have hs' := setFocus_sound hs i
  cases hc : (hmiSetFocus p i).controls[i]? with
  | none =>
      refine Panel.sound_iff.mpr fun j d hd => ?_
      rw [Panel.modify_getElem?] at hd
      split at hd
      · rename_i hij
        rw [← hij, hc] at hd
        cases hd
      · exact Panel.sound_iff.mp hs' j d hd
  | some c =>
      refine (Panel.modify_sound hs' hc rfl).mpr ?_
      exact (Ctrl.sound_setPressed true).mpr (hs'.parts c (List.mem_of_getElem? hc))

theorem Ctrl.Wf.setPressed {b : Bool} (h : c.Wf) : (c.setPressed b).Wf :=
  ⟨h.choice, h.options, h.min, h.max⟩

theorem butDown_wf (hw : p.Wf) (i : Nat) :
    ((hmiSetFocus p i).modify i (·.setPressed true)).Wf :=
  Panel.modify_wf (setFocus_wf hw i) fun c hc =>
    ((setFocus_wf hw i).parts c (List.mem_of_getElem? hc)).setPressed

theorem pressed_lt {x y : Int} (h : pressed p x y = some i) : i < p.controls.length :=
  (List.findIdx?_eq_some_iff_findIdx_eq.mp h).1

-- When an event leaves the panel sound.
def Panel.AdmitsEvent (p : Panel) (evt : Evt) : Prop :=
  match evt.type with
  | .EV_KEY_DOWN => ∀ key, universalKey evt.key = some key → p.Admits key
  | .EV_BUT_DOWN =>
    ∀ i c, pressed p evt.posX evt.posY = some i → p.controls[i]? = some c →
      c.AdmitsPress evt.posY
  | _ => True

theorem dispatchEvent_iff (hw : p.Wf) (hs : p.Sound) (evt : Evt) :
    (∃ r, hmiDispatchEvent p evt = some r ∧ r.1.Sound) ↔ p.AdmitsEvent evt := by
  obtain ⟨t, htype⟩ : ∃ t, evt.type = t := ⟨_, rfl⟩
  cases t with
  | EV_KEY_DOWN =>
      simp only [hmiDispatchEvent, Panel.AdmitsEvent, htype]
      cases universalKey evt.key with
      | none => simp [hs]
      | some key =>
          simp only [Option.some_inj, forall_eq', ← universalKey_iff hw hs, Option.map_eq_some_iff]
          constructor
          · rintro ⟨_, ⟨r, hr, rfl⟩, hsound⟩
            exact ⟨r, hr, hsound⟩
          · rintro ⟨r, hr, hsound⟩
            exact ⟨_, ⟨r, hr, rfl⟩, hsound⟩
  | EV_BUT_DOWN =>
      simp only [hmiDispatchEvent, Panel.AdmitsEvent, htype]
      cases hi : pressed p evt.posX evt.posY with
      | none => simp [hs]
      | some i =>
          have hc := List.getElem?_eq_getElem (pressed_lt hi)
          obtain ⟨c', hc', hadmits⟩ := pressed_part hs evt.posY hc
          have hs' := butDown_sound hs i
          have hmem := List.mem_of_getElem? hc'
          have hpress := Panel.change_iff (f := Ctrl.press evt.posX evt.posY) hs' Ctrl.sets_press
            hc'
          rw [Ctrl.press_iff ((butDown_wf hw i).parts c' hmem) (hs'.parts c' hmem), hadmits]
            at hpress
          constructor
          · rintro ⟨_, hr, hsound⟩ j c hj hcj
            obtain ⟨r, hchange, rfl⟩ := Option.map_eq_some_iff.mp hr
            cases hj
            rw [← Option.some.inj (hc.symm.trans hcj)]
            exact hpress.mp ⟨r, hchange, hsound⟩
          · intro h
            obtain ⟨r, hr, hsound⟩ := hpress.mpr (h i _ rfl hc)
            exact ⟨_, Option.map_eq_some_iff.mpr ⟨r, hr, rfl⟩, hsound⟩
  | EV_BUT_UP =>
      simp only [hmiDispatchEvent, Panel.AdmitsEvent, htype, iff_true]
      refine ⟨_, rfl, Panel.sound_iff.mpr fun i c hc => ?_⟩
      dsimp only at hc
      rw [List.getElem?_map] at hc
      obtain ⟨d, hd, rfl⟩ := Option.map_eq_some_iff.mp hc
      obtain ⟨hsound, hfocused⟩ := Panel.sound_iff.mp hs i d hd
      exact ⟨(Ctrl.sound_setPressed false).mpr hsound, hfocused⟩
  | _ => simp [hmiDispatchEvent, Panel.AdmitsEvent, htype, hs]

theorem dispatchEvent_wf (hw : p.Wf) {evt : Evt} {r : Panel × Bool × Told}
    (h : hmiDispatchEvent p evt = some r) : r.1.Wf := by
  rw [hmiDispatchEvent] at h
  split at h
  · split at h
    · obtain ⟨r', hr', rfl⟩ := Option.map_eq_some_iff.mp h
      exact universalKey_wf hw hr'
    · cases h
      exact hw
  · split at h
    · obtain ⟨r', hr', rfl⟩ := Option.map_eq_some_iff.mp h
      exact Panel.change_wf (butDown_wf hw _) Ctrl.sets_press hr'
    · cases h
      exact hw
  · cases h
    refine ⟨fun c hc => ?_, by simpa using hw.focus⟩
    obtain ⟨d, hd, rfl⟩ := List.mem_map.mp hc
    exact (hw.parts d hd).setPressed
  · cases h
    exact hw

-- When a call leaves the panel sound.
def Call.Admitted (p : Panel) : Call → Prop
  | .addUpdownSelector _ minV maxV initV _ | .addSliderVolume _ minV maxV initV
  | .addDialVolume _ minV maxV initV =>
    p.controls.length < HMI_PANEL_MAX_CTRLS → minV ≤ initV ∧ initV ≤ maxV
  | .addRadioSelector _ numOpts _ => p.controls.length < HMI_PANEL_MAX_CTRLS → 0 < numOpts
  | .universalKey key => p.Admits key
  | .dispatchEvent evt => p.AdmitsEvent evt
  | _ => True

-- A part without a value of its own.
theorem Place.ctrl_sound {l : Place} {type : CtrlType} (h : type ≠ .toggleSwitch)
    (h' : type ≠ .radioSelector) (h'' : type ≠ .rotarySelector) : (l.ctrl type).Sound := by
  refine ⟨?_, fun htoggle => absurd htoggle h⟩
  cases type with
  | toggleSwitch => exact absurd rfl h
  | radioSelector => exact absurd rfl h'
  | rotarySelector => exact absurd rfl h''
  | _ => exact ⟨le_rfl, le_rfl⟩

theorem Place.ctrl_wf (l : Place) (type : CtrlType) : (l.ctrl type).Wf :=
  ⟨fun _ => rfl, by simp [Place.ctrl, newCtrl], by simp [Place.ctrl, newCtrl, IsInt],
    by simp [Place.ctrl, newCtrl, IsInt]⟩

theorem add_iff (hw : p.Wf) (hs : p.Sound) (hoff : c.flags.focused = false) {P : Prop}
    (hP : c.Sound ↔ P) : (∃ q, some (p.add c) = some q ∧ q.Sound) ↔
      (p.controls.length < HMI_PANEL_MAX_CTRLS → P) := by
  simp only [Option.some_inj, exists_eq_left', Panel.add_sound_iff hw hs hoff, hP]

theorem pushSwitch_spec (hw : p.Wf) (hs : p.Sound) (l : Place) :
    (hmiAddPushSwitch p l).Wf ∧ (hmiAddPushSwitch p l).Sound := by
  obtain ⟨hchoice, hoptions, hmin, hmax⟩ := l.ctrl_wf .pushSwitch
  have hsound : (l.ctrl .pushSwitch).Sound :=
    Place.ctrl_sound (by decide) (by decide) (by decide)
  exact ⟨Panel.add_wf hw ⟨hchoice, hoptions, hmin, hmax⟩,
    (Panel.add_sound_iff hw hs rfl).mpr fun _ => ⟨hsound.range, hsound.checked⟩⟩

theorem toggleSwitch_sound (l : Place) (initState : Bool) :
    Ctrl.Sound { l.ctrl .toggleSwitch with
      flags := { Flags.start with checked := initState }
      val := if initState then 1 else 0 } :=
  Ctrl.setChecked_sound (c := l.ctrl .toggleSwitch) rfl initState

theorem radioSelector_sound_iff (l : Place) (numOpts initIdx : Int) :
    Ctrl.Sound { l.ctrl .radioSelector with
      numOptions := if numOpts > 16 then 16 else numOpts
      val := if initIdx ≥ 0 ∧ initIdx < (if numOpts > 16 then 16 else numOpts) then initIdx
        else 0 } ↔ 0 < numOpts := by
  rw [Ctrl.radio_sound_iff rfl]
  dsimp only
  split <;> split <;> omega

theorem rotarySelector_sound (l : Place) (numPositions initPos : Int) :
    Ctrl.Sound { l.ctrl .rotarySelector with
      numOptions := if numPositions > 0 ∧ numPositions ≤ 16 then numPositions else 4
      val := if initPos ≥ 0 ∧ initPos < (if numPositions > 0 ∧ numPositions ≤ 16 then numPositions
        else 4) then initPos else 0 } := by
  refine ⟨?_, fun htoggle => nomatch htoggle⟩
  change 0 ≤ (if _ then initPos else 0 : Int) ∧ (if _ then initPos else 0 : Int) <
    if numPositions > 0 ∧ numPositions ≤ 16 then numPositions else 4
  split <;> split <;> omega

-- A call is defined and leaves the panel sound, if and only if it is admitted.
theorem exec_iff (hw : p.Wf) (hs : p.Sound) {a : Call} (hl : a.Legal) :
    (∃ q, exec p a = some q ∧ q.Sound) ↔ a.Admitted p := by
  have htrue : ∀ q : Panel, q.Sound → ((∃ q', some q = some q' ∧ q'.Sound) ↔ True) := fun q hq =>
    iff_of_true ⟨q, rfl, hq⟩ trivial
  cases a with
  | addPushSwitch l => exact htrue _ (pushSwitch_spec hw hs l).2
  | addToggleSwitch l initState =>
      exact htrue _ ((Panel.add_sound_iff hw hs rfl).mpr fun _ => toggleSwitch_sound l initState)
  | addStandardTriad id x y w h onCancel onDefault onStart =>
      obtain ⟨hw₁, hs₁⟩ := pushSwitch_spec hw hs _
      obtain ⟨hw₂, hs₂⟩ := pushSwitch_spec hw₁ hs₁ _
      exact htrue _ (pushSwitch_spec hw₂ hs₂ _).2
  | addUpdownSelector l minV maxV initV unit =>
      exact add_iff hw hs rfl (Ctrl.Steps.sound_iff (.inl rfl))
  | addRadioSelector l numOpts initIdx =>
      exact add_iff hw hs rfl (radioSelector_sound_iff l numOpts initIdx)
  | addRotarySelector l numPositions initPos =>
      exact htrue _ ((Panel.add_sound_iff hw hs rfl).mpr fun _ =>
        rotarySelector_sound l numPositions initPos)
  | addSliderVolume l minV maxV initV =>
      exact add_iff hw hs rfl (Ctrl.Steps.sound_iff (.inr (.inl rfl)))
  | addDialVolume l minV maxV initV =>
      exact add_iff hw hs rfl (Ctrl.Steps.sound_iff (.inr (.inr rfl)))
  | addBarMeter l minV maxV =>
      exact htrue _ ((Panel.add_sound_iff hw hs rfl).mpr fun _ =>
        ⟨⟨le_rfl, hl.2.2⟩, fun htoggle => nomatch htoggle⟩)
  | addStatusLed l initColor =>
      exact htrue _ ((Panel.add_sound_iff hw hs rfl).mpr fun _ =>
        ⟨⟨le_rfl, le_rfl⟩, fun htoggle => nomatch htoggle⟩)
  | addDigitalDisplay l initText =>
      exact htrue _ ((Panel.add_sound_iff hw hs rfl).mpr fun _ =>
        ⟨⟨le_rfl, le_rfl⟩, fun htoggle => nomatch htoggle⟩)
  | addUniversalPad l =>
      exact htrue _ ((Panel.add_sound_iff hw hs rfl).mpr fun _ =>
        ⟨⟨le_rfl, le_rfl⟩, fun htoggle => nomatch htoggle⟩)
  | setDisabled i b =>
      refine htrue _ (Panel.sound_iff.mpr fun j c hc => ?_)
      rw [Panel.modify_getElem?] at hc
      split at hc
      · obtain ⟨d, hd, rfl⟩ := Option.map_eq_some_iff.mp hc
        obtain ⟨hsound, hfocused⟩ := Panel.sound_iff.mp hs j d hd
        exact ⟨(Ctrl.sound_setDisabled b).mpr hsound, hfocused⟩
      · exact Panel.sound_iff.mp hs j c hc
  | setFocus ctrlIndex => exact htrue _ (setFocus_sound hs ctrlIndex)
  | focusNext =>
      obtain ⟨places, heq⟩ := focusNext_eq p
      exact htrue _ (heq ▸ focusFirst_sound hs places)
  | focusPrev =>
      obtain ⟨places, heq⟩ := focusPrev_eq p
      exact htrue _ (heq ▸ focusFirst_sound hs places)
  | universalKey key =>
      rw [exec, Call.Admitted, ← universalKey_iff hw hs]
      simp
  | dispatchEvent evt =>
      rw [exec, Call.Admitted, ← dispatchEvent_iff hw hs]
      simp

theorem exec_wf (hw : p.Wf) {a : Call} (hl : a.Legal) (h : exec p a = some p') : p'.Wf := by
  have hopts : (0 : Int) ≤ 16 := by decide
  have hnone : ∀ {c : Ctrl}, c.minVal = 0 → c.maxVal = 0 → c.numOptions ≤ 16 → c.Wf :=
    fun hmin hmax hopt => ⟨fun _ => hmin, hopt, by rw [hmin]; decide, by rw [hmax]; decide⟩
  cases a with
  | universalKey key =>
      obtain ⟨r, hr, rfl⟩ := Option.map_eq_some_iff.mp h
      exact universalKey_wf hw hr
  | dispatchEvent evt =>
      obtain ⟨r, hr, rfl⟩ := Option.map_eq_some_iff.mp h
      exact dispatchEvent_wf hw hr
  | addStandardTriad id x y w h onCancel onDefault onStart =>
      cases h
      refine Panel.add_wf (Panel.add_wf (Panel.add_wf hw ?_) ?_) ?_
      all_goals exact hnone rfl rfl hopts
  | addPushSwitch l | addToggleSwitch l b | addStatusLed l initColor | addDigitalDisplay l t
  | addUniversalPad l =>
      cases h
      exact Panel.add_wf hw (hnone rfl rfl hopts)
  | addUpdownSelector l minV maxV initV unit =>
      cases h
      exact Panel.add_wf hw ⟨by simp [Place.ctrl, newCtrl], hopts, hl.1, hl.2.1⟩
  | addSliderVolume l minV maxV initV | addDialVolume l minV maxV initV | addBarMeter l minV maxV =>
      cases h
      exact Panel.add_wf hw ⟨by simp [Place.ctrl, newCtrl], hopts, hl.1, hl.2.1⟩
  | addRadioSelector l numOpts initIdx | addRotarySelector l numPositions initPos =>
      cases h
      refine Panel.add_wf hw (hnone rfl rfl ?_)
      dsimp only
      split <;> omega
  | setDisabled i b =>
      cases h
      refine Panel.modify_wf hw fun c hc => ?_
      obtain ⟨hchoice, hoptions, hmin, hmax⟩ := hw.parts c (List.mem_of_getElem? hc)
      exact ⟨hchoice, hoptions, hmin, hmax⟩
  | setFocus ctrlIndex =>
      cases h
      exact setFocus_wf hw ctrlIndex
  | focusNext =>
      obtain ⟨places, heq⟩ := focusNext_eq p
      cases h
      exact heq ▸ focusFirst_wf hw places
  | focusPrev =>
      obtain ⟨places, heq⟩ := focusPrev_eq p
      cases h
      exact heq ▸ focusFirst_wf hw places

end Panel

-- No call so far was undefined, and the panel is sound.
def Good (p : Option Panel) : Prop := ∃ q, p = some q ∧ q.Sound

-- The panel stays sound if and only if no part is made without a value in its range, no key and no
-- press goes beyond the ints, and no toggle that is checked is cancelled.
theorem panel_sound_iff_admitted {title : Option (List UB)} {x y w h : Int} {bgCol : Nat}
    {tr : List (Option Panel × Call)} {p : Option Panel}
    (htr : Trace Step (some (hmiInitPanel title x y w h bgCol)) tr p) :
    (Good p ∧ ∀ t ∈ tr, Good t.1) ↔ ∀ t ∈ tr, ∀ q, t.1 = some q → t.2.Admitted q := by
  refine htr.forall_iff_within (I := fun p => ∀ q, p = some q → q.Wf)
    (C := fun p a => ∀ q, p = some q → a.Admitted q) ?_ ?_ ?_ ?_
  · intro q hq
    cases hq
    exact ⟨by simp [hmiInitPanel], by simp [hmiInitPanel]⟩
  · rintro s a s' hI ⟨hl, rfl⟩ q hq
    obtain ⟨p, rfl, hexec⟩ := Option.bind_eq_some_iff.mp hq
    exact exec_wf (hI p rfl) hl hexec
  · exact ⟨_, rfl, by simp [hmiInitPanel], by simp [hmiInitPanel]⟩
  · rintro s a s' hI ⟨p, rfl, hs⟩ ⟨hl, rfl⟩
    simp only [Option.some_inj, forall_eq', Good, Option.bind_some]
    exact exec_iff (hI p rfl) hs hl

theorem trace_of_calls (p : Panel) {as : List Call} (hlegal : ∀ a ∈ as, a.Legal) :
    ∃ tr, Trace Step (some p) tr (as.foldlM exec p) ∧ tr.map Prod.snd = as.reverse := by
  induction as using List.reverseRecOn with
  | nil => exact ⟨[], .start, rfl⟩
  | append_singleton as a ih =>
      rw [List.forall_mem_append] at hlegal
      obtain ⟨tr, htr, hlabels⟩ := ih hlegal.1
      refine ⟨_, htr.next (a := a) ⟨hlegal.2 a (List.mem_singleton_self a), ?_⟩, ?_⟩
      · rw [List.foldlM_append]
        cases as.foldlM exec p with
        | none => rfl
        | some q => cases h : exec q a <;> simp [h]
      · simp [hlabels]

def emptyPanel : Panel := hmiInitPanel none 0 0 400 300 0

def place (id : Int) : Place := ⟨id, none, 10, 10, 80, 30, true⟩

-- A switch that is off and a slider, the switch then turned on.
def switching : List Call :=
  [.addToggleSwitch (place 1) false, .addSliderVolume (place 2) 0 100 50, .focusNext,
    .universalKey .execute]

theorem switching_sound :
    ∃ tr p, Trace Step (some emptyPanel) tr p ∧ tr.map Prod.snd = switching.reverse ∧ Good p ∧
      ∀ t ∈ tr, Good t.1 := by
  have hlegal : ∀ a ∈ switching, a.Legal := by
    simp only [switching, List.forall_mem_cons, List.not_mem_nil, false_imp_iff, implies_true,
      and_true, Call.Legal, true_and]
    decide
  have hadmitted : ∀ a ∈ switching, ∀ q, a.Admitted q := by
    simp only [switching, List.forall_mem_cons, List.not_mem_nil, false_imp_iff, implies_true,
      and_true, Call.Admitted, true_and]
    exact ⟨fun _ _ => by decide, fun _ _ _ _ _ => trivial⟩
  obtain ⟨tr, htr, hlabels⟩ := trace_of_calls emptyPanel hlegal
  refine ⟨tr, _, htr, hlabels, (panel_sound_iff_admitted htr).mpr fun t ht q _ => ?_⟩
  have hmem : t.2 ∈ switching.reverse := hlabels ▸ List.mem_map_of_mem ht
  exact hadmitted t.2 (List.mem_reverse.mp hmem) q

-- A switch that is on is cancelled.
def cancelling : List Call :=
  [.addToggleSwitch (place 1) true, .focusNext, .universalKey .cancel]

-- Its value is 0 and its flag is set.
theorem cancelled_toggle_stays_checked :
    ∃ tr p, Trace Step (some emptyPanel) tr p ∧ tr.map Prod.snd = cancelling.reverse ∧ ¬Good p := by
  have hlegal : ∀ a ∈ cancelling, a.Legal := by
    simp [cancelling, Call.Legal]
  obtain ⟨tr, htr, hlabels⟩ := trace_of_calls emptyPanel hlegal
  have heval : (cancelling.foldlM exec emptyPanel).map
      (fun p => p.controls.map fun c => (c.type, c.val, c.flags.checked)) =
        some [(.toggleSwitch, 0, true)] := by
    decide +kernel
  refine ⟨tr, _, htr, hlabels, ?_⟩
  rintro ⟨q, hq, hs⟩
  rw [hq, Option.map_some, Option.some_inj] at heval
  obtain ⟨c, hc, hview⟩ := List.mem_map.mp (heval ▸ List.mem_singleton_self _)
  simp only [Prod.mk.injEq] at hview
  have hchecked := (hs.parts c hc).checked hview.1
  exact hchecked.mp hview.2.2 hview.2.1

end BTron.Hmi
