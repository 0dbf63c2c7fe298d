import BTron.Hmi
import BTron.Lib.Run

namespace BTron.Hmi

open Event Graphics Lib

-- A value in its range, an index of an option, a switch off or on.
def Ctrl.InRange (c : Ctrl) : Prop :=
  match c.type with
  | .toggleSwitch => c.val = 0 ∨ c.val = 1
  | .radioSelector | .rotarySelector => 0 ≤ c.val ∧ c.val < c.numOptions
  | _ => c.minVal ≤ c.val ∧ c.val ≤ c.maxVal

structure Ctrl.Sound (c : Ctrl) : Prop where
  range : c.InRange
  checked : c.type = .toggleSwitch → (c.flags.checked ↔ c.val ≠ 0)

structure Panel.Sound (p : Panel) : Prop where
  parts : ∀ c ∈ p.controls, c.Sound
  focused : ∀ (i : Nat) c, p.controls[i]? = some c → (c.flags.focused ↔ p.focusedIndex = i)

-- What the factories and the focus see to.
structure Ctrl.Wf (c : Ctrl) : Prop where
  choice : c.type = .toggleSwitch ∨ c.type = .radioSelector ∨ c.type = .rotarySelector →
    c.minVal = 0
  options : c.numOptions ≤ 16
  min : IsInt c.minVal
  max : IsInt c.maxVal

structure Panel.Wf (p : Panel) : Prop where
  parts : ∀ c ∈ p.controls, c.Wf
  focus : -1 ≤ p.focusedIndex ∧ p.focusedIndex < p.controls.length

-- The parts whose value goes up and down in steps.
def Ctrl.Steps (c : Ctrl) : Prop :=
  c.type = .updownSelector ∨ c.type = .sliderVolume ∨ c.type = .dialVolume

theorem Ctrl.stepBy_pos (c : Ctrl) : 0 < c.stepBy := by
  rw [stepBy]
  split <;> omega

theorem asInt_eq_some {n v : Int} : asInt n = some v ↔ IsInt n ∧ n = v := by
  rw [asInt]
  split <;> simp [*]

section Ctrl

variable {c c' : Ctrl}

theorem Ctrl.Steps.sound_iff (h : c.Steps) : c.Sound ↔ c.minVal ≤ c.val ∧ c.val ≤ c.maxVal := by
  have hrange : c.InRange = (c.minVal ≤ c.val ∧ c.val ≤ c.maxVal) := by
    obtain h | h | h := h <;> simp only [InRange, h]
  constructor
  · intro hs
    rw [← hrange]
    exact hs.range
  · intro hr
    refine ⟨by rwa [hrange], fun htoggle => ?_⟩
    obtain h | h | h := h <;> cases h.symm.trans htoggle

-- A value that is set from a sum of ints.
theorem Ctrl.moves_iff (h : c.Steps) {n : Int} {f : Int → Int}
    (hf : c.minVal ≤ f n ∧ f n ≤ c.maxVal) :
    (∃ c', ((asInt n).bind fun v => some { c with val := f v }) = some c' ∧ c'.Sound) ↔
      IsInt n := by
  constructor
  · rintro ⟨c', hc', -⟩
    obtain ⟨v, hv, -⟩ := Option.bind_eq_some_iff.mp hc'
    exact (asInt_eq_some.mp hv).1
  · intro hint
    have hsteps : { c with val := f n }.Steps := h
    exact ⟨_, Option.bind_eq_some_iff.mpr ⟨n, asInt_eq_some.mpr ⟨hint, rfl⟩, rfl⟩,
      hsteps.sound_iff.mpr hf⟩

theorem Ctrl.increase_iff (h : c.Steps) (hs : c.Sound) :
    (∃ c', c.increase = some c' ∧ c'.Sound) ↔ IsInt (c.val + c.stepBy) := by
  have hr := h.sound_iff.mp hs
  have hpos := c.stepBy_pos
  refine Ctrl.moves_iff (f := fun v => if v > c.maxVal then c.maxVal else v) h ?_
  split <;> omega

theorem Ctrl.decrease_iff (h : c.Steps) (hs : c.Sound) :
    (∃ c', c.decrease = some c' ∧ c'.Sound) ↔ IsInt (c.val - c.stepBy) := by
  have hr := h.sound_iff.mp hs
  have hpos := c.stepBy_pos
  refine Ctrl.moves_iff (f := fun v => if v < c.minVal then c.minVal else v) h ?_
  split <;> omega

theorem Ctrl.setChecked_sound (h : c.type = .toggleSwitch) (b : Bool) : (c.setChecked b).Sound := by
  have htype : (c.setChecked b).type = .toggleSwitch := h
  constructor
  · rw [InRange, htype]
    cases b
    · exact .inl rfl
    · exact .inr rfl
  · intro _
    cases b <;> simp [setChecked]

theorem Ctrl.radio_sound_iff (h : c.type = .radioSelector) :
    c.Sound ↔ 0 ≤ c.val ∧ c.val < c.numOptions := by
  have hrange : c.InRange = (0 ≤ c.val ∧ c.val < c.numOptions) := by simp only [InRange, h]
  constructor
  · intro hs
    rw [← hrange]
    exact hs.range
  · intro hr
    exact ⟨by rwa [hrange], fun htoggle => nomatch h.symm.trans htoggle⟩

-- All that a press or a key can do to a part.
def Ctrl.Sets (c c' : Ctrl) : Prop :=
  ∃ v b, c' = { c with val := v, flags := { c.flags with checked := b } }

theorem Ctrl.Sets.refl (c : Ctrl) : c.Sets c := ⟨c.val, c.flags.checked, rfl⟩

theorem Ctrl.Sets.wf (h : c.Sets c') (hw : c.Wf) : c'.Wf := by
  obtain ⟨v, b, rfl⟩ := h
  exact ⟨hw.choice, hw.options, hw.min, hw.max⟩

theorem Ctrl.Sets.focused (h : c.Sets c') : c'.flags.focused = c.flags.focused := by
  obtain ⟨v, b, rfl⟩ := h
  rfl

theorem Ctrl.sets_increase (h : c.increase = some c') : c.Sets c' := by
  obtain ⟨v, -, h⟩ := Option.bind_eq_some_iff.mp h
  cases h
  exact ⟨_, c.flags.checked, rfl⟩

theorem Ctrl.sets_decrease (h : c.decrease = some c') : c.Sets c' := by
  obtain ⟨v, -, h⟩ := Option.bind_eq_some_iff.mp h
  cases h
  exact ⟨_, c.flags.checked, rfl⟩

-- A change that is defined and leaves a sound part.
def Sounds (r : Option (Ctrl × Bool)) : Prop := ∃ c told, r = some (c, told) ∧ c.Sound

@[simp] theorem sounds_some {told : Bool} : Sounds (some (c, told)) ↔ c.Sound := by simp [Sounds]

theorem sounds_map {r : Option Ctrl} {told : Bool} :
    Sounds (r.map (·, told)) ↔ ∃ c, r = some c ∧ c.Sound := by
  cases r <;> simp [Sounds]

-- When a key leaves the focused part sound.
def Ctrl.Admits (c : Ctrl) : UniversalKey → Prop
  | .incValue => c.Steps → IsInt (c.val + c.stepBy)
  | .decValue => c.Steps → IsInt (c.val - c.stepBy)
  | .cancel => c.type = .toggleSwitch → c.flags.checked = false
  | _ => True

theorem Ctrl.decValue_iff (hw : c.Wf) (hs : c.Sound) :
    Sounds c.decValue ↔ c.Admits .decValue := by
  obtain ⟨t, htype⟩ : ∃ t, c.type = t := ⟨_, rfl⟩
  cases t with
  | updownSelector | sliderVolume | dialVolume =>
      have hsteps : c.Steps := by simp [Steps, htype]
      simp only [decValue, htype, sounds_map, decrease_iff hsteps hs, Admits, hsteps, true_imp_iff]
  | radioSelector =>
      have hr := (radio_sound_iff htype).mp hs
      have hopt := hw.options
      have hint : IsInt (if c.val ≤ 0 then c.numOptions - 1 else c.val - 1) := by
        constructor <;> split <;> omega
      simp only [decValue, htype, Admits, Steps, reduceCtorEq, or_self, false_imp_iff, iff_true]
      refine ⟨_, true, Option.bind_eq_some_iff.mpr ⟨_, asInt_eq_some.mpr ⟨hint, rfl⟩, rfl⟩, ?_⟩
      refine (radio_sound_iff rfl).mpr ?_
      dsimp only
      split <;> omega
  | toggleSwitch => simp [decValue, htype, Admits, Steps, setChecked_sound htype]
  | _ => simp [decValue, htype, Admits, Steps, hs]

theorem Ctrl.incValue_iff (hw : c.Wf) (hs : c.Sound) :
    Sounds c.incValue ↔ c.Admits .incValue := by
  obtain ⟨t, htype⟩ : ∃ t, c.type = t := ⟨_, rfl⟩
  cases t with
  | updownSelector | sliderVolume | dialVolume =>
      have hsteps : c.Steps := by simp [Steps, htype]
      simp only [incValue, htype, sounds_map, increase_iff hsteps hs, Admits, hsteps, true_imp_iff]
  | radioSelector =>
      have hr := (radio_sound_iff htype).mp hs
      have hopt := hw.options
      have hint : IsInt (c.val + 1) := by
        constructor <;> omega
      have hrem : remainder (c.val + 1) c.numOptions = some ((c.val + 1).tmod c.numOptions) :=
        if_neg (by omega)
      simp only [incValue, htype, Admits, Steps, reduceCtorEq, or_self, false_imp_iff, iff_true]
      refine ⟨_, true, Option.bind_eq_some_iff.mpr ⟨_, asInt_eq_some.mpr ⟨hint, rfl⟩,
        Option.bind_eq_some_iff.mpr ⟨_, hrem, rfl⟩⟩, ?_⟩
      refine (radio_sound_iff rfl).mpr ?_
      exact ⟨Int.tmod_nonneg _ (by omega), Int.tmod_lt_of_pos _ (by omega)⟩
  | toggleSwitch => simp [incValue, htype, Admits, Steps, setChecked_sound htype]
  | _ => simp [incValue, htype, Admits, Steps, hs]

theorem Ctrl.execute_iff (hs : c.Sound) : Sounds c.execute ↔ c.Admits .execute := by
  obtain ⟨t, htype⟩ : ∃ t, c.type = t := ⟨_, rfl⟩
  cases t with
  | toggleSwitch => simp [execute, toggle, htype, Admits, setChecked_sound htype]
  | _ => simp [execute, htype, Admits, hs]

-- A toggle that is reset stays checked.
theorem Ctrl.cancel_iff (hw : c.Wf) (hs : c.Sound) : Sounds c.cancel ↔ c.Admits .cancel := by
  have hmin := hw.choice
  have hrange := hs.range
  rw [cancel, sounds_some, Admits]
  by_cases htoggle : c.type = .toggleSwitch
  · have hzero := hmin (.inl htoggle)
    constructor
    · intro hs' _
      have hchecked := hs'.checked htoggle
      simpa [hzero] using hchecked
    · intro hoff
      refine ⟨?_, fun _ => ?_⟩
      · simp only [InRange, htoggle, hzero, true_or]
      · simp [hoff htoggle, hzero]
  · refine iff_of_true ⟨?_, fun h => absurd h htoggle⟩ fun h => absurd h htoggle
    obtain ⟨t, htype⟩ : ∃ t, c.type = t := ⟨_, rfl⟩
    cases t with
    | toggleSwitch => exact absurd htype htoggle
    | radioSelector | rotarySelector =>
        simp only [htype, reduceCtorEq, true_or, or_true, true_imp_iff] at hmin
        simp only [InRange, htype] at hrange
        simp only [InRange, htype, hmin]
        omega
    | _ =>
        simp only [InRange, htype] at hrange
        simp only [InRange, htype]
        omega

-- When a press leaves the part under it sound.
def Ctrl.AdmitsPress (y : Int) (c : Ctrl) : Prop :=
  match c.type with
  | .updownSelector =>
    if y < asH ((c.bounds.top + c.bounds.bottom).tdiv 2) then IsInt (c.val + c.stepBy)
    else IsInt (c.val - c.stepBy)
  | .dialVolume => IsInt (c.val + c.stepBy)
  | .sliderVolume => asH (c.bounds.right - c.bounds.left - 20) > 0 → IsInt (c.maxVal - c.minVal)
  | _ => True

-- A part of the track is the same part of the range.
theorem scale_bounds {offset width range : Int} (hwidth : 0 < width) (h0 : 0 ≤ offset)
    (hle : offset ≤ width) (hrange : 0 ≤ range) :
    0 ≤ (offset * range).tdiv width ∧ (offset * range).tdiv width ≤ range := by
  rw [Int.tdiv_eq_ediv_of_nonneg (Int.mul_nonneg h0 hrange)]
  constructor
  · exact Int.ediv_nonneg (Int.mul_nonneg h0 hrange) hwidth.le
  · apply Int.ediv_le_of_le_mul hwidth
    rw [Int.mul_comm range]
    exact Int.mul_le_mul_of_nonneg_right hle hrange

theorem Ctrl.press_iff (hw : c.Wf) (hs : c.Sound) (x y : Int) :
    Sounds (c.press x y) ↔ c.AdmitsPress y := by
  obtain ⟨t, htype⟩ : ∃ t, c.type = t := ⟨_, rfl⟩
  cases t with
  | toggleSwitch => simp [press, toggle, htype, AdmitsPress, setChecked_sound htype]
  | radioSelector =>
      simp only [press, htype, AdmitsPress, iff_true]
      generalize (y - c.bounds.top).tdiv _ = optIdx
      split
      · rename_i hidx
        exact sounds_some.mpr ((radio_sound_iff rfl).mpr hidx)
      · exact sounds_some.mpr hs
  | updownSelector =>
      have hsteps : c.Steps := .inl htype
      simp only [press, htype, AdmitsPress, sounds_map]
      split
      · exact increase_iff hsteps hs
      · exact decrease_iff hsteps hs
  | dialVolume =>
      have hsteps : c.Steps := .inr (.inr htype)
      have hr := hsteps.sound_iff.mp hs
      have hmoves := Ctrl.moves_iff (n := c.val + c.stepBy)
        (f := fun v => if v > c.maxVal then c.minVal else v) hsteps (by
          have hpos := c.stepBy_pos
          split <;> omega)
      rw [← @sounds_map _ true] at hmoves
      simp only [AdmitsPress, htype]
      rw [← hmoves]
      simp only [press, htype]
      cases asInt (c.val + c.stepBy) <;> rfl
  | sliderVolume =>
      have hsteps : c.Steps := .inr (.inl htype)
      have hr := hsteps.sound_iff.mp hs
      have hmin := hw.min
      have hmax := hw.max
      simp only [press, htype, AdmitsPress]
      generalize asH (c.bounds.right - c.bounds.left - 20) = width
      generalize asH (x - (c.bounds.left + 10)) = offset
      split
      · rename_i hwidth
        simp only [hwidth, true_imp_iff]
        constructor
        · rintro ⟨c', told, hc', -⟩
          obtain ⟨range, hrange, -⟩ := Option.bind_eq_some_iff.mp hc'
          exact (asInt_eq_some.mp hrange).1
        · intro hint
          have hscale := @scale_bounds (if (if offset < 0 then 0 else offset) > width then width
            else if offset < 0 then 0 else offset) width (c.maxVal - c.minVal) hwidth
            (by split <;> split <;> omega) (by split <;> omega) (by omega)
          generalize (if (if offset < 0 then 0 else offset) > width then width
            else if offset < 0 then 0 else offset) = clicked at hscale ⊢
          have hsum : IsInt (c.minVal + (clicked * (c.maxVal - c.minVal)).tdiv width) := by
            rw [IsInt] at hmin hmax ⊢
            omega
          refine ⟨_, true, Option.bind_eq_some_iff.mpr ⟨_, asInt_eq_some.mpr ⟨hint, rfl⟩,
            Option.bind_eq_some_iff.mpr ⟨_, asInt_eq_some.mpr ⟨hsum, rfl⟩, rfl⟩⟩, ?_⟩
          refine (Ctrl.Steps.sound_iff (.inr (.inl rfl))).mpr ?_
          dsimp only
          omega
      · rename_i hwidth
        simp [hwidth, hs]
  | _ => simp [press, htype, AdmitsPress, hs]

theorem Ctrl.sets_setChecked (c : Ctrl) (b : Bool) : c.Sets (c.setChecked b) := ⟨_, b, rfl⟩

theorem Ctrl.sets_of_map {r : Option Ctrl} {told told' : Bool} (hr : ∀ c', r = some c' → c.Sets c')
    (h : r.map (·, told) = some (c', told')) : c.Sets c' := by
  obtain ⟨d, hd, heq⟩ := Option.map_eq_some_iff.mp h
  cases heq
  exact hr _ hd

theorem Ctrl.sets_decValue {told : Bool} (h : c.decValue = some (c', told)) : c.Sets c' := by
  rw [decValue] at h
  split at h
  · exact sets_of_map (fun _ => sets_decrease) h
  · exact sets_of_map (fun _ => sets_decrease) h
  · exact sets_of_map (fun _ => sets_decrease) h
  · obtain ⟨v, -, h⟩ := Option.bind_eq_some_iff.mp h
    cases h
    exact ⟨v, c.flags.checked, rfl⟩
  · cases h
    exact sets_setChecked c false
  · cases h
    exact .refl c

theorem Ctrl.sets_incValue {told : Bool} (h : c.incValue = some (c', told)) : c.Sets c' := by
  rw [incValue] at h
  split at h
  · exact sets_of_map (fun _ => sets_increase) h
  · exact sets_of_map (fun _ => sets_increase) h
  · exact sets_of_map (fun _ => sets_increase) h
  · obtain ⟨v, -, h⟩ := Option.bind_eq_some_iff.mp h
    obtain ⟨w, -, h⟩ := Option.bind_eq_some_iff.mp h
    cases h
    exact ⟨w, c.flags.checked, rfl⟩
  · cases h
    exact sets_setChecked c true
  · cases h
    exact .refl c

theorem Ctrl.sets_execute {told : Bool} (h : c.execute = some (c', told)) : c.Sets c' := by
  rw [execute] at h
  split at h
  · cases h
    exact .refl c
  · cases h
    exact sets_setChecked c _
  · cases h
    exact .refl c

theorem Ctrl.sets_cancel {told : Bool} (h : c.cancel = some (c', told)) : c.Sets c' := by
  cases h
  exact ⟨c.minVal, c.flags.checked, rfl⟩

theorem Ctrl.sets_press {told : Bool} {x y : Int} (h : c.press x y = some (c', told)) :
    c.Sets c' := by
  rw [press] at h
  split at h
  · cases h
    exact sets_setChecked c _
  · dsimp only at h
    generalize (if asH _ ≤ 0 then (20 : Int) else asH _) = itemH at h
    split at h
    · cases h
      exact ⟨_, c.flags.checked, rfl⟩
    · cases h
      exact .refl c
  · refine sets_of_map (fun d hd => ?_) h
    split at hd
    · exact sets_increase hd
    · exact sets_decrease hd
  · dsimp only at h
    split at h
    · obtain ⟨range, -, h⟩ := Option.bind_eq_some_iff.mp h
      obtain ⟨v, -, h⟩ := Option.bind_eq_some_iff.mp h
      cases h
      exact ⟨_, c.flags.checked, rfl⟩
    · cases h
      exact .refl c
  · obtain ⟨v, -, h⟩ := Option.bind_eq_some_iff.mp h
    cases h
    exact ⟨_, c.flags.checked, rfl⟩
  · cases h
    exact .refl c

end Ctrl

end BTron.Hmi
