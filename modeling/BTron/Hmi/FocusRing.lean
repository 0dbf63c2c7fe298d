import BTron.Hmi.Panels
import BTron.Lib.Circle

namespace BTron.Hmi

open Event Graphics Lib

variable {p p' : Panel} {c : Ctrl} {f g i : Nat}

def Panel.stopsAt (p : Panel) (i : Nat) : Bool := p.controls[i]?.any Ctrl.stops

-- The places the focus stops at.
def Panel.stops (p : Panel) : List Nat := (List.range p.controls.length).filter p.stopsAt

-- The `i`th of them, going round.
def Panel.stop (p : Panel) (i : Nat) : Nat := p.stops.getD (i % p.stops.length) 0

-- The panel with the focus at a place.
def Panel.focusOn (p : Panel) (f : Nat) : Panel :=
  { p with
    controls := p.controls.mapIdx fun i c => c.setFocused (f = i)
    focusedIndex := f }

theorem Panel.focusOn_getElem? (p : Panel) (f i : Nat) :
    (p.focusOn f).controls[i]? = p.controls[i]?.map (·.setFocused (f = i)) :=
  List.getElem?_mapIdx

@[simp] theorem Panel.focusOn_length (p : Panel) (f : Nat) :
    (p.focusOn f).controls.length = p.controls.length :=
  List.length_mapIdx

theorem Panel.focusOn_marked (p : Panel) (f : Nat) : (p.focusOn f).Marked := by
  intro i c hc
  rw [focusOn_getElem?] at hc
  obtain ⟨d, -, rfl⟩ := Option.map_eq_some_iff.mp hc
  change decide (f = i) = true ↔ (f : Int) = i
  rw [decide_eq_true_eq]
  omega

-- All of a panel but its parts
def Panel.bare (p : Panel) : Panel := { p with controls := [] }

theorem Panel.eq_of_cells {q : Panel} (hbare : p.bare = q.bare)
    (hcells : ∀ i : Nat, p.controls[i]? = q.controls[i]?) : p = q := by
  have hcontrols := List.ext_getElem? hcells
  cases p
  cases q
  simp_all [bare]

theorem Panel.focusOn_self (hm : p.Marked) (hf : p.focusedIndex = f) : p.focusOn f = p := by
  refine eq_of_cells (by rw [bare, bare, focusOn, hf]) fun i => ?_
  rw [focusOn_getElem?]
  cases hc : p.controls[i]? with
  | none => rfl
  | some c =>
      have hflag : c.flags.focused = decide (f = i) := by
        rw [Bool.eq_iff_iff, hm i c hc, hf, decide_eq_true_eq]
        omega
      rw [Option.map_some, Ctrl.setFocused_self hflag]

@[simp] theorem Panel.focusOn_focusOn (p : Panel) (f g : Nat) :
    (p.focusOn f).focusOn g = p.focusOn g := by
  refine eq_of_cells rfl fun i => ?_
  rw [focusOn_getElem?, focusOn_getElem?, focusOn_getElem?, Option.map_map]
  rfl

-- The focus stops at the same places wherever it is.
@[simp] theorem Panel.stopsAt_focusOn (p : Panel) (f : Nat) :
    (p.focusOn f).stopsAt = p.stopsAt := by
  funext i
  rw [stopsAt, focusOn_getElem?, Option.any_map]
  rfl

@[simp] theorem Panel.stops_focusOn (p : Panel) (f : Nat) : (p.focusOn f).stops = p.stops := by
  rw [stops, focusOn_length, stopsAt_focusOn, stops]

theorem Panel.mem_stops : f ∈ p.stops ↔ p.stopsAt f := by
  rw [stops, List.mem_filter, List.mem_range, and_iff_right_iff_imp]
  intro hf
  by_contra hlt
  rw [stopsAt, List.getElem?_eq_none (by omega)] at hf
  cases hf

theorem Panel.blur_bare (p : Panel) : p.blur.bare = p.bare := by
  rw [blur]
  split <;> rfl

theorem setFocus_focusOn (hm : p.Marked) (hg : p.stopsAt g) : hmiSetFocus p g = p.focusOn g := by
  obtain hnowhere | ⟨-, -, -, hthere⟩ := setFocus_cases p g
  · -- an enabled part of the panel is not refused
    obtain ⟨c, hc, hstops⟩ := (Option.any_eq_true _ _).mp hg
    have hon : (c.setFocused false).flags.disabled = false := by
      simp only [Ctrl.stops, Bool.and_eq_true, Bool.not_eq_true'] at hstops
      exact hstops.1.1
    have hblur := Panel.blur_getElem? hm g
    rw [hc, Option.map_some] at hblur
    unfold hmiSetFocus at hnowhere
    simp [hblur, hon] at hnowhere
  · refine Panel.eq_of_cells ?_ fun i => ?_
    · rw [hthere]
      calc
        _ = { p.blur.bare with focusedIndex := (g : Int) } := rfl
        _ = (p.focusOn g).bare := by
          rw [Panel.blur_bare]
          rfl
    · have hat : decide ((g : Int) = i) = decide (g = i) := by
        rw [decide_eq_decide]
        omega
      rw [(setFocus_spec hm g).2, Panel.focusOn_getElem?, hthere, hat]

-- The loops set the focus to the first of their places it stops at.
theorem focusFirst_find? (p : Panel) (places : List Nat) :
    focusFirst p places = ((places.find? p.stopsAt).map fun i : Nat => hmiSetFocus p i).getD p := by
  induction places with
  | nil => rfl
  | cons idx places ih =>
      rw [focusFirst, ← Panel.stopsAt, List.find?_cons, ih]
      cases p.stopsAt idx <;> rfl

-- The numbers of turns as ints
theorem list_cast (l : List Nat) : (do let a ← l; pure (a : Int)) = l.map Nat.cast := by
  rw [List.map_eq_flatMap]
  rfl

-- The places of the loop of `hmi_focus_next`, from behind `f` on.
theorem nextPlaces_eq (n f : Nat) :
    (List.range n).map ((fun i : Int => (((f : Int) + 1 + i).tmod n).toNat) ∘ Nat.cast) =
      (List.range n).rotate (f + 1) := by
  apply List.ext_getElem
  · simp
  · intro i hi hi'
    have hcast : (f : Int) + 1 + i = ((i + (f + 1) : Nat) : Int) := by omega
    rw [List.getElem_map, List.getElem_range, List.getElem_rotate, List.getElem_range,
      List.length_range, Function.comp_apply, hcast, ← Int.ofNat_tmod, Int.toNat_natCast]

-- Those of the loop of `hmi_focus_prev`, from ahead of `f` down.
theorem prevPlaces_eq (n f : Nat) :
    (List.range n).map ((fun i : Int =>
      (((if (f : Int) ≤ 0 then (n : Int) - 1 else f - 1) - i + n).tmod n).toNat) ∘ Nat.cast) =
      ((List.range n).rotate f).reverse := by
  apply List.ext_getElem
  · simp
  · intro i hi hi'
    rw [List.length_map, List.length_range] at hi
    rw [List.getElem_map, List.getElem_range, List.getElem_reverse, List.getElem_rotate,
      List.getElem_range, List.length_rotate, List.length_range, Function.comp_apply]
    split
    · have hcast : (n : Int) - 1 - i + n = ((n - 1 - i + f + n : Nat) : Int) := by omega
      rw [hcast, ← Int.ofNat_tmod, Int.toNat_natCast, Nat.add_mod_right]
    · have hcast : (f : Int) - 1 - i + n = ((n - 1 - i + f : Nat) : Int) := by omega
      rw [hcast, ← Int.ofNat_tmod, Int.toNat_natCast]

theorem Panel.stop_mem (h : 0 < p.stops.length) (i : Nat) : p.stop i ∈ p.stops := by
  have hi : i % p.stops.length < p.stops.length := Nat.mod_lt i h
  rw [stop, List.getD_eq_getElem _ _ hi]
  exact List.getElem_mem hi

theorem Panel.stop_add_length (p : Panel) (i : Nat) : p.stop (i + p.stops.length) = p.stop i := by
  rw [stop, stop, Nat.add_mod_right]

-- A place the focus stops at is so many stops from the first one as there are stops before it.
theorem Panel.stop_countP (hf : f ∈ p.stops) : p.stop ((List.range f).countP p.stopsAt) = f := by
  obtain ⟨hlt, hstops⟩ := List.mem_filter.mp hf
  rw [List.mem_range] at hlt
  have hat : (List.range p.controls.length)[f]? = some f := List.getElem?_range hlt
  have hcell := getElem?_filter_countP hat hstops
  rw [List.take_range, Nat.min_eq_left hlt.le, ← stops] at hcell
  obtain ⟨hin, heq⟩ := List.getElem?_eq_some_iff.mp hcell
  rw [stop, Nat.mod_eq_of_lt hin, List.getD_eq_getElem _ _ hin, heq]

theorem Panel.exists_stop (hf : f ∈ p.stops) : ∃ i, i < p.stops.length ∧ p.stop i = f := by
  have hpos := List.length_pos_of_mem hf
  refine ⟨_, Nat.mod_lt ((List.range f).countP p.stopsAt) hpos, ?_⟩
  rw [stop, Nat.mod_mod, ← stop, stop_countP hf]

theorem Panel.nodup_stops (p : Panel) : p.stops.Nodup := List.nodup_range.filter _

-- Two numbers of stops that come to one place differ by whole rounds.
theorem Panel.stop_inj (h : 0 < p.stops.length) {j : Nat} (heq : p.stop i = p.stop j) :
    i % p.stops.length = j % p.stops.length := by
  have hi : i % p.stops.length < p.stops.length := Nat.mod_lt i h
  have hj : j % p.stops.length < p.stops.length := Nat.mod_lt j h
  rw [stop, stop, List.getD_eq_getElem _ _ hi, List.getD_eq_getElem _ _ hj] at heq
  exact p.nodup_stops.getElem_inj_iff.mp heq

theorem Panel.countP_stop (h : 0 < p.stops.length) (i : Nat) :
    (List.range (p.stop i)).countP p.stopsAt % p.stops.length = i % p.stops.length :=
  stop_inj h (stop_countP (stop_mem h i))

section Ring

variable (h : 0 < p.stops.length) (i : Nat)
include h

theorem Panel.stop_getElem? (i : Nat) : p.stops[i % p.stops.length]? = some (p.stop i) := by
  have hi : i % p.stops.length < p.stops.length := Nat.mod_lt i h
  rw [List.getElem?_eq_getElem hi, stop, List.getD_eq_getElem _ _ hi]

theorem Panel.stop_range : (List.range p.controls.length)[p.stop i]? = some (p.stop i) := by
  have hmem := (List.mem_filter.mp (stop_mem h i)).1
  rw [List.getElem?_range (List.mem_range.mp hmem)]

theorem Panel.take_stop :
    (List.range p.controls.length).take (p.stop i) = List.range (p.stop i) := by
  have hmem := List.mem_range.mp (List.mem_filter.mp (stop_mem h i)).1
  rw [List.take_range, Nat.min_eq_left hmem.le]

theorem Panel.length_ne_zero : ¬(p.controls.length : Int) = 0 := by
  have hmem := List.mem_range.mp (List.mem_filter.mp (stop_mem h 0)).1
  omega

theorem setFocus_stop (f : Nat) : hmiSetFocus (p.focusOn f) (p.stop i) = p.focusOn (p.stop i) := by
  have hstops := Panel.mem_stops.mp (p.stop_mem h i)
  rw [← Panel.stopsAt_focusOn p f] at hstops
  rw [setFocus_focusOn (p.focusOn_marked f) hstops, Panel.focusOn_focusOn]

-- Next goes one stop on.
theorem focusNext_stop :
    hmiFocusNext (p.focusOn (p.stop i)) = (p.focusOn (p.stop (i + 1)), E_OK) := by
  have hfind := find?_behind (p.stop_range h i) (Panel.mem_stops.mp (p.stop_mem h i))
  have hidx : ((List.range (p.stop i)).countP p.stopsAt + 1) % p.stops.length =
      (i + 1) % p.stops.length := by
    rw [Nat.add_mod, p.countP_stop h, ← Nat.add_mod]
  rw [p.take_stop h, ← Panel.stops, hidx, p.stop_getElem? h] at hfind
  have hindex : (p.focusOn (p.stop i)).focusedIndex = p.stop i := rfl
  rw [hmiFocusNext]
  dsimp only
  rw [Panel.focusOn_length, if_neg (p.length_ne_zero h), hindex, if_neg (by omega),
    list_cast, List.map_map, nextPlaces_eq, focusFirst_find?, Panel.stopsAt_focusOn, hfind,
    Option.map_some, Option.getD_some, setFocus_stop h]

-- Previous goes one stop back.
theorem focusPrev_stop :
    hmiFocusPrev (p.focusOn (p.stop (i + 1))) = (p.focusOn (p.stop i), E_OK) := by
  have hfind := find?_ahead (p.stop_range h (i + 1)) (Panel.mem_stops.mp (p.stop_mem h (i + 1)))
  have hidx : ((List.range (p.stop (i + 1))).countP p.stopsAt + p.stops.length - 1) %
      p.stops.length = i % p.stops.length := by
    rw [Nat.add_sub_assoc h, Nat.add_mod, p.countP_stop h, ← Nat.add_mod]
    have hsum : i + 1 + (p.stops.length - 1) = i + p.stops.length := by omega
    rw [hsum, Nat.add_mod_right]
  rw [p.take_stop h, ← Panel.stops, hidx, p.stop_getElem? h] at hfind
  have hindex : (p.focusOn (p.stop (i + 1))).focusedIndex = p.stop (i + 1) := rfl
  rw [hmiFocusPrev]
  dsimp only
  rw [Panel.focusOn_length, if_neg (p.length_ne_zero h), hindex, list_cast,
    List.map_map, prevPlaces_eq,
    focusFirst_find?, Panel.stopsAt_focusOn, hfind, Option.map_some, Option.getD_some,
    setFocus_stop h]

-- Calls of `hmi_focus_next` one after the other.
theorem focusNext_iterate (k : Nat) :
    (fun p => (hmiFocusNext p).1)^[k] (p.focusOn (p.stop i)) = p.focusOn (p.stop (i + k)) := by
  induction k with
  | zero => rfl
  | succ k ih => rw [Function.iterate_succ_apply', ih, focusNext_stop h, Nat.add_assoc]

end Ring

section Runs

theorem Panel.Marked.modify (hm : p.Marked) {f : Ctrl → Ctrl}
    (hf : ∀ c, p.controls[i]? = some c → (f c).flags.focused = c.flags.focused) :
    (p.modify i f).Marked := by
  intro j c hc
  rw [modify_getElem?] at hc
  split at hc
  · rename_i hij
    subst hij
    obtain ⟨d, hd, rfl⟩ := Option.map_eq_some_iff.mp hc
    rw [hf d hd]
    exact hm i d hd
  · exact hm j c hc

theorem Panel.Marked.change (hm : p.Marked) {f : Ctrl → Option (Ctrl × Bool)} {r : Panel × Told}
    (hf : ∀ {c c' : Ctrl} {told : Bool}, f c = some (c', told) → c.Sets c')
    (h : p.change i f = some r) : r.1.Marked := by
  obtain ⟨c, hc, h⟩ := Option.bind_eq_some_iff.mp h
  obtain ⟨⟨c', told⟩, hc', h⟩ := Option.bind_eq_some_iff.mp h
  cases h
  refine hm.modify fun d hd => ?_
  rw [(hf hc').focused, Option.some.inj (hc.symm.trans hd)]

theorem Panel.Marked.changeFocused (hm : p.Marked) {f : Ctrl → Option (Ctrl × Bool)}
    {r : Panel × ER × Told}
    (hf : ∀ {c c' : Ctrl} {told : Bool}, f c = some (c', told) → c.Sets c')
    (h : p.changeFocused f = some r) : r.1.Marked := by
  rw [Panel.changeFocused] at h
  split at h
  · obtain ⟨r', hr', rfl⟩ := Option.map_eq_some_iff.mp h
    exact hm.change hf hr'
  · cases h
    exact hm

theorem setFocus_marked (hm : p.Marked) (k : Int) : (hmiSetFocus p k).Marked := by
  intro j c hc
  rw [(setFocus_spec hm k).2] at hc
  obtain ⟨d, -, rfl⟩ := Option.map_eq_some_iff.mp hc
  exact decide_eq_true_iff

theorem focusFirst_marked (hm : p.Marked) (places : List Nat) : (focusFirst p places).Marked := by
  obtain heq | ⟨k, heq⟩ := focusFirst_eq p places
  · rwa [heq]
  · rw [heq]
    exact setFocus_marked hm k

theorem focusNext_marked (hm : p.Marked) : (hmiFocusNext p).1.Marked := by
  obtain ⟨places, heq⟩ := focusNext_eq p
  rw [heq]
  exact focusFirst_marked hm places

theorem focusPrev_marked (hm : p.Marked) : (hmiFocusPrev p).1.Marked := by
  obtain ⟨places, heq⟩ := focusPrev_eq p
  rw [heq]
  exact focusFirst_marked hm places

-- A new part is not focused, and no focus is behind the last part.
theorem Panel.Marked.add (hm : p.Marked) (hw : p.Wf) (hoff : c.flags.focused = false) :
    (p.add c).Marked := by
  have hfocus := hw.focus.2
  rw [Panel.add]
  split
  · exact hm
  · intro j d hd
    rw [List.getElem?_append] at hd
    split at hd
    · exact hm j d hd
    · rw [List.getElem?_singleton, Option.ite_none_right_eq_some] at hd
      obtain ⟨hj, heq⟩ := hd
      obtain rfl := Option.some.inj heq
      simp only [hoff, Bool.false_eq_true, false_iff]
      omega

theorem universalKey_marked (hm : p.Marked) {key : UniversalKey} {r : Panel × ER × Told}
    (h : hmiHandleUniversalKey p key = some r) : r.1.Marked := by
  cases key with
  | prevItem =>
      cases h
      exact focusPrev_marked hm
  | nextItem =>
      cases h
      exact focusNext_marked hm
  | decValue => exact hm.changeFocused Ctrl.sets_decValue h
  | incValue => exact hm.changeFocused Ctrl.sets_incValue h
  | execute => exact hm.changeFocused Ctrl.sets_execute h
  | cancel => exact hm.changeFocused Ctrl.sets_cancel h
  | command | none =>
      cases h
      exact hm

theorem dispatchEvent_marked (hm : p.Marked) {evt : Evt} {r : Panel × Bool × Told}
    (h : hmiDispatchEvent p evt = some r) : r.1.Marked := by
  rw [hmiDispatchEvent] at h
  split at h
  · split at h
    · obtain ⟨r', hr', rfl⟩ := Option.map_eq_some_iff.mp h
      exact universalKey_marked hm hr'
    · cases h
      exact hm
  · split at h
    · obtain ⟨r', hr', rfl⟩ := Option.map_eq_some_iff.mp h
      refine Panel.Marked.change ?_ Ctrl.sets_press hr'
      exact (setFocus_marked hm _).modify fun _ _ => rfl
    · cases h
      exact hm
  · cases h
    intro i c hc
    dsimp only at hc
    rw [List.getElem?_map] at hc
    obtain ⟨d, hd, rfl⟩ := Option.map_eq_some_iff.mp hc
    exact hm i d hd
  · cases h
    exact hm

theorem exec_marked (hw : p.Wf) (hm : p.Marked) {a : Call} (h : exec p a = some p') :
    p'.Marked := by
  cases a with
  | universalKey key =>
      obtain ⟨r, hr, rfl⟩ := Option.map_eq_some_iff.mp h
      exact universalKey_marked hm hr
  | dispatchEvent evt =>
      obtain ⟨r, hr, rfl⟩ := Option.map_eq_some_iff.mp h
      exact dispatchEvent_marked hm hr
  | addStandardTriad id x y w h onCancel onDefault onStart =>
      cases h
      have hpush : ∀ {p : Panel}, p.Wf → p.Marked → ∀ l, (hmiAddPushSwitch p l).Wf ∧
          (hmiAddPushSwitch p l).Marked := fun hw hm l =>
        ⟨exec_wf (a := .addPushSwitch l) hw trivial rfl, hm.add hw rfl⟩
      obtain ⟨hw₁, hm₁⟩ := hpush hw hm _
      obtain ⟨hw₂, hm₂⟩ := hpush hw₁ hm₁ _
      exact (hpush hw₂ hm₂ _).2
  | setDisabled i b =>
      cases h
      exact hm.modify fun c _ => rfl
  | setFocus ctrlIndex =>
      cases h
      exact setFocus_marked hm ctrlIndex
  | focusNext =>
      cases h
      exact focusNext_marked hm
  | focusPrev =>
      cases h
      exact focusPrev_marked hm
  | _ =>
      cases h
      exact hm.add hw rfl

theorem trace_marked {title : Option (List UB)} {x y w h : Int} {bgCol : Nat}
    {tr : List (Option Panel × Call)}
    (htr : Trace Step (some (hmiInitPanel title x y w h bgCol)) tr (some p)) : p.Marked := by
  have hinv := (htr.always (I := fun s => ∀ q, s = some q → q.Wf ∧ q.Marked) ?_ ?_).1
  · exact (hinv p rfl).2
  · intro q hq
    cases hq
    exact ⟨⟨by simp [hmiInitPanel], by simp [hmiInitPanel]⟩, fun i c hc => by
      simp [hmiInitPanel] at hc⟩
  · rintro s a s' hI ⟨hl, rfl⟩ q hq
    obtain ⟨r, rfl, hexec⟩ := Option.bind_eq_some_iff.mp hq
    obtain ⟨hw, hm⟩ := hI r rfl
    exact ⟨exec_wf hw hl hexec, exec_marked hw hm hexec⟩

end Runs

-- What the keys for the next and the previous part are to do at a part they stop at.
structure Panel.Ring (p : Panel) : Prop where
  back : (fun p => (hmiFocusNext p).1)^[p.stops.length] p = p
  once : ∀ g ∈ p.stops, ∃! j, j < p.stops.length ∧
    ((fun p => (hmiFocusNext p).1)^[j + 1] p).focusedIndex = g
  marked : ∀ j, ((fun p => (hmiFocusNext p).1)^[j] p).Marked
  prevNext : (hmiFocusPrev (hmiFocusNext p).1).1 = p
  nextPrev : (hmiFocusNext (hmiFocusPrev p).1).1 = p

theorem Panel.ring_of_stop (hm : p.Marked) (hf : f ∈ p.stops) (hfocus : p.focusedIndex = f) :
    p.Ring := by
  have h := List.length_pos_of_mem hf
  obtain ⟨i, hi, hstop⟩ := exists_stop hf
  have hself : p = p.focusOn (p.stop i) := by rw [hstop, focusOn_self hm hfocus]
  have hnext : ∀ k, (fun p => (hmiFocusNext p).1)^[k] p = p.focusOn (p.stop (i + k)) := by
    intro k
    conv_lhs => rw [hself]
    exact focusNext_iterate h i k
  -- the stop before the first one is the last of the round before
  have hback : p = p.focusOn (p.stop (i + p.stops.length - 1 + 1)) := by
    have hround : i + p.stops.length - 1 + 1 = i + p.stops.length := by omega
    rw [hround, stop_add_length, ← hself]
  refine ⟨?_, ?_, ?_, ?_, ?_⟩
  · rw [hnext, stop_add_length, ← hself]
  · intro g hg
    obtain ⟨m, hm', rfl⟩ := exists_stop hg
    obtain ⟨j, ⟨hj, hjm⟩, hunique⟩ := existsUnique_steps (i + 1) hm'
    have hindex : ∀ j, ((fun p => (hmiFocusNext p).1)^[j + 1] p).focusedIndex = p.stop m ↔
        (i + 1 + j) % p.stops.length = m := by
      intro j
      have hsum : i + (j + 1) = i + 1 + j := by omega
      have hcast : (p.focusOn (p.stop (i + 1 + j))).focusedIndex = p.stop (i + 1 + j) := rfl
      rw [hnext, hsum, hcast, Int.natCast_inj]
      constructor
      · intro heq
        rw [stop_inj h heq, Nat.mod_eq_of_lt hm']
      · intro heq
        rw [← heq, stop, stop, Nat.mod_mod]
    refine ⟨j, ⟨hj, (hindex j).mpr hjm⟩, fun j' hj' => ?_⟩
    exact hunique j' ⟨hj'.1, (hindex j').mp hj'.2⟩
  · intro j
    rw [hnext]
    exact focusOn_marked p _
  · conv_lhs => rw [hself, focusNext_stop h, focusPrev_stop h]
    exact hself.symm
  · conv_lhs => rw [hback, focusPrev_stop h, focusNext_stop h]
    exact hback.symm

-- The keys go round from every part they stop at, and exactly the focused part has the flag,
-- whatever calls there have been.
theorem focus_ring :
    (∀ (p : Panel) (f : Nat), p.Marked → f ∈ p.stops → p.focusedIndex = f → p.Ring) ∧
      ∀ (title : Option (List UB)) (x y w h : Int) (bgCol : Nat) (tr : List (Option Panel × Call))
        (p : Panel), Trace Step (some (hmiInitPanel title x y w h bgCol)) tr (some p) →
          p.Marked := by
  constructor
  · intro p f hm hf hfocus
    exact Panel.ring_of_stop hm hf hfocus
  · intro title x y w h bgCol tr p htr
    exact trace_marked htr

end BTron.Hmi
