import BTron.Semaphore

namespace BTron.Semaphore

open Lib

-- No unit of a live semaphore is lost or made up.
structure Conserved (d : Counted) : Prop where
  live : d.sem.active = true
  nonneg : 0 ≤ d.sem.count
  le_max : d.sem.count ≤ d.sem.config.maxsem
  balance : d.sem.config.isemcnt + d.signals = d.sem.count + d.waits

-- The steps that neither signal a full semaphore nor, on bare metal, wait on an empty one.
def Lossless (build : Build) (c : Conf) : Act → Prop
  | .call _ => c.data.sem.count < c.data.sem.config.maxsem
  | .enter _ | .resume _ => build = .smpFreestanding → 0 < c.data.sem.count
  | .spurious _ | .timeout _ => True

theorem conserved_created {pk : TCsem} (h0 : 0 ≤ pk.isemcnt) (hmax : pk.isemcnt ≤ pk.maxsem) :
    Conserved (created pk) :=
  ⟨rfl, h0, hmax, by simp [created, creSem]⟩

-- What a call of `sig_sem` does to a live semaphore, in every build.
theorem call_cases {build : Build} {d d' : Counted} {b : Bool} (hlive : d.sem.active = true)
    (h : (monitor build).call d () = (d', b)) :
    d.sem.count < d.sem.config.maxsem ∧
        d' = { d with sem := { d.sem with count := d.sem.count + 1 }, signals := d.signals + 1 } ∨
      ¬d.sem.count < d.sem.config.maxsem ∧ d' = { d with signals := d.signals + 1 } := by
  obtain ⟨rfl, -⟩ := Prod.mk.inj h
  by_cases hlt : d.sem.count < d.sem.config.maxsem
  · refine .inl ⟨hlt, ?_⟩
    cases build <;> simp [Build.core, Posix.sigSem, Smp.hostedSigSem, Smp.freestandingSigSem,
      Counted.signalled, hlive, hlt]
  · refine .inr ⟨hlt, ?_⟩
    cases build <;> simp [Build.core, Posix.sigSem, Smp.hostedSigSem, Smp.freestandingSigSem,
      Counted.signalled, hlive, hlt]

-- What a `wai_sem` that returns does to a live semaphore.
theorem attempt_cases {build : Build} {d d' : Counted} (hlive : d.sem.active = true)
    (h : (monitor build).attempt d () = some d') :
    0 < d.sem.count ∧
        d' = { d with sem := { d.sem with count := d.sem.count - 1 }, waits := d.waits + 1 } ∨
      build = .smpFreestanding ∧ ¬0 < d.sem.count ∧ d' = { d with waits := d.waits + 1 } := by
  obtain ⟨r, hr, rfl⟩ := Option.map_eq_some_iff.mp h
  by_cases hpos : 0 < d.sem.count
  · refine .inl ⟨hpos, ?_⟩
    cases build with
    | posix =>
        simp only [Build.core, Posix.waiSem, hlive, Bool.not_true, Bool.false_eq_true, if_false,
          if_neg (Int.not_le.mpr hpos), Option.some.injEq] at hr
        subst hr
        simp [Counted.waited, hlive]
    | smpHosted =>
        simp only [Build.core, Smp.hostedWaiSem, if_neg (Int.not_le.mpr hpos),
          Option.some.injEq] at hr
        subst hr
        rfl
    | smpFreestanding =>
        simp only [Build.core, Smp.freestandingWaiSem, gt_iff_lt, if_pos hpos,
          Option.some.injEq] at hr
        subst hr
        rfl
  · refine .inr ?_
    cases build with
    | posix =>
        simp [Build.core, Posix.waiSem, hlive, Int.not_lt.mp hpos] at hr
    | smpHosted => simp [Build.core, Smp.hostedWaiSem, Int.not_lt.mp hpos] at hr
    | smpFreestanding =>
        simp only [Build.core, Smp.freestandingWaiSem, gt_iff_lt, if_neg hpos,
          Option.some.injEq] at hr
        subst hr
        exact ⟨rfl, hpos, rfl⟩

theorem conserved_call_iff {build : Build} {d d' : Counted} {b : Bool} (h : Conserved d)
    (hcall : (monitor build).call d () = (d', b)) :
    Conserved d' ↔ d.sem.count < d.sem.config.maxsem := by
  obtain ⟨hlive, hnonneg, hmax, hbalance⟩ := h
  obtain ⟨hlt, rfl⟩ | ⟨hfull, rfl⟩ := call_cases hlive hcall
  · refine ⟨fun _ => hlt, fun _ => ⟨hlive, ?_, ?_, ?_⟩⟩ <;> simp only <;> omega
  · refine ⟨fun h' => ?_, fun hlt => absurd hlt hfull⟩
    have hbalance' := h'.balance
    simp only at hbalance'
    omega

theorem conserved_attempt_iff {build : Build} {d d' : Counted} (h : Conserved d)
    (hattempt : (monitor build).attempt d () = some d') :
    Conserved d' ↔ (build = .smpFreestanding → 0 < d.sem.count) := by
  obtain ⟨hlive, hnonneg, hmax, hbalance⟩ := h
  obtain ⟨hpos, rfl⟩ | ⟨hbuild, hzero, rfl⟩ := attempt_cases hlive hattempt
  · refine ⟨fun _ _ => hpos, fun _ => ⟨hlive, ?_, ?_, ?_⟩⟩ <;> simp only <;> omega
  · refine ⟨fun h' => ?_, fun hpos => absurd (hpos hbuild) hzero⟩
    have hbalance' := h'.balance
    simp only at hbalance'
    omega

-- A bare-metal `wai_sem` never waits.
theorem attempt_ne_none {build : Build} {d : Counted}
    (h : (monitor build).attempt d () = none) : build ≠ .smpFreestanding := by
  rintro rfl
  simp only [monitor, Build.core, Smp.freestandingWaiSem, Option.map_eq_none_iff] at h
  split_ifs at h

theorem conserved_step_iff {build : Build} {c c' : Conf} {a : Act} (h : Conserved c.data)
    (hstep : (monitor build).Step c a c') : Conserved c'.data ↔ Lossless build c a := by
  cases hstep with
  | take hd | retake hd => exact conserved_attempt_iff h hd
  | block hd | reblock hd => exact ⟨fun _ hbuild => absurd hbuild (attempt_ne_none hd), fun _ => h⟩
  | quiet hd | wake hd | lost hd => exact conserved_call_iff h hd
  | spurious | timeout => exact ⟨fun _ => trivial, fun _ => h⟩

theorem conserved_iff (build : Build) (pk : TCsem) (h0 : 0 ≤ pk.isemcnt)
    (hmax : pk.isemcnt ≤ pk.maxsem) (tr : List (Conf × Act)) (c : Conf)
    (htr : Trace (monitor build).Step (Monitor.start (created pk)) tr c) :
    (Conserved c.data ∧ ∀ t ∈ tr, Conserved t.1.data) ↔ ∀ t ∈ tr, Lossless build t.1 t.2 :=
  htr.forall_iff (P := fun c => Conserved c.data) (conserved_created h0 hmax)
    fun _ _ _ h hstep => conserved_step_iff h hstep

-- A signal and a wait on a semaphore with no unit and room for one.
theorem conserved_iff_signal_wait :
    ∃ tr c, Trace (monitor .posix).Step (Monitor.start (created ⟨0, 1⟩)) tr c ∧
      ((Conserved c.data ∧ ∀ t ∈ tr, Conserved t.1.data) ↔ ∀ t ∈ tr, Lossless .posix t.1 t.2) := by
  have hsignal : (monitor .posix).Step (Monitor.start (created ⟨0, 1⟩)) (.call ())
      ⟨⟨⟨⟨0, 1⟩, 1, true⟩, 1, 0⟩, 0, 0⟩ := .lost rfl
  have hwait : (monitor .posix).Step ⟨⟨⟨⟨0, 1⟩, 1, true⟩, 1, 0⟩, 0, 0⟩ (.enter ())
      ⟨⟨⟨⟨0, 1⟩, 0, true⟩, 1, 1⟩, 0, 0⟩ := .take rfl
  have htr := Trace.next (.next .start hsignal) hwait
  exact ⟨_, _, htr, conserved_iff .posix ⟨0, 1⟩ (by decide) (by decide) _ _ htr⟩

-- A signal on a full semaphore returns E_OK, and the unit is lost.
theorem full_semaphore_loses_signal :
    ∃ tr c, Trace (monitor .posix).Step (Monitor.start (created ⟨1, 1⟩)) tr c ∧
      c.data.sem.config.isemcnt + c.data.signals ≠ c.data.sem.count + c.data.waits := by
  have hsignal : (monitor .posix).Step (Monitor.start (created ⟨1, 1⟩)) (.call ())
      ⟨⟨⟨⟨1, 1⟩, 1, true⟩, 1, 0⟩, 0, 0⟩ := .quiet rfl
  exact ⟨_, _, .next .start hsignal, by decide⟩

end BTron.Semaphore

namespace BTron.Semaphore

open Lib

-- The units a waiting task could take.
def units (d : Counted) (_ : Unit) : Nat := d.sem.count.toNat

theorem attempt_none {d : Counted} (hlive : d.sem.active = true)
    (h : (monitor .posix).attempt d () = none) : d.sem.count ≤ 0 := by
  simp only [monitor, Build.core, Posix.waiSem, Option.map_eq_none_iff, hlive, Bool.not_true,
    Bool.false_eq_true, if_false] at h
  by_contra hpos
  rw [if_neg hpos] at h
  simp at h

-- Only a `sig_sem` that adds a unit signals.
theorem call_quiet {d d' : Counted} (hlive : d.sem.active = true)
    (h : (monitor .posix).call d () = (d', false)) : d'.sem.count = d.sem.count := by
  obtain ⟨rfl, hquiet⟩ := Prod.mk.inj h
  simp only [Build.core, Posix.sigSem, hlive, Bool.not_true, Bool.false_eq_true, if_false,
    Counted.signalled] at hquiet ⊢
  split_ifs at hquiet ⊢
  rfl

theorem posixUnits : (monitor .posix).Units (fun d => d.sem.active = true) units where
  attempt_keeps hlive hd := by
    obtain ⟨-, rfl⟩ | ⟨hbuild, -, -⟩ := attempt_cases hlive hd
    · exact hlive
    · cases hbuild
  call_keeps hlive hd := by
    obtain ⟨-, rfl⟩ | ⟨-, rfl⟩ := call_cases hlive hd
    · exact hlive
    · exact hlive
  none hlive hd := by
    have hle := attempt_none hlive hd
    rw [units]
    omega
  take hlive hd := by
    obtain ⟨hpos, rfl⟩ | ⟨hbuild, -, -⟩ := attempt_cases hlive hd
    · simp only [units]
      omega
    · cases hbuild
  take_le hlive hd v := by
    obtain ⟨hpos, rfl⟩ | ⟨hbuild, -, -⟩ := attempt_cases hlive hd
    · simp only [units]
      omega
    · cases hbuild
  signal hlive hd w := by
    obtain ⟨-, rfl⟩ | ⟨-, rfl⟩ := call_cases hlive hd
    · simp only [units]
      omega
    · exact Nat.le_succ _
  quiet hlive hd w := by
    rw [units, call_quiet hlive hd]
    exact Nat.le_refl _

theorem count_attempt {d d' : Counted} (hlive : d.sem.active = true)
    (h : (monitor .posix).attempt d () = some d') : 0 ≤ d'.sem.count := by
  obtain ⟨hpos, rfl⟩ | ⟨hbuild, -, -⟩ := attempt_cases hlive h
  · simp only
    omega
  · cases hbuild

-- No call takes the count below zero.
theorem count_step {c c' : Conf} {a : Act} (hlive : c.data.sem.active = true)
    (hstep : (monitor .posix).Step c a c') :
    c.data.sem.count ≤ c'.data.sem.count ∨ 0 ≤ c'.data.sem.count := by
  cases hstep with
  | take hd | retake hd => exact .inr (count_attempt hlive hd)
  | quiet hd | wake hd | lost hd =>
      obtain ⟨-, rfl⟩ | ⟨-, rfl⟩ := call_cases hlive hd
      · exact .inl (by simp only; omega)
      · exact .inl (Int.le_refl _)
  | block | reblock | spurious | timeout => exact .inl (Int.le_refl _)

-- The tasks on a semaphore created from `pk`, with `c.blocked` asleep and a wake-up pending for
-- each of `c.woken`.
def Reaches (pk : TCsem) (c : Conf) : Prop :=
  (monitor .posix).Reachable (fun _ => True) (created pk) c

theorem live_of_reaches {pk : TCsem} {c : Conf} (h : Reaches pk c) :
    c.data.sem.active = true ∧ (pk.isemcnt ≤ c.data.sem.count ∨ 0 ≤ c.data.sem.count) := by
  obtain ⟨tr, htr, -⟩ := h
  have hstart : (created pk).sem.active = true ∧
      (pk.isemcnt ≤ (created pk).sem.count ∨ 0 ≤ (created pk).sem.count) :=
    ⟨rfl, .inl (Int.le_refl _)⟩
  refine htr.preserves (P := fun c => c.data.sem.active = true ∧
    (pk.isemcnt ≤ c.data.sem.count ∨ 0 ≤ c.data.sem.count)) (C := fun _ _ => True) hstart ?_
    (fun _ _ => trivial)
  rintro c a c' ⟨hlive, hcount⟩ - hstep
  refine ⟨Monitor.keeps_step posixUnits hlive hstep, ?_⟩
  have hnext := count_step hlive hstep
  omega

-- The count stays where it is not negative (or as cre_sem set it), and nobody sleeps on more
-- units than there are wake-ups pending.
theorem no_sleep_on_unit (pk : TCsem) (c : Conf) (h : Reaches pk c) :
    min 0 pk.isemcnt ≤ c.data.sem.count ∧
      (∀ a c', (monitor .posix).Step c a c' → 0 ≤ c.data.sem.count → 0 ≤ c'.data.sem.count) ∧
      (c.blocked ≠ 0 → c.data.sem.count ≤ c.woken.card) := by
  obtain ⟨hlive, hcount⟩ := live_of_reaches h
  refine ⟨by omega, fun a c' hstep hnonneg => ?_, fun hblocked => ?_⟩
  · have hnext := count_step hlive hstep
    omega
  · obtain ⟨w, hw⟩ := Multiset.exists_mem_of_ne_zero hblocked
    have hcovered := Monitor.covered_of_reachable posixUnits (fun _ _ _ _ _ _ => rfl) rfl h w hw
    rw [units] at hcovered
    omega

-- A task sleeps, a signal wakes it, another task takes the unit before it runs, and it sleeps
-- again.
theorem no_sleep_on_unit_barged :
    ∃ c, Reaches ⟨0, 1⟩ c ∧ c.blocked ≠ 0 ∧ c.data.sem.count ≤ c.woken.card := by
  have hstart : Reaches ⟨0, 1⟩ (Monitor.start (created ⟨0, 1⟩)) := Monitor.reachable_start _ _ _
  have hsleep : Reaches ⟨0, 1⟩ ⟨created ⟨0, 1⟩, () ::ₘ 0, 0⟩ := hstart.next (by simp) (.block rfl)
  have hsignal : Reaches ⟨0, 1⟩ ⟨⟨⟨⟨0, 1⟩, 1, true⟩, 1, 0⟩, 0, () ::ₘ 0⟩ :=
    hsleep.next (by simp) (.wake (a := ()) rfl)
  have hbarge : Reaches ⟨0, 1⟩ ⟨⟨⟨⟨0, 1⟩, 0, true⟩, 1, 1⟩, 0, () ::ₘ 0⟩ :=
    hsignal.next (by simp) (.take (w := ()) rfl)
  have hagain : Reaches ⟨0, 1⟩ ⟨⟨⟨⟨0, 1⟩, 0, true⟩, 1, 1⟩, () ::ₘ 0, 0⟩ :=
    hbarge.next (by simp) (.reblock rfl)
  exact ⟨_, hagain, by simp, (no_sleep_on_unit ⟨0, 1⟩ _ hagain).2.2 (by simp)⟩

end BTron.Semaphore
