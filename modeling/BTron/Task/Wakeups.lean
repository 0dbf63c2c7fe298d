import BTron.Lib.Run
import BTron.Task
import Mathlib.Data.Multiset.AddSub
import Mathlib.Data.Multiset.ZeroCons

namespace BTron.Task

open Lib

-- Where the one task that sleeps is in `slp_tsk`: outside, between its two locked sections with
-- the slot it found, in `pthread_cond_wait`, or woken and not yet run.
inductive Pc
  | running
  | found (i : Fin maxTasks)
  | blocked (i : Fin maxTasks)
  | awake (i : Fin maxTasks)
deriving DecidableEq

structure Conf where
  tasks : Tasks
  pc : Pc
  -- the callers of `wup_tsk` between the kernel lock and the lock of this slot
  checked : Multiset (Fin maxTasks)
  -- a `wup_tsk` on the task has returned E_OK since its last `slp_tsk` returned
  woken : Bool

inductive Act
  | lookup
  | sleep
  | spurious
  | resume
  | wup (tskid : Int)
  | wake (i : Fin maxTasks)

def Conf.start (tasks : Tasks) : Conf := ⟨tasks, .running, 0, false⟩

-- `own` is the slot of the task that sleeps; the calls of `wup_tsk` on its id are those counted.
def Conf.wake (core : Core) (own : Fin maxTasks) (c : Conf) (i : Fin maxTasks) : Conf :=
  { c with
      tasks := c.tasks.modify i fun tsk => (core.wake tsk).1
      pc := if (core.wake (c.tasks i)).2 ∧ c.pc = .blocked i then .awake i else c.pc
      woken := c.woken || i == own }

-- One locked section of `slp_tsk` by the task whose thread is `self`, or of `wup_tsk` by others.
-- The POSIX core checks the id in one section and wakes in the next, the SMP core in the same.
inductive Step (core : Core) (self : Nat) (own : Fin maxTasks) : Conf → Act → Conf → Prop
  | noTask {c} : c.pc = .running → findSelf c.tasks self = none →
      Step core self own c .lookup { c with woken := false }
  | lookup {c i} : c.pc = .running → findSelf c.tasks self = some i →
      Step core self own c .lookup { c with pc := .found i }
  | sleep {c i} : c.pc = .found i →
      Step core self own c .sleep
        { c with tasks := c.tasks.modify i fun tsk => { tsk with sleeping := true }
                 pc := .blocked i }
  | spurious {c i} : c.pc = .blocked i → Step core self own c .spurious { c with pc := .awake i }
  | again {c i} : c.pc = .awake i → (c.tasks i).sleeping = true →
      Step core self own c .resume { c with pc := .blocked i }
  | leave {c i} : c.pc = .awake i → (c.tasks i).sleeping = false →
      Step core self own c .resume { c with pc := .running, woken := false }
  | refuse {c tskid er} : wupCheck c.tasks tskid = .error er → Step core self own c (.wup tskid) c
  | check {c tskid i} : core = .posix → wupCheck c.tasks tskid = .ok i →
      Step core self own c (.wup tskid) { c with checked := i ::ₘ c.checked }
  | wake {c i} : core = .posix → i ∈ c.checked →
      Step core self own c (.wake i) ({ c with checked := c.checked.erase i }.wake core own i)
  | checkWake {c tskid i} : core = .smpHosted → wupCheck c.tasks tskid = .ok i →
      Step core self own c (.wake i) (c.wake core own i)

-- The `slp_tsk` under way, if any, returns at its next turn.
def Conf.Returns (c : Conf) : Prop :=
  match c.pc with
  | .running | .found _ => True
  | .blocked _ => False
  | .awake i => (c.tasks i).sleeping = false

-- No wake-up is lost.
def Conf.Kept (c : Conf) : Prop := c.woken = true → c.Returns

-- The slot whose flag `slp_tsk` waits for.
def Pc.waits : Pc → Option (Fin maxTasks)
  | .running | .found _ => none
  | .blocked i | .awake i => some i

-- The steps that neither set the flag after a wake-up nor wake a task that sleeps elsewhere.
def Timely (own : Fin maxTasks) (c : Conf) : Act → Prop
  | .sleep => c.woken = false
  | .wake i => i = own → ∀ j, c.pc.waits = some j → (c.tasks j).sleeping = true → j = own
  | .lookup | .spurious | .resume | .wup _ => True

-- The task sleeps with its flag set.
def Conf.Marked (c : Conf) : Prop := ∀ i, c.pc = .blocked i → (c.tasks i).sleeping = true

theorem Core.wake_sleeping (core : Core) (tsk : ItronTask) :
    (core.wake tsk).1.sleeping = false := by
  cases core with
  | posix =>
      rw [Core.wake, Posix.wake]
      split
      · rfl
      · exact Bool.eq_false_iff.mpr ‹_›
  | smpHosted => rfl

theorem Core.wake_signals {core : Core} {tsk : ItronTask} (h : tsk.sleeping = true) :
    (core.wake tsk).2 = true := by
  cases core with
  | posix => rw [Core.wake, Posix.wake, if_pos h]
  | smpHosted => rfl

-- The wake-up reaches a task that sleeps on the slot, and only such a task.
theorem wake_pc (core : Core) (own i : Fin maxTasks) {c : Conf} (h : c.Marked) :
    (c.pc = .blocked i ∧ (c.wake core own i).pc = .awake i) ∨
      (c.pc ≠ .blocked i ∧ (c.wake core own i).pc = c.pc) := by
  by_cases hpc : c.pc = .blocked i
  · exact .inl ⟨hpc, if_pos ⟨Core.wake_signals (h i hpc), hpc⟩⟩
  · exact .inr ⟨hpc, if_neg fun h => hpc h.2⟩

theorem wake_tasks_self (core : Core) (own i : Fin maxTasks) (c : Conf) :
    ((c.wake core own i).tasks i).sleeping = false := by
  simp only [Conf.wake, Tasks.modify_self]
  exact core.wake_sleeping _

theorem wake_tasks_of_ne {core : Core} {own i j : Fin maxTasks} {c : Conf} (h : j ≠ i) :
    (c.wake core own i).tasks j = c.tasks j := by
  simp only [Conf.wake]
  exact Tasks.modify_of_ne _ h

theorem marked_wake {core : Core} (own : Fin maxTasks) {i : Fin maxTasks} {c : Conf}
    (h : c.Marked) : (c.wake core own i).Marked := by
  intro j hj
  obtain ⟨-, hpc⟩ | ⟨hne, hpc⟩ := wake_pc core own i h
  · cases hpc.symm.trans hj
  · have hj' : c.pc = .blocked j := hpc.symm.trans hj
    have hji : j ≠ i := by
      rintro rfl
      exact hne hj'
    rw [wake_tasks_of_ne hji]
    exact h j hj'

theorem marked_step {core : Core} {self : Nat} {own : Fin maxTasks} {c c' : Conf} {a : Act}
    (h : c.Marked) (hstep : Step core self own c a c') : c'.Marked := by
  cases hstep with
  | noTask | refuse | check => exact h
  | wake | checkWake => exact marked_wake own h
  | sleep =>
      intro j hj
      cases hj
      simp
  | again hpc hs =>
      intro j hj
      cases hj
      exact hs
  | lookup | spurious | leave =>
      intro j hj
      cases hj

-- A wake-up of another slot changes nothing for the task.
theorem returns_wake_other {core : Core} {own i : Fin maxTasks} {c : Conf} (h : c.Marked)
    (hret : c.Returns) : (c.wake core own i).Returns := by
  obtain ⟨hpc, -⟩ | ⟨-, hpc⟩ := wake_pc core own i h
  · simp [Conf.Returns, hpc] at hret
  · unfold Conf.Returns at hret ⊢
    rw [hpc]
    cases hc : c.pc with
    | running | found => trivial
    | blocked j => simp [hc] at hret
    | awake j =>
        simp only [hc] at hret
        by_cases hji : j = i
        · subst hji
          exact wake_tasks_self core own j c
        · simp only [wake_tasks_of_ne hji, hret]

-- A wake-up lets the `slp_tsk` return that waits for the slot, or for no set flag.
theorem returns_wake_iff {core : Core} {own : Fin maxTasks} {c : Conf} (h : c.Marked) :
    (c.wake core own own).Returns ↔
      ∀ j, c.pc.waits = some j → (c.tasks j).sleeping = true → j = own := by
  cases hc : c.pc with
  | running | found =>
      have hret : c.Returns := by simp [Conf.Returns, hc]
      simp [returns_wake_other h hret, Pc.waits]
  | blocked j =>
      have hj := h j hc
      obtain ⟨hpc, hpc'⟩ | ⟨hne, hpc⟩ := wake_pc core own own h
      · obtain rfl : j = own := by simpa [hc] using hpc
        simp [Conf.Returns, hpc', wake_tasks_self, Pc.waits]
      · have hji : j ≠ own := by
          rintro rfl
          exact hne hc
        simp [Conf.Returns, hpc, hc, Pc.waits, hj, hji]
  | awake j =>
      have hpc : (c.wake core own own).pc = .awake j := by
        obtain ⟨hpc, -⟩ | ⟨-, hpc⟩ := wake_pc core own own h
        · simp [hc] at hpc
        · exact hpc.trans hc
      by_cases hji : j = own
      · subst hji
        simp [Conf.Returns, hpc, wake_tasks_self, Pc.waits]
      · simp [Conf.Returns, hpc, wake_tasks_of_ne hji, Pc.waits, hji]

theorem kept_wake_iff {core : Core} {own i : Fin maxTasks} {c : Conf} (h : c.Marked)
    (hkept : c.Kept) : (c.wake core own i).Kept ↔ Timely own c (.wake i) := by
  by_cases hi : i = own
  · subst hi
    have hwoken : (c.wake core i i).woken = true := by simp [Conf.wake]
    simp only [Conf.Kept, hwoken, true_implies, Timely]
    exact returns_wake_iff h
  · have hwoken : (c.wake core own i).woken = c.woken := by simp [Conf.wake, hi]
    simp only [Conf.Kept, hwoken, Timely, hi, false_implies, iff_true]
    exact fun hw => returns_wake_other h (hkept hw)

theorem kept_step_iff {core : Core} {self : Nat} {own : Fin maxTasks} {c c' : Conf} {a : Act}
    (h : c.Marked) (hkept : c.Kept) (hstep : Step core self own c a c') :
    c'.Kept ↔ Timely own c a := by
  cases hstep with
  | noTask | lookup | leave => simp [Conf.Kept, Conf.Returns, Timely]
  | sleep hpc =>
      simp only [Conf.Kept, Conf.Returns, Timely, imp_false, Bool.not_eq_true]
  | spurious hpc =>
      have hwoken : c.woken = false := by simpa [Conf.Kept, Conf.Returns, hpc] using hkept
      simp [Conf.Kept, hwoken, Timely]
  | again hpc hs =>
      have hwoken : c.woken = false := by simpa [Conf.Kept, Conf.Returns, hpc, hs] using hkept
      simp [Conf.Kept, hwoken, Timely]
  | refuse => exact ⟨fun _ => trivial, fun _ => hkept⟩
  | check => exact ⟨fun _ => trivial, fun _ => hkept⟩
  | wake => exact kept_wake_iff h hkept
  | checkWake => exact kept_wake_iff h hkept

-- In either core no wake-up is lost as long as each one lands while the task does not sleep
-- elsewhere, and none lands before the task has set its flag.
theorem wakeups_iff (core : Core) (self : Nat) (own : Fin maxTasks) (tasks : Tasks)
    (tr : List (Conf × Act)) (c : Conf) (htr : Trace (Step core self own) (.start tasks) tr c) :
    (c.Kept ∧ ∀ t ∈ tr, t.1.Kept) ↔ ∀ t ∈ tr, Timely own t.1 t.2 := by
  apply htr.forall_iff_within (I := Conf.Marked) (P := Conf.Kept)
  · intro i hi
    cases hi
  · exact fun _ _ _ => marked_step
  · intro hw
    cases hw
  · exact fun _ _ _ => kept_step_iff

-- A wake-up while the task sleeps.
theorem wakeups_iff_asleep :
    ∃ tr c, Trace (Step .posix 7 0) (.start Core.posix.oneTask) tr c ∧ c.woken = true ∧
      ((c.Kept ∧ ∀ t ∈ tr, t.1.Kept) ↔ ∀ t ∈ tr, Timely 0 t.1 t.2) := by
  have hlookup : Step .posix 7 0 (.start Core.posix.oneTask) .lookup
      ⟨Core.posix.oneTask, .found 0, 0, false⟩ := .lookup rfl (by decide)
  have hsleep := Trace.next (.next .start hlookup) (.sleep rfl)
  have hcheck := hsleep.next (.check rfl (wupCheck_of_active 0 rfl))
  have hwake := hcheck.next (.wake (i := 0) rfl (by simp))
  exact ⟨_, _, hwake, rfl, wakeups_iff .posix 7 0 _ _ _ hwake⟩

-- In the POSIX core a wake-up just before `slp_tsk`, in the SMP core one between the two
-- sections of `slp_tsk`: the call returns E_OK, and the task sleeps.
theorem wakeup_before_sleep :
    (∃ tr c, Trace (Step .posix 7 0) (.start Core.posix.oneTask) tr c ∧
      c.woken = true ∧ c.pc = .blocked 0 ∧ (c.tasks 0).sleeping = true) ∧
    (∃ tr c, Trace (Step .smpHosted 7 0) (.start Core.smpHosted.oneTask) tr c ∧
      c.woken = true ∧ c.pc = .blocked 0 ∧ (c.tasks 0).sleeping = true) := by
  constructor
  · have hcheck : Step .posix 7 0 (.start Core.posix.oneTask) (.wup 1)
        ⟨Core.posix.oneTask, .running, {0}, false⟩ := .check rfl (wupCheck_of_active 0 rfl)
    have hwake := Trace.next (.next .start hcheck) (.wake (i := 0) rfl (by simp))
    have hlookup := hwake.next (.lookup (i := 0) rfl (by decide +kernel))
    exact ⟨_, _, hlookup.next (.sleep rfl), rfl, rfl, rfl⟩
  · have hlookup : Step .smpHosted 7 0 (.start Core.smpHosted.oneTask) .lookup
        ⟨Core.smpHosted.oneTask, .found 0, 0, false⟩ := .lookup rfl (by decide)
    have hwake := Trace.next (.next .start hlookup) (.checkWake rfl (wupCheck_of_active 0 rfl))
    exact ⟨_, _, hwake.next (.sleep rfl), rfl, rfl, rfl⟩

end BTron.Task
