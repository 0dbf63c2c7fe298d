import BTron.Types
import Mathlib.Data.Fin.Tuple.Basic
import Mathlib.Logic.Function.Basic

namespace BTron.Task

-- MAX_TASKS and MAX_SMP_TASKS
abbrev maxTasks : Nat := 64

-- T_CTSK. A pointer is a number, NULL is 0.
structure TCtsk where
  exinf : Nat
  tskatr : Nat
  task : Nat
  itskpri : Int
  stksz : Int

-- ITRON_TASK and SMP_TASK. The locks belong to the steps.
structure ItronTask where
  tskid : Int
  config : TCtsk
  thread : Nat
  active : Bool
  sleeping : Bool

-- g_tasks and s_smp_tasks
abbrev Tasks := Fin maxTasks → ItronTask

def ItronTask.zero : ItronTask := ⟨0, ⟨0, 0, 0, 0, 0⟩, 0, false, false⟩

-- The table after `btron_core_init`.
def Tasks.start : Tasks := fun _ => .zero

def Tasks.modify (t : Tasks) (i : Fin maxTasks) (f : ItronTask → ItronTask) : Tasks :=
  Function.update t i (f (t i))

@[simp] theorem Tasks.modify_self (t : Tasks) (i : Fin maxTasks) (f : ItronTask → ItronTask) :
    t.modify i f i = f (t i) := Function.update_self ..

theorem Tasks.modify_of_ne {t : Tasks} {i j : Fin maxTasks} (f : ItronTask → ItronTask)
    (h : j ≠ i) : t.modify i f j = t j := Function.update_of_ne h ..

-- The index behind a task id, for the check `tskid <= 0 || tskid > MAX_TASKS`.
def slotOf (tskid : Int) : Option (Fin maxTasks) :=
  if h : 0 < tskid ∧ tskid ≤ maxTasks then
    some ⟨(tskid - 1).toNat, by simp only [maxTasks] at *; omega⟩
  else none

theorem slotOf_val (i : Fin maxTasks) : slotOf ((i : Nat) + 1) = some i := by
  have hi : (i : Nat) < 64 := i.isLt
  rw [slotOf, dif_pos (by simp only [maxTasks]; omega)]
  congr 1
  ext
  simp

-- What `cre_tsk` stores in a free slot.
def ItronTask.create (i : Fin maxTasks) (pkCtsk : TCtsk) (tsk : ItronTask) : ItronTask :=
  { tsk with tskid := (i : Nat) + 1, config := pkCtsk, active := true, sleeping := false }

def findFree (t : Tasks) : Option (Fin maxTasks) := Fin.find? fun i => !(t i).active

-- The slot in which `slp_tsk` finds the calling thread.
def findSelf (t : Tasks) (self : Nat) : Option (Fin maxTasks) :=
  Fin.find? fun i => (t i).active && (t i).thread == self

-- The checks of `wup_tsk` under the kernel lock.
def wupCheck (t : Tasks) (tskid : Int) : Except ER (Fin maxTasks) :=
  match slotOf tskid with
  | none => .error E_ID
  | some i => if !(t i).active then .error E_NOEXS else .ok i

theorem wupCheck_of_active {t : Tasks} (i : Fin maxTasks) (h : (t i).active = true) :
    wupCheck t ((i : Nat) + 1) = .ok i := by
  simp [wupCheck, slotOf_val, h]

theorem wupCheck_of_not_active {t : Tasks} (i : Fin maxTasks) (h : (t i).active = false) :
    wupCheck t ((i : Nat) + 1) = .error E_NOEXS := by
  simp [wupCheck, slotOf_val, h]

namespace Posix

def creTsk (t : Tasks) (pkCtsk : Option TCtsk) : Tasks × Int :=
  match pkCtsk with
  | none => (t, E_PAR)
  | some pk =>
    if pk.task = 0 then (t, E_PAR)
    else
      match findFree t with
      | none => (t, E_NOMEM)
      | some i => (t.modify i (.create i pk), (i : Nat) + 1)

-- What the wrapper does when the task function has returned.
def taskWrapper (t : Tasks) (i : Fin maxTasks) : Tasks :=
  t.modify i fun tsk => { tsk with active := false }

-- `rc` and `thread` are what `pthread_create` returns and stores.
def staTsk (t : Tasks) (tskid : Int) (exinf : Nat) (rc : Int) (thread : Nat) : Tasks × ER :=
  match slotOf tskid with
  | none => (t, E_ID)
  | some i =>
    if !(t i).active then (t, E_NOEXS)
    else
      (t.modify i fun tsk =>
          { tsk with config := { tsk.config with exinf := exinf }, thread := thread },
        if rc ≠ 0 then E_SYS else E_OK)

-- The section of `wup_tsk` under the task's lock, and whether it signals.
def wake (tsk : ItronTask) : ItronTask × Bool :=
  if tsk.sleeping then ({ tsk with sleeping := false }, true) else (tsk, false)

end Posix

namespace Smp

def creTsk (t : Tasks) (pkCtsk : Option TCtsk) : Tasks × Int :=
  match pkCtsk with
  | none => (t, E_PAR)
  | some pk =>
    match findFree t with
    | none => (t, E_LIMIT)
    | some i => (t.modify i (.create i pk), (i : Nat) + 1)

-- Nothing follows the task function.
def smpTaskTrampoline (t : Tasks) (_ : Fin maxTasks) : Tasks := t

def staTsk (t : Tasks) (tskid : Int) (exinf : Nat) (rc : Int) (thread : Nat) : Tasks × ER :=
  match slotOf tskid with
  | none => (t, E_ID)
  | some i =>
    if !(t i).active then (t, E_NOEXS)
    else
      (t.modify i fun tsk =>
          { tsk with
              config := if exinf ≠ 0 then { tsk.config with exinf := exinf } else tsk.config
              thread := thread },
        if rc = 0 then E_OK else E_SYS)

def wake (tsk : ItronTask) : ItronTask × Bool := ({ tsk with sleeping := false }, true)

end Smp

-- The cores with threads.
inductive Core
  | posix
  | smpHosted
deriving DecidableEq

def Core.creTsk : Core → Tasks → Option TCtsk → Tasks × Int
  | .posix => Posix.creTsk
  | .smpHosted => Smp.creTsk

def Core.staTsk : Core → Tasks → Int → Nat → Int → Nat → Tasks × ER
  | .posix => Posix.staTsk
  | .smpHosted => Smp.staTsk

-- What follows the return of the task function.
def Core.returned : Core → Tasks → Fin maxTasks → Tasks
  | .posix => Posix.taskWrapper
  | .smpHosted => Smp.smpTaskTrampoline

-- `ext_tsk` leaves the table as it is.
def Core.extTsk : Core → Tasks → Fin maxTasks → Tasks
  | .posix | .smpHosted => fun t _ => t

def Core.wake : Core → ItronTask → ItronTask × Bool
  | .posix => Posix.wake
  | .smpHosted => Smp.wake

-- The table with one task created and started, as the thread 7.
def Core.oneTask (core : Core) : Tasks :=
  (core.staTsk (core.creTsk .start (some ⟨0, 0, 1, 0, 0⟩)).1 1 0 0 7).1

end BTron.Task
