import BTron.Lib.Monitor
import BTron.Types

namespace BTron.Semaphore

open Lib

-- T_CSEM, without the fields no semaphore call reads.
structure TCsem where
  isemcnt : Int
  maxsem : Int

-- ITRON_SEM and SMP_SEM.
structure Sem where
  config : TCsem
  count : Int
  active : Bool

-- The slot `cre_sem` fills, the same in all cores.
def creSem (pkCsem : TCsem) : Sem := ⟨pkCsem, pkCsem.isemcnt, true⟩

-- One build of the semaphore calls, on a semaphore with a valid id. `waiSem` is `none` when
-- the caller waits; `sigSem` also says whether it signals the condition variable.
structure Core where
  waiSem : Sem → Option (Sem × ER)
  sigSem : Sem → (Sem × ER) × Bool

namespace Posix

def waiSem (sem : Sem) : Option (Sem × ER) :=
  if !sem.active then some (sem, E_NOEXS)
  else if sem.count ≤ 0 then none
  else some ({ sem with count := sem.count - 1 }, E_OK)

def sigSem (sem : Sem) : (Sem × ER) × Bool :=
  if !sem.active then ((sem, E_NOEXS), false)
  else if sem.count < sem.config.maxsem then (({ sem with count := sem.count + 1 }, E_OK), true)
  else ((sem, E_OK), false)

end Posix

namespace Smp

-- With pthreads.
def hostedWaiSem (sem : Sem) : Option (Sem × ER) :=
  if sem.count ≤ 0 then none
  else some ({ sem with count := sem.count - 1 }, E_OK)

def hostedSigSem (sem : Sem) : (Sem × ER) × Bool :=
  if sem.count < sem.config.maxsem then (({ sem with count := sem.count + 1 }, E_OK), true)
  else ((sem, E_OK), false)

-- On bare metal nobody waits.
def freestandingWaiSem (sem : Sem) : Option (Sem × ER) :=
  if sem.count > 0 then some ({ sem with count := sem.count - 1 }, E_OK)
  else some (sem, E_OK)

def freestandingSigSem (sem : Sem) : (Sem × ER) × Bool :=
  if sem.count < sem.config.maxsem then (({ sem with count := sem.count + 1 }, E_OK), false)
  else ((sem, E_OK), false)

end Smp

inductive Build
  | posix
  | smpHosted
  | smpFreestanding
deriving DecidableEq

def Build.core : Build → Core
  | .posix => ⟨Posix.waiSem, Posix.sigSem⟩
  | .smpHosted => ⟨Smp.hostedWaiSem, Smp.hostedSigSem⟩
  | .smpFreestanding => ⟨Smp.freestandingWaiSem, Smp.freestandingSigSem⟩

-- A semaphore with the numbers of calls that returned E_OK so far.
structure Counted where
  sem : Sem
  signals : Nat
  waits : Nat

def Counted.signalled (d : Counted) (r : Sem × ER) : Counted :=
  { d with sem := r.1, signals := if r.2 = E_OK then d.signals + 1 else d.signals }

def Counted.waited (d : Counted) (r : Sem × ER) : Counted :=
  { d with sem := r.1, waits := if r.2 = E_OK then d.waits + 1 else d.waits }

-- Tasks that call `wai_sem` and `sig_sem`, each critical section one step.
def monitor (build : Build) : Monitor Counted Unit Unit where
  attempt d _ := (build.core.waiSem d.sem).map d.waited
  call d _ := (d.signalled (build.core.sigSem d.sem).1, (build.core.sigSem d.sem).2)
  timed _ := False

def created (pkCsem : TCsem) : Counted := ⟨creSem pkCsem, 0, 0⟩

abbrev Conf := Monitor.Conf Counted Unit
abbrev Act := Monitor.Act Unit Unit

end BTron.Semaphore
