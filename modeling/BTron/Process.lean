import BTron.IpcMsg
import Mathlib.Data.Fin.Tuple.Basic

namespace BTron.Process

open IpcMsg (Message)

-- MAX_PROCESSES
abbrev maxProcesses : Nat := 32

structure Link where
  volId : Int
  recId : Int
  path : Vector TC 32
  flags : Nat

-- BTRON_PROC, without the user no call reads or sets.
structure Proc where
  pid : Int
  priority : Int
  link : Link
  active : Bool
  exitCode : Int

def Proc.zero : Proc := ⟨0, 0, ⟨0, 0, Vector.replicate 32 0, 0⟩, false, 0⟩

-- g_procs, g_next_pid and g_proc_init
structure Procs where
  procs : Fin maxProcesses → Proc
  nextPid : Int
  init : Bool

def Procs.start : Procs := ⟨fun _ => .zero, 1, false⟩

def Procs.modify (s : Procs) (i : Fin maxProcesses) (f : Proc → Proc) : Procs :=
  { s with procs := Function.update s.procs i (f (s.procs i)) }

@[simp] theorem Procs.modify_self (s : Procs) (i : Fin maxProcesses) (f : Proc → Proc) :
    (s.modify i f).procs i = f (s.procs i) := Function.update_self ..

theorem Procs.modify_of_ne {s : Procs} {i j : Fin maxProcesses} (f : Proc → Proc) (h : j ≠ i) :
    (s.modify i f).procs j = s.procs j := Function.update_of_ne h ..

-- The root process has slot 0.
def procInitOnce (s : Procs) : Procs :=
  if s.init then s
  else
    { s with
        procs := Function.update (fun _ => .zero) 0 { Proc.zero with active := true }
        init := true }

-- `g_next_pid++` in 32 bits
def succPid (pid : Int) : Int := if pid = 2147483647 then -2147483648 else pid + 1

-- The searches from slot 1 on.
def findFree (s : Procs) : Option (Fin maxProcesses) :=
  Fin.find? fun i => i != 0 && !(s.procs i).active

def findChild (s : Procs) (pid : Int) : Option (Fin maxProcesses) :=
  Fin.find? fun i => i != 0 && (s.procs i).active && (s.procs i).pid == pid

def findProc (s : Procs) (pid : Int) : Option (Fin maxProcesses) :=
  Fin.find? fun i => (s.procs i).active && (s.procs i).pid == pid

-- The new table, the pid or error, and the launch message with the pid it goes to.
def crePrc (s : Procs) (lnk : Option Link) (pri : Int) (msg : Option Message) :
    Procs × Int × Option (Int × Message) :=
  if pri < 0 ∨ pri > 255 then (s, ER_PAR, none)
  else
    let s := procInitOnce s
    match findFree s with
    | none => (s, ER_NOSPC, none)
    | some i =>
      let pid := s.nextPid
      ({ s.modify i fun p =>
            { p with
                pid := pid
                priority := pri
                link := lnk.getD p.link
                active := true
                exitCode := 0 } with nextPid := succPid pid },
        pid, if pid < 32 then msg.map (pid, ·) else none)

def terPrc (s : Procs) (pid code _opt : Int) : Procs × ER :=
  if pid ≤ 0 ∨ pid ≥ maxProcesses then (s, ER_ID)
  else
    let s := procInitOnce s
    match findChild s pid with
    | none => (s, ER_NOEXS)
    | some i => (s.modify i fun p => { p with active := false, exitCode := code }, E_OK)

def chgPri (s : Procs) (id pri _opt : Int) : Procs × ER :=
  if pri < 0 ∨ pri > 255 then (s, ER_PAR)
  else if id < 0 ∨ id ≥ maxProcesses then (s, ER_ID)
  else
    let s := procInitOnce s
    match findProc s id with
    | none => (s, ER_NOEXS)
    | some i => (s.modify i fun p => { p with priority := pri }, E_OK)

end BTron.Process
