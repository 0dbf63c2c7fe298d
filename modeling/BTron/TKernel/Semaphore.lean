import BTron.Lib.Run
import BTron.TKernel.Wait

namespace BTron.TKernel.Semaphore

open Lib

-- `cnt` is TA_CNT. What a task waits for is a count.
structure SemCb where
  gcb : Gcb Int
  cnt : Bool
  semcnt : Int
  maxsem : Int

def canTake (semcnt : Int) (w : Waiter Int) : Bool := !decide (semcnt < w.winfo)

def take (semcnt : Int) (w : Waiter Int) : Int := semcnt - w.winfo

-- Who is released, and the control block then
def release (semcb : SemCb) (r : Int × List (Waiter Int) × List (Waiter Int)) :
    List (Waiter Int) × SemCb :=
  (r.2.1, { semcb with semcnt := r.1, gcb.waitQueue := r.2.2 })

def creSem (tpri cnt nodiswai : Bool) (isemcnt maxsem : Int) : Er ⊕ SemCb :=
  if isemcnt ≥ 0 ∧ maxsem > 0 ∧ maxsem ≥ isemcnt then
    .inr ⟨⟨[], tpri, nodiswai⟩, cnt, isemcnt, maxsem⟩
  else .inl .par

-- The loop of `sem_chg_pri`, which does nothing for TA_CNT
def semWakeup (semcb : SemCb) : List (Waiter Int) × SemCb :=
  if semcb.cnt then ([], semcb)
  else
    release semcb
      (serveQueue false canTake take (fun _ _ => false) semcb.semcnt semcb.gcb.waitQueue)

def semChgPri (semcb : SemCb) (w : Waiter Int) (priority : Nat) : List (Waiter Int) × SemCb :=
  semWakeup { semcb with gcb := gcbChangePriority semcb.gcb w priority }

def sigSem (semcb : SemCb) (cnt : Int) : Er × List (Waiter Int) × SemCb :=
  if ¬cnt > 0 then (.par, [], semcb)
  else if cnt > semcb.maxsem - semcb.semcnt then (.qovr, [], semcb)
  else
    (.ok, release semcb (serveQueue semcb.cnt canTake take (fun s w => decide (take s w ≤ 0))
      (semcb.semcnt + cnt) semcb.gcb.waitQueue))

-- The call of a task, which waits where no error code comes back.
def waiSem (semcb : SemCb) (tskid priority : Nat) (masked : Bool) (cnt tmout : Int) :
    Option Er × SemCb :=
  if ¬cnt > 0 ∨ ¬tmout ≥ -1 then (some .par, semcb)
  else if cnt > semcb.maxsem then (some .par, semcb)
  else if isDiswai semcb.gcb masked then (some .diswai, semcb)
  else if (semcb.cnt ∨ gcbTopIsSelf semcb.gcb priority) ∧ semcb.semcnt ≥ cnt then
    (some .ok, { semcb with semcnt := semcb.semcnt - cnt })
  else
    let (ercd, gcb) := gcbMakeWaitWithDiswai semcb.gcb masked ⟨tskid, priority, cnt⟩ tmout
    (ercd, { semcb with gcb })

-- The wait of a task ends without what it waits for: its time is over, or it is released from
-- outside, or it ends.
def semRelWai (semcb : SemCb) (tskid : Nat) : List (Waiter Int) × SemCb :=
  semWakeup { semcb with gcb := gcbWithout semcb.gcb tskid }

-- A semaphore with what was returned to it and what was taken from it since it is there.
structure State where
  semcb : SemCb
  returned : Int
  taken : Int

def handed : List (Waiter Int) → Int
  | [] => 0
  | w :: ws => w.winfo + handed ws

inductive Step : State → State → Prop
  | sig (s : State) (cnt : Int) :
      Step s ⟨(sigSem s.semcb cnt).2.2,
        s.returned + (if (sigSem s.semcb cnt).1 = .ok then cnt else 0),
        s.taken + handed (sigSem s.semcb cnt).2.1⟩
  | wai (s : State) (tskid priority : Nat) (masked : Bool) (cnt tmout : Int)
      (hrun : s.semcb.gcb.Lacks tskid) :
      Step s ⟨(waiSem s.semcb tskid priority masked cnt tmout).2, s.returned,
        s.taken +
          if (waiSem s.semcb tskid priority masked cnt tmout).1 = some .ok then cnt else 0⟩
  | relWai (s : State) (tskid : Nat) :
      Step s ⟨(semRelWai s.semcb tskid).2, s.returned,
        s.taken + handed (semRelWai s.semcb tskid).1⟩
  | chgPri (s : State) (w : Waiter Int) (priority : Nat) (hw : w ∈ s.semcb.gcb.waitQueue)
      (htpri : s.semcb.gcb.tpri = true) :
      Step s ⟨(semChgPri s.semcb w priority).2, s.returned,
        s.taken + handed (semChgPri s.semcb w priority).1⟩

structure Sound (isemcnt maxsem : Int) (s : State) : Prop where
  max : s.semcb.maxsem = maxsem
  balance : s.semcb.semcnt + s.taken = isemcnt + s.returned
  lo : 0 ≤ s.semcb.semcnt
  hi : s.semcb.semcnt ≤ maxsem
  wants : ∀ w ∈ s.semcb.gcb.waitQueue, 0 < w.winfo ∧ w.winfo ≤ maxsem
  orderly : s.semcb.gcb.Orderly

-- Nobody waits who could go on.
structure Good (isemcnt maxsem : Int) (s : State) : Prop extends Sound isemcnt maxsem s where
  quiet : Quiet s.semcb.cnt canTake s.semcb.semcnt s.semcb.gcb.waitQueue

variable {isemcnt maxsem : Int} {s s' : State}

theorem canTake_iff {semcnt : Int} {w : Waiter Int} :
    canTake semcnt w = true ↔ w.winfo ≤ semcnt := by
  rw [canTake, Bool.not_eq_true', decide_eq_false_iff_not]
  omega

theorem canTake_eq_false {semcnt : Int} {w : Waiter Int} :
    canTake semcnt w = false ↔ semcnt < w.winfo := by
  rw [canTake, Bool.not_eq_false', decide_eq_true_iff]

theorem foldl_take (semcnt : Int) (ws : List (Waiter Int)) :
    ws.foldl take semcnt = semcnt - handed ws := by
  induction ws generalizing semcnt with
  | nil => exact (Int.sub_zero semcnt).symm
  | cons w ws ih =>
      rw [List.foldl_cons, ih, take, handed]
      omega

-- After the loop nobody waits who could go on, and the count is less what was given.
theorem Sound.serve (stop : Int → Waiter Int → Bool) (h : Sound isemcnt maxsem s)
    (hstop : ∀ c w, stop c w = true → take c w ≤ 0) :
    Good isemcnt maxsem
      ⟨(release s.semcb
          (serveQueue s.semcb.cnt canTake take stop s.semcb.semcnt s.semcb.gcb.waitQueue)).2,
        s.returned, s.taken + handed (release s.semcb
          (serveQueue s.semcb.cnt canTake take stop s.semcb.semcnt s.semcb.gcb.waitQueue)).1⟩ := by
  have hsub : (serveQueue s.semcb.cnt canTake take stop s.semcb.semcnt
      s.semcb.gcb.waitQueue).2.2.Sublist s.semcb.gcb.waitQueue := serveQueue_sublist _ _
  refine ⟨⟨h.max, ?_, ?_, ?_, ?_, h.orderly.sublist hsub⟩, ?_⟩
  · dsimp only [release]
    rw [serveQueue_state, foldl_take]
    have hbal := h.balance
    omega
  · refine serveQueue_keeps (I := fun c => 0 ≤ c) h.lo ?_
    intro c w _ _ hcan
    have hle := canTake_iff.mp hcan
    rw [take]
    omega
  · refine serveQueue_keeps (I := fun c => c ≤ maxsem) h.hi ?_
    intro c w hw hc _
    have hpos := (h.wants w hw).1
    rw [take]
    omega
  · exact fun w hw => h.wants w (hsub.subset hw)
  · refine serveQueue_quiet (I := fun _ => True) trivial (fun _ _ _ _ _ => trivial) ?_ ?_
    · intro c x hx y _ _ _ hcan
      have hpos := (h.wants x hx).1
      rw [canTake_iff] at hcan ⊢
      rw [take] at hcan
      omega
    · intro c x _ _ _ hstp y hy
      have hle := hstop c x hstp
      have hpos := (h.wants y hy).1
      rw [canTake_eq_false]
      omega

-- What `sem_chg_pri` leaves, be it on its own or after the queue has changed.
theorem Sound.wakeup (h : Sound isemcnt maxsem s)
    (hquiet : s.semcb.cnt = true → Quiet true canTake s.semcb.semcnt s.semcb.gcb.waitQueue) :
    Good isemcnt maxsem ⟨(semWakeup s.semcb).2, s.returned,
      s.taken + handed (semWakeup s.semcb).1⟩ := by
  rw [semWakeup]
  split
  · rename_i hcnt
    have htaken : s.taken + handed [] = s.taken := Int.add_zero s.taken
    rw [htaken]
    refine ⟨h, ?_⟩
    rw [hcnt]
    exact hquiet hcnt
  · rename_i hcnt
    have hcnt : s.semcb.cnt = false := by simpa using hcnt
    have hserve := h.serve (fun _ _ => false) fun _ _ hstp => absurd hstp (by decide)
    rw [hcnt] at hserve
    exact hserve

-- The call of a task: it gets what it asks for, or comes back without, or waits.
theorem waiSem_cases (semcb : SemCb) (tskid priority : Nat) (masked : Bool) (cnt tmout : Int) :
    (∃ ercd, ercd ≠ .ok ∧ waiSem semcb tskid priority masked cnt tmout = (some ercd, semcb)) ∨
      0 < cnt ∧ cnt ≤ semcb.semcnt ∧ waiSem semcb tskid priority masked cnt tmout =
        (some .ok, { semcb with semcnt := semcb.semcnt - cnt }) ∨
      0 < cnt ∧ cnt ≤ semcb.maxsem ∧
        ¬((semcb.cnt ∨ gcbTopIsSelf semcb.gcb priority) ∧ semcb.semcnt ≥ cnt) ∧
        waiSem semcb tskid priority masked cnt tmout =
          (none, { semcb with gcb := gcbMakeWait semcb.gcb ⟨tskid, priority, cnt⟩ }) := by
  rw [waiSem]
  split
  · exact .inl ⟨.par, by decide, rfl⟩
  · rename_i hpar
    split
    · exact .inl ⟨.par, by decide, rfl⟩
    · split
      · exact .inl ⟨.diswai, by decide, rfl⟩
      · split
        · rename_i htake
          exact .inr (.inl ⟨by omega, htake.2, rfl⟩)
        · rename_i hmax _ hwait
          obtain ⟨ercd, hercd, heq⟩ | ⟨_, heq⟩ :=
            gcbMakeWaitWithDiswai_cases semcb.gcb masked ⟨tskid, priority, cnt⟩ tmout
          · exact .inl ⟨ercd, hercd, by rw [heq]⟩
          · exact .inr (.inr ⟨by omega, by omega, hwait, by rw [heq]⟩)

theorem Good.wai {tskid priority : Nat} {masked : Bool} {cnt tmout : Int}
    (h : Good isemcnt maxsem s) (hrun : s.semcb.gcb.Lacks tskid) :
    Good isemcnt maxsem ⟨(waiSem s.semcb tskid priority masked cnt tmout).2, s.returned, s.taken +
      if (waiSem s.semcb tskid priority masked cnt tmout).1 = some .ok then cnt else 0⟩ := by
  obtain ⟨ercd, hercd, heq⟩ | ⟨hpos, hle, heq⟩ | ⟨hpos, hle, hwait, heq⟩ :=
    waiSem_cases s.semcb tskid priority masked cnt tmout
  · rw [heq, if_neg fun h => hercd (Option.some.inj h), Int.add_zero]
    exact h
  · rw [heq, if_pos rfl]
    have hbal := h.balance
    have hhi := h.hi
    refine ⟨⟨h.max, by dsimp only; omega, by dsimp only; omega, by dsimp only; omega, h.wants,
      h.orderly⟩, h.quiet.mono ?_⟩
    intro w _ hcan
    rw [canTake_iff] at hcan ⊢
    dsimp only at hcan
    omega
  · rw [heq, if_neg nofun, Int.add_zero]
    refine ⟨⟨h.max, h.balance, h.lo, h.hi, ?_, h.orderly.makeWait hrun⟩, ?_⟩
    · intro w hw
      obtain rfl | hw := mem_gcbMakeWait.mp hw
      · exact ⟨hpos, h.max ▸ hle⟩
      · exact h.wants w hw
    · have hquiet := h.quiet
      rw [Quiet] at hquiet ⊢
      dsimp only
      cases hcnt : s.semcb.cnt
      · rw [hcnt] at hquiet hwait
        intro w hw
        obtain ⟨rfl, htop⟩ | hw := head_gcbMakeWait hw
        · rw [canTake_eq_false]
          by_contra hge
          exact hwait ⟨.inr htop, not_lt.mp hge⟩
        · exact hquiet w hw
      · rw [hcnt] at hquiet hwait
        intro w hw
        obtain rfl | hw := mem_gcbMakeWait.mp hw
        · rw [canTake_eq_false]
          by_contra hge
          exact hwait ⟨.inl rfl, not_lt.mp hge⟩
        · exact hquiet w hw

theorem good_step (h : Good isemcnt maxsem s) (hstep : Step s s') : Good isemcnt maxsem s' := by
  cases hstep with
  | sig cnt =>
      have hstay : Good isemcnt maxsem ⟨s.semcb, s.returned + 0, s.taken + handed []⟩ := by
        rw [handed, Int.add_zero, Int.add_zero]
        exact h
      rw [sigSem]
      split
      · exact hstay
      · split
        · exact hstay
        · rename_i hpos hroom
          have hmax := h.max
          have hbal := h.balance
          have hlo := h.lo
          have hsound : Sound isemcnt maxsem
              ⟨{ s.semcb with semcnt := s.semcb.semcnt + cnt }, s.returned + cnt, s.taken⟩ :=
            ⟨h.max, by dsimp only; omega, by dsimp only; omega, by dsimp only; omega, h.wants,
              h.orderly⟩
          exact hsound.serve _ fun c w hstp => of_decide_eq_true hstp
  | wai tskid priority masked cnt tmout hrun => exact h.wai hrun
  | relWai tskid =>
      have hsound : Sound isemcnt maxsem
          ⟨{ s.semcb with gcb := gcbWithout s.semcb.gcb tskid }, s.returned, s.taken⟩ :=
        ⟨h.max, h.balance, h.lo, h.hi, fun w hw => h.wants w (mem_gcbWithout hw),
          h.orderly.without tskid⟩
      refine hsound.wakeup ?_
      intro hcnt w hw
      have hquiet := h.quiet
      rw [show s.semcb.cnt = true from hcnt] at hquiet
      exact hquiet w (mem_gcbWithout hw)
  | chgPri w priority hw htpri =>
      have hsame : ∀ x ∈ (gcbChangePriority s.semcb.gcb w priority).waitQueue,
          ∃ y ∈ s.semcb.gcb.waitQueue, x.winfo = y.winfo := by
        intro x hx
        obtain rfl | hx := mem_gcbChangePriority hx
        · exact ⟨w, hw, rfl⟩
        · exact ⟨x, hx, rfl⟩
      have hsound : Sound isemcnt maxsem
          ⟨{ s.semcb with gcb := gcbChangePriority s.semcb.gcb w priority }, s.returned,
            s.taken⟩ := by
        refine ⟨h.max, h.balance, h.lo, h.hi, ?_, h.orderly.changePriority htpri⟩
        intro x hx
        obtain ⟨y, hy, heq⟩ := hsame x hx
        rw [heq]
        exact h.wants y hy
      refine hsound.wakeup ?_
      intro hcnt x hx
      obtain ⟨y, hy, heq⟩ := hsame x hx
      have hquiet := h.quiet
      rw [show s.semcb.cnt = true from hcnt] at hquiet
      rw [canTake, heq]
      exact hquiet y hy

theorem good_creSem {tpri cnt nodiswai : Bool} {semcb : SemCb}
    (hcre : creSem tpri cnt nodiswai isemcnt maxsem = .inr semcb) :
    Good isemcnt maxsem ⟨semcb, 0, 0⟩ := by
  rw [creSem] at hcre
  split at hcre
  · rename_i hpar
    obtain rfl := Sum.inr.inj hcre
    exact ⟨⟨rfl, rfl, hpar.1, hpar.2.2, fun w hw => absurd hw List.not_mem_nil,
      ⟨List.nodup_nil, fun _ => .nil⟩⟩, quiet_nil _ _ _⟩
  · cases hcre

end BTron.TKernel.Semaphore
