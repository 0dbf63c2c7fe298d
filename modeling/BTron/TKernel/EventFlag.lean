import BTron.Lib.Run
import BTron.TKernel.Wait

namespace BTron.TKernel.EventFlag

open Lib

abbrev UINT := BitVec 32

def TWF_ORW : UINT := 0x01
def TWF_CLR : UINT := 0x10
def TWF_BITCLR : UINT := 0x20

-- winfo.flg without the address for the pattern
structure Want where
  waiptn : UINT
  wfmode : UINT
deriving DecidableEq

-- `wmul` is TA_WMUL.
structure FlgCb where
  gcb : Gcb Want
  wmul : Bool
  flgptn : UINT

def eventflagCond (flgptn : UINT) (want : Want) : Bool :=
  if want.wfmode &&& TWF_ORW ≠ 0 then flgptn &&& want.waiptn ≠ 0
  else flgptn &&& want.waiptn = want.waiptn

-- What the flag is after a task has what it waited for
def cleared (flgptn : UINT) (want : Want) : UINT :=
  let ptn := if want.wfmode &&& TWF_BITCLR ≠ 0 then flgptn &&& ~~~want.waiptn else flgptn
  if want.wfmode &&& TWF_CLR ≠ 0 then 0 else ptn

-- The pattern a task was given, and what it had asked for
structure Given where
  flgptn : UINT
  want : Want

-- The pattern of the flag, and what was given so far
structure Bits where
  flgptn : UINT
  log : List Given

def give (bits : Bits) (want : Want) : Bits :=
  ⟨cleared bits.flgptn want, bits.log ++ [⟨bits.flgptn, want⟩]⟩

def canGo (bits : Bits) (w : Waiter Want) : Bool := eventflagCond bits.flgptn w.winfo

-- The loop of `tk_set_flg` ends where nothing is set any more.
def lastOne (bits : Bits) (w : Waiter Want) : Bool :=
  w.winfo.wfmode &&& TWF_BITCLR ≠ 0 && bits.flgptn &&& ~~~w.winfo.waiptn = 0 ||
    w.winfo.wfmode &&& TWF_CLR ≠ 0

def creFlg (tpri wmul nodiswai : Bool) (iflgptn : UINT) : FlgCb :=
  ⟨⟨[], tpri, nodiswai⟩, wmul, iflgptn⟩

def setFlg (flgcb : FlgCb) (setptn : UINT) : List Given × FlgCb :=
  let r := serveQueue true canGo (fun bits w => give bits w.winfo) lastOne
    ⟨flgcb.flgptn ||| setptn, []⟩ flgcb.gcb.waitQueue
  (r.1.log, { flgcb with flgptn := r.1.flgptn, gcb.waitQueue := r.2.2 })

def clrFlg (flgcb : FlgCb) (clrptn : UINT) : FlgCb :=
  { flgcb with flgptn := flgcb.flgptn &&& clrptn }

-- The call of a task, which waits where no error code comes back.
def waiFlg (flgcb : FlgCb) (tskid priority : Nat) (masked : Bool) (want : Want) (tmout : Int) :
    Option Er × List Given × FlgCb :=
  if want.waiptn = 0 ∨ want.wfmode &&& ~~~(TWF_ORW ||| TWF_CLR ||| TWF_BITCLR) ≠ 0 ∨
      ¬tmout ≥ -1 then (some .par, [], flgcb)
  else if ¬flgcb.wmul ∧ flgcb.gcb.waitQueue ≠ [] then (some .obj, [], flgcb)
  else if isDiswai flgcb.gcb masked then (some .diswai, [], flgcb)
  else if eventflagCond flgcb.flgptn want then
    (some .ok, [⟨flgcb.flgptn, want⟩], { flgcb with flgptn := cleared flgcb.flgptn want })
  else
    let (ercd, gcb) := gcbMakeWaitWithDiswai flgcb.gcb masked ⟨tskid, priority, want⟩ tmout
    (ercd, [], { flgcb with gcb })

-- There is no hook for a wait that ends otherwise.
def flgRelWai (flgcb : FlgCb) (tskid : Nat) : FlgCb :=
  { flgcb with gcb := gcbWithout flgcb.gcb tskid }

def flgChgPri (flgcb : FlgCb) (w : Waiter Want) (priority : Nat) : FlgCb :=
  { flgcb with gcb := gcbChangePriority flgcb.gcb w priority }

-- A flag with what was set and what was given since it is there
structure State where
  flgcb : FlgCb
  sets : List UINT
  log : List Given

inductive Step : State → State → Prop
  | set (s : State) (setptn : UINT) :
      Step s ⟨(setFlg s.flgcb setptn).2, s.sets ++ [setptn], s.log ++ (setFlg s.flgcb setptn).1⟩
  | clr (s : State) (clrptn : UINT) : Step s ⟨clrFlg s.flgcb clrptn, s.sets, s.log⟩
  | wai (s : State) (tskid priority : Nat) (masked : Bool) (want : Want) (tmout : Int)
      (hrun : s.flgcb.gcb.Lacks tskid) :
      Step s ⟨(waiFlg s.flgcb tskid priority masked want tmout).2.2, s.sets,
        s.log ++ (waiFlg s.flgcb tskid priority masked want tmout).2.1⟩
  | relWai (s : State) (tskid : Nat) : Step s ⟨flgRelWai s.flgcb tskid, s.sets, s.log⟩
  | chgPri (s : State) (w : Waiter Want) (priority : Nat) (hw : w ∈ s.flgcb.gcb.waitQueue)
      (htpri : s.flgcb.gcb.tpri = true) :
      Step s ⟨flgChgPri s.flgcb w priority, s.sets, s.log⟩

-- The bit was set in the pattern a task was given, and not any more after that.
def Given.uses (g : Given) (i : Nat) : Bool :=
  g.flgptn.getLsbD i && !(cleared g.flgptn g.want).getLsbD i

variable {iflgptn flgptn : UINT} {want : Want} {s s' : State}

theorem getLsbD_cleared {i : Nat} (h : (cleared flgptn want).getLsbD i = true) :
    flgptn.getLsbD i = true := by
  rw [cleared] at h
  split at h
  · simp at h
  · split at h
    · simp only [BitVec.getLsbD_and, Bool.and_eq_true] at h
      exact h.1
    · exact h

-- With fewer bits no more can go on.
theorem eventflagCond_mono {ptn : UINT}
    (hsub : ∀ i, ptn.getLsbD i = true → flgptn.getLsbD i = true)
    (h : eventflagCond ptn want = true) : eventflagCond flgptn want = true := by
  have hand : ptn &&& flgptn = ptn := by
    apply BitVec.eq_of_getLsbD_eq
    intro i _
    rw [BitVec.getLsbD_and]
    cases hi : ptn.getLsbD i
    · rfl
    · rw [hsub i hi]
      rfl
  rw [eventflagCond] at h ⊢
  split at h
  · rename_i horw
    rw [if_pos horw]
    simp only [ne_eq, decide_eq_true_eq] at h ⊢
    intro hzero
    apply h
    rw [← hand, BitVec.and_assoc, hzero]
    exact BitVec.and_zero
  · rename_i horw
    rw [if_neg horw]
    simp only [decide_eq_true_eq] at h ⊢
    calc flgptn &&& want.waiptn = flgptn &&& (ptn &&& want.waiptn) := by rw [h]
      _ = (ptn &&& flgptn) &&& want.waiptn := by
          rw [← BitVec.and_assoc, BitVec.and_comm flgptn ptn]
      _ = want.waiptn := by rw [hand, h]

theorem eventflagCond_keeps {ptn : UINT}
    (hsub : ∀ i, ptn.getLsbD i = true → flgptn.getLsbD i = true)
    (h : eventflagCond flgptn want = false) : eventflagCond ptn want = false := by
  by_contra hgo
  rw [eventflagCond_mono hsub (by simpa using hgo)] at h
  exact absurd h (by decide)

theorem eventflagCond_zero (hwant : want.waiptn ≠ 0) : eventflagCond 0 want = false := by
  rw [eventflagCond]
  split
  · simp
  · simpa using hwant.symm

theorem cleared_last {bits : Bits} {w : Waiter Want} (h : lastOne bits w = true) :
    cleared bits.flgptn w.winfo = 0 := by
  rw [lastOne, Bool.or_eq_true, Bool.and_eq_true, decide_eq_true_eq, decide_eq_true_eq,
    decide_eq_true_eq] at h
  rw [cleared]
  split
  · rfl
  · rename_i hclr
    obtain ⟨hbit, hzero⟩ := h.resolve_right hclr
    rw [if_pos hbit, hzero]

-- How often the bit was used up
def uses (log : List Given) (i : Nat) : Nat := log.countP (·.uses i)

def bit (flgptn : UINT) (i : Nat) : Nat := if flgptn.getLsbD i then 1 else 0

-- A bit that a task uses up is gone.
theorem uses_give (bits : Bits) (want : Want) (i : Nat) :
    uses (give bits want).log i + bit (give bits want).flgptn i =
      uses bits.log i + bit bits.flgptn i := by
  have hsub : (cleared bits.flgptn want).getLsbD i = true → bits.flgptn.getLsbD i = true :=
    getLsbD_cleared
  simp only [uses, give, bit, List.countP_append, List.countP_singleton, Given.uses]
  by_cases hc : (cleared bits.flgptn want).getLsbD i = true
  · simp [hc, hsub hc]
  · by_cases hp : bits.flgptn.getLsbD i = true <;> simp [hc, hp]

structure Good (iflgptn : UINT) (s : State) : Prop where
  wants : ∀ w ∈ s.flgcb.gcb.waitQueue, w.winfo.waiptn ≠ 0
  quiet : ∀ w ∈ s.flgcb.gcb.waitQueue, eventflagCond s.flgcb.flgptn w.winfo = false
  orderly : s.flgcb.gcb.Orderly
  single : s.flgcb.wmul = false → s.flgcb.gcb.waitQueue.length ≤ 1
  met : ∀ g ∈ s.log, eventflagCond g.flgptn g.want = true
  counted : ∀ i, uses s.log i + bit s.flgcb.flgptn i ≤
    bit iflgptn i + s.sets.countP (·.getLsbD i)

theorem Good.set (h : Good iflgptn s) (setptn : UINT) :
    Good iflgptn ⟨(setFlg s.flgcb setptn).2, s.sets ++ [setptn],
      s.log ++ (setFlg s.flgcb setptn).1⟩ := by
  rw [setFlg]
  generalize hr : serveQueue true canGo (fun bits w => give bits w.winfo) lastOne
    ⟨s.flgcb.flgptn ||| setptn, []⟩ s.flgcb.gcb.waitQueue = r
  have hsub : r.2.2.Sublist s.flgcb.gcb.waitQueue := hr ▸ serveQueue_sublist _ _
  have hmet : ∀ g ∈ r.1.log, eventflagCond g.flgptn g.want = true := by
    rw [← hr]
    refine serveQueue_keeps
      (I := fun bits : Bits => ∀ g ∈ bits.log, eventflagCond g.flgptn g.want = true)
      (fun g hg => absurd hg List.not_mem_nil) ?_
    intro bits w _ hI hcan g hg
    obtain hg | hg := List.mem_append.mp hg
    · exact hI g hg
    · obtain rfl := List.mem_singleton.mp hg
      exact hcan
  have hcount : ∀ i, uses r.1.log i + bit r.1.flgptn i = bit (s.flgcb.flgptn ||| setptn) i := by
    intro i
    rw [← hr]
    refine serveQueue_keeps (I := fun bits : Bits =>
      uses bits.log i + bit bits.flgptn i = bit (s.flgcb.flgptn ||| setptn) i)
      (Nat.zero_add _) ?_
    intro bits w _ hI _
    rw [uses_give, hI]
  have hquiet : Quiet true canGo r.1 r.2.2 := by
    rw [← hr]
    refine serveQueue_quiet (I := fun _ => True) trivial (fun _ _ _ _ _ => trivial) ?_ ?_
    · intro bits x _ y _ _ _ hy
      exact eventflagCond_mono (fun i hi => getLsbD_cleared hi) hy
    · intro bits x _ _ _ hlast y hy
      have hzero : (give bits x.winfo).flgptn = 0 := cleared_last hlast
      rw [canGo, hzero]
      exact eventflagCond_zero (h.wants y hy)
  refine ⟨fun w hw => h.wants w (hsub.subset hw), hquiet, h.orderly.sublist hsub,
    fun hw => hsub.length_le.trans (h.single hw), ?_, ?_⟩
  · intro g hg
    exact (List.mem_append.mp hg).elim (h.met g) (hmet g)
  · intro i
    have hold := h.counted i
    have hnew := hcount i
    have hor : bit (s.flgcb.flgptn ||| setptn) i ≤
        bit s.flgcb.flgptn i + if setptn.getLsbD i then 1 else 0 := by
      simp only [bit, BitVec.getLsbD_or]
      cases s.flgcb.flgptn.getLsbD i <;> cases setptn.getLsbD i <;> simp
    simp only [uses, List.countP_append, List.countP_singleton] at hold hnew ⊢
    omega

-- The call of a task: it is given the pattern, or comes back without, or waits.
theorem waiFlg_cases (flgcb : FlgCb) (tskid priority : Nat) (masked : Bool) (want : Want)
    (tmout : Int) :
    (∃ ercd, waiFlg flgcb tskid priority masked want tmout = (some ercd, [], flgcb)) ∨
      eventflagCond flgcb.flgptn want = true ∧ waiFlg flgcb tskid priority masked want tmout =
        (some .ok, [⟨flgcb.flgptn, want⟩],
          { flgcb with flgptn := cleared flgcb.flgptn want }) ∨
      want.waiptn ≠ 0 ∧ eventflagCond flgcb.flgptn want = false ∧
        (flgcb.wmul = false → flgcb.gcb.waitQueue = []) ∧
        waiFlg flgcb tskid priority masked want tmout =
          (none, [], { flgcb with gcb := gcbMakeWait flgcb.gcb ⟨tskid, priority, want⟩ }) := by
  rw [waiFlg]
  split
  · exact .inl ⟨.par, rfl⟩
  · rename_i hpar
    split
    · exact .inl ⟨.obj, rfl⟩
    · rename_i hmul
      split
      · exact .inl ⟨.diswai, rfl⟩
      · split
        · rename_i hcond
          exact .inr (.inl ⟨hcond, rfl⟩)
        · rename_i hcond
          obtain ⟨ercd, _, heq⟩ | ⟨_, heq⟩ :=
            gcbMakeWaitWithDiswai_cases flgcb.gcb masked ⟨tskid, priority, want⟩ tmout
          · exact .inl ⟨ercd, by rw [heq]⟩
          · refine .inr (.inr ⟨fun h => hpar (.inl h), by simpa using hcond, ?_, by rw [heq]⟩)
            intro hw
            by_contra hne
            exact hmul ⟨by simp [hw], hne⟩

theorem Good.wai {tskid priority : Nat} {masked : Bool} {tmout : Int} (h : Good iflgptn s)
    (hrun : s.flgcb.gcb.Lacks tskid) :
    Good iflgptn ⟨(waiFlg s.flgcb tskid priority masked want tmout).2.2, s.sets,
      s.log ++ (waiFlg s.flgcb tskid priority masked want tmout).2.1⟩ := by
  obtain ⟨ercd, heq⟩ | ⟨hcond, heq⟩ | ⟨hwant, hcond, hmul, heq⟩ :=
    waiFlg_cases s.flgcb tskid priority masked want tmout
  · rw [heq, List.append_nil]
    exact h
  · rw [heq]
    refine ⟨h.wants, ?_, h.orderly, h.single, ?_, ?_⟩
    · exact fun w hw => eventflagCond_keeps (fun i hi => getLsbD_cleared hi) (h.quiet w hw)
    · intro g hg
      obtain hg | hg := List.mem_append.mp hg
      · exact h.met g hg
      · obtain rfl := List.mem_singleton.mp hg
        exact hcond
    · intro i
      exact (uses_give ⟨s.flgcb.flgptn, s.log⟩ want i).le.trans (h.counted i)
  · rw [heq, List.append_nil]
    refine ⟨?_, ?_, h.orderly.makeWait hrun, ?_, h.met, h.counted⟩
    · intro w hw
      obtain rfl | hw := mem_gcbMakeWait.mp hw
      · exact hwant
      · exact h.wants w hw
    · intro w hw
      obtain rfl | hw := mem_gcbMakeWait.mp hw
      · exact hcond
      · exact h.quiet w hw
    · intro hw
      have hlen : (gcbMakeWait s.flgcb.gcb ⟨tskid, priority, want⟩).waitQueue.length =
          s.flgcb.gcb.waitQueue.length + 1 := gcbMakeWait_perm.length_eq
      rw [hmul hw] at hlen
      exact hlen.le

theorem good_step (h : Good iflgptn s) (hstep : Step s s') : Good iflgptn s' := by
  cases hstep with
  | set setptn => exact h.set setptn
  | wai tskid priority masked want tmout hrun => exact h.wai hrun
  | clr clrptn =>
      have hsub : ∀ i, (s.flgcb.flgptn &&& clrptn).getLsbD i = true →
          s.flgcb.flgptn.getLsbD i = true := by
        intro i hi
        rw [BitVec.getLsbD_and, Bool.and_eq_true] at hi
        exact hi.1
      refine ⟨h.wants, ?_, h.orderly, h.single, h.met, ?_⟩
      · exact fun w hw => eventflagCond_keeps hsub (h.quiet w hw)
      · intro i
        have hold := h.counted i
        have hle : bit (s.flgcb.flgptn &&& clrptn) i ≤ bit s.flgcb.flgptn i := by
          rw [bit, bit]
          split
          · rename_i hi
            rw [if_pos (hsub i hi)]
          · exact Nat.zero_le _
        exact (Nat.add_le_add_left hle _).trans hold
  | relWai tskid =>
      exact ⟨fun w hw => h.wants w (mem_gcbWithout hw), fun w hw => h.quiet w (mem_gcbWithout hw),
        h.orderly.without tskid, fun hw => (List.length_filter_le _ _).trans (h.single hw), h.met,
        h.counted⟩
  | chgPri w priority hw htpri =>
      refine ⟨?_, ?_, h.orderly.changePriority htpri, ?_, h.met, h.counted⟩
      · intro x hx
        obtain rfl | hx := mem_gcbChangePriority hx
        · exact h.wants w hw
        · exact h.wants x hx
      · intro x hx
        obtain rfl | hx := mem_gcbChangePriority hx
        · exact h.quiet w hw
        · exact h.quiet x hx
      · exact fun hmul => (length_gcbChangePriority hw priority).trans (h.single hmul)

theorem good_creFlg (tpri wmul nodiswai : Bool) (iflgptn : UINT) :
    Good iflgptn ⟨creFlg tpri wmul nodiswai iflgptn, [], []⟩ :=
  ⟨fun _ hw => absurd hw List.not_mem_nil, fun _ hw => absurd hw List.not_mem_nil,
    ⟨List.nodup_nil, fun _ => .nil⟩, fun _ => Nat.zero_le 1,
    fun _ hg => absurd hg List.not_mem_nil, fun _ => (Nat.zero_add _).le⟩

end BTron.TKernel.EventFlag
