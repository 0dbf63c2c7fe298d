import BTron.Lib.Run
import BTron.Lib.Search
import BTron.Process

namespace BTron.Process

open Lib
open IpcMsg (Message)

-- The table with the pids `cre_prc` has returned and `ter_prc` has not yet taken back.
structure World where
  procs : Procs
  live : List Int

def World.start : World := ⟨.start, []⟩

inductive Call
  | cre (lnk : Option Link) (pri : Int) (msg : Option Message)
  | ter (pid code opt : Int)
  | chg (id pri opt : Int)

def exec (w : World) : Call → World
  | .cre lnk pri msg =>
    let (s, pid, _) := crePrc w.procs lnk pri msg
    ⟨s, if 0 ≤ pid then pid :: w.live else w.live⟩
  | .ter pid code opt =>
    let (s, er) := terPrc w.procs pid code opt
    ⟨s, if er = E_OK then w.live.erase pid else w.live⟩
  | .chg id pri opt => ⟨(chgPri w.procs id pri opt).1, w.live⟩

def Step (w : World) (c : Call) (w' : World) : Prop := w' = exec w c

structure Sound (w : World) : Prop where
  -- live processes have different pids
  distinct : ∀ i j, (w.procs.procs i).active = true → (w.procs.procs j).active = true →
    (w.procs.procs i).pid = (w.procs.procs j).pid → i = j
  chg : ∀ pid ∈ w.live, ∀ pri opt, 0 ≤ pri → pri ≤ 255 → (chgPri w.procs pid pri opt).2 = E_OK
  ter : ∀ pid ∈ w.live, ∀ code opt, (terPrc w.procs pid code opt).2 = E_OK
  creates : ∀ lnk pri msg, 0 ≤ pri → pri ≤ 255 → w.live.length < maxProcesses - 1 →
    0 < (crePrc w.procs lnk pri msg).2.1

-- No process is created once the counter has reached the table size.
def Fits (w : World) : Call → Prop
  | .cre _ pri _ =>
    0 ≤ pri → pri ≤ 255 → findFree (procInitOnce w.procs) ≠ none →
      w.procs.nextPid < maxProcesses
  | .ter .. | .chg .. => True

-- The active slots of an initialized table are the root and the live processes.
structure Within (s : Procs) (live : List Int) : Prop where
  root : (s.procs 0).active = true ∧ (s.procs 0).pid = 0
  child : ∀ i, i ≠ 0 → (s.procs i).active = true → (s.procs i).pid ∈ live
  slot : ∀ pid ∈ live, ∃ i, i ≠ 0 ∧ (s.procs i).active = true ∧ (s.procs i).pid = pid
  distinct : ∀ i j, (s.procs i).active = true → (s.procs j).active = true →
    (s.procs i).pid = (s.procs j).pid → i = j
  pos : ∀ pid ∈ live, 0 < pid ∧ pid < s.nextPid
  next : 0 < s.nextPid ∧ s.nextPid ≤ maxProcesses
  nodup : live.Nodup

structure World.Inv (w : World) : Prop where
  blank : w.procs.init = false → ∀ i, (w.procs.procs i).active = false
  within : Within (procInitOnce w.procs) w.live

theorem procInitOnce_init (s : Procs) : (procInitOnce s).init = true := by
  unfold procInitOnce
  split
  · assumption
  · rfl

theorem procInitOnce_of_init {s : Procs} (h : s.init = true) : procInitOnce s = s := if_pos h

theorem procInitOnce_idem (s : Procs) : procInitOnce (procInitOnce s) = procInitOnce s :=
  procInitOnce_of_init (procInitOnce_init s)

theorem procInitOnce_nextPid (s : Procs) : (procInitOnce s).nextPid = s.nextPid := by
  unfold procInitOnce
  split <;> rfl

theorem findFree_eq_some {s : Procs} {i : Fin maxProcesses} (h : findFree s = some i) :
    i ≠ 0 ∧ (s.procs i).active = false := by
  have hi := Fin.eq_true_of_find?_eq_some h
  simpa using hi

theorem exists_findFree {s : Procs} {i : Fin maxProcesses} (h0 : i ≠ 0)
    (h : (s.procs i).active = false) : ∃ j, findFree s = some j := by
  apply Option.isSome_iff_exists.mp
  apply Fin.isSome_find?_of_eq_true (i := i)
  simp [h0, h]

theorem findChild_eq_some {s : Procs} {pid : Int} {i : Fin maxProcesses}
    (h : findChild s pid = some i) :
    i ≠ 0 ∧ (s.procs i).active = true ∧ (s.procs i).pid = pid := by
  have hi := Fin.eq_true_of_find?_eq_some h
  simpa [and_assoc] using hi

theorem exists_findChild {s : Procs} {pid : Int} {i : Fin maxProcesses} (h0 : i ≠ 0)
    (h : (s.procs i).active = true) (hpid : (s.procs i).pid = pid) :
    ∃ j, findChild s pid = some j := by
  apply Option.isSome_iff_exists.mp
  apply Fin.isSome_find?_of_eq_true (i := i)
  simp [h0, h, hpid]

theorem exists_findProc {s : Procs} {pid : Int} {i : Fin maxProcesses}
    (h : (s.procs i).active = true) (hpid : (s.procs i).pid = pid) :
    ∃ j, findProc s pid = some j := by
  apply Option.isSome_iff_exists.mp
  apply Fin.isSome_find?_of_eq_true (i := i)
  simp [h, hpid]

theorem crePrc_of_free {s : Procs} (lnk : Option Link) {pri : Int} (msg : Option Message)
    {i : Fin maxProcesses} (h0 : 0 ≤ pri) (h255 : pri ≤ 255)
    (hfree : findFree (procInitOnce s) = some i) :
    ∃ p : Proc, p.active = true ∧ p.pid = s.nextPid ∧
      (crePrc s lnk pri msg).1 =
        { (procInitOnce s).modify i fun _ => p with nextPid := succPid s.nextPid } ∧
      (crePrc s lnk pri msg).2.1 = s.nextPid := by
  refine ⟨⟨s.nextPid, pri, lnk.getD ((procInitOnce s).procs i).link, true, 0⟩, rfl, rfl, ?_⟩
  unfold crePrc
  rw [if_neg (by omega)]
  simp only [hfree, procInitOnce_nextPid]
  exact ⟨rfl, trivial⟩

theorem crePrc_of_full {s : Procs} (lnk : Option Link) {pri : Int} (msg : Option Message)
    (h0 : 0 ≤ pri) (h255 : pri ≤ 255) (hfull : findFree (procInitOnce s) = none) :
    crePrc s lnk pri msg = (procInitOnce s, ER_NOSPC, none) := by
  unfold crePrc
  rw [if_neg (by omega)]
  simp only [hfull]

theorem terPrc_of_found {s : Procs} {pid code opt : Int} {i : Fin maxProcesses} (h0 : 0 < pid)
    (h32 : pid < 32) (hfound : findChild (procInitOnce s) pid = some i) :
    terPrc s pid code opt =
      ((procInitOnce s).modify i fun p => { p with active := false, exitCode := code }, E_OK) := by
  unfold terPrc
  rw [if_neg (by simp only [maxProcesses]; omega)]
  simp only [hfound]

theorem chgPri_of_found {s : Procs} {id pri opt : Int} {i : Fin maxProcesses} (h0 : 0 ≤ pri)
    (h255 : pri ≤ 255) (hid : 0 ≤ id) (h32 : id < 32)
    (hfound : findProc (procInitOnce s) id = some i) :
    chgPri s id pri opt =
      ((procInitOnce s).modify i fun p => { p with priority := pri }, E_OK) := by
  unfold chgPri
  rw [if_neg (by omega), if_neg (by simp only [maxProcesses]; omega)]
  simp only [hfound]

-- What `ter_prc` does: it ends the process with the pid, or fails.
theorem terPrc_cases (s : Procs) (pid code opt : Int) :
    (∃ i, findChild (procInitOnce s) pid = some i ∧ terPrc s pid code opt =
        ((procInitOnce s).modify i fun p => { p with active := false, exitCode := code }, E_OK)) ∨
      ((terPrc s pid code opt).1 = s ∨ (terPrc s pid code opt).1 = procInitOnce s) ∧
        (terPrc s pid code opt).2 ≠ E_OK := by
  by_cases hpid : pid ≤ 0 ∨ pid ≥ maxProcesses
  · have hfail : terPrc s pid code opt = (s, ER_ID) := by
      unfold terPrc
      rw [if_pos hpid]
    rw [hfail]
    exact .inr ⟨.inl rfl, (by decide : ER_ID ≠ E_OK)⟩
  · have hrange : 0 < pid ∧ pid < 32 := by
      simp only [maxProcesses] at hpid
      omega
    cases hfound : findChild (procInitOnce s) pid with
    | some i => exact .inl ⟨i, rfl, terPrc_of_found hrange.1 hrange.2 hfound⟩
    | none =>
        have hfail : terPrc s pid code opt = (procInitOnce s, ER_NOEXS) := by
          unfold terPrc
          rw [if_neg hpid]
          simp only [hfound]
        rw [hfail]
        exact .inr ⟨.inr rfl, (by decide : ER_NOEXS ≠ E_OK)⟩

-- `chg_pri` changes at most the priority of one process.
theorem chgPri_cases (s : Procs) (id pri opt : Int) :
    (chgPri s id pri opt).1 = s ∨ (chgPri s id pri opt).1 = procInitOnce s ∨
      ∃ i, (chgPri s id pri opt).1 =
        (procInitOnce s).modify i fun p => { p with priority := pri } := by
  by_cases hpri : pri < 0 ∨ pri > 255
  · left
    unfold chgPri
    rw [if_pos hpri]
  · by_cases hid : id < 0 ∨ id ≥ maxProcesses
    · left
      unfold chgPri
      rw [if_neg hpri, if_pos hid]
    · have hrange : 0 ≤ id ∧ id < 32 := by
        simp only [maxProcesses] at hid
        omega
      right
      cases hfound : findProc (procInitOnce s) id with
      | some i =>
          right
          exact ⟨i, by rw [chgPri_of_found (by omega) (by omega) hrange.1 hrange.2 hfound]⟩
      | none =>
          left
          unfold chgPri
          rw [if_neg hpri, if_neg hid]
          simp only [hfound]

-- The slots keep who is active under which pid.
theorem Within.congr {s s' : Procs} {live : List Int} (h : Within s live)
    (hnext : s'.nextPid = s.nextPid)
    (hprocs : ∀ i, (s'.procs i).active = (s.procs i).active ∧ (s'.procs i).pid = (s.procs i).pid) :
    Within s' live := by
  constructor
  · rw [(hprocs 0).1, (hprocs 0).2]
    exact h.root
  · intro i h0 hi
    rw [(hprocs i).1] at hi
    rw [(hprocs i).2]
    exact h.child i h0 hi
  · intro pid hpid
    obtain ⟨i, h0, hi, hp⟩ := h.slot pid hpid
    exact ⟨i, h0, (hprocs i).1.trans hi, (hprocs i).2.trans hp⟩
  · intro i j hi hj hij
    rw [(hprocs i).1] at hi
    rw [(hprocs j).1] at hj
    rw [(hprocs i).2, (hprocs j).2] at hij
    exact h.distinct i j hi hj hij
  · rw [hnext]
    exact h.pos
  · rw [hnext]
    exact h.next
  · exact h.nodup

-- A free slot is left while fewer than the others are live.
theorem Within.exists_free {s : Procs} {live : List Int} (h : Within s live)
    (hlive : live.length < maxProcesses - 1) : ∃ i, findFree s = some i := by
  have hfree : ∃ i, ¬(s.procs i).active = true := by
    apply exists_free_slot _ (fun i => (s.procs i).pid) (insert 0 live.toFinset)
    · intro i hi
      by_cases h0 : i = 0
      · subst h0
        rw [h.root.2]
        exact Finset.mem_insert_self _ _
      · exact Finset.mem_insert_of_mem (List.mem_toFinset.mpr (h.child i h0 hi))
    · exact h.distinct
    · have hinsert := Finset.card_insert_le 0 live.toFinset
      have hlength := List.toFinset_card_le live
      simp only [maxProcesses] at hlive ⊢
      omega
  obtain ⟨i, hi⟩ := hfree
  have h0 : i ≠ 0 := by
    rintro rfl
    exact hi h.root.1
  exact exists_findFree h0 (by simpa using hi)

theorem Within.create {s : Procs} {live : List Int} (h : Within s live) {i : Fin maxProcesses}
    (hi : i ≠ 0) (hfree : (s.procs i).active = false) {p : Proc} (hactive : p.active = true)
    (hpid : p.pid = s.nextPid) (hnext : s.nextPid < maxProcesses) :
    Within { s.modify i fun _ => p with nextPid := succPid s.nextPid } (s.nextPid :: live) := by
  have hsucc : succPid s.nextPid = s.nextPid + 1 := by
    simp only [maxProcesses] at hnext
    rw [succPid, if_neg (by omega)]
  have hself : (s.modify i fun _ => p).procs i = p := Procs.modify_self ..
  have hother : ∀ {j}, j ≠ i → (s.modify i fun _ => p).procs j = s.procs j :=
    fun hj => Procs.modify_of_ne _ hj
  -- a live pid is an older one
  have hold : ∀ {j}, j ≠ i → (s.procs j).active = true → (s.procs j).pid ≠ s.nextPid := by
    intro j _ hj heq
    by_cases h0 : j = 0
    · subst h0
      have hroot := h.root.2
      have hpos := h.next.1
      omega
    · have hlt := (h.pos _ (h.child j h0 hj)).2
      omega
  constructor
  · simp only [hother hi.symm]
    exact h.root
  · intro j h0 hj
    by_cases hji : j = i
    · subst hji
      simp only [hself, hpid, List.mem_cons_self]
    · simp only [hother hji] at hj ⊢
      exact List.mem_cons_of_mem _ (h.child j h0 hj)
  · intro pid hmem
    obtain rfl | hmem := List.mem_cons.mp hmem
    · exact ⟨i, hi, by simp only [hself, hactive], by simp only [hself, hpid]⟩
    · obtain ⟨j, h0, hj, hp⟩ := h.slot pid hmem
      have hji : j ≠ i := by
        rintro rfl
        exact Bool.false_ne_true (hfree.symm.trans hj)
      exact ⟨j, h0, by simp only [hother hji, hj], by simp only [hother hji, hp]⟩
  · intro j k hj hk hjk
    by_cases hji : j = i
    · by_cases hki : k = i
      · exact hji.trans hki.symm
      · subst hji
        simp only [hself, hother hki] at hk hjk
        exact absurd (hjk.symm.trans hpid) (hold hki hk)
    · by_cases hki : k = i
      · subst hki
        simp only [hself, hother hji] at hj hjk
        exact absurd (hjk.trans hpid) (hold hji hj)
      · simp only [hother hji, hother hki] at hj hk hjk
        exact h.distinct j k hj hk hjk
  · intro pid hmem
    simp only [hsucc]
    obtain rfl | hmem := List.mem_cons.mp hmem
    · exact ⟨h.next.1, by omega⟩
    · obtain ⟨hpos, hlt⟩ := h.pos pid hmem
      exact ⟨hpos, by omega⟩
  · simp only [hsucc]
    have hpos := h.next.1
    exact ⟨by omega, by omega⟩
  · refine List.nodup_cons.mpr ⟨fun hmem => ?_, h.nodup⟩
    have hlt := (h.pos _ hmem).2
    omega

theorem Within.finish {s : Procs} {live : List Int} (h : Within s live) {i : Fin maxProcesses}
    {pid : Int} (hi : i ≠ 0) (hactive : (s.procs i).active = true)
    (hpid : (s.procs i).pid = pid) (code : Int) :
    Within (s.modify i fun p => { p with active := false, exitCode := code })
      (live.erase pid) := by
  have hself : ((s.modify i fun p => { p with active := false, exitCode := code }).procs i).active =
      false := by
    rw [Procs.modify_self]
  have hother : ∀ {j}, j ≠ i →
      (s.modify i fun p => { p with active := false, exitCode := code }).procs j = s.procs j :=
    fun hj => Procs.modify_of_ne _ hj
  -- the slots still active are not the one that was ended
  have hne : ∀ {j}, ((s.modify i fun p =>
      { p with active := false, exitCode := code }).procs j).active = true → j ≠ i := by
    rintro j hj rfl
    exact Bool.false_ne_true (hself.symm.trans hj)
  constructor
  · rw [hother hi.symm]
    exact h.root
  · intro j h0 hj
    have hji := hne hj
    rw [hother hji] at hj ⊢
    have hmem := h.child j h0 hj
    rw [List.Nodup.mem_erase_iff h.nodup]
    exact ⟨fun heq => hji (h.distinct j i hj hactive (heq.trans hpid.symm)), hmem⟩
  · intro q hq
    rw [List.Nodup.mem_erase_iff h.nodup] at hq
    obtain ⟨j, h0, hj, hp⟩ := h.slot q hq.2
    have hji : j ≠ i := by
      rintro rfl
      exact hq.1 (hp.symm.trans hpid)
    exact ⟨j, h0, by rw [hother hji, hj], by rw [hother hji, hp]⟩
  · intro j k hj hk hjk
    have hji := hne hj
    have hki := hne hk
    rw [hother hji] at hj hjk
    rw [hother hki] at hk hjk
    exact h.distinct j k hj hk hjk
  · exact fun q hq => h.pos q (List.mem_of_mem_erase hq)
  · exact h.next
  · exact h.nodup.erase pid

theorem World.Inv.sound {w : World} (h : w.Inv) : Sound w := by
  have hrange : ∀ pid ∈ w.live, 0 < pid ∧ pid < 32 := by
    intro pid hpid
    have hpos := h.within.pos pid hpid
    have hnext := h.within.next
    simp only [maxProcesses] at hnext
    omega
  constructor
  · intro i j hi hj hij
    cases hinit : w.procs.init with
    | false => exact absurd hi (by simp [h.blank hinit i])
    | true =>
        have hdistinct := h.within.distinct
        rw [procInitOnce_of_init hinit] at hdistinct
        exact hdistinct i j hi hj hij
  · intro pid hpid pri opt h0 h255
    obtain ⟨i, -, hi, hp⟩ := h.within.slot pid hpid
    obtain ⟨j, hj⟩ := exists_findProc hi hp
    obtain ⟨hpos, hlt⟩ := hrange pid hpid
    rw [chgPri_of_found h0 h255 (Int.le_of_lt hpos) hlt hj]
  · intro pid hpid code opt
    obtain ⟨i, h0, hi, hp⟩ := h.within.slot pid hpid
    obtain ⟨j, hj⟩ := exists_findChild h0 hi hp
    obtain ⟨hpos, hlt⟩ := hrange pid hpid
    rw [terPrc_of_found hpos hlt hj]
  · intro lnk pri msg h0 h255 hlive
    obtain ⟨i, hi⟩ := h.within.exists_free hlive
    obtain ⟨p, -, -, -, hpid⟩ := crePrc_of_free lnk msg h0 h255 hi
    rw [hpid, ← procInitOnce_nextPid]
    exact h.within.next.1

theorem inv_of_within {s : Procs} {live : List Int} (hinit : s.init = true) (h : Within s live) :
    World.Inv ⟨s, live⟩ := by
  refine ⟨fun hfalse => ?_, ?_⟩
  · rw [hinit] at hfalse
    cases hfalse
  · simp only [procInitOnce_of_init hinit]
    exact h

theorem World.Inv.initialized {w : World} (h : w.Inv) :
    World.Inv ⟨procInitOnce w.procs, w.live⟩ :=
  inv_of_within (procInitOnce_init _) h.within

theorem inv_cre {w : World} (h : w.Inv) {lnk : Option Link} {pri : Int} {msg : Option Message}
    (hfits : Fits w (.cre lnk pri msg)) : (exec w (.cre lnk pri msg)).Inv := by
  by_cases hpri : pri < 0 ∨ pri > 255
  · have hfail : crePrc w.procs lnk pri msg = (w.procs, ER_PAR, none) := by
      unfold crePrc
      rw [if_pos hpri]
    simp only [exec, hfail]
    rw [if_neg (by decide)]
    exact h
  · cases hfree : findFree (procInitOnce w.procs) with
    | none =>
        have h0 : 0 ≤ pri := by omega
        have hfull := crePrc_of_full lnk msg h0 (by omega) hfree
        simp only [exec, hfull]
        rw [if_neg (by decide)]
        exact h.initialized
    | some i =>
        have hnext := hfits (by omega) (by omega) (by simp [hfree])
        have h0 : 0 ≤ pri := by omega
        obtain ⟨p, hactive, hpid, hs, hret⟩ := crePrc_of_free lnk msg h0 (by omega) hfree
        obtain ⟨hi, hinactive⟩ := findFree_eq_some hfree
        have hpos := h.within.next.1
        simp only [exec, hs, hret]
        rw [procInitOnce_nextPid] at hpos
        rw [if_pos (Int.le_of_lt hpos)]
        rw [← procInitOnce_nextPid] at hpid hnext ⊢
        exact inv_of_within (procInitOnce_init _)
          (h.within.create hi hinactive hactive hpid hnext)

theorem inv_step {w w' : World} {c : Call} (h : w.Inv) (hfits : Fits w c) (hstep : Step w c w') :
    w'.Inv := by
  subst hstep
  cases c with
  | cre => exact inv_cre h hfits
  | ter pid code opt =>
      obtain ⟨i, hfound, hter⟩ | ⟨hsame, hfail⟩ := terPrc_cases w.procs pid code opt
      · obtain ⟨hi, hactive, hpid⟩ := findChild_eq_some hfound
        simp only [exec, hter, if_true]
        exact inv_of_within (procInitOnce_init _) (h.within.finish hi hactive hpid code)
      · simp only [exec, if_neg hfail]
        obtain hs | hs := hsame
        · rw [hs]
          exact h
        · rw [hs]
          exact h.initialized
  | chg id pri opt =>
      simp only [exec]
      obtain hs | hs | ⟨i, hs⟩ := chgPri_cases w.procs id pri opt
      · rw [hs]
        exact h
      · rw [hs]
        exact h.initialized
      · rw [hs]
        refine inv_of_within (procInitOnce_init _) (h.within.congr rfl fun j => ?_)
        by_cases hji : j = i
        · subst hji
          simp
        · simp [Procs.modify_of_ne _ hji]

-- A process created past the counter's limit cannot be terminated.
theorem fits_of_sound {w w' : World} {c : Call} (h : w.Inv) (hstep : Step w c w')
    (hsound : Sound w') : Fits w c := by
  subst hstep
  cases c with
  | ter | chg => trivial
  | cre lnk pri msg =>
      intro h0 h255 hfree
      obtain ⟨i, hi⟩ := Option.ne_none_iff_exists'.mp hfree
      obtain ⟨p, -, -, -, hret⟩ := crePrc_of_free lnk msg h0 h255 hi
      have hpos := h.within.next.1
      rw [procInitOnce_nextPid] at hpos
      have hmem : w.procs.nextPid ∈ (exec w (.cre lnk pri msg)).live := by
        simp only [exec, hret, if_pos (Int.le_of_lt hpos), List.mem_cons_self]
      have hter := hsound.ter _ hmem 0 0
      by_contra hlarge
      unfold terPrc at hter
      rw [if_pos (.inr (Int.not_lt.mp hlarge))] at hter
      exact absurd hter (by decide : ER_ID ≠ E_OK)

theorem inv_start : World.start.Inv := by
  refine ⟨fun _ _ => rfl, ?_⟩
  have hprocs : ∀ i, i ≠ 0 → ((procInitOnce World.start.procs).procs i).active = false := by
    intro i hi
    simp [World.start, Procs.start, procInitOnce, Function.update_of_ne hi, Proc.zero]
  constructor
  · exact ⟨rfl, rfl⟩
  · intro i hi hactive
    exact absurd hactive (by simp [hprocs i hi])
  · intro pid hpid
    cases hpid
  · intro i j hi hj _
    have hroot : ∀ {k}, ((procInitOnce World.start.procs).procs k).active = true → k = 0 := by
      intro k hk
      by_contra h0
      exact absurd hk (by simp [hprocs k h0])
    exact (hroot hi).trans (hroot hj).symm
  · intro pid hpid
    cases hpid
  · decide
  · exact List.nodup_nil

-- All the pids handed out are accepted as long as the counter stays below the table size.
theorem pids_iff (tr : List (World × Call)) (w : World) (htr : Trace Step .start tr w) :
    (Sound w ∧ ∀ t ∈ tr, Sound t.1) ↔ ∀ t ∈ tr, Fits t.1 t.2 := by
  apply htr.forall_iff_while (I := World.Inv) inv_start
  · exact fun _ => World.Inv.sound
  · exact fun _ _ _ => inv_step
  · exact fun _ _ _ => fits_of_sound

theorem run_trace (cs : List Call) : ∃ tr, Trace Step .start tr (cs.foldl exec .start) := by
  induction cs using List.reverseRecOn with
  | nil => exact ⟨[], .start⟩
  | append_singleton cs c ih =>
      obtain ⟨tr, htr⟩ := ih
      rw [List.foldl_append]
      exact ⟨_, htr.next rfl⟩

-- A process is created and terminated.
theorem pids_iff_one :
    ∃ tr w, Trace Step .start tr w ∧ w.procs.nextPid = 2 ∧
      ((Sound w ∧ ∀ t ∈ tr, Sound t.1) ↔ ∀ t ∈ tr, Fits t.1 t.2) := by
  obtain ⟨tr, htr⟩ := run_trace [.cre none 10 none, .ter 1 0 0]
  exact ⟨tr, _, htr, by decide +kernel, pids_iff tr _ htr⟩

-- Processes created and terminated one after the other: the 32nd gets a pid that neither
-- `ter_prc` nor `chg_pri` accepts.
theorem pid_32_refused :
    ∃ tr w, Trace Step .start tr w ∧ w.live = [32] ∧ (terPrc w.procs 32 0 0).2 = ER_ID ∧
      (chgPri w.procs 32 10 0).2 = ER_ID := by
  obtain ⟨tr, htr⟩ := run_trace
    ((List.range 31).flatMap (fun n => [.cre none 10 none, .ter (n + 1) 0 0]) ++
      [.cre none 10 none])
  exact ⟨tr, _, htr, by decide +kernel, by decide, by decide⟩

end BTron.Process
