import BTron.FsRecord.Cases

namespace BTron.FsRecord

open Lib

-- A call as a program makes it.
inductive Call
  | op (op : Op)
  | insRec (fd recIdx : Int) (buf : Option Memory) (sz : Int)

def Call.exec (s : Fs) : Call → Fs × ER
  | .op o => o.exec s
  | .insRec fd recIdx buf sz => FsRecord.insRec s fd recIdx buf sz

def recordInUse (s : Fs) (fd recIdx : Int) : Prop :=
  ((s.files (slot fd)).records recIdx.toNat).inUse = true

-- The tables a call works on are those after fs_init_once. A failing call can change them in two
-- ways only: `opn_rec` sets up the record before it looks for a handle, and `ins_rec` opens the
-- record before it looks at the buffer.
def KeepsTables (s : Fs) : Call → Prop
  | .op (.opnRec fd recIdx _) =>
    Names (fsInitOnce s) fd recIdx → recordInUse (fsInitOnce s) fd recIdx
  | .insRec fd recIdx _ _ =>
    Names (fsInitOnce s) fd recIdx → recordInUse (fsInitOnce s) fd recIdx ∧
      ∀ i, findFreeRec (fsInitOnce s) = some i →
        (fsInitOnce s).openRecs i = ⟨fd, recIdx, F_WRITE, 0, false⟩
  | _ => True

theorem Failed.keeps {s : Fs} {r : Fs × ER} (h : Failed s r) : fsInitOnce r.1 = fsInitOnce s := by
  obtain ⟨heq | heq, -⟩ := h
  · rw [heq]
  · rw [heq, fsInitOnce_idem]

theorem ok_not_error {s : Fs} {r : Fs × ER} (h : r = (s, E_OK)) : ¬r.2 < 0 := by
  rw [h]
  exact Int.lt_irrefl 0

theorem id_not_error {s : Fs} {r : Fs × ER} {i : Nat} (h : r = (s, (i : Int) + 1)) : ¬r.2 < 0 := by
  rw [h]
  exact Int.not_lt.mpr (Int.natCast_nonneg (i + 1))

theorem opnFil_error {s : Fs} {path : Option (List UB)} {mode : Nat}
    (h : (opnFil s path mode).2 < 0) : fsInitOnce (opnFil s path mode).1 = fsInitOnce s := by
  obtain hfail | ⟨_, _, _, _, heq⟩ | ⟨_, _, _, _, _, _, heq⟩ := opnFil_cases s path mode
  · exact hfail.keeps
  · exact absurd h (id_not_error heq)
  · exact absurd h (id_not_error heq)

theorem wrRec_error {s : Fs} {recId sz : Int} {buf : Option Memory}
    (h : (wrRec s recId buf sz).2 < 0) : (wrRec s recId buf sz).1 = s := by
  obtain ⟨heq, -⟩ | ⟨_, _, _, _, _, _, _, _, heq⟩ := wrRec_cases s recId buf sz
  · exact heq
  · exact absurd h (ok_not_error heq)

theorem inUse_autoCreate (s : Fs) (fd recIdx : Int) :
    recordInUse (autoCreate s fd recIdx) fd recIdx := by
  unfold recordInUse autoCreate
  split
  · assumption
  · simp [Fs.modifyRec, Fs.modifyFile]

theorem autoCreate_eq_iff {s : Fs} {fd recIdx : Int} :
    autoCreate s fd recIdx = s ↔ recordInUse s fd recIdx := by
  constructor
  · intro h
    have huse := inUse_autoCreate s fd recIdx
    rwa [h] at huse
  · intro h
    exact if_pos h

theorem findFreeRec_lt {s : Fs} {i : Nat} (h : findFreeRec s = some i) : i < maxOpenRecs := by
  have hmem := List.mem_of_find?_eq_some h
  rwa [List.mem_range] at hmem

theorem slot_succ (i : Nat) : slot ((i : Int) + 1) = i := by
  simp [slot]

theorem opnRec_error_iff {s : Fs} {fd recIdx : Int} {mode : Nat}
    (h : (opnRec s fd recIdx mode).2 < 0) :
    fsInitOnce (opnRec s fd recIdx mode).1 = fsInitOnce s ↔
      (Names (fsInitOnce s) fd recIdx → recordInUse (fsInitOnce s) fd recIdx) := by
  obtain ⟨hfail, hnames⟩ | ⟨hnames, -, heq⟩ | ⟨i, -, -, heq⟩ := opnRec_cases s fd recIdx mode
  · exact ⟨fun _ h => absurd h hnames, fun _ => hfail.keeps⟩
  · rw [heq, fsInitOnce_of_init (by simp), autoCreate_eq_iff]
    exact ⟨fun h _ => h, fun h => h hnames⟩
  · exact absurd h (id_not_error heq)

-- What is left of a handle that was opened and closed again.
theorem insRec_eq {s : Fs} {fd recIdx sz : Int} {buf : Option Memory} {i : Nat}
    (hnames : Names (fsInitOnce s) fd recIdx) (hfree : findFreeRec (fsInitOnce s) = some i)
    (herr : (insRec s fd recIdx buf sz).2 < 0) :
    (insRec s fd recIdx buf sz).1 = (autoCreate (fsInitOnce s) fd recIdx).modifyOpenRec i
      fun _ => ⟨fd, recIdx, F_WRITE, 0, false⟩ := by
  obtain ⟨-, hno⟩ | ⟨-, hnone, -⟩ | ⟨k, -, hk, hopen⟩ := opnRec_cases s fd recIdx F_WRITE
  · exact absurd hnames hno
  · simp [hfree] at hnone
  · obtain rfl := Option.some.inj (hfree.symm.trans hk)
    have hlt := findFreeRec_lt hfree
    have hid : ¬badRecId ((i : Int) + 1) := by
      unfold badRecId
      omega
    have hpos : ¬(i : Int) + 1 ≤ 0 := by omega
    unfold insRec at herr ⊢
    simp only [hopen] at herr ⊢
    rw [if_neg hpos] at herr ⊢
    simp only at herr ⊢
    rw [wrRec_error herr, clsRec, if_neg hid, slot_succ]
    simp [Fs.modifyOpenRec]

theorem insRec_error_iff {s : Fs} {fd recIdx sz : Int} {buf : Option Memory}
    (h : (insRec s fd recIdx buf sz).2 < 0) :
    fsInitOnce (insRec s fd recIdx buf sz).1 = fsInitOnce s ↔
      KeepsTables s (.insRec fd recIdx buf sz) := by
  have hstop : (opnRec s fd recIdx F_WRITE).2 < 0 →
      insRec s fd recIdx buf sz = opnRec s fd recIdx F_WRITE := by
    intro hneg
    unfold insRec
    simp only
    rw [if_pos (Int.le_of_lt hneg)]
  simp only [KeepsTables]
  obtain ⟨hfail, hnames⟩ | ⟨hnames, hnone, heq⟩ | ⟨i, hnames, hfree, heq⟩ :=
    opnRec_cases s fd recIdx F_WRITE
  · rw [hstop hfail.error]
    exact ⟨fun _ h => absurd h hnames, fun _ => hfail.keeps⟩
  · have hneg : (opnRec s fd recIdx F_WRITE).2 < 0 := by
      rw [heq]
      exact (by decide : ER_NOSPC < 0)
    rw [hstop hneg, heq, fsInitOnce_of_init (by simp), autoCreate_eq_iff]
    refine ⟨fun huse _ => ⟨huse, fun i hi => ?_⟩, fun h => (h hnames).1⟩
    simp [hnone] at hi
  · rw [insRec_eq hnames hfree h, fsInitOnce_of_init (by simp)]
    constructor
    · intro hsame _
      have huse : recordInUse (fsInitOnce s) fd recIdx := by
        rw [← hsame]
        exact inUse_autoCreate (fsInitOnce s) fd recIdx
      refine ⟨huse, fun k hk => ?_⟩
      obtain rfl := Option.some.inj (hfree.symm.trans hk)
      rw [← hsame]
      simp [Fs.modifyOpenRec]
    · intro hkeep
      obtain ⟨huse, hslot⟩ := hkeep hnames
      rw [autoCreate_eq_iff.mpr huse, Fs.modifyOpenRec, ← hslot i hfree, Function.update_eq_self]

theorem exec_error_iff (s : Fs) (o : Op) (h : (o.exec s).2 < 0) :
    fsInitOnce (o.exec s).1 = fsInitOnce s ↔ KeepsTables s (.op o) := by
  cases o with
  | opnFil path mode | creFil path mode => exact iff_of_true (opnFil_error h) trivial
  | clsFil fd =>
      obtain hfail | heq := clsFil_cases s fd
      · exact iff_of_true hfail.keeps trivial
      · exact absurd h (ok_not_error heq)
  | delFil path =>
      obtain hfail | ⟨_, _, _, _, heq⟩ := delFil_cases s path
      · exact iff_of_true hfail.keeps trivial
      · exact absurd h (ok_not_error heq)
  | chgFil fd mode =>
      obtain hfail | heq := chgFil_cases s fd mode
      · exact iff_of_true hfail.keeps trivial
      · exact absurd h (ok_not_error heq)
  | movFil src dst =>
      obtain hfail | ⟨_, _, _, _, _, _, heq⟩ := movFil_cases s src dst
      · exact iff_of_true hfail.keeps trivial
      · exact absurd h (ok_not_error heq)
  | opnRec fd recIdx mode => exact opnRec_error_iff h
  | clsRec recId =>
      obtain hfail | heq := clsRec_cases s recId
      · exact iff_of_true hfail.keeps trivial
      · exact absurd h (ok_not_error heq)
  | rdRec recId buf sz =>
      obtain ⟨heq, -⟩ | ⟨n, -, -, -, heq⟩ := rdRec_cases s recId buf sz
      · exact iff_of_true (congrArg fsInitOnce heq) trivial
      · simp only [Op.exec, heq] at h
        exact absurd h (Int.lt_irrefl 0)
  | wrRec recId buf sz => exact iff_of_true (congrArg fsInitOnce (wrRec_error h)) trivial
  | delRec fd recIdx =>
      obtain hfail | heq := delRec_cases s fd recIdx
      · exact iff_of_true hfail.keeps trivial
      · exact absurd h (ok_not_error heq)
  | posRec recId offset origin =>
      obtain hfail | ⟨-, _, heq⟩ := posRec_cases s recId offset origin
      · exact iff_of_true hfail.keeps trivial
      · exact absurd h (ok_not_error heq)
  | trnRec recId sz =>
      obtain ⟨heq, -⟩ | ⟨_, _, _, _, _, _, heq⟩ := trnRec_cases s recId sz
      · exact iff_of_true (congrArg fsInitOnce heq) trivial
      · exact absurd h (ok_not_error heq)

theorem atomic_iff (s : Fs) (c : Call) (h : (c.exec s).2 < 0) :
    fsInitOnce (c.exec s).1 = fsInitOnce s ↔ KeepsTables s c := by
  cases c with
  | op o => exact exec_error_iff s o h
  | insRec fd recIdx buf sz => exact insRec_error_iff h

-- All sixteen handles opened on the record of /sys/startup.tad.
def noHandleLeft : Fs := runOps .start (List.replicate 16 (.opnRec 1 0 0))

theorem atomic_iff_noHandleLeft :
    fsInitOnce ((Call.op (.opnRec 1 1 0)).exec noHandleLeft).1 = fsInitOnce noHandleLeft ↔
      KeepsTables noHandleLeft (.op (.opnRec 1 1 0)) :=
  atomic_iff noHandleLeft (.op (.opnRec 1 1 0)) (by decide +kernel)

theorem noHandleLeft_sets_up_record :
    ((Call.op (.opnRec 1 1 0)).exec noHandleLeft).2 = ER_NOSPC ∧
      fsInitOnce ((Call.op (.opnRec 1 1 0)).exec noHandleLeft).1 ≠ fsInitOnce noHandleLeft := by
  refine ⟨by decide +kernel, fun h => ?_⟩
  have huse := congrArg (fun s => ((s.files 0).records 1).inUse) h
  have hafter : ((fsInitOnce ((Call.op (.opnRec 1 1 0)).exec noHandleLeft).1).files 0 |>.records
      1).inUse = true := by decide +kernel
  have hbefore : (((fsInitOnce noHandleLeft).files 0).records 1).inUse = false := by
    decide +kernel
  simp only [hafter, hbefore, Bool.true_eq_false] at huse

end BTron.FsRecord
