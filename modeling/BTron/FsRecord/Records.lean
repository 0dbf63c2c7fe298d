import BTron.FsRecord.Cases

namespace BTron.FsRecord

open Lib

-- Record `r` of file `i`.
def Fs.record (s : Fs) (i r : Nat) : Rec := (s.files i).records r

theorem OpenRec.target_eq (o : OpenRec) (s : Fs) :
    o.target s = s.record (slot o.fd) o.recIdx.toNat := rfl

-- Sizes and offsets stay within the array of a record.
structure Bounded (s : Fs) : Prop where
  size : ∀ i r, 0 ≤ (s.record i r).size ∧ (s.record i r).size ≤ maxRecordSize
  offset : ∀ h, 0 ≤ (s.openRecs h).offset ∧ (s.openRecs h).offset ≤ maxRecordSize

-- The record `(i, r)` becomes `x`, up to its in-use flag; the others keep size and data.
def RecSet (s s' : Fs) (i r : Nat) (data : Memory) (size : Int) : Prop :=
  ∀ j q, (s'.record j q).data = (if j = i ∧ q = r then data else (s.record j q).data) ∧
    (s'.record j q).size = if j = i ∧ q = r then size else (s.record j q).size

def SameRecs (s s' : Fs) : Prop :=
  ∀ j q, (s'.record j q).data = (s.record j q).data ∧ (s'.record j q).size = (s.record j q).size

-- What an operation does to the contents of the records.
inductive RecEffect (s s' : Fs) (op : Op) : Prop
  | same : op.write s = none → op.resize s = none → SameRecs s s' → RecEffect s s' op
  | clear {i r} : op.write s = none → op.resize s = none →
      RecSet s s' i r (s.record i r).data 0 → RecEffect s s' op
  | write {o n buf h} : op.write s = some (o, n, buf) → op.resize s = none →
      o = s.openRecs h → o.isOpen = true → 0 < n → n ≤ maxRecordSize - o.offset →
      RecSet s s' (slot o.fd) o.recIdx.toNat
        (overwrite (o.target s).data o.offset.toNat n.toNat buf)
        (if o.offset + n > (o.target s).size then o.offset + n else (o.target s).size) →
      RecEffect s s' op
  | resize {o sz h} : op.write s = none → op.resize s = some (o, sz) →
      o = s.openRecs h → o.isOpen = true → 0 ≤ sz → sz ≤ maxRecordSize →
      RecSet s s' (slot o.fd) o.recIdx.toNat (o.target s).data sz → RecEffect s s' op

-- What an operation does to the handles.
inductive HandleEffect (s s' : Fs) (op : Op) : Prop
  | same : s'.openRecs = s.openRecs → HandleEffect s s' op
  | move {h pos} : (s.openRecs h).isOpen = true →
      s'.openRecs = Function.update s.openRecs h { s.openRecs h with offset := pos } →
      (Bounded s → 0 ≤ pos ∧ pos ≤ maxRecordSize) → HandleEffect s s' op
  | opened {fd recIdx mode h} : op = .opnRec fd recIdx mode → Names s fd recIdx →
      (s.openRecs h).isOpen = false →
      s'.openRecs = Function.update s.openRecs h ⟨fd, recIdx, mode, 0, true⟩ →
      HandleEffect s s' op
  | closed {h} :
      s'.openRecs = Function.update s.openRecs h { s.openRecs h with isOpen := false } →
      HandleEffect s s' op

theorem SameRecs.refl (s : Fs) : SameRecs s s := fun _ _ => ⟨rfl, rfl⟩

theorem sameRecs_modifyFile {s : Fs} {i : Nat} {g : File → File}
    (hg : ∀ f, (g f).records = f.records) : SameRecs s (s.modifyFile i g) := by
  intro j q
  by_cases hj : j = i
  · subst hj
    simp [Fs.record, Fs.modifyFile, hg]
  · simp [Fs.record, Fs.modifyFile, hj]

theorem sameRecs_modifyOpenRec (s : Fs) (h : Nat) (g : OpenRec → OpenRec) :
    SameRecs s (s.modifyOpenRec h g) := fun _ _ => ⟨rfl, rfl⟩

theorem recSet_modifyRec (s : Fs) (i r : Nat) (g : Rec → Rec) :
    RecSet s (s.modifyRec i r g) i r (g (s.record i r)).data (g (s.record i r)).size := by
  intro j q
  by_cases hj : j = i
  · subst hj
    by_cases hq : q = r
    · subst hq
      simp [Fs.record, Fs.modifyRec, Fs.modifyFile]
    · simp [Fs.record, Fs.modifyRec, Fs.modifyFile, hq]
  · simp [Fs.record, Fs.modifyRec, Fs.modifyFile, hj]

theorem RecSet.trans_same {s s' s'' : Fs} {i r : Nat} {data : Memory} {size : Int}
    (h : RecSet s s' i r data size) (h' : SameRecs s' s'') : RecSet s s'' i r data size :=
  fun j q => ⟨(h' j q).1.trans (h j q).1, (h' j q).2.trans (h j q).2⟩

theorem recSet_autoCreate (s : Fs) (fd recIdx : Int) :
    SameRecs s (autoCreate s fd recIdx) ∨
      RecSet s (autoCreate s fd recIdx) (slot fd) recIdx.toNat
        (s.record (slot fd) recIdx.toNat).data 0 := by
  unfold autoCreate
  split
  · exact .inl (.refl s)
  · exact .inr ((recSet_modifyRec _ _ _ _).trans_same (sameRecs_modifyFile (by simp)))

@[simp] theorem openRecs_modifyFile (s : Fs) (i : Nat) (g : File → File) :
    (s.modifyFile i g).openRecs = s.openRecs := rfl

@[simp] theorem openRecs_modifyRec (s : Fs) (i r : Nat) (g : Rec → Rec) :
    (s.modifyRec i r g).openRecs = s.openRecs := rfl

@[simp] theorem openRecs_autoCreate (s : Fs) (fd recIdx : Int) :
    (autoCreate s fd recIdx).openRecs = s.openRecs := by
  unfold autoCreate
  split <;> rfl

theorem openRecs_modifyOpenRec (s : Fs) (h : Nat) (g : OpenRec → OpenRec) :
    (s.modifyOpenRec h g).openRecs = Function.update s.openRecs h (g (s.openRecs h)) := rfl

-- A call that neither needs nor sets up the tables does not change what they will be set up to.
theorem tables_of_not_init {s s' : Fs} (h : s.init = false) (h' : s'.init = s.init) :
    fsInitOnce s' = fsInitOnce s := by
  rw [h] at h'
  simp [fsInitOnce, h, h']

theorem Failed.tables {s : Fs} {r : Fs × ER} (h : Failed s r) : fsInitOnce r.1 = fsInitOnce s := by
  obtain ⟨heq | heq, -⟩ := h
  · rw [heq]
  · rw [heq, fsInitOnce_idem]

-- The tables before the first call have no open handle.
theorem not_open_of_not_init {s : Fs} (h : s.init = false) (i : Nat) :
    ((fsInitOnce s).openRecs i).isOpen = false := by
  simp [fsInitOnce, h, OpenRec.zero]

theorem write_of_not_init {s : Fs} (h : s.init = false) (op : Op) :
    op.write (fsInitOnce s) = none := by
  unfold Op.write
  split
  · rw [if_pos (.inr (.inl (by simp [not_open_of_not_init h])))]
  · rfl

theorem resize_of_not_init {s : Fs} (h : s.init = false) (op : Op) :
    op.resize (fsInitOnce s) = none := by
  unfold Op.resize
  split
  · rw [if_pos (.inr (.inl (by simp [not_open_of_not_init h])))]
  · rfl

-- The tables after a call that works on initialized tables.
theorem tables_after {t : Fs} {r : Fs × ER} {e : ER} (heq : r = (t, e)) (ht : t.init = true) :
    fsInitOnce r.1 = t := by
  rw [heq, fsInitOnce_of_init ht]

-- A call that does not set the tables up works on initialized ones, or changes nothing yet.
theorem tables_cases (s : Fs) {t : Fs} {r : Fs × ER} {e : ER} (heq : r = (t, e))
    (ht : t.init = s.init) :
    s.init = false ∧ fsInitOnce r.1 = fsInitOnce s ∨
      s.init = true ∧ fsInitOnce s = s ∧ fsInitOnce r.1 = t := by
  subst heq
  cases hinit : s.init with
  | false => exact .inl ⟨rfl, tables_of_not_init hinit ht⟩
  | true => exact .inr ⟨rfl, fsInitOnce_of_init hinit, fsInitOnce_of_init (ht.trans hinit)⟩

theorem Failed.sameRecs {s : Fs} {r : Fs × ER} (h : Failed s r) :
    SameRecs (fsInitOnce s) (fsInitOnce r.1) := by
  rw [h.tables]
  exact .refl _

theorem sameRecs_after {s t : Fs} {r : Fs × ER} {e : ER} (heq : r = (t, e))
    (h : SameRecs (fsInitOnce s) t) (ht : t.init = true) :
    SameRecs (fsInitOnce s) (fsInitOnce r.1) := by
  rwa [tables_after heq ht]

theorem sameRecs_both {s t : Fs} {r : Fs × ER} {e : ER} (heq : r = (t, e)) (h : SameRecs s t)
    (ht : t.init = s.init) : SameRecs (fsInitOnce s) (fsInitOnce r.1) := by
  obtain ⟨-, hr⟩ | ⟨-, hs, hr⟩ := tables_cases s heq ht
  · rw [hr]
    exact .refl _
  · rwa [hs, hr]

theorem opnFil_sameRecs (s : Fs) (path : Option (List UB)) (mode : Nat) :
    SameRecs (fsInitOnce s) (fsInitOnce (opnFil s path mode).1) := by
  obtain hfail | ⟨p, i, -, -, heq⟩ | ⟨p, i, -, -, -, -, heq⟩ := opnFil_cases s path mode
  · exact hfail.sameRecs
  · exact sameRecs_after heq (sameRecs_modifyFile (by simp)) (by simp)
  · exact sameRecs_after heq (sameRecs_modifyFile (by simp)) (by simp)

theorem rdRec_exec {s : Fs} {recId sz n : Int} {buf : Bool} {bytes : List UB}
    (heq : rdRec s recId buf sz =
      (s.modifyOpenRec (slot recId) fun o => { o with offset := o.offset + n }, E_OK, bytes)) :
    (Op.rdRec recId buf sz).exec s =
      (s.modifyOpenRec (slot recId) fun o => { o with offset := o.offset + n }, E_OK) := by
  rw [Op.exec, heq]

theorem rec_effect (s : Fs) (op : Op) :
    RecEffect (fsInitOnce s) (fsInitOnce (op.exec s).1) op := by
  cases op with
  | opnFil path mode => exact .same rfl rfl (opnFil_sameRecs s path mode)
  | creFil path mode => exact .same rfl rfl (opnFil_sameRecs s path (mode ||| F_CREATE))
  | clsFil fd =>
      obtain hfail | heq := clsFil_cases s fd
      · exact .same rfl rfl hfail.sameRecs
      · exact .same rfl rfl (sameRecs_after heq (sameRecs_modifyFile (by simp)) (by simp))
  | delFil path =>
      obtain hfail | ⟨p, i, -, -, heq⟩ := delFil_cases s path
      · exact .same rfl rfl hfail.sameRecs
      · exact .same rfl rfl (sameRecs_after heq (sameRecs_modifyFile (by simp)) (by simp))
  | movFil src dst =>
      obtain hfail | ⟨p, q, i, -, -, -, heq⟩ := movFil_cases s src dst
      · exact .same rfl rfl hfail.sameRecs
      · exact .same rfl rfl (sameRecs_after heq (sameRecs_modifyFile (by simp)) (by simp))
  | opnRec fd recIdx mode =>
      obtain ⟨hfail, -⟩ | ⟨-, -, heq⟩ | ⟨i, -, -, heq⟩ := opnRec_cases s fd recIdx mode
      · exact .same rfl rfl hfail.sameRecs
      · have hafter := tables_after heq (by simp)
        rw [Op.exec, hafter]
        obtain hsame | hclear := recSet_autoCreate (fsInitOnce s) fd recIdx
        · exact .same rfl rfl hsame
        · exact .clear rfl rfl hclear
      · have hafter := tables_after heq (by simp)
        rw [Op.exec, hafter]
        obtain hsame | hclear := recSet_autoCreate (fsInitOnce s) fd recIdx
        · exact .same rfl rfl hsame
        · exact .clear rfl rfl (hclear.trans_same (sameRecs_modifyOpenRec _ _ _))
  | chgFil fd mode =>
      obtain hfail | heq := chgFil_cases s fd mode
      · exact .same rfl rfl hfail.sameRecs
      · exact .same rfl rfl (sameRecs_both heq (sameRecs_modifyFile (by simp)) (by simp))
  | clsRec recId =>
      obtain hfail | heq := clsRec_cases s recId
      · exact .same rfl rfl hfail.sameRecs
      · exact .same rfl rfl (sameRecs_both heq (sameRecs_modifyOpenRec _ _ _) (by simp))
  | rdRec recId buf sz =>
      obtain ⟨heq, -⟩ | ⟨n, -, -, -, heq⟩ := rdRec_cases s recId buf sz
      · exact .same rfl rfl (by rw [Op.exec, heq]; exact .refl _)
      · exact .same rfl rfl
          (sameRecs_both (rdRec_exec heq) (sameRecs_modifyOpenRec _ _ _) (by simp))
  | wrRec recId buf sz =>
      obtain ⟨heq, hnone⟩ | ⟨o, n, b, ho, hopen, hpos, hle, hwrite, heq⟩ :=
        wrRec_cases s recId buf sz
      · refine .same ?_ rfl (by rw [Op.exec, heq]; exact .refl _)
        cases hinit : s.init with
        | false => exact write_of_not_init hinit _
        | true => rwa [fsInitOnce_of_init hinit]
      · obtain ⟨hinit, hr⟩ | ⟨-, hs, hr⟩ := tables_cases s heq (by simp)
        · exact .same (write_of_not_init hinit _) rfl (by rw [Op.exec, hr]; exact .refl _)
        · rw [hs, Op.exec, hr]
          exact .write hwrite rfl ho hopen hpos hle
            ((recSet_modifyRec _ _ _ _).trans_same (sameRecs_modifyOpenRec _ _ _))
  | delRec fd recIdx =>
      obtain hfail | heq := delRec_cases s fd recIdx
      · exact .same rfl rfl hfail.sameRecs
      · obtain ⟨-, hr⟩ | ⟨-, hs, hr⟩ := tables_cases s heq (by simp)
        · exact .same rfl rfl (by rw [Op.exec, hr]; exact .refl _)
        · rw [hs, Op.exec, hr]
          exact .clear rfl rfl (recSet_modifyRec _ _ _ _)
  | posRec recId offset origin =>
      obtain hfail | ⟨-, pos, heq⟩ := posRec_cases s recId offset origin
      · exact .same rfl rfl hfail.sameRecs
      · exact .same rfl rfl (sameRecs_both heq (sameRecs_modifyOpenRec _ _ _) (by simp))
  | trnRec recId sz =>
      obtain ⟨heq, hnone⟩ | ⟨o, ho, hopen, h0, hmax, hresize, heq⟩ := trnRec_cases s recId sz
      · refine .same rfl ?_ (by rw [Op.exec, heq]; exact .refl _)
        cases hinit : s.init with
        | false => exact resize_of_not_init hinit _
        | true => rwa [fsInitOnce_of_init hinit]
      · obtain ⟨hinit, hr⟩ | ⟨-, hs, hr⟩ := tables_cases s heq (by simp)
        · exact .same rfl (resize_of_not_init hinit _) (by rw [Op.exec, hr]; exact .refl _)
        · rw [hs, Op.exec, hr]
          exact .resize rfl hresize ho hopen h0 hmax (recSet_modifyRec _ _ _ _)

theorem Failed.sameHandles {s : Fs} {r : Fs × ER} {op : Op} (h : Failed s r) :
    HandleEffect (fsInitOnce s) (fsInitOnce r.1) op := .same (by rw [h.tables])

theorem sameHandles_after {s t : Fs} {r : Fs × ER} {e : ER} {op : Op} (heq : r = (t, e))
    (h : t.openRecs = (fsInitOnce s).openRecs) (ht : t.init = true) :
    HandleEffect (fsInitOnce s) (fsInitOnce r.1) op := .same (by rw [tables_after heq ht, h])

theorem handleEffect_both {s t : Fs} {r : Fs × ER} {e : ER} {op : Op} (heq : r = (t, e))
    (h : HandleEffect s t op) (ht : t.init = s.init) :
    HandleEffect (fsInitOnce s) (fsInitOnce r.1) op := by
  obtain ⟨-, hr⟩ | ⟨-, hs, hr⟩ := tables_cases s heq ht
  · exact .same (by rw [hr])
  · rwa [hs, hr]

theorem opnFil_sameHandles (s : Fs) (path : Option (List UB)) (mode : Nat) {op : Op} :
    HandleEffect (fsInitOnce s) (fsInitOnce (opnFil s path mode).1) op := by
  obtain hfail | ⟨p, i, -, -, heq⟩ | ⟨p, i, -, -, -, -, heq⟩ := opnFil_cases s path mode
  · exact hfail.sameHandles
  · exact sameHandles_after heq rfl (by simp)
  · exact sameHandles_after heq rfl (by simp)

theorem findFreeRec_closed {s : Fs} {i : Nat} (h : findFreeRec s = some i) :
    (s.openRecs i).isOpen = false := by
  simpa using (List.find?_range_eq_some.mp h).1

theorem clamp_bounds {size pos : Int} (h : 0 ≤ size) :
    0 ≤ clamp size pos ∧ clamp size pos ≤ size := by
  simp only [clamp]
  split_ifs <;> omega

theorem handle_effect (s : Fs) (op : Op) :
    HandleEffect (fsInitOnce s) (fsInitOnce (op.exec s).1) op := by
  cases op with
  | opnFil path mode => exact opnFil_sameHandles s path mode
  | creFil path mode => exact opnFil_sameHandles s path (mode ||| F_CREATE)
  | clsFil fd =>
      obtain hfail | heq := clsFil_cases s fd
      · exact hfail.sameHandles
      · exact sameHandles_after heq rfl (by simp)
  | delFil path =>
      obtain hfail | ⟨p, i, -, -, heq⟩ := delFil_cases s path
      · exact hfail.sameHandles
      · exact sameHandles_after heq rfl (by simp)
  | movFil src dst =>
      obtain hfail | ⟨p, q, i, -, -, -, heq⟩ := movFil_cases s src dst
      · exact hfail.sameHandles
      · exact sameHandles_after heq rfl (by simp)
  | opnRec fd recIdx mode =>
      obtain ⟨hfail, -⟩ | ⟨-, -, heq⟩ | ⟨i, hnames, hfree, heq⟩ := opnRec_cases s fd recIdx mode
      · exact hfail.sameHandles
      · exact sameHandles_after heq (by simp) (by simp)
      · refine .opened rfl hnames (findFreeRec_closed hfree) ?_
        rw [Op.exec, tables_after heq (by simp), openRecs_modifyOpenRec, openRecs_autoCreate]
  | chgFil fd mode =>
      obtain hfail | heq := chgFil_cases s fd mode
      · exact hfail.sameHandles
      · exact handleEffect_both heq (.same rfl) (by simp)
  | clsRec recId =>
      obtain hfail | heq := clsRec_cases s recId
      · exact hfail.sameHandles
      · exact handleEffect_both heq (.closed rfl) (by simp)
  | rdRec recId buf sz =>
      obtain ⟨heq, -⟩ | ⟨n, hopen, hpos, hn, heq⟩ := rdRec_cases s recId buf sz
      · exact .same (by rw [Op.exec, heq])
      · refine handleEffect_both (rdRec_exec heq) (.move hopen rfl fun hb => ?_) (by simp)
        have hle := moved_le sz (((s.openRecs (slot recId)).target s).size -
          (s.openRecs (slot recId)).offset)
        have hsize := hb.size (slot (s.openRecs (slot recId)).fd)
          (s.openRecs (slot recId)).recIdx.toNat
        have hoffset := hb.offset (slot recId)
        rw [← OpenRec.target_eq] at hsize
        omega
  | wrRec recId buf sz =>
      obtain ⟨heq, -⟩ | ⟨o, n, b, rfl, hopen, hpos, hle, -, heq⟩ := wrRec_cases s recId buf sz
      · exact .same (by rw [Op.exec, heq])
      · refine handleEffect_both heq (.move hopen rfl fun hb => ?_) (by simp)
        have hoffset := hb.offset (slot recId)
        rw [openRecs_modifyRec]
        omega
  | delRec fd recIdx =>
      obtain hfail | heq := delRec_cases s fd recIdx
      · exact hfail.sameHandles
      · exact handleEffect_both heq (.same rfl) (by simp)
  | posRec recId offset origin =>
      obtain hfail | ⟨hopen, pos, heq⟩ := posRec_cases s recId offset origin
      · exact hfail.sameHandles
      · refine handleEffect_both heq (.move hopen rfl fun hb => ?_) (by simp)
        have hsize := hb.size (slot (s.openRecs (slot recId)).fd)
          (s.openRecs (slot recId)).recIdx.toNat
        rw [← OpenRec.target_eq] at hsize
        have hclamp := @clamp_bounds _ pos hsize.1
        omega
  | trnRec recId sz =>
      obtain ⟨heq, -⟩ | ⟨o, -, -, -, -, -, heq⟩ := trnRec_cases s recId sz
      · exact .same (by rw [Op.exec, heq])
      · exact handleEffect_both heq (.same rfl) (by simp)

-- Nothing is open before the tables are set up.
def Sealed (s : Fs) : Prop := s.init = false → ∀ h, (s.openRecs h).isOpen = false

theorem Failed.sealed {s : Fs} {r : Fs × ER} (hs : Sealed s) (h : Failed s r) : Sealed r.1 := by
  obtain ⟨heq | heq, -⟩ := h
  · rwa [heq]
  · intro hinit
    simp [heq] at hinit

theorem sealed_after {t : Fs} {r : Fs × ER} {e : ER} (heq : r = (t, e)) (ht : t.init = true) :
    Sealed r.1 := by
  intro hinit
  simp [heq, ht] at hinit

-- A call that opens no handle of its own.
theorem sealed_both {s t : Fs} {r : Fs × ER} {e : ER} (heq : r = (t, e)) (hs : Sealed s)
    (ht : t.init = s.init)
    (hopen : ∀ h, (t.openRecs h).isOpen = true → (s.openRecs h).isOpen = true) : Sealed r.1 := by
  intro hinit h
  subst heq
  cases hcase : (t.openRecs h).isOpen with
  | false => rfl
  | true =>
      have hno := hs (ht.symm.trans hinit) h
      simp [hopen h hcase] at hno

theorem isOpen_modifyOpenRec {s : Fs} {i : Nat} {g : OpenRec → OpenRec}
    (hg : (g (s.openRecs i)).isOpen = true → (s.openRecs i).isOpen = true) (h : Nat)
    (hopen : ((s.modifyOpenRec i g).openRecs h).isOpen = true) :
    (s.openRecs h).isOpen = true := by
  rw [openRecs_modifyOpenRec] at hopen
  by_cases hi : h = i
  · subst hi
    rw [Function.update_self] at hopen
    exact hg hopen
  · rwa [Function.update_of_ne hi] at hopen

theorem opnFil_sealed {s : Fs} (hs : Sealed s) (path : Option (List UB)) (mode : Nat) :
    Sealed (opnFil s path mode).1 := by
  obtain hfail | ⟨p, i, -, -, heq⟩ | ⟨p, i, -, -, -, -, heq⟩ := opnFil_cases s path mode
  · exact hfail.sealed hs
  · exact sealed_after heq (by simp)
  · exact sealed_after heq (by simp)

theorem sealed_exec {s : Fs} (hs : Sealed s) (op : Op) : Sealed (op.exec s).1 := by
  cases op with
  | opnFil path mode => exact opnFil_sealed hs path mode
  | creFil path mode => exact opnFil_sealed hs path (mode ||| F_CREATE)
  | clsFil fd =>
      obtain hfail | heq := clsFil_cases s fd
      · exact hfail.sealed hs
      · exact sealed_after heq (by simp)
  | delFil path =>
      obtain hfail | ⟨p, i, -, -, heq⟩ := delFil_cases s path
      · exact hfail.sealed hs
      · exact sealed_after heq (by simp)
  | movFil src dst =>
      obtain hfail | ⟨p, q, i, -, -, -, heq⟩ := movFil_cases s src dst
      · exact hfail.sealed hs
      · exact sealed_after heq (by simp)
  | opnRec fd recIdx mode =>
      obtain ⟨hfail, -⟩ | ⟨-, -, heq⟩ | ⟨i, -, -, heq⟩ := opnRec_cases s fd recIdx mode
      · exact hfail.sealed hs
      · exact sealed_after heq (by simp)
      · exact sealed_after heq (by simp)
  | chgFil fd mode =>
      obtain hfail | heq := chgFil_cases s fd mode
      · exact hfail.sealed hs
      · exact sealed_both heq hs (by simp) (by simp)
  | clsRec recId =>
      obtain hfail | heq := clsRec_cases s recId
      · exact hfail.sealed hs
      · exact sealed_both heq hs (by simp) (isOpen_modifyOpenRec (by simp))
  | rdRec recId buf sz =>
      obtain ⟨heq, -⟩ | ⟨n, -, -, -, heq⟩ := rdRec_cases s recId buf sz
      · rwa [Op.exec, heq]
      · exact sealed_both (rdRec_exec heq) hs (by simp) (isOpen_modifyOpenRec (by simp))
  | wrRec recId buf sz =>
      obtain ⟨heq, -⟩ | ⟨o, n, b, -, -, -, -, -, heq⟩ := wrRec_cases s recId buf sz
      · rwa [Op.exec, heq]
      · exact sealed_both heq hs (by simp) (isOpen_modifyOpenRec (by simp))
  | delRec fd recIdx =>
      obtain hfail | heq := delRec_cases s fd recIdx
      · exact hfail.sealed hs
      · exact sealed_both heq hs (by simp) (by simp)
  | posRec recId offset origin =>
      obtain hfail | ⟨-, pos, heq⟩ := posRec_cases s recId offset origin
      · exact hfail.sealed hs
      · exact sealed_both heq hs (by simp) (isOpen_modifyOpenRec (by simp))
  | trnRec recId sz =>
      obtain ⟨heq, -⟩ | ⟨o, -, -, -, -, -, heq⟩ := trnRec_cases s recId sz
      · rwa [Op.exec, heq]
      · exact sealed_both heq hs (by simp) (by simp)

-- What a `rd_rec` returns lies in the record, from the offset of the handle on.
theorem rdRec_bytes {s : Fs} (hs : Sealed s) (hb : Bounded (fsInitOnce s)) {recId sz : Int}
    {buf : Bool} {j : Nat} {b : UB} (h : (rdRec s recId buf sz).2.2[j]? = some b) :
    fsInitOnce s = s ∧ (s.openRecs (slot recId)).isOpen = true ∧
      ((s.openRecs (slot recId)).offset.toNat + j : Nat) <
        ((s.openRecs (slot recId)).target s).size ∧
      b = ((s.openRecs (slot recId)).target s).data
        ((s.openRecs (slot recId)).offset.toNat + j) := by
  obtain ⟨-, hnil⟩ | ⟨n, hopen, hpos, hn, heq⟩ := rdRec_cases s recId buf sz
  · rw [hnil] at h
    simp at h
  · have hinit : s.init = true := by
      by_contra hno
      simp [hs (by simpa using hno)] at hopen
    have htables := fsInitOnce_of_init hinit
    rw [htables] at hb
    have hoffset := hb.offset (slot recId)
    have hle := moved_le sz (((s.openRecs (slot recId)).target s).size -
      (s.openRecs (slot recId)).offset)
    rw [heq] at h
    have hj : j < n.toNat := by simpa using (List.getElem?_eq_some_iff.mp h).1
    simp only [List.getElem?_map, List.getElem?_range hj, Option.map_some, Option.some.injEq] at h
    exact ⟨htables, hopen, by omega, h.symm⟩

end BTron.FsRecord
