import BTron.FsRecord

namespace BTron.FsRecord

open Lib

theorem fsInitOnce_of_init {s : Fs} (h : s.init = true) : fsInitOnce s = s := by
  rw [fsInitOnce, if_pos h]

@[simp] theorem init_fsInitOnce (s : Fs) : (fsInitOnce s).init = true := by
  unfold fsInitOnce
  split
  · assumption
  · rfl

@[simp] theorem fsInitOnce_idem (s : Fs) : fsInitOnce (fsInitOnce s) = fsInitOnce s :=
  fsInitOnce_of_init (init_fsInitOnce s)

@[simp] theorem init_modifyFile (s : Fs) (i : Nat) (g : File → File) :
    (s.modifyFile i g).init = s.init := rfl

@[simp] theorem init_modifyRec (s : Fs) (i r : Nat) (g : Rec → Rec) :
    (s.modifyRec i r g).init = s.init := rfl

@[simp] theorem init_modifyOpenRec (s : Fs) (h : Nat) (g : OpenRec → OpenRec) :
    (s.modifyOpenRec h g).init = s.init := rfl

@[simp] theorem init_autoCreate (s : Fs) (fd recIdx : Int) :
    (autoCreate s fd recIdx).init = s.init := by
  unfold autoCreate
  split <;> simp

-- A call that fails before it looks at the tables, or after.
structure Failed (s : Fs) (r : Fs × ER) : Prop where
  state : r.1 = s ∨ r.1 = fsInitOnce s
  error : r.2 < 0

theorem Failed.before {s : Fs} {e : ER} (he : e < 0) : Failed s (s, e) := ⟨.inl rfl, he⟩

theorem Failed.after {s : Fs} {e : ER} (he : e < 0) : Failed s (fsInitOnce s, e) := ⟨.inr rfl, he⟩

-- What each operation does, once for all invariants.

theorem opnFil_cases (s : Fs) (path : Option (List UB)) (mode : Nat) :
    Failed s (opnFil s path mode) ∨
      (∃ p i, path = some p ∧ findPath (fsInitOnce s) p = some i ∧
        opnFil s path mode =
          ((fsInitOnce s).modifyFile i fun f => { f with isOpen := true, mode := mode },
            (i : Int) + 1)) ∨
      ∃ p i, path = some p ∧ findPath (fsInitOnce s) p = none ∧ mode &&& F_CREATE ≠ 0 ∧
        findFree (fsInitOnce s) = some i ∧
        opnFil s path mode =
          ((fsInitOnce s).modifyFile i fun f =>
            { f with
                doesExist := true
                isOpen := true
                mode := mode
                numRecords := 0
                path := strncpy p 63 }, (i : Int) + 1) := by
  unfold opnFil
  cases path with
  | none => exact .inl (.before (by decide))
  | some p =>
      simp only
      cases hpath : findPath (fsInitOnce s) p with
      | some i => exact .inr (.inl ⟨p, i, rfl, hpath, rfl⟩)
      | none =>
          simp only
          split_ifs with hmode
          · exact .inl (.after (by decide))
          · cases hfree : findFree (fsInitOnce s) with
            | none => exact .inl (.after (by decide))
            | some i => exact .inr (.inr ⟨p, i, rfl, hpath, hmode, rfl, rfl⟩)

theorem clsFil_cases (s : Fs) (fd : Int) :
    Failed s (clsFil s fd) ∨
      clsFil s fd =
        ((fsInitOnce s).modifyFile (slot fd) fun f => { f with isOpen := false }, E_OK) := by
  unfold clsFil
  split_ifs
  · exact .inl (.before (by decide))
  · simp only
    split_ifs
    · exact .inl (.after (by decide))
    · exact .inr rfl

theorem delFil_cases (s : Fs) (path : Option (List UB)) :
    Failed s (delFil s path) ∨
      ∃ p i, path = some p ∧ findPath (fsInitOnce s) p = some i ∧
        delFil s path = ((fsInitOnce s).modifyFile i fun f =>
          { f with doesExist := false, isOpen := false }, E_OK) := by
  unfold delFil
  cases path with
  | none => exact .inl (.before (by decide))
  | some p =>
      simp only
      cases hpath : findPath (fsInitOnce s) p with
      | none => exact .inl (.after (by decide))
      | some i => exact .inr ⟨p, i, rfl, hpath, rfl⟩

theorem chgFil_cases (s : Fs) (fd : Int) (mode : Nat) :
    Failed s (chgFil s fd mode) ∨
      chgFil s fd mode = (s.modifyFile (slot fd) fun f => { f with mode := mode }, E_OK) := by
  unfold chgFil
  split_ifs
  · exact .inl (.before (by decide))
  · exact .inr rfl

theorem movFil_cases (s : Fs) (src dst : Option (List UB)) :
    Failed s (movFil s src dst) ∨
      ∃ p q i, src = some p ∧ dst = some q ∧ findPath (fsInitOnce s) p = some i ∧
        movFil s src dst =
          ((fsInitOnce s).modifyFile i fun f => { f with path := strncpy q 63 }, E_OK) := by
  unfold movFil
  split
  · rename_i p q
    simp only
    cases hpath : findPath (fsInitOnce s) p with
    | none => exact .inl (.after (by decide))
    | some i => exact .inr ⟨p, q, i, rfl, rfl, hpath, rfl⟩
  · exact .inl (.before (by decide))

-- `opn_rec` finds the record of an existing file.
structure Names (s : Fs) (fd recIdx : Int) : Prop where
  fd_ok : ¬badFd fd
  recIdx_ok : ¬badRecIdx recIdx
  doesExist : (s.files (slot fd)).doesExist = true

theorem opnRec_cases (s : Fs) (fd recIdx : Int) (mode : Nat) :
    (Failed s (opnRec s fd recIdx mode) ∧ ¬Names (fsInitOnce s) fd recIdx) ∨
      (Names (fsInitOnce s) fd recIdx ∧ findFreeRec (fsInitOnce s) = none ∧
        opnRec s fd recIdx mode = (autoCreate (fsInitOnce s) fd recIdx, ER_NOSPC)) ∨
      ∃ i, Names (fsInitOnce s) fd recIdx ∧ findFreeRec (fsInitOnce s) = some i ∧
        opnRec s fd recIdx mode =
          ((autoCreate (fsInitOnce s) fd recIdx).modifyOpenRec i
            fun _ => ⟨fd, recIdx, mode, 0, true⟩, (i : Int) + 1) := by
  have hfree : findFreeRec (autoCreate (fsInitOnce s) fd recIdx) = findFreeRec (fsInitOnce s) := by
    unfold autoCreate
    split <;> rfl
  unfold opnRec
  split_ifs with hfd hidx
  · exact .inl ⟨.before (by decide), fun h => h.fd_ok hfd⟩
  · exact .inl ⟨.before (by decide), fun h => h.recIdx_ok hidx⟩
  · simp only
    split_ifs with hexist
    · refine .inl ⟨.after (by decide), fun h => ?_⟩
      simp [h.doesExist] at hexist
    · have hnames : Names (fsInitOnce s) fd recIdx := ⟨hfd, hidx, by simpa using hexist⟩
      rw [hfree]
      cases hslot : findFreeRec (fsInitOnce s) with
      | none => exact .inr (.inl ⟨hnames, rfl, rfl⟩)
      | some i => exact .inr (.inr ⟨i, hnames, rfl, rfl⟩)

theorem clsRec_cases (s : Fs) (recId : Int) :
    Failed s (clsRec s recId) ∨
      clsRec s recId =
        (s.modifyOpenRec (slot recId) fun o => { o with isOpen := false }, E_OK) := by
  unfold clsRec
  split_ifs
  · exact .inl (.before (by decide))
  · exact .inr rfl

theorem rdRec_cases (s : Fs) (recId : Int) (buf : Bool) (sz : Int) :
    ((rdRec s recId buf sz).1 = s ∧ (rdRec s recId buf sz).2.2 = []) ∨
      ∃ n, (s.openRecs (slot recId)).isOpen = true ∧ 0 < n ∧
        n = moved sz (((s.openRecs (slot recId)).target s).size -
          (s.openRecs (slot recId)).offset) ∧
        rdRec s recId buf sz =
          (s.modifyOpenRec (slot recId) fun o => { o with offset := o.offset + n }, E_OK,
            (List.range n.toNat).map fun j =>
              ((s.openRecs (slot recId)).target s).data
                ((s.openRecs (slot recId)).offset.toNat + j)) := by
  unfold rdRec
  simp only
  split_ifs with h1 h2 h3 h4
  · exact .inl ⟨rfl, rfl⟩
  · exact .inl ⟨rfl, rfl⟩
  · exact .inl ⟨rfl, rfl⟩
  · exact .inr ⟨_, by simpa using h3, h4, rfl, rfl⟩
  · exact .inl ⟨rfl, rfl⟩

-- The handle, the number of bytes and the buffer of a `wr_rec` that writes something.
def Op.write (s : Fs) : Op → Option (OpenRec × Int × Memory)
  | .wrRec recId (some buf) sz =>
    let o := s.openRecs (slot recId)
    let n := moved sz (maxRecordSize - o.offset)
    if badRecId recId ∨ !o.isOpen ∨ n ≤ 0 then none else some (o, n, buf)
  | _ => none

-- The handle and the new size of a `trn_rec` that sets one.
def Op.resize (s : Fs) : Op → Option (OpenRec × Int)
  | .trnRec recId sz =>
    let o := s.openRecs (slot recId)
    if badRecId recId ∨ !o.isOpen ∨ sz < 0 ∨ sz > maxRecordSize then none else some (o, sz)
  | _ => none

theorem moved_le (sz room : Int) : moved sz room ≤ sz ∧ moved sz room ≤ room := by
  unfold moved
  split <;> omega

theorem wrRec_cases (s : Fs) (recId : Int) (buf : Option Memory) (sz : Int) :
    (wrRec s recId buf sz).1 = s ∧ (Op.wrRec recId buf sz).write s = none ∨
      ∃ o n b, o = s.openRecs (slot recId) ∧ o.isOpen = true ∧ 0 < n ∧
        n ≤ maxRecordSize - o.offset ∧ (Op.wrRec recId buf sz).write s = some (o, n, b) ∧
        wrRec s recId buf sz =
          ((s.modifyRec (slot o.fd) o.recIdx.toNat fun r =>
              { r with
                  data := overwrite r.data o.offset.toNat n.toNat b
                  size := if o.offset + n > r.size then o.offset + n else r.size }
            ).modifyOpenRec (slot recId) fun o => { o with offset := o.offset + n }, E_OK) := by
  cases buf with
  | none => exact .inl ⟨rfl, rfl⟩
  | some b =>
      have hle := moved_le sz (maxRecordSize - (s.openRecs (slot recId)).offset)
      simp only [wrRec, Op.write]
      by_cases hsz : sz < 0
      · rw [if_pos hsz, if_pos (by omega)]
        exact .inl ⟨rfl, rfl⟩
      rw [if_neg hsz]
      by_cases hid : badRecId recId
      · rw [if_pos hid, if_pos (.inl hid)]
        exact .inl ⟨rfl, rfl⟩
      rw [if_neg hid]
      by_cases hopen : (s.openRecs (slot recId)).isOpen = true
      swap
      · rw [if_pos (by simpa using hopen), if_pos (.inr (.inl (by simpa using hopen)))]
        exact .inl ⟨rfl, rfl⟩
      rw [if_neg (by simpa using hopen)]
      by_cases hpos : 0 < moved sz (maxRecordSize - (s.openRecs (slot recId)).offset)
      · rw [if_pos hpos, if_neg (by simp [hid, hopen, hpos])]
        exact .inr ⟨_, _, b, rfl, hopen, hpos, hle.2, rfl, rfl⟩
      · rw [if_neg hpos, if_pos (by omega)]
        exact .inl ⟨rfl, rfl⟩

theorem delRec_cases (s : Fs) (fd recIdx : Int) :
    Failed s (delRec s fd recIdx) ∨
      delRec s fd recIdx =
        (s.modifyRec (slot fd) recIdx.toNat fun r => { r with inUse := false, size := 0 },
          E_OK) := by
  unfold delRec
  split_ifs
  · exact .inl (.before (by decide))
  · exact .inl (.before (by decide))
  · exact .inr rfl

theorem posRec_cases (s : Fs) (recId offset origin : Int) :
    Failed s (posRec s recId offset origin) ∨
      (s.openRecs (slot recId)).isOpen = true ∧ ∃ pos,
        posRec s recId offset origin = (s.modifyOpenRec (slot recId) fun o =>
          { o with offset := clamp ((s.openRecs (slot recId)).target s).size pos }, E_OK) := by
  unfold posRec
  split_ifs with h1
  · exact .inl (.before (by decide))
  · simp only
    split_ifs with h2
    · exact .inl (.before (by decide))
    · exact .inr ⟨by simpa using h2, _, rfl⟩

theorem trnRec_cases (s : Fs) (recId sz : Int) :
    (trnRec s recId sz).1 = s ∧ (Op.trnRec recId sz).resize s = none ∨
      ∃ o, o = s.openRecs (slot recId) ∧ o.isOpen = true ∧ 0 ≤ sz ∧ sz ≤ maxRecordSize ∧
        (Op.trnRec recId sz).resize s = some (o, sz) ∧
        trnRec s recId sz =
          (s.modifyRec (slot o.fd) o.recIdx.toNat fun r => { r with size := sz }, E_OK) := by
  simp only [trnRec, Op.resize]
  by_cases hid : badRecId recId
  · rw [if_pos hid, if_pos (.inl hid)]
    exact .inl ⟨rfl, rfl⟩
  rw [if_neg hid]
  by_cases hopen : (s.openRecs (slot recId)).isOpen = true
  swap
  · rw [if_pos (by simpa using hopen), if_pos (.inr (.inl (by simpa using hopen)))]
    exact .inl ⟨rfl, rfl⟩
  rw [if_neg (by simpa using hopen)]
  by_cases hsz : 0 ≤ sz ∧ sz ≤ maxRecordSize
  · rw [if_pos hsz, if_neg (by simp [hid, hopen, hsz])]
    exact .inr ⟨_, rfl, hopen, hsz.1, hsz.2, rfl, rfl⟩
  · rw [if_neg hsz, if_pos (by omega)]
    exact .inl ⟨rfl, rfl⟩

end BTron.FsRecord
