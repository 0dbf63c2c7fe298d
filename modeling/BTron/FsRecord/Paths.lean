import BTron.FsRecord.Cases
import BTron.Lib.Run

namespace BTron.FsRecord

open Lib

-- No two existing files have the same path.
def UniquePaths (s : Fs) : Prop :=
  ∀ i j, i < maxFsFiles → j < maxFsFiles → (s.files i).doesExist = true →
    (s.files j).doesExist = true → (s.files i).path = (s.files j).path → i = j

-- File `i` is the one with the path.
structure Named (s : Fs) (p : List UB) (i : Nat) : Prop where
  lt : i < maxFsFiles
  doesExist : (s.files i).doesExist = true
  path_eq : (s.files i).path = cstr p

theorem findPath_named {s : Fs} {p : List UB} {i : Nat} (h : findPath s p = some i) :
    Named s p i := by
  obtain ⟨hfound, hmem, -⟩ := List.find?_range_eq_some.mp h
  rw [Bool.and_eq_true, beq_iff_eq] at hfound
  exact ⟨List.mem_range.mp hmem, hfound.1, hfound.2⟩

theorem findPath_none {s : Fs} {p : List UB} (h : findPath s p = none) (i : Nat) :
    ¬Named s p i := by
  intro hi
  have hno := List.find?_range_eq_none.mp h i hi.lt
  simp [hi.doesExist, hi.path_eq] at hno

theorem findPath_eq {s : Fs} (hs : UniquePaths s) {p : List UB} {i : Nat} (h : Named s p i) :
    findPath s p = some i := by
  cases hfind : findPath s p with
  | none => exact absurd h (findPath_none hfind i)
  | some j =>
      have hj := findPath_named hfind
      have hij := hs j i hj.lt h.lt hj.doesExist h.doesExist (hj.path_eq.trans h.path_eq.symm)
      rw [hij]

theorem findFree_spec {s : Fs} {i : Nat} (h : findFree s = some i) :
    i < maxFsFiles ∧ (s.files i).doesExist = false := by
  obtain ⟨hfree, hmem, -⟩ := List.find?_range_eq_some.mp h
  exact ⟨List.mem_range.mp hmem, by simpa using hfree⟩

theorem opnFil_named {s : Fs} (hs : UniquePaths (fsInitOnce s)) {p : List UB} {i : Nat}
    (h : Named (fsInitOnce s) p i) (mode : Nat) : (opnFil s (some p) mode).2 = i + 1 := by
  simp only [opnFil, findPath_eq hs h]

-- The files agree in path and existence.
def SamePaths (s s' : Fs) : Prop :=
  ∀ i, (s'.files i).doesExist = (s.files i).doesExist ∧ (s'.files i).path = (s.files i).path

-- All files but `i` agree, and `i` has this path or does not exist.
structure PathSet (s s' : Fs) (i : Nat) (path : Option (List UB)) : Prop where
  others : ∀ j, j ≠ i → (s'.files j).doesExist = (s.files j).doesExist ∧
    (s'.files j).path = (s.files j).path
  doesExist : (s'.files i).doesExist = path.isSome
  path_eq : ∀ p, path = some p → (s'.files i).path = p

theorem SamePaths.refl (s : Fs) : SamePaths s s := fun _ => ⟨rfl, rfl⟩

theorem samePaths_modifyFile {s : Fs} {i : Nat} {g : File → File}
    (hg : ∀ f, (g f).doesExist = f.doesExist ∧ (g f).path = f.path) :
    SamePaths s (s.modifyFile i g) := by
  intro j
  by_cases hj : j = i
  · subst hj
    simpa [Fs.modifyFile] using hg (s.files j)
  · simp [Fs.modifyFile, hj]

theorem samePaths_modifyOpenRec (s : Fs) (h : Nat) (g : OpenRec → OpenRec) :
    SamePaths s (s.modifyOpenRec h g) := fun _ => ⟨rfl, rfl⟩

theorem samePaths_modifyRec (s : Fs) (i r : Nat) (g : Rec → Rec) :
    SamePaths s (s.modifyRec i r g) :=
  samePaths_modifyFile (by simp)

theorem SamePaths.trans {s s' s'' : Fs} (h : SamePaths s s') (h' : SamePaths s' s'') :
    SamePaths s s'' := fun i => ⟨(h' i).1.trans (h i).1, (h' i).2.trans (h i).2⟩

theorem samePaths_autoCreate (s : Fs) (fd recIdx : Int) :
    SamePaths s (autoCreate s fd recIdx) := by
  unfold autoCreate
  split
  · exact .refl s
  · exact (samePaths_modifyRec _ _ _ _).trans (samePaths_modifyFile (by simp))

theorem pathSet_modifyFile {s : Fs} {i : Nat} {g : File → File} {path : Option (List UB)}
    (hexist : (g (s.files i)).doesExist = path.isSome)
    (hpath : ∀ p, path = some p → (g (s.files i)).path = p) :
    PathSet s (s.modifyFile i g) i path := by
  refine ⟨fun j hj => by simp [Fs.modifyFile, hj], ?_, fun p hp => ?_⟩
  · simpa [Fs.modifyFile] using hexist
  · simpa [Fs.modifyFile] using hpath p hp

-- A call that leaves the tables uninitialized leaves them as they will be set up.
theorem samePaths_of_not_init {s s' : Fs} (h : SamePaths s s') (hinit : s'.init = s.init) :
    SamePaths (fsInitOnce s) (fsInitOnce s') := by
  cases hs : s.init with
  | true =>
      rw [hs] at hinit
      rw [fsInitOnce_of_init hs, fsInitOnce_of_init hinit]
      exact h
  | false =>
      rw [hs] at hinit
      simp [fsInitOnce, hs, hinit, SamePaths]

theorem Failed.samePaths {s : Fs} {r : Fs × ER} (h : Failed s r) :
    SamePaths (fsInitOnce s) (fsInitOnce r.1) := by
  obtain ⟨heq | heq, -⟩ := h
  · rw [heq]
    exact .refl _
  · rw [heq, fsInitOnce_idem]
    exact .refl _

theorem samePaths_after {s t : Fs} {r : Fs × ER} {e : ER} (heq : r = (t, e))
    (h : SamePaths (fsInitOnce s) t) (ht : t.init = true) :
    SamePaths (fsInitOnce s) (fsInitOnce r.1) := by
  subst heq
  rwa [fsInitOnce_of_init ht]

theorem samePaths_both {s t : Fs} {r : Fs × ER} {e : ER} (heq : r = (t, e)) (h : SamePaths s t)
    (ht : t.init = s.init) : SamePaths (fsInitOnce s) (fsInitOnce r.1) := by
  subst heq
  exact samePaths_of_not_init h ht

theorem pathSet_after {s t : Fs} {r : Fs × ER} {e : ER} {i : Nat} {path : Option (List UB)}
    (heq : r = (t, e)) (h : PathSet (fsInitOnce s) t i path) (ht : t.init = true) :
    PathSet (fsInitOnce s) (fsInitOnce r.1) i path := by
  subst heq
  rwa [fsInitOnce_of_init ht]

-- The path a call may create a file for.
def Op.newPath : Op → Option (List UB)
  | .opnFil path mode => if mode &&& F_CREATE = 0 then none else path
  | .creFil path _ => path
  | _ => none

-- What an operation does to the map from paths to files.
inductive PathEffect (s s' : Fs) (op : Op) : Prop
  | same : SamePaths s s' → PathEffect s s' op
  | create {p i} : op.newPath = some p → findPath s p = none → findFree s = some i →
      PathSet s s' i (some (strncpy p 63)) → PathEffect s s' op
  | delete {p i} : op = .delFil (some p) → findPath s p = some i → PathSet s s' i none →
      PathEffect s s' op
  | move {p q i} : op = .movFil (some p) (some q) → findPath s p = some i →
      PathSet s s' i (some (strncpy q 63)) → PathEffect s s' op

theorem opnFil_effect (s : Fs) (path : Option (List UB)) (mode : Nat) :
    SamePaths (fsInitOnce s) (fsInitOnce (opnFil s path mode).1) ∨
      ∃ p i, path = some p ∧ mode &&& F_CREATE ≠ 0 ∧ findPath (fsInitOnce s) p = none ∧
        findFree (fsInitOnce s) = some i ∧
        PathSet (fsInitOnce s) (fsInitOnce (opnFil s path mode).1) i (some (strncpy p 63)) := by
  obtain hfail | ⟨p, i, -, -, heq⟩ | ⟨p, i, hp, hpath, hmode, hfree, heq⟩ :=
    opnFil_cases s path mode
  · exact .inl hfail.samePaths
  · exact .inl (samePaths_after heq (samePaths_modifyFile (by simp)) (by simp))
  · refine .inr ⟨p, i, hp, hmode, hpath, hfree, pathSet_after heq ?_ (by simp)⟩
    exact pathSet_modifyFile rfl (by simp)

theorem create_of_or (mode : Nat) : (mode ||| F_CREATE) &&& F_CREATE ≠ 0 := by
  rw [Nat.and_or_distrib_right, Nat.and_self]
  intro h
  have hle : F_CREATE ≤ mode &&& F_CREATE ||| F_CREATE := Nat.right_le_or
  rw [h] at hle
  exact absurd hle (by decide)

theorem path_effect (s : Fs) (op : Op) :
    PathEffect (fsInitOnce s) (fsInitOnce (op.exec s).1) op := by
  cases op with
  | opnFil path mode =>
      obtain hsame | ⟨p, i, rfl, hmode, hpath, hfree, hset⟩ := opnFil_effect s path mode
      · exact .same hsame
      · exact .create (by simp [Op.newPath, hmode]) hpath hfree hset
  | creFil path mode =>
      obtain hsame | ⟨p, i, rfl, -, hpath, hfree, hset⟩ :=
        opnFil_effect s path (mode ||| F_CREATE)
      · exact .same hsame
      · exact .create rfl hpath hfree hset
  | clsFil fd =>
      obtain hfail | heq := clsFil_cases s fd
      · exact .same hfail.samePaths
      · exact .same (samePaths_after heq (samePaths_modifyFile (by simp)) (by simp))
  | delFil path =>
      obtain hfail | ⟨p, i, rfl, hpath, heq⟩ := delFil_cases s path
      · exact .same hfail.samePaths
      · refine .delete rfl hpath (pathSet_after heq ?_ (by simp))
        exact pathSet_modifyFile rfl (by simp)
  | chgFil fd mode =>
      obtain hfail | heq := chgFil_cases s fd mode
      · exact .same hfail.samePaths
      · exact .same (samePaths_both heq (samePaths_modifyFile (by simp)) (by simp))
  | movFil src dst =>
      obtain hfail | ⟨p, q, i, rfl, rfl, hpath, heq⟩ := movFil_cases s src dst
      · exact .same hfail.samePaths
      · refine .move rfl hpath (pathSet_after heq ?_ (by simp))
        exact pathSet_modifyFile (findPath_named hpath).doesExist (by simp)
  | opnRec fd recIdx mode =>
      have hauto := samePaths_autoCreate (fsInitOnce s) fd recIdx
      obtain ⟨hfail, -⟩ | ⟨-, -, heq⟩ | ⟨i, -, -, heq⟩ := opnRec_cases s fd recIdx mode
      · exact .same hfail.samePaths
      · exact .same (samePaths_after heq hauto (by simp))
      · exact .same (samePaths_after heq (hauto.trans (samePaths_modifyOpenRec _ _ _)) (by simp))
  | clsRec recId =>
      obtain hfail | heq := clsRec_cases s recId
      · exact .same hfail.samePaths
      · exact .same (samePaths_both heq (samePaths_modifyOpenRec _ _ _) (by simp))
  | rdRec recId buf sz =>
      obtain ⟨heq, -⟩ | ⟨n, -, -, -, heq⟩ := rdRec_cases s recId buf sz
      · exact .same (by rw [Op.exec, heq]; exact .refl _)
      · have hexec : (Op.rdRec recId buf sz).exec s = (s.modifyOpenRec (slot recId) fun o =>
            { o with offset := o.offset + n }, E_OK) := by
          rw [Op.exec, heq]
        exact .same (samePaths_both hexec (samePaths_modifyOpenRec _ _ _) (by simp))
  | wrRec recId buf sz =>
      obtain ⟨heq, -⟩ | ⟨_, _, _, _, _, _, _, _, heq⟩ := wrRec_cases s recId buf sz
      · exact .same (by rw [Op.exec, heq]; exact .refl _)
      · exact .same (samePaths_both heq
          ((samePaths_modifyRec _ _ _ _).trans (samePaths_modifyOpenRec _ _ _)) (by simp))
  | delRec fd recIdx =>
      obtain hfail | heq := delRec_cases s fd recIdx
      · exact .same hfail.samePaths
      · exact .same (samePaths_both heq (samePaths_modifyRec _ _ _ _) (by simp))
  | posRec recId offset origin =>
      obtain hfail | ⟨-, _, heq⟩ := posRec_cases s recId offset origin
      · exact .same hfail.samePaths
      · exact .same (samePaths_both heq (samePaths_modifyOpenRec _ _ _) (by simp))
  | trnRec recId sz =>
      obtain ⟨heq, -⟩ | ⟨_, _, _, _, _, _, heq⟩ := trnRec_cases s recId sz
      · exact .same (by rw [Op.exec, heq]; exact .refl _)
      · exact .same (samePaths_both heq (samePaths_modifyRec _ _ _ _) (by simp))

-- The calls that create no file under a cut path and rename no file to a cut path or to the path
-- of another file.
structure Tidy (s : Fs) (op : Op) : Prop where
  create : ∀ p i, op.newPath = some p → findPath (fsInitOnce s) p = none →
    findFree (fsInitOnce s) = some i → (cstr p).length ≤ 63
  move : ∀ p q i, op = .movFil (some p) (some q) → findPath (fsInitOnce s) p = some i →
    (cstr q).length ≤ 63 ∧
      (findPath (fsInitOnce s) q = none ∨ findPath (fsInitOnce s) q = some i)

-- The calls that delete or move the file with the path.
def Releases (op : Op) (p : List UB) : Prop :=
  ∃ q, cstr q = cstr p ∧ (op = .delFil (some q) ∨ ∃ dst, op = .movFil (some q) dst)

theorem strncpy_short {p : List UB} (h : (cstr p).length ≤ 63) : strncpy p 63 = cstr p := by
  rw [strncpy, List.take_of_length_le h]

theorem uniquePaths_same {s s' : Fs} (hs : UniquePaths s) (h : SamePaths s s') :
    UniquePaths s' := by
  intro i j hi hj hei hej hpath
  rw [(h i).1] at hei
  rw [(h j).1] at hej
  rw [(h i).2, (h j).2] at hpath
  exact hs i j hi hj hei hej hpath

-- Naming one file by a path that no other file has keeps the paths unique.
theorem uniquePaths_set {s s' : Fs} {i : Nat} {p : List UB} (hs : UniquePaths s)
    (h : PathSet s s' i (some (cstr p))) (hp : ∀ j, j ≠ i → ¬Named s p j) : UniquePaths s' := by
  intro a b ha hb hea heb hpath
  have hother : ∀ j, j ≠ i → j < maxFsFiles → (s'.files j).doesExist = true →
      (s'.files j).path ≠ cstr p := by
    intro j hj hlt hexist hcell
    rw [(h.others j hj).1] at hexist
    rw [(h.others j hj).2] at hcell
    exact hp j hj ⟨hlt, hexist, hcell⟩
  have hself := h.path_eq _ rfl
  by_cases hai : a = i
  · by_cases hbi : b = i
    · rw [hai, hbi]
    · rw [hai, hself] at hpath
      exact absurd hpath.symm (hother b hbi hb heb)
  · by_cases hbi : b = i
    · rw [hbi, hself] at hpath
      exact absurd hpath (hother a hai ha hea)
    · rw [(h.others a hai).1] at hea
      rw [(h.others b hbi).1] at heb
      rw [(h.others a hai).2, (h.others b hbi).2] at hpath
      exact hs a b ha hb hea heb hpath

theorem uniquePaths_delete {s s' : Fs} {i : Nat} (hs : UniquePaths s) (h : PathSet s s' i none) :
    UniquePaths s' := by
  have hne : ∀ j, (s'.files j).doesExist = true → j ≠ i := by
    rintro j hexist rfl
    rw [h.doesExist] at hexist
    simp at hexist
  intro a b ha hb hea heb hpath
  obtain ⟨ha1, ha2⟩ := h.others a (hne a hea)
  obtain ⟨hb1, hb2⟩ := h.others b (hne b heb)
  rw [ha1] at hea
  rw [hb1] at heb
  rw [ha2, hb2] at hpath
  exact hs a b ha hb hea heb hpath

theorem uniquePaths_exec {s : Fs} {op : Op} (hs : UniquePaths (fsInitOnce s)) (hok : Tidy s op) :
    UniquePaths (fsInitOnce (op.exec s).1) := by
  cases path_effect s op with
  | same hsame => exact uniquePaths_same hs hsame
  | create hnew hpath hfree hset =>
      rw [strncpy_short (hok.create _ _ hnew hpath hfree)] at hset
      exact uniquePaths_set hs hset fun j _ => findPath_none hpath j
  | delete _ _ hset => exact uniquePaths_delete hs hset
  | @move p q i hop hpath hset =>
      obtain ⟨hlen, hdst⟩ := hok.move _ _ _ hop hpath
      rw [strncpy_short hlen] at hset
      apply uniquePaths_set hs hset
      intro j hj hnamed
      have hfind := findPath_eq hs hnamed
      rw [hfind] at hdst
      simp [hj] at hdst

theorem named_of_others {s s' : Fs} {p : List UB} {i j : Nat} {path : Option (List UB)}
    (h : Named s p i) (hset : PathSet s s' j path) (hij : i ≠ j) : Named s' p i :=
  ⟨h.lt, (hset.others i hij).1.trans h.doesExist, (hset.others i hij).2.trans h.path_eq⟩

-- A file keeps its path until a call deletes or moves it.
theorem named_exec {s : Fs} {op : Op} {p : List UB} {i : Nat} (h : Named (fsInitOnce s) p i)
    (hkeep : ¬Releases op p) : Named (fsInitOnce (op.exec s).1) p i := by
  cases path_effect s op with
  | same hsame => exact ⟨h.lt, (hsame i).1.trans h.doesExist, (hsame i).2.trans h.path_eq⟩
  | create _ _ hfree hset =>
      apply named_of_others h hset
      rintro rfl
      exact absurd h.doesExist (by simp [(findFree_spec hfree).2])
  | delete hop hpath hset =>
      apply named_of_others h hset
      rintro rfl
      exact hkeep ⟨_, (findPath_named hpath).path_eq.symm.trans h.path_eq, .inl hop⟩
  | move hop hpath hset =>
      apply named_of_others h hset
      rintro rfl
      exact hkeep ⟨_, (findPath_named hpath).path_eq.symm.trans h.path_eq, .inr ⟨_, hop⟩⟩

theorem uniquePaths_start : UniquePaths (fsInitOnce .start) := by
  have hexist : ∀ i, ((fsInitOnce .start).files i).doesExist = true → i = 0 := by
    intro i hi
    by_contra hne
    simp [fsInitOnce, Fs.start, hne, File.zero] at hi
  intro i j _ _ hi hj _
  rw [hexist i hi, hexist j hj]

theorem uniquePaths_run {tr : List (Fs × Op)} {s s' : Fs} (hs : UniquePaths (fsInitOnce s))
    (htr : Trace Step s tr s') (hok : ∀ t ∈ tr, Tidy t.1 t.2) : UniquePaths (fsInitOnce s') := by
  refine htr.preserves (P := fun s => UniquePaths (fsInitOnce s)) hs ?_ hok
  rintro s op s' hs hC rfl
  exact uniquePaths_exec hs hC

theorem named_run {tr : List (Fs × Op)} {s s' : Fs} {p : List UB} {i : Nat}
    (h : Named (fsInitOnce s) p i) (htr : Trace Step s tr s')
    (hkeep : ∀ t ∈ tr, ¬Releases t.2 p) : Named (fsInitOnce s') p i := by
  refine htr.preserves (P := fun s => Named (fsInitOnce s) p i) (C := fun _ op => ¬Releases op p)
    h ?_ hkeep
  rintro s op s' hs hC rfl
  exact named_exec hs hC

-- A successful call after which the file `fd` should be found under the path.
def Gives (s : Fs) (op : Op) (p : List UB) (fd : Int) : Prop :=
  (∃ mode, op = .creFil (some p) mode ∧ (op.exec s).2 = fd ∧ 0 < fd) ∨
    ∃ q, op = .movFil (some q) (some p) ∧ (op.exec s).2 = E_OK ∧ (opnFil s (some q) 0).2 = fd

theorem creFil_named {s : Fs} {p : List UB} {mode : Nat} {fd : Int}
    (hok : Tidy s (.creFil (some p) mode)) (hfd : (creFil s (some p) mode).2 = fd) (hpos : 0 < fd) :
    ∃ i : Nat, fd = i + 1 ∧ Named (fsInitOnce (creFil s (some p) mode).1) p i := by
  unfold creFil at hfd ⊢
  obtain hfail | ⟨p, i, hp, hpath, heq⟩ | ⟨p, i, hp, hpath, -, hfree, heq⟩ :=
    opnFil_cases s (some p) (mode ||| F_CREATE)
  · have herr := hfail.error
    rw [hfd] at herr
    exact absurd hpos (Int.not_lt.mpr (Int.le_of_lt herr))
  · cases hp
    have hnamed := findPath_named hpath
    refine ⟨i, by rw [← hfd, heq], ?_⟩
    rw [heq, fsInitOnce_of_init (by simp)]
    refine ⟨hnamed.lt, ?_, ?_⟩
    · simpa [Fs.modifyFile] using hnamed.doesExist
    · simpa [Fs.modifyFile] using hnamed.path_eq
  · cases hp
    refine ⟨i, by rw [← hfd, heq], ?_⟩
    rw [heq, fsInitOnce_of_init (by simp)]
    refine ⟨(findFree_spec hfree).1, by simp [Fs.modifyFile], ?_⟩
    simpa [Fs.modifyFile] using strncpy_short (hok.create p i rfl hpath hfree)

theorem movFil_named {s : Fs} {p q : List UB} {fd : Int}
    (hok : Tidy s (.movFil (some q) (some p))) (hres : (movFil s (some q) (some p)).2 = E_OK)
    (hfd : (opnFil s (some q) 0).2 = fd) :
    ∃ i : Nat, fd = i + 1 ∧ Named (fsInitOnce (movFil s (some q) (some p)).1) p i := by
  obtain hfail | ⟨q, p, i, hq, hp, hpath, heq⟩ := movFil_cases s (some q) (some p)
  · have herr := hfail.error
    rw [hres] at herr
    exact absurd herr (Int.lt_irrefl 0)
  · cases hq
    cases hp
    have hnamed := findPath_named hpath
    refine ⟨i, by simp [← hfd, opnFil, hpath], ?_⟩
    rw [heq, fsInitOnce_of_init (by simp)]
    refine ⟨hnamed.lt, ?_, ?_⟩
    · simpa [Fs.modifyFile] using hnamed.doesExist
    · simpa [Fs.modifyFile] using strncpy_short (hok.move q p i rfl hpath).1

theorem gives_named {s : Fs} {op : Op} {p : List UB} {fd : Int} (hok : Tidy s op)
    (h : Gives s op p fd) : ∃ i : Nat, fd = i + 1 ∧ Named (fsInitOnce (op.exec s).1) p i := by
  obtain ⟨mode, rfl, hfd, hpos⟩ | ⟨q, rfl, hres, hfd⟩ := h
  · exact creFil_named hok hfd hpos
  · exact movFil_named hok hres hfd

-- In a run of tidy calls the paths are unique, and the file a call gives a path is opened under
-- it until the path is released.
theorem paths_are_a_map (tr : List (Fs × Op)) (s : Fs) (htr : Trace Step .start tr s)
    (hok : ∀ t ∈ tr, Tidy t.1 t.2) :
    UniquePaths (fsInitOnce s) ∧
      ∀ op p fd, Tidy s op → Gives s op p fd →
        ∀ tr' s', Trace Step (op.exec s).1 tr' s' →
          (∀ t ∈ tr', Tidy t.1 t.2 ∧ ¬Releases t.2 p) →
          ∀ mode, (opnFil s' (some p) mode).2 = fd := by
  have hunique := uniquePaths_run uniquePaths_start htr hok
  refine ⟨hunique, fun op p fd hop hgives tr' s' htr' hok' mode => ?_⟩
  obtain ⟨i, rfl, hnamed⟩ := gives_named hop hgives
  have hunique' := uniquePaths_run (uniquePaths_exec hunique hop) htr' fun t ht => (hok' t ht).1
  exact opnFil_named hunique' (named_run hnamed htr' fun t ht => (hok' t ht).2) mode

-- A file is created, and opened under its path after another one is created.
theorem paths_are_a_map_two_files :
    (opnFil (runOps .start [.creFil (some [0x61]) 0, .creFil (some [0x62]) 0]) (some [0x61]) 0).2 =
      2 := by
  have htidy : ∀ s p mode, p.length ≤ 63 → Tidy s (.creFil (some p) mode) := by
    intro s p mode hlen
    refine ⟨fun q i hq _ _ => ?_, fun q q' i hop => by cases hop⟩
    cases hq
    exact Nat.le_trans (List.takeWhile_sublist _).length_le hlen
  have hgives : Gives .start (.creFil (some [0x61]) 0) [0x61] 2 :=
    .inl ⟨0, rfl, by decide, by decide⟩
  refine (paths_are_a_map [] .start .start (by simp)).2 _ [0x61] 2 (htidy _ _ _ (by decide)) hgives
    _ _ (.next (a := .creFil (some [0x62]) 0) .start rfl) ?_ 0
  simp only [List.mem_singleton, forall_eq]
  refine ⟨htidy _ _ _ (by decide), ?_⟩
  rintro ⟨q, -, hop | ⟨dst, hop⟩⟩ <;> cases hop

-- A path of 64 bytes is stored cut, and a file is moved onto the path of another.
theorem paths_not_a_map :
    ((creFil .start (some (List.replicate 64 0x61)) 0).2 = 2 ∧
      (opnFil (creFil .start (some (List.replicate 64 0x61)) 0).1
        (some (List.replicate 64 0x61)) 0).2 = ER_NOEXS) ∧
    ¬UniquePaths (runOps .start [.creFil (some [0x61]) 0, .creFil (some [0x62]) 0,
      .movFil (some [0x61]) (some [0x62])]) := by
  refine ⟨⟨by decide, by decide⟩, fun h => ?_⟩
  have hij := h 1 2 (by decide) (by decide) (by decide) (by decide)
    (by decide)
  exact absurd hij (by decide)

end BTron.FsRecord
