import BTron.FsRecord.Paths
import BTron.FsRecord.Stream

namespace BTron.FsRecord

open Lib

-- The tables with the history of the files: how many files a slot has had before its present one,
-- the sizes its records had when that was created, and the life of the slot in which a byte was
-- written and a handle was opened.
structure Lives where
  fs : Fs
  life : Nat → Nat
  born : Nat → Nat → Int
  writtenIn : Nat → Nat → Nat → Option Nat
  openedIn : Nat → Nat

def Lives.tables (x : Lives) : Fs := fsInitOnce x.fs

def Created (s s' : Fs) (i : Nat) : Prop :=
  (s.files i).doesExist = false ∧ (s'.files i).doesExist = true

def Opened (s s' : Fs) (h : Nat) : Prop :=
  (s.openRecs h).isOpen = false ∧ (s'.openRecs h).isOpen = true

instance (s s' : Fs) (i : Nat) : Decidable (Created s s' i) := inferInstanceAs (Decidable (_ ∧ _))
instance (s s' : Fs) (h : Nat) : Decidable (Opened s s' h) := inferInstanceAs (Decidable (_ ∧ _))

def Lives.next (x : Lives) (op : Op) : Lives where
  fs := (op.exec x.fs).1
  life i := if Created x.tables (fsInitOnce (op.exec x.fs).1) i then x.life i + 1 else x.life i
  born i r :=
    if Created x.tables (fsInitOnce (op.exec x.fs).1) i then
      ((fsInitOnce (op.exec x.fs).1).record i r).size
    else x.born i r
  writtenIn i r k :=
    if (wroteAt x.tables op i r k).isSome then some (x.life i) else x.writtenIn i r k
  openedIn h :=
    if Opened x.tables (fsInitOnce (op.exec x.fs).1) h then
      x.life (slot ((fsInitOnce (op.exec x.fs).1).openRecs h).fd)
    else x.openedIn h

-- /sys/startup.tad is the first file of its slot, with its text.
def Lives.start : Lives where
  fs := .start
  life _ := 0
  born _ _ := 0
  writtenIn i r k := if i = 0 ∧ r = 0 ∧ k < startupText.length then some 0 else none
  openedIn _ := 0

def LivesStep (x : Lives) (op : Op) (x' : Lives) : Prop := x.next op = x'

-- The byte was written in the present life of its slot, if it was written at all.
def Own (x : Lives) (i r k : Nat) : Prop := ∀ l, x.writtenIn i r k = some l → l = x.life i

-- What is left of a deleted file is out of reach.
structure Apart (x : Lives) : Prop where
  own : ∀ i r (k : Nat), (x.tables.files i).doesExist = true → k < (x.tables.record i r).size →
    Own x i r k
  handle : ∀ h, (x.tables.openRecs h).isOpen = true →
    (x.tables.files (slot (x.tables.openRecs h).fd)).doesExist = true ∧
      x.openedIn h = x.life (slot (x.tables.openRecs h).fd)
  empty : ∀ i r, (x.tables.files i).doesExist = true → x.born i r = 0

-- Every byte a `rd_rec` returns is one of the file that was there when the handle was opened.
def ReadsOwn (x : Lives) : Prop :=
  ∀ recId buf sz j b, (rdRec x.fs recId buf sz).2.2[j]? = some b →
    (x.fs.files (slot (x.fs.openRecs (slot recId)).fd)).doesExist = true ∧
      x.openedIn (slot recId) = x.life (slot (x.fs.openRecs (slot recId)).fd) ∧
      Own x (slot (x.fs.openRecs (slot recId)).fd) (x.fs.openRecs (slot recId)).recIdx.toNat
        ((x.fs.openRecs (slot recId)).offset.toNat + j)

-- A gap that a write leaves and a larger size bring in no byte of another life.
structure GrowsOver (x : Lives) (op : Op) : Prop where
  write : ∀ o n buf (k : Nat), op.write x.tables = some (o, n, buf) →
    (o.target x.tables).size ≤ k → k < o.offset → Own x (slot o.fd) o.recIdx.toNat k
  resize : ∀ o sz (k : Nat), op.resize x.tables = some (o, sz) →
    (o.target x.tables).size ≤ k → k < sz → Own x (slot o.fd) o.recIdx.toNat k

-- The operations that bring back nothing of a deleted file: a file is deleted when no handle is
-- open on it, and created over empty records.
structure Clears (x : Lives) (op : Op) : Prop where
  delete : ∀ p i h, op = .delFil (some p) → findPath x.tables p = some i →
    (x.tables.openRecs h).isOpen = true → slot (x.tables.openRecs h).fd ≠ i
  create : ∀ p i r, op.newPath = some p → findPath x.tables p = none →
    findFree x.tables = some i → (x.tables.record i r).size = 0
  grow : GrowsOver x op

@[simp] theorem tables_nextLives (x : Lives) (op : Op) :
    (x.next op).tables = fsInitOnce (op.exec x.fs).1 := rfl

-- What the calls that create and delete files leave alone.
structure KeepsContents (s s' : Fs) (op : Op) : Prop where
  recs : SameRecs s s'
  handles : s'.openRecs = s.openRecs
  write : op.write s = none
  resize : op.resize s = none

theorem keepsContents_delFil (s : Fs) (path : Option (List UB)) :
    KeepsContents (fsInitOnce s) (fsInitOnce (delFil s path).1) (.delFil path) := by
  obtain hfail | ⟨p, i, -, -, heq⟩ := delFil_cases s path
  · exact ⟨hfail.sameRecs, by rw [hfail.tables], rfl, rfl⟩
  · exact ⟨sameRecs_after heq (sameRecs_modifyFile (by simp)) (by simp),
      by rw [tables_after heq (by simp), openRecs_modifyFile], rfl, rfl⟩

theorem opnFil_sameOpenRecs (s : Fs) (path : Option (List UB)) (mode : Nat) :
    (fsInitOnce (opnFil s path mode).1).openRecs = (fsInitOnce s).openRecs := by
  obtain hfail | ⟨p, i, -, -, heq⟩ | ⟨p, i, -, -, -, -, heq⟩ := opnFil_cases s path mode
  · rw [hfail.tables]
  · rw [tables_after heq (by simp), openRecs_modifyFile]
  · rw [tables_after heq (by simp), openRecs_modifyFile]

theorem keepsContents_of_newPath (s : Fs) {op : Op} {p : List UB} (h : op.newPath = some p) :
    KeepsContents (fsInitOnce s) (fsInitOnce (op.exec s).1) op := by
  cases op with
  | opnFil path mode =>
      exact ⟨opnFil_sameRecs s path mode, opnFil_sameOpenRecs s path mode, rfl, rfl⟩
  | creFil path mode =>
      exact ⟨opnFil_sameRecs s path _, opnFil_sameOpenRecs s path _, rfl, rfl⟩
  | _ => cases h

theorem delFil_deletes {s : Fs} {p : List UB} {i : Nat}
    (h : findPath (fsInitOnce s) p = some i) :
    PathSet (fsInitOnce s) (fsInitOnce (delFil s (some p)).1) i none := by
  have heq : delFil s (some p) = ((fsInitOnce s).modifyFile i fun f =>
      { f with doesExist := false, isOpen := false }, E_OK) := by
    simp only [delFil, h]
  exact pathSet_after heq (pathSet_modifyFile rfl (by simp)) (by simp)

theorem opnFil_creates {s : Fs} {p : List UB} {i mode : Nat} (hmode : mode &&& F_CREATE ≠ 0)
    (hpath : findPath (fsInitOnce s) p = none) (hfree : findFree (fsInitOnce s) = some i) :
    PathSet (fsInitOnce s) (fsInitOnce (opnFil s (some p) mode).1) i (some (strncpy p 63)) := by
  have heq : opnFil s (some p) mode = ((fsInitOnce s).modifyFile i fun f =>
      { f with
          doesExist := true
          isOpen := true
          mode := mode
          numRecords := 0
          path := strncpy p 63 }, (i : Int) + 1) := by
    simp only [opnFil, hpath, if_neg hmode, hfree]
  exact pathSet_after heq (pathSet_modifyFile rfl (by simp)) (by simp)

theorem newPath_creates {s : Fs} {op : Op} {p : List UB} {i : Nat} (hnew : op.newPath = some p)
    (hpath : findPath (fsInitOnce s) p = none) (hfree : findFree (fsInitOnce s) = some i) :
    PathSet (fsInitOnce s) (fsInitOnce (op.exec s).1) i (some (strncpy p 63)) := by
  cases op with
  | opnFil path mode =>
      simp only [Op.newPath] at hnew
      split_ifs at hnew with hmode
      subst hnew
      exact opnFil_creates hmode hpath hfree
  | creFil path mode =>
      cases hnew
      exact opnFil_creates (create_of_or mode) hpath hfree
  | _ => cases hnew

section Next

variable {x : Lives} {op : Op}

theorem life_of_existed {i : Nat} (h : (x.tables.files i).doesExist = true) :
    (x.next op).life i = x.life i := by
  simp only [Lives.next, Created, h, Bool.true_eq_false, false_and, if_false]

theorem born_of_existed {i : Nat} (h : (x.tables.files i).doesExist = true) (r : Nat) :
    (x.next op).born i r = x.born i r := by
  simp only [Lives.next, Created, h, Bool.true_eq_false, false_and, if_false]

theorem writtenIn_of_no_write (h : op.write x.tables = none) (i r k : Nat) :
    (x.next op).writtenIn i r k = x.writtenIn i r k := by
  simp only [Lives.next, wroteAt_none h, Option.isSome_none, Bool.false_eq_true, if_false]

theorem openedIn_of_open {h : Nat} (hopen : (x.tables.openRecs h).isOpen = true) :
    (x.next op).openedIn h = x.openedIn h := by
  simp only [Lives.next, Opened, hopen, Bool.true_eq_false, false_and, if_false]

-- A byte that is not written over stays one of the present life or of an earlier one.
theorem own_of_no_write {i : Nat} (hexist : (x.tables.files i).doesExist = true)
    (h : op.write x.tables = none) (r k : Nat) : Own (x.next op) i r k ↔ Own x i r k := by
  simp only [Own, writtenIn_of_no_write h, life_of_existed hexist]

end Next

-- No call changes the file of an open handle.
theorem handles_next {x : Lives} (hx : Apart x) {op : Op}
    (hsame : ∀ i, ((x.next op).tables.files i).doesExist = (x.tables.files i).doesExist) (h : Nat)
    (hopen : ((x.next op).tables.openRecs h).isOpen = true) :
    ((x.next op).tables.files (slot ((x.next op).tables.openRecs h).fd)).doesExist = true ∧
      (x.next op).openedIn h = (x.next op).life (slot ((x.next op).tables.openRecs h).fd) := by
  -- a handle that was open keeps its file
  have hkept : (x.tables.openRecs h).isOpen = true →
      ((x.next op).tables.openRecs h).fd = (x.tables.openRecs h).fd →
      ((x.next op).tables.files (slot ((x.next op).tables.openRecs h).fd)).doesExist = true ∧
        (x.next op).openedIn h = (x.next op).life (slot ((x.next op).tables.openRecs h).fd) := by
    intro hwas hfd
    obtain ⟨hexist, hlife⟩ := hx.handle h hwas
    rw [hfd, hsame, openedIn_of_open hwas, life_of_existed hexist]
    exact ⟨hexist, hlife⟩
  cases handle_effect x.fs op with
  | same heq =>
      rw [tables_nextLives, heq] at hopen
      exact hkept hopen (by rw [tables_nextLives, heq]; rfl)
  | @move i pos hwas heq _ =>
      by_cases hi : h = i
      · subst hi
        exact hkept hwas (by rw [tables_nextLives, heq, Function.update_self]; rfl)
      · rw [tables_nextLives, heq, Function.update_of_ne hi] at hopen
        exact hkept hopen (by rw [tables_nextLives, heq, Function.update_of_ne hi]; rfl)
  | @opened fd recIdx mode i _ hnames hclosed heq =>
      by_cases hi : h = i
      · subst hi
        have hfd : ((x.next op).tables.openRecs h).fd = fd := by
          rw [tables_nextLives, heq, Function.update_self]
        have hexist : (x.tables.files (slot fd)).doesExist = true := hnames.doesExist
        rw [hfd, hsame, life_of_existed hexist]
        refine ⟨hexist, ?_⟩
        rw [← hfd]
        exact if_pos ⟨hclosed, hopen⟩
      · rw [tables_nextLives, heq, Function.update_of_ne hi] at hopen
        exact hkept hopen (by rw [tables_nextLives, heq, Function.update_of_ne hi]; rfl)
  | @closed i heq =>
      by_cases hi : h = i
      · subst hi
        simp [heq] at hopen
      · rw [tables_nextLives, heq, Function.update_of_ne hi] at hopen
        exact hkept hopen (by rw [tables_nextLives, heq, Function.update_of_ne hi]; rfl)

-- A deleted file leaves the others as they are.
theorem apart_delete_iff {x : Lives} (hx : Apart x) {op : Op} {i : Nat}
    (hset : PathSet x.tables (x.next op).tables i none)
    (hkeep : KeepsContents x.tables (x.next op).tables op) :
    Apart (x.next op) ↔
      ∀ h, (x.tables.openRecs h).isOpen = true → slot (x.tables.openRecs h).fd ≠ i := by
  have hgone : ((x.next op).tables.files i).doesExist = false := hset.doesExist
  -- a file that still exists is another one
  have hother : ∀ j, ((x.next op).tables.files j).doesExist = true →
      (x.tables.files j).doesExist = true := by
    intro j hj
    have hji : j ≠ i := by
      rintro rfl
      rw [hgone] at hj
      cases hj
    rwa [(hset.others j hji).1] at hj
  constructor
  · intro hnext h hopen heq
    have hfile := (hnext.handle h (by rwa [hkeep.handles])).1
    rw [hkeep.handles, heq, hgone] at hfile
    cases hfile
  · intro hfree
    constructor
    · intro j r k hexist hk
      rw [(hkeep.recs j r).2] at hk
      exact (own_of_no_write (hother j hexist) hkeep.write r k).mpr
        (hx.own j r k (hother j hexist) hk)
    · intro h hopen
      rw [hkeep.handles] at hopen ⊢
      obtain ⟨hexist, hlife⟩ := hx.handle h hopen
      rw [(hset.others _ (hfree h hopen)).1, openedIn_of_open hopen, life_of_existed hexist]
      exact ⟨hexist, hlife⟩
    · intro j r hexist
      rw [born_of_existed (hother j hexist)]
      exact hx.empty j r (hother j hexist)

-- A file is created where none was, so no handle is open on it.
theorem apart_create_iff {x : Lives} (hx : Apart x) {op : Op} {i : Nat} {path : List UB}
    (hno : (x.tables.files i).doesExist = false)
    (hset : PathSet x.tables (x.next op).tables i (some path))
    (hkeep : KeepsContents x.tables (x.next op).tables op) :
    Apart (x.next op) ↔ ∀ r, (x.tables.record i r).size = 0 := by
  have hnew : ((x.next op).tables.files i).doesExist = true := hset.doesExist
  have hborn : ∀ r, (x.next op).born i r = (x.tables.record i r).size := by
    intro r
    rw [← (hkeep.recs i r).2]
    exact if_pos ⟨hno, hnew⟩
  have hother : ∀ j, j ≠ i → ((x.next op).tables.files j).doesExist = true →
      (x.tables.files j).doesExist = true := by
    intro j hji hj
    rwa [(hset.others j hji).1] at hj
  constructor
  · intro hnext r
    rw [← hborn]
    exact hnext.empty i r hnew
  · intro hempty
    constructor
    · intro j r k hexist hk
      rw [(hkeep.recs j r).2] at hk
      by_cases hji : j = i
      · rw [hji, hempty] at hk
        omega
      · exact (own_of_no_write (hother j hji hexist) hkeep.write r k).mpr
          (hx.own j r k (hother j hji hexist) hk)
    · intro h hopen
      rw [hkeep.handles] at hopen ⊢
      obtain ⟨hexist, hlife⟩ := hx.handle h hopen
      have hji : slot (x.tables.openRecs h).fd ≠ i := by
        intro heq
        rw [heq, hno] at hexist
        cases hexist
      rw [(hset.others _ hji).1, openedIn_of_open hopen, life_of_existed hexist]
      exact ⟨hexist, hlife⟩
    · intro j r hexist
      by_cases hji : j = i
      · rw [hji, hborn, hempty]
      · rw [born_of_existed (hother j hji hexist)]
        exact hx.empty j r (hother j hji hexist)

-- Where no file comes or goes, only the bytes that come into a record matter.
theorem apart_same_iff {x : Lives} (hx : Apart x) {op : Op}
    (hsame : ∀ i, ((x.next op).tables.files i).doesExist = (x.tables.files i).doesExist) :
    Apart (x.next op) ↔ ∀ i r (k : Nat), (x.tables.files i).doesExist = true →
      k < ((x.next op).tables.record i r).size → Own (x.next op) i r k := by
  constructor
  · intro hnext i r k hexist hk
    exact hnext.own i r k (by rwa [hsame]) hk
  · intro hown
    refine ⟨fun i r k hexist hk => ?_, handles_next hx hsame, fun i r hexist => ?_⟩
    · rw [hsame] at hexist
      exact hown i r k hexist hk
    · rw [hsame] at hexist
      rw [born_of_existed hexist]
      exact hx.empty i r hexist

theorem growsOver_of_none {x : Lives} {op : Op} (hwrite : op.write x.tables = none)
    (hresize : op.resize x.tables = none) : GrowsOver x op := by
  constructor
  · intro o n buf k h
    simp [hwrite] at h
  · intro o sz k h
    simp [hresize] at h

theorem own_resize_iff {x : Lives} (hx : Apart x) {op : Op} {i r : Nat} {size : Int}
    (hexist : (x.tables.files i).doesExist = true) (hwrite : op.write x.tables = none)
    (hrec : RecSet x.tables (x.next op).tables i r (x.tables.record i r).data size) :
    (∀ j q (k : Nat), (x.tables.files j).doesExist = true →
      k < ((x.next op).tables.record j q).size → Own (x.next op) j q k) ↔
      ∀ k : Nat, (x.tables.record i r).size ≤ k → k < size → Own x i r k := by
  have hsize := fun j q => (hrec j q).2
  constructor
  · intro hown k _ hk
    refine (own_of_no_write hexist hwrite r k).mp (hown i r k hexist ?_)
    rwa [hsize, if_pos ⟨rfl, rfl⟩]
  · intro hgrow j q k hj hk
    rw [own_of_no_write hj hwrite]
    by_cases hold : k < (x.tables.record j q).size
    · exact hx.own j q k hj hold
    · rw [hsize] at hk
      split_ifs at hk with heq
      · rw [heq.1, heq.2] at hold ⊢
        exact hgrow k (Int.not_lt.mp hold) hk
      · exact absurd hk hold

theorem own_write_iff {x : Lives} (hx : Apart x) {op : Op} {o : OpenRec} {n : Int}
    {buf data : Memory}
    (hexist : (x.tables.files (slot o.fd)).doesExist = true) (h0 : 0 ≤ o.offset) (hpos : 0 < n)
    (hwrite : op.write x.tables = some (o, n, buf))
    (hrec : RecSet x.tables (x.next op).tables (slot o.fd) o.recIdx.toNat data
      (if o.offset + n > (o.target x.tables).size then o.offset + n
        else (o.target x.tables).size)) :
    (∀ j q (k : Nat), (x.tables.files j).doesExist = true →
      k < ((x.next op).tables.record j q).size → Own (x.next op) j q k) ↔
      ∀ k : Nat, (o.target x.tables).size ≤ k → k < o.offset →
        Own x (slot o.fd) o.recIdx.toNat k := by
  have hsize := fun j q => (hrec j q).2
  have hwritten : ∀ j q k, (x.next op).writtenIn j q k =
      if slot o.fd = j ∧ o.recIdx.toNat = q ∧ o.offset.toNat ≤ k ∧ k < o.offset.toNat + n.toNat then
        some (x.life j) else x.writtenIn j q k := by
    intro j q k
    simp only [Lives.next, wroteAt, hwrite]
    split_ifs <;> simp_all
  constructor
  · intro hown k hle hk
    have hnext := hown (slot o.fd) o.recIdx.toNat k hexist (by
      rw [hsize, if_pos ⟨rfl, rfl⟩]
      split <;> omega)
    rwa [Own, hwritten, if_neg (by omega), life_of_existed hexist] at hnext
  · intro hgrow j q k hj hk
    rw [Own, hwritten, life_of_existed hj]
    split_ifs with hin
    · intro l hl
      exact (Option.some.inj hl).symm
    · by_cases hold : k < (x.tables.record j q).size
      · exact hx.own j q k hj hold
      · rw [hsize] at hk
        split_ifs at hk with heq hend
        · obtain ⟨rfl, rfl⟩ := heq
          exact hgrow k (Int.not_lt.mp hold) (by omega)
        · obtain ⟨rfl, rfl⟩ := heq
          exact absurd hk hold
        · exact absurd hk hold

theorem own_next_iff {x : Lives} (hb : Bounded x.tables) (hx : Apart x) (op : Op) :
    (∀ j q (k : Nat), (x.tables.files j).doesExist = true →
      k < ((x.next op).tables.record j q).size → Own (x.next op) j q k) ↔ GrowsOver x op := by
  have heffect : RecEffect x.tables (x.next op).tables op := rec_effect x.fs op
  cases heffect with
  | same hwrite hresize hsame =>
      refine iff_of_true (fun j q k hj hk => ?_) (growsOver_of_none hwrite hresize)
      rw [(hsame j q).2] at hk
      exact (own_of_no_write hj hwrite q k).mpr (hx.own j q k hj hk)
  | @clear i r hwrite hresize hrec =>
      refine iff_of_true (fun j q k hj hk => ?_) (growsOver_of_none hwrite hresize)
      rw [(hrec j q).2] at hk
      split_ifs at hk
      · omega
      · exact (own_of_no_write hj hwrite q k).mpr (hx.own j q k hj hk)
  | @write o n buf h hwrite hresize ho hopen hpos _ hrec =>
      have hhandle := hx.handle h (by rw [← ho]; exact hopen)
      have hoffset := (hb.offset h).1
      rw [← ho] at hhandle hoffset
      refine (own_write_iff hx hhandle.1 hoffset hpos hwrite hrec).trans
        ⟨fun hgrow => ?_, fun hgrow k => hgrow.write o n buf k hwrite⟩
      refine ⟨fun o' n' buf' k hwrite' => ?_, fun o' sz' k hresize' => ?_⟩
      · cases hwrite.symm.trans hwrite'
        exact hgrow k
      · cases hresize.symm.trans hresize'
  | @resize o sz h hwrite hresize ho hopen _ _ hrec =>
      have hhandle := hx.handle h (by rw [← ho]; exact hopen)
      rw [← ho] at hhandle
      refine (own_resize_iff hx hhandle.1 hwrite hrec).trans
        ⟨fun hgrow => ?_, fun hgrow k => hgrow.resize o sz k hresize⟩
      refine ⟨fun o' n' buf' k hwrite' => ?_, fun o' sz' k hresize' => ?_⟩
      · cases hwrite.symm.trans hwrite'
      · cases hresize.symm.trans hresize'
        exact hgrow k

def Deletes (s : Fs) (op : Op) : Prop :=
  ∃ p i, op = .delFil (some p) ∧ findPath s p = some i

def Creates (s : Fs) (op : Op) : Prop :=
  ∃ p i, op.newPath = some p ∧ findPath s p = none ∧ findFree s = some i

-- The other calls neither create nor delete a file.
theorem sameExist_of_not {x : Lives} {op : Op} (hdelete : ¬Deletes x.tables op)
    (hcreate : ¬Creates x.tables op) (i : Nat) :
    ((x.next op).tables.files i).doesExist = (x.tables.files i).doesExist := by
  have heffect : PathEffect x.tables (x.next op).tables op := path_effect x.fs op
  cases heffect with
  | same hsame => exact (hsame i).1
  | create hnew hpath hfree _ => exact absurd ⟨_, _, hnew, hpath, hfree⟩ hcreate
  | delete hop hpath _ => exact absurd ⟨_, _, hop, hpath⟩ hdelete
  | @move p q j hop hpath hset =>
      by_cases hij : i = j
      · subst hij
        rw [hset.doesExist, (findPath_named hpath).doesExist]
        rfl
      · exact (hset.others i hij).1

theorem apart_next_iff {x : Lives} (hb : Bounded x.tables) (hx : Apart x) (op : Op) :
    Apart (x.next op) ↔ Clears x op := by
  by_cases hdelete : Deletes x.tables op
  · obtain ⟨p, i, rfl, hpath⟩ := hdelete
    have hset : PathSet x.tables (x.next (.delFil (some p))).tables i none := delFil_deletes hpath
    refine (apart_delete_iff hx hset (keepsContents_delFil x.fs _)).trans
      ⟨fun hfree => ⟨fun p' i' h hop hpath' => ?_, fun p' i' r hnew => (by cases hnew),
        growsOver_of_none rfl rfl⟩, fun hclears h => hclears.delete p i h rfl hpath⟩
    cases hop
    cases hpath.symm.trans hpath'
    exact hfree h
  · by_cases hcreate : Creates x.tables op
    · obtain ⟨p, i, hnew, hpath, hfree⟩ := hcreate
      have hkeep : KeepsContents x.tables (x.next op).tables op :=
        keepsContents_of_newPath x.fs hnew
      refine (apart_create_iff hx (findFree_spec hfree).2 (newPath_creates hnew hpath hfree)
        hkeep).trans ⟨fun hempty => ⟨fun p' i' h hop hpath' => ?_, fun p' i' r hnew' _ hfree' => ?_,
          growsOver_of_none hkeep.write hkeep.resize⟩,
          fun hclears r => hclears.create p i r hnew hpath hfree⟩
      · exact absurd ⟨p', i', hop, hpath'⟩ hdelete
      · cases hfree.symm.trans hfree'
        exact hempty r
    · have hsame := sameExist_of_not hdelete hcreate
      refine (apart_same_iff hx hsame).trans ((own_next_iff hb hx op).trans
        ⟨fun hgrow => ⟨fun p i h hop hpath => ?_, fun p i r hnew hpath hfree => ?_, hgrow⟩,
          fun hclears => hclears.grow⟩)
      · exact absurd ⟨p, i, hop, hpath⟩ hdelete
      · exact absurd ⟨p, i, hnew, hpath, hfree⟩ hcreate

theorem readsOwn {x : Lives} (hs : Sealed x.fs) (hb : Bounded x.tables) (hx : Apart x) :
    ReadsOwn x := by
  intro recId buf sz j b hread
  obtain ⟨htables, hopen, hlt, -⟩ := rdRec_bytes hs hb hread
  have hhandle := hx.handle (slot recId)
  have hown := hx.own (slot (x.fs.openRecs (slot recId)).fd)
    (x.fs.openRecs (slot recId)).recIdx.toNat
    ((x.fs.openRecs (slot recId)).offset.toNat + j)
  rw [Lives.tables, htables] at hhandle hown
  obtain ⟨hexist, hlife⟩ := hhandle hopen
  exact ⟨hexist, hlife, hown hexist hlt⟩

theorem apart_start : Apart .start := by
  constructor
  · intro i r k _ _ l hl
    simp only [Lives.start] at hl
    split_ifs at hl
    exact (Option.some.inj hl).symm
  · intro h hopen
    exact absurd hopen (by
      rw [Lives.tables]
      simp [Lives.start, fsInitOnce, Fs.start, OpenRec.zero])
  · intro i r _
    rfl

-- In every run nothing of a deleted file comes back as long as every call clears what it must.
theorem deleted_files_stay_away (tr : List (Lives × Op)) (x : Lives)
    (htr : Trace LivesStep .start tr x) :
    (Apart x → ReadsOwn x) ∧
      ((Apart x ∧ ∀ t ∈ tr, Apart t.1) ↔ ∀ t ∈ tr, Clears t.1 t.2) := by
  have hstep : ∀ x op x', (Sealed x.fs ∧ Bounded x.tables) → LivesStep x op x' →
      Sealed x'.fs ∧ Bounded x'.tables := by
    rintro x op _ ⟨hs, hb⟩ rfl
    exact ⟨sealed_exec hs op, bounded_exec hb op⟩
  have h0 : Sealed Lives.start.fs ∧ Bounded Lives.start.tables := ⟨fun _ _ => rfl, bounded_start⟩
  obtain ⟨hsealed, hbounded⟩ := (htr.always h0 hstep).1
  refine ⟨readsOwn hsealed hbounded, htr.forall_iff_within h0 hstep apart_start ?_⟩
  rintro x op _ ⟨-, hb⟩ hx rfl
  exact apart_next_iff hb hx op

theorem no_handle_at_start (h : Nat) : ((fsInitOnce .start).openRecs h).isOpen = false := by
  simp [fsInitOnce, Fs.start, OpenRec.zero]

-- A file is created and deleted while no handle is open.
theorem deleted_files_stay_away_created :
    Apart ((Lives.start.next (.creFil (some [0x61]) 0)).next (.delFil (some [0x61]))) := by
  have htr : Trace LivesStep .start _
      ((Lives.start.next (.creFil (some [0x61]) 0)).next (.delFil (some [0x61]))) :=
    .next (.next .start rfl) rfl
  refine ((deleted_files_stay_away _ _ htr).2.mpr ?_).1
  simp only [List.mem_cons, List.not_mem_nil, or_false, forall_eq_or_imp, forall_eq]
  refine ⟨⟨fun p i h _ _ hopen => ?_, fun p i r hnew => (by cases hnew), growsOver_of_none rfl rfl⟩,
    ⟨fun p i h hop => (by cases hop), fun p i r _ _ hfree => ?_, growsOver_of_none rfl rfl⟩⟩
  · have hnone : ((fsInitOnce (creFil .start (some [0x61]) 0).1).openRecs h).isOpen = false := by
      rw [creFil, opnFil_sameOpenRecs, no_handle_at_start]
    exact absurd (hnone.symm.trans hopen) (by decide)
  · have hone : findFree Lives.start.tables = some 1 := by decide
    cases hone.symm.trans hfree
    rw [Lives.tables, Lives.start, record_start]
    rfl

-- The bytes of a deleted file are read from the next one in its slot, and a handle opened on the
-- deleted file writes to the next one.
theorem deleted_file_comes_back :
    (rdRec (runOps .start [.creFil (some [0x61]) 0, .opnRec 2 0 2, .wrRec 1 (some someBytes) 2,
        .delFil (some [0x61]), .creFil (some [0x62]) 0, .opnRec 2 0 2]) 2 true 2).2.2 =
        [0x58, 0x59] ∧
      (rdRec (runOps .start [.creFil (some [0x61]) 0, .opnRec 2 0 2, .delFil (some [0x61]),
        .creFil (some [0x62]) 0, .opnRec 2 0 2, .wrRec 1 (some someBytes) 2]) 2 true 2).2.2 =
        [0x58, 0x59] ∧
      ∃ tr x, Trace LivesStep .start tr x ∧ ¬ReadsOwn x := by
  refine ⟨by decide, by decide, _,
    (((((Lives.start.next (.creFil (some [0x61]) 0)).next (.opnRec 2 0 2)).next
      (.wrRec 1 (some someBytes) 2)).next (.delFil (some [0x61]))).next
      (.creFil (some [0x62]) 0)).next (.opnRec 2 0 2),
    .next (.next (.next (.next (.next (.next .start rfl) rfl) rfl) rfl) rfl) rfl, fun hreads => ?_⟩
  have hfirst := (hreads 2 true 2 0 0x58 (by decide)).2.2 1 (by decide)
  revert hfirst
  decide

end BTron.FsRecord
