import BTron.TadBrowser.ParseText
import Mathlib.Logic.Function.Basic

namespace BTron.TadBrowser

open Lib

-- TAD_MAX_PATH, TAD_MAX_TITLE, TAD_MAX_HISTORY
def tadMaxPath : Nat := 256
def tadMaxTitle : Nat := 128
def tadMaxHistory : Int := 32

-- TAD_HISTORY_ENTRY
structure HistoryEntry where
  path : List UB
  scrollY : Int
deriving DecidableEq

-- TAD_BROWSER without its menus and the bounds of the spans. The char arrays are strings.
structure Browser where
  docTitle : List UB
  filePath : List UB
  spans : List TadSpan
  docHeight : Int
  docWidth : Int
  scrollY : Int
  pageHeight : Int
  hoveredLinkIdx : Int
  activeLinkIdx : Int
  history : Nat → HistoryEntry
  historyCount : Int
  historyIdx : Int
  isBinaryTad : Bool
  totalBytes : Nat

def tadBrowserInit : Browser where
  docTitle := strncpy (utf8 "BTRON TAD Document") (tadMaxTitle - 1)
  filePath := []
  spans := []
  docHeight := 0
  docWidth := 640
  scrollY := 0
  pageHeight := 400
  hoveredLinkIdx := -1
  activeLinkIdx := -1
  history := fun _ => ⟨[], 0⟩
  historyCount := 0
  historyIdx := -1
  isBinaryTad := false
  totalBytes := 0

-- The spans that one of the two loops leaves for a file.
def Parses (b : Buffer) (spans : List TadSpan) : Prop :=
  (isBinaryTad b ∧ ∃ s, Exits (loadStep b) loadStart s ∧ s.spans = spans) ∨
    (¬isBinaryTad b ∧ ∃ stale s, Exits (parseStep stale b) parseStart s ∧ s.spans = spans)

-- What there is at a path: nothing, a file of no bytes, one there is no memory for, or one that
-- is read, with the spans of it and the height that the layout of them has. The freestanding
-- build has no files.
inductive File
  | unsupported
  | missing
  | empty
  | noMemory
  | read (b : Buffer) (spans : List TadSpan) (docHeight : Int)

def File.Possible : File → Prop
  | .read b spans _ => 0 < b.len → Parses b spans
  | _ => True

def tadBrowserLoadBuffer (tb : Browser) (b : Buffer) (spans : List TadSpan) (docHeight : Int)
    (docTitle : List UB) : Browser × ER :=
  if b.len = 0 then (tb, E_PAR)
  else
    ({ tb with
        spans := spans
        hoveredLinkIdx := -1
        activeLinkIdx := -1
        docTitle := strncpy docTitle (tadMaxTitle - 1)
        totalBytes := b.len
        isBinaryTad := isBinaryTad b
        docWidth := 640
        docHeight := docHeight }, E_OK)

-- A path is NULL or a string.
def tadBrowserLoadFile (tb : Browser) (path : Option (List UB)) (file : File) : Browser × ER :=
  match path with
  | none => (tb, E_PAR)
  | some path =>
    let tb := { tb with filePath := strncpy path (tadMaxPath - 1) }
    match file with
    | .unsupported => (tb, E_NOSPT)
    | .missing => (tb, E_NOEXS)
    | .empty => (tb, E_SYS)
    | .noMemory => (tb, E_NOMEM)
    | .read b spans docHeight => tadBrowserLoadBuffer tb b spans docHeight path

def slash : UB := 0x2F

-- The directory of a path with its last slash; none is the directory of the program.
def dirOf (path : List UB) : List UB := (path.reverse.dropWhile (· != slash)).reverse

-- One folder less at the end of a directory.
def parentDir (dir : List UB) : List UB :=
  match (dirOf dir).length with
  | 0 | 1 => dir
  | n + 1 => dirOf (dir.take n)

-- The subtrees of tad_bin that are looked through.
def tadSubtrees : List (List UB) :=
  [utf8 "tad_bin/", utf8 "tad_bin/shared_data/", utf8 "tad_bin/os_spec/",
    utf8 "tad_bin/os_spec/kernel/", utf8 "tad_bin/os_spec/shell/", utf8 "tad_bin/os_spec/dp/",
    utf8 "tad_bin/b-hmi/", utf8 "tad_bin/b-hmi/part1/", utf8 "tad_bin/b-hmi/part2/",
    utf8 "tad_bin/b-hmi/part_book/", utf8 "tad_bin/t-kernel/", utf8 "tad_bin/b-free/",
    utf8 "tad_bin/b-system/"]

-- The target without anchor and query, a document for a page of HTML.
def normTarget (target : List UB) : List UB :=
  let norm := strncpy target 127
  let norm := norm.takeWhile (· != 0x23)
  let norm := norm.takeWhile (· != 0x3F)
  match strstr (utf8 ".html") norm with
  | some i => norm.take i ++ utf8 ".tad"
  | none => norm

-- `file_exists` is asked of the paths one after the other.
def tadBrowserResolvePath (fileExists : List UB → Bool) (currentPath target : List UB)
    (maxLen : Nat) : List UB :=
  let norm := normTarget target
  let combined :=
    let dir := dirOf (strncpy currentPath 127)
    if (utf8 "../").isPrefixOf norm then (parentDir dir ++ norm.drop 3).take 255
    else (dir ++ norm).take 255
  let relative := if currentPath ≠ [] then [combined] else []
  let tries := norm :: (relative ++ tadSubtrees.map fun dir => (dir ++ norm).take 255)
  ((tries.find? fileExists).getD norm).take (maxLen - 1)

def tadBrowserNavigate (tb : Browser) (fileExists : List UB → Bool)
    (targetPath : Option (List UB)) (file : File) : Browser × ER :=
  match targetPath with
  | none => (tb, E_PAR)
  | some targetPath =>
    let resolved := tadBrowserResolvePath fileExists tb.filePath targetPath tadMaxPath
    let (tb, er) := tadBrowserLoadFile tb (some resolved) file
    if er = E_OK then
      if tb.historyIdx < tadMaxHistory - 1 then
        let idx := tb.historyIdx + 1
        let entry : HistoryEntry := ⟨strncpy resolved (tadMaxPath - 1), 0⟩
        ({ tb with
            historyIdx := idx
            history := Function.update tb.history idx.toNat entry
            historyCount := idx + 1
            scrollY := 0 }, er)
      else ({ tb with scrollY := 0 }, er)
    else (tb, er)

def tadBrowserCanGoBack (tb : Browser) : Bool := tb.historyIdx > 0

def tadBrowserCanGoForward (tb : Browser) : Bool :=
  tb.historyIdx ≥ 0 && tb.historyIdx < tb.historyCount - 1

-- The move to an entry of the history. What the load returns is returned with the browser.
def goTo (tb : Browser) (idx : Int) (file : File) : Browser × ER :=
  let tb := { tb with historyIdx := idx }
  let (tb, er) := tadBrowserLoadFile tb (some (tb.history idx.toNat).path) file
  ({ tb with scrollY := (tb.history idx.toNat).scrollY }, er)

def tadBrowserGoBack (tb : Browser) (file : File) : Browser × ER :=
  if !tadBrowserCanGoBack tb then (tb, E_OK) else goTo tb (tb.historyIdx - 1) file

def tadBrowserGoForward (tb : Browser) (file : File) : Browser × ER :=
  if !tadBrowserCanGoForward tb then (tb, E_OK) else goTo tb (tb.historyIdx + 1) file

def tadBrowserScroll (tb : Browser) (deltaY : Int) : Browser :=
  let scrollY := tb.scrollY + deltaY
  let maxScroll := tb.docHeight - tb.pageHeight
  let maxScroll := if maxScroll < 0 then 0 else maxScroll
  let scrollY := if scrollY < 0 then 0 else scrollY
  { tb with scrollY := if scrollY > maxScroll then maxScroll else scrollY }

-- The calls that can fail, with what there is at the path that they load.
inductive Load
  | loadFile (path : Option (List UB)) (file : File)
  | navigate (fileExists : List UB → Bool) (targetPath : Option (List UB)) (file : File)
  | goBack (file : File)
  | goForward (file : File)

def Load.file : Load → File
  | .loadFile _ file | .navigate _ _ file | .goBack file | .goForward file => file

def Load.run (tb : Browser) : Load → Browser × ER
  | .loadFile path file => tadBrowserLoadFile tb path file
  | .navigate fileExists targetPath file => tadBrowserNavigate tb fileExists targetPath file
  | .goBack file => tadBrowserGoBack tb file
  | .goForward file => tadBrowserGoForward tb file

end BTron.TadBrowser

namespace BTron.TadBrowser

open Lib

-- The path that is loaded is the one the browser has already.
def Load.Rereads (tb : Browser) : Load → Prop
  | .loadFile path _ => ∀ p, path = some p → strncpy p (tadMaxPath - 1) = tb.filePath
  | .navigate fileExists targetPath _ => ∀ target, targetPath = some target →
      strncpy (tadBrowserResolvePath fileExists tb.filePath target tadMaxPath) (tadMaxPath - 1) =
        tb.filePath
  | .goBack _ | .goForward _ => False

-- A load that fails has taken the path, and nothing else.
theorem loadFile_fails {tb : Browser} {path : List UB} {file : File}
    (hfail : (tadBrowserLoadFile tb (some path) file).2 ≠ E_OK) :
    (tadBrowserLoadFile tb (some path) file).1 =
      { tb with filePath := strncpy path (tadMaxPath - 1) } := by
  cases file with
  | read b spans docHeight =>
      rw [tadBrowserLoadFile] at hfail ⊢
      rw [tadBrowserLoadBuffer] at hfail ⊢
      by_cases hlen : b.len = 0
      · rw [if_pos hlen]
      · rw [if_neg hlen] at hfail
        exact absurd rfl hfail
  | unsupported => rfl
  | missing => rfl
  | empty => rfl
  | noMemory => rfl

theorem filePath_eq_iff {tb : Browser} {path : List UB} :
    { tb with filePath := path } = tb ↔ path = tb.filePath := by
  constructor
  · exact congrArg Browser.filePath
  · rintro rfl
    rfl

theorem navigate_fails {tb : Browser} {fileExists : List UB → Bool} {target : List UB}
    {file : File} (hfail : (tadBrowserNavigate tb fileExists (some target) file).2 ≠ E_OK) :
    (tadBrowserNavigate tb fileExists (some target) file).1 =
      { tb with
          filePath := strncpy (tadBrowserResolvePath fileExists tb.filePath target tadMaxPath)
            (tadMaxPath - 1) } := by
  unfold tadBrowserNavigate at hfail ⊢
  dsimp only at hfail ⊢
  generalize hload : tadBrowserLoadFile tb
    (some (tadBrowserResolvePath fileExists tb.filePath target tadMaxPath)) file = r at hfail ⊢
  by_cases hok : r.2 = E_OK
  · rw [if_pos hok] at hfail
    split at hfail <;> exact absurd hok hfail
  · rw [if_neg hok, ← hload]
    rw [← hload] at hok
    exact loadFile_fails hok

-- The index has moved, whatever the load comes to.
theorem goTo_ne {tb : Browser} {idx : Int} (hidx : idx ≠ tb.historyIdx) (file : File) :
    (goTo tb idx file).1 ≠ tb := by
  have hmoved : (goTo tb idx file).1.historyIdx = idx := by
    unfold goTo tadBrowserLoadFile tadBrowserLoadBuffer
    cases file with
    | read b spans docHeight =>
        dsimp only
        split <;> rfl
    | unsupported => rfl
    | missing => rfl
    | empty => rfl
    | noMemory => rfl
  intro heq
  rw [heq] at hmoved
  exact hidx hmoved.symm

theorem failed_load_unchanged_iff (tb : Browser) (c : Load) (hfail : (c.run tb).2 ≠ E_OK) :
    (c.run tb).1 = tb ↔ c.Rereads tb := by
  cases c with
  | loadFile path file =>
      cases path with
      | none => exact iff_of_true rfl (by intro p hp; cases hp)
      | some path =>
          rw [Load.run, loadFile_fails hfail, filePath_eq_iff, Load.Rereads]
          simp
  | navigate fileExists targetPath file =>
      cases targetPath with
      | none => exact iff_of_true rfl (by intro p hp; cases hp)
      | some target =>
          rw [Load.run, navigate_fails hfail, filePath_eq_iff, Load.Rereads]
          simp
  | goBack file =>
      refine iff_of_false ?_ id
      rw [Load.run, tadBrowserGoBack] at hfail ⊢
      split
      · rename_i hstay
        rw [if_pos hstay] at hfail
        exact absurd rfl hfail
      · exact goTo_ne (by omega) file
  | goForward file =>
      refine iff_of_false ?_ id
      rw [Load.run, tadBrowserGoForward] at hfail ⊢
      split
      · rename_i hstay
        rw [if_pos hstay] at hfail
        exact absurd rfl hfail
      · exact goTo_ne (by omega) file

-- The file that is shown has gone and is loaded again.
theorem failed_reload_unchanged :
    ((Load.loadFile (some [0x41]) .missing).run { tadBrowserInit with filePath := [0x41] }).1 =
      { tadBrowserInit with filePath := [0x41] } := by
  refine (failed_load_unchanged_iff _ _ (by decide)).mpr ?_
  intro p hp
  cases hp
  decide

-- A file that is not there is loaded.
theorem failed_load_changes : ¬∀ (tb : Browser) (c : Load), (c.run tb).2 ≠ E_OK →
    (c.run tb).1 = tb := by
  intro hall
  have hpath := congrArg Browser.filePath
    (hall tadBrowserInit (.loadFile (some [0x41]) .missing) (by decide))
  exact absurd hpath (by decide)

end BTron.TadBrowser
