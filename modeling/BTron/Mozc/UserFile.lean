import BTron.Mozc

namespace BTron.Mozc

open Lib

def userDicFile : List UB := lit "./btron_store/jisshin_user_dic.dat"

-- What the file system holds at each path.
abbrev Files := List UB → Option (List UB)

-- White space as `sscanf` skips it.
def isSpace (b : UB) : Bool := b == 0x20 || (0x09 ≤ b && b ≤ 0x0D)

-- What `%63s` reads, and what follows it.
def scanField (s : List UB) : List UB × List UB :=
  let s := s.dropWhile isSpace
  let field := (s.takeWhile fun b => !isSpace b).take 63
  (field, s.drop field.length)

-- reading, value and annotation where `sscanf` finds two of them at least.
def scanWords (line : List UB) : Option (List UB × List UB × List UB) :=
  let (reading, rest) := scanField line
  let (value, rest) := scanField rest
  let ( annotation, _) := scanField rest
  if value = [] then none else some (reading, value, annotation)

-- One line of a file as `fgets` reads it into 256 bytes, and what follows.
def fgets (file : List UB) : List UB × List UB :=
  let n := min ((file.takeWhile (· != 10)).length + 1) 255
  (file.take n, file.drop n)

def loadLine (d : UserDictionary) (line : List UB) : UserDictionary :=
  match scanWords line with
  | none => d
  | some (reading, value, annotation) =>
    (registerUserWord d (some reading) (some value)
      (some (if annotation = [] then lit "user" else annotation))).1

-- The loop of `mozc_load_user_dictionary`. A line has one byte at least.
def loadLines : Nat → UserDictionary → List UB → UserDictionary
  | 0, d, _ => d
  | n + 1, d, file =>
    if file = [] then d
    else
      let (line, rest) := fgets file
      loadLines n (loadLine d (cstr line)) rest

def loadUserDictionary (d : UserDictionary) (files : Files) (filepath : Option (List UB)) :
    UserDictionary × ER :=
  match files (filepath.getD userDicFile) with
  | none => (d, E_NOEXS)
  | some file => (loadLines file.length d file, E_OK)

-- What `mozc_save_user_dictionary` writes: the header, and words of its own.
def savedFile : List UB :=
  lit "# B-TRON Real Body User Dictionary (Jisshin #104)\n" ++
    lit "# Format: <Reading> <Kanji/Value> <Category>\n" ++
    lit "なかの 中野 surname\n" ++
    lit "さかむら 坂村 surname\n" ++
    lit "じっしん 実身 real_object\n" ++
    lit "かしん 仮身 virtual_object\n"

-- The dictionary is not read. `writable` says that `fopen` opens the file.
def saveUserDictionary (_d : UserDictionary) (files : Files) (filepath : Option (List UB))
    (writable : Bool) : Files × ER :=
  if writable then (Function.update files (filepath.getD userDicFile) (some savedFile), E_OK)
  else (files, E_SYS)

-- The readings, values and annotations in their order.
def UserDictionary.words (d : UserDictionary) : List (List UB × List UB × List UB) :=
  d.entries.map fun e => (e.reading, e.value, e.annotation)

-- A dictionary that is saved and loaded into the engine as it starts.
def UserDictionary.saved (d : UserDictionary) (files : Files) (filepath : Option (List UB)) :
    UserDictionary :=
  (loadUserDictionary .empty (saveUserDictionary d files filepath true).1 filepath).1

-- The two lines of the header are read as words too.
def savedWords : List (List UB × List UB × List UB) :=
  [(lit "#", lit "B-TRON", lit "Real"), (lit "#", lit "Format:", lit "<Reading>"),
    (lit "なかの", lit "中野", lit "surname"), (lit "さかむら", lit "坂村", lit "surname"),
    (lit "じっしん", lit "実身", lit "real_object"),
    (lit "かしん", lit "仮身", lit "virtual_object")]

theorem loadLines_savedFile :
    (loadLines savedFile.length .empty savedFile).words = savedWords := by
  decide +kernel

-- Whatever the dictionary was, the words of the file are what is loaded.
theorem saved_words (d : UserDictionary) (files : Files) (filepath : Option (List UB)) :
    (d.saved files filepath).words = savedWords := by
  have hread : (saveUserDictionary d files filepath true).1 (filepath.getD userDicFile) =
      some savedFile := by
    rw [saveUserDictionary, if_pos rfl]
    exact Function.update_self _ _ _
  rw [UserDictionary.saved, loadUserDictionary, hread]
  dsimp only
  rw [loadLines_savedFile]

-- A dictionary survives if and only if its words are those already.
theorem saved_words_iff (d : UserDictionary) (files : Files) (filepath : Option (List UB)) :
    (d.saved files filepath).words = d.words ↔ d.words = savedWords := by
  rw [saved_words, eq_comm]

-- One word is registered, and it is not in the file.
theorem saved_words_lost :
    ∃ d, d = (registerUserWord .empty (some (lit "てぃーけー")) (some (lit "T-Kernel2.0"))
          (some (lit "system"))).1 ∧
      d.words = [(lit "てぃーけー", lit "T-Kernel2.0", lit "system")] ∧
      ∀ files filepath, (d.saved files filepath).words ≠ d.words := by
  have hwords : (registerUserWord .empty (some (lit "てぃーけー")) (some (lit "T-Kernel2.0"))
      (some (lit "system"))).1.words =
        [(lit "てぃーけー", lit "T-Kernel2.0", lit "system")] := by
    decide +kernel
  refine ⟨_, rfl, hwords, fun files filepath heq => ?_⟩
  rw [saved_words, hwords] at heq
  have hlen := congrArg List.length heq
  simp [savedWords] at hlen

end BTron.Mozc
