import BTron.Editor.Reachable

namespace BTron.Editor

open AppMenu Lib Lib.CArray

-- The string in a slot of the line array.
def slotText (a : Bytes) : Option (List UB) :=
  (strlenLine a).map fun n => (List.range n.toNat).map fun (k : Nat) => a k

def savedLines (ed : TEditor) : Option (List (List UB)) :=
  (List.range ed.totalLines.toNat).mapM fun (r : Nat) => do
    let a ← ed.line r
    slotText a

-- What teditor_save_file writes, a line feed behind every line.
def savedBytes (ed : TEditor) : Option (List UB) :=
  (savedLines ed).map fun lines => lines.flatMap (· ++ [10])

-- Where teditor_save_file writes to.
def saveTarget (ed : TEditor) (filepath : Option (List UB)) : List UB :=
  filepath.getD ed.filename

-- The Save command gives the name of the document.
def saveCommandTarget (ed : TEditor) : List UB := saveTarget ed (some ed.filename)

-- The lines of a file; the last one need not end in a line feed.
def fileLines : List UB → List (List UB)
  | [] => []
  | c :: rest =>
    if c = 10 then [] :: fileLines rest
    else (c :: (fileLines rest).headD []) :: (fileLines rest).tail

-- The string that a line of a file leaves in its slot, and those that a file leaves.
def rowText (buf : List UB) : List UB :=
  Lib.strncpy ((cstr buf).rdropWhile fun c => c == 10 || c == 13) 511

def storedRows (n : Nat) (file : List UB) : List (List UB) :=
  (readRows n file).map fun row => Lib.strncpy row 511

def loadedLines (file : List UB) : List (List UB) :=
  if file = [] then [[]] else storedRows 1000 file

-- A line that fits its slot and ends in no carriage return.
def LineFits (l : List UB) : Prop := l.length ≤ 511 ∧ l.getLast? ≠ some 13

instance : DecidablePred LineFits := fun _ => inferInstanceAs (Decidable (_ ∧ _))

section Lines

variable {l rest file : List UB}

theorem fileLines_line (h : 10 ∉ l) (rest : List UB) :
    fileLines (l ++ 10 :: rest) = l :: fileLines rest := by
  induction l with
  | nil => rw [List.nil_append, fileLines, if_pos rfl]
  | cons c l ih =>
      rw [List.mem_cons, not_or] at h
      rw [List.cons_append, fileLines, if_neg (Ne.symm h.1), ih h.2]
      rfl

theorem fileLines_last (h : 10 ∉ l) (hne : l ≠ []) : fileLines l = [l] := by
  induction l with
  | nil => exact absurd rfl hne
  | cons c l ih =>
      rw [List.mem_cons, not_or] at h
      rw [fileLines, if_neg (Ne.symm h.1)]
      by_cases hnil : l = []
      · subst hnil
        rfl
      · rw [ih h.2 hnil]
        rfl

-- A file is its first line and the rest behind a line feed, or it is one line.
theorem file_cases (hne : file ≠ []) : ∃ l, 10 ∉ l ∧
    ((file = l ∧ l ≠ []) ∨ ∃ rest, file = l ++ 10 :: rest) ∧ file.takeWhile (· != 10) = l := by
  refine ⟨file.takeWhile (· != 10), fun hmem => ?_, ?_, rfl⟩
  · simpa using List.mem_takeWhile_imp hmem
  · have hsplit := List.takeWhile_append_dropWhile (p := (· != 10)) (l := file)
    cases hrest : file.dropWhile (· != 10) with
    | nil =>
        rw [hrest, List.append_nil] at hsplit
        refine .inl ⟨hsplit.symm, ?_⟩
        rwa [hsplit]
    | cons c rest =>
        have hc := List.head_dropWhile_not (p := (· != 10)) (l := file) (by simp [hrest])
        simp only [hrest, List.head_cons, bne_eq_false_iff_eq] at hc
        rw [hrest, hc] at hsplit
        exact .inr ⟨rest, hsplit.symm⟩

theorem rowText_spec (buf : List UB) : (rowText buf).length ≤ 511 ∧ 0 ∉ rowText buf :=
  ⟨List.length_take_le 511 _, zero_notMem_strncpy _ 511⟩

theorem rowText_line (h0 : 0 ∉ l) (h10 : 10 ∉ l) (hlen : l.length ≤ 511) :
    rowText l = l ↔ l.getLast? ≠ some 13 := by
  have hsub := List.rdropWhile_prefix (fun c : UB => c == 10 || c == 13) l
  rw [rowText, cstr_eq h0, strncpy_eq (fun hmem => h0 (hsub.subset hmem))
    (Nat.le_trans hsub.length_le hlen)]
  obtain rfl | ⟨init, c, rfl⟩ := List.eq_nil_or_concat' l
  · simp
  · have hc : c ≠ 10 := fun heq => h10 (List.mem_append_right init (by simp [heq]))
    rw [List.getLast?_concat, List.rdropWhile_concat]
    by_cases h13 : c = 13
    · subst h13
      refine iff_of_false (fun heq => ?_) (by simp)
      rw [if_pos (by decide)] at heq
      have hle := (List.rdropWhile_prefix (fun c : UB => c == 10 || c == 13) init).length_le
      rw [heq, List.length_append, List.length_singleton] at hle
      omega
    · simp [hc, h13]

theorem rowText_lineFeed (h0 : 0 ∉ l) : rowText (l ++ [10]) = rowText l := by
  have h0' : 0 ∉ l ++ [10] := by simpa using h0
  rw [rowText, rowText, cstr_eq h0', cstr_eq h0, List.rdropWhile_concat_pos _ _ _ (by decide)]

theorem rowText_subset (h0 : 0 ∉ l) : rowText l ⊆ l := by
  rw [rowText, cstr_eq h0]
  intro c hc
  exact (List.rdropWhile_prefix _ l).subset
    ((List.takeWhile_prefix _).subset ((List.take_prefix 511 _).subset hc))

-- What `fgets` reads is a part of a line, or a line with its line feed.
theorem fgets_cases (hne : file ≠ []) : ∃ part, 10 ∉ part ∧ part ⊆ file ∧
    ((fgets file).1 = part ∨ (fgets file).1 = part ++ [10]) := by
  obtain ⟨l, hl, hfile, htake⟩ := file_cases hne
  have hsub : l ⊆ file := htake ▸ (List.takeWhile_prefix _).subset
  rw [fgets, htake]
  by_cases hlong : 1023 ≤ l.length
  · refine ⟨l.take 1023, fun h => hl (List.mem_of_mem_take h), fun c hc =>
      hsub (List.mem_of_mem_take hc), .inl ?_⟩
    rw [Nat.min_eq_right (by omega)]
    obtain ⟨rfl, -⟩ | ⟨rest, rfl⟩ := hfile
    · rfl
    · exact List.take_append_of_le_length hlong
  · refine ⟨l, hl, hsub, ?_⟩
    rw [Nat.min_eq_left (by omega)]
    obtain ⟨rfl, -⟩ | ⟨rest, rfl⟩ := hfile
    · exact .inl (List.take_of_length_le (Nat.le_succ _))
    · refine .inr ?_
      simp [List.take_append, List.take_of_length_le (Nat.le_succ l.length)]

theorem no_lineFeed (h10 : 10 ∉ l) : ∀ c ∈ l, (c != 10) = true := fun _ hc =>
  bne_iff_ne.mpr fun heq => h10 (heq ▸ hc)

theorem fgets_line (h10 : 10 ∉ l) (hlen : l.length ≤ 511) (rest : List UB) :
    fgets (l ++ 10 :: rest) = (l ++ [10], rest) := by
  have htake : (l ++ 10 :: rest).takeWhile (· != 10) = l := by
    rw [List.takeWhile_append_of_pos (no_lineFeed h10)]
    simp
  rw [fgets, htake, Nat.min_eq_left (by omega)]
  simp [List.take_append, List.drop_append, List.take_of_length_le (Nat.le_succ l.length)]

theorem fgets_last (h10 : 10 ∉ l) (hlen : l.length ≤ 511) : fgets l = (l, []) := by
  have htake : l.takeWhile (· != 10) = l := by
    rw [List.takeWhile_eq_self_iff]
    exact no_lineFeed h10
  rw [fgets, htake, Nat.min_eq_left (by omega)]
  simp [List.take_of_length_le (Nat.le_succ l.length)]

theorem storedRows_cons (n : Nat) (hne : file ≠ []) :
    storedRows (n + 1) file = rowText (fgets file).1 :: storedRows n (fgets file).2 := by
  rw [storedRows, readRows, if_neg hne]
  rfl

@[simp] theorem storedRows_nil (n : Nat) : storedRows n [] = [] := by
  cases n <;> rfl

theorem fgets_subset (file : List UB) : (fgets file).1 ⊆ file ∧ (fgets file).2 ⊆ file :=
  ⟨(List.take_prefix _ _).subset, (List.drop_suffix _ _).subset⟩

theorem storedRows_no_lineFeed (n : Nat) (h0 : 0 ∉ file) :
    ∀ row ∈ storedRows n file, 10 ∉ row := by
  induction n generalizing file with
  | zero => exact fun row hrow => absurd hrow List.not_mem_nil
  | succ n ih =>
      by_cases hne : file = []
      · simp [hne]
      · rw [storedRows_cons n hne, List.forall_mem_cons]
        refine ⟨?_, ih fun hmem => h0 ((fgets_subset file).2 hmem)⟩
        obtain ⟨part, h10, hsub, hpart⟩ := fgets_cases hne
        have hzero : 0 ∉ part := fun hmem => h0 (hsub hmem)
        have hrow : rowText (fgets file).1 = rowText part := by
          obtain heq | heq := hpart
          · rw [heq]
          · rw [heq, rowText_lineFeed hzero]
        rw [hrow]
        exact fun hmem => h10 (rowText_subset hzero hmem)

-- The lines are read as they are if and only if they fit.
theorem storedRows_eq_iff (n : Nat) (h0 : 0 ∉ file) :
    storedRows n file = fileLines file ↔
      (fileLines file).length ≤ n ∧ ∀ l ∈ fileLines file, LineFits l := by
  induction n generalizing file with
  | zero =>
      by_cases hne : file = []
      · simp [hne, fileLines]
      · obtain ⟨l, h10, hfile, -⟩ := file_cases hne
        have hsome : fileLines file ≠ [] := by
          obtain ⟨rfl, hl⟩ | ⟨rest, rfl⟩ := hfile
          · rw [fileLines_last h10 hl]
            exact List.cons_ne_nil _ _
          · rw [fileLines_line h10]
            exact List.cons_ne_nil _ _
        have hpos := List.length_pos_iff.mpr hsome
        exact iff_of_false (Ne.symm hsome) (by omega)
  | succ n ih =>
      by_cases hne : file = []
      · simp [hne, fileLines]
      · obtain ⟨l, h10, hfile, -⟩ := file_cases hne
        rw [storedRows_cons n hne]
        by_cases hlen : l.length ≤ 511
        · obtain ⟨rfl, hl⟩ | ⟨rest, rfl⟩ := hfile
          · rw [fgets_last h10 hlen, fileLines_last h10 hl]
            simp [rowText_line h0 h10 hlen, LineFits, hlen]
          · have h0l : 0 ∉ l := fun hmem => h0 (List.mem_append_left _ hmem)
            have h0r : 0 ∉ rest := fun hmem =>
              h0 (List.mem_append_right l (List.mem_cons_of_mem _ hmem))
            rw [fgets_line h10 hlen, fileLines_line h10, List.cons_eq_cons, rowText_lineFeed h0l,
              rowText_line h0l h10 hlen, ih h0r, List.length_cons, List.forall_mem_cons, LineFits]
            simp only [hlen, true_and, Nat.add_le_add_iff_right]
            exact and_left_comm
        · have hfirst : (fileLines file).head? = some l := by
            obtain ⟨rfl, hl⟩ | ⟨rest, rfl⟩ := hfile
            · rw [fileLines_last h10 hl]
              rfl
            · rw [fileLines_line h10]
              rfl
          refine iff_of_false (fun heq => ?_) fun hfits => ?_
          · rw [← heq, List.head?_cons] at hfirst
            have hrow := (rowText_spec (fgets file).1).1
            rw [Option.some.inj hfirst] at hrow
            exact hlen hrow
          · exact hlen (hfits.2 l (List.mem_of_mem_head? hfirst)).1

-- Lines that are written with a line feed behind each of them.
theorem fileLines_written {ls : List (List UB)} (h : ∀ l ∈ ls, 10 ∉ l) :
    fileLines (ls.flatMap (· ++ [10])) = ls := by
  induction ls with
  | nil => rfl
  | cons l ls ih =>
      rw [List.forall_mem_cons] at h
      rw [List.flatMap_cons, List.append_assoc, List.singleton_append, fileLines_line h.1, ih h.2]

end Lines

section Slots

variable {ed : TEditor} {file : List UB}

theorem slotText_ofList {bs : List UB} (h0 : 0 ∉ bs) (hlen : bs.length < 512) :
    slotText (CArray.ofList bs) = some bs := by
  have hstr : IsStr TEDITOR_MAX_COLS (CArray.ofList bs) bs.length := by
    refine ⟨Int.natCast_nonneg _, by rw [TEDITOR_MAX_COLS]; omega, ?_, fun k hk hlt => ?_⟩
    · rw [CArray.ofList, if_pos (Int.natCast_nonneg _)]
      exact List.getD_eq_default _ _ (by simp)
    · rw [CArray.ofList, if_pos hk, List.getD_eq_getElem _ _ (by omega)]
      exact fun heq => h0 (heq ▸ List.getElem_mem _)
  rw [slotText, strlenLine, strlen_eq_some.mpr hstr, Option.map_some]
  congr 1
  apply List.ext_getElem (by simp)
  intro i hi hi'
  simp [CArray.ofList, List.getElem?_eq_getElem hi']

theorem slotText_slotOf (bs : List UB) : slotText (slotOf bs) = some (Lib.strncpy bs 511) :=
  slotText_ofList (zero_notMem_strncpy bs 511) (Nat.lt_succ_of_le (List.length_take_le 511 _))

theorem slotText_cutAt (a : Bytes) : slotText (cutAt a 0) = some [] := by
  have hstr : IsStr TEDITOR_MAX_COLS (cutAt a 0) 0 :=
    ⟨Int.le_refl 0, by decide, if_pos rfl, fun k h0 hk => by omega⟩
  rw [slotText, strlenLine, strlen_eq_some.mpr hstr]
  rfl

theorem mapM_range {α : Type} {f : Nat → Option α} {as : List α}
    (h : ∀ (i : Nat) (hi : i < as.length), f i = some as[i]) :
    (List.range as.length).mapM f = some as := by
  induction as generalizing f with
  | nil => rfl
  | cons a as ih =>
      have hrest : (List.range as.length).mapM (f ∘ Nat.succ) = some as :=
        ih fun i hi => h (i + 1) (Nat.succ_lt_succ hi)
      rw [List.length_cons, List.range_succ_eq_map, List.mapM_cons, h 0 (Nat.succ_pos _),
        List.mapM_map, hrest]
      rfl

theorem savedLines_eq {ls : List (List UB)} (htotal : ed.totalLines = ls.length)
    (hmax : ls.length ≤ 1000)
    (hlines : ∀ (r : Nat) (hr : r < ls.length), slotText (ed.lines r) = some ls[r]) :
    savedLines ed = some ls := by
  rw [savedLines, htotal, Int.toNat_natCast]
  apply mapM_range
  intro r hr
  have hrow : 0 ≤ (r : Int) ∧ (r : Int) < 1000 := by omega
  rw [line_eq hrow]
  exact hlines r hr

theorem storedRows_length (n : Nat) (file : List UB) : (storedRows n file).length ≤ n := by
  rw [storedRows, List.length_map]
  exact readRows_length n file

theorem loadedLines_length (file : List UB) :
    1 ≤ (loadedLines file).length ∧ (loadedLines file).length ≤ 1000 := by
  unfold loadedLines
  split
  · decide
  · rename_i hne
    refine ⟨?_, storedRows_length 1000 file⟩
    rw [storedRows_cons 999 hne, List.length_cons]
    omega

theorem readRows_eq_nil {n : Nat} : readRows (n + 1) file = [] ↔ file = [] := by
  rw [readRows]
  split
  · simp_all
  · simp_all

theorem savedLines_loaded (ed : TEditor) (path file : List UB) :
    savedLines (teditorLoadFile ed path (some file)).1 = some (loadedLines file) := by
  have hrows : readRows TEDITOR_MAX_ROWS.toNat file = [] ↔ file = [] := readRows_eq_nil
  refine savedLines_eq ?_ (loadedLines_length file).2 fun r hr => ?_
  · simp only [teditorLoadFile, hrows, loadedLines]
    split
    · rfl
    · rw [storedRows, List.length_map]
      rfl
  · simp only [teditorLoadFile, hrows]
    by_cases hne : file = []
    · have hr0 : r = 0 := by
        simp only [loadedLines, hne, if_true, List.length_singleton] at hr
        omega
      subst hr0
      simp only [hne, if_true]
      exact slotText_cutAt _
    · simp only [if_neg hne]
      have hlen : r < (readRows TEDITOR_MAX_ROWS.toNat file).length := by
        rw [loadedLines, if_neg hne, storedRows, List.length_map] at hr
        exact hr
      have hslot : docLines (readRows TEDITOR_MAX_ROWS.toNat file) ed.lines r =
          slotOf (readRows TEDITOR_MAX_ROWS.toNat file)[r] := by
        simp [docLines, List.getElem?_eq_getElem hlen]
      rw [hslot, slotText_slotOf]
      simp only [loadedLines, if_neg hne, storedRows, List.getElem_map]
      rfl

end Slots

section RoundTrip

variable {ed : TEditor} {path file : List UB}

-- The document is loaded and saved by the command: the load fails, or the path it came from gets
-- the lines of the file.
def Returned (ed : TEditor) (path file : List UB) : Prop :=
  (teditorLoadFile ed path (some file)).2 ≠ 0 ∨
    saveCommandTarget (teditorLoadFile ed path (some file)).1 = path ∧
      ∃ bytes, savedBytes (teditorLoadFile ed path (some file)).1 = some bytes ∧
        fileLines bytes = fileLines file

-- A name without a directory that fits the document, and a file that fits its lines.
structure Loadable (path file : List UB) : Prop where
  name : 0x2F ∉ path ∧ path.length ≤ 127
  nonempty : file ≠ []
  length_le : (fileLines file).length ≤ 1000
  fits : ∀ l ∈ fileLines file, LineFits l

-- The document is saved and loaded from there.
def RoundTrips (ed : TEditor) (path : List UB) : Prop :=
  ∃ bytes lines, savedBytes ed = some bytes ∧ savedLines ed = some lines ∧
    savedLines (teditorLoadFile (teditorSaveFile ed true).1 path (some bytes)).1 = some lines

-- Lines that hold no line feed and end in no carriage return.
def Plain (ed : TEditor) : Prop :=
  ∀ r, 0 ≤ r → r < ed.totalLines → ∀ l ∈ slotText (ed.lines r), 10 ∉ l ∧ l.getLast? ≠ some 13

theorem baseName_eq_iff (h0 : 0 ∉ path) :
    baseName path = path ↔ 0x2F ∉ path ∧ path.length ≤ 127 := by
  have hends := List.rtakeWhile_suffix (fun c : UB => c != 0x2F) path
  have h0' : 0 ∉ path.rtakeWhile (· != 0x2F) := fun hmem => h0 (hends.subset hmem)
  rw [baseName, Lib.strncpy, cstr_eq h0']
  constructor
  · intro heq
    have hlen := congrArg List.length heq
    have hle := hends.length_le
    rw [List.length_take] at hlen
    have hwhole := hends.eq_of_length_le (by omega)
    refine ⟨fun hmem => ?_, by omega⟩
    rw [List.rtakeWhile_eq_self_iff] at hwhole
    simpa using hwhole _ hmem
  · rintro ⟨hslash, hlen⟩
    have hwhole : path.rtakeWhile (· != 0x2F) = path := by
      rw [List.rtakeWhile_eq_self_iff]
      exact fun c hc => bne_iff_ne.mpr fun heq => hslash (heq ▸ hc)
    rw [hwhole]
    exact List.take_of_length_le hlen

theorem loadedLines_eq_iff (h0 : 0 ∉ file) :
    loadedLines file = fileLines file ↔
      file ≠ [] ∧ (fileLines file).length ≤ 1000 ∧ ∀ l ∈ fileLines file, LineFits l := by
  unfold loadedLines
  by_cases hne : file = []
  · simp [hne, fileLines]
  · rw [if_neg hne, storedRows_eq_iff 1000 h0]
    exact (and_iff_right hne).symm

theorem loadedLines_no_lineFeed (h0 : 0 ∉ file) : ∀ l ∈ loadedLines file, 10 ∉ l := by
  unfold loadedLines
  split
  · simp
  · exact storedRows_no_lineFeed 1000 h0

theorem returned_iff (hpath : 0 ∉ path) (h0 : 0 ∉ file) :
    Returned ed path file ↔ Loadable path file := by
  have hlines := savedLines_loaded ed path file
  have hbytes : savedBytes (teditorLoadFile ed path (some file)).1 =
      some ((loadedLines file).flatMap (· ++ [10])) := by
    rw [savedBytes, hlines]
    rfl
  have hwritten := fileLines_written (loadedLines_no_lineFeed h0)
  constructor
  · rintro (hfail | ⟨htarget, bytes, hsaved, heq⟩)
    · exact absurd rfl hfail
    · rw [hbytes] at hsaved
      obtain rfl := Option.some.inj hsaved
      rw [hwritten] at heq
      obtain ⟨hne, hlen, hfits⟩ := (loadedLines_eq_iff h0).mp heq
      exact ⟨(baseName_eq_iff hpath).mp htarget, hne, hlen, hfits⟩
  · intro h
    refine .inr ⟨(baseName_eq_iff hpath).mpr h.name, _, hbytes, ?_⟩
    rw [hwritten]
    exact (loadedLines_eq_iff h0).mpr ⟨h.nonempty, h.length_le, h.fits⟩

theorem slotText_slot {a : Bytes} (ha : a 511 = 0) :
    ∃ l, slotText a = some l ∧ 0 ∉ l ∧ l.length ≤ 511 := by
  obtain ⟨n, hn, hstr⟩ := slot_strlen ha
  have hpos := hstr.nonneg
  have hin := hstr.inside
  rw [slotText, hn]
  refine ⟨_, rfl, fun hmem => ?_, by simp; omega⟩
  obtain ⟨k, hk, hzero⟩ := List.mem_map.mp hmem
  rw [List.mem_range] at hk
  exact hstr.filled k (Int.natCast_nonneg k) (by omega) hzero

-- The lines of a text, as they are saved.
theorem Text.saved (h : Text ed) : ∃ lines, savedLines ed = some lines ∧
    lines ≠ [] ∧ lines.length ≤ 1000 ∧ (∀ l ∈ lines, 0 ∉ l ∧ l.length ≤ 511) ∧
    (Plain ed ↔ ∀ l ∈ lines, 10 ∉ l ∧ l.getLast? ≠ some 13) := by
  obtain ⟨hpos, hmax⟩ := h.total
  have hrow : ∀ r : Nat, (r : Int) < ed.totalLines →
      ∃ l, slotText (ed.lines r) = some l ∧ 0 ∉ l ∧ l.length ≤ 511 := fun r hr =>
    slotText_slot (h.slots r (Int.natCast_nonneg r) (by omega))
  have hsome : ∀ r : Nat, (r : Int) < ed.totalLines →
      slotText (ed.lines r) = some ((slotText (ed.lines r)).getD []) := by
    intro r hr
    obtain ⟨l, hl, -⟩ := hrow r hr
    rw [hl]
    rfl
  let lines := (List.range ed.totalLines.toNat).map fun (r : Nat) =>
    (slotText (ed.lines r)).getD []
  have hlen : lines.length = ed.totalLines.toNat := by simp [lines]
  have hlines : savedLines ed = some lines := by
    refine savedLines_eq (by omega) (by omega) fun r hr => ?_
    rw [hsome r (by omega)]
    simp [lines]
  have hmem : ∀ {l}, l ∈ lines ↔ ∃ r : Nat, (r : Int) < ed.totalLines ∧
      slotText (ed.lines r) = some l := by
    intro l
    simp only [lines, List.mem_map, List.mem_range]
    constructor
    · rintro ⟨r, hr, rfl⟩
      exact ⟨r, by omega, hsome r (by omega)⟩
    · rintro ⟨r, hr, hl⟩
      exact ⟨r, by omega, by rw [hl]; rfl⟩
  refine ⟨lines, hlines, ?_, by omega, fun l hl => ?_, ?_⟩
  · rw [← List.length_pos_iff]
    omega
  · obtain ⟨r, hr, heq⟩ := hmem.mp hl
    obtain ⟨l', hl', hstr⟩ := hrow r hr
    rw [heq] at hl'
    obtain rfl := Option.some.inj hl'
    exact hstr
  · constructor
    · intro hplain l hl
      obtain ⟨r, hr, heq⟩ := hmem.mp hl
      exact hplain r (Int.natCast_nonneg r) hr l heq
    · intro hall r h0 hr l heq
      obtain ⟨n, rfl⟩ := Int.eq_ofNat_of_zero_le h0
      exact hall l (hmem.mpr ⟨n, hr, heq⟩)

theorem roundTrips_iff (h : Text ed) : RoundTrips ed path ↔ Plain ed := by
  obtain ⟨lines, hlines, hne, hlen, hstr, hplain⟩ := h.saved
  have hbytes : savedBytes ed = some (lines.flatMap (· ++ [10])) := by
    rw [savedBytes, hlines]
    rfl
  have h0 : 0 ∉ lines.flatMap (· ++ [10]) := by
    intro hmem
    obtain ⟨l, hl, hmem⟩ := List.mem_flatMap.mp hmem
    obtain hmem | hmem := List.mem_append.mp hmem
    · exact (hstr l hl).1 hmem
    · exact absurd hmem (by decide)
  have hsome : lines.flatMap (· ++ [10]) ≠ [] := by
    intro hnil
    obtain ⟨l, ls, rfl⟩ := List.exists_cons_of_ne_nil hne
    simp at hnil
  have hiff : loadedLines (lines.flatMap (· ++ [10])) = lines ↔ Plain ed := by
    rw [hplain]
    constructor
    · intro heq
      have h10 : ∀ l ∈ lines, 10 ∉ l := heq ▸ loadedLines_no_lineFeed h0
      have hfile := fileLines_written h10
      have hfits := ((loadedLines_eq_iff h0).mp (heq.trans hfile.symm)).2.2
      rw [hfile] at hfits
      exact fun l hl => ⟨h10 l hl, (hfits l hl).2⟩
    · intro hall
      have hfile := fileLines_written fun l hl => (hall l hl).1
      have hload := (loadedLines_eq_iff h0).mpr
      rw [hfile] at hload
      exact hload ⟨hsome, hlen, fun l hl => ⟨(hstr l hl).2, (hall l hl).2⟩⟩
  rw [← hiff]
  constructor
  · rintro ⟨bytes, ls, hb, hs, heq⟩
    rw [hbytes] at hb
    rw [hlines] at hs
    obtain rfl := Option.some.inj hb
    obtain rfl := Option.some.inj hs
    rw [savedLines_loaded] at heq
    exact Option.some.inj heq
  · intro heq
    refine ⟨_, _, hbytes, hlines, ?_⟩
    rw [savedLines_loaded, heq]

-- A file comes back where it came from if and only if it fits the document, and the text of a run
-- that stays within its lines is loaded as it was saved if and only if its lines are plain.
theorem files_round_trip_iff (hpath : 0 ∉ path) (h0 : 0 ∉ file)
    {doc : Option (List UB × List UB)} {tr : List (Option Session × Input)} {s : State}
    (htr : Trace Moves (opened doc) tr (some (.live s))) (hfits : ∀ t ∈ tr, FitsIn t.1 t.2)
    (target : List UB) :
    (Returned ed path file ↔ Loadable path file) ∧ (RoundTrips s.ed target ↔ Plain s.ed) := by
  have hvalid : Valid (some (.live s)) := by
    refine htr.preserves (C := FitsIn) ⟨openEditor_inv doc, rfl⟩ ?_ hfits
    intro σ i σ' hvalid hfit hmove
    obtain ⟨s', rfl, hlegal, rfl⟩ := hmove
    exact handle_valid hvalid.1 hvalid.2 hlegal (hfit s' rfl)
  exact ⟨returned_iff hpath h0, roundTrips_iff hvalid.1.toText⟩

theorem files_round_trip_letter :
    Returned .zero [0x61] [0x62, 10, 0x63] ∧
      RoundTrips (openEditor (some ([0x61], [0x62]))) [0x61] := by
  have hopen : Trace Moves (opened (some ([0x61], [0x62]))) []
      (some (.live ⟨openEditor (some ([0x61], [0x62])), fun _ => 0⟩)) := .start
  have hboth := @files_round_trip_iff .zero [0x61] [0x62, 10, 0x63] (by decide) (by decide) _ _ _
    hopen (by simp) [0x61]
  refine ⟨hboth.1.mpr ⟨by decide, by decide, by decide, by decide⟩, hboth.2.mpr ?_⟩
  intro r h0 hr l hl
  have hr0 : r = 0 := by
    have htotal : (openEditor (some ([0x61], [0x62]))).totalLines = 1 := by decide
    simp only [htotal] at hr
    omega
  have hline : slotText ((openEditor (some ([0x61], [0x62]))).lines 0) = some [0x62] := by
    decide
  subst hr0
  rw [hline] at hl
  obtain rfl := Option.some.inj hl
  decide

-- The menu of a new document is opened and its command takes a click.
def insertDocument : State := ⟨teditorOpenMenu newDocument 3, fun _ => 0⟩

def insertClick : Input :=
  .butDown ⟨0, fun _ => 0, ⟨0, 0, 0, 0⟩, ⟨0, 0, 0, 0⟩, 0, false, false, 0, 0, none, 0, 0, 0, 0,
    none, none⟩ 304 56 ⟨none, [], fun _ => none, true, true⟩

theorem insertClick_line : ∃ s, handle insertDocument insertClick = some (.live s) ∧
    slotText (s.ed.lines 0) = some vobjText := by
  have heval : ((handle insertDocument insertClick).bind fun session =>
      session.casesOn (fun s => slotText (s.ed.lines 0)) none) = some vobjText := by
    decide
  cases hhandle : handle insertDocument insertClick with
  | none =>
      rw [hhandle] at heval
      cases heval
  | some session =>
      rw [hhandle] at heval
      cases session with
      | closed => cases heval
      | live s => exact ⟨s, rfl, heval⟩

theorem insertClick_fits : Fits insertDocument insertClick := by
  have hhandled : (appMenuHandleMouseDown insertDocument.ed.menuBar 300 30).handled = true := by
    decide
  intro hmiss
  exact absurd (hhandled.symm.trans hmiss) (by decide)

-- The path of a file in a directory is not kept, and the line feed that the command inserts stays
-- in its line.
theorem files_no_round_trip :
    (¬∀ (ed : TEditor) (path file : List UB), 0 ∉ path → 0 ∉ file → Returned ed path file) ∧
    ¬∀ (doc : Option (List UB × List UB)) (tr : List (Option Session × Input)) (s : State)
      (target : List UB), Trace Moves (opened doc) tr (some (.live s)) →
      (∀ t ∈ tr, FitsIn t.1 t.2) → RoundTrips s.ed target := by
  constructor
  · intro h
    have hdir := (returned_iff (by decide) (by decide)).mp
      (h .zero [0x64, 0x2F, 0x61] [0x61] (by decide) (by decide))
    exact absurd hdir.name.1 (by decide)
  · intro h
    obtain ⟨s, hclick, hline⟩ := insertClick_line
    have hnew : Moves (opened none) (press (0x6E, BTRON_KMOD_CTRL))
        (some (.live ⟨newDocument, fun _ => 0⟩)) := ⟨_, rfl, True.intro, rfl⟩
    have hmenu : Moves (some (.live ⟨newDocument, fun _ => 0⟩)) (.openMenu 3)
        (some (.live insertDocument)) := ⟨_, rfl, True.intro, rfl⟩
    have htaken : Moves (some (.live insertDocument)) insertClick (some (.live s)) :=
      ⟨_, rfl, True.intro, hclick.symm⟩
    have htrip := h none _ s [0x61] (((Trace.start.next hnew).next hmenu).next htaken) (by
      simp only [List.forall_mem_cons, List.not_mem_nil, false_imp_iff, implies_true, and_true]
      refine ⟨fun t ht => ?_, fun t _ => True.intro, fun t _ _ => ⟨?_, ?_⟩⟩
      · cases ht
        exact insertClick_fits
      · exact fun hkey => absurd hkey (by decide)
      · exact fun hkey => absurd hkey (by decide))
    have hvalid : Valid (handle insertDocument insertClick) :=
      handle_valid (newDocument_inv.menuOpened 3) rfl True.intro insertClick_fits
    rw [hclick] at hvalid
    have htext := hvalid.1.toText
    have hplain := (roundTrips_iff htext).mp htrip 0 (Int.le_refl 0) htext.total.1 _ hline
    exact hplain.1 (by decide)

end RoundTrip

end BTron.Editor
