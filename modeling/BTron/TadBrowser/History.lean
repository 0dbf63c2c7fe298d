import BTron.TadBrowser.Browser

namespace BTron.TadBrowser

open Lib

-- The same document at the same position.
def Restores (tb tb' : Browser) : Prop :=
  tb'.filePath = tb.filePath ∧ tb'.docTitle = tb.docTitle ∧ tb'.scrollY = tb.scrollY

-- A file that is loaded.
structure File.Loads (file : File) : Prop where
  possible : file.Possible
  read : ∃ b spans docHeight, file = .read b spans docHeight ∧ 0 < b.len

-- What the reader does between two moves.
def scrolled (tb : Browser) (deltas : List Int) : Browser := deltas.foldl tadBrowserScroll tb

-- What is promised of the history.
structure Laws (tb : Browser) : Prop where
  range : -1 ≤ tb.historyIdx ∧ tb.historyIdx < tb.historyCount ∧
    tb.historyCount ≤ tadMaxHistory
  shown : 0 ≤ tb.historyIdx → tb.filePath = (tb.history tb.historyIdx.toNat).path
  forward : ∀ (file file' : File) (deltas : List Int), file.Loads → file'.Loads →
    tadBrowserCanGoBack tb →
      Restores tb (tadBrowserGoForward (scrolled (tadBrowserGoBack tb file).1 deltas) file').1
  back : ∀ (fileExists : List UB → Bool) (target : List UB) (file file' : File)
    (deltas : List Int), file.Loads → file'.Loads → 0 ≤ tb.historyIdx →
      Restores tb (tadBrowserGoBack
        (scrolled (tadBrowserNavigate tb fileExists (some target) file).1 deltas) file').1

-- What holds of the browser at all times.
structure Kept (tb : Browser) : Prop where
  range : -1 ≤ tb.historyIdx ∧ tb.historyIdx < tb.historyCount ∧ tb.historyCount ≤ 32
  entries : ∀ i, (tb.history i).scrollY = 0 ∧
    strncpy (tb.history i).path (tadMaxPath - 1) = (tb.history i).path
  title : 0 ≤ tb.historyIdx → tb.docTitle = strncpy tb.filePath (tadMaxTitle - 1)

def Shown (tb : Browser) : Prop :=
  0 ≤ tb.historyIdx → tb.filePath = (tb.history tb.historyIdx.toNat).path

-- The reader is at the top of the document, and at the end of the history the entry before it is
-- for the same document.
def Restorable (tb : Browser) : Prop :=
  0 ≤ tb.historyIdx →
    tb.scrollY = 0 ∧ (tb.historyIdx = 31 → (tb.history 30).path = tb.filePath)

theorem strncpy_strncpy (src : List UB) {m n : Nat} (h : m ≤ n) :
    strncpy (strncpy src n) m = strncpy src m := by
  rw [strncpy, cstr_eq (zero_notMem_strncpy src n), strncpy, List.take_take, Nat.min_eq_left h,
    strncpy]

-- A load that succeeds changes nothing of the history.
theorem loadFile_loads {file : File} (h : file.Loads) (tb : Browser) (path : List UB) :
    ∃ tb', tadBrowserLoadFile tb (some path) file = (tb', E_OK) ∧
      tb'.filePath = strncpy path (tadMaxPath - 1) ∧
      tb'.docTitle = strncpy path (tadMaxTitle - 1) ∧ tb'.scrollY = tb.scrollY ∧
      tb'.history = tb.history ∧ tb'.historyCount = tb.historyCount ∧
      tb'.historyIdx = tb.historyIdx := by
  obtain ⟨b, spans, docHeight, rfl, hlen⟩ := h.read
  have hbuffer : ∀ tb, tadBrowserLoadBuffer tb b spans docHeight path = (_, E_OK) :=
    fun _ => if_neg (by omega)
  exact ⟨_, hbuffer _, rfl, rfl, rfl, rfl, rfl, rfl⟩

theorem goTo_loads {file : File} (h : file.Loads) {tb : Browser} {idx : Int}
    (hpath : strncpy (tb.history idx.toNat).path (tadMaxPath - 1) = (tb.history idx.toNat).path) :
    ∃ tb', goTo tb idx file = (tb', E_OK) ∧ tb'.filePath = (tb.history idx.toNat).path ∧
      tb'.docTitle = strncpy tb'.filePath (tadMaxTitle - 1) ∧
      tb'.scrollY = (tb.history idx.toNat).scrollY ∧ tb'.history = tb.history ∧
      tb'.historyCount = tb.historyCount ∧ tb'.historyIdx = idx := by
  obtain ⟨tb', hload, hfile, htitle, -, hhistory, hcount, hidx⟩ :=
    loadFile_loads h { tb with historyIdx := idx } (tb.history idx.toNat).path
  have hgo : goTo tb idx file =
      ({ tb' with scrollY := (tb'.history idx.toNat).scrollY }, E_OK) := by
    unfold goTo
    dsimp only
    rw [hload]
  refine ⟨_, hgo, hfile.trans hpath, ?_, ?_, hhistory, hcount, hidx⟩
  · exact htitle.trans (by rw [hfile, hpath])
  · rw [hhistory]

theorem scrolled_keeps (deltas : List Int) (tb : Browser) :
    (scrolled tb deltas).filePath = tb.filePath ∧ (scrolled tb deltas).docTitle = tb.docTitle ∧
      (scrolled tb deltas).history = tb.history ∧
      (scrolled tb deltas).historyCount = tb.historyCount ∧
      (scrolled tb deltas).historyIdx = tb.historyIdx := by
  induction deltas generalizing tb with
  | nil => exact ⟨rfl, rfl, rfl, rfl, rfl⟩
  | cons d deltas ih => exact ih (tadBrowserScroll tb d)

-- A navigation puts the document behind the current one while there is room.
theorem navigate_loads {file : File} (h : file.Loads) (tb : Browser)
    (fileExists : List UB → Bool) (target : List UB) :
    ∃ tb' resolved, tadBrowserNavigate tb fileExists (some target) file = (tb', E_OK) ∧
      resolved = tadBrowserResolvePath fileExists tb.filePath target tadMaxPath ∧
      tb'.filePath = strncpy resolved (tadMaxPath - 1) ∧
      tb'.docTitle = strncpy resolved (tadMaxTitle - 1) ∧ tb'.scrollY = 0 ∧
      (tb.historyIdx < 31 → tb'.historyIdx = tb.historyIdx + 1 ∧
        tb'.historyCount = tb.historyIdx + 2 ∧
        tb'.history = Function.update tb.history (tb.historyIdx + 1).toNat
          ⟨strncpy resolved (tadMaxPath - 1), 0⟩) ∧
      (¬tb.historyIdx < 31 → tb'.historyIdx = tb.historyIdx ∧
        tb'.historyCount = tb.historyCount ∧ tb'.history = tb.history) := by
  obtain ⟨tb', hload, hfile, htitle, -, hhistory, hcount, hidx⟩ :=
    loadFile_loads h tb (tadBrowserResolvePath fileExists tb.filePath target tadMaxPath)
  unfold tadBrowserNavigate
  dsimp only
  rw [hload, if_pos rfl, tadMaxHistory, hidx]
  by_cases hroom : tb.historyIdx < 31
  · rw [if_pos (by omega)]
    refine ⟨_, _, rfl, rfl, hfile, htitle, rfl, fun _ => ⟨rfl, ?_, ?_⟩,
      fun hfull => absurd hroom hfull⟩
    · exact Int.add_assoc _ 1 1
    · simp only [hhistory]
  · rw [if_neg (by omega)]
    exact ⟨_, _, rfl, rfl, hfile, htitle, rfl, fun hroom' => absurd hroom' hroom,
      fun _ => ⟨rfl, hcount, hhistory⟩⟩

section Moves

variable {tb : Browser} {file : File}

theorem goBack_loads (hk : Kept tb) (h : file.Loads) (hidx : 0 < tb.historyIdx) :
    ∃ tb', tadBrowserGoBack tb file = (tb', E_OK) ∧
      tb'.filePath = (tb.history (tb.historyIdx - 1).toNat).path ∧
      tb'.docTitle = strncpy tb'.filePath (tadMaxTitle - 1) ∧ tb'.scrollY = 0 ∧
      tb'.history = tb.history ∧ tb'.historyCount = tb.historyCount ∧
      tb'.historyIdx = tb.historyIdx - 1 := by
  obtain ⟨tb', hgo, hfile, htitle, hscroll, hrest⟩ :=
    goTo_loads h (hk.entries (tb.historyIdx - 1).toNat).2
  rw [(hk.entries _).1] at hscroll
  refine ⟨tb', ?_, hfile, htitle, hscroll, hrest⟩
  rw [tadBrowserGoBack, if_neg (by simp [tadBrowserCanGoBack, hidx]), hgo]

theorem goBack_stays (hidx : ¬0 < tb.historyIdx) : tadBrowserGoBack tb file = (tb, E_OK) := by
  rw [tadBrowserGoBack, if_pos (by simp [tadBrowserCanGoBack]; omega)]

theorem goForward_loads (hk : Kept tb) (h : file.Loads)
    (hidx : 0 ≤ tb.historyIdx ∧ tb.historyIdx < tb.historyCount - 1) :
    ∃ tb', tadBrowserGoForward tb file = (tb', E_OK) ∧
      tb'.filePath = (tb.history (tb.historyIdx + 1).toNat).path ∧
      tb'.docTitle = strncpy tb'.filePath (tadMaxTitle - 1) ∧ tb'.scrollY = 0 ∧
      tb'.history = tb.history ∧ tb'.historyCount = tb.historyCount ∧
      tb'.historyIdx = tb.historyIdx + 1 := by
  obtain ⟨tb', hgo, hfile, htitle, hscroll, hrest⟩ :=
    goTo_loads h (hk.entries (tb.historyIdx + 1).toNat).2
  rw [(hk.entries _).1] at hscroll
  refine ⟨tb', ?_, hfile, htitle, hscroll, hrest⟩
  rw [tadBrowserGoForward, if_neg (by simp [tadBrowserCanGoForward, hidx]), hgo]

theorem goForward_stays (hidx : ¬(0 ≤ tb.historyIdx ∧ tb.historyIdx < tb.historyCount - 1)) :
    tadBrowserGoForward tb file = (tb, E_OK) := by
  rw [tadBrowserGoForward, if_pos]
  rw [Bool.not_eq_true', tadBrowserCanGoForward, Bool.eq_false_iff, ne_eq, Bool.and_eq_true,
    decide_eq_true_eq, decide_eq_true_eq]
  exact hidx

end Moves

-- A move lands where the history has the index: at the top.
theorem Kept.moved {tb tb' : Browser} (hk : Kept tb) (hhistory : tb'.history = tb.history)
    (hcount : tb'.historyCount = tb.historyCount)
    (hidx : 0 ≤ tb'.historyIdx ∧ tb'.historyIdx < tb.historyCount)
    (htitle : tb'.docTitle = strncpy tb'.filePath (tadMaxTitle - 1)) : Kept tb' where
  range := by
    have hrange := hk.range
    rw [hcount]
    omega
  entries := by
    rw [hhistory]
    exact hk.entries
  title _ := htitle

theorem Kept.scrolled {tb : Browser} (hk : Kept tb) (deltas : List Int) :
    Kept (scrolled tb deltas) := by
  obtain ⟨hfile, htitle, hhistory, hcount, hidx⟩ := scrolled_keeps deltas tb
  refine ⟨?_, ?_, ?_⟩
  · rw [hcount, hidx]
    exact hk.range
  · rw [hhistory]
    exact hk.entries
  · rw [hidx, htitle, hfile]
    exact hk.title

theorem Kept.navigate {tb tb' : Browser} (hk : Kept tb) {resolved : List UB}
    (hfile : tb'.filePath = strncpy resolved (tadMaxPath - 1))
    (htitle : tb'.docTitle = strncpy resolved (tadMaxTitle - 1))
    (hroom : tb.historyIdx < 31 → tb'.historyIdx = tb.historyIdx + 1 ∧
      tb'.historyCount = tb.historyIdx + 2 ∧
      tb'.history = Function.update tb.history (tb.historyIdx + 1).toNat
        ⟨strncpy resolved (tadMaxPath - 1), 0⟩)
    (hfull : ¬tb.historyIdx < 31 → tb'.historyIdx = tb.historyIdx ∧
      tb'.historyCount = tb.historyCount ∧ tb'.history = tb.history) : Kept tb' := by
  have hrange := hk.range
  have htitle' : tb'.docTitle = strncpy tb'.filePath (tadMaxTitle - 1) := by
    rw [htitle, hfile, strncpy_strncpy _ (by decide)]
  by_cases h : tb.historyIdx < 31
  · obtain ⟨hidx, hcount, hhistory⟩ := hroom h
    refine ⟨by omega, fun i => ?_, fun _ => htitle'⟩
    rw [hhistory]
    by_cases hi : i = (tb.historyIdx + 1).toNat
    · subst hi
      rw [Function.update_self]
      exact ⟨rfl, strncpy_strncpy _ le_rfl⟩
    · rw [Function.update_of_ne hi]
      exact hk.entries i
  · obtain ⟨hidx, hcount, hhistory⟩ := hfull h
    exact hk.moved hhistory hcount (by omega) htitle'

-- Back and forth again is the entry of the current document, from its top.
theorem forward_after_back {tb : Browser} (hk : Kept tb) {file file' : File} (h : file.Loads)
    (h' : file'.Loads) (deltas : List Int) (hidx : 0 < tb.historyIdx) :
    let tb' := (tadBrowserGoForward (scrolled (tadBrowserGoBack tb file).1 deltas) file').1
    tb'.filePath = (tb.history tb.historyIdx.toNat).path ∧
      tb'.docTitle = strncpy tb'.filePath (tadMaxTitle - 1) ∧ tb'.scrollY = 0 := by
  have hrange := hk.range
  obtain ⟨back, hback, -, hbtitle, -, hbhistory, hbcount, hbidx⟩ := goBack_loads hk h hidx
  have hbk : Kept back := hk.moved hbhistory hbcount (by omega) hbtitle
  obtain ⟨-, -, hshistory, hscount, hsidx⟩ := scrolled_keeps deltas back
  obtain ⟨tb', hforward, hfile, htitle, hscroll, -⟩ :=
    goForward_loads (hbk.scrolled deltas) h' (by omega)
  have hsame : back.historyIdx + 1 = tb.historyIdx := by omega
  rw [hshistory, hbhistory, hsidx, hsame] at hfile
  simp only [hback, hforward]
  exact ⟨hfile, htitle, hscroll⟩

-- Back from a document just gone to is the entry that the history had, from its top.
theorem back_after_navigate {tb : Browser} (hk : Kept tb) {file file' : File} (h : file.Loads)
    (h' : file'.Loads) (deltas : List Int) (fileExists : List UB → Bool) (target : List UB)
    (hidx : 0 ≤ tb.historyIdx) :
    let tb' := (tadBrowserGoBack
      (scrolled (tadBrowserNavigate tb fileExists (some target) file).1 deltas) file').1
    tb'.filePath = (tb.history (if tb.historyIdx < 31 then tb.historyIdx else 30).toNat).path ∧
      tb'.docTitle = strncpy tb'.filePath (tadMaxTitle - 1) ∧ tb'.scrollY = 0 := by
  have hrange := hk.range
  obtain ⟨next, resolved, hnavigate, -, hfile, htitle, -, hroom, hfull⟩ :=
    navigate_loads h tb fileExists target
  have hnk : Kept next := hk.navigate hfile htitle hroom hfull
  obtain ⟨-, -, hshistory, hscount, hsidx⟩ := scrolled_keeps deltas next
  have hnidx : 0 < next.historyIdx := by
    by_cases h31 : tb.historyIdx < 31
    · have := (hroom h31).1
      omega
    · have := (hfull h31).1
      omega
  obtain ⟨tb', hback, hbfile, hbtitle, hbscroll, -⟩ :=
    goBack_loads (hnk.scrolled deltas) h' (by omega)
  simp only [hnavigate, hback]
  refine ⟨?_, hbtitle, hbscroll⟩
  rw [hbfile, hshistory, hsidx]
  by_cases h31 : tb.historyIdx < 31
  · obtain ⟨hni, -, hnhistory⟩ := hroom h31
    rw [hnhistory, hni, if_pos h31, Function.update_of_ne (by omega)]
    congr 2
    omega
  · obtain ⟨hni, -, hnhistory⟩ := hfull h31
    rw [hnhistory, hni, if_neg h31]
    congr 2
    omega

-- A file of one letter, and the height of its layout.
def letterTad : Buffer := .ofBytes [0x41] (by decide)

def letterFile (docHeight : Int) : File :=
  .read letterTad [{ style := initStyle, text := [0x41], isLink := false }] docHeight

theorem letterFile_loads (docHeight : Int) : (letterFile docHeight).Loads := by
  have hruns : (runFor (parseStep (fun _ => ofList []) letterTad) 2 parseStart).map
      ParseState.spans = some [{ style := initStyle, text := [0x41], isLink := false }] := by
    decide
  obtain ⟨s, hs, hspans⟩ := Option.map_eq_some_iff.mp hruns
  have hparses : Parses letterTad _ :=
    .inr ⟨by decide, fun _ => ofList [], s, exits_of_runFor hs, hspans⟩
  exact ⟨fun _ => hparses, letterTad, _, docHeight, rfl, by decide⟩

theorem laws_iff {tb : Browser} (hk : Kept tb) : Laws tb ↔ Shown tb ∧ Restorable tb := by
  have hrange := hk.range
  constructor
  · intro h
    refine ⟨h.shown, fun h0 => ?_⟩
    have hletter := letterFile_loads 0
    have hback := h.back (fun _ => false) [] _ _ [] hletter hletter h0
    obtain ⟨hfile, -, hscroll⟩ := back_after_navigate hk hletter hletter [] (fun _ => false) [] h0
    refine ⟨hback.2.2.symm.trans hscroll, fun h31 => ?_⟩
    rw [if_neg (by omega)] at hfile
    exact hfile.symm.trans hback.1
  · rintro ⟨hshown, hrestorable⟩
    have hrestores : ∀ tb' : Browser, 0 ≤ tb.historyIdx →
        tb'.filePath = (tb.history tb.historyIdx.toNat).path →
        tb'.docTitle = strncpy tb'.filePath (tadMaxTitle - 1) → tb'.scrollY = 0 →
          Restores tb tb' := by
      intro tb' h0 hfile htitle hscroll
      rw [← hshown h0] at hfile
      exact ⟨hfile, by rw [htitle, hk.title h0, hfile], by rw [hscroll, (hrestorable h0).1]⟩
    refine ⟨hrange, hshown, ?_, ?_⟩
    · intro file file' deltas h h' hgo
      rw [tadBrowserCanGoBack, decide_eq_true_eq] at hgo
      obtain ⟨hfile, htitle, hscroll⟩ := forward_after_back hk h h' deltas hgo
      exact hrestores _ (by omega) hfile htitle hscroll
    · intro fileExists target file file' deltas h h' h0
      obtain ⟨hfile, htitle, hscroll⟩ :=
        back_after_navigate hk h h' deltas fileExists target h0
      refine hrestores _ h0 (hfile.trans ?_) htitle hscroll
      by_cases h31 : tb.historyIdx < 31
      · rw [if_pos h31]
      · rw [if_neg h31, ← hshown h0]
        exact (hrestorable h0).2 (by omega)

-- What the reader does: the loads all succeed.
inductive Act
  | navigate (fileExists : List UB → Bool) (target : List UB) (file : File)
  | goBack (file : File)
  | goForward (file : File)
  | scroll (deltaY : Int)

def Act.run (tb : Browser) : Act → Browser
  | .navigate fileExists target file => (tadBrowserNavigate tb fileExists (some target) file).1
  | .goBack file => (tadBrowserGoBack tb file).1
  | .goForward file => (tadBrowserGoForward tb file).1
  | .scroll deltaY => tadBrowserScroll tb deltaY

def Act.Loads : Act → Prop
  | .navigate _ _ file | .goBack file | .goForward file => file.Loads
  | .scroll _ => True

def Act.Step (tb : Browser) (act : Act) (tb' : Browser) : Prop := act.Loads ∧ tb' = act.run tb

-- There is room for the document gone to, or it is the current one.
def Act.HasRoom (tb : Browser) : Act → Prop
  | .navigate fileExists target _ =>
    tb.historyIdx < 31 ∨
      strncpy (tadBrowserResolvePath fileExists tb.filePath target tadMaxPath) (tadMaxPath - 1) =
        tb.filePath
  | _ => True

theorem kept_init : Kept tadBrowserInit :=
  ⟨by decide, fun _ => ⟨rfl, rfl⟩, fun h => absurd h (by decide)⟩

-- What a move between the entries does to the history.
theorem goBack_moves {tb : Browser} {file : File} (hk : Kept tb) (h : file.Loads) :
    Kept (tadBrowserGoBack tb file).1 ∧ (Shown tb → Shown (tadBrowserGoBack tb file).1) := by
  have hrange := hk.range
  by_cases hidx : 0 < tb.historyIdx
  · obtain ⟨tb', hback, hfile, htitle, -, hhistory, hcount, hidx'⟩ := goBack_loads hk h hidx
    rw [hback]
    dsimp only
    refine ⟨hk.moved hhistory hcount (by omega) htitle, fun _ _ => ?_⟩
    rw [hfile, hhistory, hidx']
  · rw [goBack_stays hidx]
    exact ⟨hk, id⟩

theorem goForward_moves {tb : Browser} {file : File} (hk : Kept tb) (h : file.Loads) :
    Kept (tadBrowserGoForward tb file).1 ∧
      (Shown tb → Shown (tadBrowserGoForward tb file).1) := by
  have hrange := hk.range
  by_cases hidx : 0 ≤ tb.historyIdx ∧ tb.historyIdx < tb.historyCount - 1
  · obtain ⟨tb', hforward, hfile, htitle, -, hhistory, hcount, hidx'⟩ :=
      goForward_loads hk h hidx
    rw [hforward]
    dsimp only
    refine ⟨hk.moved hhistory hcount (by omega) htitle, fun _ _ => ?_⟩
    rw [hfile, hhistory, hidx']
  · rw [goForward_stays hidx]
    exact ⟨hk, id⟩

theorem kept_step (tb : Browser) (act : Act) (tb' : Browser) (hk : Kept tb)
    (hstep : act.Step tb tb') : Kept tb' := by
  obtain ⟨hloads, rfl⟩ := hstep
  cases act with
  | navigate fileExists target file =>
      obtain ⟨tb', resolved, hnavigate, -, hfile, htitle, -, hroom, hfull⟩ :=
        navigate_loads hloads tb fileExists target
      rw [Act.run, hnavigate]
      exact hk.navigate hfile htitle hroom hfull
  | goBack file => exact (goBack_moves hk hloads).1
  | goForward file => exact (goForward_moves hk hloads).1
  | scroll deltaY => exact hk.scrolled [deltaY]

theorem shown_step (tb : Browser) (act : Act) (tb' : Browser) (hk : Kept tb) (hshown : Shown tb)
    (hstep : act.Step tb tb') : Shown tb' ↔ act.HasRoom tb := by
  obtain ⟨hloads, rfl⟩ := hstep
  cases act with
  | navigate fileExists target file =>
      have hrange := hk.range
      obtain ⟨tb', resolved, hnavigate, rfl, hfile, -, -, hroom, hfull⟩ :=
        navigate_loads hloads tb fileExists target
      rw [Act.run, hnavigate]
      by_cases h31 : tb.historyIdx < 31
      · obtain ⟨hidx, -, hhistory⟩ := hroom h31
        refine iff_of_true (fun _ => ?_) (.inl h31)
        rw [hfile, hhistory, hidx, Function.update_self]
      · obtain ⟨hidx, -, hhistory⟩ := hfull h31
        have h0 : 0 ≤ tb.historyIdx := by omega
        rw [Shown, Act.HasRoom, or_iff_right h31, hidx, hhistory, hfile, forall_prop_of_true h0,
          hshown h0]
  | goBack file => exact iff_of_true ((goBack_moves hk hloads).2 hshown) trivial
  | goForward file => exact iff_of_true ((goForward_moves hk hloads).2 hshown) trivial
  | scroll deltaY =>
      obtain ⟨hfile, -, hhistory, -, hidx⟩ := scrolled_keeps [deltaY] tb
      refine iff_of_true ?_ trivial
      have hsame : Shown (scrolled tb [deltaY]) := by
        rw [Shown, hfile, hhistory, hidx]
        exact hshown
      exact hsame

-- A page with a link to another.
def firstPage (docHeight : Int) : Browser :=
  (Act.navigate (fun _ => true) [0x41] (letterFile docHeight)).run tadBrowserInit

def secondPage : Browser :=
  (Act.navigate (fun _ => true) [0x42] (letterFile 86)).run (firstPage 86)

theorem firstPage_trace (docHeight : Int) :
    Trace (fun tb act => Act.Step tb act) tadBrowserInit
      [(tadBrowserInit, .navigate (fun _ => true) [0x41] (letterFile docHeight))]
      (firstPage docHeight) :=
  .next .start ⟨letterFile_loads docHeight, rfl⟩

end BTron.TadBrowser
