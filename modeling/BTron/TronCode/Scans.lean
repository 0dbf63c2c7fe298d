import BTron.Lib.Memory
import BTron.TadBrowser.Wrap

namespace BTron.TronCode

open Lib Lib.Logged
open Editor (charStep utf8ToTc_log)
open TadBrowser

-- How far the loop of opn_wnd that copies the title goes at a byte.
def titleStep (c : UB) : Nat :=
  if c &&& 0x80 = 0 then 1
  else if c &&& 0xE0 = 0xC0 then 2
  else if c &&& 0xF0 = 0xE0 then 3
  else if c &&& 0xF8 = 0xF0 then 4
  else 1

-- A turn of that loop: the place in the title, and the copy.
def titleTurn (srcT : Memory) (s : Nat × Memory) : Logged (Nat × Memory ⊕ Memory) := do
  let c ← read srcT s.1
  if c = 0 ∨ s.1 + titleStep c ≥ 64 then pure (.inr s.2)
  else do
    let bytes ← readBlock srcT s.1 (titleStep c)
    pure (.inl (s.1 + titleStep c, fun k =>
      if s.1 ≤ k ∧ k < s.1 + titleStep c then bytes.getD (k - s.1) 0 else s.2 k))

def titleCopy (fuel : Nat) (srcT : Memory) : Logged (Option Memory) :=
  loop (titleTurn srcT) fuel (0, fun _ => 0)

-- The first NUL is at `n`.
def Terminated (text : Memory) (n : Nat) : Prop := text n = 0 ∧ ∀ k < n, text k ≠ 0

-- The characters from one place on, as long as their first bytes say, end at the terminator.
inductive Whole (text : Memory) (n : Nat) : Nat → Prop
  | nil : Whole text n n
  | char {i : Nat} : text i ≠ 0 → Whole text n (i + leadStep (text i)) → Whole text n i

theorem Whole.le {text : Memory} {n i : Nat} (h : Whole text n i) : i ≤ n := by
  induction h with
  | nil => exact Nat.le_refl n
  | char _ _ ih => omega

variable {text : Memory} {n : Nat}

theorem Whole.next (hend : text n = 0) {i : Nat} (h : Whole text n i)
    (hne : text i ≠ 0) : Whole text n (i + leadStep (text i)) := by
  cases h with
  | nil => exact absurd hend hne
  | char _ h => exact h

theorem Whole.succ (hend : text n = 0) {i : Nat} (h : Whole text n i)
    (hne : text i ≠ 0) (hascii : text i < 0x80) : Whole text n (i + 1) := by
  have hnext := h.next hend hne
  rwa [leadStep_ascii hascii] at hnext

theorem Whole.lt (hend : text n = 0) {i : Nat} (h : Whole text n i) (hne : text i ≠ 0) :
    i < n := by
  have hle := (h.next hend hne).le
  have hpos := leadStep_pos (text i)
  omega

-- A character that is not cut is read up to its end.
theorem Whole.within (hend : text n = 0) {i : Nat} (h : Whole text n i)
    (hne : text i ≠ 0) : Within (· ≤ n) (utf8ToTc text i) := by
  intro k hk
  have hlt := (utf8ToTc_log text i).2 k hk
  rw [charStep_eq hne] at hlt
  exact Nat.le_trans (Nat.le_of_lt hlt) (h.next hend hne).le

theorem stepOf_eq {i : Nat} (hne : text i ≠ 0) :
    stepOf (utf8ToTc text i).val.2 = leadStep (text i) := charStep_eq hne

theorem within_utf8ToTcLoop (hend : text n = 0) (m : Nat) {i : Nat}
    (h : Whole text n i) : Within (· ≤ n) (utf8ToTcLoop text m i) := by
  induction m generalizing i with
  | zero => simpa [utf8ToTcLoop] using h.le
  | succ m ih =>
      rw [utf8ToTcLoop, within_bind, within_read, val_read]
      refine ⟨h.le, ?_⟩
      split
      · exact within_pure _
      · rename_i hne
        have hstep : (if 0 < (utf8ToTc text i).val.2 then (utf8ToTc text i).val.2 else 1) =
            leadStep (text i) := stepOf_eq hne
        rw [within_bind, within_bind, hstep]
        exact ⟨h.within hend hne, ih (h.next hend hne), within_pure _⟩

theorem within_utf8ToTcString (hend : text n = 0) (h : Whole text n 0) (maxChars : Nat) :
    Within (· ≤ n) (utf8ToTcString text maxChars) := by
  unfold utf8ToTcString
  split
  · exact within_pure _
  · exact within_utf8ToTcLoop hend _ h

theorem calcTurn_next {maxBytes : Nat} {s t : Measure}
    (h : (calcTurn text maxBytes s).val = .inl t) :
    text s.bi ≠ 0 ∧ t.bi = s.bi + leadStep (text s.bi) := by
  rw [calcTurn, val_read_bind, val_ite] at h
  split at h
  · cases h
  · rename_i hgo
    have hne : text s.bi ≠ 0 := fun h0 => hgo (.inl h0)
    cases h
    exact ⟨hne, by rw [stepOf_eq hne]⟩

theorem within_calcTurn (hend : text n = 0) {maxBytes : Nat} {s : Measure}
    (h : Whole text n s.bi) : Within (· ≤ n) (calcTurn text maxBytes s) := by
  rw [calcTurn, within_read_bind]
  refine ⟨h.le, ?_⟩
  split
  · exact within_pure _
  · rename_i hgo
    rw [within_bind]
    exact ⟨h.within hend fun h0 => hgo (.inl h0), within_pure _⟩

theorem returns_tcCalcStringWidth (hend : text n = 0) (h : Whole text n 0)
    (maxBytes : Nat) : Returns (· ≤ n) fun fuel => tcCalcStringWidth fuel text maxBytes := by
  unfold tcCalcStringWidth
  split
  · exact ⟨0, 0, rfl, within_pure _⟩
  · refine returns_loop.mpr ?_
    exact exists_ends (I := fun s => Whole text n s.bi) (fun s => n - s.bi)
      (fun s hs => within_calcTurn hend hs)
      (fun s t hs hnext => by
        obtain ⟨hne, hbi⟩ := calcTurn_next hnext
        have hpos := leadStep_pos (text s.bi)
        have hlt := hs.lt hend hne
        exact ⟨hbi ▸ hs.next hend hne, by omega⟩)
      h

theorem renderTurn_next {x : Int} {s t : Pen} (h : (renderTurn text x s).val = .inl t) :
    text s.p ≠ 0 ∧ t.p = s.p + leadStep (text s.p) := by
  rw [renderTurn, val_read_bind, val_ite] at h
  split at h
  · cases h
  rename_i hne
  rw [val_ite] at h
  split at h
  · rename_i hnl
    cases h
    exact ⟨hne, by rw [hnl]; rfl⟩
  · rw [val_bind, val_ite] at h
    split at h <;> cases h <;> exact ⟨hne, congrArg _ (stepOf_eq hne)⟩

theorem within_renderTurn (hend : text n = 0) {x : Int} {s : Pen}
    (h : Whole text n s.p) : Within (· ≤ n) (renderTurn text x s) := by
  rw [renderTurn, within_read_bind]
  refine ⟨h.le, ?_⟩
  split
  · exact within_pure _
  rename_i hne
  split
  · exact within_pure _
  · rw [within_bind]
    refine ⟨h.within hend hne, ?_⟩
    rw [within_ite]
    exact ⟨fun _ => within_pure _, fun _ => within_pure _⟩

theorem returns_renderTcString (hend : text n = 0) (h : Whole text n 0) (x y : Int) :
    Returns (· ≤ n) fun fuel => renderTcString fuel x y text := by
  refine returns_loop.mpr ?_
  exact exists_ends (I := fun s => Whole text n s.p) (fun s => n - s.p)
    (fun s hs => within_renderTurn hend hs)
    (fun s t hs hnext => by
      obtain ⟨hne, hp⟩ := renderTurn_next hnext
      have hpos := leadStep_pos (text s.p)
      have hlt := hs.lt hend hne
      exact ⟨hp ▸ hs.next hend hne, by omega⟩)
    h

-- Where nothing ends the loop but the terminator, a character that is cut leads behind it.
theorem whole_of_renderTcString (hterm : Terminated text n) {x y : Int}
    (h : Returns (· ≤ n) fun fuel => renderTcString fuel x y text) : Whole text n 0 := by
  obtain ⟨r, hr, hread⟩ := returns_loop.mp h
  have hfirst : ∀ s : Pen, Within (· ≤ n) (renderTurn text x s) → s.p ≤ n := by
    intro s hs
    rw [renderTurn, within_read_bind] at hs
    exact hs.1
  refine hr.backward (M := fun s => Whole text n s.p) hread (fun s b hs hstop => ?_)
    (fun s t hs hnext ht => ?_)
  · have h0 : text s.p = 0 := by
      by_contra hne
      rw [renderTurn, val_read_bind, if_neg hne, val_ite] at hstop
      split at hstop
      · cases hstop
      · rw [val_bind, val_ite] at hstop
        split at hstop <;> cases hstop
    rcases Nat.lt_or_eq_of_le (hfirst s hs) with hlt | heq
    · exact absurd h0 (hterm.2 _ hlt)
    · rw [heq]
      exact .nil
  · obtain ⟨hne, hp⟩ := renderTurn_next hnext
    rw [hp] at ht
    exact .char hne ht

private theorem ascii_table : ∀ n : Fin 256,
    (UInt8.ofNat n.val &&& 0x80 = 0 ↔ UInt8.ofNat n.val < 0x80) := by
  decide +kernel

theorem titleStep_eq (c : UB) : titleStep c = leadStep c := by
  have hascii : c &&& 0x80 = 0 ↔ c < 0x80 := by
    simpa using ascii_table ⟨c.toNat, c.toNat_lt⟩
  unfold titleStep leadStep
  simp only [hascii]

theorem titleTurn_next {s t : Nat × Memory} (h : (titleTurn text s).val = .inl t) :
    text s.1 ≠ 0 ∧ t.1 = s.1 + leadStep (text s.1) := by
  rw [titleTurn, val_read_bind, val_ite] at h
  split at h
  · cases h
  · rename_i hgo
    cases h
    exact ⟨fun h0 => hgo (.inl h0), by rw [titleStep_eq]⟩

theorem within_titleTurn (hend : text n = 0) {s : Nat × Memory}
    (h : Whole text n s.1) : Within (· ≤ n) (titleTurn text s) := by
  rw [titleTurn, within_read_bind]
  refine ⟨h.le, ?_⟩
  split
  · exact within_pure _
  · rename_i hgo
    rw [within_bind, within_readBlock, titleStep_eq]
    have hle := (h.next hend fun h0 => hgo (.inl h0)).le
    exact ⟨fun k hk => by omega, within_pure _⟩

theorem returns_titleCopy (hend : text n = 0) (h : Whole text n 0) :
    Returns (· ≤ n) fun fuel => titleCopy fuel text := by
  refine returns_loop.mpr ?_
  exact exists_ends (I := fun s => Whole text n s.1) (fun s => n - s.1)
    (fun s hs => within_titleTurn hend hs)
    (fun s t hs hnext => by
      obtain ⟨hne, hp⟩ := titleTurn_next hnext
      have hpos := leadStep_pos (text s.1)
      have hlt := hs.lt hend hne
      exact ⟨hp ▸ hs.next hend hne, by omega⟩)
    h

-- The title a window is made with is this copy.
theorem titleCopy_eq {s : Nat × Memory} {x : Logged Memory} (h : Ends (titleTurn text) s x)
    {fuel : Nat} (hfuel : 64 ≤ fuel + s.1) : x.val = Window.copyTitle.go text fuel s.1 s.2 := by
  induction h generalizing fuel with
  | @stop s b hturn =>
      rw [titleTurn, val_read_bind, val_ite] at hturn
      split at hturn
      · rename_i hstop
        cases hturn
        cases fuel with
        | zero => rfl
        | succ fuel =>
            unfold Window.copyTitle.go
            split
            · rfl
            · rename_i hne
              exact (if_pos (hstop.resolve_left hne)).symm
      · cases hturn
  | @next s t x hturn _ ih =>
      rw [titleTurn, val_read_bind, val_ite] at hturn
      split at hturn
      · cases hturn
      · rename_i hgo
        obtain ⟨hne, hlt⟩ := not_or.mp hgo
        cases hturn
        have hpos : 0 < titleStep (text s.1) := titleStep_eq (text s.1) ▸ leadStep_pos _
        cases fuel with
        | zero => omega
        | succ fuel =>
            rw [Window.copyTitle.go, if_neg hne]
            have hrest : 64 ≤ fuel + (s.1 + titleStep (text s.1)) := by omega
            refine (ih hrest).trans ?_
            refine Eq.trans ?_ (if_neg hlt).symm
            -- the copied bytes are those of the text
            change _ = Window.copyTitle.go text fuel (s.1 + titleStep (text s.1)) fun k =>
              if s.1 ≤ k ∧ k < s.1 + titleStep (text s.1) then text k else s.2 k
            congr 1
            funext k
            dsimp only [val_readBlock]
            by_cases hk : s.1 ≤ k ∧ k < s.1 + titleStep (text s.1)
            · rw [if_pos hk, if_pos hk, List.getD_eq_getElem?_getD, List.getElem?_map,
                List.getElem?_range (by omega)]
              simp [Nat.add_sub_cancel' hk.1]
            · rw [if_neg hk, if_neg hk]

-- The places tad_browser_wrap_text remembers are ends of characters.
structure Safe (text : Memory) (n : Nat) (s : Wrap) : Prop where
  place : Whole text n s.p
  start_le : s.lineStart ≤ s.p
  last : ∀ pt, s.lastBreak = some pt → Whole text n pt
  behind : s.curLineW > 0 → s.lineStart < s.p

theorem safe_fresh {s : Wrap} (h : Whole text n s.p) (hstart : s.lineStart = s.p)
    (hlast : s.lastBreak = none) (hw : s.curLineW = 0) : Safe text n s := by
  refine ⟨h, Nat.le_of_eq hstart, fun pt hpt => ?_, fun hpos => ?_⟩
  · rw [hlast] at hpt
    cases hpt
  · rw [hw] at hpos
    exact absurd hpos (by decide)

theorem step_eq {s : Wrap} (hne : text s.p ≠ 0) : s.step text = leadStep (text s.p) :=
  stepOf_eq hne

theorem last_whole (hend : text n = 0) {s : Wrap} (h : Safe text n s)
    (hne : text s.p ≠ 0) {pt : Nat} (hpt : (s.last text).1 = some pt) : Whole text n pt := by
  unfold Wrap.last Wrap.candidate at hpt
  split at hpt
  · cases hpt
    exact h.place
  split at hpt
  · rename_i hbyte
    cases hpt
    refine h.place.succ hend hne ?_
    rcases hbyte with hbyte | hbyte <;> rw [hbyte] <;> decide
  split at hpt
  · cases hpt
    rw [step_eq hne]
    exact h.place.next hend hne
  split at hpt
  · cases hpt
    exact h.place
  · exact h.last pt hpt

-- A line is broken behind its start.
theorem break_whole (hend : text n = 0) {s : Wrap} (h : Safe text n s)
    (hne : text s.p ≠ 0) (hpos : s.curLineW > 0) :
    Whole text n (s.break text).1 ∧ s.lineStart < (s.break text).1 := by
  unfold Wrap.break Wrap.breakAt
  cases hlast : (s.last text).1 with
  | none => exact ⟨h.place, h.behind hpos⟩
  | some pt =>
      dsimp only
      split
      · exact ⟨h.place, h.behind hpos⟩
      · exact ⟨last_whole hend h hne hlast, by dsimp only; omega⟩

theorem afterNewline_whole (hend : text n = 0) {s : Wrap} (h : Whole text n s.p)
    (hne : text s.p ≠ 0) (hnl : IsNewline (text s.p)) :
    Whole text n (s.afterNewline text) := by
  have hnext : Whole text n (s.p + 1) := by
    refine h.succ hend hne ?_
    rcases hnl with hnl | hnl <;> rw [hnl] <;> decide
  unfold Wrap.afterNewline
  split
  · rename_i hpair
    exact hnext.succ hend (by rw [hpair.1]; decide) (by rw [hpair.1]; decide)
  · exact hnext

theorem within_emit {s : Wrap} {cb : Bool} {breakPt : Nat} {w : Int} (h : breakPt ≤ n)
    (hstart : s.lineStart ≤ n) : Within (· ≤ n) (s.emit text cb breakPt w) := by
  unfold Wrap.emit
  split
  · rw [within_bind, within_readBlock]
    exact ⟨fun k hk => by omega, within_pure _⟩
  · exact within_pure _

theorem within_wrapTurn (hend : text n = 0) {maxW : Int} {cb : Bool} {s : Wrap}
    (h : Safe text n s) : Within (· ≤ n) (wrapTurn text maxW cb s) := by
  have hp := h.place.le
  have hstart := Nat.le_trans h.start_le hp
  rw [wrapTurn, within_read_bind]
  refine ⟨hp, ?_⟩
  split
  · exact within_pure _
  split
  · rw [within_bind]
    refine ⟨?_, within_pure _⟩
    unfold Wrap.finish
    rw [within_ite]
    refine ⟨fun _ => ?_, fun _ => within_pure _⟩
    rw [within_bind]
    exact ⟨within_emit hp hstart, within_pure _⟩
  rename_i hne
  split
  · rw [within_bind, Wrap.newlineTurn, within_bind, within_read_bind, Wrap.emit_val]
    exact ⟨⟨within_emit hp hstart, h.place.lt hend hne, within_pure _⟩, within_pure _⟩
  · rw [within_bind, Wrap.charTurn, within_bind, within_ite]
    refine ⟨⟨h.place.within hend hne, fun hover => ?_, fun _ => within_pure _⟩, within_pure _⟩
    rw [within_bind]
    exact ⟨within_emit (break_whole hend h hne hover.2).1.le hstart, within_pure _⟩

-- A turn goes on from a later line start, or from a later place on the line.
def wrapSize (n : Nat) (s : Wrap) : Nat :=
  match s.point with
  | .character => (n + 1 - s.lineStart) * (n + 2) + (n - s.p)
  | .spaces => (n + 1 - s.p) * (n + 2) + (n - s.p) + 1

theorem wrapSize_later {n a b c d : Nat} (h : a < b) (hb : b ≤ n + 1) :
    (n + 1 - b) * (n + 2) + (n - c) + 1 < (n + 1 - a) * (n + 2) + (n - d) := by
  have hsub : n + 1 - a = (n + 1 - b) + (b - a) := by omega
  have hle : n + 2 ≤ (b - a) * (n + 2) := Nat.le_mul_of_pos_left _ (by omega)
  rw [hsub, Nat.add_mul]
  omega

theorem safe_next (hend : text n = 0) {maxW : Int} {cb : Bool} {s t : Wrap}
    (h : Safe text n s) (ht : s.Turn text maxW cb t) :
    Safe text n t ∧ wrapSize n t < wrapSize n s := by
  have hp := h.place.le
  cases ht with
  | skip hpoint hsp =>
      have hne : text s.p ≠ 0 := by rw [hsp]; decide
      have hlt := h.place.lt hend hne
      refine ⟨⟨h.place.succ hend hne (by rw [hsp]; decide), Nat.le_succ_of_le h.start_le,
        h.last, fun _ => Nat.lt_succ_of_le h.start_le⟩, ?_⟩
      have hlater := wrapSize_later (c := s.p + 1) (d := s.p) (Nat.lt_add_one s.p)
        (Nat.succ_le_succ hp)
      simp only [wrapSize, hpoint]
      omega
  | resume hpoint _ =>
      refine ⟨safe_fresh h.place rfl rfl rfl, ?_⟩
      simp only [wrapSize, hpoint, Wrap.newLine]
      omega
  | newline hpoint hne hnl =>
      have hnext := afterNewline_whole hend h.place hne hnl
      have hlt : s.p < s.afterNewline text := by
        unfold Wrap.afterNewline
        split <;> omega
      refine ⟨safe_fresh hnext rfl rfl rfl, ?_⟩
      have hlater := wrapSize_later (c := s.afterNewline text) (d := s.p)
        (Nat.lt_of_le_of_lt h.start_le hlt) (Nat.le_succ_of_le hnext.le)
      simp only [wrapSize, hpoint, Wrap.newLine]
      omega
  | wrap hpoint hne _ hover =>
      obtain ⟨hwhole, hlt⟩ := break_whole hend h hne hover.2
      refine ⟨⟨hwhole, Nat.le_of_lt hlt, h.last, fun _ => hlt⟩, ?_⟩
      have hlater := wrapSize_later (c := (s.break text).1) (d := s.p) hlt
        (Nat.le_succ_of_le hwhole.le)
      simp only [wrapSize, hpoint]
      omega
  | pass hpoint hne _ _ =>
      have hpos : 0 < s.step text := step_eq hne ▸ leadStep_pos _
      have hlt := h.place.lt hend hne
      have hnext := h.place.next hend hne
      have hstart := h.start_le
      rw [← step_eq hne] at hnext
      refine ⟨⟨hnext, Nat.le_add_right_of_le hstart, fun pt => last_whole hend h hne,
        fun _ => ?_⟩, ?_⟩
      · exact Nat.lt_of_le_of_lt hstart (Nat.lt_add_of_pos_right hpos)
      · simp only [wrapSize, hpoint]
        omega

theorem wrap_ends (hend : text n = 0) (h : Whole text n 0) (maxW : Int) (cb : Bool) :
    ∃ x, Ends (wrapTurn text maxW cb) Wrap.start x ∧ Within (· ≤ n) x :=
  exists_ends (I := Safe text n) (wrapSize n) (fun _ hs => within_wrapTurn hend hs)
    (fun _ _ hs hnext => safe_next hend hs (wrapTurn_next hnext)) (safe_fresh h rfl rfl rfl)

theorem returns_tadBrowserWrapText (hend : text n = 0) (h : Whole text n 0)
    (maxW : Int) (cb : Bool) :
    Returns (· ≤ n) fun fuel => tadBrowserWrapText fuel text maxW cb := by
  obtain ⟨fuel, b, hval, hin⟩ := returns_loop.mpr
    (wrap_ends hend h (if maxW < 40 then 40 else maxW) cb)
  unfold Returns
  simp only [tadBrowserWrapText, val_read_bind, within_read_bind]
  split
  · exact ⟨0, _, rfl, Nat.zero_le n, within_pure _⟩
  · exact ⟨fuel, b, hval, Nat.zero_le n, hin⟩

-- Every scan over the text returns, and none reads a byte behind the terminator.
structure ScansWithin (text : Memory) (n : Nat) : Prop where
  tcString : ∀ maxChars, Within (· ≤ n) (utf8ToTcString text maxChars)
  width : ∀ maxBytes, Returns (· ≤ n) fun fuel => tcCalcStringWidth fuel text maxBytes
  lines : ∀ maxW cb, Returns (· ≤ n) fun fuel => tadBrowserWrapText fuel text maxW cb
  drawn : ∀ x y, Returns (· ≤ n) fun fuel => renderTcString fuel x y text
  title : Returns (· ≤ n) fun fuel => titleCopy fuel text

-- A scan goes behind the terminator if and only if the terminator cuts a character.
theorem scansWithin_iff (hterm : Terminated text n) : ScansWithin text n ↔ Whole text n 0 := by
  constructor
  · intro h
    exact whole_of_renderTcString hterm (h.drawn 0 0)
  · intro h
    exact ⟨within_utf8ToTcString hterm.1 h, returns_tcCalcStringWidth hterm.1 h,
      returns_tadBrowserWrapText hterm.1 h, returns_renderTcString hterm.1 h,
      returns_titleCopy hterm.1 h⟩

-- U+3042, whole
theorem scansWithin_hiragana : ScansWithin (ofList [0xE3, 0x81, 0x82]) 3 := by
  refine (scansWithin_iff ⟨rfl, by decide⟩).mpr (.char (by decide) ?_)
  exact .nil

-- The same character cut behind its first byte: the terminator is taken for its second byte.
theorem not_scansWithin_cut :
    Terminated (ofList [0xE3]) 1 ∧ ¬ScansWithin (ofList [0xE3]) 1 := by
  refine ⟨⟨rfl, by decide⟩, fun h => ?_⟩
  have hread := h.tcString 2 2 (by decide +kernel)
  exact absurd hread (by decide)

end BTron.TronCode
