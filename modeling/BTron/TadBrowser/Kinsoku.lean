import BTron.TadBrowser.WrapWidths

namespace BTron.TadBrowser

open Lib Lib.Logged Lib.Utf8 TronCode
open String (utf8EncodeChar)

-- A break that nothing is asked for: at a space, or behind a hyphen, a slash or a tsheg.
def Wrap.BreaksFreely (s : Wrap) (text : Memory) (pt : Nat) : Prop :=
  (text s.p = 0x20 ∧ pt = s.p) ∨
    (text s.p ≠ 0x20 ∧ s.BreaksBehind text ∧ pt = s.p + s.step text)

-- A break before a full-width character that may begin a line.
def Wrap.BreaksBefore (s : Wrap) (text : Memory) (pt : Nat) : Prop :=
  text s.p ≠ 0x20 ∧ ¬s.BreaksBehind text ∧ s.adv text = 16 ∧ s.prevCode ≠ 0 ∧
    ¬isCjkNoBreakBefore (s.code text) ∧ pt = s.p

-- The character at `p` permits a break at `pt`.
def Wrap.Permits (s : Wrap) (text : Memory) (pt : Nat) : Prop :=
  s.BreaksFreely text pt ∨ s.BreaksBefore text pt

-- From `i` to `j` there are spaces only, and `j` is behind the last of them.
def SpacesTo (text : Memory) (i j : Nat) : Prop :=
  i ≤ j ∧ (∀ k, i ≤ k → k < j → text k = 0x20) ∧ text j ≠ 0x20

-- The character at `i` does not begin a line.
def NoBreakBefore (text : Memory) (i : Nat) : Prop :=
  isCjkNoBreakBefore (utf8ToTc text i).val.1

-- `u` is at a character of the line that `s` is on, not behind it.
def OnLine (text : Memory) (maxW : Int) (u s : Wrap) : Prop :=
  Reaches (turn (wrapTurn text maxW true)) u s ∧ u.point = .character ∧ u.lineIdx = s.lineIdx

-- `t` is on the line behind the one of `s`.
def NextLine (text : Memory) (maxW : Int) (s t : Wrap) : Prop :=
  Reaches (turn (wrapTurn text maxW true)) s t ∧ t.point = .character ∧
    t.lineIdx = s.lineIdx + 1

-- No line behind a soft wrap begins with a character that does not begin a line, unless the line
-- before it permits no break behind its start.
def Kinsoku (text : Memory) (maxW : Int) : Prop :=
  ∀ s t, Reaches (turn (wrapTurn text maxW true)) Wrap.start s → s.Wraps text maxW →
    NextLine text maxW s t → NoBreakBefore text t.lineStart →
      ∀ u pt, Reaches (turn (wrapTurn text maxW true)) Wrap.start u → OnLine text maxW u s →
        s.lineStart < pt → ¬u.Permits text pt

variable {text : Memory} {cs : List Char} {maxW : Int} {s t u : Wrap} {pt : Nat}

theorem step_dash (h : text s.p = 0x2D ∨ text s.p = 0x2F) : s.step text = 1 := by
  have hne : text s.p ≠ 0 := by
    rcases h with h | h <;> rw [h] <;> decide
  rw [Wrap.step, stepOf_eq hne]
  rcases h with h | h <;> rw [h] <;> decide

theorem step_pos (s : Wrap) (text : Memory) : 0 < s.step text := by
  unfold Wrap.step stepOf
  split <;> omega

theorem last_of_permits (h : s.Permits text pt) : (s.last text).1 = some pt := by
  unfold Wrap.last Wrap.candidate
  rcases h with (⟨hsp, rfl⟩ | ⟨hsp, hbehind, rfl⟩) | ⟨hsp, hbehind, hadv, hprev, hno, rfl⟩
  · rw [if_pos hsp]
  · rw [if_neg hsp]
    by_cases hdash : text s.p = 0x2D ∨ text s.p = 0x2F
    · rw [if_pos hdash, step_dash hdash]
    · have htsheg := hbehind.elim (fun hd => absurd (.inl hd) hdash)
        (·.elim (fun hs => absurd (.inr hs) hdash) id)
      rw [if_neg hdash, if_pos htsheg]
  · rw [if_neg hsp, if_neg fun hd => hbehind (hd.elim .inl fun hs => .inr (.inl hs)),
      if_neg fun ht => hbehind (.inr (.inr ht)), if_pos ⟨hadv, hprev, hno⟩]

-- The remembered place stays where no break is permitted.
theorem permits_or_keeps (s : Wrap) (text : Memory) :
    (∃ pt, s.Permits text pt) ∨ (s.last text).1 = s.lastBreak := by
  unfold Wrap.last Wrap.candidate
  by_cases hsp : text s.p = 0x20
  · exact .inl ⟨_, .inl (.inl ⟨hsp, rfl⟩)⟩
  by_cases hbehind : s.BreaksBehind text
  · exact .inl ⟨_, .inl (.inr ⟨hsp, hbehind, rfl⟩)⟩
  rw [if_neg hsp, if_neg fun hd => hbehind (hd.elim .inl fun hs => .inr (.inl hs)),
    if_neg fun ht => hbehind (.inr (.inr ht))]
  split
  · rename_i hcjk
    exact .inl ⟨_, .inr ⟨hsp, hbehind, hcjk.1, hcjk.2.1, hcjk.2.2, rfl⟩⟩
  · exact .inr rfl

-- No turn goes back to an earlier line.
theorem lineIdx_le (h : Reaches (turn (wrapTurn text maxW true)) s t) :
    s.lineIdx ≤ t.lineIdx := by
  refine run_preserves (P := fun v => s.lineIdx ≤ v.lineIdx) (fun v w hv hnext => ?_)
    (Nat.le_refl _) h
  cases wrapTurn_next (next_turn.mp hnext) with
  | skip _ _ => exact hv
  | resume _ _ => exact hv
  | newline _ _ _ => exact Nat.le_succ_of_le hv
  | wrap _ _ _ _ => exact Nat.le_succ_of_le hv
  | pass _ _ _ _ => exact hv

-- A turn from a character that stays on its line passes the character.
theorem pass_of_lineIdx (hpoint : s.point = .character) (hidx : s.lineIdx = t.lineIdx)
    (h : s.Turn text maxW true t) :
    t.point = .character ∧ t.lineStart = s.lineStart ∧ t.p = s.p + s.step text ∧
      t.lastBreak = (s.last text).1 := by
  cases h with
  | skip hspaces _ => cases hpoint.symm.trans hspaces
  | resume hspaces _ => cases hpoint.symm.trans hspaces
  | newline _ _ _ => exact absurd hidx (Nat.ne_of_lt (Nat.lt_succ_self _))
  | wrap _ _ _ _ => exact absurd hidx (Nat.ne_of_lt (Nat.lt_succ_self _))
  | pass _ _ _ _ => exact ⟨hpoint, rfl, rfl, rfl⟩

-- What every pass of a character keeps holds along a line.
theorem onLine_preserves {P : Wrap → Prop}
    (hstep : ∀ v w, v.point = .character → v.lineIdx = w.lineIdx →
      OnLine text maxW u v → P v → v.Turn text maxW true w → P w)
    (h : OnLine text maxW u s) (h0 : P u) : s.point = .character ∧ P s := by
  obtain ⟨hr, hpoint, hidx⟩ := h
  induction hr with
  | refl => exact ⟨hpoint, h0⟩
  | @tail v w hv hnext ih =>
      have hle := lineIdx_le hv
      have hturn := wrapTurn_next (next_turn.mp hnext)
      have hle' := lineIdx_le (Relation.ReflTransGen.single hnext)
      obtain ⟨hvpoint, hPv⟩ := ih (by omega)
      have hvw : v.lineIdx = w.lineIdx := by omega
      obtain ⟨hwpoint, -⟩ := pass_of_lineIdx hvpoint hvw hturn
      exact ⟨hwpoint, hstep v w hvpoint hvw ⟨hv, hpoint, by omega⟩ hPv hturn⟩

theorem onLine_lineStart (h : OnLine text maxW u s) : s.lineStart = u.lineStart := by
  refine (onLine_preserves (P := fun v => v.lineStart = u.lineStart) ?_ h rfl).2
  intro v w hpoint hidx _ hv hturn
  exact (pass_of_lineIdx hpoint hidx hturn).2.1.trans hv

theorem lineStart_le (htext : TextAt text 0 cs) (hcs : ∀ c ∈ cs, 0 < c.toNat)
    (hr : Reaches (turn (wrapTurn text maxW true)) Wrap.start s) (hpoint : s.point = .character) :
    s.lineStart ≤ s.p ∧ (0 < s.curLineW → s.lineStart < s.p) := by
  have hdesc := describes_reached htext hcs hr
  unfold Describes at hdesc
  rw [hpoint] at hdesc
  obtain ⟨lines, done, line, rest, h⟩ := hdesc
  rw [h.lineStart, h.place]
  refine ⟨Nat.le_add_right _ _, fun hw => ?_⟩
  rw [h.width] at hw
  cases line with
  | nil => exact absurd hw (by decide)
  | cons c line =>
      have hlen := length_le_bytes (c :: line)
      rw [List.length_cons] at hlen
      omega

theorem break_gt (htext : TextAt text 0 cs) (hcs : ∀ c ∈ cs, 0 < c.toNat)
    (hr : Reaches (turn (wrapTurn text maxW true)) Wrap.start s) (hw : s.Wraps text maxW) :
    s.lineStart < (s.break text).1 := by
  have hlt := (lineStart_le htext hcs hr hw.1).2 hw.2.2.2.2
  unfold Wrap.break Wrap.breakAt
  cases (s.last text).1 with
  | none => exact hlt
  | some pt =>
      dsimp only
      split
      · exact hlt
      · omega

theorem permits_ge (h : s.Permits text pt) : s.p ≤ pt := by
  rcases h with (⟨-, rfl⟩ | ⟨-, -, rfl⟩) | ⟨-, -, -, -, -, rfl⟩ <;> omega

-- Once a break behind the start of the line is permitted, the line is broken at such a break.
theorem break_of_permits (htext : TextAt text 0 cs) (hcs : ∀ c ∈ cs, 0 < c.toNat)
    (hr : Reaches (turn (wrapTurn text maxW true)) Wrap.start u) (h : OnLine text maxW u s)
    (hpt : u.lineStart < pt) (hpermits : u.Permits text pt) :
    (s.last text).1 = some (s.break text).1 := by
  have hlast : ∃ pt, (s.last text).1 = some pt ∧ s.lineStart < pt := by
    refine (onLine_preserves
      (P := fun v => ∃ pt, (v.last text).1 = some pt ∧ v.lineStart < pt) ?_ h
      ⟨pt, last_of_permits hpermits, hpt⟩).2
    rintro v w hpoint hidx hv ⟨pt', hlast, hlt⟩ hturn
    obtain ⟨hwpoint, hstart, hplace, hbreak⟩ := pass_of_lineIdx hpoint hidx hturn
    have hle := (lineStart_le htext hcs (hr.trans hv.1) hpoint).1
    have hpos := step_pos v text
    cases permits_or_keeps w text with
    | inl hnew =>
        obtain ⟨q, hq⟩ := hnew
        have hge := permits_ge hq
        exact ⟨q, last_of_permits hq, by omega⟩
    | inr hkeeps => exact ⟨pt', hkeeps.trans (hbreak.trans hlast), hstart ▸ hlt⟩
  obtain ⟨q, hq, hlt⟩ := hlast
  unfold Wrap.break Wrap.breakAt
  rw [hq]
  dsimp only
  rw [if_neg (by omega)]

-- A remembered place is a break that a character of the line permits.
theorem remembered (hr : Reaches (turn (wrapTurn text maxW true)) Wrap.start s)
    (hpoint : s.point = .character) (hlast : s.lastBreak = some pt) :
    ∃ u, Reaches (turn (wrapTurn text maxW true)) Wrap.start u ∧ OnLine text maxW u s ∧
      u.Permits text pt := by
  induction hr with
  | refl => cases hlast
  | @tail v w hv hnext ih =>
      have hfresh : w.lastBreak ≠ none := by
        rw [hlast]
        exact Option.some_ne_none pt
      cases wrapTurn_next (next_turn.mp hnext) with
      | skip hspaces _ => cases hpoint.symm.trans hspaces
      | resume _ _ => exact absurd rfl hfresh
      | newline _ _ _ => exact absurd rfl hfresh
      | wrap _ _ _ _ => cases hpoint
      | pass hvpoint _ _ _ =>
          cases permits_or_keeps v text with
          | inl hnew =>
              obtain ⟨q, hq⟩ := hnew
              cases (last_of_permits hq).symm.trans hlast
              exact ⟨v, hv, ⟨.single hnext, hvpoint, rfl⟩, hq⟩
          | inr hkeeps =>
              obtain ⟨u, hru, ⟨hu, hupoint, hidx⟩, hq⟩ := ih hvpoint (hkeeps.symm.trans hlast)
              exact ⟨u, hru, ⟨hu.tail hnext, hupoint, hidx⟩, hq⟩

-- So is the place where the line is broken, unless no break is permitted.
theorem permits_of_last (hr : Reaches (turn (wrapTurn text maxW true)) Wrap.start s)
    (hpoint : s.point = .character) (hlast : (s.last text).1 = some pt) :
    ∃ u, Reaches (turn (wrapTurn text maxW true)) Wrap.start u ∧ OnLine text maxW u s ∧
      u.Permits text pt := by
  cases permits_or_keeps s text with
  | inl hnew =>
      obtain ⟨q, hq⟩ := hnew
      cases (last_of_permits hq).symm.trans hlast
      exact ⟨s, hr, ⟨.refl, hpoint, rfl⟩, hq⟩
  | inr hkeeps => exact remembered hr hpoint (hkeeps.symm.trans hlast)

theorem SpacesTo.cons {i j : Nat} (hi : text i = 0x20) (h : SpacesTo text (i + 1) j) :
    SpacesTo text i j := by
  obtain ⟨hle, hspaces, hne⟩ := h
  refine ⟨by omega, fun k hk hlt => ?_, hne⟩
  by_cases heq : k = i
  · rw [heq, hi]
  · exact hspaces k (by omega) hlt

-- The spaces in front of the next line are skipped.
theorem spacesTo_of_reaches (h : Reaches (turn (wrapTurn text maxW true)) s t)
    (hs : s.point = .spaces) (ht : t.point = .character) (hidx : t.lineIdx = s.lineIdx) :
    SpacesTo text s.p t.lineStart := by
  induction h using Relation.ReflTransGen.head_induction_on with
  | refl => cases hs.symm.trans ht
  | @head v w hnext hw ih =>
      cases wrapTurn_next (next_turn.mp hnext) with
      | skip hspaces hsp => exact .cons hsp (ih hspaces hidx)
      | resume _ hne =>
          have hstart := onLine_lineStart (⟨hw, rfl, hidx.symm⟩ : OnLine text maxW _ t)
          rw [hstart]
          refine ⟨Nat.le_refl _, fun k hk hlt => ?_, hne⟩
          exact absurd hlt (Nat.not_lt.mpr hk)
      | newline hpoint _ _ => cases hs.symm.trans hpoint
      | wrap hpoint _ _ _ => cases hs.symm.trans hpoint
      | pass hpoint _ _ _ => cases hs.symm.trans hpoint

theorem exists_newLine {n i : Nat} (hs : s.point = .spaces)
    (h : SpacesTo text s.p i) (hn : i = s.p + n) :
    ∃ t, Reaches (turn (wrapTurn text maxW true)) s t ∧ t.point = .character ∧
      t.lineIdx = s.lineIdx ∧ t.lineStart = i := by
  induction n generalizing s with
  | zero =>
      have hne := h.2.2
      rw [hn, Nat.add_zero] at hne
      have hturn : (wrapTurn text maxW true s).val = .inl (s.newLine s.p) := by
        rw [wrapTurn, val_read_bind, hs]
        dsimp only
        rw [if_neg hne]
        rfl
      exact ⟨_, .single (next_turn.mpr hturn), rfl, rfl, hn.symm⟩
  | succ n ih =>
      have hturn : (wrapTurn text maxW true s).val = .inl { s with p := s.p + 1 } := by
        rw [wrapTurn, val_read_bind]
        simp only [hs]
        rw [if_pos (h.2.1 s.p (Nat.le_refl _) (by omega))]
        rfl
      have hrest : SpacesTo text (s.p + 1) i :=
        ⟨by omega, fun k hk hlt => h.2.1 k (by omega) hlt, h.2.2⟩
      obtain ⟨t, ht, hpoint, hidx, hstart⟩ := @ih { s with p := s.p + 1 } hs hrest
        (by dsimp only; omega)
      exact ⟨t, .head (next_turn.mpr hturn) ht, hpoint, hidx, hstart⟩

-- A soft wrap and the spaces behind it lead to the next line.
theorem nextLine_iff (hw : s.Wraps text maxW) {i : Nat} :
    SpacesTo text (s.break text).1 i ↔
      ∃ t, NextLine text maxW s t ∧ t.lineStart = i := by
  obtain ⟨hpoint, hne, hnl, hover⟩ := hw
  have hturn : (wrapTurn text maxW true s).val =
      .inl { s.emitted text true (s.break text).1 (s.break text).2 with
        point := .spaces, p := (s.break text).1 } := by
    cases h : (wrapTurn text maxW true s).val with
    | inr r => exact absurd (wrapTurn_stop h).2.1 hne
    | inl v =>
        cases wrapTurn_next h with
        | skip hspaces _ => cases hpoint.symm.trans hspaces
        | resume hspaces _ => cases hpoint.symm.trans hspaces
        | newline _ _ hnl' => exact absurd hnl' hnl
        | wrap _ _ _ _ => rfl
        | pass _ _ _ hpass => exact absurd hover hpass
  constructor
  · intro h
    obtain ⟨t, ht, htpoint, hidx, hstart⟩ := @exists_newLine text maxW
      { s.emitted text true (s.break text).1 (s.break text).2 with
        point := .spaces, p := (s.break text).1 } _ i rfl h (Nat.add_sub_of_le h.1).symm
    exact ⟨t, ⟨.head (next_turn.mpr hturn) ht, htpoint, hidx⟩, hstart⟩
  · rintro ⟨t, ⟨ht, htpoint, hidx⟩, rfl⟩
    cases ht.cases_head with
    | inl heq => exact absurd hidx (heq ▸ Nat.ne_of_lt (Nat.lt_succ_self _))
    | inr hnext =>
        obtain ⟨v, hv, hrest⟩ := hnext
        cases (next_turn.mp hv).symm.trans hturn
        exact spacesTo_of_reaches hrest rfl htpoint hidx

-- What is asked for before a full-width character is all that can fail to be asked for.
theorem kinsoku_iff (htext : TextAt text 0 cs) (hcs : ∀ c ∈ cs, 0 < c.toNat) :
    Kinsoku text maxW ↔
      ∀ s, Reaches (turn (wrapTurn text maxW true)) Wrap.start s → s.Wraps text maxW →
        ∀ u, Reaches (turn (wrapTurn text maxW true)) Wrap.start u → OnLine text maxW u s →
          u.BreaksFreely text (s.break text).1 →
            ∀ i, SpacesTo text (s.break text).1 i → ¬NoBreakBefore text i := by
  constructor
  · intro h s hr hw u hru hu hfree i hi hno
    obtain ⟨t, ht, hstart⟩ := (nextLine_iff hw).mp hi
    exact h s t hr hw ht (hstart ▸ hno) u _ hru hu (break_gt htext hcs hr hw) (.inl hfree)
  · intro h s t hr hw ht hno u pt hru hu hpt hpermits
    have hstart := onLine_lineStart hu
    have hlast := break_of_permits htext hcs hru hu (hstart ▸ hpt) hpermits
    obtain ⟨v, hrv, hv, hvpermits⟩ := permits_of_last hr hw.1 hlast
    have hspaces := (nextLine_iff hw).mpr ⟨t, ht, rfl⟩
    cases hvpermits with
    | inl hfree => exact h s hr hw v hrv hv hfree _ hspaces hno
    | inr hbefore =>
        obtain ⟨hsp, -, -, -, hok, hplace⟩ := hbefore
        obtain ⟨hle, hall, -⟩ := hspaces
        -- the line is broken before a character that is no space, so it begins the next line
        have hfirst : t.lineStart = v.p := by
          by_contra hne
          exact hsp (hplace ▸ hall _ (Nat.le_refl _) (by omega))
        rw [hfirst] at hno
        exact hok hno

theorem kinsoku_iff_two_words :
    Kinsoku (ofList (bytes "to be".toList)) 40 ↔
      ∀ s, Reaches (turn (wrapTurn (ofList (bytes "to be".toList)) 40 true)) Wrap.start s →
        s.Wraps (ofList (bytes "to be".toList)) 40 →
          ∀ u, Reaches (turn (wrapTurn (ofList (bytes "to be".toList)) 40 true)) Wrap.start u →
            OnLine (ofList (bytes "to be".toList)) 40 u s →
            u.BreaksFreely (ofList (bytes "to be".toList))
                (s.break (ofList (bytes "to be".toList))).1 →
              ∀ i, SpacesTo (ofList (bytes "to be".toList))
                  (s.break (ofList (bytes "to be".toList))).1 i →
                ¬NoBreakBefore (ofList (bytes "to be".toList)) i :=
  kinsoku_iff (textAt_ofList _) (by simp)

-- The line is broken at its second space, so the next one begins with the full stop. Its first
-- space permits a break as well.
def fileNames : Memory := ofList (bytes "ab cd .tad".toList)

theorem kinsoku_full_stop : ¬Kinsoku fileNames 40 := by
  intro h
  have hu : turns (turn (wrapTurn fileNames 40 true)) 2 Wrap.start =
      some ⟨.character, 2, 0, none, 0, 16, 98, 0, []⟩ := by decide
  have hs : turns (turn (wrapTurn fileNames 40 true)) 3
      ⟨.character, 2, 0, none, 0, 16, 98, 0, []⟩ =
      some ⟨.character, 5, 0, some 2, 16, 38, 100, 0, []⟩ := by decide
  have ht : turns (turn (wrapTurn fileNames 40 true)) 3
      ⟨.character, 5, 0, some 2, 16, 38, 100, 0, []⟩ =
      some ⟨.character, 6, 6, none, 0, 0, 0, 1, [⟨bytes "ab cd".toList, 38, 0⟩]⟩ := by
    decide
  have hnl : ¬IsNewline (fileNames 5) := by
    unfold IsNewline
    decide
  have hstop : NoBreakBefore fileNames 6 := by
    unfold NoBreakBefore
    decide
  have hu' := reaches_of_turns hu
  have hs' := reaches_of_turns hs
  exact h _ _ (hu'.trans hs') ⟨rfl, by decide, hnl, by decide⟩
    ⟨reaches_of_turns ht, rfl, rfl⟩ hstop _ 2 hu' ⟨hs', rfl, rfl⟩ (by decide)
    (.inl (.inl ⟨by decide, rfl⟩))

end BTron.TadBrowser
