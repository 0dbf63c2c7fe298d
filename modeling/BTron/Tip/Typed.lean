import BTron.Mozc.Candidates
import BTron.Tip.Readings

namespace BTron.Tip

open Lib Mozc Tibetan

section Letters

variable {d : UserDictionary} {left : Leftover} {c c' : TipContext} {key modifiers maxCommit : Nat}
  {r : KeyResult}

-- The letter a key types.
def keyLetter (key : Nat) : List UB := if 32 ≤ key ∧ key ≤ 126 then [UInt8.ofNat key] else []

theorem tipSetMode_romaji (c : TipContext) (mode : TipInputMode) :
    (tipSetMode c mode).romajiBuf ⊆ c.romajiBuf := by
  unfold tipSetMode
  split
  · exact List.nil_subset _
  · exact List.Subset.refl _

theorem functionKey_romaji (h : functionKey d left c key = some r) :
    r.context.romajiBuf ⊆ c.romajiBuf := by
  have hconvert : ∀ convert, (convertAll d c convert).context.romajiBuf ⊆ c.romajiBuf := by
    intro convert
    rw [convertAll_context]
    split <;> exact List.Subset.refl _
  unfold functionKey at h
  split_ifs at h <;> cases h
  · exact hconvert _
  · exact hconvert _
  · exact hconvert _
  · exact List.Subset.refl _
  · exact tipSetMode_romaji c _
  · exact tipSetMode_romaji c _

theorem backspaceKey_romaji (h : backspaceKey c key = some r) :
    r.context.romajiBuf ⊆ c.romajiBuf := by
  have htakeBack : (takeBack c).romajiBuf ⊆ c.romajiBuf := by
    unfold takeBack
    dsimp only
    split <;> exact (List.dropLast_sublist _).subset
  unfold backspaceKey at h
  split at h
  · cases hstate : c.state <;> simp only [hstate] at h <;> cases h
    · exact List.Subset.refl _
    · split
      · exact List.Subset.refl _
      · exact htakeBack
    · exact List.Subset.refl _
    · exact List.Subset.refl _
  · cases h

theorem printableKey_romaji (h : printableKey c key maxCommit = some r) :
    r.context.romajiBuf ⊆ c.romajiBuf ++ keyLetter key := by
  unfold printableKey at h
  split at h
  · rename_i hkey
    have hletter : keyLetter key = [UInt8.ofNat key] := if_pos hkey
    rw [hletter]
    cases hconv : inConversion c with
    | true =>
        simp only [hconv, if_true] at h
        split_ifs at h
        · cases h
          exact List.subset_append_right _ _
        · cases h
          exact List.nil_subset _
    | false =>
        simp only [hconv, Bool.false_eq_true, if_false] at h
        split_ifs at h
        · cases h
          exact List.Subset.refl _
        · cases h
          exact List.subset_append_left _ _
  · cases h

-- A key takes letters away or adds its own.
theorem processKey_romaji (d : UserDictionary) (left : Leftover) (c : TipContext)
    (key modifiers maxCommit : Nat) :
    (tipProcessKey d left c key modifiers maxCommit).context.romajiBuf ⊆
      c.romajiBuf ++ keyLetter key := by
  have hkept : ∀ {l : List UB}, l ⊆ c.romajiBuf → l ⊆ c.romajiBuf ++ keyLetter key := fun h =>
    List.Subset.trans h (List.subset_append_left _ _)
  have hsame : c.romajiBuf ⊆ c.romajiBuf ++ keyLetter key := List.subset_append_left _ _
  unfold tipProcessKey
  split
  · rename_i r h
    obtain h | h := orElse_cases h
    · unfold toggleKey at h
      split_ifs at h
      cases h
      exact List.nil_subset _
    · exact hkept (functionKey_romaji h)
  · split_ifs with hmode
    · exact hsame
    · cases hsections : (escapeKey c key <|> backspaceKey c key <|> enterKey c key maxCommit <|>
          popupKey c key modifiers <|> spaceKey d c key modifiers maxCommit <|>
          upKey c key modifiers <|> downKey c key modifiers <|> arrowKey c key <|>
          numberKey c key <|> printableKey c key maxCommit) with
      | none => exact hsame
      | some r =>
          obtain h | hsections := orElse_cases hsections
          · unfold escapeKey at h
            split_ifs at h <;> cases h
            · exact List.nil_subset _
            · exact hsame
          obtain h | hsections := orElse_cases hsections
          · exact hkept (backspaceKey_romaji h)
          obtain h | hsections := orElse_cases hsections
          · unfold enterKey at h
            split_ifs at h <;> cases h
            · exact List.nil_subset _
            · exact hsame
          obtain h | hsections := orElse_cases hsections
          · unfold popupKey at h
            split_ifs at h <;> cases h
            · exact hsame
            · exact hkept (by simp [handledBy])
          obtain h | hsections := orElse_cases hsections
          · unfold spaceKey at h
            split_ifs at h <;> cases h
            · unfold tibetanSpace
              split
              · exact List.nil_subset _
              · exact hsame
              · exact List.nil_subset _
            · rw [Option.getD_some, handledBy, startConversion_context]
              exact hsame
            · exact hkept (by simp [handledBy, showCandidates])
            · exact hsame
          obtain h | hsections := orElse_cases hsections
          · unfold upKey at h
            split_ifs at h
            cases h
            exact hkept (by simp [handledBy, showCandidates])
          obtain h | hsections := orElse_cases hsections
          · unfold downKey at h
            split_ifs at h
            cases h
            exact hkept (by simp [handledBy, showCandidates])
          obtain h | hsections := orElse_cases hsections
          · unfold arrowKey at h
            split_ifs at h <;> cases h <;> exact hsame
          obtain h | h := orElse_cases hsections
          · unfold numberKey at h
            split_ifs at h <;> cases h
            · exact hkept (by simp [handledBy])
            · exact hkept (by simp [handledBy])
            · exact hsame
          · exact printableKey_romaji h

end Letters

section Written

variable {d : UserDictionary} {c c' : TipContext} {key modifiers maxLen : Nat} {call : TipCall}

theorem alphanumericToFullwidth_string {ascii : List UB} (h0 : 0 ∉ ascii) :
    0 ∉ alphanumericToFullwidth ascii maxLen := by
  have hloop : ∀ {ascii out : List UB}, 0 ∉ ascii → 0 ∉ out →
      0 ∉ fullwidthLoop maxLen ascii out := by
    intro ascii
    induction ascii with
    | nil => exact fun _ h => h
    | cons c ascii ih =>
        intro out h0 h
        rw [List.mem_cons, not_or] at h0
        unfold fullwidthLoop
        split
        · refine ih h0.2 fun hmem => ?_
          obtain hmem | hmem := List.mem_append.mp hmem
          · exact h hmem
          · unfold fullwidthChar at hmem
            split_ifs at hmem
            · exact absurd hmem (by decide)
            · exact threeBytes_string _ hmem
            · exact h0.1 (List.mem_singleton.mp hmem)
        · exact h
  exact hloop h0 List.not_mem_nil

theorem Derived.string {reading text : List UB} (h : Derived reading text) : 0 ∉ text := by
  obtain rfl | rfl | ⟨behind, rest, rfl⟩ := h
  · exact zero_notMem_strncpy reading 63
  · exact hiraganaToKatakana_string _ reading
  · exact zero_notMem_cstr _

-- Every clause shows a string.
def Shown (c : TipContext) : Prop := ∀ i, 0 ∉ (c.clauses i).converted

theorem searchClauses_shown (h : Shown c) : Shown (searchClauses d c) := by
  intro i
  obtain ⟨-, text, heq⟩ | ⟨-, heq⟩ := searchClauses_cases d c i
  · rw [heq]
    exact zero_notMem_strncpy _ 63
  · rw [heq]
    exact h i

theorem convertClauses_shown {convert : Nat → TipClause → List UB} (h : Shown c)
    (hconvert : ∀ i cl, 0 ∉ convert i cl) : Shown (convertClauses c convert) := by
  intro i
  unfold convertClauses
  dsimp only
  split
  · exact hconvert i _
  · exact h i

theorem convertAll_shown {convert : Nat → TipClause → List UB} (h : Shown c)
    (hconvert : ∀ i cl, 0 ∉ convert i cl) : Shown (convertAll d c convert).context := by
  rw [convertAll_context]
  split
  · exact convertClauses_shown (searchClauses_shown h) hconvert
  · exact convertClauses_shown h hconvert

theorem startConversion_shown (h : Shown c) : Shown (startConversion d c) := by
  intro i
  unfold startConversion
  dsimp only
  split
  · exact convertClauses_shown (searchClauses_shown h) (fun _ _ => hiraganaToKatakana_string _ _) i
  · exact searchClauses_shown h i

theorem modifyClause_shown {i : Nat} {g : TipClause → TipClause} (h : Shown c)
    (hg : 0 ∉ (g (c.clauses i)).converted) : Shown (modifyClause c i g) := by
  intro j
  unfold modifyClause
  dsimp only
  by_cases hj : j = i
  · subst hj
    rwa [Function.update_self]
  · rw [Function.update_of_ne hj]
    exact h j

theorem selectCandidate_shown {choose : TipClause → Nat} (h : Shown c) :
    Shown (selectCandidate c choose) := by
  unfold selectCandidate
  split
  · exact modifyClause_shown h (zero_notMem_strncpy _ 63)
  · exact h

theorem tipSetMode_shown {mode : TipInputMode} (h : Shown c) : Shown (tipSetMode c mode) := by
  unfold tipSetMode
  split <;> exact h

theorem keyEffect_shown (h0 : 0 ∉ c.romajiBuf) (h : Shown c)
    (heff : KeyEffect d c key modifiers c') : Shown c' := by
  cases heff with
  | same => exact h
  | toggle => exact h
  | setMode => exact tipSetMode_shown h
  | cancel => exact h
  | convert _ _ hconvert => exact convertAll_shown h fun i cl => (hconvert i cl).string
  | fullwidth =>
      unfold convertFullwidth
      exact modifyClause_shown h (alphanumericToFullwidth_string h0)
  | closeWindow => exact h
  | backToPrecomp => exact h
  | takeBack =>
      unfold takeBack
      dsimp only
      split <;> exact h
  | popup =>
      exact modifyClause_shown (c := c) (g := fun _ => ⟨_, strncpy _ 63, _, 0⟩) h
        (zero_notMem_strncpy _ 63)
  | start => exact startConversion_shown h
  | select => exact selectCandidate_shown h
  | «show» => exact selectCandidate_shown (c := showCandidates c) h
  | move => exact h
  | selectNext => exact selectCandidate_shown h
  | selectLast => exact selectCandidate_shown h
  | type => exact h
  | restart => exact h

-- What is typed is ASCII, and what is shown are strings.
structure Typed (c : TipContext) : Prop where
  strings : Strings c
  ascii : ∀ b ∈ c.romajiBuf, b < 0x80
  shown : Shown c

theorem keyLetter_ascii {b : UB} (h : b ∈ keyLetter key) : b < 0x80 := by
  unfold keyLetter at h
  split at h
  · rw [List.mem_singleton.mp h, UInt8.lt_iff_toNat_lt, UInt8.toNat_ofNat']
    have h80 : (0x80 : UB).toNat = 128 := rfl
    omega
  · cases h

theorem exec_typed (h : Typed c) (hstep : TipStep c call c') : Typed c' := by
  have hstrings := exec_strings h.strings hstep
  cases hstep
  cases call with
  | processKey d left key modifiers maxCommit =>
      refine ⟨hstrings, fun b hb => ?_, ?_⟩
      · obtain hb | hb :=
          List.mem_append.mp (processKey_romaji d left c key modifiers maxCommit hb)
        · exact h.ascii b hb
        · exact keyLetter_ascii hb
      · exact keyEffect_shown h.strings.romaji h.shown
          (processKey_effect d left c key modifiers maxCommit)
  | setMode mode =>
      exact ⟨hstrings, fun b hb => h.ascii b (tipSetMode_romaji c mode hb),
        tipSetMode_shown h.shown⟩
  | toggleMode => exact ⟨hstrings, fun b hb => absurd hb List.not_mem_nil, h.shown⟩
  | cancel => exact ⟨hstrings, fun b hb => absurd hb List.not_mem_nil, h.shown⟩

theorem typed_of_trace {tr : List (TipContext × TipCall)} (htr : Trace TipStep tipInit tr c) :
    Typed c :=
  (htr.always ⟨tipInit_strings, by simp [tipInit], fun _ => List.not_mem_nil⟩
    fun _ _ _ h hstep => exec_typed h hstep).1

end Written

end BTron.Tip
