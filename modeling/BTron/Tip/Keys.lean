import BTron.Tip

namespace BTron.Tip

open Lib Mozc

-- The texts F6, F7 and F8 make of a reading.
def Derived (reading text : List UB) : Prop :=
  text = strncpy reading 63 ∨ text = hiraganaToKatakana (fun _ => 0) reading 64 ∨
    ∃ behind rest, text = hiraganaToHalfwidthKatakana behind rest reading 64

-- Where the active clause has candidates, `choose` gives one of them.
def Chooses (c : TipContext) (choose : TipClause → Nat) : Prop :=
  0 < (c.clauses c.activeClause).numCandidates →
    choose (c.clauses c.activeClause) < (c.clauses c.activeClause).numCandidates

-- What a key does to the context.
inductive KeyEffect (d : UserDictionary) (c : TipContext) (key modifiers : Nat) : TipContext → Prop
  | same : KeyEffect d c key modifiers c
  | toggle : KeyEffect d c key modifiers (tipToggleMode c)
  | setMode {mode} : c.state = .idle → KeyEffect d c key modifiers (tipSetMode c mode)
  | cancel : KeyEffect d c key modifiers (tipCancel c)
  | convert {convert} : c.state ≠ .idle → key = keyF6 ∨ key = keyF7 ∨ key = keyF8 →
      (∀ i cl, Derived cl.reading (convert i cl)) →
      KeyEffect d c key modifiers (convertAll d c convert).context
  | fullwidth : c.state ≠ .idle → key = keyF9 → KeyEffect d c key modifiers (convertFullwidth c)
  | closeWindow : c.state = .candidateSelect →
      KeyEffect d c key modifiers { c with state := .converting, candidateWindowVisible := false }
  | backToPrecomp : c.state = .converting →
      KeyEffect d c key modifiers { c with state := .precomp, candidateWindowVisible := false }
  | takeBack : c.state = .precomp → c.romajiBuf ≠ [] → KeyEffect d c key modifiers (takeBack c)
  | popup : c.mode = .tibetan → c.state = .precomp → key = 0x09 ∨ key = keyF4 →
      KeyEffect d c key modifiers (openPopup c)
  | start : c.mode ≠ .tibetan → c.state = .precomp → key = 0x20 → modifiers &&& 0x03C3 = 0 →
      KeyEffect d c key modifiers (startConversion d c)
  | select {choose} : inConversion c = true → Chooses c choose →
      KeyEffect d c key modifiers (selectCandidate c choose)
  | show {choose} : inConversion c = true → Chooses c choose →
      KeyEffect d c key modifiers (selectCandidate (showCandidates c) choose)
  | move {i} : inConversion c = true → i < c.numClauses →
      KeyEffect d c key modifiers { c with activeClause := i }
  | selectNext {choose} : c.state = .candidateSelect → c.activeClause + 1 < c.numClauses →
      Chooses c choose →
      KeyEffect d c key modifiers
        { selectCandidate c choose with activeClause := c.activeClause + 1 }
  | selectLast {choose} : c.state = .candidateSelect → Chooses c choose →
      KeyEffect d c key modifiers
        { selectCandidate c choose with state := .converting, candidateWindowVisible := false }
  | type {letter} : c.mode ≠ .ascii → inConversion c = false → letter ≠ 0 →
      KeyEffect d c key modifiers (typed c letter)
  | restart {letter} : c.mode ≠ .ascii → inConversion c = true → letter ≠ 0 →
      KeyEffect d c key modifiers (typed (tipCancel c) letter)

variable {d : UserDictionary} {left : Leftover} {c : TipContext} {key modifiers maxCommit : Nat}
  {r : KeyResult}

theorem chooses_next : Chooses c nextCandidate := fun h => Nat.mod_lt _ h

theorem chooses_prev : Chooses c prevCandidate := fun h => Nat.mod_lt _ h

theorem toggleKey_effect (h : toggleKey c key modifiers = some r) :
    KeyEffect d c key modifiers r.context := by
  unfold toggleKey at h
  split_ifs at h
  cases h
  exact .toggle

theorem functionKey_effect (h : functionKey d left c key = some r) :
    KeyEffect d c key modifiers r.context := by
  unfold functionKey at h
  split_ifs at h with hstate h6 h7 h8 h9 h6 h7
  · cases h
    exact .convert hstate (.inl h6) fun _ _ => .inl rfl
  · cases h
    exact .convert hstate (.inr (.inl h7)) fun _ _ => .inr (.inl rfl)
  · cases h
    exact .convert hstate (.inr (.inr h8)) fun _ _ => .inr (.inr ⟨_, _, rfl⟩)
  · cases h
    exact .fullwidth hstate h9
  · cases h
    exact .setMode (not_not.mp hstate)
  · cases h
    exact .setMode (not_not.mp hstate)

theorem escapeKey_effect (h : escapeKey c key = some r) :
    KeyEffect d c key modifiers r.context := by
  unfold escapeKey at h
  split_ifs at h
  · cases h
    exact .cancel
  · cases h
    exact .same

theorem backspaceKey_effect (h : backspaceKey c key = some r) :
    KeyEffect d c key modifiers r.context := by
  unfold backspaceKey at h
  split at h
  · cases hstate : c.state with
    | candidateSelect =>
        simp only [hstate] at h
        cases h
        exact .closeWindow hstate
    | converting =>
        simp only [hstate] at h
        cases h
        exact .backToPrecomp hstate
    | precomp =>
        simp only [hstate] at h
        cases h
        split_ifs with hromaji
        · exact .same
        · exact .takeBack hstate hromaji
    | idle =>
        simp only [hstate] at h
        cases h
        exact .same
  · cases h

theorem enterKey_effect (h : enterKey c key maxCommit = some r) :
    KeyEffect d c key modifiers r.context := by
  unfold enterKey at h
  split_ifs at h
  · cases h
    exact .cancel
  · cases h
    exact .same

-- A space that toggles no mode has no modifier.
theorem plain_of_no_toggle (h : toggleKey c key modifiers = none) (hkey : key = 0x20) :
    modifiers &&& 0x03C3 = 0 := by
  unfold toggleKey at h
  split_ifs at h with htoggle
  by_contra hmod
  exact htoggle (.inl ⟨hkey, hmod⟩)

theorem plain_shift_ctrl (h : modifiers &&& 0x03C3 = 0) :
    modifiers &&& (kmodShift ||| kmodCtrl) = 0 := by
  have hsub : modifiers &&& (kmodShift ||| kmodCtrl) =
      (modifiers &&& 0x03C3) &&& (kmodShift ||| kmodCtrl) := by
    rw [Nat.and_assoc]
    rfl
  rw [hsub, h, Nat.zero_and]

theorem popupKey_effect (hno : toggleKey c key modifiers = none)
    (h : popupKey c key modifiers = some r) : KeyEffect d c key modifiers r.context := by
  unfold popupKey at h
  split_ifs at h with hkey hstate hconv
  · cases h
    refine .popup hkey.1 hstate ?_
    obtain ⟨hspace, hmod⟩ | hkey := hkey.2
    · exact absurd (plain_shift_ctrl (plain_of_no_toggle hno hspace)) hmod
    · exact hkey
  · cases h
    exact .select hconv chooses_next

theorem spaceKey_effect (hno : toggleKey c key modifiers = none)
    (h : spaceKey d c key modifiers maxCommit = some r) :
    KeyEffect d c key modifiers r.context := by
  unfold spaceKey at h
  split_ifs at h with hkey hmode hstate hconv
  · cases h
    unfold tibetanSpace
    split
    · exact .cancel
    · exact .same
    · exact .cancel
  · cases h
    exact .start hmode hstate hkey.1 (plain_of_no_toggle hno hkey.1)
  · cases h
    exact .show hconv chooses_next
  · cases h
    exact .same

theorem upKey_effect (h : upKey c key modifiers = some r) :
    KeyEffect d c key modifiers r.context := by
  unfold upKey at h
  split_ifs at h with hkey
  cases h
  exact .show hkey.2 chooses_prev

theorem downKey_effect (h : downKey c key modifiers = some r) :
    KeyEffect d c key modifiers r.context := by
  unfold downKey at h
  split_ifs at h with hkey
  cases h
  exact .show hkey.2 chooses_next

theorem arrowKey_effect (h : arrowKey c key = some r) : KeyEffect d c key modifiers r.context := by
  unfold arrowKey at h
  split_ifs at h with hconv
  · cases h
    exact .move hconv.1 (Nat.mod_lt _ (by omega))
  · cases h
    exact .move hconv.1 (Nat.mod_lt _ (by omega))

theorem numberKey_effect (h : numberKey c key = some r) :
    KeyEffect d c key modifiers r.context := by
  unfold numberKey at h
  split_ifs at h with hkey hclause hnext
  · cases h
    exact .selectNext hkey.1 hnext fun _ => hclause.2
  · cases h
    exact .selectLast hkey.1 fun _ => hclause.2
  · cases h
    exact .same

theorem letter_ne_zero (hlo : 32 ≤ key) (hhi : key ≤ 126) : UInt8.ofNat key ≠ 0 := by
  intro h
  have hkey := congrArg UInt8.toNat h
  rw [UInt8.toNat_zero, UInt8.toNat_ofNat'] at hkey
  omega

theorem printableKey_effect (hmode : c.mode ≠ .ascii) (h : printableKey c key maxCommit = some r) :
    KeyEffect d c key modifiers r.context := by
  unfold printableKey at h
  by_cases hkey : 32 ≤ key ∧ key ≤ 126
  · have hletter := letter_ne_zero hkey.1 hkey.2
    rw [if_pos hkey] at h
    cases hconv : inConversion c with
    | true =>
        simp only [hconv, if_true] at h
        split_ifs at h
        · cases h
          exact .restart hmode hconv hletter
        · cases h
          exact .cancel
    | false =>
        simp only [hconv, Bool.false_eq_true, if_false] at h
        split_ifs at h
        · cases h
          exact .type hmode hconv hletter
        · cases h
          exact .same
  · rw [if_neg hkey] at h
    cases h

theorem orElse_cases {α : Type} {x y : Option α} {a : α} (h : (x <|> y) = some a) :
    x = some a ∨ y = some a := by
  cases x with
  | none => exact .inr h
  | some b => exact .inl h

theorem processKey_effect (d : UserDictionary) (left : Leftover) (c : TipContext)
    (key modifiers maxCommit : Nat) :
    KeyEffect d c key modifiers (tipProcessKey d left c key modifiers maxCommit).context := by
  unfold tipProcessKey
  split
  · rename_i r h
    obtain h | h := orElse_cases h
    · exact toggleKey_effect h
    · exact functionKey_effect h
  · rename_i hnone
    have hno : toggleKey c key modifiers = none := by
      cases htoggle : toggleKey c key modifiers with
      | none => rfl
      | some r => simp [htoggle] at hnone
    split_ifs with hmode
    · exact .same
    · cases hsections : (escapeKey c key <|> backspaceKey c key <|> enterKey c key maxCommit <|>
          popupKey c key modifiers <|> spaceKey d c key modifiers maxCommit <|>
          upKey c key modifiers <|> downKey c key modifiers <|> arrowKey c key <|>
          numberKey c key <|> printableKey c key maxCommit) with
      | none => exact .same
      | some r =>
          obtain h | hsections := orElse_cases hsections
          · exact escapeKey_effect h
          obtain h | hsections := orElse_cases hsections
          · exact backspaceKey_effect h
          obtain h | hsections := orElse_cases hsections
          · exact enterKey_effect h
          obtain h | hsections := orElse_cases hsections
          · exact popupKey_effect hno h
          obtain h | hsections := orElse_cases hsections
          · exact spaceKey_effect hno h
          obtain h | hsections := orElse_cases hsections
          · exact upKey_effect h
          obtain h | hsections := orElse_cases hsections
          · exact downKey_effect h
          obtain h | hsections := orElse_cases hsections
          · exact arrowKey_effect h
          obtain h | h := orElse_cases hsections
          · exact numberKey_effect h
          · exact printableKey_effect hmode h

theorem processKey_functionKey (hno : toggleKey c key modifiers = none)
    (h : functionKey d left c key = some r) :
    tipProcessKey d left c key modifiers maxCommit = r := by
  unfold tipProcessKey
  rw [hno, h]
  rfl

theorem processKey_convert (hstate : c.state ≠ .idle)
    (hkey : key = keyF6 ∨ key = keyF7 ∨ key = keyF8) : ∃ convert,
      (tipProcessKey d left c key modifiers maxCommit).context =
        (convertAll d c convert).context := by
  have hno : toggleKey c key modifiers = none := by
    obtain rfl | rfl | rfl := hkey <;> simp [toggleKey, keyF6, keyF7, keyF8, keyF10]
  obtain ⟨convert, h⟩ : ∃ convert, functionKey d left c key = some (convertAll d c convert) := by
    unfold functionKey
    rw [if_pos hstate]
    split_ifs with h6 h7 h8
    · exact ⟨_, rfl⟩
    · exact ⟨_, rfl⟩
    · exact ⟨_, rfl⟩
    · simp [h6, h7, h8] at hkey
    · simp [h6, h7, h8] at hkey
  exact ⟨convert, by rw [processKey_functionKey hno h]⟩

theorem processKey_fullwidth (hstate : c.state ≠ .idle) :
    (tipProcessKey d left c keyF9 modifiers maxCommit).context = convertFullwidth c := by
  have hno : toggleKey c keyF9 modifiers = none := by simp [toggleKey, keyF9, keyF10]
  have h : functionKey d left c keyF9 = some (handledBy (convertFullwidth c)) := by
    unfold functionKey
    rw [if_pos hstate]
    rfl
  rw [processKey_functionKey hno h]
  rfl

theorem processKey_start (hstate : c.state = .precomp) (hascii : c.mode ≠ .ascii)
    (htibetan : c.mode ≠ .tibetan) (hplain : modifiers &&& 0x03C3 = 0) :
    (tipProcessKey d left c 0x20 modifiers maxCommit).context = startConversion d c := by
  simp [tipProcessKey, toggleKey, functionKey, escapeKey, backspaceKey, enterKey, popupKey,
    spaceKey, hstate, hascii, htibetan, hplain, plain_shift_ctrl hplain, keyF6, keyF7, keyF8, keyF9,
    keyF10, handledBy]

theorem processKey_popup (hstate : c.state = .precomp) (htibetan : c.mode = .tibetan)
    (hkey : key = 0x09 ∨ key = keyF4) :
    (tipProcessKey d left c key modifiers maxCommit).context = openPopup c := by
  obtain rfl | rfl := hkey
  · simp [tipProcessKey, toggleKey, functionKey, escapeKey, backspaceKey, enterKey, popupKey,
      hstate, htibetan, keyF6, keyF7, keyF8, keyF9, keyF10, handledBy]
  · simp [tipProcessKey, toggleKey, functionKey, escapeKey, backspaceKey, enterKey, popupKey,
      hstate, htibetan, keyF4, keyF6, keyF7, keyF8, keyF9, keyF10, handledBy]

-- A call to the front end; the user dictionary and what lies behind the buffers may differ from
-- call to call.
inductive TipCall where
  | processKey (d : UserDictionary) (left : Leftover) (key modifiers maxCommit : Nat)
  | setMode (mode : TipInputMode)
  | toggleMode
  | cancel

def TipCall.exec (c : TipContext) : TipCall → TipContext
  | .processKey d left key modifiers maxCommit =>
    (tipProcessKey d left c key modifiers maxCommit).context
  | .setMode mode => tipSetMode c mode
  | .toggleMode => tipToggleMode c
  | .cancel => tipCancel c

def TipStep (c : TipContext) (call : TipCall) (c' : TipContext) : Prop := call.exec c = c'

end BTron.Tip
