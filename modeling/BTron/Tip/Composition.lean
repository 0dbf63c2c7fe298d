import BTron.Lib.Run
import BTron.Mozc.Clauses
import BTron.Tip.Keys
import BTron.Tip.Transliterate

namespace BTron.Tip

open Lib Mozc Tibetan

-- A clause shows a text made of its reading, or of the romaji, or one of its candidates.
structure ClauseSound (romaji : List UB) (cl : TipClause) : Prop where
  selected_lt : cl.selectedCandidate < cl.numCandidates
  candidates_le : cl.numCandidates ≤ maxCandidates
  text : Derived cl.reading cl.converted ∨ cl.converted = alphanumericToFullwidth romaji 64 ∨
    ∃ x ∈ cl.candidates, cl.converted = x.value

-- What the states, the buffers, the clauses and the candidate window have to do with each other.
structure Composed (c : TipContext) : Prop where
  active_lt : inConversion c = true → c.activeClause < c.numClauses
  clauses_le : inConversion c = true → c.numClauses ≤ maxClauses
  clause_sound : inConversion c = true → ∀ i < c.numClauses, ClauseSound c.romajiBuf (c.clauses i)
  window : c.candidateWindowVisible = true → inConversion c = true
  precomp : c.state = .precomp →
    c.romajiBuf ≠ [] ∧ c.readingBuf = transliterate c.mode c.romajiBuf
  idle : c.state = .idle → c.romajiBuf = []
  ascii : c.mode = .ascii → c.state = .idle

-- F9 leaves the candidates of the first clause as they are, and F6, F7 and F8 the active clause.
def Safe (c : TipContext) : TipCall → Prop
  | .processKey d _ key _ _ =>
    (c.state ≠ .idle → key = keyF9 → 0 < (c.clauses 0).numCandidates) ∧
      (c.state = .precomp → key = keyF6 ∨ key = keyF7 ∨ key = keyF8 →
        c.activeClause < (latticeSearch d c.readingBuf maxClauses).length)
  | _ => True

-- The candidates of a clause in use, of which one is selected.
structure Usable (cl : TipClause) : Prop where
  selected_lt : cl.selectedCandidate < cl.numCandidates
  offered : Offered maxCandidates cl.candidates

def Slots (clauses : Nat → TipClause) : Prop :=
  ∀ i, (clauses i).numCandidates = 0 ∨ Usable (clauses i)

-- What every call keeps.
structure Buffers (c : TipContext) : Prop where
  slots : Slots c.clauses
  window : c.candidateWindowVisible = true → inConversion c = true
  composing : c.state ≠ .idle → c.romajiBuf ≠ [] ∧ c.readingBuf = transliterate c.mode c.romajiBuf
  idle : c.state = .idle → c.romajiBuf = []
  ascii : c.mode = .ascii → c.state = .idle

-- What it keeps of the clauses in use where it is safe.
structure Listed (c : TipContext) : Prop where
  active_lt : c.activeClause < c.numClauses
  clauses_le : c.numClauses ≤ maxClauses
  clause_sound : ∀ i < c.numClauses, ClauseSound c.romajiBuf (c.clauses i)

theorem composed_iff {c : TipContext} (h : Buffers c) :
    Composed c ↔ (inConversion c = true → Listed c) := by
  constructor
  · intro hc hconv
    exact ⟨hc.active_lt hconv, hc.clauses_le hconv, hc.clause_sound hconv⟩
  · intro hl
    exact ⟨fun hconv => (hl hconv).active_lt, fun hconv => (hl hconv).clauses_le,
      fun hconv => (hl hconv).clause_sound, h.window,
      fun hstate => h.composing (by simp [hstate]), h.idle, h.ascii⟩

theorem inConversion_iff {c : TipContext} :
    inConversion c = true ↔ c.state = .converting ∨ c.state = .candidateSelect := by
  simp [inConversion]

theorem ne_idle_of_inConversion {c : TipContext} (h : inConversion c = true) : c.state ≠ .idle := by
  obtain h | h := inConversion_iff.mp h <;> rw [h] <;> decide

theorem inConversion_of_ne {c : TipContext} (hidle : c.state ≠ .idle)
    (hprecomp : c.state ≠ .precomp) : inConversion c = true := by
  rw [inConversion_iff]
  cases hstate : c.state with
  | idle => exact absurd hstate hidle
  | precomp => exact absurd hstate hprecomp
  | converting => exact .inl rfl
  | candidateSelect => exact .inr rfl

section Slots

variable {d : UserDictionary} {c : TipContext}

theorem clauseOf_usable (d : UserDictionary) (text : List UB) : Usable (clauseOf d text) :=
  ⟨clauseOf_pos d text, clauseOf_offered d text⟩

-- A clause the search finds, or the one that was there.
theorem searchClauses_cases (d : UserDictionary) (c : TipContext) (i : Nat) :
    (i < (searchClauses d c).numClauses ∧ ∃ text, (searchClauses d c).clauses i = clauseOf d text) ∨
      ((searchClauses d c).numClauses ≤ i ∧ (searchClauses d c).clauses i = c.clauses i) := by
  by_cases hi : i < (latticeSearch d c.readingBuf maxClauses).length
  · refine .inl ⟨hi, ?_⟩
    simp only [searchClauses, List.getD_eq_getElem _ _ hi]
    exact mem_latticeSearch (List.getElem_mem hi)
  · exact .inr ⟨not_lt.mp hi, List.getD_eq_default _ _ (not_lt.mp hi)⟩

theorem searchClauses_slots (h : Slots c.clauses) : Slots (searchClauses d c).clauses := by
  intro i
  obtain ⟨-, text, heq⟩ | ⟨-, heq⟩ := searchClauses_cases d c i
  · rw [heq]
    exact .inr (clauseOf_usable d text)
  · rw [heq]
    exact h i

-- Its candidates and the selected one are all that makes a clause usable.
theorem usable_congr {cl cl' : TipClause} (h : cl.numCandidates = 0 ∨ Usable cl)
    (hcs : cl'.candidates = cl.candidates) (hsel : cl'.selectedCandidate = cl.selectedCandidate) :
    cl'.numCandidates = 0 ∨ Usable cl' := by
  unfold TipClause.numCandidates at h ⊢
  rw [hcs]
  refine h.imp_right fun h => ⟨?_, ?_⟩
  · unfold TipClause.numCandidates
    rw [hcs, hsel]
    exact h.selected_lt
  · rw [hcs]
    exact h.offered

variable {convert : Nat → TipClause → List UB}

theorem convertClauses_fields (c : TipContext) (convert : Nat → TipClause → List UB) (i : Nat) :
    ((convertClauses c convert).clauses i).candidates = (c.clauses i).candidates ∧
      ((convertClauses c convert).clauses i).selectedCandidate = (c.clauses i).selectedCandidate ∧
      ((convertClauses c convert).clauses i).reading = (c.clauses i).reading := by
  unfold convertClauses
  dsimp only
  split <;> exact ⟨rfl, rfl, rfl⟩

theorem convertClauses_slots (h : Slots c.clauses) : Slots (convertClauses c convert).clauses := by
  intro i
  obtain ⟨hcs, hsel, -⟩ := convertClauses_fields c convert i
  exact usable_congr (h i) hcs hsel

theorem startConversion_slots (h : Slots c.clauses) : Slots (startConversion d c).clauses := by
  unfold startConversion
  dsimp only
  split
  · exact convertClauses_slots (searchClauses_slots h)
  · exact searchClauses_slots h

theorem startConversion_context (d : UserDictionary) (c : TipContext) : startConversion d c =
    { c with
        state := .converting
        clauses := (startConversion d c).clauses
        numClauses := (latticeSearch d c.readingBuf maxClauses).length
        activeClause := 0
        candidateWindowVisible := true } := by
  unfold startConversion
  dsimp only
  split <;> rfl

theorem slots_update {clauses : Nat → TipClause} {k : Nat} {cl : TipClause} (h : Slots clauses)
    (hcl : cl.numCandidates = 0 ∨ Usable cl) : Slots (Function.update clauses k cl) := by
  intro i
  by_cases hi : i = k
  · subst hi
    rwa [Function.update_self]
  · rw [Function.update_of_ne hi]
    exact h i

theorem selectCandidate_slots {choose : TipClause → Nat} (h : Slots c.clauses)
    (hchoose : Chooses c choose) : Slots (selectCandidate c choose).clauses := by
  unfold selectCandidate
  split
  · rename_i hpos
    refine slots_update h (.inr ⟨hchoose hpos.2, ?_⟩)
    obtain hzero | husable := h c.activeClause
    · omega
    · exact husable.offered
  · exact h

end Slots

section Popup

variable {max : Nat} {wylie reading : List UB}

theorem tibetanLookupCandidates_offered :
    Offered max (tibetanLookupCandidates wylie reading max) := by
  unfold tibetanLookupCandidates
  extract_lets found direct compound withTsheg withShad
  have hfound : Offered max found := by
    unfold found
    split
    · split
      · exact offered_nil
      · exact pushCandidate_offered offered_nil
    · exact offered_nil
  have hdirect : Offered max direct := by
    unfold direct
    split
    · exact pushCandidate_offered hfound
    · exact hfound
  have hcompound : Offered max compound := by
    unfold compound
    split
    · exact hdirect
    · exact foldl_offered (fun _ _ h => pushNew_offered h) _ hdirect
  have htsheg : Offered max withTsheg := by
    unfold withTsheg
    split
    · exact hcompound
    · exact pushCandidate_offered hcompound
  have hshad : Offered max withShad := by
    unfold withShad
    split
    · exact htsheg
    · exact pushCandidate_offered htsheg
  split
  · exact hshad
  · exact pushCandidate_offered hshad

theorem tibetanLookupCandidates_ne_nil (hmax : 0 < max) (hne : wylie ≠ []) :
    tibetanLookupCandidates wylie reading max ≠ [] := by
  unfold tibetanLookupCandidates
  extract_lets
  rw [if_neg hne]
  exact pushCandidate_ne_nil hmax

theorem openPopup_slots {c : TipContext} (h : Slots c.clauses) (hne : c.romajiBuf ≠ []) :
    Slots (openPopup c).clauses := by
  refine slots_update h (.inr ⟨?_, tibetanLookupCandidates_offered⟩)
  exact List.length_pos_iff.mpr (tibetanLookupCandidates_ne_nil (by decide) hne)

end Popup

section Select

variable {c : TipContext} {choose : TipClause → Nat}

@[simp] theorem selectCandidate_mode : (selectCandidate c choose).mode = c.mode := by
  unfold selectCandidate
  split <;> rfl

@[simp] theorem selectCandidate_state : (selectCandidate c choose).state = c.state := by
  unfold selectCandidate
  split <;> rfl

@[simp] theorem selectCandidate_romajiBuf :
    (selectCandidate c choose).romajiBuf = c.romajiBuf := by
  unfold selectCandidate
  split <;> rfl

@[simp] theorem selectCandidate_readingBuf :
    (selectCandidate c choose).readingBuf = c.readingBuf := by
  unfold selectCandidate
  split <;> rfl

@[simp] theorem selectCandidate_numClauses :
    (selectCandidate c choose).numClauses = c.numClauses := by
  unfold selectCandidate
  split <;> rfl

@[simp] theorem selectCandidate_activeClause :
    (selectCandidate c choose).activeClause = c.activeClause := by
  unfold selectCandidate
  split <;> rfl

@[simp] theorem selectCandidate_window :
    (selectCandidate c choose).candidateWindowVisible = c.candidateWindowVisible := by
  unfold selectCandidate
  split <;> rfl

-- Only the active clause changes, and only if it has candidates.
theorem selectCandidate_cases (c : TipContext) (choose : TipClause → Nat) (i : Nat) :
    (selectCandidate c choose).clauses i = c.clauses i ∨
      i = c.activeClause ∧ 0 < (c.clauses i).numCandidates ∧
        (selectCandidate c choose).clauses i =
          { c.clauses i with
              selectedCandidate := choose (c.clauses i)
              converted := strncpy
                (((c.clauses i).candidates[choose (c.clauses i)]?.map (·.value)).getD []) 63 } := by
  unfold selectCandidate
  split
  · rename_i hpos
    by_cases hi : i = c.activeClause
    · subst hi
      exact .inr ⟨rfl, hpos.2, Function.update_self ..⟩
    · exact .inl (Function.update_of_ne hi ..)
  · exact .inl rfl

end Select

section Kept

variable {d : UserDictionary} {c c' : TipContext} {key modifiers : Nat}

theorem tipCancel_buffers (h : Slots c.clauses) : Buffers (tipCancel c) where
  slots := h
  window hvisible := by simp [tipCancel] at hvisible
  composing hstate := absurd rfl hstate
  idle _ := rfl
  ascii _ := rfl

theorem tipSetMode_buffers (h : Buffers c) (mode : TipInputMode) : Buffers (tipSetMode c mode) := by
  unfold tipSetMode
  split
  · exact tipCancel_buffers h.slots
  · rename_i hidle
    exact ⟨h.slots, h.window, fun hstate => absurd hstate hidle, h.idle, fun _ => not_not.mp hidle⟩

-- Changes within a composition leave the mode and the buffers alone.
theorem Buffers.within (h : Buffers c) (hc : c.state ≠ .idle) (hslots : Slots c'.clauses)
    (hmode : c'.mode = c.mode) (hromaji : c'.romajiBuf = c.romajiBuf)
    (hreading : c'.readingBuf = c.readingBuf) (hstate : c'.state ≠ .idle)
    (hwindow : c'.candidateWindowVisible = true → inConversion c' = true) : Buffers c' where
  slots := hslots
  window := hwindow
  composing _ := by
    rw [hmode, hromaji, hreading]
    exact h.composing hc
  idle hidle := absurd hidle hstate
  ascii hascii := absurd (h.ascii (hmode ▸ hascii)) hc

theorem setRomaji_buffers {c : TipContext} {romaji : List UB} (h : Slots c.clauses)
    (hascii : c.mode ≠ .ascii) (hwindow : c.candidateWindowVisible = false) (hne : romaji ≠ []) :
    Buffers { setRomaji c romaji with state := .precomp } where
  slots := h
  window hvisible := by simp [setRomaji, hwindow] at hvisible
  composing _ := ⟨hne, rfl⟩
  idle hidle := by simp at hidle
  ascii hmode := absurd hmode hascii

theorem not_visible (h : Buffers c) (hconv : inConversion c = false) :
    c.candidateWindowVisible = false := by
  by_contra hvisible
  rw [h.window (by simpa using hvisible)] at hconv
  cases hconv

theorem convertAll_context (d : UserDictionary) (c : TipContext)
    (convert : Nat → TipClause → List UB) : (convertAll d c convert).context =
      convertClauses (if c.state = .precomp then { searchClauses d c with state := .converting }
        else c) convert := rfl

theorem keyEffect_buffers (h : Buffers c) (heff : KeyEffect d c key modifiers c') : Buffers c' := by
  cases heff with
  | same => exact h
  | toggle => exact tipCancel_buffers h.slots
  | setMode =>
      exact tipSetMode_buffers h _
  | cancel => exact tipCancel_buffers h.slots
  | @convert convert hstate hkey hconvert =>
      rw [convertAll_context]
      split
      · exact h.within hstate (convertClauses_slots (searchClauses_slots h.slots)) rfl rfl rfl
          (by simp [convertClauses]) fun _ => rfl
      · exact h.within hstate (convertClauses_slots h.slots) rfl rfl rfl hstate h.window
  | fullwidth hstate hkey =>
      refine h.within hstate ?_ rfl rfl rfl (by simp [convertFullwidth, modifyClause]) fun _ => rfl
      exact slots_update h.slots (usable_congr (h.slots 0) rfl rfl)
  | closeWindow hstate =>
      exact h.within (by simp [hstate]) h.slots rfl rfl rfl (by simp) fun _ => rfl
  | backToPrecomp hstate =>
      exact h.within (by simp [hstate]) h.slots rfl rfl rfl (by simp) (by simp)
  | takeBack hstate hne =>
      have hconv : inConversion c = false := by simp [inConversion, hstate]
      have hascii : c.mode ≠ .ascii := fun hmode => by simp [h.ascii hmode] at hstate
      have hwindow := not_visible h hconv
      unfold takeBack
      dsimp only
      split
      · rename_i hempty
        exact ⟨h.slots, fun hvisible => by simp [setRomaji, hwindow] at hvisible,
          fun hstate => absurd rfl hstate, fun _ => hempty, fun _ => rfl⟩
      · rename_i hrest
        refine ⟨h.slots, fun hvisible => by simp [setRomaji, hwindow] at hvisible,
          fun _ => ⟨hrest, rfl⟩, ?_, fun hmode => absurd hmode hascii⟩
        simp [setRomaji, hstate]
  | popup hmode hstate hkey =>
      refine h.within (by simp [hstate]) ?_ rfl rfl rfl (by simp [openPopup]) fun _ => rfl
      exact openPopup_slots h.slots (h.composing (by simp [hstate])).1
  | start hmode hstate hkey hplain =>
      rw [startConversion_context]
      exact h.within (by simp [hstate]) (startConversion_slots h.slots) rfl rfl rfl (by simp)
        fun _ => rfl
  | @select choose hconv hchoose =>
      exact h.within (ne_idle_of_inConversion hconv) (selectCandidate_slots h.slots hchoose)
        (by simp) (by simp) (by simp) (by simpa using ne_idle_of_inConversion hconv)
        fun _ => by simpa [inConversion] using hconv
  | @«show» choose hconv hchoose =>
      exact h.within (ne_idle_of_inConversion hconv)
        (selectCandidate_slots (c := showCandidates c) h.slots hchoose) (by simp [showCandidates])
        (by simp [showCandidates]) (by simp [showCandidates]) (by simp [showCandidates])
        fun _ => by simp [inConversion, showCandidates]
  | @move i hconv hi =>
      exact h.within (ne_idle_of_inConversion hconv) h.slots rfl rfl rfl
        (ne_idle_of_inConversion hconv) h.window
  | @selectNext choose hstate hnext hchoose =>
      exact h.within (by simp [hstate]) (selectCandidate_slots h.slots hchoose) (by simp) (by simp)
        (by simp) (by simp [hstate]) fun _ => by simp [inConversion, hstate]
  | @selectLast choose hstate hchoose =>
      exact h.within (by simp [hstate]) (selectCandidate_slots h.slots hchoose) (by simp) (by simp)
        (by simp) (by simp) fun _ => rfl
  | @type letter hascii hconv hletter =>
      exact setRomaji_buffers h.slots hascii (not_visible h hconv) (by simp)
  | @restart letter hascii hconv hletter =>
      exact setRomaji_buffers h.slots hascii rfl (by simp)

end Kept

section Clauses

variable {d : UserDictionary} {c c' : TipContext} {key modifiers : Nat}

theorem Usable.numCandidates_le {cl : TipClause} (h : Usable cl) :
    cl.numCandidates ≤ maxCandidates := h.offered.length_le

-- A clause that is converted shows a text made of its reading.
theorem convertClauses_sound {convert : Nat → TipClause → List UB} {romaji : List UB}
    (hconvert : ∀ i cl, Derived cl.reading (convert i cl)) {i : Nat} (hi : i < c.numClauses)
    (hsel : (c.clauses i).selectedCandidate < (c.clauses i).numCandidates)
    (hle : (c.clauses i).numCandidates ≤ maxCandidates) :
    ClauseSound romaji ((convertClauses c convert).clauses i) := by
  obtain ⟨hcs, hselected, hreading⟩ := convertClauses_fields c convert i
  refine ⟨?_, ?_, .inl ?_⟩
  · rwa [TipClause.numCandidates, hcs, hselected]
  · rwa [TipClause.numCandidates, hcs]
  · rw [hreading]
    unfold convertClauses
    dsimp only
    rw [if_pos hi]
    exact hconvert i _

theorem clauseOf_sound (d : UserDictionary) (romaji text : List UB) :
    ClauseSound romaji (clauseOf d text) :=
  ⟨clauseOf_pos d text, (clauseOf_usable d text).numCandidates_le,
    .inr (.inr (clauseOf_converted d text))⟩

-- The clauses found are in use.
theorem searchClauses_clause {i : Nat} (hi : i < (searchClauses d c).numClauses) :
    Usable ((searchClauses d c).clauses i) ∧
      ∃ text, (searchClauses d c).clauses i = clauseOf d text := by
  obtain ⟨-, text, htext⟩ | ⟨hge, -⟩ := searchClauses_cases d c i
  · rw [htext]
    exact ⟨clauseOf_usable d text, text, rfl⟩
  · omega

theorem convertAll_listed {convert : Nat → TipClause → List UB} (hstate : c.state ≠ .idle)
    (hl : inConversion c = true → Listed c)
    (hconvert : ∀ i cl, Derived cl.reading (convert i cl))
    (hactive : c.state = .precomp →
      c.activeClause < (latticeSearch d c.readingBuf maxClauses).length) :
    Listed (convertAll d c convert).context := by
  rw [convertAll_context]
  split
  · rename_i hprecomp
    refine ⟨hactive hprecomp, latticeSearch_length_le d c.readingBuf, fun i hi => ?_⟩
    obtain ⟨husable, -⟩ := searchClauses_clause (d := d) (c := c) hi
    exact convertClauses_sound hconvert hi husable.selected_lt husable.numCandidates_le
  · rename_i hprecomp
    have hlisted := hl (inConversion_of_ne hstate hprecomp)
    exact ⟨hlisted.active_lt, hlisted.clauses_le, fun i hi =>
      convertClauses_sound hconvert hi (hlisted.clause_sound i hi).selected_lt
        (hlisted.clause_sound i hi).candidates_le⟩

theorem startConversion_listed (hne : c.readingBuf ≠ []) : Listed (startConversion d c) := by
  rw [startConversion_context]
  refine ⟨latticeSearch_pos d hne, latticeSearch_length_le d c.readingBuf, fun i hi => ?_⟩
  obtain ⟨husable, text, htext⟩ := searchClauses_clause (d := d) (c := c) hi
  unfold startConversion
  dsimp only
  split
  · exact convertClauses_sound (fun _ _ => .inr (.inl rfl)) hi husable.selected_lt
      husable.numCandidates_le
  · rw [htext]
    exact clauseOf_sound d c.romajiBuf text

-- A clause list of one clause.
theorem listed_single (hactive : c.activeClause = 0) (hnum : c.numClauses = 1)
    (h : ClauseSound c.romajiBuf (c.clauses 0)) : Listed c := by
  refine ⟨by omega, by rw [hnum]; decide, fun i hi => ?_⟩
  obtain rfl : i = 0 := by omega
  exact h

theorem convertFullwidth_clause (c : TipContext) : (convertFullwidth c).clauses 0 =
    { c.clauses 0 with
        reading := strncpy c.readingBuf 63
        converted := alphanumericToFullwidth c.romajiBuf 64 } := by
  unfold convertFullwidth modifyClause
  dsimp only
  rw [Function.update_self]

theorem convertFullwidth_listed (h : Usable (c.clauses 0)) : Listed (convertFullwidth c) := by
  apply listed_single rfl rfl
  rw [convertFullwidth_clause]
  exact ⟨h.selected_lt, h.numCandidates_le, .inr (.inl rfl)⟩

theorem openPopup_clause (c : TipContext) : (openPopup c).clauses 0 =
    { reading := strncpy c.readingBuf 63
      converted := strncpy (((tibetanLookupCandidates c.romajiBuf c.readingBuf
        maxCandidates).head?.map (·.value)).getD c.readingBuf) 63
      candidates := tibetanLookupCandidates c.romajiBuf c.readingBuf maxCandidates
      selectedCandidate := 0 } := by
  unfold openPopup modifyClause
  dsimp only
  rw [Function.update_self]

theorem openPopup_listed (hne : c.romajiBuf ≠ []) : Listed (openPopup c) := by
  have hoffered : Offered maxCandidates
      (tibetanLookupCandidates c.romajiBuf c.readingBuf maxCandidates) :=
    tibetanLookupCandidates_offered
  obtain ⟨x, xs, hcs⟩ : ∃ x xs,
      tibetanLookupCandidates c.romajiBuf c.readingBuf maxCandidates = x :: xs :=
    List.exists_cons_of_ne_nil (tibetanLookupCandidates_ne_nil (by decide) hne)
  rw [hcs] at hoffered
  apply listed_single rfl rfl
  rw [openPopup_clause, hcs]
  refine ⟨Nat.succ_pos _, hoffered.length_le, .inr (.inr ⟨x, List.mem_cons_self, ?_⟩)⟩
  exact hoffered.value_fits x List.mem_cons_self

theorem selectCandidate_listed {choose : TipClause → Nat} (hslots : Slots c.clauses)
    (hchoose : Chooses c choose) (hl : Listed c) : Listed (selectCandidate c choose) := by
  refine ⟨by simpa using hl.active_lt, by simpa using hl.clauses_le, fun i hi => ?_⟩
  have hsound := hl.clause_sound i (by simpa using hi)
  rw [selectCandidate_romajiBuf]
  obtain heq | ⟨rfl, hpos, heq⟩ := selectCandidate_cases c choose i
  · rwa [heq]
  · have hlt := hchoose hpos
    have husable : Usable (c.clauses c.activeClause) :=
      (hslots c.activeClause).resolve_left (by omega)
    have hfits := husable.offered.value_fits _ (List.getElem_mem hlt)
    rw [heq, List.getElem?_eq_getElem hlt, Option.map_some, Option.getD_some, hfits]
    exact ⟨hlt, hsound.candidates_le, .inr (.inr ⟨_, List.getElem_mem hlt, rfl⟩)⟩

end Clauses

section Runs

variable {d : UserDictionary} {c c' : TipContext} {key modifiers : Nat}

theorem tipSetMode_not_converting (c : TipContext) (mode : TipInputMode) :
    inConversion (tipSetMode c mode) = false := by
  unfold tipSetMode
  split
  · rfl
  · rename_i hidle
    simp [inConversion, not_not.mp hidle]

theorem takeBack_not_converting (hstate : c.state = .precomp) :
    inConversion (takeBack c) = false := by
  unfold takeBack
  dsimp only
  split
  · rfl
  · simp [inConversion, setRomaji, hstate]

theorem keyEffect_listed (h : Buffers c) (hl : inConversion c = true → Listed c)
    (hfullwidth : c.state ≠ .idle → key = keyF9 → 0 < (c.clauses 0).numCandidates)
    (hactive : c.state = .precomp → key = keyF6 ∨ key = keyF7 ∨ key = keyF8 →
      c.activeClause < (latticeSearch d c.readingBuf maxClauses).length)
    (heff : KeyEffect d c key modifiers c') (hconv' : inConversion c' = true) : Listed c' := by
  cases heff with
  | same => exact hl hconv'
  | toggle => cases hconv'
  | setMode =>
      rw [tipSetMode_not_converting] at hconv'
      cases hconv'
  | cancel => cases hconv'
  | convert hstate hkey hconvert =>
      exact convertAll_listed hstate hl hconvert fun hprecomp => hactive hprecomp hkey
  | fullwidth hstate hkey =>
      have hpos := hfullwidth hstate hkey
      exact convertFullwidth_listed ((h.slots 0).resolve_left (by omega))
  | closeWindow hstate =>
      have hlisted := hl (by simp [inConversion, hstate])
      exact ⟨hlisted.active_lt, hlisted.clauses_le, hlisted.clause_sound⟩
  | backToPrecomp => cases hconv'
  | takeBack hstate hne =>
      rw [takeBack_not_converting hstate] at hconv'
      cases hconv'
  | popup _ hstate => exact openPopup_listed (h.composing (by simp [hstate])).1
  | start hmode hstate =>
      obtain ⟨hne, hreading⟩ := h.composing (by simp [hstate])
      apply startConversion_listed
      rw [hreading, transliterate, if_neg hmode]
      exact romajiToHiragana_ne_nil hne
  | select hconv hchoose => exact selectCandidate_listed h.slots hchoose (hl hconv)
  | «show» hconv hchoose =>
      have hlisted := hl hconv
      exact selectCandidate_listed (c := showCandidates c) h.slots hchoose
        ⟨hlisted.active_lt, hlisted.clauses_le, hlisted.clause_sound⟩
  | move hconv hi =>
      have hlisted := hl hconv
      exact ⟨hi, hlisted.clauses_le, hlisted.clause_sound⟩
  | selectNext hstate hnext hchoose =>
      have hlisted := selectCandidate_listed h.slots hchoose (hl (by simp [inConversion, hstate]))
      exact ⟨by simpa using hnext, hlisted.clauses_le, hlisted.clause_sound⟩
  | selectLast hstate hchoose =>
      have hlisted := selectCandidate_listed h.slots hchoose (hl (by simp [inConversion, hstate]))
      exact ⟨hlisted.active_lt, hlisted.clauses_le, hlisted.clause_sound⟩
  | type => cases hconv'
  | restart => cases hconv'

theorem exec_buffers {call : TipCall} (h : Buffers c) (hstep : TipStep c call c') : Buffers c' := by
  cases hstep
  cases call with
  | processKey d left key modifiers maxCommit =>
      exact keyEffect_buffers h (processKey_effect d left c key modifiers maxCommit)
  | setMode mode => exact tipSetMode_buffers h mode
  | toggleMode => exact tipCancel_buffers h.slots
  | cancel => exact tipCancel_buffers h.slots

-- What a sound clause list asks of the step before.
theorem fullwidth_safe (h : Composed (convertFullwidth c)) : 0 < (c.clauses 0).numCandidates := by
  have hsound := h.clause_sound rfl 0 Nat.one_pos
  have hlt := Nat.lt_of_le_of_lt (Nat.zero_le _) hsound.selected_lt
  rwa [convertFullwidth_clause] at hlt

theorem convertAll_safe {convert : Nat → TipClause → List UB} (hstate : c.state = .precomp)
    (h : Composed (convertAll d c convert).context) :
    c.activeClause < (latticeSearch d c.readingBuf maxClauses).length := by
  rw [convertAll_context, if_pos hstate] at h
  exact h.active_lt rfl

theorem exec_composed_iff {call : TipCall} (h : Buffers c) (hc : Composed c)
    (hstep : TipStep c call c') : Composed c' ↔ Safe c call := by
  have h' := exec_buffers h hstep
  cases hstep
  cases call with
  | processKey d left key modifiers maxCommit =>
      constructor
      · intro hc'
        refine ⟨fun hstate hkey => ?_, fun hstate hkey => ?_⟩
        · subst hkey
          apply fullwidth_safe
          rw [← processKey_fullwidth hstate]
          exact hc'
        · obtain ⟨convert, heq⟩ := processKey_convert (c := c) (by simp [hstate]) hkey
          have hall : Composed (convertAll d c convert).context := by
            rw [← heq]
            exact hc'
          exact convertAll_safe hstate hall
      · rintro ⟨hfullwidth, hactive⟩
        rw [composed_iff h']
        exact keyEffect_listed h ((composed_iff h).mp hc) hfullwidth hactive
          (processKey_effect d left c key modifiers maxCommit)
  | setMode mode =>
      rw [composed_iff h']
      refine iff_of_true (fun hconv => ?_) trivial
      rw [TipCall.exec, tipSetMode_not_converting] at hconv
      cases hconv
  | toggleMode =>
      rw [composed_iff h']
      exact iff_of_true (fun hconv => by cases hconv) trivial
  | cancel =>
      rw [composed_iff h']
      exact iff_of_true (fun hconv => by cases hconv) trivial

theorem tipInit_buffers : Buffers tipInit where
  slots _ := .inl rfl
  window hvisible := by cases hvisible
  composing hstate := absurd rfl hstate
  idle _ := rfl
  ascii _ := rfl

theorem composed_runs_iff {tr : List (TipContext × TipCall)}
    (htr : Trace TipStep tipInit tr c) :
    (Composed c ∧ ∀ t ∈ tr, Composed t.1) ↔ ∀ t ∈ tr, Safe t.1 t.2 :=
  htr.forall_iff_within tipInit_buffers (fun _ _ _ h hstep => exec_buffers h hstep)
    ((composed_iff tipInit_buffers).mpr fun hconv => by cases hconv)
    fun _ _ _ h hc hstep => exec_composed_iff h hc hstep

end Runs

-- A key without modifiers and without a user word.
def press (key : Nat) : TipCall := .processKey .empty ⟨fun _ _ => 0, fun _ _ => 0⟩ key 0 0

def afterKeys (keys : List Nat) : TipContext :=
  keys.foldl (fun c key => (press key).exec c) tipInit

theorem exists_trace_afterKeys (keys : List Nat) :
    ∃ tr, Trace TipStep tipInit tr (afterKeys keys) := by
  have hfrom : ∀ (c : TipContext) tr, Trace TipStep tipInit tr c →
      ∃ tr', Trace TipStep tipInit tr' (keys.foldl (fun c key => (press key).exec c) c) := by
    induction keys with
    | nil => exact fun c tr htr => ⟨tr, htr⟩
    | cons key keys ih => exact fun c tr htr => ih _ _ (htr.next (a := press key) rfl)
  exact hfrom tipInit [] .start

-- `a` is typed and converted.
theorem composed_runs_iff_converted : Composed (afterKeys [0x61, 0x20]) := by
  have htr : Trace TipStep tipInit
      [(afterKeys [0x61], press 0x20), (tipInit, press 0x61)] (afterKeys [0x61, 0x20]) :=
    .next (.next .start rfl) rfl
  refine ((composed_runs_iff htr).mpr ?_).1
  simp [Safe, press, keyF6, keyF7, keyF8, keyF9]

-- F9 shows a clause that has no candidate; F6 leaves the second clause active where the search
-- finds only one.
theorem composition_breaks :
    (∃ tr, Trace TipStep tipInit tr (afterKeys [0x61, keyF9]) ∧
      ¬Composed (afterKeys [0x61, keyF9])) ∧
    ∃ tr, Trace TipStep tipInit tr (afterKeys [0x6B, 0x71, 0x20, keyRight, 0x08, 0x08, keyF6]) ∧
      ¬Composed (afterKeys [0x6B, 0x71, 0x20, keyRight, 0x08, 0x08, keyF6]) := by
  constructor
  · obtain ⟨tr, htr⟩ := exists_trace_afterKeys [0x61, keyF9]
    refine ⟨tr, htr, fun h => ?_⟩
    have hlt := (h.clause_sound (by decide) 0 (by decide)).selected_lt
    revert hlt
    decide
  · obtain ⟨tr, htr⟩ := exists_trace_afterKeys [0x6B, 0x71, 0x20, keyRight, 0x08, 0x08, keyF6]
    refine ⟨tr, htr, fun h => ?_⟩
    have hlt := h.active_lt (by decide +kernel)
    revert hlt
    decide +kernel

end BTron.Tip
