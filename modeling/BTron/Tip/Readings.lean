import BTron.Tip.Composition

namespace BTron.Tip

open Lib Mozc Tibetan

-- The reading fields of the clauses in their order.
def readings (c : TipContext) : List UB := (clauseList c).flatMap (·.reading)

def KeepsReading (c : TipContext) : Prop := inConversion c = true → readings c = c.readingBuf

-- A conversion starts with a search, or with the reading as the only clause, which has room for 63
-- bytes of it.
def Fits (c : TipContext) : TipCall → Prop
  | .processKey d _ key modifiers _ =>
    (c.state = .precomp → key = keyF6 ∨ key = keyF7 ∨ key = keyF8 → LeadFits d c.readingBuf) ∧
      (c.state = .precomp → c.mode ≠ .tibetan → key = 0x20 → modifiers &&& 0x03C3 = 0 →
        LeadFits d c.readingBuf) ∧
      (c.state ≠ .idle → key = keyF9 → c.readingBuf.length ≤ 63) ∧
      (c.state = .precomp → c.mode = .tibetan → key = 0x09 ∨ key = keyF4 →
        c.readingBuf.length ≤ 63)
  | _ => True

section Readings

variable {d : UserDictionary} {c c' : TipContext}

theorem readings_congr (hnum : c'.numClauses = c.numClauses)
    (hreading : ∀ i, (c'.clauses i).reading = (c.clauses i).reading) :
    readings c' = readings c := by
  simp only [readings, clauseList, List.flatMap_map, hnum, hreading]

theorem clauseList_searchClauses (d : UserDictionary) (c : TipContext) :
    clauseList (searchClauses d c) = latticeSearch d c.readingBuf maxClauses := by
  apply List.ext_getElem (by simp [clauseList, searchClauses])
  intro i hi hi'
  simp [clauseList, searchClauses, List.getElem?_eq_getElem hi']

theorem convertClauses_readings {convert : Nat → TipClause → List UB} :
    readings (convertClauses c convert) = readings c :=
  readings_congr rfl fun i => (convertClauses_fields c convert i).2.2

theorem searchClauses_readings (d : UserDictionary) (c : TipContext) :
    readings (searchClauses d c) =
      (latticeSearch d c.readingBuf maxClauses).flatMap (·.reading) := by
  rw [readings, clauseList_searchClauses]

theorem convertAll_readings {convert : Nat → TipClause → List UB} :
    readings (convertAll d c convert).context =
      if c.state = .precomp then (latticeSearch d c.readingBuf maxClauses).flatMap (·.reading)
      else readings c := by
  rw [convertAll_context, convertClauses_readings]
  split
  · exact searchClauses_readings d c
  · rfl

theorem convertAll_readingBuf {convert : Nat → TipClause → List UB} :
    (convertAll d c convert).context.readingBuf = c.readingBuf := by
  rw [convertAll_context]
  split <;> rfl

theorem startConversion_readings (d : UserDictionary) (c : TipContext) :
    readings (startConversion d c) =
      (latticeSearch d c.readingBuf maxClauses).flatMap (·.reading) := by
  rw [← searchClauses_readings]
  apply readings_congr (by rw [startConversion_context]; rfl)
  intro i
  unfold startConversion
  dsimp only
  split
  · exact (convertClauses_fields _ _ i).2.2
  · rfl

-- A clause list of one clause that is a copy of the reading buffer.
theorem readings_single (hnum : c.numClauses = 1)
    (hreading : (c.clauses 0).reading = strncpy c.readingBuf 63) :
    readings c = strncpy c.readingBuf 63 := by
  simp [readings, clauseList, hnum, hreading]

theorem strncpy_eq_self_iff {text : List UB} (h0 : 0 ∉ text) :
    strncpy text 63 = text ↔ text.length ≤ 63 := by
  rw [strncpy, cstr_eq h0, List.take_eq_self_iff]

theorem convertFullwidth_readings : readings (convertFullwidth c) = strncpy c.readingBuf 63 := by
  apply readings_single rfl
  rw [convertFullwidth_clause]
  rfl

theorem openPopup_readings : readings (openPopup c) = strncpy c.readingBuf 63 := by
  apply readings_single rfl
  rw [openPopup_clause]
  rfl

theorem selectCandidate_keeps {choose : TipClause → Nat} (h : readings c = c.readingBuf) :
    readings (selectCandidate c choose) = (selectCandidate c choose).readingBuf := by
  rw [selectCandidate_readingBuf, ← h]
  apply readings_congr selectCandidate_numClauses
  intro i
  obtain heq | ⟨-, -, heq⟩ := selectCandidate_cases c choose i <;> rw [heq]

end Readings

section Runs

variable {d : UserDictionary} {c c' : TipContext} {key modifiers : Nat} {call : TipCall}

-- A buffer of keys holds no NUL.
theorem keyEffect_romaji (h0 : 0 ∉ c.romajiBuf) (heff : KeyEffect d c key modifiers c') :
    0 ∉ c'.romajiBuf := by
  cases heff with
  | same => exact h0
  | toggle => exact List.not_mem_nil
  | setMode =>
      unfold tipSetMode
      split
      · exact List.not_mem_nil
      · exact h0
  | cancel => exact List.not_mem_nil
  | convert =>
      rw [convertAll_context]
      split <;> exact h0
  | fullwidth => exact h0
  | closeWindow => exact h0
  | backToPrecomp => exact h0
  | takeBack =>
      have hrest : 0 ∉ c.romajiBuf.dropLast := fun hmem => 
        h0 ((List.dropLast_sublist _).mem hmem)
      unfold takeBack
      dsimp only
      split <;> exact hrest
  | popup => exact h0
  | start =>
      rw [startConversion_context]
      exact h0
  | select => rwa [selectCandidate_romajiBuf]
  | «show» => rwa [selectCandidate_romajiBuf]
  | move => exact h0
  | selectNext => rwa [selectCandidate_romajiBuf]
  | selectLast => rwa [selectCandidate_romajiBuf]
  | type _ _ hletter =>
      intro hmem
      obtain hmem | hmem := List.mem_append.mp hmem
      · exact h0 hmem
      · exact hletter (List.mem_singleton.mp hmem).symm
  | restart _ _ hletter =>
      intro hmem
      exact hletter (List.mem_singleton.mp hmem).symm

-- What every call keeps of the buffers.
structure Strings (c : TipContext) : Prop where
  buffers : Buffers c
  romaji : 0 ∉ c.romajiBuf

theorem exec_strings (h : Strings c) (hstep : TipStep c call c') : Strings c' := by
  refine ⟨exec_buffers h.buffers hstep, ?_⟩
  cases hstep
  cases call with
  | processKey d left key modifiers maxCommit =>
      exact keyEffect_romaji h.romaji (processKey_effect d left c key modifiers maxCommit)
  | setMode mode =>
      unfold TipCall.exec tipSetMode
      dsimp only
      split
      · exact List.not_mem_nil
      · exact h.romaji
  | toggleMode => exact List.not_mem_nil
  | cancel => exact List.not_mem_nil

-- In a composition the reading is a string that the search takes whole.
theorem Strings.reading (h : Strings c) (hstate : c.state ≠ .idle) :
    0 ∉ c.readingBuf ∧ c.readingBuf.length ≤ 256 := by
  rw [(h.buffers.composing hstate).2]
  exact ⟨transliterate_string c.mode h.romaji,
    Nat.le_of_lt (transliterate_length_lt c.mode c.romajiBuf)⟩

theorem search_keeps_iff (h : Strings c) (hstate : c.state ≠ .idle) :
    (latticeSearch d c.readingBuf maxClauses).flatMap (·.reading) = c.readingBuf ↔
      LeadFits d c.readingBuf :=
  readings_whole_iff d c.readingBuf (h.reading hstate).1 (h.reading hstate).2

theorem keyEffect_keeps (h : Strings c) (hk : KeepsReading c)
    (hsearch : c.state = .precomp → key = keyF6 ∨ key = keyF7 ∨ key = keyF8 →
      LeadFits d c.readingBuf)
    (hstart : c.state = .precomp → c.mode ≠ .tibetan → key = 0x20 → modifiers &&& 0x03C3 = 0 →
      LeadFits d c.readingBuf)
    (hfullwidth : c.state ≠ .idle → key = keyF9 → c.readingBuf.length ≤ 63)
    (hpopup : c.state = .precomp → c.mode = .tibetan → key = 0x09 ∨ key = keyF4 →
      c.readingBuf.length ≤ 63)
    (heff : KeyEffect d c key modifiers c') : KeepsReading c' := by
  intro hconv'
  cases heff with
  | same => exact hk hconv'
  | toggle => cases hconv'
  | setMode =>
      rw [tipSetMode_not_converting] at hconv'
      cases hconv'
  | cancel => cases hconv'
  | convert hstate hkey hconvert =>
      rw [convertAll_readings, convertAll_readingBuf]
      split
      · rename_i hprecomp
        exact (search_keeps_iff h hstate).mpr (hsearch hprecomp hkey)
      · rename_i hprecomp
        exact hk (inConversion_of_ne hstate hprecomp)
  | fullwidth hstate hkey =>
      rw [convertFullwidth_readings]
      exact (strncpy_eq_self_iff (h.reading hstate).1).mpr (hfullwidth hstate hkey)
  | closeWindow hstate => exact hk (by simp [inConversion, hstate])
  | backToPrecomp => cases hconv'
  | takeBack hstate =>
      rw [takeBack_not_converting hstate] at hconv'
      cases hconv'
  | popup hmode hstate hkey =>
      have hne : c.state ≠ .idle := by simp [hstate]
      rw [openPopup_readings]
      exact (strncpy_eq_self_iff (h.reading hne).1).mpr (hpopup hstate hmode hkey)
  | start hmode hstate hkey hplain =>
      have hne : c.state ≠ .idle := by simp [hstate]
      rw [startConversion_readings, (search_keeps_iff h hne).mpr (hstart hstate hmode hkey hplain),
        startConversion_context]
  | select hconv => exact selectCandidate_keeps (hk hconv)
  | «show» hconv => exact selectCandidate_keeps (c := showCandidates c) (hk hconv)
  | move hconv => exact hk hconv
  | selectNext hstate => exact selectCandidate_keeps (hk (by simp [inConversion, hstate]))
  | selectLast hstate => exact selectCandidate_keeps (hk (by simp [inConversion, hstate]))
  | type => cases hconv'
  | restart => cases hconv'

-- A conversion that loses nothing had room for the reading.
theorem exec_keeps_iff (h : Strings c) (hk : KeepsReading c) (hstep : TipStep c call c') :
    KeepsReading c' ↔ Fits c call := by
  cases hstep
  cases call with
  | processKey d left key modifiers maxCommit =>
      constructor
      · intro hk'
        unfold TipCall.exec at hk'
        dsimp only at hk'
        refine ⟨fun hstate hkey => ?_, fun hstate hmode hkey hplain => ?_, fun hstate hkey => ?_,
          fun hstate hmode hkey => ?_⟩
        · obtain ⟨convert, heq⟩ := processKey_convert (c := c) (by simp [hstate]) hkey
          rw [heq] at hk'
          have hwhole := hk' (by rw [convertAll_context, if_pos hstate]; rfl)
          rw [convertAll_readings, if_pos hstate, convertAll_readingBuf] at hwhole
          exact (search_keeps_iff h (by simp [hstate])).mp hwhole
        · subst hkey
          have hascii : c.mode ≠ .ascii := fun hm => by simp [h.buffers.ascii hm] at hstate
          rw [processKey_start hstate hascii hmode hplain] at hk'
          have hwhole := hk' (by rw [startConversion_context]; rfl)
          rw [startConversion_readings, startConversion_context] at hwhole
          exact (search_keeps_iff h (by simp [hstate])).mp hwhole
        · subst hkey
          rw [processKey_fullwidth hstate] at hk'
          have hwhole := hk' rfl
          rw [convertFullwidth_readings] at hwhole
          exact (strncpy_eq_self_iff (h.reading hstate).1).mp hwhole
        · rw [processKey_popup hstate hmode hkey] at hk'
          have hwhole := hk' rfl
          rw [openPopup_readings] at hwhole
          exact (strncpy_eq_self_iff (h.reading (by simp [hstate])).1).mp hwhole
      · rintro ⟨hsearch, hstart, hfullwidth, hpopup⟩
        exact keyEffect_keeps h hk hsearch hstart hfullwidth hpopup
          (processKey_effect d left c key modifiers maxCommit)
  | setMode mode =>
      refine iff_of_true (fun hconv => ?_) trivial
      rw [TipCall.exec, tipSetMode_not_converting] at hconv
      cases hconv
  | toggleMode => exact iff_of_true (fun hconv => by cases hconv) trivial
  | cancel => exact iff_of_true (fun hconv => by cases hconv) trivial

theorem tipInit_strings : Strings tipInit := ⟨tipInit_buffers, List.not_mem_nil⟩

-- In a run the clauses always have the whole reading if and only if every conversion had room for
-- it; a search has room for a reading exactly where its first clause does.
theorem reading_kept_iff {tr : List (TipContext × TipCall)} {reading : List UB}
    (htr : Trace TipStep tipInit tr c) (h0 : 0 ∉ reading) (hlen : reading.length ≤ 256) :
    ((KeepsReading c ∧ ∀ t ∈ tr, KeepsReading t.1) ↔ ∀ t ∈ tr, Fits t.1 t.2) ∧
      ((latticeSearch d reading maxClauses).flatMap (·.reading) = reading ↔
        LeadFits d reading) := by
  constructor
  · exact htr.forall_iff_within tipInit_strings (fun _ _ _ h hstep => exec_strings h hstep)
      (fun hconv => by cases hconv) fun _ _ _ h hk hstep => exec_keeps_iff h hk hstep
  · exact readings_whole_iff d reading h0 hlen

theorem reading_kept_iff_letter : KeepsReading (afterKeys [0x61, keyF9]) ∧
    (latticeSearch .empty (lit "a") maxClauses).flatMap (·.reading) = lit "a" := by
  have htr : Trace TipStep tipInit
      [(afterKeys [0x61], press keyF9), (tipInit, press 0x61)] (afterKeys [0x61, keyF9]) :=
    .next (.next .start rfl) rfl
  have hshort : (afterKeys [0x61]).readingBuf.length ≤ 63 := by decide
  have hkept := reading_kept_iff (d := .empty) htr (show 0 ∉ lit "a" by decide) (by decide)
  constructor
  · refine (hkept.1.mpr ?_).1
    simp [Fits, press, hshort, keyF4, keyF6, keyF7, keyF8, keyF9]
  · exact hkept.2.mpr (leadFits_of_length_le (by decide))

-- F9 on 22 letters `a`, whose reading takes 66 bytes, and a search for 96 words, of which the first
-- clause gets 65.
theorem reading_lost :
    (∃ tr, Trace TipStep tipInit tr (afterKeys (List.replicate 22 0x61 ++ [keyF9])) ∧
      ¬KeepsReading (afterKeys (List.replicate 22 0x61 ++ [keyF9]))) ∧
    (latticeSearch .empty (List.replicate 96 0x61) maxClauses).flatMap (·.reading) ≠
      List.replicate 96 0x61 := by
  constructor
  · obtain ⟨tr, htr⟩ := exists_trace_afterKeys (List.replicate 22 0x61 ++ [keyF9])
    refine ⟨tr, htr, fun h => ?_⟩
    have hwhole := h (by decide +kernel)
    revert hwhole
    decide +kernel
  · intro hwhole
    have hfits := (readings_whole_iff .empty _ (by decide) (by simp)).mp hwhole
    revert hfits
    unfold LeadFits
    decide +kernel

end Runs

end BTron.Tip
