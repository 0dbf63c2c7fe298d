import Mathlib.Data.List.TakeDrop
import BTron.Mozc.Lattice

namespace BTron.Mozc

open Lib Lib.Relaxation

section Candidates

-- Candidates that fit their array, each with a text that fits its field.
structure Offered (max : Nat) (cs : List TipCandidate) : Prop where
  length_le : cs.length ≤ max
  value_fits : ∀ x ∈ cs, strncpy x.value 63 = x.value

variable {max : Nat} {cs : List TipCandidate} {value annotation : List UB} {cost : Nat}

theorem strncpy_strncpy (text : List UB) (n : Nat) : strncpy (strncpy text n) n = strncpy text n :=
  strncpy_eq (zero_notMem_strncpy text n) (List.length_take_le n _)

theorem offered_nil : Offered max [] := ⟨Nat.zero_le max, by simp⟩

theorem pushCandidate_offered (h : Offered max cs) :
    Offered max (pushCandidate max cs value annotation cost) := by
  unfold pushCandidate
  split
  · refine ⟨by rw [List.length_append, List.length_singleton]; omega, fun x hx => ?_⟩
    obtain hx | hx := List.mem_append.mp hx
    · exact h.value_fits x hx
    · rw [List.mem_singleton.mp hx]
      exact strncpy_strncpy value 63
  · exact h

theorem pushNew_offered (h : Offered max cs) :
    Offered max (pushNew max cs value annotation cost) := by
  unfold pushNew
  split
  · exact h
  · exact pushCandidate_offered h

theorem pushCandidate_ne_nil (hmax : 0 < max) :
    pushCandidate max cs value annotation cost ≠ [] := by
  unfold pushCandidate
  split
  · simp
  · rintro rfl
    simp at *
    omega

theorem pushNew_ne_nil (hmax : 0 < max) : pushNew max cs value annotation cost ≠ [] := by
  unfold pushNew
  split
  · rintro rfl
    simp at *
  · exact pushCandidate_ne_nil hmax

theorem foldl_offered {α : Type} {push : List TipCandidate → α → List TipCandidate}
    (hpush : ∀ cs a, Offered max cs → Offered max (push cs a)) (as : List α)
    (h : Offered max cs) : Offered max (as.foldl push cs) := by
  induction as generalizing cs with
  | nil => exact h
  | cons a as ih => exact ih (hpush cs a h)

theorem getCandidates_offered (d : UserDictionary) (behind : Memory) (reading : List UB) :
    Offered max (getCandidates d behind reading max) := by
  unfold getCandidates
  refine pushNew_offered (pushNew_offered ?_)
  apply foldl_offered (fun _ _ h => pushNew_offered h) _
  exact foldl_offered (fun _ _ h => pushCandidate_offered h) _ offered_nil

theorem getCandidates_ne_nil (d : UserDictionary) (behind : Memory) (reading : List UB)
    (hmax : 0 < max) : getCandidates d behind reading max ≠ [] := pushNew_ne_nil hmax

end Candidates

section Segments

variable {d : UserDictionary} {reading : List UB}

-- The words along the way back from the end of the reading, the first one first. A reading that
-- cannot be cut is one word.
def segments (d : UserDictionary) (reading : List UB) : List (List UB) :=
  spans reading (cuts (latticeDp d reading) reading.length reading.length)

-- The bounds leave room for 32 clauses, so the words before the last 31 share the first one.
def leadWords (d : UserDictionary) (reading : List UB) : List (List UB) :=
  (segments d reading).take (max 1 ((segments d reading).length - 31))

-- A clause has room for 63 bytes of its reading.
def LeadFits (d : UserDictionary) (reading : List UB) : Prop :=
  (leadWords d reading).flatten.length ≤ 63

theorem spans_cons (reading : List UB) (stop start : Nat) (bounds : List Nat) :
    spans reading (stop :: start :: bounds) =
      spans reading (start :: bounds) ++ [(reading.drop start).take (stop - start)] := by
  simp [spans]

variable (d reading) in
theorem spans_step {n j : Nat} (hpos : 0 < j) (hj : j ≤ n) :
    spans reading (cuts (latticeDp d reading) n j) =
      spans reading (cuts (latticeDp d reading) n ((latticeDp d reading j).prev.getD 0)) ++
        [(reading.drop ((latticeDp d reading j).prev.getD 0)).take
          (j - (latticeDp d reading j).prev.getD 0)] := by
  have hlinked := linked_latticeDp d reading
  have hlt := hlinked.prev_lt hpos
  obtain ⟨rest, hrest⟩ := hlinked.cuts_head (m := n) (Nat.le_of_lt (Nat.lt_of_lt_of_le hlt hj))
  rw [hlinked.cuts_step hpos hj, hrest, spans_cons]

theorem spans_flatten {n j : Nat} (hj : j ≤ n) :
    (spans reading (cuts (latticeDp d reading) n j)).flatten = reading.take j := by
  induction j using Nat.strong_induction_on with
  | _ j ih =>
      cases Nat.eq_zero_or_pos j with
      | inl hzero =>
          subst hzero
          rw [cuts_zero]
          rfl
      | inr hpos =>
          have hlt := (linked_latticeDp d reading).prev_lt hpos
          rw [spans_step d reading hpos hj, List.flatten_append, ih _ hlt (by omega),
            List.flatten_singleton, ← List.take_add, Nat.add_sub_cancel' (Nat.le_of_lt hlt)]

theorem segments_flatten (d : UserDictionary) (reading : List UB) :
    (segments d reading).flatten = reading := by
  rw [segments, spans_flatten (Nat.le_refl _), List.take_length]

-- A reading that fits a clause as a whole has room.
theorem leadFits_of_length_le (h : reading.length ≤ 63) : LeadFits d reading := by
  have hsplit : (segments d reading).flatten.length = (leadWords d reading).flatten.length +
      ((segments d reading).drop (max 1 ((segments d reading).length - 31))).flatten.length := by
    rw [← List.length_append, ← List.flatten_append, leadWords, List.take_append_drop]
  rw [segments_flatten] at hsplit
  unfold LeadFits
  omega

theorem spans_length_pos {n j : Nat} (hpos : 0 < j) (hj : j ≤ n) :
    0 < (spans reading (cuts (latticeDp d reading) n j)).length := by
  rw [spans_step d reading hpos hj, List.length_append, List.length_singleton]
  omega

-- A way back that is cut short has the words it leaves out in its first span.
theorem spans_short (fuel : Nat) {n j : Nat} (hpos : 0 < j) (hj : j ≤ n) {words : List (List UB)}
    (hwords : spans reading (cuts (latticeDp d reading) n j) = words) :
    spans reading (cuts (latticeDp d reading) (fuel + 1) j) =
      (words.take (max 1 (words.length - fuel))).flatten ::
        words.drop (max 1 (words.length - fuel)) := by
  induction fuel generalizing j words with
  | zero =>
      have hlen : 0 < words.length := by
        rw [← hwords]
        exact spans_length_pos hpos hj
      have hcuts : cuts (latticeDp d reading) 1 j = [j, 0] := by
        unfold cuts
        rw [if_pos hpos]
        rfl
      rw [hcuts, Nat.sub_zero, max_eq_right hlen, List.take_length, List.drop_length, ← hwords,
        spans_flatten hj]
      rfl
  | succ fuel ih =>
      have hlt := (linked_latticeDp d reading).prev_lt hpos
      have hstep := spans_step d reading hpos hj
      have hcuts : cuts (latticeDp d reading) (fuel + 2) j =
          j :: cuts (latticeDp d reading) (fuel + 1) ((latticeDp d reading j).prev.getD 0) := by
        conv_lhs => unfold cuts
        rw [if_pos hpos]
      cases Nat.eq_zero_or_pos ((latticeDp d reading j).prev.getD 0) with
      | inl hzero =>
          rw [hzero, cuts_zero] at hcuts hstep
          rw [← hwords, hcuts, hstep, spans_cons]
          simp [spans]
      | inr hprev =>
          have hshort := ih hprev (by omega) rfl
          have hlen : 0 < (spans reading (cuts (latticeDp d reading) n
              ((latticeDp d reading j).prev.getD 0))).length := spans_length_pos hprev (by omega)
          obtain ⟨rest, hrest⟩ : ∃ rest,
              cuts (latticeDp d reading) (fuel + 1) ((latticeDp d reading j).prev.getD 0) =
                (latticeDp d reading j).prev.getD 0 :: rest := by
            unfold cuts
            rw [if_pos hprev]
            exact ⟨_, rfl⟩
          rw [hcuts, hrest, spans_cons, ← hrest, hshort, ← hwords, hstep]
          -- the words left out do not reach the last one
          generalize spans reading (cuts (latticeDp d reading) n _) = before at hlen
          have hlead : max 1 (before.length + 1 - (fuel + 1)) = max 1 (before.length - fuel) := by
            omega
          rw [List.length_append, List.length_singleton, hlead,
            List.take_append_of_le_length (by omega), List.drop_append_of_le_length (by omega),
            List.cons_append]

theorem charLen_le (c : UB) : charLen c ≤ 63 := by
  unfold charLen
  split_ifs <;> decide

theorem systemDictionary_length : ∀ e ∈ systemDictionary, e.reading.length ≤ 63 :=
  fun e he => Nat.le_of_lt (systemDictionary_words e he).2.1

theorem piece_len {rest : List UB} {e : Edge MozcPos} (h : Piece d rest e) : e.len ≤ 63 := by
  cases h with
  | user hw _ => exact (d.registered _ hw).reading_length
  | system hw _ => exact systemDictionary_length _ hw
  | dear => exact charLen_le _
  | cheap => exact charLen_le _

-- No word is too long for a clause.
theorem word_length {n j : Nat} (hj : j ≤ n) (hcost : (latticeDp d reading j).cost < 9999999) :
    ∀ w ∈ spans reading (cuts (latticeDp d reading) n j), w.length ≤ 63 := by
  induction j using Nat.strong_induction_on with
  | _ j ih =>
      cases Nat.eq_zero_or_pos j with
      | inl hzero =>
          subst hzero
          rw [cuts_zero]
          simp [spans]
      | inr hpos =>
          have hlinked := linked_latticeDp d reading
          obtain ⟨i, hprev⟩ := hlinked.exists_prev hpos hcost
          obtain ⟨hi, e, he, hlen, rfl⟩ := hlinked.step_back hprev
          have he63 := piece_len (mem_edgesAt.mp he)
          rw [spans_step d reading hpos hj, hprev]
          intro w hw
          obtain hw | hw := List.mem_append.mp hw
          · exact ih i (by omega) (by omega) hi w hw
          · rw [List.mem_singleton.mp hw, Option.getD_some]
            have htake := List.length_take_le (i + e.len - i) (reading.drop i)
            omega

end Segments

section Clauses

variable {d : UserDictionary} {reading : List UB}

theorem clauseOf_reading (d : UserDictionary) (reading : List UB) :
    (clauseOf d reading).reading = reading := rfl

-- Words that fit are copied whole.
theorem map_take_of_le {words : List (List UB)} (h : ∀ w ∈ words, w.length ≤ 63) :
    words.map (List.take 63) = words := by
  rw [List.map_congr_left fun w hw => List.take_of_length_le (h w hw), List.map_id']

-- The first span and the words behind it.
theorem latticeSearch_reached {i : Nat} (hne : reading ≠ []) (hlen : reading.length ≤ 256)
    (hprev : (latticeDp d reading reading.length).prev = some i) :
    latticeSearch d reading maxClauses =
      ((leadWords d reading).flatten ::
        (segments d reading).drop (max 1 ((segments d reading).length - 31))).map
          fun span => clauseOf d (span.take 63) := by
  have hpos := List.length_pos_iff.mpr hne
  have hshort := spans_short 31 hpos (Nat.le_refl _) (rfl : _ = segments d reading)
  unfold latticeSearch
  rw [if_neg hne, List.take_of_length_le hlen]
  simp only [hprev]
  rw [show maxClauses = 31 + 1 from rfl, hshort, List.take_of_length_le]
  · rfl
  · simp only [List.length_map, List.length_cons, List.length_drop]
    omega

theorem latticeSearch_unreached (hne : reading ≠ []) (hlen : reading.length ≤ 256)
    (hprev : (latticeDp d reading reading.length).prev = none) :
    latticeSearch d reading maxClauses = [clauseOf d (strncpy reading 63)] := by
  unfold latticeSearch
  rw [if_neg hne, List.take_of_length_le hlen]
  simp only [hprev]

-- The clauses have the whole reading if and only if the first one has room for its words.
theorem readings_whole_iff (d : UserDictionary) (reading : List UB) (h0 : 0 ∉ reading)
    (hlen : reading.length ≤ 256) :
    (latticeSearch d reading maxClauses).flatMap (·.reading) = reading ↔ LeadFits d reading := by
  by_cases hne : reading = []
  · subst hne
    simp [latticeSearch, LeadFits, leadWords, segments, cuts_zero, spans]
  have hpos := List.length_pos_iff.mpr hne
  have hflat := segments_flatten d reading
  cases hprev : (latticeDp d reading reading.length).prev with
  | none =>
      have hone : segments d reading = [reading] := by
        rw [segments, spans_step d reading hpos (Nat.le_refl _), hprev, Option.getD_none, cuts_zero]
        simp [spans]
      rw [latticeSearch_unreached hne hlen hprev, LeadFits, leadWords, hone]
      simp [clauseOf_reading, strncpy, cstr_eq h0, List.take_eq_self_iff]
  | some i =>
      have hwords := word_length (Nat.le_refl _) ((linked_latticeDp d reading).lt_of_prev hprev).2
      have hrest : ∀ w ∈ (segments d reading).drop (max 1 ((segments d reading).length - 31)),
          w.length ≤ 63 := fun w hw => hwords w (List.mem_of_mem_drop hw)
      rw [latticeSearch_reached hne hlen hprev, List.flatMap_map]
      simp only [clauseOf_reading]
      rw [List.flatMap_def, List.map_cons, map_take_of_le hrest]
      conv_lhs =>
        rhs
        rw [← hflat, ← List.take_append_drop (max 1 ((segments d reading).length - 31))
          (segments d reading), List.flatten_append]
      rw [List.flatten_cons, List.append_left_inj]
      exact List.take_eq_self_iff _

theorem latticeSearch_length_le (d : UserDictionary) (reading : List UB) :
    (latticeSearch d reading maxClauses).length ≤ maxClauses := by
  unfold latticeSearch
  split_ifs
  · exact Nat.zero_le _
  · dsimp only
    split
    · exact Nat.le_add_left 1 31
    · exact List.length_take_le _ _

theorem latticeSearch_pos (d : UserDictionary) (hne : reading ≠ []) :
    0 < (latticeSearch d reading maxClauses).length := by
  unfold latticeSearch
  rw [if_neg hne]
  dsimp only
  split
  · exact Nat.one_pos
  · have hpos : 0 < (reading.take 256).length := by
      have hlen := List.length_pos_iff.mpr hne
      rw [List.length_take]
      omega
    have hshort := spans_short 31 hpos (Nat.le_refl _)
      (rfl : _ = segments d (reading.take 256))
    rw [show maxClauses = 31 + 1 from rfl, hshort, List.map_cons, List.take_succ_cons]
    exact Nat.succ_pos _

theorem mem_latticeSearch {max : Nat} {cl : TipClause} (h : cl ∈ latticeSearch d reading max) :
    ∃ text, cl = clauseOf d text := by
  unfold latticeSearch at h
  split_ifs at h
  · simp at h
  · dsimp only at h
    split at h
    · exact ⟨_, List.mem_singleton.mp h⟩
    · obtain ⟨text, -, rfl⟩ := List.mem_map.mp (List.mem_of_mem_take h)
      exact ⟨_, rfl⟩

theorem clauseOf_offered (d : UserDictionary) (text : List UB) :
    Offered maxCandidates (clauseOf d text).candidates := getCandidates_offered d _ text

theorem clauseOf_pos (d : UserDictionary) (text : List UB) :
    0 < (clauseOf d text).numCandidates :=
  List.length_pos_iff.mpr (getCandidates_ne_nil d _ text (by decide))

-- The first candidate is shown.
theorem clauseOf_converted (d : UserDictionary) (text : List UB) :
    ∃ x ∈ (clauseOf d text).candidates, (clauseOf d text).converted = x.value := by
  obtain ⟨x, xs, hcs⟩ := List.exists_cons_of_ne_nil (List.length_pos_iff.mp (clauseOf_pos d text))
  refine ⟨x, by rw [hcs]; exact List.mem_cons_self, ?_⟩
  have hfits := (clauseOf_offered d text).value_fits x (by rw [hcs]; exact List.mem_cons_self)
  have hcs' : getCandidates d (fun _ => 0) text maxCandidates = x :: xs := hcs
  simp only [clauseOf, hcs', List.head?_cons, Option.map_some, Option.getD_some, hfits]

end Clauses

end BTron.Mozc
