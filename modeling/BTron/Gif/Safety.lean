import BTron.Gif.Turns
import Mathlib.Order.Interval.Finset.Nat

namespace BTron.Gif

open Lib Relation

-- The codes whose prefixes the loop over them goes on to.
def Inside (clear : Nat) (cur : Nat) : Prop := clear ≤ cur ∧ cur < maxLzwDict

instance (clear : Nat) : DecidablePred (Inside clear) :=
  fun _ => inferInstanceAs (Decidable (_ ∧ _))

-- The prefixes of a code come to a code of the palette.
def Rooted (clear : Nat) (gifPrefix : Nat → Nat) (cur : Nat) : Prop :=
  ∃ n, Leaves (Inside clear) gifPrefix n cur ∧ gifPrefix^[n] cur < clear

-- The code that the string of a code taken is read from, which is the previous one where the
-- code is in no entry yet, comes to a code of the palette.
def Decoder.Decodable (p : Params) (g : Decoder) (code : Nat) : Prop :=
  ∃ cur, (if g.nextCode ≤ code then g.oldCode else some code) = some cur ∧
    Rooted p.clearCode g.gifPrefix cur

variable {clear : Nat} {gifPrefix : Nat → Nat} {gifSuffix : Nat → UB}

theorem exists_chain {n room cur : Nat} (gifSuffix : Nat → UB) (stack : List UB)
    (h : Leaves (Inside clear) gifPrefix n cur) (hroom : n ≤ room) :
    ∃ st, chain clear gifPrefix gifSuffix room stack cur = some (st, gifPrefix^[n] cur) ∧
      st.length = stack.length + n := by
  induction n generalizing room stack cur with
  | zero =>
      have hout : ¬(clear ≤ cur ∧ cur < maxLzwDict) := h
      cases room <;> exact ⟨stack, by rw [chain, if_neg hout]; rfl, rfl⟩
  | succ n ih =>
      obtain ⟨room, rfl⟩ : ∃ r, room = r + 1 := ⟨room - 1, by omega⟩
      have hin : clear ≤ cur ∧ cur < maxLzwDict := h.1
      obtain ⟨st, hst, hlen⟩ := ih (gifSuffix cur :: stack) h.2 (Nat.le_of_succ_le_succ hroom)
      refine ⟨st, by rw [chain, if_pos hin, hst]; rfl, ?_⟩
      rw [hlen, List.length_cons]
      omega

theorem leaves_of_chain {room cur last : Nat} {stack st : List UB}
    (h : chain clear gifPrefix gifSuffix room stack cur = some (st, last)) :
    ∃ n, Leaves (Inside clear) gifPrefix n cur ∧ last = gifPrefix^[n] cur := by
  induction room generalizing stack cur with
  | zero =>
      rw [chain] at h
      split at h
      · cases h
      · rename_i hout
        cases h
        exact ⟨0, hout, rfl⟩
  | succ room ih =>
      rw [chain] at h
      split at h
      · rename_i hin
        obtain ⟨n, hn, hlast⟩ := ih h
        exact ⟨n + 1, ⟨hin, hn⟩, hlast⟩
      · rename_i hout
        cases h
        exact ⟨0, hout, rfl⟩

theorem leaves_le_entries {n cur : Nat} (h : Leaves (Inside clear) gifPrefix n cur) :
    n ≤ maxLzwDict - clear := by
  rw [← Nat.card_Ico clear]
  exact h.le_card fun c hc => Finset.mem_Ico.mpr hc

theorem push_eq_some {stack : List UB} {b : UB} (h : stack.length < maxLzwDict + 1) :
    push stack b = some (b :: stack) := if_pos h

theorem clearCode_pos (p : Params) : 0 < p.clearCode := by
  rw [Params.clearCode, Nat.one_shiftLeft]
  exact Nat.two_pow_pos _

theorem clearCode_le (p : Params) : p.clearCode ≤ 256 := by
  rw [Params.clearCode, Nat.one_shiftLeft]
  exact Nat.pow_le_pow_right (by decide) p.accepted.2

-- A rooted string has room on the stack, behind one character of another.
theorem exists_spell {p : Params} {g : Decoder} {stack : List UB} {cur : Nat}
    (hstack : stack.length ≤ 1) (h : Rooted p.clearCode g.gifPrefix cur) :
    ∃ first st, g.spell p stack cur = some (first, first :: st) := by
  obtain ⟨n, hn, hroot⟩ := h
  have hentries := leaves_le_entries hn
  have hpos := clearCode_pos p
  have hle := clearCode_le p
  have hdict : maxLzwDict = 4096 := rfl
  obtain ⟨st, hst, hlen⟩ := exists_chain g.gifSuffix stack hn
    (show n ≤ maxLzwDict + 1 - stack.length by omega)
  refine ⟨g.gifSuffix (g.gifPrefix^[n] cur), st, ?_⟩
  simp only [Decoder.spell, hst, Option.bind_eq_bind, Option.bind_some]
  rw [if_pos (by omega), push_eq_some (by omega), Option.bind_some]

theorem rooted_of_spell {p : Params} {g : Decoder} {stack : List UB} {cur : Nat}
    {r : UB × List UB} (h : g.spell p stack cur = some r) :
    Rooted p.clearCode g.gifPrefix cur := by
  simp only [Decoder.spell, Option.bind_eq_bind, Option.bind_eq_some_iff] at h
  obtain ⟨⟨st, last⟩, hchain, h⟩ := h
  obtain ⟨n, hn, rfl⟩ := leaves_of_chain hchain
  dsimp only at h
  split at h
  · rename_i hlt
    have hout : ¬(p.clearCode ≤ g.gifPrefix^[n] cur ∧ g.gifPrefix^[n] cur < maxLzwDict) :=
      hn.not_inside
    exact ⟨n, hn, by omega⟩
  · cases h

theorem unwind_of_decodable {p : Params} {g : Decoder} {code : Nat} (hstack : g.gifStack = [])
    (h : g.Decodable p code) :
    ∃ first st, g.unwind p code = some (first, first :: st) := by
  obtain ⟨cur, hcur, hrooted⟩ := h
  unfold Decoder.unwind
  rw [hstack]
  split at hcur
  · rename_i hge
    rw [if_pos hge, push_eq_some (by decide), hcur]
    exact exists_spell (by simp) hrooted
  · rename_i hlt
    cases hcur
    rw [if_neg hlt]
    exact exists_spell (by simp) hrooted

theorem decodable_of_unwind {p : Params} {g : Decoder} {code : Nat} {r : UB × List UB}
    (h : g.unwind p code = some r) : g.Decodable p code := by
  unfold Decoder.unwind at h
  unfold Decoder.Decodable
  split at h
  · rename_i hge
    simp only [Option.bind_eq_bind, Option.bind_eq_some_iff] at h
    obtain ⟨_, _, cur, hcur, hspell⟩ := h
    exact ⟨cur, by rw [if_pos hge, hcur], rooted_of_spell hspell⟩
  · rename_i hlt
    exact ⟨code, if_neg hlt, rooted_of_spell h⟩

-- What holds in front of every turn.
structure Decoder.Inv (p : Params) (g : Decoder) : Prop where
  stack : g.gifRaw.length < p.totalPixels → g.gifStack = []
  room : g.gifRaw.length ≤ p.maxPixels
  codeSize : 0 < g.codeSize ∧ g.codeSize ≤ 12

theorem start_inv (p : Params) (stalePrefix : Nat → Nat) (staleSuffix : Nat → UB)
    (file : List UB) : (gifStart p stalePrefix staleSuffix file).Inv p where
  stack := fun _ => rfl
  room := Nat.zero_le _
  codeSize := ⟨Nat.succ_pos _, Nat.succ_le_of_lt (by have := p.accepted; omega)⟩

-- The pixels that are stored have room, and the stack is empty where more are to come.
theorem flush_spec {p : Params} {g f : Decoder} {stack : List UB} (hg : g.Inv p)
    (h : g.flush p stack = some f) :
    f.Inv p ∧ f.source = g.source ∧
      f.gifRaw = g.gifRaw ++ stack.take (p.totalPixels - g.gifRaw.length).toNat := by
  have hroom := hg.room
  have hfits := p.fits
  simp only [Decoder.flush] at h
  split at h
  · cases h
    refine ⟨⟨fun hrun => ?_, ?_, hg.codeSize⟩, rfl, ?_⟩
    · rw [List.length_append, List.length_take] at hrun
      exact List.drop_eq_nil_of_le (by omega)
    · rw [List.length_append, List.length_take]
      omega
    · dsimp only
      rw [Nat.min_comm, ← List.take_eq_take_min]
  · cases h

theorem exists_flush {p : Params} {g : Decoder} (hg : g.Inv p) (stack : List UB) :
    ∃ f, g.flush p stack = some f := by
  have hroom := hg.room
  have hfits := p.fits
  exact ⟨_, if_pos (by omega)⟩

-- The tables are not written.
theorem flush_keeps {p : Params} {g f : Decoder} {stack : List UB}
    (h : g.flush p stack = some f) :
    f.gifPrefix = g.gifPrefix ∧ f.gifSuffix = g.gifSuffix ∧ f.nextCode = g.nextCode ∧
      f.oldCode = g.oldCode ∧ f.codeSize = g.codeSize := by
  simp only [Decoder.flush] at h
  split at h
  · cases h
    exact ⟨rfl, rfl, rfl, rfl, rfl⟩
  · cases h

theorem enter_keeps (g : Decoder) (firstChar : UB) :
    (g.enter firstChar).gifRaw = g.gifRaw ∧ (g.enter firstChar).gifStack = g.gifStack ∧
      (g.enter firstChar).source = g.source := by
  unfold Decoder.enter
  split
  · exact ⟨rfl, rfl, rfl⟩
  · split <;> exact ⟨rfl, rfl, rfl⟩

theorem enter_codeSize {g : Decoder} (h : 0 < g.codeSize ∧ g.codeSize ≤ 12) (firstChar : UB) :
    0 < (g.enter firstChar).codeSize ∧ (g.enter firstChar).codeSize ≤ 12 := by
  unfold Decoder.enter
  split
  · exact h
  · split
    · dsimp only
      split <;> omega
    · exact h

theorem enter_inv {p : Params} {g : Decoder} (hg : g.Inv p) (firstChar : UB) :
    (g.enter firstChar).Inv p := by
  obtain ⟨hraw, hstack, _⟩ := enter_keeps g firstChar
  refine ⟨?_, ?_, enter_codeSize hg.codeSize firstChar⟩
  · rw [hraw, hstack]
    exact hg.stack
  · rw [hraw]
    exact hg.room

theorem decode_inv {p : Params} {g g' : Decoder} {code : Nat} (hg : g.Inv p)
    (h : g.decode p code = some g') : g'.Inv p ∧ g'.source = g.source := by
  obtain ⟨first, stack, f, _, hflush, rfl⟩ := decode_eq_some h
  obtain ⟨hf, hsource, _⟩ := flush_spec hg hflush
  have henter := enter_inv hf first
  exact ⟨⟨henter.stack, henter.room, henter.codeSize⟩, (enter_keeps f first).2.2.trans hsource⟩

theorem decode_gifRaw {p : Params} {g g' : Decoder} {code : Nat} (hg : g.Inv p)
    (h : g.decode p code = some g') :
    ∃ first stack, g.unwind p code = some (first, stack) ∧
      g'.gifRaw = g.gifRaw ++ stack.take (p.totalPixels - g.gifRaw.length).toNat := by
  obtain ⟨first, stack, f, hunwind, hflush, rfl⟩ := decode_eq_some h
  exact ⟨first, stack, hunwind, (enter_keeps f first).1.trans (flush_spec hg hflush).2.2⟩

-- What is taken from the data is no part of the invariant.
theorem Decoder.Inv.take {p : Params} {g : Decoder} (hg : g.Inv p) (source : BitSource) :
    Decoder.Inv p { g with source := source } := ⟨hg.stack, hg.room, hg.codeSize⟩

theorem step_inv {p : Params} {g g' : Decoder} (hg : g.Inv p) (h : gifStep p g = some g') :
    g'.Inv p := by
  obtain ⟨source, _, _, rfl⟩ | ⟨code, source, _, hdecode⟩ := gifStep_cases h
  · exact ⟨hg.stack, hg.room, Nat.succ_pos _, Nat.succ_le_of_lt (by have := p.accepted; omega)⟩
  · exact (decode_inv (hg.take source) hdecode).1

theorem reaches_inv {p : Params} {g g' : Decoder} (hg : g.Inv p) (h : Reaches (gifStep p) g g') :
    g'.Inv p :=
  run_preserves (P := Decoder.Inv p) (fun _ _ => step_inv) hg h

-- Every turn takes bits of the data.
theorem gif_halts {p : Params} {g : Decoder} (hg : g.Inv p) : Halts (gifStep p) g := by
  apply halts_of_measure fun g => g.source.size
  intro a b ha hb
  have hi := reaches_inv hg ha
  have hsize := hi.codeSize
  obtain ⟨source, _, hcode, rfl⟩ | ⟨code, source, htakes, hdecode⟩ := gifStep_cases hb
  · have := (getCode_spec hcode).2
    simp only [Decoder.clear]
    omega
  · have := (getCode_spec htakes.getCode).2
    rw [(decode_inv (hi.take source) hdecode).2]
    dsimp only
    omega

-- Every index is in range, and every pixel that is drawn is a cell of the array.
structure GifSafe (p : Params) (imgW : Nat) (start : Decoder) (drawn : Decoder → Prop)
    (reads : Nat → Nat → Prop) : Prop where
  halts : Halts (gifStep p) start
  inRange : ∀ g, Reaches (gifStep p) start g → gifTurn p g ≠ .fault
  readBack : ∀ g, Exits (gifStep p) start g → drawn g → ∀ x y, reads x y →
    0 ≤ rawIndex imgW x y ∧ rawIndex imgW x y < p.maxPixels

-- Every code that is taken has a string.
def Decodes (p : Params) (start : Decoder) : Prop :=
  ∀ g code source, Reaches (gifStep p) start g → Takes p g code source → g.Decodable p code

theorem decode_of_decodable {p : Params} {g : Decoder} {code : Nat} {source : BitSource}
    (hg : g.Inv p) (htakes : Takes p g code source) (h : g.Decodable p code) :
    ∃ g', gifTurn p g = .go g' ∧ g'.gifRaw ≠ [] := by
  obtain ⟨first, st, hunwind⟩ := unwind_of_decodable (g := { g with source := source })
    (hg.stack htakes.running) h
  obtain ⟨f, hf⟩ := exists_flush (hg.take source) (first :: st)
  have hgo : { g with source := source }.decode p code =
      some { f.enter first with oldCode := some code, firstChar := first } := by
    simp only [Decoder.decode, hunwind, hf, Option.bind_eq_bind, Option.bind_some]
  refine ⟨_, by rw [gifTurn_takes htakes, hgo]; rfl, ?_⟩
  obtain ⟨_, stack, hunwind', hraw⟩ := decode_gifRaw (hg.take source) hgo
  cases hunwind.symm.trans hunwind'
  have hrun := htakes.running
  obtain ⟨n, hn⟩ : ∃ n, (p.totalPixels - g.gifRaw.length).toNat = n + 1 :=
    ⟨(p.totalPixels - g.gifRaw.length).toNat - 1, by omega⟩
  rw [hraw]
  simp [hn]

theorem decodes_iff {p : Params} {start : Decoder} (hstart : start.Inv p) :
    (∀ g, Reaches (gifStep p) start g → gifTurn p g ≠ .fault) ↔ Decodes p start := by
  constructor
  · intro h g code source hr htakes
    have hgo := h g hr
    rw [gifTurn_takes htakes] at hgo
    cases hdecode : { g with source := source }.decode p code with
    | none => exact absurd (by rw [hdecode]; rfl) hgo
    | some g' =>
        obtain ⟨_, _, _, hunwind, _⟩ := decode_eq_some hdecode
        exact decodable_of_unwind hunwind
  · intro h g hr hfault
    obtain hleave | ⟨source, _, _, hgo⟩ | ⟨code, source, htakes⟩ := gifTurn_cases p g
    · cases hleave.symm.trans hfault
    · cases hgo.symm.trans hfault
    · obtain ⟨g', hgo, _⟩ := decode_of_decodable (reaches_inv hstart hr) htakes
        (h g code source hr htakes)
      cases hgo.symm.trans hfault

-- The pixels stay.
theorem gifRaw_ne_nil {p : Params} {g g' : Decoder} (hg : g.Inv p) (hraw : g.gifRaw ≠ [])
    (hr : Reaches (gifStep p) g g') : g'.gifRaw ≠ [] := by
  have hkeep : g'.Inv p ∧ g'.gifRaw ≠ [] := by
    refine run_preserves (P := fun g => Decoder.Inv p g ∧ g.gifRaw ≠ []) ?_ ⟨hg, hraw⟩ hr
    rintro s t ⟨hs, hne⟩ hstep
    refine ⟨step_inv hs hstep, ?_⟩
    obtain ⟨source, _, _, rfl⟩ | ⟨code, source, _, hdecode⟩ := gifStep_cases hstep
    · exact hne
    · obtain ⟨_, _, _, heq⟩ := decode_gifRaw (hs.take source) hdecode
      rw [heq]
      exact List.append_ne_nil_of_left_ne_nil hne _
  exact hkeep.2

theorem takes_of_gifRaw {p : Params} {start g : Decoder} (hnil : start.gifRaw = [])
    (hr : Reaches (gifStep p) start g) (hraw : g.gifRaw ≠ []) :
    ∃ g code source, Reaches (gifStep p) start g ∧ Takes p g code source := by
  by_contra hnone
  have hstay : g.gifRaw = [] := by
    clear hraw
    induction hr with
    | refl => exact hnil
    | tail hprev hstep ih =>
        obtain ⟨source, _, _, rfl⟩ | ⟨code, source, htakes, _⟩ := gifStep_cases hstep
        · exact ih
        · exact absurd ⟨_, _, _, hprev, htakes⟩ hnone
  exact hraw hstay

end BTron.Gif
