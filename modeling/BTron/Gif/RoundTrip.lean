import BTron.Gif.Sync

namespace BTron.Gif

open Lib Lzw Relation

variable {p : Params} {g : Decoder} {table : List (List UB)} {w : List UB}

-- The width behind the first code: two entries more than the palette need no wider codes.
theorem grow_first (p : Params) :
    grow (firstCode p.minCodeSize) (p.minCodeSize + 1) = p.minCodeSize + 1 := by
  have hpow : 2 ^ 2 ≤ 2 ^ p.minCodeSize := Nat.pow_le_pow_right (by decide) p.accepted.1
  refine if_neg fun h => ?_
  simp only [firstCode, clearCode, Nat.pow_succ] at h
  omega

-- With the entry of the decoder the tables are the same.
theorem enter_entries {v : List UB} {old : Nat} (h : g.Entries p table)
    (hroom : g.nextCode < maxLzwDict) (hold : g.oldCode = some old)
    (hspells : Spells p.clearCode g.nextCode g.gifPrefix g.gifSuffix old v) (b : UB) :
    (g.enter b).Entries p (table ++ [v ++ [b]]) ∧
      (g.enter b).codeSize = grow (g.nextCode + 1) g.codeSize ∧
      g.nextCode ≤ (g.enter b).nextCode ∧
      ∀ i, i < g.nextCode → (g.enter b).gifPrefix i = g.gifPrefix i ∧
        (g.enter b).gifSuffix i = g.gifSuffix i := by
  have hclear := clear_le_next h
  unfold Decoder.enter
  rw [hold]
  dsimp only
  rw [if_pos hroom]
  have hsame : ∀ i, i < g.nextCode →
      (if i = g.nextCode then old else g.gifPrefix i) = g.gifPrefix i ∧
        (if i = g.nextCode then b else g.gifSuffix i) = g.gifSuffix i :=
    fun i hi => ⟨if_neg (by omega), if_neg (by omega)⟩
  refine ⟨⟨?_, ?_, hroom, ?_⟩, ?_, Nat.le_succ _, hsame⟩
  · intro c hc
    exact (hsame c (by omega)).2.trans (h.palette c hc)
  · rw [List.length_append, List.length_singleton, ← Nat.add_assoc, ← h.nextCode]
  · intro i hi
    rw [List.length_append, List.length_singleton] at hi
    by_cases hlast : i < table.length
    · rw [List.getElem_append_left hlast]
      exact (h.spells i hlast).frame (by omega) (Nat.le_succ _) hsame
    · obtain rfl : i = table.length := by omega
      rw [List.getElem_append_right le_rfl, ← h.nextCode]
      have hold' := hspells.frame (by omega) (Nat.le_succ _) hsame
      have hentry : Spells p.clearCode (g.nextCode + 1)
          (fun i => if i = g.nextCode then old else g.gifPrefix i)
          (fun i => if i = g.nextCode then b else g.gifSuffix i) g.nextCode
          (v ++ [if g.nextCode = g.nextCode then b else g.gifSuffix g.nextCode]) :=
        .entry (by omega) (Nat.lt_succ_self _) (by rw [if_pos rfl]; exact hold')
      simpa using hentry
  · dsimp only
    rw [Nat.one_shiftLeft]
    rfl

-- The strings are in the tables and nowhere else.
theorem Decoder.Entries.of_eq {f : Decoder} (h : g.Entries p table)
    (hpre : f.gifPrefix = g.gifPrefix) (hsuffix : f.gifSuffix = g.gifSuffix)
    (hnext : f.nextCode = g.nextCode) : f.Entries p table := by
  refine ⟨?_, ?_, ?_, ?_⟩
  · rw [hsuffix]
    exact h.palette
  · rw [hnext]
    exact h.nextCode
  · rw [hnext]
    exact h.room
  · rw [hpre, hsuffix, hnext]
    exact h.spells

theorem enter_sync {f : Decoder} {b : UB} (hsync : g.Sync p table w) (hhead : w.head? = some b)
    (hpre : f.gifPrefix = g.gifPrefix) (hsuffix : f.gifSuffix = g.gifSuffix)
    (hnext : f.nextCode = g.nextCode) (hold : f.oldCode = g.oldCode)
    (hsize : f.codeSize = g.codeSize) :
    (f.enter b).Entries p table ∧
      (f.enter b).codeSize = grow (firstCode p.minCodeSize + table.length) g.codeSize := by
  cases hsync with
  | fresh hentries hnone hwidth =>
      rw [Decoder.enter, hold, hnone]
      refine ⟨hentries.of_eq hpre hsuffix hnext, ?_⟩
      dsimp only
      rw [hsize, hwidth]
      exact (grow_first p).symm
  | @behind table v _ old b' hentries hroom hprev hspells hfirst hhead' =>
      obtain rfl := Option.some.inj (hhead'.symm.trans hhead)
      rw [← hnext] at hroom
      rw [← hold] at hprev
      rw [← hpre, ← hsuffix, ← hnext] at hspells
      have hf := hentries.of_eq hpre hsuffix hnext
      obtain ⟨henter, hgrow, _⟩ := enter_entries hf hroom hprev hspells b'
      refine ⟨henter, ?_⟩
      rw [hgrow, hf.nextCode, hsize, List.length_append, List.length_singleton, Nat.add_assoc]

-- A code is decoded to its string, and the tables are the same behind it.
theorem decode_sync (hinv : g.Inv p) (hrun : g.gifRaw.length < p.totalPixels)
    (hsync : g.Sync p table w) (hpalette : ∀ b ∈ w, b.toNat < 2 ^ p.minCodeSize)
    (hw : Known table w) :
    ∃ g', g.decode p (code p.minCodeSize table w) = some g' ∧ g'.After p table w ∧
      g'.codeSize = grow (firstCode p.minCodeSize + table.length) g.codeSize ∧
      g'.gifRaw = (g.gifRaw ++ w).take p.totalPixels.toNat := by
  obtain ⟨b, rest, hb, hunwind⟩ := unwind_sync hsync (hinv.stack hrun) hpalette hw
  obtain ⟨f, hf⟩ := exists_flush hinv w
  have hdecode : g.decode p (code p.minCodeSize table w) = some { f.enter b with
      oldCode := some (code p.minCodeSize table w)
      firstChar := b } := by
    simp only [Decoder.decode, hunwind, hf, Option.bind_eq_bind, Option.bind_some]
  have hhead : w.head? = some b := by rw [hb]; rfl
  obtain ⟨hpre, hsuffix, hnext, hold, hsize⟩ := flush_keeps hf
  obtain ⟨hentries, hgrow⟩ := enter_sync hsync hhead hpre hsuffix hnext hold hsize
  refine ⟨_, hdecode, ⟨hentries.of_eq rfl rfl rfl, ⟨_, rfl, hentries.known hpalette hw⟩, hhead⟩,
    hgrow, ?_⟩
  have htake : g.gifRaw.take p.totalPixels.toNat = g.gifRaw :=
    List.take_of_length_le (by omega)
  have hleft : (p.totalPixels - g.gifRaw.length).toNat = p.totalPixels.toNat - g.gifRaw.length := by
    omega
  rw [List.take_append, htake, ← hleft]
  exact (enter_keeps f b).1.trans (flush_spec hinv hf).2.2

theorem Decoder.Sync.take (h : g.Sync p table w) (source : BitSource) :
    Decoder.Sync p { g with source := source } table w := by
  cases h with
  | fresh hentries hold hsize => exact .fresh (hentries.of_eq rfl rfl rfl) hold hsize
  | behind hentries hroom hold hspells hfirst hhead =>
      exact .behind (hentries.of_eq rfl rfl rfl) hroom hold hspells hfirst hhead

-- The string goes on, and its first character stays.
theorem Decoder.Sync.longer (h : g.Sync p table w) (c : UB) : g.Sync p table (w ++ [c]) := by
  cases h with
  | fresh hentries hold hsize => exact .fresh hentries hold hsize
  | behind hentries hroom hold hspells hfirst hhead =>
      refine .behind hentries hroom hold hspells hfirst ?_
      rw [List.head?_append, hhead]
      rfl

theorem turn_sync (hinv : g.Inv p) (hrun : g.gifRaw.length < p.totalPixels)
    (hsync : g.Sync p table w) (hpalette : ∀ b ∈ w, b.toNat < 2 ^ p.minCodeSize)
    (hw : Known table w) (hfits : Fits p.minCodeSize table g.codeSize) {codes : List (Nat × Nat)}
    (hcodes : g.source.Codes ((code p.minCodeSize table w, g.codeSize) :: codes)) :
    ∃ g', gifTurn p g = .go g' ∧ g'.Inv p ∧ g'.After p table w ∧
      g'.codeSize = grow (firstCode p.minCodeSize + table.length) g.codeSize ∧
      g'.gifRaw = (g.gifRaw ++ w).take p.totalPixels.toNat ∧ g'.source.Codes codes := by
  have hlt : code p.minCodeSize table w < 2 ^ g.codeSize :=
    lt_of_lt_of_le (code_lt hpalette hw) hfits
  obtain ⟨source, htaken, hrest⟩ := getCode_codes hlt hcodes
  obtain ⟨hclear, heoi⟩ :
      code p.minCodeSize table w ≠ clearCode p.minCodeSize ∧
        code p.minCodeSize table w ≠ endCode p.minCodeSize := code_ne hpalette
  rw [← clearCode_eq] at hclear
  rw [← eoiCode_eq] at heoi
  have htakes : Takes p g (code p.minCodeSize table w) source := ⟨hrun, htaken, hclear, heoi⟩
  obtain ⟨g', hdecode, hafter, hgrow, hraw⟩ :=
    decode_sync (hinv.take source) hrun (hsync.take source) hpalette hw
  obtain ⟨hinv', hsource⟩ := decode_inv (hinv.take source) hdecode
  refine ⟨g', by rw [gifTurn_takes htakes, hdecode]; rfl, hinv', hafter, hgrow, hraw, ?_⟩
  rw [hsource]
  exact hrest

theorem turn_clear (hrun : g.gifRaw.length < p.totalPixels)
    (hfits : clearCode p.minCodeSize < 2 ^ g.codeSize) {codes : List (Nat × Nat)}
    (hcodes : g.source.Codes ((clearCode p.minCodeSize, g.codeSize) :: codes)) :
    ∃ source, gifTurn p g = .go ({ g with source := source }.clear p) ∧ source.Codes codes := by
  obtain ⟨source, htaken, hrest⟩ := getCode_codes hfits hcodes
  refine ⟨source, ?_, hrest⟩
  rw [gifTurn, if_pos hrun, htaken]
  dsimp only
  rw [if_pos (clearCode_eq p).symm]

theorem turn_end (hrun : g.gifRaw.length < p.totalPixels)
    (hfits : endCode p.minCodeSize < 2 ^ g.codeSize) {codes : List (Nat × Nat)}
    (hcodes : g.source.Codes ((endCode p.minCodeSize, g.codeSize) :: codes)) :
    gifTurn p g = .leave := by
  obtain ⟨source, htaken, _⟩ := getCode_codes hfits hcodes
  have hne : endCode p.minCodeSize ≠ p.clearCode := by
    rw [clearCode_eq]
    exact Nat.succ_ne_self _
  rw [gifTurn, if_pos hrun, htaken]
  dsimp only
  rw [if_neg hne, if_pos (eoiCode_eq p).symm]

-- The loop is left from a state that is reached, with the pixels.
def Yields (p : Params) (g : Decoder) (pixels : List UB) : Prop :=
  ∃ t, Reaches (gifStep p) g t ∧ gifTurn p t = .leave ∧ t.gifRaw = pixels.take p.totalPixels.toNat

theorem Yields.next {g' : Decoder} {pixels : List UB} (h : gifTurn p g = .go g')
    (hy : Yields p g' pixels) : Yields p g pixels := by
  obtain ⟨t, hr, hleave, hraw⟩ := hy
  exact ⟨t, .head (gifStep_eq_some.mpr h) hr, hleave, hraw⟩

-- With all pixels stored the rest of the data is not read.
theorem Yields.full {l rest : List UB} (hfull : ¬g.gifRaw.length < p.totalPixels)
    (hraw : g.gifRaw = l.take p.totalPixels.toNat) : Yields p g (l ++ rest) := by
  refine ⟨g, .refl, if_neg hfull, ?_⟩
  have hlen : g.gifRaw.length ≤ l.length := by
    rw [hraw]
    exact List.length_take_le' ..
  rw [hraw, List.take_append_of_le_length (by omega)]

theorem raw_eq {l : List UB} (hrun : g.gifRaw.length < p.totalPixels)
    (hraw : g.gifRaw = l.take p.totalPixels.toNat) : g.gifRaw = l := by
  have hlen := congrArg List.length hraw
  rw [List.length_take] at hlen
  rw [hraw, List.take_of_length_le (by omega)]

-- Over what is still to be encoded: a longer string is the same code, another string is a turn
-- of the decoder.
theorem yields_encodeFrom {rest : List UB} (hinv : g.Inv p)
    (hrun : g.gifRaw.length < p.totalPixels) (hsync : g.Sync p table w)
    (hpalette : ∀ b ∈ w ++ rest, b.toNat < 2 ^ p.minCodeSize) (hw : Known table w)
    (hfits : Fits p.minCodeSize table g.codeSize)
    (hcodes : g.source.Codes (encodeFrom p.minCodeSize table w g.codeSize rest)) :
    Yields p g (g.gifRaw ++ w ++ rest) := by
  induction rest generalizing g table w with
  | nil =>
      rw [List.append_nil] at hpalette
      obtain ⟨g', hturn, hinv', hafter, hgrow, hraw, hrest⟩ :=
        turn_sync hinv hrun hsync hpalette hw hfits hcodes
      refine .next hturn ?_
      by_cases hmore : g'.gifRaw.length < p.totalPixels
      · refine ⟨g', .refl, ?_, by rw [List.append_nil]; exact hraw⟩
        rw [← hgrow] at hrest
        exact turn_end hmore (hfits.reserved (hgrow ▸ le_grow ..)).2 hrest
      · exact .full hmore hraw
  | cons b rest ih =>
      rw [encodeFrom] at hcodes
      by_cases hmem : w ++ [b] ∈ table
      · rw [if_pos hmem] at hcodes
        have hlonger :=
          ih hinv hrun (hsync.longer b) (by simpa using hpalette) (.inr hmem) hfits hcodes
        simpa using hlonger
      · rw [if_neg hmem] at hcodes
        obtain ⟨hleft, hright⟩ := List.forall_mem_append.mp hpalette
        obtain ⟨g', hturn, hinv', hafter, hgrow, hraw, hrest⟩ :=
          turn_sync hinv hrun hsync hleft hw hfits hcodes
        refine .next hturn ?_
        by_cases hmore : g'.gifRaw.length < p.totalPixels
        · have hpixels : g'.gifRaw ++ [b] ++ rest = g.gifRaw ++ w ++ b :: rest := by
            rw [raw_eq hmore hraw]
            simp
          rw [← hpixels]
          rw [← hgrow] at hrest
          split at hrest
          · rename_i hroom
            exact ih hinv' hmore (hafter.sync hroom b) hright (.inl ⟨b, rfl⟩)
              (hgrow ▸ fits_append hfits hroom _) hrest
          · have hclear := (hfits.reserved (hgrow ▸ le_grow ..)).1
            obtain ⟨source, hturn', hrest'⟩ := turn_clear hmore hclear hrest
            refine .next hturn' ?_
            have hinv'' := step_inv hinv' (gifStep_eq_some.mpr hturn')
            have hsync' := (clear_sync hafter.entries.palette [b]).take source
            have hfits' : Fits p.minCodeSize [] (p.minCodeSize + 1) :=
              fits_nil (by have := p.accepted; omega)
            exact ih hinv'' hmore hsync' hright (.inl ⟨b, rfl⟩) hfits' hrest'
        · exact .full hmore hraw

theorem encodeFrom_fits {m : Nat} (hm : 1 ≤ m) {table : List (List UB)} {w rest : List UB}
    {width : Nat} (hpalette : ∀ b ∈ w ++ rest, b.toNat < 2 ^ m) (hw : Known table w)
    (hfits : Fits m table width) : ∀ f ∈ encodeFrom m table w width rest, f.1 < 2 ^ f.2 := by
  induction rest generalizing table w width with
  | nil =>
      rw [List.append_nil] at hpalette
      simp only [encodeFrom, List.forall_mem_cons]
      exact ⟨lt_of_lt_of_le (code_lt hpalette hw) hfits, (hfits.reserved (le_grow ..)).2, by simp⟩
  | cons b rest ih =>
      obtain ⟨hleft, hright⟩ := List.forall_mem_append.mp hpalette
      rw [encodeFrom]
      split
      · rename_i hmem
        exact ih (by simpa using hpalette) (.inr hmem) hfits
      · rw [List.forall_mem_cons]
        refine ⟨lt_of_lt_of_le (code_lt hleft hw) hfits, ?_⟩
        split
        · rename_i hroom
          exact ih hright (.inl ⟨b, rfl⟩) (fits_append hfits hroom _)
        · rw [List.forall_mem_cons]
          exact ⟨(hfits.reserved (le_grow ..)).1, ih hright (.inl ⟨b, rfl⟩) (fits_nil hm)⟩

theorem encode_fits {m : Nat} (hm : 1 ≤ m) {pixels : List UB}
    (hpalette : ∀ b ∈ pixels, b.toNat < 2 ^ m) : ∀ f ∈ encode m pixels, f.1 < 2 ^ f.2 := by
  have hreserved := (fits_nil hm).reserved le_rfl
  cases pixels with
  | nil =>
      simp only [encode, List.forall_mem_cons]
      exact ⟨hreserved.1, hreserved.2, by simp⟩
  | cons b rest =>
      rw [encode, List.forall_mem_cons]
      exact ⟨hreserved.1, encodeFrom_fits hm hpalette (.inl ⟨b, rfl⟩) (fits_nil hm)⟩

theorem yields_encode {start : Decoder} (hinv : start.Inv p) (hraw : start.gifRaw = [])
    (hsize : start.codeSize = p.minCodeSize + 1)
    (hstart : ∀ c < p.clearCode, start.gifSuffix c = UInt8.ofNat c) {pixels : List UB}
    (hpalette : ∀ b ∈ pixels, b.toNat < 2 ^ p.minCodeSize)
    (hcodes : start.source.Codes (encode p.minCodeSize pixels)) : Yields p start pixels := by
  have hfits : Fits p.minCodeSize [] (p.minCodeSize + 1) :=
    fits_nil (by have := p.accepted; omega)
  obtain ⟨hclear, hend⟩ := hfits.reserved le_rfl
  by_cases hrun : start.gifRaw.length < p.totalPixels
  · rw [← hsize] at hclear
    cases pixels with
    | nil =>
        rw [encode, ← hsize] at hcodes
        obtain ⟨source, hturn, hrest⟩ := turn_clear hrun hclear hcodes
        rw [hsize] at hrest
        exact .next hturn ⟨_, .refl, turn_end hrun hend hrest, by simp [Decoder.clear, hraw]⟩
    | cons b rest =>
        rw [encode, ← hsize] at hcodes
        obtain ⟨source, hturn, hrest⟩ := turn_clear hrun hclear hcodes
        rw [hsize] at hrest
        have hinv' := step_inv hinv (gifStep_eq_some.mpr hturn)
        have hsync := (clear_sync hstart [b]).take source
        have hpixels : start.gifRaw ++ [b] ++ rest = b :: rest := by
          rw [hraw]
          rfl
        refine .next hturn ?_
        rw [← hpixels]
        exact yields_encodeFrom hinv' hrun hsync hpalette (.inl ⟨b, rfl⟩) hfits hrest
  · exact .full (l := []) hrun (by rw [hraw, List.take_nil])

theorem totalPixels_mono (imgW imgH : Nat) {a b : Nat} (h : a ≤ b) :
    totalPixels imgW imgH a ≤ totalPixels imgW imgH b := by
  unfold totalPixels
  dsimp only
  split <;> split <;> omega

theorem gifParams_minCodeSize {minCodeSize : Nat} (accepted : 2 ≤ minCodeSize ∧ minCodeSize ≤ 8)
    (imgW imgH : Nat) : (gifParams minCodeSize imgW imgH).minCodeSize = minCodeSize := by
  simp only [gifParams]
  rw [if_neg (by omega), Int.toNat_natCast]

-- Both decoders give back the pixels that were encoded, as many as the image has and they have
-- room for.
theorem gif_yields_encoded {minCodeSize : Nat} (accepted : 2 ≤ minCodeSize ∧ minCodeSize ≤ 8)
    {pixels : List UB} (hpalette : ∀ b ∈ pixels, b.toNat < 2 ^ minCodeSize)
    {blocks : List (List UB)} (hblocks : ∀ b ∈ blocks, b ≠ [] ∧ b.length ≤ 255)
    (hdata : blocks.flatten = Bits.packBytes (encode minCodeSize pixels)) (tail : List UB)
    (imgW imgH : Nat) (stalePrefix : Nat → Nat) (staleSuffix : Nat → UB)
    (aboutStalePrefix : Nat → Nat) (aboutStaleSuffix : Nat → UB) :
    let p := gifParams minCodeSize imgW imgH
    let q := aboutGifParams minCodeSize accepted imgW imgH
    let file := frame blocks ++ 0 :: tail
    ∃ t t', Reaches (gifStep p) (gifStart p stalePrefix staleSuffix file) t ∧
      gifTurn p t = .leave ∧
      Reaches (gifStep q) (gifStart q aboutStalePrefix aboutStaleSuffix file) t' ∧
      gifTurn q t' = .leave ∧
      (pixels.length ≤ p.totalPixels → t.gifRaw = pixels) ∧
      (pixels.length ≤ q.totalPixels → t'.gifRaw = pixels ∧ t'.gifRaw = t.gifRaw) := by
  intro p q file
  have hsize : p.minCodeSize = minCodeSize := gifParams_minCodeSize accepted imgW imgH
  have hcodes := start_codes (encode_fits (by omega) hpalette) hblocks hdata tail
  have hle : q.totalPixels ≤ p.totalPixels := totalPixels_mono imgW imgH (by decide)
  have hp : Yields p (gifStart p stalePrefix staleSuffix file) pixels :=
    yields_encode (start_inv ..) rfl rfl (fun c hc => if_pos hc) (hsize.symm ▸ hpalette)
      (hsize.symm ▸ hcodes)
  have hq : Yields q (gifStart q aboutStalePrefix aboutStaleSuffix file) pixels :=
    yields_encode (start_inv ..) rfl rfl (fun c hc => if_pos hc) hpalette hcodes
  obtain ⟨t, hr, hleave, hraw⟩ := hp
  obtain ⟨t', hr', hleave', hraw'⟩ := hq
  refine ⟨t, t', hr, hleave, hr', hleave', fun hlen => ?_, fun hlen => ?_⟩
  · rw [hraw, List.take_of_length_le (by omega)]
  · rw [hraw, hraw', List.take_of_length_le (by omega), List.take_of_length_le (by omega)]
    exact ⟨rfl, rfl⟩

-- Three pixels of one colour, the code of the last two in no entry of the decoder yet.
theorem gif_yields_encoded_three :
    ∃ t, Reaches (gifStep (gifParams 2 3 1))
        (gifStart (gifParams 2 3 1) (fun _ => 0) (fun _ => 0) [2, 140, 11, 0]) t ∧
      t.gifRaw = [1, 1, 1] := by
  obtain ⟨t, _, hr, _, _, _, hraw, _⟩ := @gif_yields_encoded 2 (by decide) [1, 1, 1] (by simp)
    [[140, 11]] (by decide) (by decide) [] 3 1 (fun _ => 0) (fun _ => 0) (fun _ => 0) (fun _ => 0)
  exact ⟨t, hr, hraw (by decide)⟩

end BTron.Gif
