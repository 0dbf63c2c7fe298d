import BTron.Gif.Safety

namespace BTron.Gif

open Lib Relation

-- Every code that is taken is in an entry or, behind another code, in the one to be made.
def Follows (p : Params) (start : Decoder) : Prop :=
  ∀ g code source, Reaches (gifStep p) start g → Takes p g code source →
    code ≤ g.nextCode ∧ (g.oldCode = none → code < g.nextCode)

-- The entries made since the codes were cleared: each is made from an earlier code.
structure Decoder.Table (p : Params) (g : Decoder) : Prop where
  nextCode : p.eoiCode < g.nextCode ∧ g.nextCode ≤ maxLzwDict
  entries : ∀ c, p.eoiCode < c → c < g.nextCode →
    g.gifPrefix c < c ∧ g.gifPrefix c ≠ p.clearCode ∧ g.gifPrefix c ≠ p.eoiCode
  oldCode : ∀ old, g.oldCode = some old →
    old < g.nextCode ∧ old ≠ p.clearCode ∧ old ≠ p.eoiCode

theorem rooted_of_table {p : Params} {g : Decoder} (hg : g.Table p) {c : Nat}
    (hc : c < g.nextCode ∧ c ≠ p.clearCode ∧ c ≠ p.eoiCode) :
    Rooted p.clearCode g.gifPrefix c := by
  have hnext := hg.nextCode
  have hdown : ∀ a, (a < g.nextCode ∧ a ≠ p.clearCode ∧ a ≠ p.eoiCode) → Inside p.clearCode a →
      (g.gifPrefix a < g.nextCode ∧ g.gifPrefix a ≠ p.clearCode ∧ g.gifPrefix a ≠ p.eoiCode) ∧
        id (g.gifPrefix a) < id a := by
    rintro a ⟨hlt, hclear, heoi⟩ ⟨hge, _⟩
    have heoi' : p.eoiCode = p.clearCode + 1 := rfl
    obtain ⟨hless, hne⟩ := hg.entries a (by omega) hlt
    exact ⟨⟨hless.trans hlt, hne⟩, hless⟩
  obtain ⟨n, hn, hend, _⟩ := exists_leaves id hdown hc
  have hout := hn.not_inside
  simp only [Inside] at hout
  exact ⟨n, hn, by omega⟩

theorem decodable_of_table {p : Params} {g : Decoder} {code : Nat} {source : BitSource}
    (hg : g.Table p) (htakes : Takes p g code source)
    (hcode : code ≤ g.nextCode ∧ (g.oldCode = none → code < g.nextCode)) :
    g.Decodable p code := by
  unfold Decoder.Decodable
  split
  · rename_i hge
    cases hold : g.oldCode with
    | none => exact absurd (hcode.2 hold) (by omega)
    | some old => exact ⟨old, rfl, rooted_of_table hg (hg.oldCode old hold)⟩
  · exact ⟨code, rfl, rooted_of_table hg ⟨by omega, htakes.ne_clear, htakes.ne_eoi⟩⟩

theorem start_table (p : Params) (stalePrefix : Nat → Nat) (staleSuffix : Nat → UB)
    (file : List UB) : (gifStart p stalePrefix staleSuffix file).Table p := by
  have hle := clearCode_le p
  have heoi : p.eoiCode = p.clearCode + 1 := rfl
  have hdict : maxLzwDict = 4096 := rfl
  refine ⟨⟨Nat.lt_succ_self _, by simp only [gifStart]; omega⟩, fun c hc hlt => ?_,
    fun old hold => by cases hold⟩
  simp only [gifStart] at hlt
  omega

theorem clear_table (p : Params) (g : Decoder) : (g.clear p).Table p := by
  have hle := clearCode_le p
  have heoi : p.eoiCode = p.clearCode + 1 := rfl
  have hdict : maxLzwDict = 4096 := rfl
  refine ⟨⟨Nat.lt_succ_self _, by simp only [Decoder.clear]; omega⟩, fun c hc hlt => ?_,
    fun old hold => by cases hold⟩
  simp only [Decoder.clear] at hlt
  omega

-- The entry made behind a code, and the code taken as the previous one of the next.
theorem enter_table {p : Params} {g : Decoder} {code : Nat} (hg : g.Table p)
    (hcode : code ≤ g.nextCode ∧ (g.oldCode = none → code < g.nextCode)) (hdict : code < maxLzwDict)
    (hclear : code ≠ p.clearCode) (heoi : code ≠ p.eoiCode) (firstChar : UB) :
    Decoder.Table p { g.enter firstChar with oldCode := some code, firstChar := firstChar } := by
  have hnext := hg.nextCode
  unfold Decoder.enter
  split
  · rename_i hold
    refine ⟨hnext, hg.entries, ?_⟩
    rintro _ ⟨⟩
    exact ⟨hcode.2 hold, hclear, heoi⟩
  · rename_i old hold
    have hprev := hg.oldCode old hold
    split
    · refine ⟨⟨by dsimp only; omega, by dsimp only; omega⟩, fun c hc hlt => ?_, ?_⟩
      · dsimp only at hlt ⊢
        split
        · omega
        · exact hg.entries c hc (by omega)
      · rintro _ ⟨⟩
        exact ⟨by dsimp only; omega, hclear, heoi⟩
    · refine ⟨hnext, hg.entries, ?_⟩
      rintro _ ⟨⟩
      exact ⟨by dsimp only; omega, hclear, heoi⟩

theorem decode_table {p : Params} {g g' : Decoder} {code : Nat} (hg : g.Table p)
    (hcode : code ≤ g.nextCode ∧ (g.oldCode = none → code < g.nextCode)) (hdict : code < maxLzwDict)
    (hclear : code ≠ p.clearCode) (heoi : code ≠ p.eoiCode) (h : g.decode p code = some g') :
    g'.Table p := by
  obtain ⟨first, stack, f, _, hflush, rfl⟩ := decode_eq_some h
  obtain ⟨hpre, _, hnext, hold, _⟩ := flush_keeps hflush
  rw [← hnext, ← hold] at hcode
  refine enter_table ⟨?_, ?_, ?_⟩ hcode hdict hclear heoi first
  · rw [hnext]
    exact hg.nextCode
  · rw [hnext, hpre]
    exact hg.entries
  · rw [hnext, hold]
    exact hg.oldCode

theorem takes_lt {p : Params} {g : Decoder} {code : Nat} {source : BitSource} (hg : g.Inv p)
    (htakes : Takes p g code source) : code < maxLzwDict := by
  have hlt := (getCode_spec htakes.getCode).1
  have hle : 2 ^ g.codeSize ≤ 2 ^ 12 := Nat.pow_le_pow_right (by decide) hg.codeSize.2
  exact lt_of_lt_of_le hlt hle

theorem decodes_of_follows {p : Params} {start : Decoder} (hinv : start.Inv p)
    (htable : start.Table p) (h : Follows p start) : Decodes p start := by
  have hrun : ∀ g, Reaches (gifStep p) start g → g.Table p := by
    intro g hr
    induction hr with
    | refl => exact htable
    | @tail s _ hprev hstep ih =>
        obtain ⟨source, _, _, rfl⟩ | ⟨code, source, htakes, hdecode⟩ := gifStep_cases hstep
        · exact clear_table p _
        · have htable : Decoder.Table p { s with source := source } :=
            ⟨ih.nextCode, ih.entries, ih.oldCode⟩
          have hcode := h _ _ _ hprev htakes
          have hdict := takes_lt (reaches_inv hinv hprev) htakes
          exact decode_table htable hcode hdict htakes.ne_clear htakes.ne_eoi hdecode
  intro g code source hr htakes
  exact decodable_of_table (hrun g hr) htakes (h g code source hr htakes)

-- What is read from the array is in range where the last pixel that is drawn is.
theorem readBack_iff {imgW imgH maxPixels : Nat} (hw : imgW < 65536) (hh : imgH < 65536)
    (hmax : maxPixels ≤ maxGifPixels) {reads : Nat → Nat → Prop} {d : Drawn} (hleft : 0 ≤ d.left)
    (htop : 0 ≤ d.top) (hreads : ∀ x y, reads x y ↔ d.Has x y)
    (himage : ∀ x y, reads x y → x < imgW ∧ y < imgH) :
    (∀ x y, reads x y → 0 ≤ rawIndex imgW x y ∧ rawIndex imgW x y < maxPixels) ↔
      d.LastFits imgW maxPixels := by
  rw [Drawn.lastFits_iff hleft htop]
  refine forall_congr' fun x => forall_congr' fun y => ?_
  rw [← hreads]
  refine imp_congr_right fun hxy => ?_
  obtain ⟨hx, hy⟩ := himage x y hxy
  exact rawIndex_mem hw hh hx hy hmax

theorem view_readBack {imgW imgH : Nat} (hw : imgW < 65536) (hh : imgH < 65536) (v : ImageView) :
    (∀ x y, v.Draws imgW imgH x y →
      0 ≤ rawIndex imgW x y ∧ rawIndex imgW x y < maxGifPixels) ↔
      (viewDrawn v imgW imgH).LastFits imgW maxGifPixels :=
  readBack_iff hw hh le_rfl (le_max_left _ _) (le_max_left _ _) (view_draws v imgW imgH)
    fun _ _ h => ⟨Int.ofNat_lt.mp h.1, Int.ofNat_lt.mp h.2.1⟩

theorem aboutGifView_readBack {imgW imgH : Nat} (hw : imgW < 65536) (hh : imgH < 65536)
    (v : AboutGifView) :
    (∀ x y, v.Reads imgW imgH x y →
      0 ≤ rawIndex imgW x y ∧ rawIndex imgW x y < aboutIconMaxPixels) ↔
      (v.drawn imgW imgH).LastFits imgW aboutIconMaxPixels :=
  readBack_iff hw hh (by decide) (le_max_left _ _) (le_max_left _ _)
    (aboutGifView_reads v imgW imgH) fun _ _ h => ⟨h.1, h.2.2.1⟩

-- The decoders are safe exactly on the codes whose prefixes lead to the palette, and where the
-- last pixel drawn is in the array; the icon is drawn only where a code has been taken. Data
-- whose codes follow the entries has such codes only.
theorem gif_safe_iff (minCodeSize : Int) {iconCodeSize : Nat}
    (accepted : 2 ≤ iconCodeSize ∧ iconCodeSize ≤ 8) {imgW imgH : Nat} (hw : imgW < 65536)
    (hh : imgH < 65536) (stalePrefix : Nat → Nat) (staleSuffix : Nat → UB) (file : List UB)
    (v : ImageView) (icon : AboutGifView) :
    let p := gifParams minCodeSize imgW imgH
    let start := gifStart p stalePrefix staleSuffix file
    let q := aboutGifParams iconCodeSize accepted imgW imgH
    let iconStart := gifStart q stalePrefix staleSuffix file
    (GifSafe p imgW start (fun _ => True) (v.Draws imgW imgH) ↔
      Decodes p start ∧ (viewDrawn v imgW imgH).LastFits imgW maxGifPixels) ∧
    (GifSafe q imgW iconStart (fun g => g.gifRaw ≠ []) (icon.Reads imgW imgH) ↔
      ∀ g code source, Reaches (gifStep q) iconStart g → Takes q g code source →
        g.Decodable q code ∧ (icon.drawn imgW imgH).LastFits imgW aboutIconMaxPixels) ∧
    (Follows p start → Decodes p start) ∧ (Follows q iconStart → Decodes q iconStart) := by
  intro p start q iconStart
  have hp : start.Inv p := start_inv ..
  have hq : iconStart.Inv q := start_inv ..
  refine ⟨⟨?_, ?_⟩, ⟨?_, ?_⟩, decodes_of_follows hp (start_table ..),
    decodes_of_follows hq (start_table ..)⟩
  · intro h
    obtain ⟨g, hg⟩ := h.halts
    exact ⟨(decodes_iff hp).mp h.inRange, (view_readBack hw hh v).mp (h.readBack g hg trivial)⟩
  · rintro ⟨hdecodes, hlast⟩
    exact ⟨gif_halts hp, (decodes_iff hp).mpr hdecodes,
      fun _ _ _ => (view_readBack hw hh v).mpr hlast⟩
  · intro h g code source hr htakes
    have hdecodes := (decodes_iff hq).mp h.inRange
    have hdecodable := hdecodes g code source hr htakes
    refine ⟨hdecodable, ?_⟩
    -- the code has stored a pixel, which is there when the loop is left
    obtain ⟨g', hgo, hraw⟩ := decode_of_decodable (reaches_inv hq hr) htakes hdecodable
    have hnext : Reaches (gifStep q) iconStart g' := .tail hr (gifStep_eq_some.mpr hgo)
    obtain ⟨t, hrt, hstop⟩ := gif_halts (reaches_inv hq hnext)
    exact (aboutGifView_readBack hw hh icon).mp (h.readBack t ⟨hnext.trans hrt, hstop⟩
      (gifRaw_ne_nil (reaches_inv hq hnext) hraw hrt))
  · intro h
    refine ⟨gif_halts hq, (decodes_iff hq).mpr fun g code source hr htakes =>
      (h g code source hr htakes).1, fun g hg hraw => ?_⟩
    obtain ⟨s, code, source, hr, htakes⟩ := takes_of_gifRaw rfl hg.1 hraw
    exact (aboutGifView_readBack hw hh icon).mpr (h s code source hr htakes).2

-- A screen of 1024 by 768, all of it for the image.
def wholeScreen : ImageView := ⟨1024, 768, 0, 32, 1024, 0⟩

def iconScreen : AboutGifView := ⟨1024, 768, 0, 0, 1024, 768, 0, 0⟩

-- One pixel, of the code 0.
theorem gif_safe_iff_pixel :
    GifSafe (gifParams 2 1 1) 1 (gifStart (gifParams 2 1 1) (fun _ => 0) (fun _ => 0) [1, 40, 0])
      (fun _ => True) (wholeScreen.Draws 1 1) := by
  refine (gif_safe_iff 2 (show 2 ≤ 2 ∧ 2 ≤ 8 by decide) (by decide) (by decide) (fun _ => 0)
    (fun _ => 0) [1, 40, 0] wholeScreen iconScreen).1.mpr ⟨?_, fun _ _ => by decide⟩
  intro g code source hr htakes
  cases hr.cases_head with
  | inl hstart =>
      subst hstart
      cases htakes.getCode
      exact ⟨0, rfl, 0, fun hin => absurd hin.1 (by decide), by decide⟩
  | inr hnext =>
      obtain ⟨g', hg', hrest⟩ := hnext
      cases hg'
      cases hrest.cases_head with
      | inl hend =>
          subst hend
          exact absurd htakes.running (by decide)
      | inr hnext =>
          obtain ⟨_, hnone, _⟩ := hnext
          cases hnone

theorem gif_code_undefined :
    ¬GifSafe (gifParams 2 1 1) 1 (gifStart (gifParams 2 1 1) (fun _ => 0) (fun _ => 0) [1, 7, 0])
      (fun _ => True) (wholeScreen.Draws 1 1) ∧
    ¬GifSafe (aboutGifParams 2 (by decide) 1 1) 1
      (gifStart (aboutGifParams 2 (by decide) 1 1) (fun _ => 0) (fun _ => 0) [1, 7, 0])
      (fun g => g.gifRaw ≠ []) (iconScreen.Reads 1 1) ∧
    ¬GifSafe (gifParams 2 65535 200) 65535
      (gifStart (gifParams 2 65535 200) (fun _ => 0) (fun _ => 0) [0])
      (fun _ => True) (wholeScreen.Draws 65535 200) := by
  refine ⟨fun h => h.inRange _ .refl rfl, fun h => h.inRange _ .refl rfl, fun h => ?_⟩
  have hlast := h.readBack _ (Exits.stop rfl) trivial 0 100
    ⟨by decide, by decide, by decide, by decide, by decide, by decide⟩
  exact absurd hlast.2 (by decide)

end BTron.Gif
