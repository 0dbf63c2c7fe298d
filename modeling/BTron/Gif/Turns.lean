import BTron.Gif
import BTron.Lib.Descent
import Mathlib.Data.Int.Order.Basic
import Mathlib.Order.MinMax

namespace BTron.Gif

-- The part of an image that is drawn, in pixels of the image.
structure Drawn where
  left : Int
  top : Int
  right : Int
  bottom : Int

def Drawn.Has (d : Drawn) (x y : Nat) : Prop :=
  d.left ≤ x ∧ x < d.right ∧ d.top ≤ y ∧ y < d.bottom

-- Its last pixel is among the first `maxPixels` of the image.
def Drawn.LastFits (d : Drawn) (imgW maxPixels : Nat) : Prop :=
  d.left < d.right → d.top < d.bottom → (d.bottom - 1) * imgW + (d.right - 1) < maxPixels

def viewDrawn (v : ImageView) (imgW imgH : Nat) : Drawn where
  left := max 0 (max (v.dstX - v.drawX imgW) (-v.drawX imgW))
  top := max 0 (32 - v.dstY)
  right := min imgW (min (v.dstX + v.maxW - v.drawX imgW) (v.devWidth - v.drawX imgW))
  bottom := min (if v.maxH > 0 then min imgH v.maxH else imgH) (v.devHeight - 22 - v.dstY)

def AboutGifView.drawn (v : AboutGifView) (imgW imgH : Nat) : Drawn where
  left := max 0 (max (v.clipLeft - v.dstX) (-v.dstX))
  top := max 0 (max (v.clipTop - v.dstY) (-v.dstY))
  right := min (min imgW 32) (min (v.clipRight - v.dstX) (v.devWidth - v.dstX))
  bottom := min (min imgH 32) (min (v.clipBottom - v.dstY) (v.devHeight - v.dstY))

theorem view_draws (v : ImageView) (imgW imgH x y : Nat) :
    v.Draws imgW imgH x y ↔ (viewDrawn v imgW imgH).Has x y := by
  have hbottom : y < (if v.maxH > 0 then min (imgH : Int) v.maxH else imgH) ↔
      y < imgH ∧ ¬(v.maxH > 0 ∧ (y : Int) ≥ v.maxH) := by
    split <;> omega
  simp only [ImageView.Draws, ImageView.outX, ImageView.outY, Drawn.Has, viewDrawn, max_le_iff,
    lt_min_iff, hbottom]
  constructor
  · rintro ⟨hx, hy, hout, hmax, hcols, hdev⟩
    exact ⟨by omega, by omega, by omega, ⟨by omega, hmax⟩, by omega⟩
  · rintro ⟨hleft, hright, htop, hbot, hbar⟩
    exact ⟨by omega, by omega, by omega, hbot.2, by omega, by omega⟩

theorem aboutGifView_reads (v : AboutGifView) (imgW imgH x y : Nat) :
    v.Reads imgW imgH x y ↔ (v.drawn imgW imgH).Has x y := by
  simp only [AboutGifView.Reads, Drawn.Has, AboutGifView.drawn, max_le_iff, lt_min_iff]
  constructor
  · rintro ⟨hw, hx, hh, hy, hrows, hheight, hcols, hwidth⟩
    exact ⟨by omega, by omega, by omega, by omega⟩
  · rintro ⟨hleft, hright, htop, hbottom⟩
    exact ⟨by omega, by omega, by omega, by omega, by omega, by omega, by omega, by omega⟩

theorem Drawn.lastFits_iff {d : Drawn} (hleft : 0 ≤ d.left) (htop : 0 ≤ d.top)
    (imgW maxPixels : Nat) :
    d.LastFits imgW maxPixels ↔ ∀ x y, d.Has x y → y * imgW + x < maxPixels := by
  constructor
  · rintro hlast x y ⟨hl, hr, ht, hb⟩
    have hlt := hlast (by omega) (by omega)
    have hle : (y : Int) * imgW ≤ (d.bottom - 1) * imgW :=
      Int.mul_le_mul_of_nonneg_right (by omega) (by omega)
    omega
  · intro hall hlr htb
    obtain ⟨x, hx⟩ := Int.eq_ofNat_of_zero_le (show 0 ≤ d.right - 1 by omega)
    obtain ⟨y, hy⟩ := Int.eq_ofNat_of_zero_le (show 0 ≤ d.bottom - 1 by omega)
    have hlt := hall x y ⟨by omega, by omega, by omega, by omega⟩
    rw [hx, hy]
    exact_mod_cast hlt

-- An index that overflows is below the array.
theorem rawIndex_mem {imgW imgH x y maxPixels : Nat} (hw : imgW < 65536) (hh : imgH < 65536)
    (hx : x < imgW) (hy : y < imgH) (hmax : maxPixels ≤ maxGifPixels) :
    (0 ≤ rawIndex imgW x y ∧ rawIndex imgW x y < maxPixels) ↔ y * imgW + x < maxPixels := by
  have hle : y * imgW ≤ 65534 * 65535 := Nat.mul_le_mul (by omega) (by omega)
  have hgif : maxGifPixels = 6144000 := rfl
  rw [rawIndex, toID, w32_of_lt (by omega)]
  split <;> omega

end BTron.Gif

namespace BTron.Gif

open Lib Relation

-- The bits of the data that are left.
def BitSource.size (s : BitSource) : Nat := 8 * (s.file.length + s.subBuf.length) + s.bitCount

theorem nextByte_size {s t : BitSource} {b : UB} (h : s.nextByte = some (b, t)) :
    t.file.length + t.subBuf.length < s.file.length + s.subBuf.length ∧
      t.bitCount = s.bitCount := by
  unfold BitSource.nextByte at h
  split at h
  · rename_i hsub
    cases h
    simp [hsub]
  · cases h
  · rename_i subLen file hsub hfile
    split_ifs at h with hcut
    split at h
    · cases h
    · rename_i _ subBuf htake
      cases h
      have hlen := congrArg List.length htake
      rw [List.length_take, List.length_cons] at hlen
      simp [hsub, hfile]
      omega

theorem fill_size (codeSize n : Nat) (s : BitSource) : (s.fill codeSize n).size ≤ s.size := by
  induction n generalizing s with
  | zero => exact le_rfl
  | succ n ih =>
      unfold BitSource.fill
      split
      · split
        · exact le_rfl
        · rename_i b t hnext
          obtain ⟨hlt, _⟩ := nextByte_size hnext
          refine (ih _).trans ?_
          simp only [BitSource.size]
          omega
      · exact le_rfl

theorem getCode_spec {codeSize code : Nat} {s t : BitSource}
    (h : s.getCode codeSize = some (code, t)) :
    code < 2 ^ codeSize ∧ t.size + codeSize ≤ s.size := by
  simp only [BitSource.getCode] at h
  split_ifs at h with hfew
  cases h
  have hsize := fill_size codeSize codeSize s
  constructor
  · rw [Nat.one_shiftLeft, Nat.and_two_pow_sub_one_eq_mod]
    exact Nat.mod_lt _ (Nat.two_pow_pos _)
  · simp only [BitSource.size] at hsize ⊢
    omega

-- A code that is neither of the two that are no string is taken in the state.
structure Takes (p : Params) (g : Decoder) (code : Nat) (source : BitSource) : Prop where
  running : g.gifRaw.length < p.totalPixels
  getCode : g.source.getCode g.codeSize = some (code, source)
  ne_clear : code ≠ p.clearCode
  ne_eoi : code ≠ p.eoiCode

theorem gifTurn_takes {p : Params} {g : Decoder} {code : Nat} {source : BitSource}
    (h : Takes p g code source) :
    gifTurn p g = .ofOption ({ g with source := source }.decode p code) := by
  simp only [gifTurn, if_pos h.running, h.getCode, if_neg h.ne_clear, if_neg h.ne_eoi]

-- What a turn can do.
theorem gifTurn_cases (p : Params) (g : Decoder) :
    gifTurn p g = .leave ∨
    (∃ source, g.gifRaw.length < p.totalPixels ∧
      g.source.getCode g.codeSize = some (p.clearCode, source) ∧
      gifTurn p g = .go ({ g with source := source }.clear p)) ∨
    ∃ code source, Takes p g code source := by
  by_cases hrun : g.gifRaw.length < p.totalPixels
  · cases hcode : g.source.getCode g.codeSize with
    | none => simp [gifTurn, hrun, hcode]
    | some taken =>
        obtain ⟨code, source⟩ := taken
        by_cases hclear : code = p.clearCode
        · subst hclear
          exact .inr (.inl ⟨source, hrun, rfl, by simp [gifTurn, hrun, hcode]⟩)
        · by_cases heoi : code = p.eoiCode
          · left
            rw [gifTurn, if_pos hrun, hcode]
            dsimp only
            rw [if_neg hclear, if_pos heoi]
          · exact .inr (.inr ⟨code, source, hrun, hcode, hclear, heoi⟩)
  · simp [gifTurn, hrun]

theorem gifStep_eq_some {p : Params} {g g' : Decoder} :
    gifStep p g = some g' ↔ gifTurn p g = .go g' := Outcome.next_eq_some

theorem gifStep_cases {p : Params} {g g' : Decoder} (h : gifStep p g = some g') :
    (∃ source, g.gifRaw.length < p.totalPixels ∧
      g.source.getCode g.codeSize = some (p.clearCode, source) ∧
      g' = { g with source := source }.clear p) ∨
    ∃ code source, Takes p g code source ∧ { g with source := source }.decode p code = some g' := by
  rw [gifStep_eq_some] at h
  obtain hleave | ⟨source, hrun, hcode, hgo⟩ | ⟨code, source, htakes⟩ := gifTurn_cases p g
  · cases hleave.symm.trans h
  · cases hgo.symm.trans h
    exact .inl ⟨source, hrun, hcode, rfl⟩
  · refine .inr ⟨code, source, htakes, ?_⟩
    rw [gifTurn_takes htakes] at h
    cases hdecode : { g with source := source }.decode p code with
    | none => rw [hdecode] at h; cases h
    | some f => rw [hdecode] at h; cases h; rfl

theorem decode_eq_some {p : Params} {g g' : Decoder} {code : Nat}
    (h : g.decode p code = some g') :
    ∃ firstChar stack f, g.unwind p code = some (firstChar, stack) ∧ g.flush p stack = some f ∧
      g' = { f.enter firstChar with oldCode := some code, firstChar := firstChar } := by
  simp only [Decoder.decode, Option.bind_eq_bind, Option.bind_eq_some_iff] at h
  obtain ⟨⟨firstChar, stack⟩, hunwind, f, hflush, hg'⟩ := h
  exact ⟨firstChar, stack, f, hunwind, hflush, (Option.some.inj hg').symm⟩

end BTron.Gif
