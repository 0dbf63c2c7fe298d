import BTron.Png.Chunks
import BTron.Png.RoundTrip

namespace BTron.Png

open Lib Graphics Relation

-- A pixel that is drawn is one of the device.
theorem exists_plot {dev : Gdev Nat} {v : ImageView} {imgW imgH : Int} {x y : Nat}
    (hwidth : dev.width = v.devWidth) (hheight : dev.height = v.devHeight)
    (h : v.Draws imgW imgH x y) (col : Nat) :
    ∃ dev', plot dev (v.outY y * dev.width + v.outX imgW x) col = some dev' ∧
      dev'.width = v.devWidth ∧ dev'.height = v.devHeight := by
  obtain ⟨_, _, hrows, _, _, hcols⟩ := h
  have hle : (v.outY y + 1) * dev.width ≤ dev.height * dev.width :=
    Int.mul_le_mul_of_nonneg_right (by omega) (by omega)
  have hpos : 0 ≤ v.outY y * dev.width := Int.mul_nonneg (by omega) (by omega)
  rw [Int.add_mul, Int.one_mul, Int.mul_comm dev.height] at hle
  exact ⟨_, if_pos ⟨by omega, by omega⟩, hwidth, hheight⟩

-- The bytes of a pixel are in the scanline buffer.
theorem exists_drawPixel {dev : Gdev Nat} {v : ImageView} {width height bpp y x : Nat}
    {scan : Nat → UB} (hwidth : dev.width = v.devWidth) (hheight : dev.height = v.devHeight)
    (hbpp : bpp = 1 ∨ bpp = 3 ∨ bpp = 4) (hfit : height * (width * bpp + 1) ≤ maxPngRaw) :
    ∃ dev', drawPixel v width height bpp scan y dev x = some dev' ∧
      dev'.width = v.devWidth ∧ dev'.height = v.devHeight := by
  unfold drawPixel
  split
  · rename_i hdraws
    have hx : x < width := Int.ofNat_lt.mp hdraws.1
    have hy : y < height := Int.ofNat_lt.mp hdraws.2.1
    have hrow := row_fits hfit hy
    have hlast : x * bpp + bpp ≤ width * bpp := by
      rw [← Nat.succ_mul]
      exact Nat.mul_le_mul_right _ hx
    have hbyte : ∀ k < bpp, y * (width * bpp) + x * bpp + k < maxPngRaw := by
      intro k hk
      have := (byte_fits hrow (show x * bpp + k < width * bpp by omega)).2.1
      omega
    have hzero := hbyte 0 (by omega)
    have hone : width * bpp ≤ maxPngRaw := by
      rw [Nat.succ_mul] at hrow
      omega
    have hpix : i32 ((y : Int) * i32 ((width : Int) * (bpp : Nat))) +
        i32 ((x : Int) * (bpp : Nat)) = (y * (width * bpp) + x * bpp : Nat) := by
      rw [← Int.natCast_mul, i32_of_lt hone, ← Int.natCast_mul, i32_of_lt (by omega),
        ← Int.natCast_mul, i32_of_lt (by omega), Int.natCast_add]
    have hplot := exists_plot hwidth hheight hdraws
    obtain ⟨P, hP⟩ : ∃ P, P = y * (width * bpp) + x * bpp := ⟨_, rfl⟩
    rw [← hP] at hpix hzero
    rw [Nat.add_zero] at hzero
    have hload : ∀ k < bpp, load scan ((P : Int) + k) = some (scan (P + k)) := by
      intro k hk
      apply load_add
      rw [hP]
      exact hbyte k hk
    dsimp only
    rw [hpix]
    obtain rfl | rfl | rfl := hbpp
    · rw [if_neg (by decide), if_neg (by decide), load_eq hzero, Option.bind_eq_bind,
        Option.bind_some]
      exact hplot _
    · have hone : load scan ((P : Int) + 1) = some (scan (P + 1)) := hload 1 (by decide)
      have htwo : load scan ((P : Int) + 2) = some (scan (P + 2)) := hload 2 (by decide)
      rw [if_neg (by decide), if_pos rfl, load_eq hzero, hone, htwo]
      simp only [Option.bind_eq_bind, Option.bind_some]
      exact hplot _
    · have hone : load scan ((P : Int) + 1) = some (scan (P + 1)) := hload 1 (by decide)
      have htwo : load scan ((P : Int) + 2) = some (scan (P + 2)) := hload 2 (by decide)
      have hthree : load scan ((P : Int) + 3) = some (scan (P + 3)) := hload 3 (by decide)
      rw [if_pos rfl, load_eq hzero, hone, htwo, hthree]
      simp only [Option.bind_eq_bind, Option.bind_some]
      split
      · exact ⟨dev, rfl, hwidth, hheight⟩
      · exact hplot _
  · exact ⟨dev, rfl, hwidth, hheight⟩

theorem exists_drawImage {dev : Gdev Nat} {v : ImageView} {width height bpp : Nat}
    (scan : Nat → UB) (hwidth : dev.width = v.devWidth) (hheight : dev.height = v.devHeight)
    (hbpp : bpp = 1 ∨ bpp = 3 ∨ bpp = 4) (hfit : height * (width * bpp + 1) ≤ maxPngRaw) :
    ∃ dev', drawImage v width height bpp scan dev = some dev' := by
  have hpixel : ∀ y x, ∀ d : Gdev Nat, d.width = v.devWidth ∧ d.height = v.devHeight →
      ∃ d', drawPixel v width height bpp scan y d x = some d' ∧
        d'.width = v.devWidth ∧ d'.height = v.devHeight := by
    rintro y x d ⟨hw, hh⟩
    exact exists_drawPixel hw hh hbpp hfit
  obtain ⟨dev', hdev', _⟩ := foldlM_range
    (I := fun _ (d : Gdev Nat) => d.width = v.devWidth ∧ d.height = v.devHeight)
    (n := height) (s := dev)
    (f := fun d y => (List.range width).foldlM (drawPixel v width height bpp scan y) d)
    ⟨hwidth, hheight⟩ fun y _ d hd =>
      foldlM_range (I := fun _ (d : Gdev Nat) => d.width = v.devWidth ∧ d.height = v.devHeight)
        hd fun x _ d hd => hpixel y x d hd
  exact ⟨dev', hdev'⟩

theorem bytesPerPixel_cases (colorType : UB) :
    bytesPerPixel colorType = 1 ∨ bytesPerPixel colorType = 3 ∨ bytesPerPixel colorType = 4 := by
  unfold bytesPerPixel
  split
  · exact .inr (.inr rfl)
  · split
    · exact .inl rfl
    · exact .inr (.inl rfl)

-- The bytes that the dimensions say there are: the rows and their filter types.
def Chunks.needed (s : Chunks) : Int := s.imgH * (s.imgW * bytesPerPixel s.colorType + 1)

-- It is an image for uncompress.
def Chunks.HasImage (s : Chunks) : Prop := 0 < s.imgW ∧ 0 < s.imgH ∧ s.idat ≠ []

variable {z : Zlib} {dev : Gdev Nat} {dstX dstY maxW maxH : Int} {decomp scan : Nat → UB}

theorem decode_of_no_image {s : Chunks} (h : ¬s.HasImage) :
    decodeAndDrawPng z dev dstX dstY maxW maxH decomp scan s = some (dev, -1) := by
  refine if_pos ?_
  by_contra hno
  rw [not_or, not_or, List.length_eq_zero_iff] at hno
  exact h ⟨by omega, by omega, hno.2.2⟩

theorem decode_of_uncompress_none {s : Chunks} (himage : s.HasImage)
    (h : z.uncompress s.idat maxPngRaw = none) :
    decodeAndDrawPng z dev dstX dstY maxW maxH decomp scan s = some (dev, -2) := by
  obtain ⟨hw, hh, hidat⟩ := himage
  unfold decodeAndDrawPng
  rw [if_neg (by rw [List.length_eq_zero_iff]; simp [hidat]; omega), h]

-- What is uncompressed is drawn, however long it is.
theorem decode_of_uncompress {s : Chunks} (himage : s.HasImage) {out : List UB}
    (h : z.uncompress s.idat maxPngRaw = some out) {r : Gdev Nat × ER}
    (hr : decodeAndDrawPng z dev dstX dstY maxW maxH decomp scan s = some r) : r.2 = E_OK := by
  obtain ⟨hw, hh, hidat⟩ := himage
  unfold decodeAndDrawPng at hr
  rw [if_neg (by rw [List.length_eq_zero_iff]; simp [hidat]; omega), h] at hr
  simp only [Option.bind_eq_bind, Option.bind_eq_some_iff] at hr
  obtain ⟨_, _, dev', _, hr⟩ := hr
  cases hr
  rfl

-- With as many bytes as the dimensions say every index is in range.
theorem decode_of_needed {s : Chunks} (himage : s.HasImage) {out : List UB}
    (h : z.uncompress s.idat maxPngRaw = some out) (hneeded : s.needed ≤ out.length) :
    ∃ r, decodeAndDrawPng z dev dstX dstY maxW maxH decomp scan s = some r := by
  obtain ⟨hw, hh, hidat⟩ := himage
  obtain ⟨width, hwidth⟩ := Int.eq_ofNat_of_zero_le hw.le
  obtain ⟨height, hheight⟩ := Int.eq_ofNat_of_zero_le hh.le
  have hlen := z.fits _ _ _ h
  have hfit : height * (width * bytesPerPixel s.colorType + 1) ≤ maxPngRaw := by
    unfold Chunks.needed at hneeded
    rw [hwidth, hheight] at hneeded
    have hcast : height * (width * bytesPerPixel s.colorType + 1) ≤ out.length := by
      exact_mod_cast hneeded
    exact hcast.trans hlen
  obtain ⟨scan', hscan'⟩ := exists_unfilter (overlay out decomp) scan hfit
  obtain ⟨dev', hdev'⟩ := exists_drawImage (v := ⟨dev.width, dev.height, dstX, dstY, maxW, maxH⟩)
    scan' rfl rfl (bytesPerPixel_cases s.colorType) hfit
  refine ⟨(dev', 0), ?_⟩
  unfold decodeAndDrawPng
  rw [if_neg (by rw [List.length_eq_zero_iff]; simp [hidat]; omega), h, hwidth, hheight]
  simp only [hscan', hdev', Option.bind_eq_bind, Option.bind_some]

-- The decoder stays within its buffers, and it gives an error for data that are too short for
-- the dimensions.
structure PngSafe (z : Zlib) (dev : Gdev Nat) (dstX dstY maxW maxH : Int)
    (decomp scan : Nat → UB) (start : Chunks) : Prop where
  halts : Halts pngStep start
  gathers : ∀ s, Reaches pngStep start s → pngTurn s ≠ .fault
  inRange : ∀ s, Exits pngStep start s →
    ∃ r, decodeAndDrawPng z dev dstX dstY maxW maxH decomp scan s = some r
  rejects : ∀ s out, Exits pngStep start s → z.uncompress s.idat maxPngRaw = some out →
    out.length < s.needed →
    ∀ r, decodeAndDrawPng z dev dstX dstY maxW maxH decomp scan s = some r → r.2 < E_OK

theorem reaches_idat {s t : Chunks} (hs : s.idat.length ≤ maxPngIdat)
    (h : Reaches pngStep s t) : t.idat.length ≤ maxPngIdat :=
  run_preserves (P := fun s => s.idat.length ≤ maxPngIdat)
    (fun _ _ hs hstep => (pngStep_spec hs hstep).1) hs h

theorem png_halts {s : Chunks} (hs : s.idat.length ≤ maxPngIdat) : Halts pngStep s :=
  halts_of_measure (fun s => s.file.length)
    fun _ _ hr hstep => (pngStep_spec (reaches_idat hs hr) hstep).2

-- The decoder is safe exactly on the files whose IDAT chunks do not wrap the sum of their
-- lengths around, or have room all the same, and whose image is as long as it says.
theorem png_safe_iff (z : Zlib) (dev : Gdev Nat) (dstX dstY maxW maxH : Int)
    (decomp scan : Nat → UB) {file : List UB} {start : Chunks}
    (hstart : pngStart file = some start) :
    PngSafe z dev dstX dstY maxW maxH decomp scan start ↔
      (∀ s clen, Reaches pngStep start s → s.AtIdat clen → s.Gathers clen) ∧
      ∀ s out, Exits pngStep start s → s.HasImage → z.uncompress s.idat maxPngRaw = some out →
        s.needed ≤ out.length := by
  have h0 : start.idat.length ≤ maxPngIdat := by
    unfold pngStart at hstart
    dsimp only at hstart
    split at hstart
    · cases hstart
    · cases hstart
      exact Nat.zero_le _
  constructor
  · intro h
    refine ⟨fun s clen hr => (pngTurn_fault (reaches_idat h0 hr)).mp (h.gathers s hr) clen, ?_⟩
    intro s out hexit himage hout
    by_contra hshort
    obtain ⟨r, hr⟩ := h.inRange s hexit
    have hneg := h.rejects s out hexit hout (by omega) r hr
    rw [decode_of_uncompress himage hout hr] at hneg
    exact absurd hneg (by decide)
  · rintro ⟨hgathers, hlong⟩
    refine ⟨png_halts h0, fun s hr => (pngTurn_fault (reaches_idat h0 hr)).mpr
      fun clen => hgathers s clen hr, fun s hexit => ?_, fun s out hexit hout hshort r hr => ?_⟩
    · by_cases himage : s.HasImage
      · cases hout : z.uncompress s.idat maxPngRaw with
        | none => exact ⟨_, decode_of_uncompress_none himage hout⟩
        | some out => exact decode_of_needed himage hout (hlong s out hexit himage hout)
      · exact ⟨_, decode_of_no_image himage⟩
    · have himage : ¬s.HasImage := fun himage => by
        have := hlong s out hexit himage hout
        omega
      rw [decode_of_no_image himage] at hr
      cases hr
      exact (by decide : (-1 : Int) < 0)

-- A file of a grey image with one pixel of data, for the height.
def greyFile (height : UB) : List UB :=
  [0x89, 80, 78, 71, 13, 10, 26, 10,
    0, 0, 0, 13, 73, 72, 68, 82, 0, 0, 0, 1, 0, 0, 0, height, 8, 0, 0, 0, 0, 0, 0, 0, 0,
    0, 0, 0, 13, 73, 68, 65, 84, 0x78, 1, 1, 2, 0, 253, 255, 0, 128, 0, 130, 0, 129, 0, 0, 0, 0,
    0, 0, 0, 0, 73, 69, 78, 68, 0, 0, 0, 0]

-- The data of the IDAT chunk: a filter type and one byte.
def greyData : List UB := [0x78, 1, 1, 2, 0, 253, 255, 0, 128, 0, 130, 0, 129]

def greyStart (height : UB) : Chunks := ⟨(greyFile height).drop 8, 0, 0, 0, []⟩

-- The chunks of the file, IEND being next.
def greyEnd (height : UB) : Chunks :=
  ⟨[0, 0, 0, 0, 73, 69, 78, 68, 0, 0, 0, 0], 1, height.toNat, 0, greyData⟩

def greyDev : Gdev Nat := ⟨64, 64, fun _ => 0, ⟨0, 0, 64, 64⟩⟩

theorem grey_uncompress : storedZlib.uncompress greyData maxPngRaw = some [0, 128] := by
  decide

theorem grey_run_one : runFor pngStep 3 (greyStart 1) = some (greyEnd 1) := rfl

theorem grey_run_two : runFor pngStep 3 (greyStart 2) = some (greyEnd 2) := rfl

theorem png_safe_iff_grey :
    PngSafe storedZlib greyDev 0 32 64 64 (fun _ => 0) (fun _ => 0) (greyStart 1) := by
  refine (png_safe_iff storedZlib greyDev 0 32 64 64 (fun _ => 0) (fun _ => 0)
    (show pngStart (greyFile 1) = some (greyStart 1) from rfl)).mpr ⟨?_, ?_⟩
  · intro s clen hr hat
    left
    rw [hat.2.2]
    cases hr.cases_head with
    | inl hstart =>
        subst hstart
        decide
    | inr hnext =>
        obtain ⟨_, hstep, hr⟩ := hnext
        cases hstep
        cases hr.cases_head with
        | inl hstart =>
            subst hstart
            decide
        | inr hnext =>
            obtain ⟨_, hstep, hr⟩ := hnext
            cases hstep
            cases hr.cases_head with
            | inl hstart =>
                subst hstart
                decide
            | inr hnext =>
                obtain ⟨_, hstep, _⟩ := hnext
                cases hstep
  · intro s out hexit himage hout
    obtain rfl := hexit.unique (exits_of_runFor grey_run_one)
    cases grey_uncompress.symm.trans hout
    decide

theorem png_short_drawn :
    ¬PngSafe storedZlib greyDev 0 32 64 64 (fun _ => 0) (fun _ => 0) (greyStart 2) := by
  intro h
  have hexit := exits_of_runFor grey_run_two
  obtain ⟨r, hr⟩ := h.inRange _ hexit
  have hneg := h.rejects _ _ hexit grey_uncompress (by decide) r hr
  have himage : (greyEnd 2).HasImage := ⟨by decide, by decide, by decide⟩
  rw [decode_of_uncompress (z := storedZlib) (s := greyEnd 2) himage grey_uncompress hr] at hneg
  exact absurd hneg (by decide)

end BTron.Png
