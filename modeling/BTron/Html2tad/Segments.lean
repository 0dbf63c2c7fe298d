import BTron.Html2tad
import BTron.TadBrowser.Reads

namespace BTron.Html2tad

open Lib Lib.Logged TadBrowser

def Call.isAttr : Call → Bool
  | .page .. | .font .. | .char .. | .ruler .. => true
  | _ => false

-- A span that is no text has what its builder was passed.
def Shows : Call → TadSpan → Prop
  | .vobj targetId label path, s =>
    s.isLink = true ∧ s.style.isVobj = true ∧ s.style.targetRobj = targetId ∧
      s.style.vobjLabel = utf8 label ∧ s.style.vobjPath = utf8 path
  | .image src caption width height _, s =>
    s.style.isImage = true ∧ s.style.imgW = width ∧ s.style.imgH = height ∧
      s.style.imgCaption = utf8 caption ∧ s.style.imgSrc = utf8 src
  | .hr _, s => s.style.isHr = true
  | _, _ => False

-- Labels shorter than 64 bytes, paths and captions shorter than 128.
def Call.Fits : Call → Prop
  | .vobj _ label path => (utf8 label).length < 64 ∧ (utf8 path).length < 128
  | .image src caption .. => (utf8 caption).length < 128 ∧ (utf8 src).length < 128
  | _ => True

-- An image size that an H holds and that is not taken for a missing one.
def Call.Sized : Call → Prop
  | .image _ _ width height _ => 0 < width ∧ width < 32768 ∧ 0 < height ∧ height < 32768
  | _ => True

section Fields

variable {p : Memory} {i n : Nat}

@[simp] theorem length_be16 (n : Nat) : (be16 n).length = 2 := rfl

@[simp] theorem length_be32 (n : Nat) : (be32 n).length = 4 := rfl

theorem halfAt_stored (hs : Stored p i (be16 n)) (hi : i + 1 < 4294967296) :
    (halfAt p i).val = n % 65536 := by
  simp only [be16, stored_cons] at hs
  rw [halfAt_val, w32_of_lt (by omega), w32_of_lt hi, hs.1, hs.2.1, UInt8.toNat_ofNat',
    UInt8.toNat_ofNat']
  omega

theorem wordAt_stored (hs : Stored p i (be32 n)) (hi : i + 3 < 4294967296) :
    (wordAt p i).val = n % 4294967296 := by
  simp only [be32, stored_cons] at hs
  obtain ⟨h0, h1, h2, h3, -⟩ := hs
  rw [wordAt_val, w32_of_lt (by omega), w32_of_lt (by omega), w32_of_lt (by omega), w32_of_lt hi,
    h0, h1, h2, h3]
  simp only [UInt8.toNat_ofNat']
  omega

theorem readBlock_stored {bs : List UB} (hs : Stored p i bs) :
    (readBlock p i bs.length).val = bs := by
  have hslice := slice_eq_take hs (Nat.le_refl _)
  rwa [List.take_length] at hslice

-- A text with its length before it is read back.
theorem prefixed_stored {bs : List UB} (limit room : Nat) (hn : Stored p i (be16 bs.length))
    (hs : Stored p (i + 2) bs) (hroom : bs.length ≤ room) (h16 : bs.length < 65536)
    (hlimit : i + 2 + bs.length ≤ limit) (hshort : limit < 4294967296) :
    (prefixed p i limit room).val = (bs.length, bs) := by
  have hhalf := halfAt_stored hn (by omega)
  rw [Nat.mod_eq_of_lt h16] at hhalf
  unfold prefixed
  simp only [val_bind, val_ite, val_pure, hhalf, Nat.min_eq_left hroom]
  rw [w32_of_lt (by omega), w32_of_lt (by omega)]
  by_cases h0 : 0 < bs.length
  · rw [if_pos ⟨h0, hlimit⟩, readBlock_stored hs]
  · rw [if_neg fun h => h0 h.1, List.eq_nil_of_length_eq_zero (Nat.eq_zero_of_not_pos h0)]

end Fields

section Segments

variable {p : Memory} {len o : Nat} (style : TadStyle)

theorem decodeVobj_stored {targetId : Nat} {label path : String}
    (hs : Stored p o (segVobj targetId label path).payload) (hid : targetId < 2147483648)
    (hfits : (Call.vobj targetId label path).Fits)
    (hend : o + (segVobj targetId label path).payload.length ≤ len) (hlen : len < 4294967296) :
    Shows (.vobj targetId label path)
      (decodeVobj p len style o (segVobj targetId label path).payload.length).val := by
  obtain ⟨hlabel, hpath⟩ := hfits
  simp only [segVobj, makeSegment, List.length_append, length_be16, length_be32, List.length_cons,
    List.length_nil] at hend ⊢
  simp only [segVobj, makeSegment, stored_append, stored_cons, length_be16, length_be32,
    List.length_append, List.length_cons, List.length_nil] at hs
  obtain ⟨⟨⟨⟨⟨⟨hzero, -⟩, hword⟩, hn⟩, hbytes⟩, hn'⟩, hbytes'⟩ := hs
  have hoff : (vobjDataOff p o (0 + 1 + 4 + 2 + (utf8 label).length + 2 + (utf8 path).length)).val =
      o + 1 := by
    rw [vobjDataOff_val (by omega), if_pos ⟨by omega, hzero⟩, w32_of_lt (by omega)]
  have hid' : toID (wordAt p (o + 1)).val = targetId := by
    rw [wordAt_stored hword (by omega)]
    unfold toID w32
    omega
  have hlabel' : (vobjLabel p len (o + 1)).val = (utf8 label, o + 7 + (utf8 label).length) := by
    have hhalf : (halfAt p (o + 1 + 4)).val = (utf8 label).length := by
      rw [halfAt_stored hn (by omega), Nat.mod_eq_of_lt (by omega)]
    rw [vobjLabel_eq]
    dsimp only
    rw [hhalf, w32_of_lt (by omega), w32_of_lt (by omega), Nat.min_eq_left (by omega)]
    by_cases h0 : 0 < (utf8 label).length
    · rw [if_pos ⟨h0, by omega⟩, show o + 1 + 6 = o + (0 + 1 + 4 + 2) by omega,
        readBlock_stored hbytes]
    · rw [if_neg fun h => h0 h.1, List.eq_nil_of_length_eq_zero (Nat.eq_zero_of_not_pos h0)]
      rfl
  have hpath' : (vobjPath p len (o + 7 + (utf8 label).length)).val = utf8 path := by
    have hnext : o + 7 + (utf8 label).length = o + (0 + 1 + 4 + 2 + (utf8 label).length) := by omega
    have hpre := prefixed_stored len 127 hn' hbytes' (by omega) (by omega)
      (by omega) hlen
    unfold vobjPath
    rw [w32_of_lt (by omega), if_pos (by omega), hnext, val_bind, hpre]
    rfl
  unfold Shows decodeVobj
  simp only [val_bind, val_pure, hoff, hid', hlabel', hpath', and_self]

theorem decodeFprim_hr (width : Nat) (hs : Stored p o (segHr width).payload)
    (ho : o < 4294967296) (segLen : Nat) :
    Shows (.hr width) (decodeFprim p style o segLen).val := by
  simp only [segHr, makeSegment, stored_append, stored_cons] at hs
  obtain ⟨⟨⟨⟨⟨⟨hsub, -⟩, -⟩, -⟩, -⟩, -⟩, -⟩ := hs
  unfold decodeFprim
  rw [val_bind, val_byteAt, w32_of_lt ho, hsub]
  rfl

-- A size is kept if and only if an H holds it and it is not taken for a missing one.
theorem orDefault_iff (n : Nat) {dflt : Int} (hlo : 0 < dflt) (hhi : dflt < 32768) :
    orDefault (toH (n % 65536)) dflt = n ↔ 0 < n ∧ n < 32768 := by
  unfold orDefault toH
  split <;> split <;> omega

theorem figureTexts_stored {segLen : Nat} {caption src : List UB}
    (hn : Stored p (o + 6) (be16 caption.length)) (hcaption : Stored p (o + 8) caption)
    (hn' : Stored p (o + 8 + caption.length) (be16 src.length))
    (hsrc : Stored p (o + 10 + caption.length) src)
    (hfits : caption.length < 128 ∧ src.length < 128)
    (hseg : segLen = 10 + caption.length + src.length) (hshort : o + segLen < 4294967296) :
    (figureTexts p o segLen).val = (caption, src) := by
  have hcap := prefixed_stored (w32 (o + segLen)) 127 hn hcaption (by omega)
    (by omega) (by rw [w32_of_lt hshort]; omega) (w32_lt _)
  have hsrc' := prefixed_stored (w32 (o + segLen)) 127 hn'
    (by rwa [show o + 8 + caption.length + 2 = o + 10 + caption.length by omega]) (by omega)
    (by omega) (by rw [w32_of_lt hshort]; omega) (w32_lt _)
  unfold figureTexts
  simp only [val_bind, val_ite, val_pure, hcap]
  rw [w32_of_lt (show o + 8 + caption.length < 4294967296 by omega), w32_of_lt (by omega),
    if_pos (by rw [w32_of_lt hshort]; omega), hsrc']

theorem decodeFprim_image {src caption : String} {width height type : Nat}
    (hs : Stored p o (segImage src caption width height type).payload)
    (hfits : (Call.image src caption width height type).Fits)
    (hend : o + (segImage src caption width height type).payload.length < 4294967296) :
    Shows (.image src caption width height type)
        (decodeFprim p style o (segImage src caption width height type).payload.length).val ↔
      (Call.image src caption width height type).Sized := by
  have hseg : (segImage src caption width height type).payload.length =
      10 + (utf8 caption).length + (utf8 src).length := by
    simp only [segImage, makeSegment, List.length_append, length_be16, List.length_cons,
      List.length_nil]
    omega
  rw [hseg] at hend ⊢
  simp only [segImage, makeSegment, stored_append, stored_cons, length_be16, List.length_append,
    List.length_cons, List.length_nil] at hs
  obtain ⟨⟨⟨⟨⟨⟨⟨⟨hsub, -⟩, hw⟩, hh⟩, -⟩, hn⟩, hcaption⟩, hn'⟩, hsrc⟩ := hs
  have htexts := figureTexts_stored hn hcaption (by rwa [Nat.add_assoc])
    (by rwa [Nat.add_assoc, Nat.add_right_comm 8 2] ) hfits rfl hend
  have hshape : ∀ segLen, 8 ≤ segLen → ∃ type, (figureShape p o segLen).val =
      (width % 65536, height % 65536, type) := by
    intro segLen h8
    refine ⟨(byteAt p (o + 5)).val, ?_⟩
    rw [← halfAt_stored hw (by omega), ← halfAt_stored hh (by omega)]
    unfold figureShape
    simp only [val_ite, val_bind, val_pure]
    rw [if_pos (by omega), if_pos (by omega)]
  obtain ⟨type', hshape⟩ := hshape (10 + (utf8 caption).length + (utf8 src).length) (by omega)
  unfold decodeFprim
  rw [val_bind, val_byteAt, w32_of_lt (by omega), hsub, if_pos (by rfl)]
  simp only [val_bind, val_ite, val_pure, hshape, htexts]
  rw [if_pos (by omega)]
  unfold Shows Call.Sized
  dsimp only
  rw [orDefault_iff width (by decide) (by decide), orDefault_iff height (by decide) (by decide)]
  tauto

end Segments

-- What the compiler passes to the builders, whatever the elements are.
def Call.Made : Call → Prop
  | .char sizePt .. => 0 < sizePt
  | .vobj targetId .. => targetId < 2147483648
  | _ => True

theorem bodySegments_made (env : Env) (baseDir : String) (e : Element) :
    ∀ c ∈ bodySegments env baseDir e, c.Made := by
  cases e with
  | link href label =>
      have hlt := env.phash2_lt href 100000 (by decide)
      simp only [bodySegments, List.mem_singleton, forall_eq, Call.Made, robjId]
      omega
  | ol items =>
      rintro c hc
      obtain ⟨item, -, rfl⟩ := List.mem_map.mp hc
      trivial
  | _ => simp [bodySegments, Call.Made]

theorem calls_made (env : Env) (baseDir : String) (elements : List Element) :
    ∀ c ∈ calls env baseDir elements, c.Made := by
  intro c hc
  rcases List.mem_append.mp hc with hinit | hbody
  · have hinit' : ∀ c ∈ initSegments, c.Made := by simp [initSegments, Call.Made]
    exact hinit' c hinit
  · obtain ⟨e, -, he⟩ := List.mem_flatMap.mp hbody
    exact bodySegments_made env baseDir e c he

-- A segment builder's segment is decoded into a style, or into a span that has what the
-- builder was passed.
theorem decodeSegment_call {p : Memory} {len o : Nat} (style : TadStyle) {c : Call} {s : Segment}
    (hc : c.item = .seg s) (hs : Stored p o s.payload) (hmade : c.Made) (hfits : c.Fits)
    (hend : o + s.payload.length ≤ len) (hlen : len < 4294967296) :
    let r := (decodeSegment p len style s.tag.toNat o s.payload.length).val
    c.isAttr = true ∧ r.2 = none ∨
      c.isAttr = false ∧ ∃ x, r = (style, some x) ∧ (Shows c x ↔ c.Sized) := by
  have hfprim : ∀ n, (decodeSegment p len style 0xB0 o n).val =
      (style, some (decodeFprim p style o n).val) := fun _ => rfl
  cases c with
  | text t => cases hc
  | page width height marginL marginT =>
      cases hc
      exact .inl ⟨rfl, rfl⟩
  | font fontId plane =>
      cases hc
      exact .inl ⟨rfl, rfl⟩
  | char sizePt weight colorRgb =>
      cases hc
      exact .inl ⟨rfl, rfl⟩
  | ruler linePitch indent =>
      cases hc
      exact .inl ⟨rfl, rfl⟩
  | vobj targetId label path =>
      cases hc
      have h5 : 5 ≤ (segVobj targetId label path).payload.length := by
        simp [segVobj, makeSegment]
      have hvobj : ∀ n, 5 ≤ n → (decodeSegment p len style 0xA8 o n).val =
          (style, some (decodeVobj p len style o n).val) := by
        intro n hn
        unfold decodeSegment
        simp [hn]
      exact .inr ⟨rfl, _, hvobj _ h5,
        iff_of_true (decodeVobj_stored style hs hmade hfits hend hlen) trivial⟩
  | hr width =>
      cases hc
      exact .inr ⟨rfl, _, hfprim _,
        iff_of_true (decodeFprim_hr style width hs (by omega) _) trivial⟩
  | image src caption width height type =>
      cases hc
      exact .inr ⟨rfl, _, hfprim _, decodeFprim_image style hs hfits (by omega)⟩

end BTron.Html2tad
