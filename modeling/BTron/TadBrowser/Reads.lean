import BTron.TadBrowser.Progress

namespace BTron.TadBrowser

open Lib Lib.Logged

def window (lo hi i : Nat) : Prop := lo ≤ i ∧ i < hi

-- Every byte read for a segment the loop comes to is a byte of the buffer, and every byte
-- read for its payload is a byte of the payload.
def ReadsInside (b : Buffer) : Prop :=
  ∀ s, Reaches (loadStep b) loadStart s → Guard b s → b.bytes s.offset = 0xFF →
    let header := (segHeader b.bytes s.offset).val
    let offset := w32 (s.offset + 6)
    Within (window 0 b.len) (segHeader b.bytes s.offset) ∧
      Within (window offset (min (offset + header.2) b.len))
        (segBody b.bytes b.len s header.1 header.2)

-- A length-prefixed text at `i` lies between `lo` and `hi` as far as it is read.
def PrefixedFits (p : Memory) (i limit room lo hi : Nat) : Prop :=
  let n := (halfAt p i).val
  lo ≤ i ∧ i + 2 ≤ hi ∧ (0 < n ∧ w32 (i + 2 + n) ≤ limit → i + 2 + min n room ≤ hi)

-- The fixed part of a link ends before `hi`, and so do the label and the path, where the
-- buffer is long enough for the decoder to take them.
def VobjFits (p : Memory) (len offset segLen hi : Nat) : Prop :=
  let d := if 7 ≤ segLen ∧ p offset = 0 then offset + 1 else offset
  let labelEnd := d + 6 + (halfAt p (d + 4)).val
  let pathOff := if w32 labelEnd ≤ len then w32 labelEnd else d + 6
  PrefixedFits p (d + 4) len 63 offset hi ∧
    (w32 (pathOff + 2) ≤ len → PrefixedFits p pathOff len 127 offset hi)

def FprimFits (p : Memory) (offset segLen hi : Nat) : Prop :=
  let segEnd := w32 (offset + segLen)
  let nextOff := w32 (offset + 8 + (halfAt p (offset + 6)).val)
  offset + 1 ≤ hi ∧ ((p offset).toNat = 10 →
    (5 ≤ segLen → offset + 5 ≤ hi) ∧ (6 ≤ segLen → offset + 6 ≤ hi) ∧
    (8 ≤ segLen → PrefixedFits p (offset + 6) segEnd 127 offset hi ∧
      (w32 (nextOff + 2) ≤ segEnd → PrefixedFits p nextOff segEnd 127 offset hi)))

-- The fields a segment is decoded from end before `hi`.
def PayloadFits (p : Memory) (len tag offset segLen hi : Nat) : Prop :=
  (tag = 0xA1 → 2 ≤ segLen → offset + 2 ≤ hi) ∧ (tag = 0xA2 → 1 ≤ segLen → offset + 1 ≤ hi) ∧
  (tag = 0xA3 → 6 ≤ segLen → offset + 6 ≤ hi) ∧
  (tag = 0xA8 → 5 ≤ segLen → VobjFits p len offset segLen hi) ∧
  (tag = 0xB0 → FprimFits p offset segLen hi)

section Window

variable {p : Memory} {lo hi i : Nat}

theorem window_w32 (hlo : lo ≤ i) (hwrap : i < 4294967296 + lo) (hhi : hi < 4294967296) :
    window lo hi (w32 i) ↔ i < hi := by
  unfold window w32
  omega

@[simp] theorem val_byteAt (p : Memory) (i : Nat) : (byteAt p i).val = (p (w32 i)).toNat := rfl

@[simp] theorem within_byteAt {P : Nat → Prop} : Within P (byteAt p i) ↔ P (w32 i) := by
  simp [byteAt]

theorem halfAt_window (hlo : lo ≤ i) (hwrap : i < 4294967296 + lo) (hhi : hi < 4294967296) :
    Within (window lo hi) (halfAt p i) ↔ i + 2 ≤ hi := by
  simp only [halfAt, within_bind, within_byteAt, within_pure, and_true]
  rw [window_w32 hlo hwrap hhi]
  constructor
  · rintro ⟨h0, h1⟩
    rwa [window_w32 (by omega) (by omega) hhi] at h1
  · intro h
    rw [window_w32 (by omega) (by omega) hhi]
    omega

theorem wordAt_window (hlo : lo ≤ i) (hwrap : i + 3 < 4294967296 + lo) (hhi : hi < 4294967296) :
    Within (window lo hi) (wordAt p i) ↔ i + 4 ≤ hi := by
  simp only [wordAt, within_bind, within_byteAt, within_pure, and_true]
  rw [window_w32 hlo (by omega) hhi, window_w32 (by omega) (by omega) hhi,
    window_w32 (by omega) (by omega) hhi, window_w32 (by omega) hwrap hhi]
  omega

theorem readBlock_window {n : Nat} (hlo : lo ≤ i) (hn : 0 < n) :
    Within (window lo hi) (readBlock p i n) ↔ i + n ≤ hi := by
  rw [within_readBlock]
  constructor
  · intro h
    have := (h (n - 1) (by omega)).2
    omega
  · intro h k hk
    unfold window
    omega

theorem prefixed_window {limit room : Nat} (hwrap : i < 4294967296 + lo)
    (hlow : i < lo → i < 4294967296) (hhi : hi < 4294967296) (hroom : 0 < room) :
    Within (window lo hi) (prefixed p i limit room) ↔ PrefixedFits p i limit room lo hi := by
  unfold prefixed PrefixedFits
  rw [within_bind, within_ite]
  by_cases hlo : lo ≤ i
  · rw [halfAt_window hlo hwrap hhi]
    simp only [hlo, true_and]
    refine and_congr_right fun hi2 => ?_
    rw [w32_of_lt (show i + 2 < 4294967296 by omega)]
    simp only [within_bind, within_pure, and_true, implies_true]
    refine forall_congr' fun hn => ?_
    exact readBlock_window (by omega) (by omega)
  · refine iff_of_false (fun h => ?_) fun h => hlo h.1
    rw [halfAt, within_bind, within_byteAt, w32_of_lt (hlow (by omega))] at h
    exact hlo h.1.1.1

end Window

section Payload

variable {p : Memory} {len offset segLen hi : Nat}

-- The second look at the low byte of a zero length finds zero.
theorem halfAt_eq_zero {i : Nat} (h : (halfAt p i).val = 0) : (byteAt p (i + 1)).val = 0 := by
  simp only [halfAt, val_bind, val_pure, Nat.or_eq_zero_iff] at h
  exact h.2

theorem vobjLabel_eq (p : Memory) (len d : Nat) :
    (vobjLabel p len d).val =
      let n := (halfAt p (d + 4)).val
      if 0 < n ∧ w32 (d + 6 + n) ≤ len then
        ((readBlock p (w32 (d + 6)) (min n 63)).val, w32 (d + 6 + n))
      else ([], w32 (d + 6)) := by
  have hsum : ∀ n, w32 (w32 (d + 6) + n) = w32 (d + 6 + n) := fun n => by unfold w32; omega
  unfold vobjLabel
  simp only [val_bind, val_ite, val_pure, hsum]
  by_cases h0 : (halfAt p (d + 4)).val = 0
  · have hlow := halfAt_eq_zero h0
    simp only [h0, hlow, Nat.lt_irrefl, false_and, if_false, ite_self]
  · simp only [h0, false_and, if_false, Nat.lt_irrefl]

-- Where a link's path is looked for.
theorem vobjLabel_off {d : Nat} (hd : d + 6 < 4294967296) :
    (vobjLabel p len d).val.2 =
      if w32 (d + 6 + (halfAt p (d + 4)).val) ≤ len then w32 (d + 6 + (halfAt p (d + 4)).val)
      else d + 6 := by
  rw [vobjLabel_eq]
  dsimp only
  by_cases h0 : (halfAt p (d + 4)).val = 0
  · simp [h0, w32_of_lt hd]
  · simp only [Nat.pos_of_ne_zero h0, true_and, w32_of_lt hd]
    split <;> rfl

theorem pathOff_lt (n : Nat) (len : Nat) {d : Nat} (hd : d < 4294967296) :
    (if w32 n ≤ len then w32 n else d) < 4294967296 := by
  split
  · exact w32_lt _
  · exact hd

theorem vobjLabel_window {d : Nat} (hlo : offset ≤ d) (hwrap : d + 4 < 4294967296 + offset)
    (hhi : hi < 4294967296) :
    Within (window offset hi) (vobjLabel p len d) ↔ PrefixedFits p (d + 4) len 63 offset hi := by
  have hsum : ∀ n, w32 (w32 (d + 6) + n) = w32 (d + 6 + n) := fun n => by unfold w32; omega
  unfold vobjLabel PrefixedFits
  rw [within_bind, halfAt_window (by omega) hwrap hhi]
  simp only [show offset ≤ d + 4 by omega, true_and, Nat.add_assoc, Nat.reduceAdd]
  refine and_congr_right fun hd => ?_
  have hw : w32 (d + 6) = d + 6 := w32_of_lt (by omega)
  have hagain : window offset hi (w32 (d + 5)) := by
    rw [window_w32 (by omega) (by omega) hhi]
    omega
  by_cases h0 : (halfAt p (d + 4)).val = 0
  · have hlow := halfAt_eq_zero h0
    simp only [Nat.add_assoc, Nat.reduceAdd] at hlow
    simp only [h0, hlow, within_ite, within_bind, within_byteAt, hagain, within_pure, val_pure,
      Nat.lt_irrefl, false_and, if_false, false_imp_iff, implies_true, and_true]
  · simp only [h0, false_and, if_false, within_bind, within_ite, within_pure, val_pure, true_and,
      Nat.lt_irrefl, hw, Nat.add_assoc, implies_true, and_true]
    refine forall_congr' fun hn => ?_
    rw [readBlock_window (by omega) (by omega), Nat.add_assoc]

theorem vobjPath_window {i : Nat} (hi32 : i < 4294967296) (hhi : hi < 4294967296) :
    Within (window offset hi) (vobjPath p len i) ↔
      (w32 (i + 2) ≤ len → PrefixedFits p i len 127 offset hi) := by
  unfold vobjPath
  rw [within_ite]
  simp only [within_bind, within_pure, and_true, implies_true]
  exact forall_congr' fun _ => prefixed_window (by omega) (fun _ => hi32) hhi (by decide)

theorem vobjDataOff_val (ho : offset < 4294967296) :
    (vobjDataOff p offset segLen).val =
      if 7 ≤ segLen ∧ p offset = 0 then w32 (offset + 1) else offset := by
  have hzero : (p offset).toNat = 0 ↔ p offset = 0 := by
    rw [← UInt8.toNat_inj]
    rfl
  by_cases h7 : 7 ≤ segLen <;>
    simp [vobjDataOff, h7, w32_of_lt ho, hzero]

theorem vobjDataOff_window (hhi : hi < 4294967296) :
    Within (window offset hi) (vobjDataOff p offset segLen) ↔ (7 ≤ segLen → offset < hi) := by
  by_cases h7 : 7 ≤ segLen
  · simp [vobjDataOff, h7, window_w32 (Nat.le_refl offset) (by omega) hhi]
  · simp [vobjDataOff, h7]

-- The reads of a link behind the choice of its data offset `d`.
theorem vobjFields_window {d : Nat} (hlo : offset ≤ d) (hd : d ≤ offset + 1)
    (hhi : hi < 4294967296) :
    (Within (window offset hi) (wordAt p d) ∧ Within (window offset hi) (vobjLabel p len d) ∧
        Within (window offset hi) (vobjPath p len (vobjLabel p len d).val.2)) ↔
      let labelEnd := d + 6 + (halfAt p (d + 4)).val
      let pathOff := if w32 labelEnd ≤ len then w32 labelEnd else d + 6
      PrefixedFits p (d + 4) len 63 offset hi ∧
        (w32 (pathOff + 2) ≤ len → PrefixedFits p pathOff len 127 offset hi) := by
  dsimp only
  rw [wordAt_window hlo (by omega) hhi, vobjLabel_window hlo (by omega) hhi]
  constructor
  · rintro ⟨-, hlabel, hpath⟩
    have hd6 : d + 4 + 2 ≤ hi := hlabel.2.1
    refine ⟨hlabel, ?_⟩
    rw [vobjLabel_off (by omega), vobjPath_window (pathOff_lt _ _ (by omega)) hhi] at hpath
    exact hpath
  · rintro ⟨hlabel, hpath⟩
    have hd6 : d + 4 + 2 ≤ hi := hlabel.2.1
    refine ⟨by omega, hlabel, ?_⟩
    rw [vobjLabel_off (by omega), vobjPath_window (pathOff_lt _ _ (by omega)) hhi]
    exact hpath

theorem decodeVobj_window (style : TadStyle) (ho : offset < 4294967296) (hhi : hi < 4294967296) :
    Within (window offset hi) (decodeVobj p len style offset segLen) ↔
      VobjFits p len offset segLen hi := by
  unfold decodeVobj VobjFits
  simp only [within_bind, within_pure, and_true]
  rw [vobjDataOff_window hhi, vobjDataOff_val ho]
  by_cases hs : 7 ≤ segLen ∧ p offset = 0
  · rw [if_pos hs, if_pos hs]
    constructor
    · rintro ⟨hoff, hrest⟩
      have hw : w32 (offset + 1) = offset + 1 := w32_of_lt (by have := hoff hs.1; omega)
      rw [hw] at hrest
      exact (vobjFields_window (by omega) (by omega) hhi).mp hrest
    · intro hfits
      have hd6 : offset + 1 + 4 + 2 ≤ hi := hfits.1.2.1
      have hw : w32 (offset + 1) = offset + 1 := w32_of_lt (by omega)
      refine ⟨fun _ => by omega, ?_⟩
      rw [hw]
      exact (vobjFields_window (by omega) (by omega) hhi).mpr hfits
  · rw [if_neg hs, if_neg hs, vobjFields_window (by omega) (by omega) hhi]
    refine and_iff_right_of_imp fun hfits => ?_
    have hd6 : offset + 4 + 2 ≤ hi := hfits.1.2.1
    omega

theorem figureTexts_window (hhi : hi < 4294967296) :
    Within (window offset hi) (figureTexts p offset segLen) ↔
      let segEnd := w32 (offset + segLen)
      let nextOff := w32 (offset + 8 + (halfAt p (offset + 6)).val)
      PrefixedFits p (offset + 6) segEnd 127 offset hi ∧
        (w32 (nextOff + 2) ≤ segEnd → PrefixedFits p nextOff segEnd 127 offset hi) := by
  have hlen : ∀ i limit room, (prefixed p i limit room).val.1 = (halfAt p i).val := by
    intro i limit room
    unfold prefixed
    simp only [val_bind, val_ite, val_pure]
    split <;> rfl
  unfold figureTexts
  dsimp only
  rw [within_bind, prefixed_window (by omega) (by omega) hhi (by decide), hlen, within_ite]
  simp only [within_bind, within_pure, and_true, implies_true]
  refine and_congr_right fun _ => forall_congr' fun _ => ?_
  exact prefixed_window (Nat.lt_add_right _ (w32_lt _)) (fun _ => w32_lt _) hhi (by decide)

theorem figureShape_window (hhi : hi < 4294967296) :
    Within (window offset hi) (figureShape p offset segLen) ↔
      (5 ≤ segLen → offset + 5 ≤ hi) ∧ (6 ≤ segLen → offset + 6 ≤ hi) := by
  unfold figureShape
  rw [within_ite]
  simp only [within_bind, within_pure, and_true, implies_true, within_ite, within_byteAt]
  rw [halfAt_window (by omega) (by omega) hhi, halfAt_window (by omega) (by omega) hhi,
    window_w32 (by omega) (by omega) hhi]
  omega

theorem decodeFprim_window (style : TadStyle) (ho : offset < 4294967296)
    (hhi : hi < 4294967296) :
    Within (window offset hi) (decodeFprim p style offset segLen) ↔
      FprimFits p offset segLen hi := by
  unfold decodeFprim FprimFits
  rw [within_bind, within_byteAt, window_w32 (Nat.le_refl _) (by omega) hhi, val_byteAt,
    w32_of_lt ho, within_ite]
  refine and_congr_right fun _ => ?_
  simp only [within_bind, within_pure, and_true, implies_true, within_ite]
  refine forall_congr' fun _ => ?_
  rw [figureShape_window hhi, figureTexts_window hhi, and_assoc]

theorem decodeSegment_window (style : TadStyle) (tag : Nat) (ho : offset < 4294967296)
    (hhi : hi < 4294967296) :
    Within (window offset hi) (decodeSegment p len style tag offset segLen) ↔
      PayloadFits p len tag offset segLen hi := by
  unfold decodeSegment PayloadFits
  by_cases h1 : tag = 0xA1
  · subst h1
    simp only [if_true, within_ite, within_bind, within_byteAt, within_pure, and_true, implies_true,
      window_w32 (Nat.le_refl offset) (by omega) hhi,
      window_w32 (Nat.le_add_right offset 1) (by omega) hhi, Nat.reduceEqDiff, false_imp_iff,
      forall_const]
    exact forall_congr' fun _ => by omega
  by_cases h2 : tag = 0xA2
  · subst h2
    simp only [if_true, within_ite, within_bind, within_byteAt, within_pure, and_true, implies_true,
      window_w32 (Nat.le_refl offset) (by omega) hhi, Nat.reduceEqDiff, false_imp_iff,
      forall_const, if_false, true_and]
    exact forall_congr' fun _ => by omega
  by_cases h3 : tag = 0xA3
  · subst h3
    simp only [if_true, within_ite, within_bind, within_byteAt, within_pure, and_true, implies_true,
      window_w32 (Nat.le_refl offset) (by omega) hhi,
      halfAt_window (Nat.le_add_right offset 1) (by omega) hhi,
      window_w32 (Nat.le_add_right offset 3) (by omega) hhi,
      window_w32 (Nat.le_add_right offset 4) (by omega) hhi,
      window_w32 (Nat.le_add_right offset 5) (by omega) hhi, Nat.reduceEqDiff, false_imp_iff,
      forall_const, if_false, true_and]
    exact forall_congr' fun _ => by omega
  by_cases h4 : tag = 0xA8
  · subst h4
    simp only [if_true, within_ite, within_bind, within_pure, and_true, implies_true,
      decodeVobj_window style ho hhi, Nat.reduceEqDiff, false_imp_iff, forall_const, if_false,
      true_and]
  by_cases h5 : tag = 0xB0
  · subst h5
    simp only [if_true, within_bind, within_pure, and_true, decodeFprim_window style ho hhi,
      Nat.reduceEqDiff, false_imp_iff, forall_const, if_false, true_and]
  simp only [h1, h2, h3, h4, h5, if_false, within_pure, false_imp_iff, and_true]

end Payload

-- The header lies in the buffer unless the guard has wrapped around.
theorem segHeader_window (b : Buffer) {o : Nat} (ho : o < 4294967296) :
    Within (window 0 b.len) (segHeader b.bytes o) ↔ o + 6 ≤ b.len := by
  have hlen := b.len_lt
  unfold segHeader
  simp only [within_bind, within_byteAt, within_pure, and_true]
  rw [window_w32 (Nat.zero_le _) (by omega) hlen]
  constructor
  · rintro ⟨h0, h1, h2⟩
    rw [window_w32 (Nat.zero_le _) (by omega) hlen] at h1
    unfold wordAt at h2
    simp only [within_bind, within_byteAt, within_pure, and_true] at h2
    obtain ⟨h2, h3, h4, h5⟩ := h2
    rw [window_w32 (Nat.zero_le _) (by omega) hlen] at h2
    rw [window_w32 (Nat.zero_le _) (by omega) hlen] at h3
    rw [window_w32 (Nat.zero_le _) (by omega) hlen] at h4
    rw [window_w32 (Nat.zero_le _) (by omega) hlen] at h5
    omega
  · intro h
    rw [window_w32 (Nat.zero_le _) (by omega) hlen,
      wordAt_window (Nat.zero_le _) (by omega) hlen]
    omega

-- The reads of segments stay inside exactly when, at every segment the loop comes to, the
-- header lies in the buffer and the fields decoded lie in the payload and in the buffer.
theorem readsInside_iff (b : Buffer) :
    ReadsInside b ↔
      ∀ s, Reaches (loadStep b) loadStart s → Guard b s → b.bytes s.offset = 0xFF →
        let header := (segHeader b.bytes s.offset).val
        let offset := w32 (s.offset + 6)
        s.offset + 6 ≤ b.len ∧ (w32 (offset + header.2) ≤ b.len →
          PayloadFits b.bytes b.len header.1 offset header.2 (min (offset + header.2) b.len)) := by
  have hlen := b.len_lt
  refine forall_congr' fun s => forall_congr' fun hreach => forall_congr' fun _ =>
    forall_congr' fun _ => ?_
  dsimp only
  rw [segHeader_window b (offset_lt hreach)]
  refine and_congr_right fun _ => ?_
  unfold segBody
  dsimp only
  rw [within_ite]
  simp only [within_pure, implies_true, true_and, within_bind, and_true, Nat.not_lt]
  refine forall_congr' fun _ => ?_
  exact decodeSegment_window s.style _ (w32_lt _) (by omega)

theorem halfAt_val (p : Memory) (i : Nat) :
    (halfAt p i).val = (p (w32 i)).toNat * 256 + (p (w32 (i + 1))).toNat := by
  have hlow := (p (w32 (i + 1))).toNat_lt
  simp only [halfAt, val_bind, val_byteAt, val_pure]
  exact or_eq_add 8 _ hlow

theorem wordAt_val (p : Memory) (i : Nat) :
    (wordAt p i).val = (((p (w32 i)).toNat * 256 + (p (w32 (i + 1))).toNat) * 256 +
      (p (w32 (i + 2))).toNat) * 256 + (p (w32 (i + 3))).toNat := by
  have hshift : ∀ a b c d : Nat, a <<< 24 ||| b <<< 16 ||| c <<< 8 ||| d =
      ((a <<< 8 ||| b) <<< 8 ||| c) <<< 8 ||| d := fun a b c d => by
    simp only [Nat.shiftLeft_or_distrib, ← Nat.shiftLeft_add]
  have h1 := (p (w32 (i + 1))).toNat_lt
  have h2 := (p (w32 (i + 2))).toNat_lt
  have h3 := (p (w32 (i + 3))).toNat_lt
  simp only [wordAt, val_bind, val_byteAt, val_pure, hshift]
  rw [or_eq_add 8 _ h1, or_eq_add 8 _ h2, or_eq_add 8 _ h3]
  omega

theorem halfAt_lt (p : Memory) (i : Nat) : (halfAt p i).val < 65536 := by
  have hhigh := (p (w32 i)).toNat_lt
  have hlow := (p (w32 (i + 1))).toNat_lt
  rw [halfAt_val]
  omega

-- In a segment that ends in the buffer only the figure without its SubID and the link can
-- be read past their payload.
theorem payloadFits_iff {p : Memory} {len tag offset segLen : Nat}
    (hlen : len + 131072 ≤ 4294967296)
    (hend : offset + segLen ≤ len) :
    PayloadFits p len tag offset segLen (min (offset + segLen) len) ↔
      (tag = 0xA8 → 5 ≤ segLen → VobjFits p len offset segLen (offset + segLen)) ∧
        (tag = 0xB0 → 1 ≤ segLen) := by
  have hw : w32 (offset + segLen) = offset + segLen := w32_of_lt (by omega)
  have hfprim : FprimFits p offset segLen (offset + segLen) ↔ 1 ≤ segLen := by
    refine ⟨fun h => by have := h.1; omega, fun h1 => ⟨by omega, fun _ => ?_⟩⟩
    have hinside : ∀ i, offset ≤ i → i + 2 ≤ offset + segLen →
        PrefixedFits p i (offset + segLen) 127 offset (offset + segLen) := by
      intro i hlo hi
      have hn : (halfAt p i).val < 65536 := halfAt_lt p i
      refine ⟨hlo, hi, fun hn' => ?_⟩
      rw [w32_of_lt (by omega)] at hn'
      omega
    refine ⟨fun _ => by omega, fun _ => by omega, fun h8 => ?_⟩
    rw [hw]
    have hn := halfAt_lt p (offset + 6)
    rw [w32_of_lt (show offset + 8 + (halfAt p (offset + 6)).val < 4294967296 by omega)]
    refine ⟨hinside _ (by omega) (by omega), fun hnext => hinside _ (by omega) ?_⟩
    rwa [w32_of_lt (by omega)] at hnext
  rw [Nat.min_eq_left hend]
  unfold PayloadFits
  rw [hfprim]
  constructor
  · exact fun h => ⟨h.2.2.2.1, h.2.2.2.2⟩
  · exact fun h => ⟨fun _ _ => by omega, fun _ _ => by omega, fun _ _ => by omega, h.1, h.2⟩

-- A figure segment of length 0 at the end: its SubID is read behind the buffer.
def emptyFigureTad : Buffer :=
  .ofBytes [0x00, 0x01, 0x00, 0x00, 0x00, 0x06, 0xFF, 0xB0, 0x00, 0x00, 0x00, 0x00] (by decide)

theorem emptyFigureTad_overreads :
    isBinaryTad emptyFigureTad ∧
      12 ∈ (segBody emptyFigureTad.bytes 12 loadStart 0xB0 0).log ∧
      ¬ReadsInside emptyFigureTad := by
  have hlog : 12 ∈ (segBody emptyFigureTad.bytes 12 loadStart 0xB0 0).log := by decide
  refine ⟨by decide, hlog, fun h => ?_⟩
  have hin := (h loadStart .refl ⟨by decide, by decide⟩ rfl).2 12 hlog
  exact absurd hin.2 (by decide)

end BTron.TadBrowser
