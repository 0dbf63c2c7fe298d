import BTron.TronCode.Chars

namespace BTron.TronCode

open Lib Lib.Logged Lib.Utf8
open Editor (tcGetCharAdvance)
open Graphics (asH)
open String (utf8EncodeChar)

-- The sums of the two advance rules over the codes of a string, each with its own previous code.
def measured : TC → List TC → Int
  | _, [] => 0
  | prev, code :: codes =>
    tcGetCharAdvance code prev + measured (prevAfter code prev (tcGetCharAdvance code prev)) codes

def penAdvance (code prev : TC) : Int :=
  if code = 0x20 ∧ prev = 0x6F0B then 0 else drawAdvance code

def penPrev (code prev : TC) : TC :=
  if (code = 0x20 ∧ prev = 0x6F0B) ∨ isCombining code then prev else code

def penMoves : TC → List TC → Int
  | _, [] => 0
  | prev, code :: codes => penAdvance code prev + penMoves (penPrev code prev) codes

-- A code of the Cyrillic block without a glyph of its own
def Glyphless (code : TC) : Prop := code >>> 8 = 0x27 ∧ ¬HasCyrillicGlyph (code &&& 0xFF)

instance (code : TC) : Decidable (Glyphless code) := inferInstanceAs (Decidable (_ ∧ _))

-- What a character follows, the signs that combine left out: a tsheg, the spaces behind a tsheg,
-- or anything else.
inductive Behind
  | other
  | tsheg
  | spaces
deriving DecidableEq

def Behind.after (b : Behind) (code : TC) : Behind :=
  if isCombining code then b
  else if code = 0x6F0B then .tsheg
  else if code = 0x20 ∧ b ≠ .other then .spaces
  else .other

-- The spaces behind a tsheg and a space.
def extraSpaces : Behind → List TC → Nat
  | _, [] => 0
  | b, code :: codes =>
    (if code = 0x20 ∧ b = .spaces then 1 else 0) + extraSpaces (b.after code) codes

def glyphless (codes : List TC) : Nat := codes.countP fun code => decide (Glyphless code)

-- The previous codes of the measuring and of the drawing, behind the same characters.
def Tracks (b : Behind) (p q : TC) : Prop :=
  match b with
  | .other => p ≠ 0x6F0B ∧ q ≠ 0x6F0B
  | .tsheg => p = 0x6F0B ∧ q = 0x6F0B
  | .spaces => p = 0x20 ∧ q = 0x6F0B

theorem tcGetCharAdvance_tibetan {code : TC} (h : code >>> 8 = 0x6F) (prev : TC) :
    tcGetCharAdvance code prev = drawAdvance code := by
  have hcalc : tcGetCharAdvance code prev =
      if IsCombining (tibetanCp code) then 0
      else if tibetanCp code = 0x0F0B ∨ tibetanCp code = 0x0F0C ∨ tibetanCp code = 0x0F0D ∨
        tibetanCp code = 0x0F0E then 3
      else 8 := if_pos h
  rw [hcalc, drawAdvance, if_pos h]
  dsimp only
  split_ifs <;> first | rfl | omega

theorem drawAdvance_pos_iff {code : TC} (h : code >>> 8 = 0x6F) :
    drawAdvance code > 0 ↔ ¬isCombining code := by
  rw [drawAdvance, if_pos h]
  simp only [isCombining, h, true_and, decide_eq_true_eq]
  split_ifs <;> simp [*]

-- Outside the Tibetan block and but for the space, the drawing is wider where a glyph is missing.
theorem drawAdvance_other {code : TC} (h : ¬code >>> 8 = 0x6F) (hsp : code ≠ 0x20) (prev : TC) :
    drawAdvance code = tcGetCharAdvance code prev + if Glyphless code then 8 else 0 := by
  unfold drawAdvance tcGetCharAdvance glyphWidth Glyphless
  simp only [h, hsp, if_false]
  by_cases hascii : code < 128
  · have hhigh : ¬code >>> 8 = 0x27 := by
      rw [Nat.shiftRight_eq_div_pow, Nat.div_eq_of_lt (Nat.lt_trans hascii (by decide))]
      decide
    simp [hascii, hhigh]
  · by_cases hcyr : code >>> 8 = 0x27
    · by_cases hglyph : HasCyrillicGlyph (code &&& 0xFF) <;> simp [hascii, hcyr, hglyph]
    · simp [hascii, hcyr]

theorem isCombining_other {code : TC} (h : ¬code >>> 8 = 0x6F) : isCombining code = false := by
  simp [isCombining, h]

theorem prevAfter_tibetan {code prev : TC} (h : code >>> 8 = 0x6F) :
    prevAfter code prev (tcGetCharAdvance code prev) = if isCombining code then prev else code := by
  rw [tcGetCharAdvance_tibetan h, prevAfter]
  simp only [drawAdvance_pos_iff h, h, ne_eq, not_true, or_false]
  cases isCombining code <;> rfl

theorem prevAfter_other {code prev : TC} {adv : Int} (h : ¬code >>> 8 = 0x6F) :
    prevAfter code prev adv = code := if_pos (.inr h)

-- One character: the spaces that only the drawing leaves out and the glyphs that are missing
-- make the difference.
theorem advance_step {b : Behind} {p q : TC} (h : Tracks b p q) (code : TC) :
    penAdvance code q + 6 * (if code = 0x20 ∧ b = .spaces then 1 else 0 : Nat) =
      tcGetCharAdvance code p + 8 * (if Glyphless code then 1 else 0 : Nat) ∧
    Tracks (b.after code) (prevAfter code p (tcGetCharAdvance code p)) (penPrev code q) := by
  by_cases htib : code >>> 8 = 0x6F
  · have hsp : code ≠ 0x20 := by
      rintro rfl
      exact absurd htib (by decide)
    have hglyph : ¬Glyphless code := by
      rintro ⟨hcyr, -⟩
      rw [hcyr] at htib
      exact absurd htib (by decide)
    rw [prevAfter_tibetan htib, tcGetCharAdvance_tibetan htib]
    simp only [penAdvance, penPrev, Behind.after, hsp, hglyph, false_and, false_or, if_false]
    refine ⟨by omega, ?_⟩
    by_cases hcomb : isCombining code = true
    · simpa only [hcomb, if_true] using h
    · simp only [hcomb, if_false, Bool.false_eq_true]
      split
      · rename_i htsheg
        exact ⟨htsheg, htsheg⟩
      · rename_i htsheg
        exact ⟨htsheg, htsheg⟩
  · have hcomb := isCombining_other htib
    have htsheg : code ≠ 0x6F0B := by
      rintro rfl
      exact absurd htib (by decide)
    rw [prevAfter_other htib]
    by_cases hsp : code = 0x20
    · subst hsp
      have hcalc : tcGetCharAdvance 0x20 p = if p = 0x6F0B then 0 else 6 := rfl
      have hdraw : drawAdvance 0x20 = 6 := rfl
      have hglyph : ¬Glyphless 0x20 := by decide
      simp only [penAdvance, penPrev, Behind.after, hcalc, hdraw, hcomb, hglyph, true_and,
        if_false, Bool.false_eq_true, or_false]
      cases b with
      | other => simp [Tracks, h.1, h.2]
      | tsheg => simp [Tracks, h.1, h.2]
      | spaces => simp [Tracks, h.1, h.2]
    · have hdraw := drawAdvance_other htib hsp p
      simp only [penAdvance, penPrev, Behind.after, hcomb, hsp, htsheg, false_and, false_or,
        if_false, Bool.false_eq_true]
      refine ⟨?_, htsheg, htsheg⟩
      rw [hdraw]
      split <;> omega

theorem penMoves_eq {b : Behind} {p q : TC} (h : Tracks b p q) (codes : List TC) :
    penMoves q codes + 6 * extraSpaces b codes = measured p codes + 8 * glyphless codes := by
  induction codes generalizing b p q with
  | nil => rfl
  | cons code codes ih =>
      obtain ⟨hadv, hnext⟩ := advance_step h code
      have hrest := ih hnext
      have hcount : glyphless (code :: codes) =
          glyphless codes + if Glyphless code then 1 else 0 := by
        simp [glyphless, List.countP_cons]
      rw [penMoves, measured, extraSpaces, hcount]
      omega

-- A character that ends neither the string nor a line
def InLine (c : Char) : Prop := 0 < c.toNat ∧ c.toNat ≠ 0x0A ∧ c.toNat ≠ 0x0D

instance (c : Char) : Decidable (InLine c) := inferInstanceAs (Decidable (_ ∧ _))

variable {text : Memory}

theorem asH_add (k n : Int) : asH (asH k + n) = asH (k + n) := Int.bmod_add_bmod

theorem calc_ends {cs : List Char} (hcs : ∀ c ∈ cs, InLine c) {i maxBytes : Nat}
    (h : TextAt text i cs) (hmax : i + (bytes cs).length ≤ maxBytes) (prev : TC) (k : Int) :
    ∃ x, Ends (calcTurn text maxBytes) ⟨i, prev, asH k⟩ x ∧
      x.val = asH (k + measured prev (cs.map tcOf)) := by
  induction cs generalizing i prev k with
  | nil =>
      have h0 : text i = 0 := h.terminator
      refine ⟨_, .stop (b := asH k) ?_, ?_⟩
      · rw [calcTurn, val_read_bind, if_pos (.inl h0)]
        rfl
      · simp [measured]
  | cons c cs ih =>
      obtain ⟨hc, hrest⟩ := List.forall_mem_cons.mp hcs
      obtain ⟨hhead, htail⟩ := textAt_cons.mp h
      rw [bytes_cons, List.length_append] at hmax
      have hpos := encode_length_pos c
      have hgo : ¬(text i = 0 ∨ maxBytes ≤ i ∨ text i = 0x0A ∨ text i = 0x0D) := by
        rintro (h0 | hle | hnl | hcr)
        · exact head_ne_zero hc.1 hhead h0
        · omega
        · exact hc.2.1 ((head_eq_iff (by decide) hhead).mp hnl)
        · exact hc.2.2 ((head_eq_iff (by decide) hhead).mp hcr)
      have hturn : (calcTurn text maxBytes ⟨i, prev, asH k⟩).val =
          .inl ⟨i + (utf8EncodeChar c).length,
            prevAfter (tcOf c) prev (tcGetCharAdvance (tcOf c) prev),
            asH (k + tcGetCharAdvance (tcOf c) prev)⟩ := by
        rw [calcTurn, val_read_bind, if_neg hgo, val_bind, utf8ToTc_char hc.1 hhead, val_pure,
          asH_add, stepOf, if_pos hpos]
      obtain ⟨x, hx, hval⟩ := ih hrest htail (by omega)
        (prevAfter (tcOf c) prev (tcGetCharAdvance (tcOf c) prev))
        (k + tcGetCharAdvance (tcOf c) prev)
      refine ⟨_, .next hturn hx, ?_⟩
      rw [List.map_cons, measured, ← Int.add_assoc]
      exact hval

theorem calc_gives {cs : List Char} (hcs : ∀ c ∈ cs, InLine c) (h : TextAt text 0 cs)
    {maxBytes : Nat} (hmax : (bytes cs).length ≤ maxBytes) :
    Gives (fun fuel => tcCalcStringWidth fuel text maxBytes) (asH (measured 0 (cs.map tcOf))) := by
  unfold tcCalcStringWidth
  by_cases hzero : maxBytes = 0
  · have hnil : cs = [] := by
      cases cs with
      | nil => rfl
      | cons c cs =>
          have hpos := encode_length_pos c
          rw [bytes_cons, List.length_append] at hmax
          omega
    subst hnil
    refine ⟨0, ?_⟩
    simp only [if_pos hzero]
    rfl
  · have hroom : 0 + (bytes cs).length ≤ maxBytes := by omega
    obtain ⟨x, hx, hval⟩ := calc_ends hcs h hroom 0 0
    rw [Int.zero_add] at hval
    simp only [if_neg hzero, ← hval]
    exact hx.gives

theorem renderTurn_char {c : Char} (hc : InLine c) {x : Int} {s : Pen}
    (h : Stored text s.p (utf8EncodeChar c)) :
    ∃ t, (renderTurn text x s).val = .inl t ∧ t.p = s.p + (utf8EncodeChar c).length ∧
      asH (t.curX - x) = asH (s.curX - x + penAdvance (tcOf c) s.prevCode) ∧
      t.prevCode = penPrev (tcOf c) s.prevCode := by
  have hne : ¬text s.p = 0 := head_ne_zero hc.1 h
  have hnl : ¬text s.p = 0x0A := by
    rw [head_eq_iff (by decide) h]
    exact hc.2.1
  rw [renderTurn, val_read_bind, if_neg hne, if_neg hnl, val_bind, val_ite, stepOf_char hc.1 h,
    utf8ToTc_char hc.1 h]
  by_cases hskip : tcOf c = 0x20 ∧ s.prevCode = 0x6F0B
  · rw [if_pos hskip, penAdvance, penPrev, if_pos hskip, if_pos (.inl hskip), Int.add_zero]
    exact ⟨_, rfl, rfl, rfl, rfl⟩
  · rw [if_neg hskip, penAdvance, penPrev, if_neg hskip]
    refine ⟨_, rfl, rfl, ?_, ?_⟩
    · simp only [Pen.draw, Graphics.asH_eq]
      omega
    · simp only [hskip, false_or]
      rfl

theorem render_ends {cs : List Char} (hcs : ∀ c ∈ cs, InLine c) {x k : Int} {s : Pen}
    (h : TextAt text s.p cs) (hk : asH (s.curX - x) = asH k) :
    ∃ r, Ends (renderTurn text x) s r ∧
      asH (r.val.curX - x) = asH (k + penMoves s.prevCode (cs.map tcOf)) := by
  induction cs generalizing s k with
  | nil =>
      have h0 : text s.p = 0 := h.terminator
      refine ⟨_, .stop (b := s) ?_, ?_⟩
      · rw [renderTurn, val_read_bind, if_pos h0]
        rfl
      · simpa [penMoves] using hk
  | cons c cs ih =>
      obtain ⟨hc, hrest⟩ := List.forall_mem_cons.mp hcs
      obtain ⟨hhead, htail⟩ := textAt_cons.mp h
      obtain ⟨t, hturn, hp, hx, hprev⟩ := renderTurn_char (x := x) hc hhead
      have hk' : asH (t.curX - x) = asH (k + penAdvance (tcOf c) s.prevCode) := by
        rw [hx, ← asH_add, hk, asH_add]
      obtain ⟨r, hr, hval⟩ := ih hrest (hp ▸ htail) hk'
      refine ⟨_, .next hturn hr, ?_⟩
      rw [List.map_cons, penMoves, ← Int.add_assoc, ← hprev]
      exact hval

theorem asH_eq_iff (m n : Int) : asH m = asH n ↔ (n - m) % 65536 = 0 := by
  rw [Graphics.asH_eq, Graphics.asH_eq]
  omega

-- What is measured is what is drawn if and only if the glyphs that are missing, 8 dots each,
-- make up for the spaces that only the drawing leaves out, 6 dots each.
theorem width_eq_drawn_iff {cs : List Char} (hcs : ∀ c ∈ cs, InLine c) (h : TextAt text 0 cs)
    {maxBytes : Nat} (hmax : (bytes cs).length ≤ maxBytes) (x y : Int) :
    ∃ w pen, Gives (fun fuel => tcCalcStringWidth fuel text maxBytes) w ∧
      Gives (fun fuel => renderTcString fuel x y text) pen ∧
      (w = asH (pen.curX - x) ↔
        (8 * (glyphless (cs.map tcOf) : Int) - 6 * extraSpaces .other (cs.map tcOf)) % 65536 =
          0) := by
  have hstart : asH ((⟨0, x, y, 0, 0, []⟩ : Pen).curX - x) = asH 0 := by
    simp
  obtain ⟨r, hr, hpen⟩ := render_ends (s := ⟨0, x, y, 0, 0, []⟩) hcs h hstart
  refine ⟨_, r.val, calc_gives hcs h hmax, hr.gives, ?_⟩
  have hmoves := penMoves_eq (b := .other) (p := 0) (q := 0) ⟨by decide, by decide⟩ (cs.map tcOf)
  have hdiff : penMoves 0 (cs.map tcOf) - measured 0 (cs.map tcOf) =
      8 * (glyphless (cs.map tcOf) : Int) - 6 * extraSpaces .other (cs.map tcOf) := by omega
  rw [hpen, Int.zero_add, asH_eq_iff, hdiff]

-- `AЖ`
theorem width_eq_drawn_cyrillic :
    ∃ w pen, Gives (fun fuel => tcCalcStringWidth fuel (ofList (bytes ['A', 'Ж'] ++ [0])) 3) w ∧
      Gives (fun fuel => renderTcString fuel 4 0 (ofList (bytes ['A', 'Ж'] ++ [0]))) pen ∧
      (w = asH (pen.curX - 4) ↔
        (8 * (glyphless (['A', 'Ж'].map tcOf) : Int) -
          6 * extraSpaces .other (['A', 'Ж'].map tcOf)) % 65536 = 0) :=
  width_eq_drawn_iff (by simp [InLine]) (stored_ofList _) (by decide) 4 0

-- A tsheg and two spaces measure 9 dots and are drawn on 3; U+0402, which has no glyph of its
-- own, measures 8 and is drawn on 16.
theorem width_ne_drawn :
    (tcCalcStringWidth 4 (ofList [0xE0, 0xBC, 0x8B, 0x20, 0x20]) 5).val = some 9 ∧
    (renderTcString 4 0 0 (ofList [0xE0, 0xBC, 0x8B, 0x20, 0x20])).val.map (·.curX) = some 3 ∧
    (tcCalcStringWidth 2 (ofList [0xD0, 0x82]) 2).val = some 8 ∧
    (renderTcString 2 0 0 (ofList [0xD0, 0x82])).val.map (·.curX) = some 16 := by
  decide +kernel

end BTron.TronCode
