import BTron.TronCode.Advances
import BTron.TronCode.Scans
import BTron.Window

namespace BTron.TronCode

open Lib Lib.Logged Lib.Utf8
open Graphics (asH)
open String (utf8EncodeChar)

-- A turn of the loops that add up the width of a text: `rule` gives the bytes to skip and the
-- width for them, `wrap` stores the sum.
def sumTurn (rule : Memory → Nat → Logged (Nat × Int)) (wrap : Int → Int) (str : Memory)
    (s : Nat × Int) : Logged (Nat × Int ⊕ Int) := do
  let c ← read str s.1
  if c = 0 then pure (.inr s.2)
  else do
    let m ← rule str s.1
    pure (.inl (s.1 + m.1, wrap (s.2 + m.2)))

-- The rule of the terminal and of the title tab
def leadRule (str : Memory) (i : Nat) : Logged (Nat × Int) := do
  let c ← read str i
  if c < 0x80 then pure (1, 8)
  else if c &&& 0xE0 = 0xC0 then pure (2, 8)
  else if c &&& 0xF0 = 0xE0 then pure (3, 16)
  else pure (1, 8)

-- `p[1] && p[2] && ..`, of `n` bytes
def present (str : Memory) : Nat → Nat → Logged Bool
  | 0, _ => pure true
  | n + 1, i => do
    let c ← read str i
    if c = 0 then pure false else present str n (i + 1)

def trackerRule (str : Memory) (i : Nat) : Logged (Nat × Int) := do
  let c ← read str i
  if c = 0x0A then pure (1, 0)
  else if c < 0x80 then pure (1, 8)
  else if c &&& 0xE0 = 0xC0 then do
    let whole ← present str 1 (i + 1)
    pure (if whole then 2 else 1, 16)
  else if c &&& 0xF0 = 0xE0 then do
    let whole ← present str 2 (i + 1)
    pure (if whole then 3 else 1, 16)
  else if c &&& 0xF8 = 0xF0 then do
    let whole ← present str 3 (i + 1)
    pure (if whole then 4 else 1, 16)
  else pure (1, 8)

def gtermCalcTextPixelWidth (fuel : Nat) (str : Memory) : Logged (Option Int) :=
  loop (sumTurn leadRule id str) fuel (0, 0)

def trackerCalcTextWidth (fuel : Nat) (text : Memory) : Logged (Option Int) :=
  loop (sumTurn trackerRule asH text) fuel (0, 0)

-- `calculate_title_display_width` of a text of any length
def titleDisplayWidth (fuel : Nat) (s : Memory) : Logged (Option Int) :=
  loop (sumTurn leadRule asH s) fuel (0, 0)

-- What the rules come to for a character.
def leadWidth (c : Char) : Int :=
  if c.toNat < 0x800 then 8 else if c.toNat < 0x10000 then 16 else 32

def trackerWidth (c : Char) : Int := if c.toNat < 0x80 then 8 else 16

def total (width : Char → Int) : List Char → Int
  | [] => 0
  | c :: cs => width c + total width cs

variable {str : Memory} {i : Nat} {c : Char} {cs : List Char} {wrap : Int → Int}

-- A byte in the midst of a character
def IsTail (b : UB) : Prop := ∃ k, b = UInt8.ofNat (0x80 + k % 64)

theorem IsTail.lead {b : UB} (h : IsTail b) :
    b ≠ 0 ∧ ¬ b < 0x80 ∧ ¬ b &&& 0xE0 = 0xC0 ∧ ¬ b &&& 0xF0 = 0xE0 := by
  obtain ⟨k, rfl⟩ := h
  have htable : ∀ k : Fin 64,
      UInt8.ofNat (0x80 + k.val) ≠ 0 ∧ ¬UInt8.ofNat (0x80 + k.val) < 0x80 ∧
      ¬UInt8.ofNat (0x80 + k.val) &&& 0xE0 = 0xC0 ∧
      ¬UInt8.ofNat (0x80 + k.val) &&& 0xF0 = 0xE0 := by decide
  exact htable ⟨k % 64, Nat.mod_lt _ (by decide)⟩

-- The first byte of a character tells how many bytes it has.
theorem leadStep_char (h0 : 0 < c.toNat) (h : Stored str i (utf8EncodeChar c)) :
    leadStep (str i) = (utf8EncodeChar c).length := by
  rw [← stepOf_eq (head_ne_zero h0 h), stepOf_char h0 h]

theorem leadStep_two {b : UB} (h : leadStep b = 2) : ¬b < 0x80 ∧ b &&& 0xE0 = 0xC0 := by
  unfold leadStep at h
  split_ifs at h with h1 h2
  all_goals first | omega | exact ⟨h1, h2⟩

theorem leadStep_three {b : UB} (h : leadStep b = 3) :
    ¬b < 0x80 ∧ ¬b &&& 0xE0 = 0xC0 ∧ b &&& 0xF0 = 0xE0 := by
  unfold leadStep at h
  split_ifs at h with h1 h2 h3
  all_goals first | omega | exact ⟨h1, h2, h3⟩

theorem leadStep_four {b : UB} (h : leadStep b = 4) :
    ¬b < 0x80 ∧ ¬b &&& 0xE0 = 0xC0 ∧ ¬b &&& 0xF0 = 0xE0 ∧ b &&& 0xF8 = 0xF0 := by
  unfold leadStep at h
  split_ifs at h with h1 h2 h3 h4
  all_goals first | omega | exact ⟨h1, h2, h3, h4⟩

-- The turn at a byte that does not end the text
theorem sumTurn_go {rule : Memory → Nat → Logged (Nat × Int)} (hne : str i ≠ 0) (k : Int) :
    (sumTurn rule wrap str (i, k)).val =
      .inl (i + (rule str i).val.1, wrap (k + (rule str i).val.2)) := by
  rw [sumTurn, val_read_bind, if_neg hne, val_bind, val_pure]

theorem sumTurn_end {rule : Memory → Nat → Logged (Nat × Int)} (h : str i = 0) (k : Int) :
    (sumTurn rule wrap str (i, k)).val = .inr k := by
  rw [sumTurn, val_read_bind, if_pos h, val_pure]

theorem one_byte (h1 : c.toNat < 0x80) (h : Stored str i (utf8EncodeChar c)) : str i < 0x80 := by
  rw [encode_one h1, stored_cons] at h
  rw [h.1, UInt8.lt_iff_toNat_lt, UInt8.toNat_ofNat_of_lt' (show c.toNat < 256 by omega)]
  exact h1

theorem leadRule_char (h0 : 0 < c.toNat) (hbmp : c.toNat < 0x10000)
    (h : Stored str i (utf8EncodeChar c)) :
    (leadRule str i).val = ((utf8EncodeChar c).length, leadWidth c) := by
  have hstep := leadStep_char h0 h
  rw [leadRule, val_read_bind, leadWidth]
  by_cases h1 : c.toNat < 0x80
  · rw [if_pos (one_byte h1 h), encode_one h1, if_pos (by omega)]
    rfl
  · by_cases h2 : c.toNat < 0x800
    · rw [encode_two (by omega) h2] at hstep ⊢
      obtain ⟨hn1, hn2⟩ := leadStep_two hstep
      rw [if_neg hn1, if_pos hn2, if_pos h2]
      rfl
    · rw [encode_three (by omega) hbmp] at hstep ⊢
      obtain ⟨hn1, hn2, hn3⟩ := leadStep_three hstep
      rw [if_neg hn1, if_neg hn2, if_pos hn3, if_neg h2, if_pos hbmp]
      rfl

theorem leadRule_tail (h : IsTail (str i)) : (leadRule str i).val = (1, 8) := by
  obtain ⟨-, hn1, hn2, hn3⟩ := h.lead
  rw [leadRule, val_read_bind, if_neg hn1, if_neg hn2, if_neg hn3]
  rfl

-- Beyond the basic plane each of the four bytes counts by itself.
theorem leadRule_four (h : leadStep (str i) = 4) : (leadRule str i).val = (1, 8) := by
  obtain ⟨hn1, hn2, hn3, -⟩ := leadStep_four h
  rw [leadRule, val_read_bind, if_neg hn1, if_neg hn2, if_neg hn3]
  rfl

variable {rule : Memory → Nat → Logged (Nat × Int)}

theorem reaches_one (hwrap : ∀ a b, wrap (wrap a + b) = wrap (a + b)) (hne : str i ≠ 0)
    {step : Nat} {w : Int} (hrule : (rule str i).val = (step, w)) (k : Int) :
    Reaches (turn (sumTurn rule wrap str)) (i, wrap k) (i + step, wrap (k + w)) := by
  refine .single (next_turn.mpr ?_)
  rw [sumTurn_go hne, hrule, hwrap]

theorem lead_reaches (hwrap : ∀ a b, wrap (wrap a + b) = wrap (a + b)) (h0 : 0 < c.toNat)
    (h : Stored str i (utf8EncodeChar c)) (k : Int) :
    Reaches (turn (sumTurn leadRule wrap str)) (i, wrap k)
      (i + (utf8EncodeChar c).length, wrap (k + leadWidth c)) := by
  have hne := head_ne_zero h0 h
  by_cases hbmp : c.toNat < 0x10000
  · exact reaches_one hwrap hne (leadRule_char h0 hbmp h) k
  · have hstep := leadStep_char h0 h
    rw [encode_four (Nat.le_of_not_lt hbmp)] at h hstep ⊢
    simp only [stored_cons] at h
    obtain ⟨-, hs1, hs2, hs3, -⟩ := h
    have ht1 : IsTail (str (i + 1)) := ⟨_, hs1⟩
    have ht2 : IsTail (str (i + 1 + 1)) := ⟨_, hs2⟩
    have ht3 : IsTail (str (i + 1 + 1 + 1)) := ⟨_, hs3⟩
    have hrun := (((reaches_one hwrap hne (leadRule_four hstep) k).trans
      (reaches_one hwrap ht1.lead.1 (leadRule_tail ht1) _)).trans
      (reaches_one hwrap ht2.lead.1 (leadRule_tail ht2) _)).trans
      (reaches_one hwrap ht3.lead.1 (leadRule_tail ht3) _)
    have hwidth : k + leadWidth c = k + 8 + 8 + 8 + 8 := by
      rw [leadWidth, if_neg (by omega), if_neg hbmp]
      omega
    rw [hwidth]
    exact hrun

theorem present_tail {n : Nat} (h : ∀ j < n, IsTail (str (i + j))) :
    (present str n i).val = true := by
  induction n generalizing i with
  | zero => rfl
  | succ n ih =>
      have hhead : IsTail (str i) := h 0 (Nat.succ_pos n)
      rw [present, val_read_bind, if_neg hhead.lead.1]
      refine ih fun j hj => ?_
      rw [Nat.add_right_comm, Nat.add_assoc]
      exact h (j + 1) (by omega)

theorem trackerRule_char (hc : InLine c) (h : Stored str i (utf8EncodeChar c)) :
    (trackerRule str i).val = ((utf8EncodeChar c).length, trackerWidth c) := by
  have hstep := leadStep_char hc.1 h
  have hnl : ¬str i = 0x0A := by
    rw [head_eq_iff (by decide) h]
    exact hc.2.1
  rw [trackerRule, val_read_bind, if_neg hnl, trackerWidth]
  by_cases h1 : c.toNat < 0x80
  · rw [if_pos (one_byte h1 h), encode_one h1, if_pos h1]
    rfl
  rw [if_neg h1]
  by_cases h2 : c.toNat < 0x800
  · rw [encode_two (by omega) h2] at hstep h ⊢
    simp only [stored_cons] at h
    obtain ⟨hn1, hn2⟩ := leadStep_two hstep
    have htails : (present str 1 (i + 1)).val = true := present_tail fun j hj => by
      obtain rfl : j = 0 := by omega
      exact ⟨_, h.2.1⟩
    rw [if_neg hn1, if_pos hn2, val_bind, htails]
    rfl
  by_cases h3 : c.toNat < 0x10000
  · rw [encode_three (by omega) h3] at hstep h ⊢
    simp only [stored_cons] at h
    obtain ⟨hn1, hn2, hn3⟩ := leadStep_three hstep
    have htails : (present str 2 (i + 1)).val = true := present_tail fun j hj => by
      obtain rfl | rfl : j = 0 ∨ j = 1 := by omega
      · exact ⟨_, h.2.1⟩
      · exact ⟨_, h.2.2.1⟩
    rw [if_neg hn1, if_neg hn2, if_pos hn3, val_bind, htails]
    rfl
  · rw [encode_four (by omega)] at hstep h ⊢
    simp only [stored_cons] at h
    obtain ⟨hn1, hn2, hn3, hn4⟩ := leadStep_four hstep
    have htails : (present str 3 (i + 1)).val = true := present_tail fun j hj => by
      obtain rfl | rfl | rfl : j = 0 ∨ j = 1 ∨ j = 2 := by omega
      · exact ⟨_, h.2.1⟩
      · exact ⟨_, h.2.2.1⟩
      · exact ⟨_, h.2.2.2.1⟩
    rw [if_neg hn1, if_neg hn2, if_neg hn3, if_pos hn4, val_bind, htails]
    rfl

-- A text adds up to the widths of its characters.
theorem sum_gives {width : Char → Int}
    (hchar : ∀ c ∈ cs, ∀ i k, Stored str i (utf8EncodeChar c) →
      Reaches (turn (sumTurn rule wrap str)) (i, wrap k)
        (i + (utf8EncodeChar c).length, wrap (k + width c)))
    (h : TextAt str i cs) (k : Int) :
    ∃ x, Ends (sumTurn rule wrap str) (i, wrap k) x ∧ x.val = wrap (k + total width cs) := by
  induction cs generalizing i k with
  | nil =>
      refine ⟨_, .stop (sumTurn_end (TextAt.terminator h) _), ?_⟩
      rw [total, Int.add_zero]
  | cons c cs ih =>
      rw [List.forall_mem_cons] at hchar
      obtain ⟨hhead, htail⟩ := textAt_cons.mp h
      obtain ⟨x, hx, hval⟩ := ih hchar.2 htail (k + width c)
      obtain ⟨y, hy, hsame⟩ := hx.of_later (hchar.1 i k hhead)
      refine ⟨y, hy, ?_⟩
      rw [hsame, hval, total, Int.add_assoc]

-- The characters on which the terminal and the drawing differ.
def IsStacked (c : Char) : Prop := isCombining (tcOf c)

-- A tsheg or a shad
def IsMark (c : Char) : Prop := 0x6F0B ≤ tcOf c ∧ tcOf c ≤ 0x6F0E

def IsBase (c : Char) : Prop := tcOf c >>> 8 = 0x6F ∧ ¬IsStacked c ∧ ¬IsMark c

-- Two bytes, and no half-width glyph
def IsFullTwo (c : Char) : Prop :=
  0x80 ≤ c.toNat ∧ c.toNat < 0x800 ∧
    ¬(tcOf c >>> 8 = 0x27 ∧ HasCyrillicGlyph (tcOf c &&& 0xFF))

def IsFour (c : Char) : Prop := 0x10000 ≤ c.toNat

instance (c : Char) : Decidable (IsStacked c) := inferInstanceAs (Decidable (_ = _))
instance (c : Char) : Decidable (IsMark c) := inferInstanceAs (Decidable (_ ∧ _))
instance (c : Char) : Decidable (IsBase c) := inferInstanceAs (Decidable (_ ∧ _))
instance (c : Char) : Decidable (IsFullTwo c) := inferInstanceAs (Decidable (_ ∧ _))
instance (c : Char) : Decidable (IsFour c) := inferInstanceAs (Decidable (_ ≤ _))

-- The spaces that the drawing leaves out, all of them behind a tsheg.
def spacesLeftOut : TC → List TC → Nat
  | _, [] => 0
  | prev, code :: codes =>
    (if code = 0x20 ∧ prev = 0x6F0B then 1 else 0) + spacesLeftOut (penPrev code prev) codes

-- What the terminal measures too much, the full-width characters of two bytes make up for.
def Balanced (cs : List Char) : Prop :=
  2 * cs.countP (· = ' ') + 6 * spacesLeftOut 0 (cs.map tcOf) + 16 * cs.countP (IsStacked ·) +
      13 * cs.countP (IsMark ·) + 8 * cs.countP (IsBase ·) + 16 * cs.countP (IsFour ·) =
    8 * cs.countP (IsFullTwo ·)

instance (cs : List Char) : Decidable (Balanced cs) := inferInstanceAs (Decidable (_ = _))

theorem high_or {a lo : Nat} (h : lo < 256) : (a ||| lo) >>> 8 = a >>> 8 := by
  have hlo : lo >>> 8 = 0 := by
    rw [Nat.shiftRight_eq_div_pow]
    exact Nat.div_eq_of_lt h
  rw [Nat.shiftRight_or_distrib, hlo, Nat.or_zero]

theorem tcOf_one (h : c.toNat < 0x80) : tcOf c = c.toNat := by
  rw [tcOf, if_pos (by omega), codeOf, if_pos h]

theorem tcOf_two (h1 : 0x80 ≤ c.toNat) (h2 : c.toNat < 0x800) :
    0x2000 ≤ tcOf c ∧ tcOf c < 0x4000 := by
  rw [tcOf, if_pos (by omega), codeOf, if_neg (by omega), if_pos h2, tcOfTwo]
  have hand : c.toNat &&& 0x0FFF ≤ c.toNat := Nat.and_le_left
  split_ifs
  · exact ⟨(show 0x2000 ≤ 0x2700 by decide).trans Nat.left_le_or,
      Nat.or_lt_two_pow (n := 14) (by decide) (by omega)⟩
  · decide
  · decide
  · exact ⟨Nat.left_le_or, Nat.or_lt_two_pow (n := 14) (by decide) (by omega)⟩

theorem tcOf_three (h3 : 0x800 ≤ c.toNat) (h4 : c.toNat < 0x10000) :
    tcOf c >>> 8 ≠ 0x27 ∧ 0x21 ≤ tcOf c >>> 8 := by
  rw [tcOf, if_pos h4, codeOf, if_neg (by omega), if_neg (by omega), tcOfThree]
  have hand : ∀ n : Nat, n &&& 0xFF < 256 := fun n =>
    Nat.lt_of_le_of_lt Nat.and_le_right (by decide)
  split_ifs
  all_goals try rw [high_or (by omega)]
  all_goals try rw [high_or (hand _)]
  all_goals try decide
  rw [Nat.shiftLeft_shiftRight]
  have hkanji : ∀ k : Nat, 0x30 + k ≠ 0x27 ∧ 0x21 ≤ 0x30 + k := by omega
  exact hkanji _

theorem tcOf_four (h : 0x10000 ≤ c.toNat) : tcOf c >>> 8 = 0xFF := by
  rw [tcOf, if_neg (by omega), high_or (by omega)]
  rfl

theorem isMark_iff (h : tcOf c >>> 8 = 0x6F) :
    IsMark c ↔ 0x0F0B ≤ tibetanCp (tcOf c) ∧ tibetanCp (tcOf c) ≤ 0x0F0E := by
  rw [Nat.shiftRight_eq_div_pow] at h
  rw [IsMark, tibetanCp, Nat.and_two_pow_sub_one_eq_mod (n := 8)]
  have hlow : ∀ n : Nat, n / 2 ^ 8 = 0x6F → (0x6F0B ≤ n ∧ n ≤ 0x6F0E ↔
      0x0F0B ≤ 0x0F00 + n % 2 ^ 8 ∧ 0x0F00 + n % 2 ^ 8 ≤ 0x0F0E) := by omega
  exact hlow _ h

theorem drawAdvance_block (h : tcOf c >>> 8 = 0x6F) :
    drawAdvance (tcOf c) = if IsStacked c then 0 else if IsMark c then 3 else 8 := by
  rw [drawAdvance, if_pos h]
  have hstacked : IsStacked c ↔ IsCombining (tibetanCp (tcOf c)) := by
    simp [IsStacked, isCombining, h]
  simp only [hstacked, isMark_iff h]
  split_ifs <;> first | rfl | omega

theorem space_iff : c = ' ' ↔ c.toNat = 0x20 := by
  rw [← Char.toNat_inj]
  rfl

-- Outside the Tibetan block
theorem not_block (h : tcOf c >>> 8 ≠ 0x6F) : ¬IsStacked c ∧ ¬IsMark c ∧ ¬IsBase c := by
  refine ⟨?_, ?_, fun hbase => h hbase.1⟩
  · simp [IsStacked, isCombining_other h]
  · have hmark : ∀ n : Nat, n / 2 ^ 8 ≠ 0x6F → ¬(0x6F0B ≤ n ∧ n ≤ 0x6F0E) := by omega
    rw [Nat.shiftRight_eq_div_pow] at h
    exact hmark _ h

theorem penAdvance_other (h : tcOf c >>> 8 ≠ 0x6F) (hsp : tcOf c ≠ 0x20) (prev : TC) :
    penAdvance (tcOf c) prev = glyphWidth (tcOf c) := by
  rw [penAdvance, if_neg (fun hskip => hsp hskip.1), drawAdvance, if_neg h, if_neg hsp]

theorem tcOf_space : tcOf ' ' = 0x20 := rfl

theorem high_ge {code : TC} (h : 0x20 ≤ code >>> 8) : code ≠ 0x20 ∧ ¬code < 128 := by
  have hge : ∀ n : Nat, 0x20 ≤ n / 2 ^ 8 → n ≠ 0x20 ∧ ¬n < 128 := by omega
  rw [Nat.shiftRight_eq_div_pow] at h
  exact hge _ h

theorem glyphWidth_other (hblock : tcOf c >>> 8 ≠ 0x6F) (h : 0x20 ≤ tcOf c >>> 8) :
    glyphWidth (tcOf c) =
      if tcOf c >>> 8 = 0x27 ∧ HasCyrillicGlyph (tcOf c &&& 0xFF) then 8 else 16 := by
  rw [glyphWidth, if_neg (high_ge h).2, if_neg hblock]

-- One character: what the terminal measures beyond the drawing
def Exceeds (c : Char) (prev : TC) : Prop :=
  leadWidth c + 8 * (if IsFullTwo c then 1 else 0 : Nat) =
    penAdvance (tcOf c) prev + (2 * (if c = ' ' then 1 else 0) +
      6 * (if tcOf c = 0x20 ∧ prev = 0x6F0B then 1 else 0) +
      16 * (if IsStacked c then 1 else 0) + 13 * (if IsMark c then 1 else 0) +
      8 * (if IsBase c then 1 else 0) + 16 * (if IsFour c then 1 else 0) : Nat)

theorem ne_space (h : 0x80 ≤ c.toNat) : c ≠ ' ' :=
  fun heq => absurd (space_iff.mp heq) (by omega)

theorem exceeds_one (h1 : c.toNat < 0x80) (prev : TC) : Exceeds c prev := by
  rw [Exceeds]
  have htc := tcOf_one h1
  have hblock : tcOf c >>> 8 ≠ 0x6F := by
    rw [htc, Nat.shiftRight_eq_div_pow, Nat.div_eq_of_lt (by omega)]
    decide
  obtain ⟨hn1, hn2, hn3⟩ := not_block hblock
  have htwo : ¬IsFullTwo c := fun h => absurd h.1 (not_le.mpr h1)
  have hfour : ¬IsFour c := by
    rw [IsFour]
    omega
  have hlead : leadWidth c = 8 := if_pos (by omega)
  by_cases hsp : c = ' '
  · subst hsp
    simp only [hn1, hn2, hn3, htwo, hfour, hlead, tcOf_space, penAdvance, true_and, if_false,
      if_true]
    have hdraw : drawAdvance 0x20 = 6 := rfl
    rw [hdraw]
    split <;> rfl
  · have hsp' : tcOf c ≠ 0x20 := by
      rw [htc]
      exact fun h => hsp (space_iff.mpr h)
    have hglyph : glyphWidth (tcOf c) = 8 := by
      rw [htc, glyphWidth, if_pos (h1)]
    simp only [hn1, hn2, hn3, htwo, hfour, hlead, hsp, hsp', penAdvance_other hblock hsp', hglyph,
      false_and, if_false]
    rfl

theorem exceeds_two (h1 : 0x80 ≤ c.toNat) (h2 : c.toNat < 0x800) (prev : TC) :
    Exceeds c prev := by
  rw [Exceeds]
  have hsp := ne_space h1
  obtain ⟨hlow, hhigh⟩ := tcOf_two h1 h2
  have hshift : ∀ n : Nat, 0x2000 ≤ n → n < 0x4000 → n / 2 ^ 8 ≠ 0x6F ∧ 0x20 ≤ n / 2 ^ 8 := by
    omega
  have hcode := hshift _ hlow hhigh
  rw [← Nat.shiftRight_eq_div_pow] at hcode
  obtain ⟨hblock, hge⟩ := hcode
  obtain ⟨hn1, hn2, hn3⟩ := not_block hblock
  have hsp' := (high_ge hge).1
  have hfour : ¬IsFour c := by
    rw [IsFour]
    omega
  have hlead : leadWidth c = 8 := if_pos h2
  have htwo : IsFullTwo c ↔ ¬(tcOf c >>> 8 = 0x27 ∧ HasCyrillicGlyph (tcOf c &&& 0xFF)) :=
    ⟨fun h => h.2.2, fun h => ⟨h1, h2, h⟩⟩
  simp only [hn1, hn2, hn3, hfour, hlead, hsp, hsp', penAdvance_other hblock hsp',
    glyphWidth_other hblock hge, htwo, false_and, if_false]
  split_ifs <;> rfl

theorem exceeds_three (h2 : 0x800 ≤ c.toNat) (h3 : c.toNat < 0x10000) (prev : TC) :
    Exceeds c prev := by
  rw [Exceeds]
  have hsp := ne_space ((show 0x80 ≤ 0x800 by decide).trans h2)
  have htwo : ¬IsFullTwo c := fun h => absurd h.2.1 (not_lt.mpr h2)
  obtain ⟨hcyr, hge⟩ := tcOf_three h2 h3
  have hsp' := (high_ge (Nat.le_of_succ_le hge)).1
  have hfour : ¬IsFour c := by
    rw [IsFour]
    omega
  have hlead : leadWidth c = 16 := by
    rw [leadWidth, if_neg (not_lt.mpr h2), if_pos h3]
  by_cases hblock : tcOf c >>> 8 = 0x6F
  · have hpen : penAdvance (tcOf c) prev = drawAdvance (tcOf c) :=
      if_neg fun hskip => hsp' hskip.1
    simp only [htwo, hfour, hlead, hsp, hsp', hpen, drawAdvance_block hblock, IsBase, hblock,
      false_and, if_false, true_and]
    by_cases hs : IsStacked c
    · have hmark : ¬IsMark c := by
        rw [isMark_iff hblock]
        simp only [IsStacked, isCombining, hblock, true_and, decide_eq_true_eq] at hs
        rw [IsCombining] at hs
        omega
      simp only [hs, hmark, not_true, false_and, if_true, if_false]
      rfl
    · by_cases hmark : IsMark c
      · simp only [hs, hmark, not_true, and_false, if_true, if_false]
        rfl
      · simp only [hs, hmark, not_false_iff, and_true, if_true, if_false]
        rfl
  · obtain ⟨hn1, hn2, hn3⟩ := not_block hblock
    simp only [hn1, hn2, hn3, htwo, hfour, hlead, hsp, hsp', penAdvance_other hblock hsp',
      glyphWidth_other hblock (Nat.le_of_succ_le hge), hcyr, false_and, if_false]
    rfl

theorem exceeds_four (h3 : 0x10000 ≤ c.toNat) (prev : TC) : Exceeds c prev := by
  rw [Exceeds]
  have hsp := ne_space ((show 0x80 ≤ 0x10000 by decide).trans h3)
  have htwo : ¬IsFullTwo c := by
    rintro ⟨-, h2, -⟩
    omega
  have hhigh := tcOf_four h3
  have hblock : tcOf c >>> 8 ≠ 0x6F := by
    rw [hhigh]
    decide
  have hge : 0x20 ≤ tcOf c >>> 8 := by
    rw [hhigh]
    decide
  have hcyr : ¬tcOf c >>> 8 = 0x27 := by
    rw [hhigh]
    decide
  obtain ⟨hn1, hn2, hn3⟩ := not_block hblock
  have hsp' := (high_ge hge).1
  have hfour : IsFour c := h3
  have hlead : leadWidth c = 32 := by
    rw [leadWidth, if_neg (by omega), if_neg (not_lt.mpr h3)]
  simp only [hn1, hn2, hn3, htwo, hfour, hlead, hsp, hsp', penAdvance_other hblock hsp',
    glyphWidth_other hblock hge, hcyr, false_and, if_false, if_true]
  rfl

theorem exceeds (c : Char) (prev : TC) : Exceeds c prev := by
  by_cases h1 : c.toNat < 0x80
  · exact exceeds_one h1 prev
  by_cases h2 : c.toNat < 0x800
  · exact exceeds_two (Nat.le_of_not_lt h1) h2 prev
  by_cases h3 : c.toNat < 0x10000
  · exact exceeds_three (Nat.le_of_not_lt h2) h3 prev
  · exact exceeds_four (Nat.le_of_not_lt h3) prev

theorem countP_cons_ite {P : Char → Prop} [DecidablePred P] :
    (c :: cs).countP (P ·) = cs.countP (P ·) + if P c then 1 else 0 := by
  rw [List.countP_cons]
  simp only [decide_eq_true_eq]

theorem lead_sum (cs : List Char) (prev : TC) :
    total leadWidth cs + 8 * (cs.countP (IsFullTwo ·) : Int) =
      penMoves prev (cs.map tcOf) + (2 * cs.countP (· = ' ') +
        6 * spacesLeftOut prev (cs.map tcOf) + 16 * cs.countP (IsStacked ·) +
        13 * cs.countP (IsMark ·) + 8 * cs.countP (IsBase ·) +
        16 * cs.countP (IsFour ·) : Nat) := by
  induction cs generalizing prev with
  | nil => rfl
  | cons c cs ih =>
      have hrest := ih (penPrev (tcOf c) prev)
      have hhead := exceeds c prev
      rw [Exceeds] at hhead
      simp only [List.map_cons, total, penMoves, spacesLeftOut, countP_cons_ite]
      omega

theorem drawAdvance_le (code : TC) : 0 ≤ drawAdvance code ∧ drawAdvance code ≤ 16 := by
  unfold drawAdvance glyphWidth
  dsimp only
  split_ifs <;> decide

theorem drawAdvance_ascii {code : TC} (h : code < 128) : drawAdvance code ≤ 8 := by
  have hblock : code >>> 8 ≠ 0x6F := by
    rw [Nat.shiftRight_eq_div_pow, Nat.div_eq_of_lt (Nat.lt_trans h (by decide))]
    decide
  rw [drawAdvance, if_neg hblock, glyphWidth, if_pos h]
  split <;> decide

-- The tracker allows for every character at least what it is drawn on.
theorem tracker_step (c : Char) (prev : TC) :
    0 ≤ penAdvance (tcOf c) prev ∧ penAdvance (tcOf c) prev ≤ trackerWidth c := by
  obtain ⟨hpos, hle⟩ := drawAdvance_le (tcOf c)
  rw [penAdvance, trackerWidth]
  by_cases h1 : c.toNat < 0x80
  · have hascii : drawAdvance (tcOf c) ≤ 8 := drawAdvance_ascii (tcOf_one h1 ▸ h1)
    split_ifs <;> omega
  · split_ifs <;> omega

theorem tracker_sum (cs : List Char) (prev : TC) :
    0 ≤ penMoves prev (cs.map tcOf) ∧
      penMoves prev (cs.map tcOf) ≤ total trackerWidth cs := by
  induction cs generalizing prev with
  | nil => exact ⟨Int.le_refl 0, Int.le_refl 0⟩
  | cons c cs ih =>
      obtain ⟨hrest, hrestLe⟩ := ih (penPrev (tcOf c) prev)
      obtain ⟨hhead, hheadLe⟩ := tracker_step c prev
      rw [List.map_cons, penMoves, total]
      omega

theorem lead_gives (hwrap : ∀ a b, wrap (wrap a + b) = wrap (a + b)) (hzero : wrap 0 = 0)
    (hcs : ∀ c ∈ cs, InLine c) (h : TextAt str 0 cs) :
    Gives (fun fuel => loop (sumTurn leadRule wrap str) fuel (0, 0))
      (wrap (total leadWidth cs)) := by
  obtain ⟨x, hx, hval⟩ : ∃ x, Ends (sumTurn leadRule wrap str) (0, wrap 0) x ∧
      x.val = wrap (0 + total leadWidth cs) :=
    sum_gives (fun c hc i k hstored => lead_reaches hwrap (hcs c hc).1 hstored k) h 0
  rw [hzero] at hx
  rw [Int.zero_add] at hval
  rw [← hval]
  exact hx.gives

theorem tracker_gives (hcs : ∀ c ∈ cs, InLine c) (h : TextAt str 0 cs) :
    Gives (fun fuel => trackerCalcTextWidth fuel str) (asH (total trackerWidth cs)) := by
  obtain ⟨x, hx, hval⟩ : ∃ x, Ends (sumTurn trackerRule asH str) (0, asH 0) x ∧
      x.val = asH (0 + total trackerWidth cs) := by
    refine sum_gives (fun c hc i k hstored => ?_) h 0
    exact reaches_one asH_add (head_ne_zero (hcs c hc).1 hstored)
      (trackerRule_char (hcs c hc) hstored) k
  rw [Int.zero_add] at hval
  rw [← hval]
  exact hx.gives

theorem leadWidth_nonneg (c : Char) : 0 ≤ leadWidth c := by
  rw [leadWidth]
  split_ifs <;> decide

theorem total_leadWidth_nonneg (cs : List Char) : 0 ≤ total leadWidth cs := by
  induction cs with
  | nil => exact Int.le_refl 0
  | cons c cs ih => exact Int.add_nonneg (leadWidth_nonneg c) ih

theorem asH_self {n : Int} (h0 : 0 ≤ n) (h : n < 32768) : asH n = n := by
  rw [Graphics.asH_eq]
  omega

-- The titles of windows are in 64 bytes.
theorem title_go (hne : str i ≠ 0) (fuel : Nat) (w : Int) :
    Window.calculateTitleDisplayWidth.go str (fuel + 1) i w =
      Window.calculateTitleDisplayWidth.go str fuel (i + (leadRule str i).val.1)
        (w + (leadRule str i).val.2) := by
  rw [Window.calculateTitleDisplayWidth.go, if_neg hne, leadRule, val_read_bind]
  split_ifs <;> rfl

theorem title_go_char (h0 : 0 < c.toNat) (h : Stored str i (utf8EncodeChar c)) {fuel : Nat}
    (hfuel : (utf8EncodeChar c).length ≤ fuel) (w : Int) :
    ∃ fuel', fuel ≤ fuel' + (utf8EncodeChar c).length ∧
      Window.calculateTitleDisplayWidth.go str fuel i w =
        Window.calculateTitleDisplayWidth.go str fuel' (i + (utf8EncodeChar c).length)
          (w + leadWidth c) := by
  have hne := head_ne_zero h0 h
  by_cases hbmp : c.toNat < 0x10000
  · have hpos := encode_length_pos c
    obtain ⟨fuel, rfl⟩ : ∃ k, fuel = k + 1 := ⟨fuel - 1, by omega⟩
    refine ⟨fuel, by omega, ?_⟩
    rw [title_go hne, leadRule_char h0 hbmp h]
  · have hstep := leadStep_char h0 h
    rw [encode_four (Nat.le_of_not_lt hbmp)] at h hstep hfuel ⊢
    simp only [stored_cons] at h
    obtain ⟨-, hs1, hs2, hs3, -⟩ := h
    have ht1 : IsTail (str (i + 1)) := ⟨_, hs1⟩
    have ht2 : IsTail (str (i + 1 + 1)) := ⟨_, hs2⟩
    have ht3 : IsTail (str (i + 1 + 1 + 1)) := ⟨_, hs3⟩
    have hwidth : w + leadWidth c = w + 8 + 8 + 8 + 8 := by
      rw [leadWidth, if_neg (by omega), if_neg hbmp]
      omega
    obtain ⟨fuel, rfl⟩ : ∃ k, fuel = k + 1 + 1 + 1 + 1 := ⟨fuel - 4, by
      simp only [List.length_cons, List.length_nil] at hfuel
      omega⟩
    refine ⟨fuel, Nat.le_refl _, ?_⟩
    rw [hwidth, title_go hne, leadRule_four hstep, title_go ht1.lead.1, leadRule_tail ht1,
      title_go ht2.lead.1, leadRule_tail ht2, title_go ht3.lead.1, leadRule_tail ht3]
    rfl

theorem title_go_text (hcs : ∀ c ∈ cs, InLine c) (h : TextAt str i cs) {fuel : Nat}
    (hfuel : (bytes cs).length < fuel) (w : Int) :
    Window.calculateTitleDisplayWidth.go str fuel i w = w + total leadWidth cs := by
  induction cs generalizing i fuel w with
  | nil =>
      have hend : str i = 0 := h.terminator
      obtain ⟨fuel, rfl⟩ : ∃ k, fuel = k + 1 := ⟨fuel - 1, by omega⟩
      rw [Window.calculateTitleDisplayWidth.go, if_pos hend, total, Int.add_zero]
  | cons c cs ih =>
      rw [List.forall_mem_cons] at hcs
      obtain ⟨hhead, htail⟩ := textAt_cons.mp h
      rw [bytes_cons, List.length_append] at hfuel
      have hroom : (utf8EncodeChar c).length ≤ fuel := by omega
      obtain ⟨fuel', hle, hgo⟩ := title_go_char hcs.1.1 hhead hroom w
      rw [hgo, ih hcs.2 htail (by omega), total, Int.add_assoc]

theorem titleDisplayWidth_window (hcs : ∀ c ∈ cs, InLine c) (h : TextAt str 0 cs)
    (hlen : (bytes cs).length < 64) :
    Gives (fun fuel => titleDisplayWidth fuel str)
      (asH (Window.calculateTitleDisplayWidth str)) := by
  rw [Window.calculateTitleDisplayWidth, title_go_text hcs h hlen, Int.zero_add]
  exact lead_gives asH_add rfl hcs h

-- The tracker always measures enough. The terminal measures what is drawn, and the title tab
-- is then wide enough, if and only if the characters counted balance.
theorem widths_agree_iff (hcs : ∀ c ∈ cs, InLine c) (h : TextAt str 0 cs)
    (hlead : total leadWidth cs < 32768) (htrack : total trackerWidth cs < 32768)
    (x y : Int) :
    ∃ g t w pen, Gives (fun fuel => gtermCalcTextPixelWidth fuel str) g ∧
      Gives (fun fuel => trackerCalcTextWidth fuel str) t ∧
      Gives (fun fuel => titleDisplayWidth fuel str) w ∧
      Gives (fun fuel => renderTcString fuel x y str) pen ∧
      ((g = asH (pen.curX - x) ∧ asH (pen.curX - x) ≤ t ∧ asH (pen.curX - x) ≤ w) ↔
        Balanced cs) := by
  have hstart : asH ((⟨0, x, y, 0, 0, []⟩ : Pen).curX - x) = asH 0 := by
    simp
  obtain ⟨r, hr, hpen⟩ := render_ends (s := ⟨0, x, y, 0, 0, []⟩) hcs h hstart
  refine ⟨_, _, _, r.val, lead_gives (fun _ _ => rfl) rfl hcs h, tracker_gives hcs h,
    lead_gives asH_add rfl hcs h, hr.gives, ?_⟩
  obtain ⟨hpos, hle⟩ := tracker_sum cs 0
  have hsum := lead_sum cs 0
  have hleadPos := total_leadWidth_nonneg cs
  rw [hpen, Int.zero_add, asH_self hpos (by omega), asH_self (by omega) htrack,
    asH_self hleadPos hlead, id, Balanced]
  omega

-- `aж`
theorem widths_agree_cyrillic :
    ∃ g t w pen,
      Gives (fun fuel => gtermCalcTextPixelWidth fuel (ofList (bytes ['a', 'ж'] ++ [0]))) g ∧
      Gives (fun fuel => trackerCalcTextWidth fuel (ofList (bytes ['a', 'ж'] ++ [0]))) t ∧
      Gives (fun fuel => titleDisplayWidth fuel (ofList (bytes ['a', 'ж'] ++ [0]))) w ∧
      Gives (fun fuel => renderTcString fuel 4 0 (ofList (bytes ['a', 'ж'] ++ [0]))) pen ∧
      ((g = asH (pen.curX - 4) ∧ asH (pen.curX - 4) ≤ t ∧ asH (pen.curX - 4) ≤ w) ↔
        Balanced ['a', 'ж']) :=
  widths_agree_iff (by simp [InLine]) (stored_ofList _) (by decide) (by decide) 4 0

-- `a b` is drawn on 22 dots and measures 24 in the terminal; `é` is drawn on 16, and measures 8
-- both there and for the title tab.
theorem widths_differ :
    (gtermCalcTextPixelWidth 4 (ofList [0x61, 0x20, 0x62])).val = some 24 ∧
    (renderTcString 4 0 0 (ofList [0x61, 0x20, 0x62])).val.map (·.curX) = some 22 ∧
    (gtermCalcTextPixelWidth 2 (ofList [0xC3, 0xA9])).val = some 8 ∧
    (titleDisplayWidth 2 (ofList [0xC3, 0xA9])).val = some 8 ∧
    (renderTcString 2 0 0 (ofList [0xC3, 0xA9])).val.map (·.curX) = some 16 := by
  decide

end BTron.TronCode
