import BTron.TadBrowser

namespace BTron.TadBrowser

open Lib Lib.Logged Relation

-- The loop condition.
def Guard (b : Buffer) (s : LoadState) : Prop :=
  w32 (s.offset + 6) ≤ b.len ∧ s.spans.length < tadMaxSpans

-- The segments that are decoded into a span.
def addsSpan (tag segLen : Nat) : Prop := tag = 0xA8 ∧ 5 ≤ segLen ∨ tag = 0xB0

-- A turn at `o` that gets nowhere: a segment without a span whose length wraps around to `o`
-- or before it, a turn behind the end of the buffer, or a text piece whose 511 bytes are all
-- taken back because the 511 bytes after the first one are continuation bytes.
def Stalls (b : Buffer) (o : Nat) : Prop :=
  if b.bytes o = 0xFF then
    let header := (segHeader b.bytes o).val
    let next := w32 (w32 (o + 6) + header.2)
    next ≤ b.len ∧ next ≤ o ∧ ¬addsSpan header.1 header.2
  else
    b.len ≤ o ∨ o + 511 < b.len ∧ b.bytes o ≠ 0x0A ∧
      ∀ k, 1 ≤ k → k ≤ 511 → Utf8.isCont (b.bytes (o + k)) = true

-- span_count goes up or the offset does.
def Advances (s s' : LoadState) : Prop :=
  s.spans.length < s'.spans.length ∨ s.offset < s'.offset

-- The loop is left, every turn advances, and no pair of offset and span_count comes twice.
structure Terminates (b : Buffer) : Prop where
  halts : Halts (loadStep b) loadStart
  advances : ∀ s s', Reaches (loadStep b) loadStart s → loadStep b s = some s' → Advances s s'
  fresh : ∀ s s', Reaches (loadStep b) loadStart s → TransGen (Next (loadStep b)) s s' →
    (s.offset, s.spans.length) ≠ (s'.offset, s'.spans.length)

theorem isCont_not_lf {c : UB} (h : Utf8.isCont c = true) : isLf c = false := by
  by_contra hlf
  rw [Bool.not_eq_false, isLf, beq_iff_eq] at hlf
  subst hlf
  exact absurd h (by decide)

theorem isCont_ne {c : UB} (h : Utf8.isCont c = true) : c ≠ 0x20 ∧ c ≠ 0xFF := by
  constructor <;>
    · rintro rfl
      exact absurd h (by decide)

theorem lineLen_le (stop : UB → Bool) (p : Memory) (o e : Nat) :
    lineLen stop p o e ≤ min (e - o) 511 := by
  have hb := scan_bounds (fun i => stop (p i)) (min (e - o) 511) o
  unfold lineLen
  omega

theorem lineLen_before {stop : UB → Bool} {p : Memory} {o e k : Nat}
    (hk : k < lineLen stop p o e) : stop (p (o + k)) = false := by
  have hk' : o + k < scan (fun i => stop (p i)) (min (e - o) 511) o := Nat.add_lt_of_lt_sub' hk
  exact scan_before (Nat.le_add_right o k) hk'

-- What ends a line: the end of the text, a line end, or the size of `line`.
theorem lineLen_end (stop : UB → Bool) (p : Memory) (o e : Nat) :
    lineLen stop p o e = e - o ∨ stop (p (o + lineLen stop p o e)) = true ∨
      lineLen stop p o e = 511 ∧ o + 511 < e := by
  have hb := scan_bounds (fun i => stop (p i)) (min (e - o) 511) o
  rcases Nat.lt_or_ge (scan (fun i => stop (p i)) (min (e - o) 511) o) (o + min (e - o) 511)
    with hlt | hge
  · right; left
    rw [lineLen, Nat.add_sub_cancel' hb.1]
    exact scan_stop hlt
  · unfold lineLen
    omega

theorem lineLen_pos {stop : UB → Bool} {p : Memory} {o e : Nat} (he : o < e)
    (hs : stop (p o) = false) : 0 < lineLen stop p o e := by
  by_contra h0
  have hzero : lineLen stop p o e = 0 := by omega
  have hend := lineLen_end stop p o e
  rw [hzero, Nat.add_zero, hs] at hend
  simp at hend
  omega

-- How a line is cut: not at all, behind a space, or before the first byte of a character.
theorem cutLine_cases (stop : UB → Bool) (p : Memory) (o e : Nat) :
    (cutLine stop p o e = lineLen stop p o e ∧
        (lineLen stop p o e = e - o ∨ stop (p (o + lineLen stop p o e)) = true)) ∨
      lineLen stop p o e = 511 ∧ o + 511 < e ∧ cutLine stop p o e ≤ 511 ∧
        (255 < cutLine stop p o e ∧ p (o + (cutLine stop p o e - 1)) = 0x20 ∨
          (∀ k, cutLine stop p o e ≤ k → k < 511 → Utf8.isCont (p (o + k + 1)) = true) ∧
          (0 < cutLine stop p o e → Utf8.isCont (p (o + cutLine stop p o e)) = false)) := by
  have hle := lineLen_le stop p o e
  rcases lineLen_end stop p o e with hend | hstop | ⟨hfull, he⟩
  · left
    refine ⟨?_, .inl hend⟩
    rw [cutLine]
    dsimp only
    rw [if_neg (by omega)]
  · left
    refine ⟨?_, .inr hstop⟩
    rw [cutLine]
    dsimp only
    rw [hstop, if_neg (by simp)]
  · by_cases hs : stop (p (o + 511)) = true
    · left
      refine ⟨?_, .inr (hfull ▸ hs)⟩
      rw [cutLine]
      dsimp only
      rw [hfull, hs, if_neg (by simp)]
    · right
      refine ⟨hfull, he, ?_⟩
      rw [cutLine]
      dsimp only
      rw [hfull, if_pos ⟨he, by simpa using hs⟩]
      split
      · rename_i hsafe
        refine ⟨backWhile_le _ _ _, .inl ⟨hsafe, ?_⟩⟩
        simpa using backWhile_stop hsafe
      · refine ⟨backWhile_le _ _ _, .inr ⟨fun k hk hk' => backWhile_after hk hk', fun h0 => ?_⟩⟩
        have hstop := backWhile_stop h0
        rwa [Nat.add_assoc, Nat.sub_add_cancel h0] at hstop

theorem cutLine_le (stop : UB → Bool) (p : Memory) (o e : Nat) :
    cutLine stop p o e ≤ min (e - o) 511 := by
  have hle := lineLen_le stop p o e
  rcases cutLine_cases stop p o e with ⟨heq, -⟩ | ⟨-, he, hc, -⟩ <;> omega

-- A line is empty at the end of the text, at a line end, or when it is taken back whole.
theorem cutLine_eq_zero_iff (stop : UB → Bool) (p : Memory) (o e : Nat)
    (hstop : ∀ c, Utf8.isCont c = true → stop c = false) :
    cutLine stop p o e = 0 ↔ e ≤ o ∨ stop (p o) = true ∨
      o + 511 < e ∧ ∀ k, 1 ≤ k → k ≤ 511 → Utf8.isCont (p (o + k)) = true := by
  constructor
  · intro h0
    by_cases he : e ≤ o
    · exact .inl he
    · by_cases hs : stop (p o) = true
      · exact .inr (.inl hs)
      · have hpos := lineLen_pos (e := e) (Nat.lt_of_not_le he) (by simpa using hs)
        rcases cutLine_cases stop p o e with ⟨heq, -⟩ | ⟨-, he', -, hcut⟩
        · omega
        · refine .inr (.inr ⟨he', fun k hk hk' => ?_⟩)
          rcases hcut with ⟨hsafe, -⟩ | ⟨hcont, -⟩
          · omega
          · have hk1 := hcont (k - 1) (by omega) (by omega)
            rwa [Nat.add_assoc, Nat.sub_add_cancel hk] at hk1
  · intro h
    have hle := lineLen_le stop p o e
    have hzero : stop (p o) = true → lineLen stop p o e = 0 := by
      intro hs
      by_contra hne
      have hfirst := lineLen_before (Nat.pos_of_ne_zero hne)
      rw [Nat.add_zero, hs] at hfirst
      exact absurd hfirst (by decide)
    rcases h with he | hs | ⟨he, hcont⟩
    · have hle := cutLine_le stop p o e
      omega
    · have hlen := hzero hs
      rcases cutLine_cases stop p o e with ⟨heq, -⟩ | ⟨hfull, -⟩ <;> omega
    · by_contra hne
      have hnostop : ∀ k, 1 ≤ k → k ≤ 511 → stop (p (o + k)) = false := fun k hk hk' =>
        hstop _ (hcont k hk hk')
      rcases cutLine_cases stop p o e with
        ⟨heq, hend | hend⟩ | ⟨hfull, -, hc, ⟨hsafe, hsp⟩ | ⟨-, hch⟩⟩
      · omega
      · rw [hnostop _ (by omega) (by omega)] at hend
        exact absurd hend (by decide)
      · exact (isCont_ne (hcont _ (by omega) (by omega))).1 hsp
      · rw [hcont _ (by omega) (by omega)] at hch
        exact absurd (hch (by omega)) (by decide)

theorem runEnd_bounds (p : Memory) (len o : Nat) :
    o ≤ runEnd p len o ∧ runEnd p len o ≤ o + (len - o) :=
  scan_bounds _ _ _

theorem textStep_advances_iff (b : Buffer) (s : LoadState) (hp : b.bytes s.offset ≠ 0xFF) :
    Advances s (textStep b.bytes b.len s) ↔ ¬Stalls b s.offset := by
  obtain ⟨hlo, hhi⟩ := runEnd_bounds b.bytes b.len s.offset
  have hzero := cutLine_eq_zero_iff isLf b.bytes s.offset (runEnd b.bytes b.len s.offset)
    fun _ => isCont_not_lf
  have hrun : s.offset < b.len → s.offset < runEnd b.bytes b.len s.offset := by
    intro hlt
    by_contra hge
    have heq : runEnd b.bytes b.len s.offset = s.offset := by omega
    have hstop : (b.bytes (runEnd b.bytes b.len s.offset) == 0xFF) = true :=
      scan_stop (show runEnd b.bytes b.len s.offset < s.offset + (b.len - s.offset) by omega)
    rw [heq, beq_iff_eq] at hstop
    exact hp hstop
  have hlf : isLf (b.bytes s.offset) = true ↔ b.bytes s.offset = 0x0A := by simp [isLf]
  have hadv : Advances s (textStep b.bytes b.len s) ↔
      ¬(cutLine isLf b.bytes s.offset (runEnd b.bytes b.len s.offset) = 0 ∧
        (s.offset < runEnd b.bytes b.len s.offset → isLf (b.bytes s.offset) = false)) := by
    unfold Advances textStep
    dsimp only
    by_cases h0 : cutLine isLf b.bytes s.offset (runEnd b.bytes b.len s.offset) = 0
    · rw [h0, Nat.add_zero]
      by_cases hc : s.offset < runEnd b.bytes b.len s.offset ∧ isLf (b.bytes s.offset) = true
      · simp [hc]
      · rw [if_neg hc]
        simpa using hc
    · simp [h0, Nat.pos_of_ne_zero h0]
  rw [hadv, not_iff_not, hzero, Stalls, if_neg hp]
  constructor
  · rintro ⟨he | hs | ⟨he, hcont⟩, hnolf⟩
    · exact .inl (Nat.le_of_not_lt fun hlt => by have := hrun hlt; omega)
    · by_cases hlt : s.offset < b.len
      · rw [hnolf (hrun hlt)] at hs
        exact absurd hs (by decide)
      · exact .inl (Nat.le_of_not_lt hlt)
    · refine .inr ⟨by omega, fun h => ?_, hcont⟩
      rw [hnolf (by omega)] at hlf
      exact absurd (hlf.mpr h) (by decide)
  · rintro (he | ⟨he, hnolf, hcont⟩)
    · exact ⟨.inl (by omega), fun h => by omega⟩
    · refine ⟨.inr (.inr ⟨?_, hcont⟩), fun _ => by simpa [isLf] using hnolf⟩
      by_contra hge
      have hstop : (b.bytes (runEnd b.bytes b.len s.offset) == 0xFF) = true :=
        scan_stop (show runEnd b.bytes b.len s.offset < s.offset + (b.len - s.offset) by omega)
      obtain ⟨k, hk⟩ := Nat.exists_eq_add_of_le hlo
      have hk0 := hrun (by omega)
      rw [hk, beq_iff_eq] at hstop
      exact (isCont_ne (hcont k (by omega) (by omega))).2 hstop

theorem decodeSegment_span (p : Memory) (len : Nat) (style : TadStyle) (tag offset segLen : Nat) :
    (decodeSegment p len style tag offset segLen).val.2.isSome = true ↔ addsSpan tag segLen := by
  unfold decodeSegment addsSpan
  split_ifs <;> simp_all

theorem segStep_val (p : Memory) (len : Nat) (s : LoadState) :
    (segStep p len s).val =
      let header := (segHeader p s.offset).val
      let next := w32 (w32 (s.offset + 6) + header.2)
      if len < next then none
      else
        let r := (decodeSegment p len s.style header.1 (w32 (s.offset + 6)) header.2).val
        some ⟨next, r.1, s.spans ++ r.2.toList⟩ := by
  simp only [segStep, segBody, val_bind, val_ite, val_pure]

-- What one turn of the loop does.
theorem loadStep_cases {b : Buffer} {s s' : LoadState} (h : loadStep b s = some s') :
    Guard b s ∧
      (b.bytes s.offset ≠ 0xFF ∧ s' = textStep b.bytes b.len s ∨
        b.bytes s.offset = 0xFF ∧
          ∃ r, (decodeSegment b.bytes b.len s.style (segHeader b.bytes s.offset).val.1
              (w32 (s.offset + 6)) (segHeader b.bytes s.offset).val.2).val = r ∧
            w32 (w32 (s.offset + 6) + (segHeader b.bytes s.offset).val.2) ≤ b.len ∧
            s' = ⟨w32 (w32 (s.offset + 6) + (segHeader b.bytes s.offset).val.2), r.1,
              s.spans ++ r.2.toList⟩) := by
  unfold loadStep at h
  split at h
  · rename_i hguard
    refine ⟨hguard, ?_⟩
    split at h
    · rename_i hff
      rw [segStep_val] at h
      dsimp only at h
      split at h
      · simp at h
      · rename_i hle
        exact .inr ⟨hff, _, rfl, Nat.le_of_not_lt hle, (Option.some.inj h).symm⟩
    · rename_i hff
      exact .inl ⟨hff, (Option.some.inj h).symm⟩
  · simp at h

theorem advances_iff {b : Buffer} {s s' : LoadState} (h : loadStep b s = some s') :
    Advances s s' ↔ ¬Stalls b s.offset := by
  obtain ⟨-, ⟨hff, rfl⟩ | ⟨hff, r, hr, hle, rfl⟩⟩ := loadStep_cases h
  · exact textStep_advances_iff b s hff
  · have hspan := decodeSegment_span b.bytes b.len s.style (segHeader b.bytes s.offset).val.1
      (w32 (s.offset + 6)) (segHeader b.bytes s.offset).val.2
    rw [hr] at hspan
    have hcount : s.spans.length < (s.spans ++ r.2.toList).length ↔ r.2.isSome = true := by
      cases r.2 <;> simp
    unfold Advances Stalls
    dsimp only
    rw [if_pos hff, hcount, hspan]
    constructor
    · rintro (hadd | hlt) ⟨-, hback, hnone⟩
      · exact hnone hadd
      · omega
    · intro hns
      by_contra hna
      rw [not_or] at hna
      exact hns ⟨hle, by omega, hna.1⟩

-- A stall is always a turn that is taken.
theorem loadStep_of_stalls {b : Buffer} {s : LoadState} (hg : Guard b s)
    (hstall : Stalls b s.offset) : ∃ s', loadStep b s = some s' := by
  unfold Guard at hg
  unfold loadStep
  rw [if_pos hg]
  unfold Stalls at hstall
  split at hstall
  · rename_i hff
    rw [if_pos hff, segStep_val]
    dsimp only at hstall ⊢
    rw [if_neg (Nat.not_lt.mpr hstall.1)]
    exact ⟨_, rfl⟩
  · rename_i hff
    rw [if_neg hff]
    exact ⟨_, rfl⟩

theorem spans_grow {b : Buffer} {s s' : LoadState} (h : loadStep b s = some s') :
    s.spans <+: s'.spans := by
  obtain ⟨-, ⟨-, rfl⟩ | ⟨-, r, -, -, rfl⟩⟩ := loadStep_cases h
  · unfold textStep
    dsimp only
    split
    · exact List.prefix_append _ _
    · exact List.prefix_refl _
  · exact List.prefix_append _ _

theorem offset_lt {b : Buffer} {s : LoadState} (h : Reaches (loadStep b) loadStart s) :
    s.offset < 4294967296 := by
  refine run_preserves (P := fun s => s.offset < 4294967296) (fun s s' hs hstep => ?_)
    (by decide) h
  obtain ⟨-, ⟨-, rfl⟩ | ⟨-, r, -, -, rfl⟩⟩ := loadStep_cases hstep
  · have hcut := cutLine_le isLf b.bytes s.offset (runEnd b.bytes b.len s.offset)
    have hrun := runEnd_bounds b.bytes b.len s.offset
    have hlen := b.len_lt
    unfold textStep
    dsimp only
    split <;> omega
  · exact w32_lt _

-- What is left: spans first, then bytes.
def remaining (s : LoadState) : Nat :=
  (tadMaxSpans - s.spans.length) * 4294967296 + (4294967296 - s.offset)

theorem remaining_lt {b : Buffer} {s s' : LoadState} (hreach : Reaches (loadStep b) loadStart s)
    (h : loadStep b s = some s') (hadv : Advances s s') : remaining s' < remaining s := by
  have hoff := offset_lt hreach
  have hguard := (loadStep_cases h).1.2
  have hle := (spans_grow h).length_le
  unfold remaining
  rcases Nat.eq_or_lt_of_le hle with heq | hlt
  · rw [heq]
    rcases hadv with hadv | hadv <;> omega
  · have hmul : (tadMaxSpans - s'.spans.length) * 4294967296 + 4294967296 ≤
        (tadMaxSpans - s.spans.length) * 4294967296 := by omega
    omega

-- The loop terminates exactly when it never stalls.
theorem terminates_iff (b : Buffer) :
    Terminates b ↔
      ∀ s, Reaches (loadStep b) loadStart s → Guard b s → ¬Stalls b s.offset := by
  constructor
  · intro ht s hreach hg hstall
    obtain ⟨s', hs'⟩ := loadStep_of_stalls hg hstall
    exact (advances_iff hs').mp (ht.advances s s' hreach hs') hstall
  · intro hns
    have hadv : ∀ s s', Reaches (loadStep b) loadStart s → loadStep b s = some s' →
        Advances s s' := fun s s' hreach hstep =>
      (advances_iff hstep).mpr (hns s hreach (loadStep_cases hstep).1)
    have hdec : ∀ s s', Reaches (loadStep b) loadStart s → loadStep b s = some s' →
        remaining s' < remaining s := fun s s' hreach hstep =>
      remaining_lt hreach hstep (hadv s s' hreach hstep)
    refine ⟨halts_of_measure remaining hdec, hadv, fun s s' hreach hrun heq => ?_⟩
    have hlt := measure_lt_of_transGen remaining hdec hreach hrun
    obtain ⟨hoff, hcount⟩ := Prod.mk.inj heq
    unfold remaining at hlt
    rw [hoff, hcount] at hlt
    exact Nat.lt_irrefl _ hlt

-- An empty page segment at the start whose declared length leads back to its own header.
def loopingTad : Buffer :=
  .ofBytes [0x00, 0x01, 0x00, 0x00, 0x00, 0x06, 0xFF, 0xA0, 0xFF, 0xFF, 0xFF, 0xFA] (by decide)

theorem loopingTad_runs_forever :
    isBinaryTad loopingTad ∧ loadStep loopingTad loadStart = some loadStart ∧
      ¬Halts (loadStep loopingTad) loadStart ∧ ¬Terminates loopingTad := by
  have hfix : loadStep loopingTad loadStart = some loadStart := by rfl
  have hrun := not_halts_of_fixed ReflTransGen.refl hfix
  exact ⟨by decide, hfix, hrun, fun ht => hrun ht.halts⟩

end BTron.TadBrowser
